import Node9.Names

/-!
# The host's files

What the system calls of the host do with names, as far as `devfs-posix.c` uses them. A host is a finite map
from real paths (elements from the root on) to nodes. A name is looked up element by element; `.` and an
empty element stay, `..` goes to the parent, a symbolic link goes on with its target, and everything before
the last element has to be a directory. A node is told from the others by its device and inode number.
-/

namespace Node9.Host
open Lexical Buf Names
open Option hiding all_eq_true
open List hiding lex span

abbrev Path := List Bytes

inductive Kind
  | dir
  | file
  | link (target : Bytes)
deriving DecidableEq

structure Node where
  dev : Nat
  ino : Nat
  kind : Kind
deriving DecidableEq

def Node.id (nd : Node) : Nat × Nat := (nd.dev, nd.ino)

/-- The directory `/` is at the path `[]`. -/
structure Fs where
  files : List (Path × Node)
  /-- the current directory of the process -/
  cwd : Path
  ids : (files.map fun f => f.2.id).Nodup

namespace Fs
variable (h : Fs)

def get (p : Path) : Option Node := (h.files.find? fun f => f.1 = p).map fun f => f.2

def isDir (p : Path) : Bool := (h.get p).any fun nd => nd.kind = .dir

/-- Nothing is below `p`. -/
def isEmpty (p : Path) : Bool := h.files.all fun f => !(p.isPrefixOf f.1 && f.1 ≠ p)

/-- From the directory `p` on; `follow` takes over at a symbolic link. -/
def walkFrom (follow : Path → List Bytes → Option Path) : Path → List Bytes → Option Path
  | p, [] => some p
  | p, e :: es =>
    if !h.isDir p then none
    else if e = [] ∨ e = [dot] then walkFrom follow p es
    else if e = [dot, dot] then walkFrom follow p.dropLast es
    else
      match h.get (p ++ [e]) with
      | none => none
      | some ⟨_, _, .link t⟩ => follow (if t.head? = some slash then [] else p) (t.splitOn slash ++ es)
      | some _ => walkFrom follow (p ++ [e]) es

/-- With at most `n` symbolic links on the way. -/
def namei : Nat → Path → List Bytes → Option Path
  | 0 => h.walkFrom fun _ _ => none
  | n + 1 => h.walkFrom (namei n)

/-- `ELOOP` -/
def maxlinks : Nat := 40

def start (s : Bytes) : Path := if s.head? = some slash then [] else h.cwd

/-- The file that `stat` finds. -/
def stat (s : Bytes) : Option Path := if s = [] then none else h.namei maxlinks (h.start s) (s.splitOn slash)

/-- The directory and the last element, which names what a call makes, removes or renames. -/
def parent (s : Bytes) : Option (Path × Bytes) :=
  let es := (s.splitOn slash).filter fun e => e ≠ []
  match es.getLast? with
  | none => none
  | some e =>
    if e = [dot] ∨ e = [dot, dot] then none
    else
      match h.namei maxlinks (h.start s) es.dropLast with
      | some d => if h.isDir d then some (d, e) else none
      | none => none

/-- The file that `lstat` finds. -/
def lstat (s : Bytes) : Option Path :=
  (h.parent s).bind fun (d, e) => if (h.get (d ++ [e])).isSome then some (d ++ [e]) else none

/-- The file that `xstat` of `devfs-posix.c` finds. -/
def locate (s : Bytes) : Option Path := (h.stat s).or (h.lstat s)

def insert (p : Path) (nd : Node) (hid : nd.id ∉ h.files.map fun f => f.2.id) : Fs :=
  ⟨(p, nd) :: h.files, h.cwd, List.nodup_cons.2 ⟨hid, h.ids⟩⟩

/-- The node at `p` goes away, and all below it (there is nothing, where this is used). -/
def erase (p : Path) : Fs :=
  ⟨h.files.filter fun f => !p.isPrefixOf f.1, h.cwd, h.ids.sublist (List.filter_sublist.map _)⟩

/-- The node at `p` and all below it go to `q`. -/
def move (p q : Path) : Fs where
  files := h.files.map fun f => (if p.isPrefixOf f.1 then q ++ f.1.drop p.length else f.1, f.2)
  cwd := h.cwd
  ids := by
    rw [List.map_map]
    exact h.ids

/-- `mkdir`; the host gives the node numbers that are not in use. -/
def mkdir (s : Bytes) (nd : Node) : Option Fs :=
  match h.parent s with
  | none => none
  | some (d, e) =>
    if h.get (d ++ [e]) = none then
      if hid : nd.id ∉ h.files.map fun f => f.2.id then some (h.insert (d ++ [e]) nd hid) else none
    else none

/-- `open` with `O_CREAT|O_EXCL`. -/
def creat (s : Bytes) (nd : Node) : Option Fs := if s.getLast? = some slash then none else h.mkdir s nd

/-- `rmdir`, or `remove` if `any`. -/
def remove (any : Bool) (s : Bytes) : Option Fs :=
  match h.parent s with
  | none => none
  | some (d, e) =>
    match h.get (d ++ [e]) with
    | none => none
    | some nd =>
      if nd.kind = .dir then if h.isEmpty (d ++ [e]) then some (h.erase (d ++ [e])) else none
      else if any then some (h.erase (d ++ [e])) else none

/-- What `rename` asks of a node that it replaces. -/
def replaceable (nd : Node) (q : Path) : Bool :=
  match h.get q with
  | none => true
  | some nd' => if nd.kind = .dir then nd'.kind = .dir && h.isEmpty q else nd'.kind ≠ .dir

def rename (s t : Bytes) : Option Fs :=
  match h.parent s, h.parent t with
  | some (d, e), some (d', e') =>
    let p := d ++ [e]
    let q := d' ++ [e']
    match h.get p with
    | none => none
    | some nd =>
      if p = q then some h
      else if p.isPrefixOf q then none
      else if h.replaceable nd q then some ((h.erase q).move p q) else none
  | _, _ => none

/-! ### Names of real paths -/

/-- `p` is a real path: no symbolic link is on it. -/
def Real (p : Path) : Prop := ∀ x, x <+: p → ∀ nd, h.get x = some nd → ∀ t, nd.kind ≠ .link t

variable {h} {p q d : Path} {es : List Bytes} {e s t : Bytes}

theorem exists_of_isDir (hp : h.isDir p = true) : ∃ nd, h.get p = some nd ∧ nd.kind = .dir := by
  simpa [isDir, Option.any_eq_true] using hp

theorem prefix_dropLast_of_ne (hx : p <+: q) (hne : p ≠ q) : p <+: q.dropLast := by
  rcases eq_nil_or_concat q with rfl | ⟨d, e, rfl⟩
  · exact hx
  · rw [concat_eq_append] at hx hne ⊢
    rw [dropLast_concat]
    exact (prefix_concat_iff.1 hx).resolve_left hne

theorem Real.mono (hq : h.Real q) (hpq : p <+: q) : h.Real p := fun x hx => hq x (hx.trans hpq)

theorem prefix_foldl_resolveStep (hes : [dot, dot] ∉ es) : p <+: es.foldl (resolveStep dot) p := by
  induction es generalizing p with
  | nil => exact prefix_refl p
  | cons e es ih =>
    have hdd : e ≠ [dot, dot] := fun he => hes (he ▸ mem_cons_self)
    have hstep : p <+: resolveStep dot p e := by
      rw [resolveStep, if_neg hdd]
      split
      · exact prefix_refl p
      · exact prefix_append p [e]
    exact hstep.trans (ih fun he => hes (mem_cons_of_mem e he))

theorem walkFrom_eq {follow : Path → List Bytes → Option Path} (hes : [dot, dot] ∉ es)
    (hreal : h.Real (es.foldl (resolveStep dot) p)) (hw : h.walkFrom follow p es = some q) :
    q = es.foldl (resolveStep dot) p ∧ ∀ x, p <+: x → x <+: q → x ≠ q → h.isDir x = true := by
  induction es generalizing p with
  | nil =>
    cases hw
    exact ⟨rfl, fun x hx hx' hne => absurd (hx'.eq_of_length_le hx.length_le) hne⟩
  | cons e es ih =>
    have hes' : [dot, dot] ∉ es := fun he => hes (mem_cons_of_mem e he)
    have hdd : e ≠ [dot, dot] := fun he => hes (he ▸ mem_cons_self)
    rw [walkFrom, if_neg hdd] at hw
    split at hw
    · cases hw
    next hdir =>
    have hdir : h.isDir p = true := by simpa using hdir
    by_cases he : e = [] ∨ e = [dot]
    · rw [if_pos he] at hw
      have hstep : resolveStep dot p e = p := if_pos he
      rw [foldl_cons, hstep] at hreal ⊢
      exact ih hes' hreal hw
    rw [if_neg he] at hw
    have hstep : resolveStep dot p e = p ++ [e] := by
      rw [resolveStep, if_neg he, if_neg hdd]
    rw [foldl_cons, hstep] at hreal ⊢
    have hpre := prefix_foldl_resolveStep (p := p ++ [e]) hes'
    split at hw
    · cases hw
    · next t hget => exact absurd rfl (hreal _ hpre _ hget t)
    obtain ⟨hq, hdirs⟩ := ih hes' hreal hw
    refine ⟨hq, fun x hpx hxq hne => ?_⟩
    rcases prefix_or_prefix_of_prefix hxq (hq ▸ hpre) with hx | hx
    · rcases prefix_concat_iff.1 hx with hx | hx
      · exact hdirs x (hx ▸ prefix_refl _) hxq hne
      · exact hx.eq_of_length_le hpx.length_le ▸ hdir
    · exact hdirs x hx hxq hne

theorem stat_eq (hs : Plain s) (hreal : h.Real (lex s)) (hst : h.stat s = some q) :
    q = lex s ∧ ∀ x, x <+: q → x ≠ q → h.isDir x = true := by
  have hw : h.walkFrom (h.namei 39) [] (s.splitOn slash) = some q := by
    rw [stat, if_neg hs.rooted.ne_nil, start, if_pos (show s.head? = some slash from hs.rooted)] at hst
    exact hst
  obtain ⟨hq, hdirs⟩ := walkFrom_eq hs.no_up hreal hw
  exact ⟨hq, fun x => hdirs x nil_prefix⟩

theorem foldl_filter_ne_nil :
    (es.filter fun e => e ≠ []).foldl (resolveStep dot) p = es.foldl (resolveStep dot) p := by
  induction es generalizing p with
  | nil => rfl
  | cons e es ih =>
    by_cases he : e = []
    · subst he
      rw [filter_cons_of_neg (by simp), ih, foldl_cons, resolveStep_nil]
    · rw [filter_cons_of_pos (by simp [he]), foldl_cons, foldl_cons, ih]

theorem parent_eq (hs : Plain s) (hreal : h.Real (lex s).dropLast) (hpar : h.parent s = some (d, e)) :
    lex s = d ++ [e] ∧ ∀ x, x <+: d → h.isDir x = true := by
  simp only [parent] at hpar
  have hlex : lex s = ((s.splitOn slash).filter fun e => e ≠ []).foldl (resolveStep dot) [] :=
    foldl_filter_ne_nil.symm
  have hno : [dot, dot] ∉ (s.splitOn slash).filter fun e => e ≠ [] := fun hmem => hs.no_up (mem_of_mem_filter hmem)
  have hnil : ∀ e ∈ (s.splitOn slash).filter fun e => e ≠ [], e ≠ [] :=
    fun e he => by simpa using (mem_filter.1 he).2
  generalize (s.splitOn slash).filter (fun e => e ≠ []) = es at hpar hlex hno hnil
  split at hpar
  · cases hpar
  next e' hlast =>
  obtain ⟨ys, rfl⟩ := List.getLast?_eq_some_iff.1 hlast
  rw [dropLast_concat] at hpar
  split at hpar
  · cases hpar
  next he' =>
  rw [not_or] at he'
  have hne : e' ≠ [] := hnil e' (by simp)
  have hstep : lex s = ys.foldl (resolveStep dot) [] ++ [e'] := by
    rw [hlex, foldl_append, foldl_cons, foldl_nil, resolveStep, if_neg (by simp [hne, he'.1]),
      if_neg he'.2]
  have hys : [dot, dot] ∉ ys := fun hmem => hno (mem_append_left _ hmem)
  split at hpar
  · next d' hd' =>
    rw [start, if_pos (show s.head? = some slash from hs.rooted)] at hd'
    have hw : h.walkFrom (h.namei 39) [] ys = some d' := hd'
    rw [hstep, dropLast_concat] at hreal
    obtain ⟨hd, hdirs⟩ := walkFrom_eq hys hreal hw
    split at hpar
    · next hdir =>
      cases hpar
      refine ⟨by rw [hstep, hd], fun x hx => ?_⟩
      by_cases hxd : x = d
      · exact hxd ▸ hdir
      · exact hdirs x nil_prefix hx hxd
    · cases hpar
  · cases hpar

theorem locate_eq (hs : Plain s) (hreal : h.Real (lex s)) (hl : h.locate s = some q) :
    q = lex s ∧ ∀ x, x <+: q → x ≠ q → h.isDir x = true := by
  rw [locate, or_eq_some_iff] at hl
  rcases hl with hst | ⟨-, hl⟩
  · exact stat_eq hs hreal hst
  obtain ⟨⟨d, e⟩, hpar, hget⟩ := bind_eq_some_iff.1 hl
  obtain ⟨hlex, hdirs⟩ := parent_eq hs (hreal.mono <| dropLast_prefix _) hpar
  simp only at hget
  split at hget
  · cases hget
    refine ⟨hlex.symm, fun x hx hne => hdirs x ?_⟩
    exact (prefix_concat_iff.1 hx).resolve_left hne
  · cases hget

/-! ### What the calls change -/

variable {h' : Fs} {nd : Node} {x : Path}

theorem mem_of_get (hg : h.get p = some nd) : (p, nd) ∈ h.files := by
  obtain ⟨f, hf, rfl⟩ := map_eq_some_iff.1 hg
  have hfp : f.1 = p := by simpa using List.find?_some hf
  exact hfp ▸ mem_of_find?_eq_some hf

theorem get_inj {nd' : Node} (hp : h.get p = some nd) (hq : h.get q = some nd') (hid : nd.id = nd'.id) : p = q := by
  have h₁ := inj_on_of_nodup_map h.ids (mem_of_get hp) (mem_of_get hq) hid
  exact congrArg Prod.fst h₁

theorem get_insert {hid : nd.id ∉ h.files.map fun f => f.2.id} :
    (h.insert p nd hid).get x = if x = p then some nd else h.get x := by
  by_cases hx : x = p
  · simp [get, insert, hx]
  · simp [get, insert, hx, Ne.symm hx]

theorem find?_eq_get {P : Path × Node → Bool} (hP : ∀ f, P f = true ↔ f.1 = p) :
    ((h.files.find? P).map fun f => f.2) = h.get p := by
  have hPeq : P = fun f => decide (f.1 = p) := by
    funext f
    rw [Bool.eq_iff_iff, hP f, decide_eq_true_eq]
  rw [hPeq, get]

theorem find?_eq_none {P : Path × Node → Bool} (hP : ∀ f, ¬ P f = true) :
    ((h.files.find? P).map fun f => f.2) = none := by
  rw [List.find?_eq_none.2 fun f _ => hP f, map_none]

theorem get_erase : (h.erase p).get x = if p <+: x then none else h.get x := by
  rw [get, erase, List.find?_filter]
  split
  · next hpx =>
    refine find?_eq_none fun f => ?_
    simp only [Bool.not_eq_true', Bool.eq_false_iff, ne_eq, isPrefixOf_iff_prefix, decide_eq_true_eq, not_and]
    rintro hpf rfl
    exact hpf hpx
  next hpx =>
  refine find?_eq_get fun f => ?_
  simp only [Bool.not_eq_true', Bool.eq_false_iff, ne_eq, isPrefixOf_iff_prefix, decide_eq_true_eq]
  constructor
  · exact fun hf => hf.2
  · rintro rfl
    exact ⟨hpx, rfl⟩

theorem get_move (hpq : ¬ p <+: q) (hqp : ¬ q <+: p) : ((h.erase q).move p q).get x =
    if q <+: x then h.get (p ++ x.drop q.length) else if p <+: x then none else h.get x := by
  have hget : ((h.erase q).move p q).get x = (h.files.find? fun f => decide (¬ q <+: f.1 ∧
      (if p <+: f.1 then q ++ f.1.drop p.length else f.1) = x)).map fun f => f.2 := by
    rw [get, move, erase, List.find?_map, List.find?_filter, Option.map_map]
    congr 1
    congr 1
    funext f
    simp [← isPrefixOf_iff_prefix]
  rw [hget]
  split
  · next hqx =>
    obtain ⟨z, rfl⟩ := hqx
    rw [drop_left]
    refine find?_eq_get fun f => ?_
    rw [decide_eq_true_eq]
    constructor
    · rintro ⟨hqf, hk⟩
      split at hk
      · next hpf =>
        obtain ⟨w, hw⟩ := hpf
        rw [← hw, drop_left] at hk
        rw [← hw, append_cancel_left hk]
      · exact absurd ⟨z, hk.symm⟩ hqf
    · intro hf
      rw [hf, if_pos (prefix_append p z), drop_left]
      refine ⟨fun hq => ?_, rfl⟩
      have hor := prefix_or_prefix_of_prefix hq (prefix_append p z)
      exact hor.elim hqp hpq
  next hqx =>
  split
  · next hpx =>
    refine find?_eq_none fun f => ?_
    rw [decide_eq_true_eq]
    rintro ⟨-, hk⟩
    split at hk
    · exact hqx ⟨_, hk⟩
    · next hpf => exact hpf (hk ▸ hpx)
  next hpx =>
  refine find?_eq_get fun f => ?_
  rw [decide_eq_true_eq]
  constructor
  · rintro ⟨-, hk⟩
    split at hk
    · exact absurd ⟨_, hk⟩ hqx
    · exact hk
  · rintro rfl
    exact ⟨hqx, if_neg hpx⟩

theorem mkdir_eq (hs : Plain s) (hreal : h.Real (lex s).dropLast) (hm : h.mkdir s nd = some h') :
    (∃ hid, h' = h.insert (lex s) nd hid) ∧ ∀ x, x <+: (lex s).dropLast → h.isDir x = true := by
  rw [mkdir] at hm
  split at hm
  · cases hm
  next d e hpar =>
  obtain ⟨hlex, hdirs⟩ := parent_eq hs hreal hpar
  rw [hlex, dropLast_concat]
  split at hm
  · split at hm
    · next hid => exact ⟨⟨hid, (Option.some.inj hm).symm⟩, hdirs⟩
    · cases hm
  · cases hm

theorem creat_eq (hs : Plain s) (hreal : h.Real (lex s).dropLast) (hm : h.creat s nd = some h') :
    (∃ hid, h' = h.insert (lex s) nd hid) ∧ ∀ x, x <+: (lex s).dropLast → h.isDir x = true := by
  rw [creat] at hm
  split at hm
  · cases hm
  · exact mkdir_eq hs hreal hm

theorem remove_eq {any : Bool} (hs : Plain s) (hreal : h.Real (lex s).dropLast) (hm : h.remove any s = some h') :
    h' = h.erase (lex s) := by
  rw [remove] at hm
  split at hm
  · cases hm
  · next d e hpar =>
    rw [← (parent_eq hs hreal hpar).1] at hm
    split at hm
    · cases hm
    · split at hm <;> split at hm <;> cases hm <;> rfl

theorem not_replaceable (hp : h.get p = some nd) (hdir : h.isDir q = true) (hqp : q <+: p) (hne : q ≠ p) (nd' : Node) :
    h.replaceable nd' q = false := by
  obtain ⟨nq, hq, hk⟩ := exists_of_isDir hdir
  have hempty : h.isEmpty q = false := by
    rw [isEmpty, Bool.eq_false_iff, ne_eq, all_eq_true]
    intro hall
    have hf := hall (p, nd) (mem_of_get hp)
    simp [hne.symm, isPrefixOf_iff_prefix.2 hqp] at hf
  simp [replaceable, hq, hk, hempty]

theorem rename_eq (hs : Plain s) (hreal : h.Real (lex s).dropLast) (ht : Plain t) (hreal' : h.Real (lex t).dropLast)
    (hm : h.rename s t = some h') : lex s ≠ [] ∧
      (lex s = lex t ∧ h' = h ∨ ¬ lex s <+: lex t ∧ ¬ (lex t <+: lex s) ∧
      h' = (h.erase (lex t)).move (lex s) (lex t)) := by
  simp only [rename] at hm
  split at hm
  · next d e d' e' hpar hpar' =>
    obtain ⟨hlex, hdirs⟩ := parent_eq hs hreal hpar
    obtain ⟨hlex', -⟩ := parent_eq ht hreal' hpar'
    rw [← hlex, ← hlex'] at hm
    split at hm
    · cases hm
    next nd hget =>
    refine ⟨by simp [hlex], ?_⟩
    split at hm
    · next heq => exact .inl ⟨heq, (Option.some.inj hm).symm⟩
    next hne =>
    split at hm
    · cases hm
    next hpq =>
    replace hpq := mt isPrefixOf_iff_prefix.2 hpq
    split at hm
    · next hrep =>
      refine .inr ⟨hpq, fun hqp => ?_, (Option.some.inj hm).symm⟩
      have hqd : lex t <+: d := by
        have hqd := prefix_dropLast_of_ne hqp (Ne.symm hne)
        rwa [hlex, dropLast_concat] at hqd
      rw [not_replaceable hget (hdirs _ hqd) hqp (Ne.symm hne)] at hrep
      cases hrep
    · cases hm
  · cases hm

end Fs
end Node9.Host
