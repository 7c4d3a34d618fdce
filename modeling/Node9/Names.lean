import Node9.Lib.Path
import Node9.Lib.Buf

/-!
# Channel names (`chan.c`, `cleanname.c`)

Names are byte strings without their final NUL. `addelem` adds one walked element to a name and cleans the
result up if it was `..`; nothing else looks inside the element. For a rooted name and an element without a
slash, both do to the name what its meaning (`Lexical.resolve`) says.
-/

namespace Node9.Names
open Lexical Buf
open List hiding span

def slash : UInt8 := 47
def dot : UInt8 := 46
def sharp : UInt8 := 35

def isdotdot (p : Bytes) : Bool := p = [dot, dot]

/-- Where `cleanname` is: the `..` that cannot be taken back, the elements written after them (from `dotdot`
to `q`), and `erased` (`erasedprefix`). -/
structure Cleaning where
  ups : Nat
  kept : List Bytes
  erased : Bool

/-- One element; `first` says that it stands at the very start of the name. -/
def cleanElem (rooted first : Bool) (w : Cleaning) (e : Bytes) : Cleaning :=
  if e = [] then w
  else if e = [dot] then { w with erased := w.erased || first }
  else if e = [dot, dot] then
    let w :=
      if w.kept ≠ [] then { w with kept := w.kept.dropLast }
      else if !rooted then { w with ups := w.ups + 1 } else w
    { w with erased := w.erased || (!rooted && w.ups = 0 && w.kept = []) }
  else { w with kept := w.kept ++ [e] }

def cleanElems (rooted : Bool) (first : Bool) (w : Cleaning) : List Bytes → Cleaning
  | [] => w
  | e :: es => cleanElems rooted false (cleanElem rooted first w e) es

def cleanname (name : Bytes) : Bytes :=
  let rooted := name.head? = some slash
  let p := if rooted then name.tail else name
  let w := cleanElems rooted (!rooted) ⟨0, [], false⟩ (p.splitOn slash)
  let q := (if rooted then [slash] else []) ++ [slash].intercalate (List.replicate w.ups [dot, dot] ++ w.kept)
  let q := if q = [] then [dot] else q
  if w.erased && q.head? = some sharp then [dot, slash] ++ q else q

def cleancname (s : Bytes) : Bytes :=
  if s.head? = some sharp then
    let dev := s.takeWhile (· ≠ slash)
    let p := s.dropWhile (· ≠ slash)
    if p = [] then s
    -- the name of `#i/` is `#i`, but that of `#/` is `#/`
    else if cleanname p = [slash] ∧ s[1]? ≠ some slash then dev else dev ++ cleanname p
  else cleanname s

def addelem (n s : Bytes) : Bytes :=
  if s = [dot] then n
  else
    let sep := if n ≠ [] ∧ n.getLast? ≠ some slash ∧ s.head? ≠ some slash then [slash] else []
    let n := n ++ sep ++ s
    if isdotdot s then cleancname n else n

/-- `isfrog`, as `chandevinit` leaves it. -/
def isfrog (c : UInt8) : Bool := c < 32 || c = slash || c = 0x7f

/-- `validname(name, 0)` raises no error. The bytes of a rune are all `Runeself` or more. -/
def validname (name : Bytes) : Bool := name.length < 1 <<< 16 && name.all fun c => c ≥ 0x80 || !isfrog c

/-- `fswalkpath`, which cleans a second time. -/
def fswalkpath (c name : Bytes) : Bytes :=
  let c := addelem c name
  if isdotdot name then cleancname c else c

def fslastelem (c : Bytes) : Bytes := (c.reverse.takeWhile (· ≠ slash)).reverse

/-! ### What they do to rooted names -/

/-- The elements that a name means. -/
def lex (s : Bytes) : List Bytes := resolve slash dot s

def Rooted (s : Bytes) : Prop := s.head? = some slash

/-- A rooted name with no `..` in it. -/
structure Plain (s : Bytes) : Prop where
  rooted : Rooted s
  no_up : [dot, dot] ∉ s.splitOn slash

variable {s n : Bytes}

theorem cleanElems_rooted (w : Cleaning) (hups : w.ups = 0) (her : w.erased = false) (es : List Bytes) :
    cleanElems true false w es = ⟨0, es.foldl (resolveStep dot) w.kept, false⟩ := by
  induction es generalizing w with
  | nil =>
    obtain ⟨ups, kept, er⟩ := w
    simp_all [cleanElems]
  | cons e es ih =>
    have hstep : (cleanElem true false w e).ups = 0 ∧ (cleanElem true false w e).erased = false ∧
        (cleanElem true false w e).kept = resolveStep dot w.kept e := by
      unfold cleanElem resolveStep
      by_cases h₁ : e = []
      · simp [h₁, hups, her]
      · by_cases h₂ : e = [dot]
        · simp [h₂, hups, her]
        · by_cases h₃ : e = [dot, dot]
          · by_cases hk : w.kept = [] <;> simp [h₃, hk, hups, her]
          · simp [h₁, h₂, h₃, hups, her]
    rw [cleanElems, ih _ hstep.1 hstep.2.1, hstep.2.2, foldl_cons]

theorem cleanname_rooted (hs : Rooted s) : cleanname s = render slash (lex s) := by
  obtain ⟨c, t, rfl⟩ := exists_cons_of_ne_nil (l := s) (by rintro rfl; cases hs)
  cases Option.some.inj hs
  have hlex : lex (slash :: t) = (t.splitOn slash).foldl (resolveStep dot) [] := resolve_sep_cons
  have hw := cleanElems_rooted ⟨0, [], false⟩ rfl rfl (t.splitOn slash)
  simp only [cleanname, List.head?_cons, tail_cons]
  simp [hw, hlex, render]

theorem rooted_render (es : List Bytes) : Rooted (render slash es) := rfl

theorem cleancname_rooted (hs : Rooted s) : cleancname s = render slash (lex s) := by
  have h : s.head? ≠ some sharp := by
    rw [hs]
    decide
  rw [cleancname, if_neg h, cleanname_rooted hs]

def joined (n s : Bytes) : Bytes :=
  n ++ (if n ≠ [] ∧ n.getLast? ≠ some slash ∧ s.head? ≠ some slash then [slash] else []) ++ s

theorem Rooted.ne_nil (hn : Rooted n) : n ≠ [] := by
  rintro rfl
  cases hn

theorem Rooted.joined (hn : Rooted n) : Rooted (joined n s) := by
  obtain ⟨c, t, rfl⟩ := exists_cons_of_ne_nil hn.ne_nil
  exact hn

theorem mem_splitOn_joined (hn : Rooted n) (hs : slash ∉ s) {e : Bytes} (he : e ∈ (joined n s).splitOn slash) :
    e ∈ n.splitOn slash ∨ e = s := by
  have hhead : s.head? ≠ some slash := fun h => hs (mem_of_mem_head? h)
  by_cases hlast : n.getLast? = some slash
  · obtain ⟨t, rfl⟩ := List.getLast?_eq_some_iff.1 hlast
    have hj : joined (t ++ [slash]) s = t ++ slash :: s := by simp [joined]
    rw [hj, splitOn_append_cons_self, splitOn_eq_singleton hs] at he
    rw [splitOn_append_cons_self]
    exact (mem_append.1 he).imp (mem_append_left _) mem_singleton.1
  · have hj : joined n s = n ++ slash :: s := by simp [joined, hn.ne_nil, hlast, hhead]
    rw [hj, splitOn_append_cons_self, splitOn_eq_singleton hs] at he
    exact (mem_append.1 he).imp id mem_singleton.1

theorem lex_joined (hn : Rooted n) (hs : slash ∉ s) : lex (joined n s) = resolveStep dot (lex n) s := by
  have hhead : s.head? ≠ some slash := fun h => hs (mem_of_mem_head? h)
  by_cases hlast : n.getLast? = some slash
  · obtain ⟨t, rfl⟩ := List.getLast?_eq_some_iff.1 hlast
    have hj : joined (t ++ [slash]) s = t ++ slash :: s := by simp [joined]
    rw [hj, lex, lex, resolve_concat hs, resolve_append_sep]
  · have hj : joined n s = n ++ slash :: s := by simp [joined, hn.ne_nil, hlast, hhead]
    rw [hj, lex, lex, resolve_concat hs]

theorem addelem_dot : addelem n [dot] = n := rfl

theorem addelem_dotdot (hn : Rooted n) : addelem n [dot, dot] = render slash (lex n).dropLast := by
  have h : addelem n [dot, dot] = cleancname (joined n [dot, dot]) := rfl
  rw [h, cleancname_rooted hn.joined, lex_joined hn (by decide), resolveStep_dotdot]

theorem addelem_of_ne (h₁ : s ≠ [dot]) (h₂ : s ≠ [dot, dot]) : addelem n s = joined n s := by
  simp [addelem, isdotdot, h₁, h₂, joined]

theorem lex_render_dropLast : lex (render slash (lex n).dropLast) = (lex n).dropLast :=
  resolve_render fun e he => resolve_proper e (dropLast_subset _ he)

theorem lex_addelem (hn : Rooted n) (hs : slash ∉ s) : lex (addelem n s) = resolveStep dot (lex n) s := by
  by_cases h₁ : s = [dot]
  · rw [h₁, addelem_dot, resolveStep_dot]
  · by_cases h₂ : s = [dot, dot]
    · rw [h₂, addelem_dotdot hn, lex_render_dropLast, resolveStep_dotdot]
    · rw [addelem_of_ne h₁ h₂, lex_joined hn hs]

theorem Rooted.addelem (hn : Rooted n) : Rooted (addelem n s) := by
  by_cases h₁ : s = [dot]
  · rwa [h₁, addelem_dot]
  · by_cases h₂ : s = [dot, dot]
    · rw [h₂, addelem_dotdot hn]
      exact rooted_render _
    · rw [addelem_of_ne h₁ h₂]
      exact hn.joined

theorem fswalkpath_dotdot (hn : Rooted n) : fswalkpath n [dot, dot] = render slash (lex n).dropLast := by
  have h : fswalkpath n [dot, dot] = cleancname (Names.addelem n [dot, dot]) := rfl
  rw [h, cleancname_rooted hn.addelem, addelem_dotdot hn, lex_render_dropLast]

theorem plain_render {es : List Bytes} (hes : ∀ e ∈ es, Proper slash dot e) : Plain (render slash es) := by
  refine ⟨rooted_render es, fun h => ?_⟩
  have hsplit : (render slash es).splitOn slash = [] :: ([slash].intercalate es).splitOn slash := by
    simp [render, splitOn_cons_eq_if_modifyHead]
  rw [hsplit] at h
  rcases mem_cons.1 h with h | h
  · cases h
  · by_cases hnil : es = []
    · subst hnil
      simp at h
    · rw [splitOn_intercalate slash (fun e he => (hes e he).sep_not_mem) hnil] at h
      exact (hes _ h).ne_dotdot rfl

theorem plain_render_dropLast : Plain (render slash (lex n).dropLast) :=
  plain_render fun e he => resolve_proper e (dropLast_subset _ he)

theorem Plain.addelem (hn : Plain n) (hs : slash ∉ s) : Plain (addelem n s) := by
  by_cases h₁ : s = [dot]
  · rwa [h₁, addelem_dot]
  by_cases h₂ : s = [dot, dot]
  · rw [h₂, addelem_dotdot hn.rooted]
    exact plain_render_dropLast
  · rw [addelem_of_ne h₁ h₂]
    refine ⟨hn.rooted.joined, fun h => ?_⟩
    exact (mem_splitOn_joined hn.rooted hs h).elim hn.no_up fun heq => h₂ heq.symm

theorem fswalkpath_eq (hn : Rooted n) : fswalkpath n s = addelem n s := by
  by_cases h : s = [dot, dot]
  · rw [h, fswalkpath_dotdot hn, addelem_dotdot hn]
  · simp [fswalkpath, isdotdot, h]

theorem lex_sibling (hn : Plain n) (hs : slash ∉ s) : Plain (addelem (addelem n [dot, dot]) s) ∧
    lex (addelem (addelem n [dot, dot]) s) = resolveStep dot (lex n).dropLast s := by
  have hdd : slash ∉ [dot, dot] := by decide
  have hup := hn.addelem hdd
  refine ⟨hup.addelem hs, ?_⟩
  rw [lex_addelem hup.rooted hs, lex_addelem hn.rooted hdd, resolveStep_dotdot]

theorem slash_not_mem_of_validname (h : validname s = true) : slash ∉ s := by
  intro hs
  simp only [validname, Bool.and_eq_true, all_eq_true] at h
  exact absurd (h.2 slash hs) (by decide)

end Node9.Names
