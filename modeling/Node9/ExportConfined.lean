import Node9.Export
import Node9.Lib.Steps

/-!
# Confinement to the exported tree

`r` stands for the device and inode number of the exported directory. The host's name of every fid means a
path below one of the paths `bs` that the directory has had (a client can rename it through a fid of the
root). What is at such a path is the exported directory or nothing, and a fid whose name means such a path
has the qid of the root, at which `Exwalk` does not take `..`.
-/

namespace Node9.Export
open Lexical Buf Names Host Steps
open List hiding lex span

variable {r : Nat × Nat} {s s' : St} {h h' : Fs} {bs : List Path} {c c' root : Chan} {p q b x : Path} {n : Bytes}
  {nd : Node} {luck : Luck}

/-- The path is in the exported subtree. -/
def Inside (r : Nat × Nat) (h : Fs) (p : Path) : Prop := ∃ q nd, q <+: p ∧ h.get q = some nd ∧ nd.id = r

/-- Every file that the name of a fid leads to is in the exported subtree. -/
def Confined (r : Nat × Nat) (s : St) : Prop :=
  ∀ fid c, s.fids fid = some c → ∀ p nd, s.host.locate c.fsname = some p → s.host.get p = some nd → Inside r s.host p

/-- The file with the numbers `i` is in the exported subtree. -/
def Holds (r : Nat × Nat) (h : Fs) (i : Nat × Nat) : Prop := ∃ p nd, h.get p = some nd ∧ nd.id = i ∧ Inside r h p

/-- The channel is that of a fid or of a file in the exported subtree. -/
def Here (r : Nat × Nat) (s : St) (c : Chan) : Prop :=
  c.dev = s.root.dev ∧ ((∃ fid c', s.fids fid = some c' ∧ c'.path = c.path) ∨
    ∃ i, Holds r s.host i ∧ fsqidPath i = c.path)

/-- Nothing is mounted in the exported subtree, and nothing of it is mounted elsewhere. -/
def Unmounted (r : Nat × Nat) (s : St) : Prop :=
  ∀ m ∈ s.mnt, ¬ Here r s m.source ∧ ∀ t ∈ m.mount :: m.next, ¬ Here r s t.target

/-- No element has a slash in it, and no directory is made in place of the root. -/
def Careful (r : Nat × Nat) (s : St) (op : Op) : Prop :=
  Unmounted r s ∧
    match op.body with
    | .Twalk _ _ wname => ∀ n ∈ wname, slash ∉ n.bytes
    | .Tcreate fid name _ _ => ∀ c, s.fids fid = some c → exisroot s c = true → name.bytes ≠ []
    | _ => True

theorem inside_iff (hb : h.get b = some nd) (hid : nd.id = r) : Inside r h p ↔ b <+: p := by
  constructor
  · rintro ⟨q, nd', hq, hget, hid'⟩
    rwa [Fs.get_inj hb hget (hid.trans hid'.symm)]
  · exact fun hp => ⟨b, nd, hp, hb, hid⟩

/-- The host as seen from the paths `bs`. -/
structure Bases (r : Nat × Nat) (h : Fs) (bs : List Path) : Prop where
  len : ∀ b ∈ bs, ∀ b' ∈ bs, b.length = b'.length
  at_root : ∀ b ∈ bs, ∀ nd, h.get b = some nd → nd.id = r
  real : ∀ b ∈ bs, ∀ p nd, p <+: b ∨ b <+: p → h.get p = some nd → ∀ t, nd.kind ≠ .link t

/-- The channel's name means a path below one of `bs`. -/
structure Good (root : Chan) (bs : List Path) (c : Chan) : Prop where
  dev : c.dev = root.dev
  plain : Plain c.fsname
  under : ∃ b ∈ bs, ∃ es, lex c.fsname = b ++ es ∧ (es = [] → c.path = root.path)

structure Inv (r : Nat × Nat) (s : St) (bs : List Path) : Prop where
  bases : Bases r s.host bs
  root : Good s.root bs s.root
  root_path : s.root.path = fsqidPath r
  fids : ∀ fid c, s.fids fid = some c → Good s.root bs c

/-- The exported directory is at its real path and no fid has been attached. -/
structure Exported (r : Nat × Nat) (s : St) : Prop where
  plain : Plain s.root.fsname
  path : s.root.path = fsqidPath r
  at_root : ∃ nd, s.host.get (lex s.root.fsname) = some nd ∧ nd.id = r
  real : ∀ p nd, p <+: lex s.root.fsname ∨ lex s.root.fsname <+: p → s.host.get p = some nd → ∀ t, nd.kind ≠ .link t
  fids : ∀ fid, s.fids fid = none

theorem Exported.inv (hE : Exported r s) : Inv r s [lex s.root.fsname] := by
  obtain ⟨nd, hget, hid⟩ := hE.at_root
  refine ⟨⟨by simp, ?_, ?_⟩, ?_, hE.path, ?_⟩
  · intro b hb nd' hnd'
    rw [mem_singleton.1 hb, hget] at hnd'
    exact Option.some.inj hnd' ▸ hid
  · intro b hb
    rw [mem_singleton.1 hb]
    exact hE.real
  · exact ⟨rfl, hE.plain, _, mem_singleton_self _, [], by simp, fun _ => rfl⟩
  · intro fid c hc
    rw [hE.fids fid] at hc
    cases hc

/-! ### What a good name leads to -/

namespace Bases

theorem real_under (hB : Bases r h bs) (hb : b ∈ bs) (es : List Bytes) : h.Real (b ++ es) := by
  intro x hx nd hnd
  have hor := prefix_or_prefix_of_prefix hx (prefix_append b es)
  exact hB.real b hb x nd hor hnd

theorem inside (hB : Bases r h bs) (hb : b ∈ bs) {es : List Bytes} {s : Bytes} (hs : Plain s)
    (hlex : lex s = b ++ es) (hl : h.locate s = some p) (hg : h.get p = some nd) : p = b ++ es ∧ Inside r h p := by
  have hreal : h.Real (lex s) := hlex ▸ hB.real_under hb es
  obtain ⟨hp, hdirs⟩ := Fs.locate_eq hs hreal hl
  rw [hlex] at hp
  refine ⟨hp, ?_⟩
  have hbp : b <+: p := hp ▸ prefix_append b es
  by_cases hne : b = p
  · subst hne
    exact ⟨b, nd, hbp, hg, hB.at_root b hb nd hg⟩
  · obtain ⟨nb, hnb, -⟩ := Fs.exists_of_isDir (hdirs b hbp hne)
    exact ⟨b, nb, hbp, hnb, hB.at_root b hb nb hnb⟩

end Bases

theorem Good.congr (hg : Good root bs c) (hdev : c'.dev = c.dev) (hfs : c'.fsname = c.fsname)
    (hpath : c'.path = c.path) :
    Good root bs c' := by
  refine ⟨hdev.trans hg.dev, hfs ▸ hg.plain, ?_⟩
  rw [hfs, hpath]
  exact hg.under

theorem Inv.confined (hI : Inv r s bs) : Confined r s := by
  intro fid c hc p nd hl hg
  obtain ⟨b, hb, es, hlex, -⟩ := (hI.fids fid c hc).under
  exact (hI.bases.inside hb (hI.fids fid c hc).plain hlex hl hg).2

theorem eqchan_iff {a b : Chan} : eqchan a b = true ↔ a.path = b.path ∧ a.dev = b.dev := by simp [eqchan]

theorem Here.congr (hc : Here r s c) (hdev : c'.dev = c.dev) (hpath : c'.path = c.path) : Here r s c' := by
  rw [Here, hdev, hpath]
  exact hc

namespace Unmounted

theorem findmount_eq (hU : Unmounted r s) (hc : Here r s c) : findmount s.mnt c = none := by
  rw [findmount, List.find?_eq_none]
  intro m hm heq
  obtain ⟨hpath, hdev⟩ := eqchan_iff.1 heq
  exact (hU m hm).1 (hc.congr hdev hpath)

theorem undomount_eq (hU : Unmounted r s) (hc : Here r s c) : undomount s.mnt c n = c := by
  have hany : ∀ m ∈ s.mnt, ¬ (m.mount :: m.next).any (fun t => eqchan c t.target) = true := by
    intro m hm h
    obtain ⟨t, ht, heq⟩ := any_eq_true.1 h
    obtain ⟨hpath, hdev⟩ := eqchan_iff.1 heq
    exact (hU m hm).2 t ht (hc.congr hdev.symm hpath.symm)
  rw [undomount]
  generalize s.mnt = l at hany
  induction l with
  | nil => rfl
  | cons m l ih =>
    rw [foldl_cons, if_neg fun h => hany m mem_cons_self h.2]
    exact ih fun m' hm' => hany m' (mem_cons_of_mem m hm')

theorem exmount_eq (hU : Unmounted r s) (hc : Here r s c) : exmount s c = c := by
  rw [exmount, hU.findmount_eq hc]
  split <;> rfl

end Unmounted

theorem here_of_fid {fid : UInt32} (hI : Inv r s bs) (hc : s.fids fid = some c) : Here r s c :=
  ⟨(hI.fids fid c hc).dev, .inl ⟨fid, c, hc, rfl⟩⟩

theorem resolveStep_under {es : List Bytes} (hup : n = [dot, dot] → es ≠ []) :
    ∃ es', resolveStep dot (b ++ es) n = b ++ es' := by
  by_cases h₁ : n = [] ∨ n = [dot]
  · exact ⟨es, if_pos h₁⟩
  · by_cases h₂ : n = [dot, dot]
    · refine ⟨es.dropLast, ?_⟩
      rw [h₂, resolveStep_dotdot, dropLast_append_of_ne_nil (hup h₂)]
    · refine ⟨es ++ [n], ?_⟩
      rw [resolveStep, if_neg h₁, if_neg h₂, append_assoc]

theorem fswalk_cases (hw : fswalk h c n = some c') : c' = c.clone ∨
    ∃ p nd, h.locate (addelem c.fsname n) = some p ∧ h.get p = some nd ∧
      c' = { c.clone.setQid nd with fsname := addelem c.fsname n } := by
  rw [fswalk] at hw
  split at hw
  · cases hw
  split at hw
  · exact .inl (Option.some.inj hw).symm
  simp only at hw
  split at hw
  · cases hw
  · next nd hnd =>
    obtain ⟨p, hl, hg⟩ := Option.bind_eq_some_iff.1 hnd
    exact .inr ⟨p, nd, hl, hg, (Option.some.inj hw).symm⟩

theorem Inv.fswalk_good (hI : Inv r s bs) (hg : Good s.root bs c) (hh : Here r s c) (hn : slash ∉ n)
    (hroot : exisroot s c = true → n ≠ [] ∧ n ≠ [dot, dot]) (hw : fswalk s.host c n = some c') :
    Good s.root bs c' ∧ Here r s c' := by
  rcases fswalk_cases hw with rfl | ⟨p, nd, hl, hget, rfl⟩
  · exact ⟨hg.congr rfl rfl rfl, hh.congr rfl rfl⟩
  obtain ⟨b, hb, es, hlex, hes⟩ := hg.under
  have hnr : es = [] → n ≠ [] ∧ n ≠ [dot, dot] := fun h =>
    hroot (eqchan_iff.2 ⟨(hes h).symm, hg.dev.symm⟩)
  obtain ⟨es', hes'⟩ := resolveStep_under (b := b) fun h h' => (hnr h').2 h
  have hlex' : lex (addelem c.fsname n) = b ++ es' := by rw [lex_addelem hg.plain.rooted hn, hlex, hes']
  have hplain := hg.plain.addelem hn
  obtain ⟨hp, hin⟩ := hI.bases.inside hb hplain hlex' hl hget
  refine ⟨⟨hg.dev, hplain, b, hb, es', hlex', fun h => ?_⟩, hg.dev, .inr ⟨nd.id, ⟨p, nd, hget, rfl, hin⟩, rfl⟩⟩
  -- back at the exported directory
  rw [h, append_nil] at hp
  have hid := hI.bases.at_root b hb nd (hp ▸ hget)
  exact (congrArg fsqidPath hid).trans hI.root_path.symm

theorem Inv.walk_good (hI : Inv r s bs) (hU : Unmounted r s) (hg : Good s.root bs c) (hh : Here r s c)
    (hn : slash ∉ n) (hroot : exisroot s c = true → n ≠ [] ∧ n ≠ [dot, dot])
    (hw : walk s.mnt s.host c n = some c') : Good s.root bs c' ∧ Here r s c' := by
  have hm : (if isdotdot n = true then none else findmount s.mnt c) = none := by
    rw [hU.findmount_eq hh]
    split <;> rfl
  rw [walk] at hw
  split at hw
  · cases hw
  simp only [hm] at hw
  split at hw
  · cases hw
  · next nc hnc =>
    obtain ⟨hg', hh'⟩ := hI.fswalk_good hg hh hn hroot hnc
    rw [hU.undomount_eq hh', ite_self] at hw
    cases hw
    exact ⟨hg'.congr rfl rfl rfl, hh'.congr rfl rfl⟩

theorem walk_fd (hw : walk s.mnt s.host c n = some c') : c'.fd = none := by
  rw [walk] at hw
  split at hw
  · cases hw
  · simp only at hw
    split at hw
    · cases hw
    · cases hw
      rfl

theorem walkNames_fd {wname : List CStr} {i : Nat} (hfd : c.fd = none) (hw : walkNames s c wname i = .ok c') :
    c'.fd = none := by
  induction wname generalizing c i with
  | nil =>
    cases hw
    exact hfd
  | cons name names ih =>
    rw [walkNames] at hw
    split at hw
    · split at hw
      · cases hw
      · next nc hnc => exact ih (walk_fd hnc) hw
    · exact ih hfd hw

theorem Inv.walkNames_good (hI : Inv r s bs) (hU : Unmounted r s) {wname : List CStr} {i : Nat}
    (hn : ∀ n ∈ wname, slash ∉ n.bytes) (hg : Good s.root bs c) (hh : Here r s c)
    (hw : walkNames s c wname i = .ok c') : Good s.root bs c' := by
  induction wname generalizing c i with
  | nil =>
    cases hw
    exact hg
  | cons name names ih =>
    have hn' := fun n hm => hn n (mem_cons_of_mem name hm)
    rw [walkNames] at hw
    split at hw
    · next hcond =>
      split at hw
      · cases hw
      next nc hnc =>
      have hroot : exisroot s c = true → name.bytes ≠ [] ∧ name.bytes ≠ [dot, dot] := by
        intro hr
        exact hcond.resolve_left (by simp [hr])
      obtain ⟨hg', hh'⟩ := hI.walk_good hU hg hh (hn name mem_cons_self) hroot hnc
      exact ih hn' hg' hh' hw
    · exact ih hn' hg hh hw

/-! ### What the requests change on the host -/

namespace Bases

section
variable (hB : Bases r h bs)
include hB

theorem not_prefix (hb : b ∈ bs) {b' : Path} (hb' : b' ∈ bs) (hx : b.length < x.length) :
    ¬ x <+: b' := by
  intro hpre
  have hlen := hB.len b hb b' hb'
  have hle := hpre.length_le
  omega

theorem insert (hb : b ∈ bs) {es : List Bytes} (hes : es ≠ []) (hk : ∀ t, nd.kind ≠ .link t)
    {hid : nd.id ∉ h.files.map fun f => f.2.id} : Bases r (h.insert (b ++ es) nd hid) bs := by
  have hlt : b.length < (b ++ es).length := by
    have := length_pos_of_ne_nil hes
    rw [length_append]
    omega
  refine ⟨hB.len, fun b' hb' nd' hg => ?_, fun b' hb' x nd' hx hg => ?_⟩
  · have hne : b' ≠ b ++ es := fun heq => hB.not_prefix hb hb' hlt (heq ▸ prefix_refl _)
    rw [Fs.get_insert, if_neg hne] at hg
    exact hB.at_root b' hb' nd' hg
  · rw [Fs.get_insert] at hg
    split at hg
    · cases hg
      exact hk
    · exact hB.real b' hb' x nd' hx hg

theorem erase : Bases r (h.erase p) bs := by
  have hget : ∀ x nd, (h.erase p).get x = some nd → h.get x = some nd := by
    intro x nd hg
    rw [Fs.get_erase] at hg
    split at hg
    · cases hg
    · exact hg
  exact ⟨hB.len, fun b hb nd hg => hB.at_root b hb nd (hget b nd hg),
    fun b hb x nd hx hg => hB.real b hb x nd hx (hget x nd hg)⟩

theorem move_below (hb : b ∈ bs) (hbp : b <+: p) (hlt : b.length < p.length)
    (hlen : q.length = p.length) (hpq : ¬ p <+: q) (hqp : ¬ q <+: p) : Bases r ((h.erase q).move p q) bs := by
  refine ⟨hB.len, fun b' hb' nd hg => ?_, fun b' hb' x nd hx hg => ?_⟩
  · rw [Fs.get_move hpq hqp, if_neg (hB.not_prefix hb hb' (hlen ▸ hlt)), if_neg (hB.not_prefix hb hb' hlt)] at hg
    exact hB.at_root b' hb' nd hg
  rw [Fs.get_move hpq hqp] at hg
  split at hg
  · exact hB.real b hb _ nd (.inr (hbp.trans (prefix_append p _))) hg
  · split at hg
    · cases hg
    · exact hB.real b' hb' x nd hx hg

theorem move_root (hb : b ∈ bs) (hlen : q.length = b.length) (hdir : q.dropLast <+: b)
    (hpq : ¬ b <+: q) (hqp : ¬ q <+: b) : Bases r ((h.erase q).move b q) (q :: bs) := by
  have hlen' : ∀ b' ∈ q :: bs, b'.length = b.length := by
    intro b' hb'
    rcases mem_cons.1 hb' with rfl | hb'
    · exact hlen
    · exact hB.len b' hb' b hb
  refine ⟨fun b' hb' b'' hb'' => (hlen' b' hb').trans (hlen' b'' hb'').symm, fun b' hb' nd hg => ?_,
    fun b' hb' x nd hx hg => ?_⟩
  · rw [Fs.get_move hpq hqp] at hg
    split at hg
    · next hqb =>
      have hbq : b' = q := (hqb.eq_of_length (hlen.trans (hlen' b' hb').symm)).symm
      rw [hbq, drop_length, append_nil] at hg
      exact hB.at_root b hb nd hg
    next hqb =>
    split at hg
    · cases hg
    · rcases mem_cons.1 hb' with rfl | hb'
      · exact absurd (prefix_refl _) hqb
      · exact hB.at_root b' hb' nd hg
  rw [Fs.get_move hpq hqp] at hg
  split at hg
  · exact hB.real b hb _ nd (.inr (prefix_append b _)) hg
  next hqx =>
  split at hg
  · cases hg
  rcases mem_cons.1 hb' with rfl | hb'
  · -- on the way to the new name, which is the way to the old one
    have hxq : x <+: b' := hx.resolve_right hqx
    have hne : x ≠ b' := fun heq => hqx (heq ▸ prefix_refl _)
    have hxd : x <+: b'.dropLast := Fs.prefix_dropLast_of_ne hxq hne
    exact hB.real b hb x nd (.inl (hxd.trans hdir)) hg
  · exact hB.real b' hb' x nd hx hg

end

end Bases

theorem Good.mono {bs' : List Path} (hg : Good root bs c) (hsub : bs ⊆ bs') : Good root bs' c := by
  obtain ⟨b, hb, hes⟩ := hg.under
  exact ⟨hg.dev, hg.plain, b, hsub hb, hes⟩

theorem Good.real (hg : Good root bs c) (hB : Bases r h bs) : h.Real (lex c.fsname) := by
  obtain ⟨b, hb, es, hlex, -⟩ := hg.under
  exact hlex ▸ hB.real_under hb es

section
variable (hB : Bases r h bs)
include hB

theorem Bases.fsremove (hg : Good root bs c) (hm : fsremove h c luck = some h') :
    Bases r h' bs := by
  rw [Export.fsremove] at hm
  split at hm
  · rw [Fs.remove_eq hg.plain ((hg.real hB).mono <| dropLast_prefix _) hm]
    exact hB.erase
  · cases hm

theorem Bases.fsclose (hg : Good root bs c) : Bases r (fsclose h c luck) bs := by
  rw [Export.fsclose]
  split
  · cases hm : Export.fsremove h c luck with
    | none => exact hB
    | some h' => exact hB.fsremove hg hm
  · exact hB

theorem Bases.fsopen {mode : UInt8} (hg : Good root bs c) (hm : fsopen h c mode luck = some c') :
    ∃ i, Holds r h i ∧ c' = { c with fd := some i } := by
  rw [Export.fsopen] at hm
  split at hm
  · cases hm
  split at hm
  · cases hm
  split at hm
  · cases hm
  next nd hnd =>
  obtain ⟨p, hst, hget⟩ := Option.bind_eq_some_iff.1 hnd
  split at hm
  · cases hm
  · obtain ⟨b, hb, es, hlex, -⟩ := hg.under
    have hl : h.locate c.fsname = some p := by rw [Fs.locate, hst, Option.some_or]
    have hin := (hB.inside hb hg.plain hlex hl hget).2
    exact ⟨nd.id, ⟨p, nd, hget, rfl, hin⟩, (Option.some.inj hm).symm⟩

theorem Bases.made (hb : b ∈ bs) {es : List Bytes} (hes : es ≠ []) (hs : Plain n)
    (hlex : lex n = b ++ es) (hk : ∀ t, nd.kind ≠ .link t)
    (hm : h.mkdir n nd = some h' ∨ h.creat n nd = some h') : Bases r h' bs ∧ Holds r h' nd.id := by
  have hreal : h.Real (lex n).dropLast := (hlex ▸ hB.real_under hb es).mono <| dropLast_prefix _
  obtain ⟨⟨hid, rfl⟩, hdirs⟩ := hm.elim (Fs.mkdir_eq hs hreal) (Fs.creat_eq hs hreal)
  rw [hlex, dropLast_append_of_ne_nil hes] at hdirs
  obtain ⟨nb, hnb, -⟩ := Fs.exists_of_isDir (hdirs b (prefix_append b _))
  have hbne : b ≠ b ++ es := by simpa using hes
  simp only [hlex]
  refine ⟨hB.insert hb hes hk, b ++ es, nd, ?_, rfl, b, nb, prefix_append b es, ?_, hB.at_root b hb nb hnb⟩
  · rw [Fs.get_insert, if_pos rfl]
  · rw [Fs.get_insert, if_neg hbne]
    exact hnb

theorem Bases.fscreate {mode : UInt8} {perm : UInt32} {o : Option Chan} (hg : Good root bs c)
    (hv : validname n = true) (hroot : c.path = root.path → n ≠ [])
    (hm : fscreate h c n mode perm luck = (h', o)) : Bases r h' bs ∧ ∀ c', o = some c' →
      Good root bs c' ∧ ∃ i, c'.fd = some i ∧ Holds r h' i := by
  rw [Export.fscreate] at hm
  split at hm
  · cases hm
    exact ⟨hB, fun c' hc' => by cases hc'⟩
  next hcond =>
  simp only [not_or] at hcond
  obtain ⟨-, hn₁, hn₂⟩ := hcond
  have hs := slash_not_mem_of_validname hv
  have hplain := hg.plain.addelem hs
  have hk : ∀ t, (if perm &&& DMDIR ≠ 0 then Kind.dir else Kind.file) ≠ .link t := by
    intro t
    split <;> simp
  simp only [fswalkpath_eq hg.plain.rooted] at hm
  generalize hnd : Node.mk luck.dev luck.ino (if perm &&& DMDIR ≠ 0 then .dir else .file) = nd at hm
  split at hm
  · cases hm
    exact ⟨hB, fun c' hc' => by cases hc'⟩
  split at hm
  · cases hm
    exact ⟨hB, fun c' hc' => by cases hc'⟩
  next h₁ hmk =>
  obtain ⟨b, hb, es, hlex, hes⟩ := hg.under
  -- the new file is below the exported directory, not in its place
  obtain ⟨es', hne, hlex'⟩ : ∃ es', es' ≠ [] ∧ lex (addelem c.fsname n) = b ++ es' := by
    rw [lex_addelem hg.plain.rooted hs, hlex]
    by_cases hnil : n = []
    · exact ⟨es, fun h => hroot (hes h) hnil, by rw [hnil, resolveStep_nil]⟩
    · refine ⟨es ++ [n], by simp, ?_⟩
      rw [resolveStep, if_neg (by simp [hnil, hn₁]), if_neg hn₂, append_assoc]
  have hmk' : h.mkdir (addelem c.fsname n) nd = some h₁ ∨ h.creat (addelem c.fsname n) nd = some h₁ := by
    split at hmk
    · exact .inl hmk
    · exact .inr hmk
  obtain ⟨hB', hin⟩ := hB.made hb hne hplain hlex' (hnd ▸ hk) hmk'
  cases hm
  refine ⟨hB', fun c' hc' => ?_⟩
  split at hc'
  · cases hc'
    exact ⟨⟨hg.dev, hplain, b, hb, es', hlex', fun h => absurd h hne⟩, nd.id, rfl, hin⟩
  · cases hc'

end

theorem dropLast_resolveStep_prefix {d : Path} : (resolveStep dot d n).dropLast <+: d := by
  rw [resolveStep]
  split
  · exact dropLast_prefix d
  · split
    · refine IsPrefix.trans ?_ <| dropLast_prefix d
      exact dropLast_prefix _
    · rw [dropLast_concat]

theorem not_dots_of_rename {ph : Bytes} (hs : Plain n) (hreal : h.Real (lex n).dropLast) (ht : Plain ph) {e : Bytes}
    (hlex : lex ph = resolveStep dot (lex n).dropLast e) (hm : h.rename n ph = some h') :
    e ≠ [dot] ∧ e ≠ [dot, dot] := by
  have hreal' : h.Real (lex ph).dropLast := hreal.mono (hlex ▸ dropLast_resolveStep_prefix)
  obtain ⟨hne, hcases⟩ := Fs.rename_eq hs hreal ht hreal' hm
  rw [← not_or]
  intro hdots
  have hup : lex ph <+: (lex n).dropLast := by
    rw [hlex]
    rcases hdots with rfl | rfl
    · rw [resolveStep_dot]
    · rw [resolveStep_dotdot]
      exact dropLast_prefix _
  rcases hcases with ⟨heq, -⟩ | ⟨-, hqp, -⟩
  · have hle := hup.length_le
    have hpos := length_pos_of_ne_nil hne
    rw [← heq, length_dropLast] at hle
    omega
  · exact hqp (hup.trans <| dropLast_prefix _)

theorem Bases.renamed (hB : Bases r h bs) (hg : Good root bs c) (hs : slash ∉ n) (hnil : n ≠ []) {ph : Bytes}
    (hph : ph = addelem (addelem c.fsname [dot, dot]) n) (hm : h.rename c.fsname ph = some h') :
    ∃ bs', bs ⊆ bs' ∧ Bases r h' bs' ∧ Good root bs' { c with fsname := ph } := by
  obtain ⟨hplain, hlex'⟩ := lex_sibling hg.plain hs
  rw [← hph] at hplain hlex'
  have hreal := (hg.real hB).mono <| dropLast_prefix _
  obtain ⟨hd₁, hd₂⟩ := not_dots_of_rename hg.plain hreal hplain hlex' hm
  have hreal' : h.Real (lex ph).dropLast := hreal.mono (hlex' ▸ dropLast_resolveStep_prefix)
  obtain ⟨hne, hcases⟩ := Fs.rename_eq hg.plain hreal hplain hreal' hm
  rw [resolveStep, if_neg (by simp [hnil, hd₁]), if_neg hd₂] at hlex'
  have hpos := length_pos_of_ne_nil hne
  have hlen : (lex ph).length = (lex c.fsname).length := by
    rw [hlex', length_append, length_dropLast, length_singleton]
    omega
  have hdir : (lex ph).dropLast <+: lex c.fsname := by
    rw [hlex', dropLast_concat]
    exact dropLast_prefix _
  obtain ⟨b, hb, es, hlex, hes⟩ := hg.under
  rcases hcases with ⟨heq, rfl⟩ | ⟨hpq, hqp, rfl⟩
  · exact ⟨bs, List.Subset.refl bs, hB, hg.dev, hplain, b, hb, es, heq ▸ hlex, hes⟩
  by_cases hroot : es = []
  · -- the exported directory itself: its new path is one more of its paths
    rw [hroot, append_nil] at hlex
    rw [hlex] at hlen hdir hpq hqp ⊢
    refine ⟨lex ph :: bs, subset_cons_self _ _, hB.move_root hb hlen hdir hpq hqp, ?_⟩
    exact ⟨hg.dev, hplain, lex ph, mem_cons_self, [], by simp, fun _ => hes hroot⟩
  have hbp : b <+: lex c.fsname := hlex ▸ prefix_append b es
  have hblt : b.length < (lex c.fsname).length := by
    have := length_pos_of_ne_nil hroot
    rw [hlex, length_append]
    omega
  refine ⟨bs, List.Subset.refl bs, hB.move_below hb hbp hblt hlen hpq hqp, hg.dev, hplain, b, hb,
    es.dropLast ++ [n], ?_, fun h => absurd h (by simp)⟩
  show lex ph = _
  rw [hlex', hlex, dropLast_append_of_ne_nil hroot, append_assoc]

theorem Bases.fswstat (hB : Bases r h bs) (hg : Good root bs c) (hm : fswstat h c n luck = some (h', c')) :
    c'.fd = c.fd ∧ ∃ bs', bs ⊆ bs' ∧ Bases r h' bs' ∧ Good root bs' c' := by
  rw [Export.fswstat] at hm
  split at hm
  · cases hm
  split at hm
  · cases hm
    exact ⟨rfl, bs, List.Subset.refl bs, hB, hg⟩
  next hnil =>
  rw [not_or] at hnil
  split at hm
  · cases hm
  next hv =>
  rw [not_or] at hv
  have hs := slash_not_mem_of_validname (s := n) (by simpa using hv.1)
  have hup : Plain (addelem c.fsname [dot, dot]) := hg.plain.addelem (by decide)
  simp only [fswalkpath_eq hg.plain.rooted, fswalkpath_eq hup.rooted] at hm
  split at hm
  · cases hm
  · next h₁ hren =>
    cases hm
    exact ⟨rfl, hB.renamed hg hs hnil.1 rfl hren⟩

/-- A fid has the file with the numbers `i` open. -/
def Opened (s : St) (i : Nat × Nat) : Prop := ∃ fid c, s.fids fid = some c ∧ c.fd = some i

/-- What a request keeps: the invariant, and that a file that it opens is in the exported subtree. -/
def Kept (r : Nat × Nat) (s s' : St) : Prop :=
  (∃ bs, Inv r s' bs) ∧ ∀ i, Opened s' i → Opened s i ∨ Holds r s'.host i

namespace Inv

section
variable (hI : Inv r s bs)
include hI

theorem kept : Kept r s s := ⟨⟨bs, hI⟩, fun _ => .inl⟩

theorem set {bs' : List Path} {fid : UInt32} {o : Option Chan} (hB : Bases r h bs') (hsub : bs ⊆ bs')
    (ho : ∀ c, o = some c → Good s.root bs' c ∧ ∀ i, c.fd = some i → Opened s i ∨ Holds r h i) :
    Kept r s ({ s with host := h }.setFid fid o) := by
  have hfids : ∀ fid' c, ({ s with host := h }.setFid fid o).fids fid' = some c → s.fids fid' = some c ∨
    o = some c := by
    intro fid' c hc
    by_cases hf : fid' = fid
    · right
      simpa [St.setFid, hf] using hc
    · left
      simpa [St.setFid, hf] using hc
  refine ⟨⟨bs', hB, hI.root.mono hsub, hI.root_path, fun fid' c hc => ?_⟩, ?_⟩
  · rcases hfids fid' c hc with hc | hc
    · exact (hI.fids fid' c hc).mono hsub
    · exact (ho c hc).1
  · rintro i ⟨fid', c, hc, hi⟩
    rcases hfids fid' c hc with hc | hc
    · exact .inl ⟨fid', c, hc, hi⟩
    · exact (ho c hc).2 i hi

theorem setHost (hB : Bases r h bs) : Kept r s { s with host := h } :=
  ⟨⟨bs, hB, hI.root, hI.root_path, hI.fids⟩, fun _ => .inl⟩

theorem drop {fid : UInt32} (hB : Bases r h bs) : Kept r s ({ s with host := h }.setFid fid none) :=
  hI.set hB (List.Subset.refl bs) fun c hc => by cases hc

theorem attach_kept (fid : UInt32) : Kept r s (Exattach s fid).2 := by
  rw [Exattach]
  split
  · exact hI.kept
  · refine hI.set hI.bases (List.Subset.refl bs) fun c hc => ?_
    cases hc
    exact ⟨hI.root.congr rfl rfl rfl, fun i hi => by cases hi⟩

theorem clunk_kept (fid : UInt32) : Kept r s (Exclunk s fid luck).2 := by
  rw [Exclunk]
  split
  · exact hI.kept
  · next c hc => exact hI.drop (hI.bases.fsclose (hI.fids fid c hc))

section
variable (hU : Unmounted r s)
include hU

theorem remove_kept (fid : UInt32) : Kept r s (Exremove s fid luck).2 := by
  rw [Exremove]
  split
  · exact hI.kept
  · next c hc =>
    rw [hU.exmount_eq (here_of_fid hI hc)]
    split
    · exact hI.drop hI.bases
    · next h hm => exact hI.drop (hI.bases.fsremove (hI.fids fid c hc) hm)

theorem walk_kept {fid newfid : UInt32} {wname : List CStr}
    (hn : ∀ n ∈ wname, slash ∉ n.bytes) : Kept r s (Exwalk s fid newfid wname).2 := by
  rw [Exwalk]
  split
  · exact hI.kept
  next c hc =>
  split
  · exact hI.kept
  split
  · exact hI.kept
  next c' hw =>
  have hg : Good s.root bs c.clone := (hI.fids fid c hc).congr rfl rfl rfl
  have hh : Here r s c.clone := (here_of_fid hI hc).congr rfl rfl
  have hg' := hI.walkNames_good hU hn hg hh hw
  have hfd' := walkNames_fd rfl hw
  have hset : ∀ fid', Kept r s (s.setFid fid' (some c')) := by
    intro fid'
    refine hI.set hI.bases (List.Subset.refl bs) fun c'' hc'' => ?_
    cases hc''
    exact ⟨hg', fun i hi => by rw [hfd'] at hi; cases hi⟩
  split
  · split
    · exact hI.kept
    · exact hset newfid
  · exact hset fid

theorem open_kept (fid : UInt32) (mode : UInt8) :
    Kept r s (Exopen s fid mode luck).2 := by
  rw [Exopen]
  split
  · exact hI.kept
  next c hc =>
  split
  · exact hI.kept
  rw [hU.exmount_eq (here_of_fid hI hc)]
  split
  · exact hI.kept
  next c' hm =>
  obtain ⟨i, hi, rfl⟩ := hI.bases.fsopen (hI.fids fid c hc) hm
  refine hI.set hI.bases (List.Subset.refl bs) fun c'' hc'' => ?_
  cases hc''
  refine ⟨(hI.fids fid c hc).congr rfl rfl rfl, fun i' hi' => .inr ?_⟩
  cases hi'
  exact hi

theorem create_kept {fid : UInt32} {name : CStr} (perm : UInt32) (mode : UInt8)
    (hn : ∀ c, s.fids fid = some c → exisroot s c = true → name.bytes ≠ []) :
    Kept r s (Excreate s fid name perm mode luck).2 := by
  rw [Excreate]
  split
  · exact hI.kept
  next c hc =>
  have hg := hI.fids fid c hc
  have hroot : c.path = s.root.path → name.bytes ≠ [] := fun h => hn c hc (eqchan_iff.2 ⟨h.symm, hg.dev.symm⟩)
  split
  · exact hI.kept
  split
  · exact hI.kept
  next hv =>
  have hv : validname name.bytes = true := by simpa using hv
  split
  · exact hI.kept
  simp only [hU.findmount_eq (here_of_fid hI hc)]
  split
  · next h hm => exact hI.setHost (hI.bases.fscreate hg hv hroot hm).1
  next h nc hm =>
  obtain ⟨hB, hgood⟩ := hI.bases.fscreate hg hv hroot hm
  obtain ⟨hgn, i, hi, hin⟩ := hgood nc rfl
  refine hI.set hB (List.Subset.refl bs) fun c' hc' => ?_
  cases hc'
  refine ⟨hgn.congr rfl rfl rfl, fun i' hi' => .inr ?_⟩
  cases hi.symm.trans hi'
  exact hin

theorem wstat_kept (fid : UInt32) (stat : Bytes) :
    Kept r s (Exwstat s fid stat luck).2 := by
  rw [Exwstat]
  split
  · exact hI.kept
  next c hc =>
  split
  · exact hI.kept
  rw [hU.exmount_eq (here_of_fid hI hc), hU.findmount_eq (here_of_fid hI hc)]
  split
  · exact hI.kept
  next h nc hm =>
  obtain ⟨hfd, bs', hsub, hB, hg⟩ := hI.bases.fswstat (hI.fids fid c hc) hm
  refine hI.set hB hsub fun c' hc' => ?_
  simp at hc'
  cases hc'
  exact ⟨hg, fun i hi => .inl ⟨fid, c, hc, hfd ▸ hi⟩⟩

end

theorem step_kept {op : Op} (hC : Careful r s op) (hs : step s op = some s') : Kept r s s' := by
  obtain ⟨hU, hC⟩ := hC
  cases hs
  obtain ⟨body, luck⟩ := op
  cases body with
  | Tattach fid => exact hI.attach_kept fid
  | Twalk fid newfid wname => exact hI.walk_kept hU hC
  | Topen fid mode => exact hI.open_kept hU fid mode
  | Tcreate fid name perm mode => exact hI.create_kept hU perm mode hC
  | Tclunk fid => exact hI.clunk_kept fid
  | Tremove fid => exact hI.remove_kept hU fid
  | Twstat fid stat => exact hI.wstat_kept hU fid stat
  | _ => exact hI.kept

end

end Inv

/-- In every run of requests that have no slash in a walked element and make no directory in place of the
root, each fid leads only to files in the exported subtree, and each open file was there when it was opened. -/
theorem confined_of_careful (hE : Exported r s) (ops : List Op) (hC : Along step (Careful r) s ops) :
    Always step (Confined r) s ops ∧ ∀ pre, pre <+: ops → ∀ s', run step s pre = some s' → ∀ i, Opened s' i →
      ∃ pre', pre' <+: pre ∧ ∃ s₁, run step s pre' = some s₁ ∧ Holds r s₁.host i := by
  have hI : ∃ bs, Inv r s bs := ⟨_, hE.inv⟩
  constructor
  · have h : Always step (fun s => ∃ bs, Inv r s bs) s ops :=
      hC.always (fun s op s' ⟨_, hI⟩ hG hs => (hI.step_kept hG hs).1) hI
    exact h.mono fun s ⟨_, hI⟩ => hI.confined
  · intro pre hpre s' hrun i hi
    have h := hC.once (I := fun s => ∃ bs, Inv r s bs) (Q := Opened) (W := fun s i => Holds r s.host i) (x := i)
      (fun s op s' ⟨_, hI⟩ hG hs => ⟨(hI.step_kept hG hs).1, (hI.step_kept hG hs).2 i⟩) hI hpre hrun hi
    refine h.resolve_left ?_
    rintro ⟨fid, c, hc, -⟩
    rw [hE.fids fid] at hc
    cases hc

/-! `/a/b` is exported and `/c` is not in it. -/

def sampleRoot : Chan where
  dev := 0
  path := fsqidPath (1, 4)
  dir := true
  name := [slash, 110]
  fsname := [slash, 97, slash, 98]
  rootpath := fsqidPath (1, 2)
  fd := none
  rclose := false

def sample : St where
  host := ⟨[([], ⟨1, 2, .dir⟩), ([[97]], ⟨1, 3, .dir⟩), ([[97], [98]], ⟨1, 4, .dir⟩), ([[99]], ⟨1, 5, .dir⟩)], [],
    by decide⟩
  root := sampleRoot
  mnt := []
  fids _ := none

theorem exported_sample : Exported (1, 4) sample := by
  refine ⟨⟨rfl, by decide⟩, rfl, ⟨_, rfl, rfl⟩, fun p nd _ hget => ?_, fun _ => rfl⟩
  have hk : ∀ f ∈ sample.host.files, f.2.kind = .dir := by decide
  rw [hk _ (Fs.mem_of_get hget)]
  simp

theorem careful_of_no_mounts {op : Op} (hm : s.mnt = []) (hC : match op.body with
    | .Twalk _ _ wname => ∀ n ∈ wname, slash ∉ n.bytes
    | .Tcreate fid name _ _ => ∀ c, s.fids fid = some c → exisroot s c = true → name.bytes ≠ []
    | _ => True) : Careful r s op := by
  refine ⟨fun m hmem => ?_, hC⟩
  rw [hm] at hmem
  cases hmem

def aye : Luck := ⟨true, true, 1, 9⟩

def dots : CStr := ⟨[dot, dot], by decide⟩

def climb : List Op := [⟨.Tattach 1 0 .empty .empty, aye⟩, ⟨.Twalk 1 2 [dots, dots, ⟨[99], by decide⟩], aye⟩]

theorem confined_climb : Exported (1, 4) sample ∧ Along step (Careful (1, 4)) sample climb ∧
    Always step (Confined (1, 4)) sample climb := by
  have hC : Along step (Careful (1, 4)) sample climb := by
    refine .cons (careful_of_no_mounts rfl trivial) rfl (.cons (careful_of_no_mounts rfl ?_) rfl trivial)
    decide
  exact ⟨exported_sample, hC, (confined_of_careful exported_sample climb hC).1⟩

def leap : List Op :=
  [⟨.Tattach 1 0 .empty .empty, aye⟩,
   ⟨.Twalk 1 2 [⟨[dot, dot, slash, dot, dot, slash, 99], by decide⟩], aye⟩]

/-- The root is removed and made again with an empty name; the new directory has another qid. -/
def replant : List Op :=
  [⟨.Tattach 1 0 .empty .empty, aye⟩, ⟨.Tattach 2 0 .empty .empty, aye⟩, ⟨.Tattach 3 0 .empty .empty, aye⟩,
   ⟨.Tremove 1, aye⟩, ⟨.Tcreate 2 .empty DMDIR OREAD, aye⟩, ⟨.Twalk 3 4 [], aye⟩,
   ⟨.Tcreate 4 ⟨[120], by decide⟩ DMDIR OREAD, ⟨true, true, 1, 10⟩⟩,
   ⟨.Twalk 3 5 [⟨[120], by decide⟩, dots, dots], aye⟩]

theorem not_inside_of_inits (hp : ∀ q ∈ p.inits, ∀ nd ∈ h.get q, nd.id ≠ r) : ¬ Inside r h p := by
  rintro ⟨q, nd, hq, hget, hid⟩
  exact hp q ((mem_inits q p).2 hq) nd hget hid

theorem walk_leaves_exported_tree : Exported (1, 4) sample ∧
    (∃ s, run step sample leap = some s ∧ ¬ Confined (1, 4) s) ∧
    ∃ s, run step sample replant = some s ∧ ¬ Confined (1, 4) s := by
  refine ⟨exported_sample, ⟨_, rfl, fun h => ?_⟩, ⟨_, rfl, fun h => ?_⟩⟩
  · have hin := h 2 _ rfl [[99]] ⟨1, 5, .dir⟩ rfl rfl
    have hpre := (inside_iff (b := [[97], [98]]) (by rfl) (by rfl)).1 hin
    exact absurd hpre (by decide)
  · exact not_inside_of_inits (by decide) (h 5 _ rfl [[97]] ⟨1, 3, .dir⟩ rfl rfl)

end Node9.Export
