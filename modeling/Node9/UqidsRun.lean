import Node9.Uqids
import Node9.Lib.Steps

/-!
# The users of a table of unique qids

Whoever has asked for the `Uqid` of a file holds a reference to it, and gives it back with `freeuqid`. An entry has an
`int` for the device, and it is found again if the `ulong` of the channel is the one that the `int` extends to.
-/

namespace Node9.Uqids
open Refs Steps List

structure File where
  type : UInt16
  dev : UInt64
  path : UInt64
deriving DecidableEq

def Chan.file {δ : Type} (c : Chan δ) : File := ⟨c.type, c.dev, c.qid.path⟩

/-- The file that an entry is found for. -/
def Uqid.file (q : Uqid) : File := ⟨q.type, q.dev.toInt64.toUInt64, q.oldpath⟩

/-- The references that are held: to which entry, and for which file it was asked. -/
structure St where
  tab : Uqidtab
  refs : List (Nat × File)

def St.init : St := ⟨.empty, []⟩

inductive Action (δ : Type)
  | alloc (c : Chan δ) (mem : Bool)
  | free (r : Nat × File)

variable {δ : Type}

def step (s : St) : Action δ → Option St
  | .alloc c mem => (s.tab.uqidalloc c mem).map fun x => ⟨x.1, x.2.elim s.refs fun u => (u, c.file) :: s.refs⟩
  | .free r => if r ∈ s.refs then some ⟨s.tab.freeuqid r.1, s.refs.erase r⟩ else none

def St.files (s : St) : Finset File := (s.refs.map Prod.snd).toFinset

/-- How many files would be in use whose paths are like the one of `f` in the low 48 bits, with `f`. -/
def St.crowd (s : St) (f : File) : Nat :=
  ((insert f s.files).filter fun g => g.path.toNat % 2 ^ 48 = f.path.toNat % 2 ^ 48).card

/-- The device is one that an `int` extends to, and the files are not too many. -/
def Fits (s : St) : Action δ → Prop
  | .alloc c _ => sameDev c.dev.toUInt32.toInt32 c.dev = true ∧ s.crowd c.file < 2 ^ 16
  | .free _ => True

def St.count (s : St) (u : Nat) : Nat := (s.refs.map Prod.fst).count u

/-- What a table of unique qids is for. -/
structure Unique (δ : Type) (s : St) : Prop where
  path_iff : ∀ r ∈ s.refs, ∀ r' ∈ s.refs, (s.tab.node r.1).newpath = (s.tab.node r'.1).newpath ↔ r.2 = r'.2
  look : ∀ (c : Chan δ) u, (u, c.file) ∈ s.refs → s.tab.uqidlook c = some u
  /-- it is freed with its last reference -/
  live_iff : ∀ u, s.tab.Live u ↔ u ∈ s.refs.map Prod.fst
  ref : ∀ u, s.tab.Live u → (s.tab.node u).ref = s.count u
  returns : ∀ (c : Chan δ) mem, s.crowd c.file < 2 ^ 16 → (s.tab.uqidalloc c mem).isSome = true

/-- The path stays what it is for those who have a reference. -/
def Keeps (s : St) (_ : Action δ) (s' : St) : Prop :=
  ∀ r ∈ s.refs, (s'.tab.node r.1).newpath = (s.tab.node r.1).newpath

structure Inv (s : St) : Prop where
  uinv : UInv s.tab s.count
  file : ∀ r ∈ s.refs, (s.tab.node r.1).file = r.2
  one : ∀ u v, s.tab.Live u → s.tab.Live v → (s.tab.node u).file = (s.tab.node v).file → u = v
  low : ∀ u, s.tab.Live u → (s.tab.node u).newpath.toNat % 2 ^ 48 = (s.tab.node u).oldpath.toNat % 2 ^ 48

variable {s s' : St} {t t' : Uqidtab} {u v : Nat} {c : Chan δ} {mem : Bool} {R : Nat → Nat} {r : Nat × File}

theorem uqidlook_eq : t.uqidlook c = (t.qids (uqidhash c.qid.path)).find? fun u => (t.node u).file = c.file := by
  rw [Uqidtab.uqidlook]
  congr 1
  funext u
  simp only [Uqid.file, Chan.file, File.mk.injEq, sameDev, beq_iff_eq]

theorem uqidlook_file (h : t.uqidlook c = some u) : (t.node u).file = c.file := by
  rw [uqidlook_eq] at h
  simpa using List.find?_some h

theorem oldpath_eq (h : (t.node u).file = c.file) : (t.node u).oldpath = c.qid.path := congrArg File.path h

theorem file_ne_of_uqidlook (h : t.uqidlook c = none) (hu : t.Live u) : (t.node u).file ≠ c.file := by
  intro hfile
  rw [uqidlook_eq, List.find?_eq_none] at h
  rw [Uqidtab.Live, oldpath_eq hfile] at hu
  exact h u hu (by simpa using hfile)

theorem Inv.uqidlook (hs : Inv s) (hu : s.tab.Live u) (hfile : (s.tab.node u).file = c.file) :
    s.tab.uqidlook c = some u := by
  cases hl : s.tab.uqidlook c with
  | none => exact absurd hfile (file_ne_of_uqidlook hl hu)
  | some v =>
    have hv := (hs.uinv.live_iff v).2 (hs.uinv.uqidlook_some hl).1
    rw [hs.one u v hu hv (hfile.trans (uqidlook_file hl).symm)]

theorem key_file {q q' : Uqid} (h : q.key = q'.key) : q.file = q'.file := by
  simp only [Uqid.key, Prod.mk.injEq] at h
  rw [Uqid.file, Uqid.file, h.1, h.2.1, h.2.2.1]

theorem Uqid.For.file {q : Uqid} (h : q.For c) (hdev : sameDev c.dev.toUInt32.toInt32 c.dev = true) :
    q.file = c.file := by
  obtain ⟨htype, hq, hpath⟩ := h
  rw [Uqid.file, Chan.file, htype, hq, hpath, beq_iff_eq.1 hdev]

theorem newpath_low {n g g' : Nat} {p p' : UInt64} (hg : g < 2 ^ 16) (h : t.newpath n g p = some (g', p')) :
    p'.toNat % 2 ^ 48 = p.toNat % 2 ^ 48 := by
  induction n generalizing g p with
  | zero => cases h
  | succ n ih =>
    simp only [Uqidtab.newpath] at h
    split at h
    · have hlt : (if g + 1 ≥ 1 <<< 16 then 1 else g + 1) < 2 ^ 16 := by
        split <;> omega
      rw [ih hlt h, toNat_genPath hlt]
      omega
    · cases h
      rfl

theorem uqidalloc_cases (hg : t.pathgen < 2 ^ 16) (h : t.uqidalloc c mem = some (t', some u)) :
    t.uqidlook c = some u ∨
      (t.uqidlook c = none ∧ (t'.node u).newpath.toNat % 2 ^ 48 = c.qid.path.toNat % 2 ^ 48) := by
  unfold Uqidtab.uqidalloc at h
  split at h
  · next hl =>
    cases h
    exact .inl hl
  next hl =>
  split at h <;> try cases h
  split at h <;> cases h
  next hnew =>
    refine .inr ⟨hl, ?_⟩
    simp only [Function.update_self]
    exact newpath_low hg hnew

theorem Inv.key_eq (hs : Inv s) (hf : Frame s.tab t') (hu : s.tab.Live u) : (t'.node u).key = (s.tab.node u).key :=
  hf.2 u (hs.uinv.lt_fresh ((hs.uinv.live_iff u).1 hu))

theorem count_pos : 0 < s.count u ↔ u ∈ s.refs.map Prod.fst := count_pos_iff

theorem Inv.live (hs : Inv s) (hr : r ∈ s.refs) : s.tab.Live r.1 :=
  (hs.uinv.live_iff r.1).2 (count_pos.2 (mem_map.2 ⟨r, hr, rfl⟩))

theorem Inv.keeps (hs : Inv s) (hf : Frame s.tab s'.tab) (a : Action δ) : Keeps s a s' := by
  intro r hr
  have hkey := hs.key_eq hf (hs.live hr)
  simp only [Uqid.key, Prod.mk.injEq] at hkey
  exact hkey.2.2.2

theorem count_cons {f : File} : St.count ⟨t', (u, f) :: s.refs⟩ = bump s.count u := by
  funext v
  by_cases hv : v = u
  · subst hv
    simp [St.count, bump]
  · simp [St.count, bump, hv, Ne.symm hv]

theorem count_erase (hr : r ∈ s.refs) : s.count = bump (St.count ⟨t', s.refs.erase r⟩) r.1 := by
  have hperm := (perm_cons_erase hr).map Prod.fst
  funext v
  rw [St.count, hperm.count_eq]
  by_cases hv : v = r.1
  · subst hv
    simp [St.count, bump]
  · simp [St.count, bump, hv, Ne.symm hv]

theorem Inv.alloc (hs : Inv s) (hdev : sameDev c.dev.toUInt32.toInt32 c.dev = true)
    (ha : s.tab.uqidalloc c mem = some (t', some u)) : Inv ⟨t', (u, c.file) :: s.refs⟩ ∧ Frame s.tab t' := by
  obtain ⟨hinv, hframe, hfor⟩ := hs.uinv.uqidalloc ha
  have hcases := uqidalloc_cases hs.uinv.pathgen ha
  have hfile := hfor.file hdev
  have hlive {v : Nat} (hv : t'.Live v) : v = u ∨ s.tab.Live v := by
    refine or_iff_not_imp_left.2 fun hne => ?_
    have hpos := (hinv.live_iff v).1 hv
    rw [bump, Function.update_of_ne hne] at hpos
    exact (hs.uinv.live_iff v).2 hpos
  have hold {v : Nat} (hv : s.tab.Live v) := hs.key_eq hframe hv
  -- no other entry is for the file
  have hother {v : Nat} (hv : s.tab.Live v) (heq : (t'.node v).file = c.file) : v = u := by
    rw [key_file (hold hv)] at heq
    rcases hcases with hl | ⟨hl, -⟩
    · have := hs.uqidlook hv heq
      rw [hl] at this
      cases this
      rfl
    · exact absurd heq (file_ne_of_uqidlook hl hv)
  refine ⟨⟨?_, fun r hr => ?_, fun v w hv hw hvw => ?_, fun v hv => ?_⟩, hframe⟩
  · rw [count_cons]
    exact hinv
  · rcases mem_cons.mp hr with rfl | hr
    · exact hfile
    · exact (key_file (hold (hs.live hr))).trans (hs.file r hr)
  · dsimp only at hvw
    rcases hlive hv with rfl | hv'
    · rcases hlive hw with rfl | hw'
      · rfl
      · exact (hother hw' (hvw.symm.trans hfile)).symm
    · rcases hlive hw with rfl | hw'
      · exact hother hv' (hvw.trans hfile)
      · rw [key_file (hold hv'), key_file (hold hw')] at hvw
        exact hs.one v w hv' hw' hvw
  · have hkeep {v : Nat} (hv : s.tab.Live v) :
        (t'.node v).newpath.toNat % 2 ^ 48 = (t'.node v).oldpath.toNat % 2 ^ 48 := by
      have hkey := hold hv
      simp only [Uqid.key, Prod.mk.injEq] at hkey
      rw [hkey.2.2.1, hkey.2.2.2]
      exact hs.low v hv
    rcases hlive hv with rfl | hv
    · rcases hcases with hl | ⟨-, hlow⟩
      · exact hkeep ((hs.uinv.live_iff v).2 (hs.uinv.uqidlook_some hl).1)
      · rw [hfor.2.2]
        exact hlow
    · exact hkeep hv

theorem Inv.free (hs : Inv s) (hr : r ∈ s.refs) :
    Inv ⟨s.tab.freeuqid r.1, s.refs.erase r⟩ ∧ Frame s.tab (s.tab.freeuqid r.1) := by
  have hinv : UInv (s.tab.freeuqid r.1) (St.count ⟨s.tab.freeuqid r.1, s.refs.erase r⟩) := by
    have hu := hs.uinv
    rw [@count_erase _ (s.tab.freeuqid r.1) _ hr] at hu
    exact hu.freeuqid
  have hframe : Frame s.tab (s.tab.freeuqid r.1) := UInv.freeuqid_frame
  have hlive {v : Nat} (hv : (s.tab.freeuqid r.1).Live v) : s.tab.Live v := by
    have hmem := count_pos.1 ((hinv.live_iff v).1 hv)
    exact (hs.uinv.live_iff v).2 (count_pos.2 (map_subset _ erase_subset hmem))
  have hold {v : Nat} (hv : (s.tab.freeuqid r.1).Live v) := hs.key_eq hframe (hlive hv)
  refine ⟨⟨hinv, fun q hq => ?_, fun v w hv hw hvw => ?_, fun v hv => ?_⟩, hframe⟩
  · have hq := erase_subset hq
    exact (key_file (hs.key_eq hframe (hs.live hq))).trans (hs.file q hq)
  · dsimp only at hvw
    rw [key_file (hold hv), key_file (hold hw)] at hvw
    exact hs.one v w (hlive hv) (hlive hw) hvw
  · have hkey := hold hv
    simp only [Uqid.key, Prod.mk.injEq] at hkey
    dsimp only
    rw [hkey.2.2.1, hkey.2.2.2]
    exact hs.low v (hlive hv)

theorem Inv.step {a : Action δ} (hs : Inv s) (hG : Fits s a) (h : step s a = some s') : Inv s' ∧ Keeps s a s' := by
  cases a with
  | alloc c mem =>
    obtain ⟨⟨t', o⟩, ha, rfl⟩ := Option.map_eq_some_iff.1 h
    cases o with
    | none =>
      obtain ⟨rfl, -⟩ := UInv.uqidalloc_none ha
      exact ⟨hs, hs.keeps (Frame.refl _) _⟩
    | some u =>
      obtain ⟨hs', hf⟩ := hs.alloc hG.1 ha
      exact ⟨hs', hs.keeps hf _⟩
  | free r =>
    rw [Uqids.step] at h
    split at h
    · next hr =>
      cases h
      obtain ⟨hs', hf⟩ := hs.free hr
      exact ⟨hs', hs.keeps hf _⟩
    · cases h

theorem inv_init : Inv .init where
  uinv := .empty
  file := by rintro r ⟨⟩
  one := by rintro u v ⟨⟩
  low := by rintro u ⟨⟩

theorem Inv.alike_lt (hs : Inv s) (hl : s.tab.uqidlook c = none) (hcrowd : s.crowd c.file < 2 ^ 16) :
    (s.tab.alike c.qid.path).length < 65535 := by
  have hlive {u : Nat} (hu : u ∈ s.tab.alike c.qid.path) : s.tab.Live u ∧
      (s.tab.node u).newpath.toNat % 2 ^ 48 = c.qid.path.toNat % 2 ^ 48 := by
    obtain ⟨hmem, hlow⟩ := mem_filter.1 hu
    obtain ⟨b, -, hb⟩ := mem_flatMap.1 hmem
    exact ⟨hs.uinv.live_of_mem hb, by simpa using hlow⟩
  have hfiles {u : Nat} (hu : s.tab.Live u) : (s.tab.node u).file ∈ s.files := by
    obtain ⟨r, hr, rfl⟩ := mem_map.1 (count_pos.1 ((hs.uinv.live_iff u).1 hu))
    rw [hs.file r hr]
    exact mem_toFinset.2 (mem_map.2 ⟨r, hr, rfl⟩)
  have hnew : c.file ∉ s.files := by
    intro hmem
    obtain ⟨r, hr, hrc⟩ := mem_map.1 (mem_toFinset.1 hmem)
    exact file_ne_of_uqidlook hl (hs.live hr) ((hs.file r hr).trans hrc)
  have hcard : (s.tab.alike c.qid.path).toFinset.card ≤
      (s.files.filter fun g => g.path.toNat % 2 ^ 48 = c.file.path.toNat % 2 ^ 48).card := by
    refine Finset.card_le_card_of_injOn (fun u => (s.tab.node u).file) (fun u hu => ?_) fun u hu v hv huv => ?_
    · obtain ⟨hu, hlow⟩ := hlive (mem_toFinset.1 hu)
      refine Finset.mem_filter.2 ⟨hfiles hu, ?_⟩
      rw [hs.low u hu] at hlow
      exact hlow
    · exact hs.one u v (hlive (mem_toFinset.1 hu)).1 (hlive (mem_toFinset.1 hv)).1 huv
  have hnd : (s.tab.alike c.qid.path).Nodup := hs.uinv.chains_nodup.filter _
  rw [toFinset_card_of_nodup hnd] at hcard
  rw [St.crowd, Finset.filter_insert, if_pos rfl, Finset.card_insert_of_notMem] at hcrowd
  · omega
  · exact fun hmem => hnew (Finset.mem_filter.1 hmem).1

theorem Inv.path_iff {r' : Nat × File} (hs : Inv s) (hr : r ∈ s.refs) (hr' : r' ∈ s.refs) :
    (s.tab.node r.1).newpath = (s.tab.node r'.1).newpath ↔ r.2 = r'.2 := by
  rw [← hs.file r hr, ← hs.file r' hr']
  constructor
  · intro h
    rw [hs.uinv.newpath _ _ (hs.live hr) (hs.live hr') h]
  · intro h
    rw [hs.one _ _ (hs.live hr) (hs.live hr') h]

theorem Inv.returns (hs : Inv s) (c : Chan δ) (mem : Bool) (h : s.crowd c.file < 2 ^ 16) :
    (s.tab.uqidalloc c mem).isSome = true :=
  hs.uinv.uqidalloc_isSome_of_alike c mem fun hl => hs.alike_lt hl h

theorem Inv.look (hs : Inv s) (hu : (u, c.file) ∈ s.refs) : s.tab.uqidlook c = some u := by
  have hlive := hs.live (r := (u, c.file)) hu
  have hfile := hs.file (u, c.file) hu
  exact hs.uqidlook hlive hfile

theorem Inv.unique (hs : Inv s) : Unique δ s where
  path_iff _ hr _ hr' := hs.path_iff hr hr'
  look _ _ hu := hs.look hu
  live_iff u := (hs.uinv.live_iff u).trans count_pos
  ref u hu := hs.uinv.ref u hu
  returns c mem h := hs.returns c mem h

/-- As long as devices are what an `int` extends to, there is one entry and one path for each file in use. -/
theorem unique_along (as : List (Action δ)) (h : Along step Fits .init as) :
    Always step (Unique δ) .init as ∧ Each step Keeps .init as :=
  ⟨(h.always (I := Inv) (fun _ _ _ hs hG hstep => (hs.step hG hstep).1) inv_init).mono fun _ hs => hs.unique,
    h.each (I := Inv) (fun _ _ _ hs hG hstep => hs.step hG hstep) inv_init⟩

def aFile (dev : UInt64) : Chan Unit := ⟨7, dev, ⟨0, 0, 0⟩, false, ()⟩

theorem unique_along_twice :
    Always step (Unique Unit) .init [.alloc (aFile 3) true, .alloc (aFile 3) true, .free (0, (aFile 3).file)] ∧
      Each step Keeps .init [.alloc (aFile 3) true, .alloc (aFile 3) true, .free (0, (aFile 3).file)] :=
  unique_along [.alloc (aFile 3) true, .alloc (aFile 3) true, .free (0, (aFile 3).file)]
    (.cons ⟨by decide, by decide⟩ rfl (.cons ⟨by decide, by decide⟩ rfl (.cons trivial rfl trivial)))

/-- A file of the device 2^31 gets another path each time. -/
theorem not_unique : ∃ s, run step .init [.alloc (aFile (2 ^ 31)) true, .alloc (aFile (2 ^ 31)) true] = some s ∧
    ¬ Unique Unit s := by
  refine ⟨_, rfl, fun h => ?_⟩
  have := (h.path_iff (1, (aFile (2 ^ 31)).file) (by decide) (0, (aFile (2 ^ 31)).file) (by decide)).2 rfl
  revert this
  decide

end Node9.Uqids
