import Node9.Fcall
import Node9.Lib.Refs

/-!
# Unique qids (`uqid.c`)

The files of an export come from several devices, whose qids can be the same. The table has an entry for each
file that is in use, with the path that the client sees. A `Uqid` is the number of its allocation, and a hash
chain is the list of its entries. `q->dev` is an `int` and `c->dev` an `ulong`, so that `q->dev == c->dev`
sign-extends the `int`.

`UInv t R` says that the table has the entries to which there are references: `R u` of them to `u`.
-/

namespace Node9.Uqids
open Refs Function List

/-- A `Chan`; what only its device looks at is in `aux`. -/
structure Chan (δ : Type) where
  type : UInt16
  dev : UInt64
  qid : Qid
  /-- `COPEN` -/
  copen : Bool
  aux : δ

/-- What `cclone` returns: the same file, not open. -/
def Chan.clone {δ : Type} (c : Chan δ) : Chan δ := { c with copen := false }

structure Uqid where
  ref : Int
  type : UInt16
  dev : Int32
  oldpath : UInt64
  newpath : UInt64

structure Uqidtab where
  qids : Nat → List Nat
  node : Nat → Uqid
  pathgen : Nat
  fresh : Nat

def Nqidhash : Nat := 32
def QIDMASK : UInt64 := 0xffffffffffff

def Uqidtab.empty : Uqidtab := ⟨fun _ => [], fun _ => ⟨0, 0, 0, 0, 0⟩, 0, 0⟩

def uqidhash (path : UInt64) : Nat := ((path >>> 16 ^^^ path >>> 8 ^^^ path) &&& 31).toNat

/-- `q->dev == c->dev`, an `int` and an `ulong`. -/
def sameDev (i : Int32) (d : UInt64) : Bool := i.toInt64.toUInt64 == d

/-- `(vlong)pathgen << 48 | path & QIDMASK`. -/
def genPath (pathgen : Nat) (path : UInt64) : UInt64 := UInt64.ofNat pathgen <<< 48 ||| (path &&& QIDMASK)

/-- The `Uqid` is the one of the file of `c`. -/
def Uqid.For {δ : Type} (q : Uqid) (c : Chan δ) : Prop :=
  q.type = c.type ∧ q.dev = c.dev.toUInt32.toInt32 ∧ q.oldpath = c.qid.path

namespace Uqidtab
variable {δ : Type} (t : Uqidtab)

def uqidlook (c : Chan δ) : Option Nat :=
  (t.qids (uqidhash c.qid.path)).find? fun u =>
    (t.node u).type = c.type ∧ sameDev (t.node u).dev c.dev ∧ (t.node u).oldpath = c.qid.path

def uqidexists (path : UInt64) : Bool :=
  (range Nqidhash).any fun i => (t.qids i).any fun u => (t.node u).newpath = path

/-- The loop for `newpath`. After as many rounds as there are values of `pathgen` it goes on forever. -/
def newpath : Nat → Nat → UInt64 → Option (Nat × UInt64)
  | 0, _, _ => none
  | n + 1, pathgen, path =>
    if t.uqidexists path then
      let pathgen := if pathgen + 1 ≥ 1 <<< 16 then 1 else pathgen + 1
      newpath n pathgen (genPath pathgen path)
    else some (pathgen, path)

def setRef (u : Nat) (ref : Int) : Uqidtab :=
  { t with node := update t.node u { t.node u with ref := ref } }

def incref (u : Nat) : Uqidtab := t.setRef u ((t.node u).ref + 1)

/-- `none` if it does not return, and no `Uqid` if there is no memory for one. -/
def uqidalloc (c : Chan δ) (mem : Bool) : Option (Uqidtab × Option Nat) :=
  match t.uqidlook c with
  | some u => some (t.incref u, some u)
  | none =>
    if mem then
      match t.newpath (1 <<< 16) t.pathgen c.qid.path with
      | none => none
      | some (pathgen, path) =>
        let q : Uqid := ⟨1, c.type, c.dev.toUInt32.toInt32, c.qid.path, path⟩
        let h := uqidhash c.qid.path
        some ({ qids := update t.qids h (t.qids h ++ [t.fresh]), node := update t.node t.fresh q,
                pathgen, fresh := t.fresh + 1 }, some t.fresh)
    else some (t, none)

def freeuqid (u : Nat) : Uqidtab :=
  let t := t.setRef u ((t.node u).ref - 1)
  let h := uqidhash (t.node u).oldpath
  if (t.node u).ref = 0 then { t with qids := update t.qids h ((t.qids h).erase u) } else t

def Live (u : Nat) : Prop := u ∈ t.qids (uqidhash (t.node u).oldpath)

def size : Nat := ((range Nqidhash).flatMap t.qids).length

end Uqidtab

def mkuqid {δ : Type} (c : Chan δ) (q : Uqid) : Qid := { c.qid with path := q.newpath }

theorem toInt32_sameDev {i : Int32} {d : UInt64} (h : sameDev i d = true) : i = d.toUInt32.toInt32 := by
  obtain rfl := (beq_iff_eq.1 h).symm
  refine Int32.toBitVec.inj ?_
  change i.toBitVec = (i.toBitVec.signExtend 64).setWidth 32
  ext k hk
  rw [BitVec.getElem_setWidth, BitVec.getLsbD_signExtend]
  simp [hk]
  omega

theorem toNat_genPath {g : Nat} (hg : g < 2 ^ 16) (p : UInt64) :
    (genPath g p).toNat = g * 2 ^ 48 + p.toNat % 2 ^ 48 := by
  have hmask : (p &&& QIDMASK).toNat = p.toNat % 2 ^ 48 := by
    rw [UInt64.toNat_and]
    exact Nat.and_two_pow_sub_one_eq_mod p.toNat 48
  have hlow : p.toNat % 2 ^ 48 < 2 ^ 48 := Nat.mod_lt _ (by decide)
  have hhigh : (UInt64.ofNat g <<< 48).toNat = 2 ^ 48 * g := by
    rw [UInt64.toNat_shiftLeft, UInt64.toNat_ofNat']
    simp only [Nat.shiftLeft_eq]
    have : (48 : UInt64).toNat % 64 = 48 := by decide
    rw [this]
    omega
  rw [genPath, UInt64.toNat_or, hmask, hhigh, ← Nat.two_pow_add_eq_or_of_lt hlow]
  omega

namespace Uqidtab
variable {t : Uqidtab} {n g : Nat} {p : UInt64}

theorem uqidexists_iff : t.uqidexists p = true ↔ ∃ u ∈ (range Nqidhash).flatMap t.qids, (t.node u).newpath =
    p := by
  simp only [uqidexists, any_eq_true, decide_eq_true_eq, mem_flatMap]
  constructor
  · rintro ⟨b, hb, u, hu, hp⟩
    exact ⟨u, ⟨b, hb, hu⟩, hp⟩
  · rintro ⟨u, ⟨b, hb, hu⟩, hp⟩
    exact ⟨b, hb, u, hu, hp⟩

theorem newpath_spec {g' : Nat} {p' : UInt64} (hg : g < 2 ^ 16) (h : t.newpath n g p = some (g', p')) :
    g' < 2 ^ 16 ∧ t.uqidexists p' = false := by
  induction n generalizing g p with
  | zero => cases h
  | succ n ih =>
    simp only [newpath] at h
    split at h
    · refine ih ?_ h
      split <;> omega
    · next hp =>
      cases h
      exact ⟨hg, by simpa using hp⟩

theorem newpath_none (hg : g < 2 ^ 16) (h : t.newpath n g p = none) {k : Nat} (hk : k + 1 < n) :
    ∃ q, t.uqidexists q = true ∧ q.toNat = ((g + k) % 65535 + 1) * 2 ^ 48 + p.toNat % 2 ^ 48 := by
  induction n generalizing g p k with
  | zero => cases hk
  | succ n ih =>
    simp only [newpath] at h
    split at h <;> try cases h
    have hg' : (if g + 1 ≥ 1 <<< 16 then 1 else g + 1) = g % 65535 + 1 := by
      split <;> omega
    rw [hg'] at h
    have hlt : g % 65535 + 1 < 2 ^ 16 := by omega
    have hpath := toNat_genPath hlt p
    cases k with
    | zero =>
      refine ⟨_, ?_, hpath⟩
      cases n with
      | zero => omega
      | succ n =>
        rw [newpath] at h
        split at h
        · next hex => exact hex
        · cases h
    | succ k =>
      obtain ⟨q, hq, hq'⟩ := ih hlt h (by omega : k + 1 < n)
      refine ⟨q, hq, ?_⟩
      rw [hq', hpath]
      omega

/-- The entries whose paths are as `p` in the low 48 bits, where a new path does not differ. -/
def alike (t : Uqidtab) (p : UInt64) : List Nat :=
  ((range Nqidhash).flatMap t.qids).filter fun u => (t.node u).newpath.toNat % 2 ^ 48 = p.toNat % 2 ^ 48

theorem newpath_isSome (hg : g < 2 ^ 16) (hsize : (t.alike p).length < 65535) :
    (t.newpath (1 <<< 16) g p).isSome = true := by
  by_contra hnone
  have hnone : t.newpath (1 <<< 16) g p = none := by simpa using hnone
  let f : Nat → Nat := fun x => (x + 1) * 2 ^ 48 + p.toNat % 2 ^ 48
  let paths := (t.alike p).map fun u => (t.node u).newpath.toNat
  have hsub : (Finset.range 65535).image f ⊆ paths.toFinset := by
    intro y hy
    obtain ⟨x, hx, rfl⟩ := Finset.mem_image.1 hy
    have hx : x < 65535 := Finset.mem_range.1 hx
    obtain ⟨q, hq, hq'⟩ := newpath_none hg hnone (k := (x + (65535 - g % 65535)) % 65535) (by omega)
    obtain ⟨u, hu, rfl⟩ := uqidexists_iff.1 hq
    have hk : (g + (x + (65535 - g % 65535)) % 65535) % 65535 = x := by omega
    rw [hk] at hq'
    refine mem_toFinset.2 (mem_map.2 ⟨u, mem_filter.2 ⟨hu, ?_⟩, hq'⟩)
    simp only [hq', decide_eq_true_eq]
    omega
  have hinj : Injective f := fun x y hxy => by
    simp only [f] at hxy
    omega
  have hcard := Finset.card_le_card hsub
  rw [Finset.card_image_of_injective _ hinj, Finset.card_range] at hcard
  have hlen := paths.toFinset_card_le
  simp only [paths, length_map] at hlen
  exact absurd (le_trans hcard hlen) (Nat.not_le_of_lt hsize)

end Uqidtab

structure UInv (t : Uqidtab) (R : Nat → Nat) : Prop where
  live_iff : ∀ u, t.Live u ↔ 0 < R u
  ref : ∀ u, t.Live u → (t.node u).ref = R u
  bucket : ∀ b, ∀ u ∈ t.qids b, b = uqidhash (t.node u).oldpath ∧ u < t.fresh
  nodup : ∀ b, (t.qids b).Nodup
  newpath : ∀ u v, t.Live u → t.Live v → (t.node u).newpath = (t.node v).newpath → u = v
  pathgen : t.pathgen < 2 ^ 16

/-- What a `Uqid` says, apart from its references. -/
def Uqid.key (q : Uqid) : UInt16 × Int32 × UInt64 × UInt64 := (q.type, q.dev, q.oldpath, q.newpath)

/-- The entries stay what they are. -/
def Frame (t t' : Uqidtab) : Prop := t.fresh ≤ t'.fresh ∧ ∀ u < t.fresh, (t'.node u).key = (t.node u).key

theorem Frame.refl (t : Uqidtab) : Frame t t := ⟨le_refl _, fun _ _ => rfl⟩

theorem Frame.trans {t t' t'' : Uqidtab} (h : Frame t t') (h' : Frame t' t'') : Frame t t'' :=
  ⟨le_trans h.1 h'.1, fun u hu => (h'.2 u (lt_of_lt_of_le hu h.1)).trans (h.2 u hu)⟩

theorem uqidhash_lt (p : UInt64) : uqidhash p < Nqidhash := by
  rw [uqidhash, UInt64.toNat_and]
  exact lt_of_le_of_lt Nat.and_le_right (by decide)

theorem Uqidtab.Live.mem {t : Uqidtab} {u : Nat} (h : t.Live u) : u ∈ (range Nqidhash).flatMap t.qids :=
  mem_flatMap.2 ⟨_, mem_range.2 (uqidhash_lt _), h⟩

open Uqidtab

theorem setRef_frame (t : Uqidtab) (u : Nat) (r : Int) : Frame t (t.setRef u r) := by
  refine ⟨le_refl _, fun v _ => ?_⟩
  by_cases hv : v = u
  · subst hv
    simp [Uqidtab.setRef, Uqid.key]
  · simp [Uqidtab.setRef, hv]

namespace UInv
variable {δ : Type} {t t' : Uqidtab} {R : Nat → Nat} {u v : Nat} {c : Chan δ} {mem : Bool}

theorem empty : UInv .empty fun _ => 0 where
  live_iff u := by simp [Live, Uqidtab.empty]
  ref _ h := nomatch h
  bucket _ _ h := nomatch h
  nodup _ := nodup_nil
  newpath _ _ h := nomatch h
  pathgen := by decide

theorem lt_fresh (h : UInv t R) (hu : 0 < R u) : u < t.fresh := (h.bucket _ u ((h.live_iff u).2 hu)).2

theorem live_of_mem (h : UInv t R) {b : Nat} (hu : u ∈ t.qids b) : t.Live u := by
  rw [(h.bucket b u hu).1] at hu
  exact hu

theorem setRef (h : UInv t R) {n : Nat} (hu : 0 < R u) (hn : 0 < n) : UInv (t.setRef u n) (update R u n) := by
  have hnode : ∀ v, ((t.setRef u n).node v).oldpath = (t.node v).oldpath ∧
      ((t.setRef u n).node v).newpath = (t.node v).newpath := by
    intro v
    by_cases hv : v = u
    · subst hv
      simp [Uqidtab.setRef]
    · simp [Uqidtab.setRef, hv]
  have hlive : ∀ v, (t.setRef u n).Live v ↔ t.Live v := fun v => by
    simp only [Live, (hnode v).1]
    rfl
  refine ⟨fun v => ?_, fun v hv => ?_, fun b v hv => ?_, h.nodup, fun v w hv hw hvw => ?_, h.pathgen⟩
  · rw [hlive, h.live_iff]
    by_cases hv : v = u
    · subst hv
      simp [hn, hu]
    · simp [hv]
  · rw [hlive] at hv
    by_cases hvu : v = u
    · subst hvu
      simp [Uqidtab.setRef]
    · simp [Uqidtab.setRef, hvu, h.ref v hv]
  · rw [(hnode v).1]
    exact h.bucket b v hv
  · rw [(hnode v).2, (hnode w).2] at hvw
    exact h.newpath v w ((hlive v).1 hv) ((hlive w).1 hw) hvw

theorem incref (h : UInv t R) (hu : 0 < R u) : UInv (t.incref u) (bump R u) := by
  have href := h.ref u ((h.live_iff u).2 hu)
  have hs := h.setRef (n := R u + 1) hu (Nat.succ_pos _)
  have hcast : ((R u + 1 : Nat) : Int) = (t.node u).ref + 1 := by
    rw [href]
    rfl
  rwa [hcast] at hs

theorem incref_frame : Frame t (t.incref u) := setRef_frame t u _

theorem remove (h : UInv t (bump R u)) (hu : R u = 0) {t' : Uqidtab} (hfresh : t'.fresh = t.fresh)
    (hpathgen : t'.pathgen = t.pathgen) (hself : (t'.node u).oldpath = (t.node u).oldpath)
    (hnode : ∀ v, v ≠ u → t'.node v = t.node v)
    (hqids : t'.qids = update t.qids (uqidhash (t.node u).oldpath)
      ((t.qids (uqidhash (t.node u).oldpath)).erase u)) : UInv t' R := by
  have hmem : ∀ b v, v ∈ t'.qids b ↔ v ≠ u ∧ v ∈ t.qids b := by
    intro b v
    rw [hqids]
    by_cases hb : b = uqidhash (t.node u).oldpath
    · rw [hb, update_self, (h.nodup _).mem_erase_iff]
    · rw [update_of_ne hb]
      refine ⟨fun hv => ⟨?_, hv⟩, fun hv => hv.2⟩
      rintro rfl
      exact hb (h.bucket b v hv).1
  have hlive : ∀ v, t'.Live v ↔ v ≠ u ∧ t.Live v := by
    intro v
    rw [Live, hmem]
    refine and_congr_right fun hv => ?_
    rw [hnode v hv]
    rfl
  refine ⟨fun v => ?_, fun v hv => ?_, fun b v hv => ?_, fun b => ?_, fun v w hv hw hvw => ?_, hpathgen ▸ h.pathgen⟩
  · rw [hlive, h.live_iff]
    by_cases hv : v = u
    · simp [hv, hu]
    · simp [bump, hv]
  · obtain ⟨hvu, hv⟩ := (hlive v).1 hv
    rw [hnode v hvu, h.ref v hv, bump, update_of_ne hvu]
  · obtain ⟨hvu, hv⟩ := (hmem b v).1 hv
    rw [hnode v hvu, hfresh]
    exact h.bucket b v hv
  · rw [hqids]
    by_cases hb : b = uqidhash (t.node u).oldpath
    · rw [hb, update_self]
      exact (h.nodup _).erase u
    · rw [update_of_ne hb]
      exact h.nodup b
  · obtain ⟨hvu, hv⟩ := (hlive v).1 hv
    obtain ⟨hwu, hw⟩ := (hlive w).1 hw
    rw [hnode v hvu, hnode w hwu] at hvw
    exact h.newpath v w hv hw hvw

theorem freeuqid (h : UInv t (bump R u)) : UInv (t.freeuqid u) R := by
  have hpos : 0 < bump R u u := by simp [bump]
  have href : (t.node u).ref - 1 = R u := by
    rw [h.ref u ((h.live_iff u).2 hpos)]
    simp [bump]
  simp only [Uqidtab.freeuqid, Uqidtab.setRef, update_self, href]
  by_cases hu : R u = 0
  · rw [if_pos (by omega)]
    exact h.remove hu rfl rfl (by simp) (fun v hv => by simp [hv]) rfl
  · rw [if_neg (by omega)]
    have hs := h.setRef (n := R u) hpos (Nat.pos_of_ne_zero hu)
    rwa [bump, update_idem, update_eq_self] at hs

theorem freeuqid_frame : Frame t (t.freeuqid u) := by
  have hs := setRef_frame t u ((t.node u).ref - 1)
  simp only [Uqidtab.freeuqid]
  split
  · exact hs
  · exact hs

theorem uqidlook_some (h : UInv t R) (hl : t.uqidlook c = some u) : 0 < R u ∧ (t.node u).For c := by
  have hu := mem_of_find?_eq_some hl
  have hp := find?_some hl
  simp only [decide_eq_true_eq] at hp
  exact ⟨(h.live_iff u).1 (h.live_of_mem hu), hp.1, toInt32_sameDev hp.2.1, hp.2.2⟩

theorem add (h : UInv t R) {q : Uqid} {pathgen : Nat} (hgen : pathgen < 2 ^ 16) (hq : q.ref = 1)
    (hno : t.uqidexists q.newpath = false) :
    UInv ⟨update t.qids (uqidhash q.oldpath) (t.qids (uqidhash q.oldpath) ++ [t.fresh]),
      update t.node t.fresh q, pathgen, t.fresh + 1⟩ (bump R t.fresh) := by
  have hold : ∀ b, ∀ v ∈ t.qids b, v ≠ t.fresh := fun b v hv => ne_of_lt (h.bucket b v hv).2
  have hzero : R t.fresh = 0 := by
    by_contra hpos
    exact lt_irrefl _ (h.lt_fresh (Nat.pos_of_ne_zero hpos))
  have hmem : ∀ b v, v ∈ update t.qids (uqidhash q.oldpath) (t.qids (uqidhash q.oldpath) ++ [t.fresh]) b ↔
      v ∈ t.qids b ∨ (v = t.fresh ∧ b = uqidhash q.oldpath) := by
    intro b v
    by_cases hb : b = uqidhash q.oldpath
    · simp [hb]
    · simp [hb]
  have hlive : ∀ v, v ≠ t.fresh → (v ∈ update t.qids (uqidhash q.oldpath)
    (t.qids (uqidhash q.oldpath) ++ [t.fresh])
      (uqidhash (update t.node t.fresh q v).oldpath) ↔ t.Live v) := by
    intro v hv
    rw [hmem, update_of_ne hv]
    simp [hv, Live]
  have hpath : ∀ v, t.Live v → (t.node v).newpath ≠ q.newpath := by
    intro v hv hp
    have hex : t.uqidexists q.newpath = true := uqidexists_iff.2 ⟨v, hv.mem, hp⟩
    rw [hno] at hex
    cases hex
  refine ⟨fun v => ?_, fun v hv => ?_, fun b v hv => ?_, fun b => ?_, fun v w hv hw hvw => ?_, hgen⟩
  · by_cases hv : v = t.fresh
    · subst hv
      simp [Live, bump]
    · rw [Live, hlive v hv, h.live_iff, bump, update_of_ne hv]
  · by_cases hvf : v = t.fresh
    · subst hvf
      simp [hq, bump, hzero]
    · rw [Live, hlive v hvf] at hv
      simp [hvf, bump, h.ref v hv]
  · rcases (hmem b v).1 hv with hv | ⟨rfl, rfl⟩
    · simp only [update_of_ne (hold b v hv)]
      exact ⟨(h.bucket b v hv).1, Nat.lt_succ_of_lt (h.bucket b v hv).2⟩
    · simp
  · by_cases hb : b = uqidhash q.oldpath
    · simp only [hb, update_self, nodup_append]
      exact ⟨h.nodup _, by simp, fun v hv w hw => by simpa using (mem_singleton.1 hw) ▸ hold _ v hv⟩
    · simp only [update_of_ne hb]
      exact h.nodup b
  · by_cases hvf : v = t.fresh <;> by_cases hwf : w = t.fresh
    · rw [hvf, hwf]
    · rw [Live, hlive w hwf] at hw
      simp only [hvf, update_self, update_of_ne hwf] at hvw
      exact absurd hvw.symm (hpath w hw)
    · rw [Live, hlive v hvf] at hv
      simp only [hwf, update_self, update_of_ne hvf] at hvw
      exact absurd hvw (hpath v hv)
    · rw [Live, hlive v hvf] at hv
      rw [Live, hlive w hwf] at hw
      simp only [update_of_ne hvf, update_of_ne hwf] at hvw
      exact h.newpath v w hv hw hvw

theorem uqidalloc (h : UInv t R) (ha : t.uqidalloc c mem = some (t', some u)) :
    UInv t' (bump R u) ∧ Frame t t' ∧ (t'.node u).For c := by
  unfold Uqidtab.uqidalloc at ha
  split at ha
  · next v hl =>
    cases ha
    obtain ⟨hpos, hfor⟩ := h.uqidlook_some hl
    refine ⟨h.incref hpos, incref_frame, ?_⟩
    simpa [Uqid.For, Uqidtab.incref, Uqidtab.setRef] using hfor
  split at ha <;> try cases ha
  split at ha <;> cases ha
  next pathgen path hnew =>
    obtain ⟨hgen, hno⟩ := newpath_spec h.pathgen hnew
    refine ⟨?_, ⟨Nat.le_succ _, fun v hv => ?_⟩, ?_⟩
    · exact h.add (q := ⟨1, c.type, c.dev.toUInt32.toInt32, c.qid.path, path⟩) hgen rfl hno
    · simp [ne_of_lt hv]
    · simp [Uqid.For]

theorem uqidalloc_isSome_of_alike (h : UInv t R) (c : Chan δ) (mem : Bool)
    (hsize : t.uqidlook c = none → (t.alike c.qid.path).length < 65535) : (t.uqidalloc c mem).isSome = true := by
  unfold Uqidtab.uqidalloc
  split
  · rfl
  next hl =>
  split
  · have hnew := newpath_isSome (p := c.qid.path) h.pathgen (hsize hl)
    obtain ⟨x, hx⟩ := Option.isSome_iff_exists.1 hnew
    rw [hx]
    rfl
  · rfl

theorem uqidalloc_isSome (h : UInv t R) (c : Chan δ) (mem : Bool) (hsize : t.size < 65535) :
    (t.uqidalloc c mem).isSome = true :=
  h.uqidalloc_isSome_of_alike c mem fun _ => lt_of_le_of_lt (length_filter_le ..) hsize

theorem uqidalloc_none (ha : t.uqidalloc c mem = some (t', none)) : t' = t ∧ mem = false := by
  unfold Uqidtab.uqidalloc at ha
  split at ha <;> try cases ha
  split at ha
  · split at ha <;> cases ha
  · next hmem =>
    cases ha
    exact ⟨rfl, by simpa using hmem⟩

theorem chains_nodup (h : UInv t R) : ((range Nqidhash).flatMap t.qids).Nodup := by
  refine nodup_flatMap.2 ⟨fun b _ => h.nodup b, ?_⟩
  refine nodup_range.imp fun {a b} hab u ha hb => ?_
  exact hab ((h.bucket a u ha).1.trans (h.bucket b u hb).1.symm)

theorem size_eq (h : UInv t R) (h' : UInv t' R) : t.size = t'.size := by
  have hmem : ∀ {t : Uqidtab}, UInv t R → ∀ u, u ∈ (range Nqidhash).flatMap t.qids ↔ 0 < R u := by
    intro t h u
    rw [← h.live_iff]
    refine ⟨fun hu => ?_, fun hu => hu.mem⟩
    obtain ⟨b, -, hu⟩ := mem_flatMap.1 hu
    exact h.live_of_mem hu
  exact ((perm_ext_iff_of_nodup h.chains_nodup h'.chains_nodup).2 fun u => (hmem h u).trans
    (hmem h' u).symm).length_eq

end UInv

/-! ### What a reply tells -/

/-- `q` is the qid of `c`, with the path of an entry for its file, or with a path that no entry has. -/
def Reports {δ : Type} (t : Uqidtab) (c : Chan δ) (q : Qid) : Prop :=
  q = { c.qid with path := q.path } ∧
    ((∃ v, t.Live v ∧ (t.node v).For c ∧ q.path = (t.node v).newpath) ∨
      (t.uqidlook c = none ∧ t.uqidexists q.path = false))

section
variable {δ : Type} {t₀ t t' : Uqidtab} {R : Nat → Nat} {u : Nat} {c : Chan δ} {mem : Bool}

theorem uqidlook_none (h₀ : UInv t₀ R) (h : UInv t R) (hf : Frame t₀ t) (hl : t.uqidlook c = none) :
    t₀.uqidlook c = none := by
  rw [uqidlook, find?_eq_none] at hl ⊢
  intro u hu hm
  have hpos := (h₀.live_iff u).1 (h₀.live_of_mem hu)
  have hlive := (h.live_iff u).2 hpos
  have hkey := hf.2 u (h₀.lt_fresh hpos)
  simp only [Uqid.key, Prod.mk.injEq] at hkey
  obtain ⟨htype, hdev, hold, -⟩ := hkey
  simp only [decide_eq_true_eq] at hm
  have hmem : u ∈ t.qids (uqidhash c.qid.path) := by
    have h := hlive
    rwa [Live, hold, hm.2.2] at h
  refine hl u hmem ?_
  simp only [decide_eq_true_eq, htype, hdev, hold]
  exact hm

theorem uqidexists_false (h₀ : UInv t₀ R) (h : UInv t R) (hf : Frame t₀ t) {p : UInt64} (hp : t.uqidexists p = false) :
    t₀.uqidexists p = false := by
  rw [Bool.eq_false_iff] at hp ⊢
  intro hex
  obtain ⟨u, hu, rfl⟩ := uqidexists_iff.1 hex
  obtain ⟨b, -, hu⟩ := mem_flatMap.1 hu
  have hpos := (h₀.live_iff u).1 (h₀.live_of_mem hu)
  have hkey := hf.2 u (h₀.lt_fresh hpos)
  simp only [Uqid.key, Prod.mk.injEq] at hkey
  exact hp (uqidexists_iff.2 ⟨u, ((h.live_iff u).2 hpos).mem, hkey.2.2.2⟩)

theorem reports_live (h₀ : UInv t₀ R) (hu : 0 < R u) (hf : Frame t₀ t) (hfor : (t.node u).For c) :
    Reports t₀ c (mkuqid c (t.node u)) := by
  have hkey := hf.2 u (h₀.lt_fresh hu)
  simp only [Uqid.key, Prod.mk.injEq] at hkey
  obtain ⟨htype, hdev, hold, hnew⟩ := hkey
  refine ⟨rfl, .inl ⟨u, (h₀.live_iff u).2 hu, ⟨?_, ?_, ?_⟩, hnew⟩⟩
  · rw [← htype]
    exact hfor.1
  · rw [← hdev]
    exact hfor.2.1
  · rw [← hold]
    exact hfor.2.2

theorem reports_alloc (h₀ : UInv t₀ R) (h : UInv t R) (hf : Frame t₀ t) (ha : t.uqidalloc c mem = some (t', some u)) :
    Reports t₀ c (mkuqid c (t'.node u)) := by
  obtain ⟨-, hframe, hfor⟩ := h.uqidalloc ha
  unfold Uqidtab.uqidalloc at ha
  split at ha
  · next v hl =>
    cases ha
    obtain ⟨hpos, -⟩ := h.uqidlook_some hl
    exact reports_live h₀ hpos (hf.trans hframe) hfor
  next hl =>
  split at ha <;> try cases ha
  split at ha <;> cases ha
  next pathgen path hnew =>
    obtain ⟨-, hno⟩ := newpath_spec h.pathgen hnew
    refine ⟨rfl, .inr ⟨uqidlook_none h₀ h hf hl, ?_⟩⟩
    simp only [mkuqid, update_self]
    exact uqidexists_false h₀ h hf hno

end

end Node9.Uqids
