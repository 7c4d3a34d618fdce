import Node9.Lib.Doubly
import Node9.Lib.Steps

/-!
# The fid table of an export (`exportfs.c`)

`fs->fid` is a hash table of doubly linked lists. The fid of a message is an unsigned 32-bit number and gets
to the table as an `ulong`; an entry keeps it as an `int`, and `f->fid == fid` compares the two as `ulong`s, so
that the `int` is sign-extended. A `Fid` is the number of its allocation. The loops go through at most as many
entries as were ever allocated, which is enough (`search_eq`).

A request gets hold of an entry with `Exmkfid` or `Exgetfid` and gives it back with `Exputfid`. In between, a
clunk, a remove or an attach that fails marks it as no longer attached, and the last request to give it back
then takes it out of the table.
-/

namespace Node9.FidTable
open Linked Steps Function
open List hiding Chain

def Nfidhash : Nat := 32

structure Fid where
  fid : Int32
  ref : Int
  attached : Bool
  chan : Option Nat
  qid : Option Nat

/-- `fs->fid[h]` and `f->next`. -/
inductive Cell
  | bucket (h : Nat)
  | next (f : Nat)
deriving DecidableEq

structure Tab where
  mem : Cell → Option Nat
  last : Nat → Cell
  node : Nat → Fid
  fresh : Nat

def hash (fid : UInt32) : Nat := fid.toNat % Nfidhash

/-- `f->fid == fid`, an `int` and an `ulong`. -/
def sameFid (i : Int32) (fid : UInt32) : Bool := i.toInt64.toUInt64 == fid.toUInt64

namespace Tab
variable (t : Tab)

def set (f : Nat) (n : Fid) : Tab := { t with node := update t.node f n }

/-- `for(f = fs->fid[h]; f != nil; f = f->next) if(f->fid == fid)`. -/
def search (fid : UInt32) : Nat → Cell → Option Nat
  | 0, _ => none
  | n + 1, c =>
    match t.mem c with
    | none => none
    | some f => if sameFid (t.node f).fid fid then some f else search fid n (.next f)

/-- `alloc`: whether `malloc` succeeds. -/
def Exmkfid (fid : UInt32) (alloc : Bool) : Tab × Option Nat :=
  if alloc then
    match t.search fid t.fresh (.bucket (hash fid)) with
    | some _ => (t, none)
    | none =>
      let nf := t.fresh
      let (mem, last) := pushFront .next (.bucket (hash fid)) nf t.mem t.last
      ({ mem, last, node := update t.node nf ⟨fid.toInt32, 1, true, none, none⟩, fresh := nf + 1 }, some nf)
  else (t, none)

def Exgetfid (fid : UInt32) : Tab × Option Nat :=
  match t.search fid t.fresh (.bucket (hash fid)) with
  | some f =>
    let n := t.node f
    if n.attached then (t.set f { n with ref := n.ref + 1 }, some f) else (t, none)
  | none => (t, none)

/-- With the `chan` that is closed and the `qid` that is freed, if the entry goes. -/
def Exputfid (f : Nat) : Tab × Option (Option Nat × Option Nat) :=
  let n : Fid := { t.node f with ref := (t.node f).ref - 1 }
  if n.ref = 0 ∧ n.attached = false then
    let (mem, last) := unlink .next f t.mem t.last
    ({ t with mem, last, node := update t.node f { n with chan := none } }, some (n.chan, n.qid))
  else (t.set f n, none)

/-- `f->attached = 0`. -/
def detach (f : Nat) : Tab := t.set f { t.node f with attached := false }

def entries : List Nat := (range Nfidhash).flatMap fun h => collect t.mem .next t.fresh (.bucket h)

end Tab

def Tab.empty : Tab := ⟨fun _ => none, fun _ => .bucket 0, fun _ => ⟨0, 0, false, none, none⟩, 0⟩

theorem sameFid_iff {y x : UInt32} : sameFid y.toInt32 x = true ↔ y = x ∧ x.toNat < 2 ^ 31 := by
  have hx := x.toNat_lt
  have hy := y.toNat_lt
  have hext : y.toInt32.toInt64.toUInt64.toNat = y.toNat + if 2 ^ 31 ≤ y.toNat then 2 ^ 64 - 2 ^ 32 else 0 := by
    change (y.toBitVec.signExtend 64).toNat = _
    rw [BitVec.toNat_signExtend, BitVec.toNat_setWidth, BitVec.msb_eq_decide]
    simp only [UInt32.toNat_toBitVec, decide_eq_true_eq]
    split <;> omega
  rw [sameFid, beq_iff_eq, ← UInt64.toNat_inj, ← UInt32.toNat_inj, hext, UInt32.toNat_toUInt64]
  split <;> omega

/-! ### The lists of the table -/

/-- The entries of the buckets are `es`, and each of them is in the bucket of its fid. -/
structure Table (t : Tab) (es : Nat → List Nat) : Prop where
  chain : ∀ h, DChain t.mem .next t.last (.bucket h) (es h)
  entry : ∀ h, ∀ f ∈ es h, f < t.fresh ∧ hash (t.node f).fid.toUInt32 = h

theorem table_empty : Table .empty fun _ => [] := ⟨fun _ => rfl, fun _ _ h => nomatch h⟩

theorem next_injective : Injective Cell.next := fun _ _ h => Cell.next.inj h

namespace Table
variable {t : Tab} {es : Nat → List Nat} {f g h : Nat} {fid : UInt32} {n : Fid}

theorem bucket_eq (ht : Table t es) (hf : f ∈ es h) {h' : Nat} (hf' : f ∈ es h') : h = h' :=
  (ht.entry h f hf).2.symm.trans (ht.entry h' f hf').2

theorem lt_hash (ht : Table t es) (hf : f ∈ es h) : h < Nfidhash := by
  rw [← (ht.entry h f hf).2]
  exact Nat.mod_lt _ (by decide)

theorem length_le (ht : Table t es) (h : Nat) : (es h).length ≤ t.fresh := by
  have hnd := (ht.chain h).chain.nodup
  have hsub : es h ⊆ range t.fresh := fun f hf => mem_range.2 (ht.entry h f hf).1
  simpa using (subperm_of_subset hnd hsub).length_le

theorem search_chain {c : Cell} {xs : List Nat} (hch : Chain t.mem .next c xs) {k : Nat} (hk : xs.length ≤ k) :
    t.search fid k c = xs.find? fun f => sameFid (t.node f).fid fid := by
  induction xs generalizing c k with
  | nil =>
    have hc : t.mem c = none := hch
    cases k <;> simp [Tab.search, hc]
  | cons f xs ih =>
    cases k with
    | zero => simp at hk
    | succ k =>
      obtain ⟨hf, hch⟩ := hch
      have hk' : xs.length ≤ k := by simpa using hk
      simp only [Tab.search, hf, find?_cons, ih hch hk']
      cases sameFid (t.node f).fid fid <;> rfl

section
variable (ht : Table t es)
include ht

theorem search_eq :
    t.search fid t.fresh (.bucket (hash fid)) = (es (hash fid)).find? fun f => sameFid (t.node f).fid fid :=
  search_chain (ht.chain _).chain (ht.length_le _)

theorem mem_entries : f ∈ t.entries ↔ ∃ h, f ∈ es h := by
  have hcollect : ∀ h, collect t.mem .next t.fresh (.bucket h) = es h := fun h =>
    (ht.chain h).chain.collect_eq (ht.length_le h)
  simp only [Tab.entries, hcollect, mem_flatMap, mem_range]
  constructor
  · rintro ⟨h, -, hf⟩
    exact ⟨h, hf⟩
  · rintro ⟨h, hf⟩
    exact ⟨h, ht.lt_hash hf, hf⟩

theorem set (hn : n.fid = (t.node f).fid) : Table (t.set f n) es := by
  refine ⟨ht.chain, fun h g hg => ⟨(ht.entry h g hg).1, ?_⟩⟩
  by_cases hgf : g = f
  · subst hgf
    simpa [Tab.set, hn] using (ht.entry h g hg).2
  · simpa [Tab.set, hgf] using (ht.entry h g hg).2

theorem push (hn : hash n.fid.toUInt32 = h) :
    Table ⟨(pushFront .next (.bucket h) t.fresh t.mem t.last).1, (pushFront .next (.bucket h) t.fresh t.mem t.last).2,
      update t.node t.fresh n, t.fresh + 1⟩ (update es h (t.fresh :: es h)) := by
  have hfresh : ∀ h', t.fresh ∉ es h' := fun h' hf => lt_irrefl _ (ht.entry h' _ hf).1
  refine ⟨fun h' => ?_, fun h' g hg => ?_⟩
  · by_cases hh : h' = h
    · subst hh
      rw [update_self]
      exact (ht.chain h').push next_injective (fun _ _ => by simp) (hfresh h') (by simp)
    · rw [update_of_ne hh]
      refine (ht.chain h).push_other next_injective (ht.chain h') (by simpa using hh) (by simp) (fun _ _ => by simp)
        (hfresh h') fun b hb hb' => hh (ht.bucket_eq hb' hb)
  by_cases hgf : g = t.fresh
  · subst hgf
    refine ⟨Nat.lt_succ_self _, ?_⟩
    by_cases hh : h' = h
    · simp [hn, hh]
    · rw [update_of_ne hh] at hg
      exact absurd hg (hfresh h')
  have hg' : g ∈ es h' := by
    by_cases hh : h' = h
    · subst hh
      rw [update_self] at hg
      exact (mem_cons.1 hg).resolve_left hgf
    · rwa [update_of_ne hh] at hg
  refine ⟨Nat.lt_succ_of_lt (ht.entry h' g hg').1, ?_⟩
  simpa [hgf] using (ht.entry h' g hg').2

theorem unlink (hf : f ∈ es h) (hn : n.fid = (t.node f).fid) :
    Table ⟨(Linked.unlink .next f t.mem t.last).1, (Linked.unlink .next f t.mem t.last).2,
      update t.node f n, t.fresh⟩ (update es h ((es h).erase f)) := by
  have ht' := ht.set hn
  refine ⟨fun h' => ?_, fun h' g hg => ?_⟩
  · by_cases hh : h' = h
    · subst hh
      rw [update_self]
      obtain ⟨us, vs, hsplit⟩ := append_of_mem hf
      have hch := ht.chain h'
      have hnd := hch.chain.nodup
      rw [hsplit] at hch hnd ⊢
      have hus : f ∉ us := fun hm => (nodup_append.1 hnd).2.2 f hm f (by simp) rfl
      rw [erase_append_right _ hus, erase_cons_head]
      exact hch.unlink_mem next_injective fun _ _ => by simp
    · rw [update_of_ne hh]
      exact (ht.chain h).unlink_other hf (ht.chain h') (by simpa using hh) (fun _ _ => by simp) (fun _ _ => by simp)
        next_injective fun b hb hb' => hh (ht.bucket_eq hb' hb)
  · have hg' : g ∈ es h' := by
      by_cases hh : h' = h
      · subst hh
        rw [update_self] at hg
        exact mem_of_mem_erase hg
      · rwa [update_of_ne hh] at hg
    exact ht'.entry h' g hg'

end

end Table

def Live (es : Nat → List Nat) (f : Nat) : Prop := ∃ h, f ∈ es h

theorem live_push (es : Nat → List Nat) (h f : Nat) :
    Live (update es h (f :: es h)) = fun g => g = f ∨ Live es g := by
  funext g
  refine propext ⟨?_, ?_⟩
  · rintro ⟨h', hg⟩
    by_cases hh : h' = h
    · subst hh
      rw [update_self] at hg
      exact (mem_cons.1 hg).imp id fun hg => ⟨h', hg⟩
    · rw [update_of_ne hh] at hg
      exact .inr ⟨h', hg⟩
  · rintro (rfl | ⟨h', hg⟩)
    · exact ⟨h, by simp⟩
    · by_cases hh : h' = h
      · subst hh
        exact ⟨h', by simp [hg]⟩
      · exact ⟨h', by simpa [hh] using hg⟩

theorem live_erase {t : Tab} {es : Nat → List Nat} (ht : Table t es) {h f : Nat} (hf : f ∈ es h) :
    Live (update es h ((es h).erase f)) = fun g => Live es g ∧ g ≠ f := by
  funext g
  refine propext ⟨?_, ?_⟩
  · rintro ⟨h', hg⟩
    by_cases hh : h' = h
    · subst hh
      rw [update_self, ((ht.chain h').chain.nodup).mem_erase_iff] at hg
      exact ⟨⟨h', hg.2⟩, hg.1⟩
    · rw [update_of_ne hh] at hg
      exact ⟨⟨h', hg⟩, fun hgf => hh (ht.bucket_eq hg (hgf ▸ hf))⟩
  rintro ⟨⟨h', hg⟩, hne⟩
  by_cases hh : h' = h
  · subst hh
    refine ⟨h', ?_⟩
    rw [update_self, ((ht.chain h').chain.nodup).mem_erase_iff]
    exact ⟨hne, hg⟩
  · exact ⟨h', by simpa [hh] using hg⟩

theorem field_update {α : Type} (g : Fid → α) (node : Nat → Fid) (f : Nat) (n : Fid) :
    (fun f' => g (update node f n f')) = update (fun f' => g (node f')) f (g n) := by
  funext f'
  by_cases hf : f' = f
  · subst hf
    simp
  · simp [hf]

theorem Exmkfid_none {t t' : Tab} {fid : UInt32} {alloc : Bool} (hmk : t.Exmkfid fid alloc = (t', none)) : t = t' := by
  unfold Tab.Exmkfid at hmk
  repeat' split at hmk
  all_goals cases hmk
  all_goals rfl

/-! ### Runs

The requests of a connection, in any interleaving, as far as they touch the table: each of them gets hold of
entries and gives them back. -/

structure St where
  tab : Tab
  /-- the entries that requests have got hold of, as often as they have -/
  held : List Nat
  /-- the fid that the entry was created for -/
  made : Nat → UInt32

def init : St := ⟨.empty, [], fun _ => 0⟩

inductive Op
  | mkfid (fid : UInt32) (alloc : Bool)
  | getfid (fid : UInt32)
  | detach (f : Nat)
  | putfid (f : Nat)

def step (s : St) : Op → Option St
  | .mkfid fid alloc =>
    match s.tab.Exmkfid fid alloc with
    | (t, some f) => some ⟨t, f :: s.held, update s.made f fid⟩
    | (t, none) => some { s with tab := t }
  | .getfid fid =>
    match s.tab.Exgetfid fid with
    | (t, some f) => some { s with tab := t, held := f :: s.held }
    | (t, none) => some { s with tab := t }
  | .detach f => if f ∈ s.held then some { s with tab := s.tab.detach f } else none
  | .putfid f => if f ∈ s.held then some { s with tab := (s.tab.Exputfid f).1, held := s.held.erase f } else none

/-- An entry is found under its fid until it is clunked or removed, its fid is refused as long as it is in the
table, and no two entries have the same fid. -/
structure Keyed (s : St) : Prop where
  found : ∀ f ∈ s.tab.entries, (s.tab.node f).attached = true → (s.tab.Exgetfid (s.made f)).2 = some f
  refused : ∀ f ∈ s.tab.entries, ∀ alloc, (s.tab.Exmkfid (s.made f) alloc).2 = none
  unique : ∀ f ∈ s.tab.entries, ∀ g ∈ s.tab.entries, s.made f = s.made g → f = g

/-- A fid that is created is not negative as an `int`. -/
def Positive (_ : St) : Op → Prop
  | .mkfid fid alloc => alloc = true → fid.toNat < 2 ^ 31
  | _ => True

structure Inv (s : St) (es : Nat → List Nat) : Prop where
  table : Table s.tab es
  /-- as many references as requests that hold the entry, which is in the table as long as there is one -/
  ref : ∀ h, ∀ f ∈ es h, (s.tab.node f).ref = s.held.count f
  held : ∀ f ∈ s.held, ∃ h, f ∈ es h
  fid : ∀ h, ∀ f ∈ es h, (s.tab.node f).fid = (s.made f).toInt32
  small : ∀ h, ∀ f ∈ es h, (s.made f).toNat < 2 ^ 31
  unique : ∀ h, ∀ f ∈ es h, ∀ g ∈ es h, s.made f = s.made g → f = g

theorem inv_init : Inv init fun _ => [] where
  table := table_empty
  ref _ _ h := nomatch h
  held _ h := nomatch h
  fid _ _ h := nomatch h
  small _ _ h := nomatch h
  unique _ _ h := nomatch h

namespace Inv
variable {s s' : St} {es : Nat → List Nat} {f h : Nat} {fid : UInt32} {n : Fid} {op : Op}

section
variable (hi : Inv s es)
include hi

theorem bucket (hf : f ∈ es h) : hash (s.made f) = h := by
  have hb := (hi.table.entry h f hf).2
  rwa [hi.fid h f hf, UInt32.toUInt32_toInt32] at hb

theorem find_iff :
    ((es (hash fid)).find? fun f => sameFid (s.tab.node f).fid fid) = some f ↔ f ∈ es (hash fid) ∧ s.made f = fid := by
  have hsame : ∀ g ∈ es (hash fid), (sameFid (s.tab.node g).fid fid = true ↔ s.made g = fid) := by
    intro g hg
    rw [hi.fid _ g hg, sameFid_iff]
    exact ⟨fun h => h.1, fun h => ⟨h, h ▸ hi.small _ g hg⟩⟩
  constructor
  · intro hf
    have hmem := mem_of_find?_eq_some hf
    exact ⟨hmem, (hsame f hmem).1 (find?_some (p := fun f => sameFid (s.tab.node f).fid fid) hf)⟩
  rintro ⟨hmem, hmade⟩
  have hsome : ((es (hash fid)).find? fun f => sameFid (s.tab.node f).fid fid).isSome = true :=
    find?_isSome.2 ⟨f, hmem, (hsame f hmem).2 hmade⟩
  obtain ⟨g, hg⟩ := Option.isSome_iff_exists.1 hsome
  have hgmem := mem_of_find?_eq_some hg
  have hgmade := (hsame g hgmem).1 (find?_some (p := fun f => sameFid (s.tab.node f).fid fid) hg)
  rw [hg, hi.unique _ g hgmem f hmem (hgmade.trans hmade.symm)]

theorem search_made (hf : f ∈ es h) :
    s.tab.search (s.made f) s.tab.fresh (.bucket (hash (s.made f))) = some f := by
  rw [hi.table.search_eq, hi.find_iff]
  exact ⟨(hi.bucket hf).symm ▸ hf, rfl⟩

theorem keyed : Keyed s := by
  refine ⟨fun f hf ha => ?_, fun f hf alloc => ?_, fun f hf g hg hfg => ?_⟩
  · obtain ⟨h, hf⟩ := hi.table.mem_entries.1 hf
    simp [Tab.Exgetfid, hi.search_made hf, ha]
  · obtain ⟨h, hf⟩ := hi.table.mem_entries.1 hf
    cases alloc <;> simp [Tab.Exmkfid, hi.search_made hf]
  · obtain ⟨h, hf⟩ := hi.table.mem_entries.1 hf
    obtain ⟨h', hg⟩ := hi.table.mem_entries.1 hg
    have hh : h = h' := by rw [← hi.bucket hf, ← hi.bucket hg, hfg]
    exact hi.unique h f hf g (hh ▸ hg) hfg

theorem set {held : List Nat} (hf : f ∈ es h) (hn : n.fid = (s.tab.node f).fid)
    (href : n.ref = held.count f) (hheld : ∀ g ∈ held, g = f ∨ g ∈ s.held)
    (hcount : ∀ g, g ≠ f → held.count g = s.held.count g) : Inv ⟨s.tab.set f n, held, s.made⟩ es := by
  refine ⟨hi.table.set hn, fun h' g hg => ?_, fun g hg => ?_, fun h' g hg => ?_, hi.small, hi.unique⟩
  · by_cases hgf : g = f
    · subst hgf
      simpa [Tab.set] using href
    · simp [Tab.set, hgf, hcount g hgf, hi.ref h' g hg]
  · rcases hheld g hg with rfl | hg
    · exact ⟨h, hf⟩
    · exact hi.held g hg
  · by_cases hgf : g = f
    · subst hgf
      simpa [Tab.set, hn] using hi.fid h' g hg
    · simpa [Tab.set, hgf] using hi.fid h' g hg

theorem mkfid (hx : fid.toNat < 2 ^ 31) (hnone : ∀ f ∈ es (hash fid), s.made f ≠ fid) :
    Inv ⟨⟨(pushFront .next (.bucket (hash fid)) s.tab.fresh s.tab.mem s.tab.last).1,
        (pushFront .next (.bucket (hash fid)) s.tab.fresh s.tab.mem s.tab.last).2,
        update s.tab.node s.tab.fresh ⟨fid.toInt32, 1, true, none, none⟩, s.tab.fresh + 1⟩,
      s.tab.fresh :: s.held, update s.made s.tab.fresh fid⟩
      (update es (hash fid) (s.tab.fresh :: es (hash fid))) := by
  have hold : ∀ h, ∀ f ∈ es h, f ≠ s.tab.fresh := fun h f hf => ne_of_lt (hi.table.entry h f hf).1
  have hnew : ∀ h f, f ∈ update es (hash fid) (s.tab.fresh :: es (hash fid)) h →
      f = s.tab.fresh ∨ f ∈ es h := by
    intro h f hf
    by_cases hh : h = hash fid
    · subst hh
      rw [update_self] at hf
      exact mem_cons.1 hf
    · rw [update_of_ne hh] at hf
      exact .inr hf
  have hheld : s.tab.fresh ∉ s.held := fun hm => by
    obtain ⟨h, hf⟩ := hi.held _ hm
    exact hold h _ hf rfl
  refine ⟨hi.table.push (by simp), fun h f hf => ?_, fun f hf => ?_, fun h f hf => ?_, fun h f hf => ?_,
    fun h f hf g hg hfg => ?_⟩
  · rcases hnew h f hf with rfl | hf
    · simp [count_eq_zero.2 hheld]
    · simp [hold h f hf, (hold h f hf).symm, hi.ref h f hf]
  · rcases mem_cons.1 hf with rfl | hf
    · exact ⟨hash fid, by simp⟩
    obtain ⟨h, hf⟩ := hi.held f hf
    refine ⟨h, ?_⟩
    by_cases hh : h = hash fid
    · subst hh
      simp [hf]
    · simpa [hh] using hf
  · rcases hnew h f hf with rfl | hf
    · simp
    · simp [hold h f hf, hi.fid h f hf]
  · rcases hnew h f hf with rfl | hf
    · simpa using hx
    · simpa [hold h f hf] using hi.small h f hf
  · -- no other entry of this bucket has the fid
    have hother : ∀ g ∈ es h, s.made g ≠ fid := fun g hg hmade =>
      hnone g (by rw [← hmade, hi.bucket hg]; exact hg) hmade
    rcases hnew h f hf with rfl | hf <;> rcases hnew h g hg with rfl | hg
    · rfl
    · simp only [update_self, update_of_ne (hold h g hg)] at hfg
      exact absurd hfg.symm (hother g hg)
    · simp only [update_self, update_of_ne (hold h f hf)] at hfg
      exact absurd hfg (hother f hf)
    · simp only [update_of_ne (hold h f hf), update_of_ne (hold h g hg)] at hfg
      exact hi.unique h f hf g hg hfg

theorem free (hf : f ∈ es h) (hn : n.fid = (s.tab.node f).fid) (hlast : (s.held.erase f).count f = 0) :
    Inv ⟨⟨(unlink .next f s.tab.mem s.tab.last).1, (unlink .next f s.tab.mem s.tab.last).2,
      update s.tab.node f n, s.tab.fresh⟩, s.held.erase f, s.made⟩
      (update es h ((es h).erase f)) := by
  have hmem : ∀ h' g, g ∈ update es h ((es h).erase f) h' ↔ g ∈ es h' ∧ g ≠ f := by
    intro h' g
    by_cases hh : h' = h
    · subst hh
      rw [update_self, ((hi.table.chain h').chain.nodup).mem_erase_iff, and_comm]
    · rw [update_of_ne hh]
      exact ⟨fun hg => ⟨hg, fun hgf => hh (hi.table.bucket_eq hg (hgf ▸ hf))⟩, fun hg => hg.1⟩
  refine ⟨hi.table.unlink hf hn, fun h' g hg => ?_, fun g hg => ?_, fun h' g hg => ?_, fun h' g hg => ?_,
    fun h' g hg g' hg' hgg => ?_⟩
  · obtain ⟨hg, hgf⟩ := (hmem h' g).1 hg
    simp [hgf, hi.ref h' g hg, count_erase_of_ne hgf]
  · have hgf : g ≠ f := by
      rintro rfl
      exact count_eq_zero.1 hlast hg
    obtain ⟨h', hg'⟩ := hi.held g (mem_of_mem_erase hg)
    exact ⟨h', (hmem h' g).2 ⟨hg', hgf⟩⟩
  · obtain ⟨hg, hgf⟩ := (hmem h' g).1 hg
    simp [hgf, hi.fid h' g hg]
  · exact hi.small h' g ((hmem h' g).1 hg).1
  · exact hi.unique h' g ((hmem h' g).1 hg).1 g' ((hmem h' g').1 hg').1 hgg

theorem step (hG : Positive s op) (hs : step s op = some s') : ∃ es', Inv s' es' := by
  cases op with
  | mkfid fid alloc =>
    simp only [FidTable.step, Tab.Exmkfid] at hs
    cases alloc with
    | false =>
      cases hs
      exact ⟨es, hi⟩
    | true =>
      simp only [if_true, hi.table.search_eq] at hs
      cases hfind : (es (hash fid)).find? fun f => sameFid (s.tab.node f).fid fid with
      | some f =>
        simp only [hfind] at hs
        cases hs
        exact ⟨es, hi⟩
      | none =>
        simp only [hfind] at hs
        cases hs
        refine ⟨_, hi.mkfid (hG rfl) fun f hf hmade => ?_⟩
        have hsome := hi.find_iff.2 ⟨hf, hmade⟩
        rw [hfind] at hsome
        cases hsome
  | getfid fid =>
    simp only [FidTable.step, Tab.Exgetfid, hi.table.search_eq] at hs
    cases hfind : (es (hash fid)).find? fun f => sameFid (s.tab.node f).fid fid with
    | none =>
      simp only [hfind] at hs
      cases hs
      exact ⟨es, hi⟩
    | some f =>
      have hf := mem_of_find?_eq_some hfind
      simp only [hfind] at hs
      cases ha : (s.tab.node f).attached <;> simp only [ha, if_true, Bool.false_eq_true, if_false] at hs <;> cases hs
      · exact ⟨es, hi⟩
      · refine ⟨es, hi.set hf rfl ?_ (fun g hg => by simpa using hg) fun g hg => ?_⟩
        · simp [hi.ref _ f hf]
        · simp [hg.symm]
  | detach f =>
    simp only [FidTable.step] at hs
    split at hs <;> cases hs
    next hmem =>
      obtain ⟨h, hf⟩ := hi.held f hmem
      exact ⟨es, hi.set hf rfl (hi.ref h f hf) (fun g hg => .inr hg) fun _ _ => rfl⟩
  | putfid f =>
    simp only [FidTable.step] at hs
    split at hs <;> cases hs
    next hmem =>
      obtain ⟨h, hf⟩ := hi.held f hmem
      have hpos : 0 < s.held.count f := count_pos_iff.2 hmem
      have hcount : (s.held.erase f).count f = s.held.count f - 1 := count_erase_self
      have href := hi.ref h f hf
      simp only [Tab.Exputfid]
      split
      · next hz => exact ⟨_, hi.free hf rfl (by omega)⟩
      · refine ⟨es, hi.set hf rfl ?_ (fun g hg => .inr (mem_of_mem_erase hg)) fun g hg =>
          count_erase_of_ne hg⟩
        simp only
        omega

end

end Inv

theorem not_keyed_of_large {s s' : St} {es : Nat → List Nat} {fid : UInt32} (hi : Inv s es) (hx : ¬ fid.toNat < 2 ^ 31)
    (hs : step s (.mkfid fid true) = some s') : ¬ Keyed s' := by
  have hsame : ∀ y : UInt32, sameFid y.toInt32 fid = false := fun y => by
    rw [Bool.eq_false_iff]
    exact fun h => hx (sameFid_iff.1 h).2
  have hnone : ∀ (t : Tab) (k : Nat) (c : Cell), (∀ f, ∃ y : UInt32, (t.node f).fid = y.toInt32) →
      t.search fid k c = none := by
    intro t k c hnode
    induction k generalizing c with
    | zero => rfl
    | succ k ih =>
      rw [Tab.search]
      split
      · rfl
      · next f _ =>
        obtain ⟨y, hy⟩ := hnode f
        rw [hy, hsame, if_neg (by simp)]
        exact ih _
  have hint : ∀ (t : Tab) (f : Nat), ∃ y : UInt32, (t.node f).fid = y.toInt32 := fun t f =>
    ⟨(t.node f).fid.toUInt32, by simp⟩
  simp only [step, Tab.Exmkfid, if_true, hnone _ _ _ (hint _)] at hs
  cases hs
  intro hk
  have htab := hi.table.push (n := ⟨fid.toInt32, 1, true, none, none⟩) (h := hash fid) (by simp)
  have hf := hk.found s.tab.fresh (htab.mem_entries.2 ⟨hash fid, by simp⟩) (by simp)
  simp [Tab.Exgetfid, hnone _ _ _ (hint _)] at hf

theorem keyed_iff_positive (ops : List Op) : Always step Keyed init ops ↔ Along step Positive init ops :=
  always_iff_along (I := fun s => ∃ es, Inv s es) (fun _ ⟨_, hi⟩ => hi.keyed) (fun _ _ _ ⟨_, hi⟩ hG hs => hi.step hG hs)
    (fun s op s' ⟨es, hi⟩ hG hs => by
      cases op with
      | mkfid fid alloc =>
        simp only [Positive, Classical.not_imp] at hG
        obtain ⟨rfl, hx⟩ := hG
        exact not_keyed_of_large hi hx hs
      | getfid _ | detach _ | putfid _ => exact absurd trivial hG) ⟨_, inv_init⟩

/-- An attach with the fid 2147483648: the entry is not found, and a second one can be made. -/
theorem not_keyed_high : ¬ ∀ ops, Always step Keyed init ops := by
  intro h
  have hrun : run step init [.mkfid 2147483648 true] = step init (.mkfid 2147483648 true) := rfl
  exact not_keyed_of_large inv_init (by decide) rfl ((h [.mkfid 2147483648 true]).last (hrun.trans rfl))

end Node9.FidTable
