import Node9.Lib.Steps

/-!
# Writers that share a channel (`rwrite` in `sysfile.c`)

A call runs by itself from one place where it locks the channel to the next: it takes its range, and `c->offset` goes on
behind it; the device writes, or raises an error; and what was not written is taken back from `c->offset`, wherever
this has come to meanwhile. `vlong` and `long` are words of 64 bits.
-/

namespace Node9.Rwrite
open Steps

abbrev Vlong := BitVec 64

/-- The arguments; `kwrite` has no `offp`. -/
structure Call where
  n : Vlong
  offp : Option Vlong

/-- How far a call has come: `off` is what it has taken, `m` what the device has returned; it returns -1 after an
error. -/
inductive Pc
  | start
  | write (off : Vlong)
  | short (off m : Vlong)
  | failed (off : Vlong)
  | ret (off : Option Vlong) (m : Option Vlong)

structure St (ι : Type) where
  offset : Vlong
  pc : ι → Pc

/-- `fdtochan` finds the channel or not, the device returns a count or raises an error. -/
inductive Action (ι : Type)
  | enter (i : ι) (found : Bool)
  | write (i : ι) (m : Option Vlong)
  | correct (i : ι)

variable {ι : Type} [DecidableEq ι]

def St.set (s : St ι) (i : ι) (pc : Pc) : St ι := { s with pc := Function.update s.pc i pc }

/-- `qtdir` for a directory. -/
def step (qtdir : Bool) (calls : ι → Call) (s : St ι) : Action ι → Option (St ι)
  | .enter i found =>
    match s.pc i with
    | .start =>
      if !found || qtdir || (calls i).n.slt 0 then some (s.set i (.ret none none))
      else
        match (calls i).offp with
        | none => some ({ s with offset := s.offset + (calls i).n }.set i (.write s.offset))
        | some off => some (s.set i (.write off))
    | _ => none
  | .write i m =>
    match s.pc i with
    | .write off =>
      -- Enegoff is raised where an error of the device is
      match if off.slt 0 then none else m with
      | none => some (s.set i (if (calls i).offp.isNone then .failed off else .ret off none))
      | some m => some (s.set i (if (calls i).offp.isNone && m.slt (calls i).n then .short off m else .ret off m))
    | _ => none
  | .correct i =>
    match s.pc i with
    | .short off m => some ({ s with offset := s.offset - ((calls i).n - m) }.set i (.ret off m))
    | .failed off => some ({ s with offset := s.offset - (calls i).n }.set i (.ret off none))
    | _ => none

def init (offset : Vlong) : St ι := ⟨offset, fun _ => .start⟩

def kwrite (n : Vlong) : Call := ⟨n, none⟩

/-- What the device returns is a count of what it was asked to write. -/
def Honest (calls : ι → Call) (_ : St ι) : Action ι → Prop
  | .write i (some m) => (0 : Vlong).sle m ∧ m.sle (calls i).n
  | _ => True

def Pc.returned : Pc → Prop
  | .ret _ _ => True
  | _ => False

/-- The count that a call has returned, and 0 for -1. -/
def Pc.count : Pc → Vlong
  | .ret _ m => m.getD 0
  | _ => 0

/-- What a call for `n` bytes has added to the offset, and not taken back. -/
def Pc.taken (n : Vlong) : Pc → Vlong
  | .start => 0
  | .ret _ m => m.getD 0
  | _ => n

/-- Where the range begins that a call was given. -/
def Pc.off : Pc → Option Vlong
  | .start => none
  | .write off | .short off _ | .failed off => off
  | .ret off _ => off

/-- The bytes that a call for `n` bytes was given. -/
def Pc.range (n : Vlong) (pc : Pc) : Set Int :=
  pc.off.elim ∅ fun off => Set.Ico off.toInt (off.toInt + n.toInt)

/-- Neither short nor failing, unless it was refused before it was given a range. -/
def Pc.whole (n : Vlong) (pc : Pc) : Prop := ∀ off m, pc = .ret (some off) m → m = some n

variable {qtdir : Bool} {n : ι → Vlong} {s s' : St ι} {i j : ι} {a : Action ι} {pc pc' : Pc} {o o' : Vlong}

/-- What a call of `kwrite` for `n` bytes does when it is its turn, and what becomes of the offset `o`. -/
inductive Moves (n : Vlong) (o : Vlong) : Pc → Pc → Vlong → Prop
  | refuse : Moves n o .start (.ret none none) o
  | take : ¬ n.slt 0 → Moves n o .start (.write o) (o + n)
  | done {off} : ¬ off.slt 0 → Moves n o (.write off) (.ret (some off) (some n)) o
  | short {off m} : ¬ off.slt 0 → m.slt n → Moves n o (.write off) (.short off m) o
  | fail {off} : Moves n o (.write off) (.failed off) o
  | giveBack {off m} : Moves n o (.short off m) (.ret (some off) (some m)) (o - (n - m))
  | raise {off} : Moves n o (.failed off) (.ret (some off) none) (o - n)

theorem step_cases (hh : Honest (fun i => kwrite (n i)) s a) (h : step qtdir (fun i => kwrite (n i)) s a = some s') :
    ∃ i pc o, Moves (n i) s.offset (s.pc i) pc o ∧ s' = { s with offset := o }.set i pc := by
  cases a with
  | enter i found =>
    rw [step] at h
    split at h
    case h_2 => cases h
    case h_1 hpc =>
      refine ⟨i, ?_⟩
      rw [hpc]
      split at h
      · cases h
        exact ⟨_, _, .refuse, rfl⟩
      rename_i hneg
      cases h
      refine ⟨_, _, .take ?_, rfl⟩
      intro hlt
      simp only [kwrite, Bool.or_eq_true, not_or] at hneg
      exact hneg.2 hlt
  | write i m =>
    rw [step] at h
    split at h
    case h_2 => cases h
    case h_1 off hpc =>
      refine ⟨i, ?_⟩
      rw [hpc]
      split at h
      · cases h
        exact ⟨_, _, .fail, rfl⟩
      rename_i m' hm
      cases h
      obtain ⟨hoff, rfl⟩ : ¬ off.slt 0 ∧ m = some m' := by
        split at hm
        · cases hm
        · exact ⟨‹_›, hm⟩
      by_cases hlt : m'.slt (n i) = true
      · refine ⟨_, _, .short hoff hlt, ?_⟩
        simp [kwrite, hlt]
      have hmn : m' = n i := by
        have hle : m'.sle (n i) = true := hh.2
        simp only [BitVec.sle, BitVec.slt, decide_eq_true_eq] at hle hlt
        exact BitVec.eq_of_toInt_eq (by omega)
      subst hmn
      refine ⟨_, _, .done hoff, ?_⟩
      simp [kwrite, hlt]
  | correct i =>
    rw [step] at h
    split at h
    case h_3 => cases h
    all_goals
      rename_i hpc
      refine ⟨i, ?_⟩
      rw [hpc]
      cases h
    · exact ⟨_, _, .giveBack, rfl⟩
    · exact ⟨_, _, .raise, rfl⟩

@[simp] theorem set_offset : (s.set i pc).offset = s.offset := rfl

@[simp] theorem set_pc : (s.set i pc).pc i = pc := Function.update_self ..

theorem set_pc_of_ne (h : j ≠ i) : (s.set i pc).pc j = s.pc j := Function.update_of_ne h ..

theorem Moves.offset_eq {n : Vlong} (h : Moves n o pc pc' o') : o' = o - pc.taken n + pc'.taken n := by
  cases h <;> simp [Pc.taken]
  ring

variable [Fintype ι]

theorem sum_taken_set :
    ∑ j, ((s.set i pc).pc j).taken (n j) = ∑ j, (s.pc j).taken (n j) - (s.pc i).taken (n i) + pc.taken (n i) := by
  have hrest : ∑ j ∈ Finset.univ.erase i, ((s.set i pc).pc j).taken (n j) =
      ∑ j ∈ Finset.univ.erase i, (s.pc j).taken (n j) := by
    refine Finset.sum_congr rfl fun j hj => ?_
    rw [set_pc_of_ne (Finset.ne_of_mem_erase hj)]
  rw [← Finset.sum_erase_add _ _ (Finset.mem_univ i), hrest, set_pc, Finset.sum_erase_eq_sub (Finset.mem_univ i)]

/-- The offset is what it was at first and what the calls have taken. -/
def Summed (n : ι → Vlong) (o : Vlong) (s : St ι) : Prop := s.offset = o + ∑ i, (s.pc i).taken (n i)

theorem Moves.summed (h : Moves (n i) s.offset (s.pc i) pc o') (hs : Summed n o s) :
    Summed n o ({ s with offset := o' }.set i pc) := by
  rw [Summed, sum_taken_set, set_offset, h.offset_eq, hs]
  ring

omit [DecidableEq ι] in
theorem summed_init : Summed n o (init o) := by
  simp [Summed, init, Pc.taken]

omit [Fintype ι]

/-- What a call knows of its range and of the count. -/
def Pc.Valid (n : Vlong) : Pc → Prop
  | .write _ => ¬ n.slt 0
  | .short off m => m.slt n ∧ ¬ off.slt 0 ∧ ¬ n.slt 0
  | .ret (some off) (some _) => ¬ off.slt 0 ∧ ¬ n.slt 0
  | _ => True

/-- Nothing is wrong, or must go wrong. -/
def Pc.Clean (n : Vlong) : Pc → Prop
  | .write off => ¬ off.slt 0
  | .short _ _ | .failed _ => False
  | .ret (some _) m => m = some n
  | _ => True

theorem Moves.valid {n : Vlong} (h : Moves n o pc pc' o') (hv : pc.Valid n) : pc'.Valid n := by
  cases h with
  | refuse => trivial
  | take hn => exact hn
  | done hoff => exact ⟨hoff, hv⟩
  | short hoff hlt => exact ⟨hlt, hoff, hv⟩
  | fail => trivial
  | giveBack => exact hv.2
  | raise => trivial

theorem Moves.clean {n : Vlong} (h : Moves n o pc pc' o') (hv : pc.Valid n) (hc : pc'.Clean n) :
    pc.Clean n ∧ ((o' = o ∧ pc'.off = pc.off) ∨
      (pc.off = none ∧ pc'.off = some o ∧ ¬ o.slt 0 ∧ ¬ n.slt 0 ∧ o' = o + n)) := by
  cases h with
  | refuse => exact ⟨trivial, .inl ⟨rfl, rfl⟩⟩
  | take hn => exact ⟨trivial, .inr ⟨rfl, rfl, hc, hn, rfl⟩⟩
  | done hoff => exact ⟨hoff, .inl ⟨rfl, rfl⟩⟩
  | short => exact hc.elim
  | fail => exact hc.elim
  | giveBack =>
    cases hc
    exact absurd hv.1 (by simp [BitVec.slt])
  | raise => cases hc

/-- The ranges that were given lie below the offset, one behind the other in some order. -/
structure Laid (n : ι → Vlong) (s : St ι) : Prop where
  below : ∀ i o, (s.pc i).off = some o → o.toNat + (n i).toNat ≤ s.offset.toNat
  apart : ∀ i j, i ≠ j → ∀ o o', (s.pc i).off = some o → (s.pc j).off = some o' →
    o.toNat + (n i).toNat ≤ o'.toNat ∨ o'.toNat + (n j).toNat ≤ o.toNat

theorem lt_of_nonneg {x : Vlong} (h : ¬ x.slt 0) : x.toNat < 2 ^ 63 := by
  simp only [BitVec.slt, BitVec.toInt_eq_toNat_cond, decide_eq_true_eq] at h
  have := x.isLt
  grind -linarith

theorem toInt_of_nonneg {x : Vlong} (h : ¬ x.slt 0) : x.toInt = x.toNat :=
  BitVec.toInt_eq_toNat_of_lt (by have := lt_of_nonneg h; omega)

theorem toNat_add_of_nonneg {o n : Vlong} (ho : ¬ o.slt 0) (hn : ¬ n.slt 0) : (o + n).toNat = o.toNat + n.toNat := by
  have ho := lt_of_nonneg ho
  have hn := lt_of_nonneg hn
  rw [BitVec.toNat_add, Nat.mod_eq_of_lt (by omega)]

theorem Laid.take (h : Laid n s) (hpc : (s.pc i).off = none) (hoff : pc.off = some s.offset) (ho : ¬ s.offset.slt 0)
    (hn : ¬ (n i).slt 0) : Laid n ({ s with offset := s.offset + n i }.set i pc) := by
  have hadd := toNat_add_of_nonneg ho hn
  refine ⟨fun j o hj => ?_, fun j k hjk o o' hj hk => ?_⟩
  · rw [set_offset, hadd]
    by_cases hji : j = i
    · subst hji
      rw [set_pc, hoff] at hj
      cases hj
      exact le_rfl
    · rw [set_pc_of_ne hji] at hj
      exact (h.below j o hj).trans (Nat.le_add_right ..)
  by_cases hji : j = i
  · subst hji
    rw [set_pc, hoff] at hj
    rw [set_pc_of_ne hjk.symm] at hk
    cases hj
    exact .inr (h.below k o' hk)
  rw [set_pc_of_ne hji] at hj
  by_cases hki : k = i
  · subst hki
    rw [set_pc, hoff] at hk
    cases hk
    exact .inl (h.below j o hj)
  · rw [set_pc_of_ne hki] at hk
    exact h.apart j k hjk o o' hj hk

theorem Laid.keep (h : Laid n s) (hoff : pc.off = (s.pc i).off) : Laid n (s.set i pc) := by
  have heq (j : ι) : ((s.set i pc).pc j).off = (s.pc j).off := by
    by_cases hji : j = i
    · subst hji
      rw [set_pc, hoff]
    · rw [set_pc_of_ne hji]
  refine ⟨fun j o hj => ?_, fun j k hjk o o' hj hk => ?_⟩
  · rw [heq] at hj
    exact h.below j o hj
  · rw [heq] at hj hk
    exact h.apart j k hjk o o' hj hk

variable {calls : ι → Call}

/-- What holds in every state of a run from the offset `o`. -/
structure Inv [Fintype ι] (n : ι → Vlong) (o : Vlong) (s : St ι) : Prop where
  summed : Summed n o s
  valid : ∀ i, (s.pc i).Valid (n i)
  laid : (∀ i, (s.pc i).Clean (n i)) → Laid n s

omit [DecidableEq ι] in
theorem inv_init [Fintype ι] : Inv n o (init o) :=
  ⟨summed_init, fun _ => trivial, fun _ => ⟨by rintro i o ⟨⟩, by rintro i j hij o o' ⟨⟩⟩⟩

theorem Moves.laid (h : Moves (n i) s.offset (s.pc i) pc o) (hv : (s.pc i).Valid (n i))
    (hlaid : (∀ i, (s.pc i).Clean (n i)) → Laid n s)
    (hclean : ∀ j, (({ s with offset := o }.set i pc).pc j).Clean (n j)) :
    Laid n ({ s with offset := o }.set i pc) := by
  have hi := hclean i
  rw [set_pc] at hi
  obtain ⟨hold, hcase⟩ := h.clean hv hi
  have hs := hlaid fun j => by
    by_cases hji : j = i
    · exact hji ▸ hold
    · have hj := hclean j
      rwa [set_pc_of_ne hji] at hj
  rcases hcase with ⟨rfl, hoff⟩ | ⟨hnone, hoff, hneg, hn, rfl⟩
  · exact hs.keep hoff
  · exact hs.take hnone hoff hneg hn

theorem Inv.step [Fintype ι] (hs : Inv n o s) (hh : Honest (fun i => kwrite (n i)) s a)
    (h : step qtdir (fun i => kwrite (n i)) s a = some s') : Inv n o s' := by
  obtain ⟨i, pc, o', hm, rfl⟩ := step_cases hh h
  refine ⟨hm.summed hs.summed, fun j => ?_, hm.laid (hs.valid i) hs.laid⟩
  by_cases hji : j = i
  · subst hji
    rw [set_pc]
    exact hm.valid (hs.valid j)
  · rw [set_pc_of_ne hji]
    exact hs.valid j

theorem Pc.returned.taken_eq {n : Vlong} (h : pc.returned) : pc.taken n = pc.count := by
  cases pc with
  | ret off m => rfl
  | _ => exact h.elim

theorem Pc.returned.clean {n : Vlong} (h : pc.returned) (hw : pc.whole n) : pc.Clean n := by
  cases pc with
  | ret off m =>
    cases off with
    | none => trivial
    | some off => exact hw off m rfl
  | _ => exact h.elim

theorem Pc.returned.valid_off {n : Vlong} (h : pc.returned) (hw : pc.whole n) (hv : pc.Valid n)
    (hoff : pc.off = some o) :
    ¬ o.slt 0 ∧ ¬ n.slt 0 := by
  cases pc with
  | ret off m =>
    cases hoff
    obtain rfl := hw o m rfl
    exact hv
  | _ => exact h.elim

omit [DecidableEq ι] in
theorem Laid.disjoint (h : Laid n s) (hoff : ∀ i o, (s.pc i).off = some o → ¬ o.slt 0 ∧ ¬ (n i).slt 0) (hij : i ≠ j) :
    Disjoint ((s.pc i).range (n i)) ((s.pc j).range (n j)) := by
  rw [Set.disjoint_left]
  intro x hi hj
  cases ho : (s.pc i).off with
  | none => simp [Pc.range, ho] at hi
  | some o =>
    cases ho' : (s.pc j).off with
    | none => simp [Pc.range, ho'] at hj
    | some o' =>
      obtain ⟨hneg, hn⟩ := hoff i o ho
      obtain ⟨hneg', hn'⟩ := hoff j o' ho'
      simp only [Pc.range, ho, ho', Option.elim_some, Set.mem_Ico] at hi hj
      have heq := toInt_of_nonneg hneg
      have heq' := toInt_of_nonneg hneg'
      have hlen := toInt_of_nonneg hn
      have hlen' := toInt_of_nonneg hn'
      rcases h.apart i j hij o o' ho ho' with hle | hle <;> omega

/-- When all of the calls have returned, the offset has gone on by what they have returned, and if none was short or
failing they have written to different bytes. -/
theorem kwrite_returned [Fintype ι] (qtdir : Bool) (n : ι → Vlong) (o : Vlong) (as : List (Action ι)) (s : St ι)
    (hh : Along (step qtdir fun i => kwrite (n i)) (Honest fun i => kwrite (n i)) (init o) as)
    (hrun : run (step qtdir fun i => kwrite (n i)) (init o) as = some s) (hret : ∀ i, (s.pc i).returned) :
    s.offset = o + ∑ i, (s.pc i).count ∧ ((∀ i, (s.pc i).whole (n i)) →
      ∀ i j, i ≠ j → Disjoint ((s.pc i).range (n i)) ((s.pc j).range (n j))) := by
  have hs : Inv n o s := (hh.always (I := Inv n o) (fun s a s' hI hG => hI.step hG) inv_init).last hrun
  refine ⟨?_, fun hw i j hij => ?_⟩
  · rw [hs.summed, Finset.sum_congr rfl fun i _ => (hret i).taken_eq]
  · exact (hs.laid fun i => (hret i).clean (hw i)).disjoint
      (fun i o ho => (hret i).valid_off (hw i) (hs.valid i) ho) hij

/-- Two writers of three and of five bytes; the second has written less than it took. -/
def twoWriters : List (Action Bool) :=
  [.enter false true, .enter true true, .write true (some 4), .write false (some 3), .correct true]

theorem kwrite_returned_twoWriters : ∃ s : St Bool,
    run (step false fun i => kwrite (if i then 5 else 3)) (init 10) twoWriters = some s ∧
      (s.offset = 10 + ∑ i, (s.pc i).count ∧ ((∀ i, (s.pc i).whole (if i then 5 else 3)) →
        ∀ i j, i ≠ j → Disjoint ((s.pc i).range (if i then 5 else 3)) ((s.pc j).range (if j then 5 else 3)))) := by
  refine ⟨_, rfl, kwrite_returned false (fun i => if i then 5 else 3) 10 twoWriters _ ?_ rfl ?_⟩
  · exact .cons trivial rfl (.cons trivial rfl
      (.cons ⟨by decide, by decide⟩ rfl (.cons ⟨by decide, by decide⟩ rfl (.cons trivial rfl trivial))))
  · rintro (_ | _) <;> trivial

end Node9.Rwrite
