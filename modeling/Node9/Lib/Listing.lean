import Mathlib

/-!
# Reading a list of records

A reader is asked for so many items, and gives as many of the records that are left, from the front, as go into that:
no record is cut. `Reading es n r left` says so of one read of up to `n` items, when `es` is left before it; a read into
which not even the first record goes fails and loses nothing. `Readings` is a sequence of reads.
-/

namespace Listing
open List

variable {α ε : Type}

/-- The records that go into `n`, and those that are left. -/
def fill : Nat → List (List α) → List (List α) × List (List α)
  | _, [] => ([], [])
  | n, e :: es => if n < e.length then ([], e :: es) else ((e :: (fill (n - e.length) es).1),
  (fill (n - e.length) es).2)

/-- `n` is not nothing, and not enough for the next record. -/
def Short (es : List (List α)) (n : Nat) : Prop := 0 < n ∧ ∃ e ∈ es.head?, n < e.length

instance Short.decidable (es : List (List α)) (n : Nat) : Decidable (Short es n) :=
  inferInstanceAs (Decidable (0 < n ∧ ∃ e ∈ es.head?, n < e.length))

structure Reading (es : List (List α)) (n : Nat) (r : Except ε (List α)) (left : List (List α)) : Prop where
  /-- what is given are whole records, from the front -/
  whole : ∀ d, r = .ok d → ∃ us, es = us ++ left ∧ d = us.flatten
  /-- nothing is given only if nothing is asked for or left -/
  nil : r = .ok [] → n = 0 ∨ es = []
  /-- a read fails just if it is too short, and loses nothing -/
  fails : (∃ err, r = .error err) ↔ Short es n
  keeps : Short es n → left = es

/-- The reads of `ns`, one after the other. -/
inductive Readings : List (List α) → List Nat → List (Except ε (List α)) → List (List α) → Prop
  | nil (es) : Readings es [] [] es
  | cons {es n r us ns rs left} : Reading es n r us → Readings us ns rs left → Readings es (n :: ns) (r :: rs) left

/-- What a sequence of reads has given. -/
def given : List (Except ε (List α)) → List α
  | [] => []
  | .ok d :: rs => d ++ given rs
  | .error _ :: rs => given rs

variable {es left us : List (List α)} {n : Nat} {ns : List Nat} {r : Except ε (List α)} {rs : List (Except ε (List α))}

theorem fill_zero (hes : ∀ e ∈ es, e ≠ []) : fill 0 es = ([], es) := by
  cases es with
  | nil => rfl
  | cons e es => exact if_pos (length_pos_iff.2 (hes e (mem_cons_self ..)))

theorem short_cons {e : List α} : Short (e :: es) n ↔ 0 < n ∧ n < e.length := by simp [Short]

theorem not_short_nil : ¬ Short ([] : List (List α)) n := by
  rintro ⟨-, e, he, -⟩
  cases he

theorem fill_append (n : Nat) (es : List (List α)) : (fill n es).1 ++ (fill n es).2 = es := by
  induction es generalizing n with
  | nil => rfl
  | cons e es ih =>
    rw [fill]
    split_ifs
    · rfl
    · rw [cons_append, ih]

theorem fill_length (n : Nat) (es : List (List α)) : (fill n es).1.flatten.length ≤ n := by
  induction es generalizing n with
  | nil => exact zero_le
  | cons e es ih =>
    rw [fill]
    split_ifs with hlt
    · exact zero_le
    · have hrest := ih (n - e.length)
      rw [flatten_cons, length_append]
      omega

theorem Reading.fill (hes : ∀ e ∈ es, e ≠ []) (hn : ¬ Short es n) :
    Reading es n (.ok (fill n es).1.flatten : Except ε (List α)) (Listing.fill n es).2 := by
  refine ⟨fun d hd => ⟨_, (fill_append n es).symm, (Except.ok.inj hd).symm⟩, fun h => ?_, ⟨?_, fun h => absurd h hn⟩,
    fun h => absurd h hn⟩
  · cases es with
    | nil => exact .inr rfl
    | cons e es =>
      refine .inl ?_
      by_contra hn0
      have hle : ¬ n < e.length := fun hlt => hn ⟨Nat.pos_of_ne_zero hn0, e, rfl, hlt⟩
      have hnil := Except.ok.inj h
      rw [Listing.fill, if_neg hle, flatten_cons] at hnil
      exact hes e (mem_cons_self ..) (append_eq_nil_iff.1 hnil).1
  · rintro ⟨err, h⟩
    cases h

theorem Reading.short (err : ε) (hn : Short es n) : Reading es n (.error err) es := by
  refine ⟨fun d h => ?_, fun h => ?_, ⟨fun _ => hn, fun _ => ⟨err, rfl⟩⟩, fun _ => rfl⟩
  · cases h
  · cases h

theorem Readings.given_append (h : Readings es ns rs left) : given rs ++ left.flatten = es.flatten := by
  induction h with
  | nil es => rfl
  | @cons es n r us ns rs left hr _ ih =>
    cases r with
    | ok d =>
      obtain ⟨vs, rfl, rfl⟩ := hr.whole d rfl
      rw [given, append_assoc, ih, flatten_append]
    | error err =>
      rw [given, ih, hr.keeps (hr.fails.1 ⟨err, rfl⟩)]

theorem Reading.length_lt (h : Reading es n r us) (hes : es ≠ []) (hn : 0 < n) (hshort : ¬ Short es n) :
    us.length < es.length := by
  cases r with
  | error err => exact absurd (h.fails.1 ⟨err, rfl⟩) hshort
  | ok d =>
    obtain ⟨vs, rfl, rfl⟩ := h.whole d rfl
    cases vs with
    | nil =>
      rcases h.nil rfl with h0 | h0
      · exact absurd h0 hn.ne'
      · exact absurd h0 hes
    | cons v vs =>
      rw [length_append, length_cons]
      omega

theorem Readings.left_length (h : Readings es ns rs left) (hns : ∀ n ∈ ns, 0 < n) (hok : ∀ r ∈ rs, ∃ d, r = .ok d) :
    left = [] ∨ left.length + ns.length ≤ es.length := by
  induction h with
  | nil es => exact .inr le_rfl
  | @cons es n r us ns rs left hr hrs ih =>
    obtain ⟨hn, hns⟩ := forall_mem_cons.1 hns
    obtain ⟨⟨d, hd⟩, hok'⟩ := forall_mem_cons.1 hok
    obtain ⟨vs, hvs, -⟩ := hr.whole d hd
    rcases ih hns hok' with hnil | hle
    · exact .inl hnil
    by_cases hes : es = []
    · rw [hes] at hvs
      obtain ⟨-, rfl⟩ := append_eq_nil_iff.1 hvs.symm
      rw [length_nil] at hle
      exact .inl (length_eq_zero_iff.1 (by omega))
    · have hlt := hr.length_lt hes hn fun hshort => by
        obtain ⟨err, herr⟩ := hr.fails.2 hshort
        cases hd.symm.trans herr
      rw [length_cons]
      exact .inr (by omega)

theorem Readings.all (h : Readings es ns rs left) (hns : ∀ n ∈ ns, 0 < n) (hok : ∀ r ∈ rs, ∃ d, r = .ok d)
    (hlen : es.length ≤ ns.length) : given rs = es.flatten := by
  have hleft : left = [] := by
    rcases h.left_length hns hok with hnil | hle
    · exact hnil
    · exact length_eq_zero_iff.1 (by omega)
  rw [← h.given_append, hleft, flatten_nil, append_nil]

end Listing
