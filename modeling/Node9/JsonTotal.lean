import Node9.JsonRound

/-!
# What `encode` refuses

The table graph is finite, so the recursion ends, whatever the graph (`Path.nested`). An error is raised if and only
if somewhere below the root there is a value that has no text, or a table that is below itself, or if the calls of
`encode_value` nest more deeply than there is room for on the stack: `encode_error_iff`.
-/

namespace Node9.Json
open Buf Rfc8259 Lua Relation List

/-! ### The pairs of a Lua table -/

def Key.eq : Key → Key → Bool
  | num a, num b => a.eq b
  | k, k' => k == k'

/-- The pairs that a table can have: no two of one key, and no `nil`. -/
structure Pairs (es : List (Key × Val)) : Prop where
  keys : es.Pairwise fun e e' => e.1.eq e'.1 = false
  values : ∀ e ∈ es, e.2 ≠ .nil

/-- The keys are the integers from 1 to their number. -/
def IsArray (es : List (Key × Val)) : Prop := ∃ us, es.Perm (indexed 0 us)

section Arrays
variable {es : List (Key × Val)} {e : Key × Val} {k : Number} {m count i : Nat}

theorem number_eq_comm (a b : Number) : a.eq b = b.eq a := by
  cases a <;> cases b <;> simp only [Number.eq]
  · rw [Bool.eq_iff_iff, beq_iff_eq, beq_iff_eq, eq_comm]
  · rw [Bool.eq_iff_iff, beq_iff_eq, beq_iff_eq, eq_comm]

theorem key_eq_comm (a b : Key) : a.eq b = b.eq a := by
  have hbeq : (a == b) = (b == a) := by rw [Bool.eq_iff_iff, beq_iff_eq, beq_iff_eq, eq_comm]
  cases a with
  | num x =>
    cases b with
    | num y => exact number_eq_comm x y
    | _ => exact hbeq
  | _ => cases b <;> exact hbeq

theorem index_cases (hw : k.whole = true) (hk : k.lt (.ofNat 1) = false) : k = .inf false ∨ ∃ i, 1 ≤ i ∧
    k = .ofNat i := by
  cases k with
  | nan => cases hw
  | inf neg =>
    cases neg with
    | true => cases hk
    | false => exact .inl rfl
  | fin neg x =>
    right
    have hx : x = ((x.num : Nat) : NNRat) := by
      have hden : x.den = 1 := by simpa [Number.whole] using hw
      conv_lhs => rw [← NNRat.num_div_den x, hden]
      simp
    have h1 : (1 : Rat) ≤ Number.signed neg x := by
      simpa [Number.lt, Number.ofNat, Number.signed] using hk
    cases neg with
    | true =>
      have h0 : (0 : Rat) ≤ x := x.2
      simp only [Number.signed, if_true] at h1
      linarith
    | false =>
      refine ⟨x.num, ?_, congrArg (Number.fin false) hx⟩
      rw [hx] at h1
      have : ((1 : Nat) : Rat) ≤ ((x.num : Nat) : Rat) := by simpa [Number.signed] using h1
      exact Nat.cast_le.1 this

theorem arrayLoop_inf (es : List (Key × Val)) (count : Nat) : arrayLoop es (.inf false) count = false := by
  induction es generalizing count with
  | nil => rfl
  | cons e es ih =>
    obtain ⟨k, x⟩ := e
    cases k with
    | num k =>
      have hlt : (Number.inf false).lt k = false := by cases k <;> rfl
      rw [arrayLoop, hlt]
      simp [ih]
    | _ => rfl

theorem arrayLoop_true (h : arrayLoop es (.ofNat m) count = true) :
    m ≤ count + es.length ∧ ∀ e ∈ es, ∃ i, 1 ≤ i ∧ i ≤ count + es.length ∧ e.1 = .num (.ofNat i) := by
  induction es generalizing m count with
  | nil =>
    rw [arrayLoop, eq_ofNat, beq_iff_eq] at h
    exact ⟨h.le, fun e he => absurd he not_mem_nil⟩
  | cons e es ih =>
    obtain ⟨k, x⟩ := e
    cases k with
    | num k =>
      rw [arrayLoop] at h
      by_cases hc : (!k.whole || k.lt (.ofNat 1)) = true
      · rw [if_pos hc] at h
        cases h
      rw [if_neg hc] at h
      simp only [Bool.or_eq_true, Bool.not_eq_true', not_or, Bool.not_eq_true, Bool.not_eq_false] at hc
      rcases index_cases hc.1 hc.2 with rfl | ⟨i, hi, rfl⟩
      · rw [show (Number.ofNat m).lt (.inf false) = true from rfl, if_pos rfl, arrayLoop_inf] at h
        cases h
      have hmax : (if (Number.ofNat m).lt (.ofNat i) then Number.ofNat i else Number.ofNat m) = .ofNat
        (max m i) := by
        rw [lt_ofNat]
        by_cases hlt : m < i
        · rw [max_eq_right hlt.le]
          simp [hlt]
        · rw [max_eq_left (Nat.not_lt.1 hlt)]
          simp [hlt]
      rw [hmax] at h
      obtain ⟨h1, h2⟩ := ih h
      rw [length_cons]
      refine ⟨by omega, fun e he => ?_⟩
      rcases mem_cons.1 he with rfl | he
      · exact ⟨i, hi, by omega, rfl⟩
      · obtain ⟨j, hj, hj', hej⟩ := h2 e he
        exact ⟨j, hj, by omega, hej⟩
    | _ => cases h

theorem Pairs.index (hes : Pairs es) (he : e ∈ es) (hi : e.1 = .num (.ofNat i)) : index es i = e.2 := by
  have hsymm : Std.Symm fun e e' : Key × Val => e.1.eq e'.1 = false := ⟨fun a b hab => (key_eq_comm b.1 a.1).trans hab⟩
  unfold Json.index
  split
  · rename_i e' he'
    by_contra hne
    have hdiff := hes.keys.forall he (mem_of_find?_eq_some he') fun h => hne (by rw [h])
    have heq := List.find?_some he'
    obtain ⟨k, x⟩ := e
    obtain ⟨k', x'⟩ := e'
    cases hi
    cases k' with
    | num k' =>
      dsimp only at heq
      rw [number_eq_comm] at heq
      exact absurd (hdiff.symm.trans heq) (by decide)
    | _ => cases heq
  · rename_i hnone
    have := List.find?_eq_none.1 hnone e he
    rw [hi] at this
    simp [eq_ofNat] at this

theorem is_array_iff (hes : Pairs es) : is_array es = true ↔ IsArray es := by
  constructor
  · intro h
    obtain ⟨-, hall⟩ := arrayLoop_true h
    refine ⟨(List.range es.length).map fun i => Json.index es (i + 1), ?_⟩
    have hnd : es.Nodup := hes.keys.imp_of_mem fun {a b} ha _ hab => by
      rintro rfl
      obtain ⟨i, -, -, hi⟩ := hall a ha
      rw [hi] at hab
      simp [Key.eq, eq_ofNat] at hab
    refine (hnd.subperm fun e he => ?_).perm_of_length_le ?_
    · obtain ⟨i, h1, h2, hi⟩ := hall e he
      rw [zero_add] at h2
      refine mem_indexed.2 ⟨i - 1, ?_, ?_⟩
      · rw [length_map, length_range]
        omega
      · rw [getElem_map, getElem_range, zero_add, Nat.sub_add_cancel h1, hes.index he hi, ← hi]
    · rw [length_indexed, length_map, length_range]
  · rintro ⟨us, hp⟩
    by_cases hus : us = []
    · subst hus
      cases perm_nil.1 hp
      exact rfl
    · exact is_array_of_perm hp hus

end Arrays

section Mapped
variable {ε α β : Type} {f : α → Except ε β} {l : List α}

theorem mapM_ok_iff : (∃ ys, l.mapM f = .ok ys) ↔ ∀ x ∈ l, ∃ y, f x = .ok y := by
  constructor
  · induction l with
    | nil => exact fun _ x hx => absurd hx not_mem_nil
    | cons x l ih =>
      rintro ⟨ys, h⟩
      rw [mapM_cons] at h
      cases hx : f x with
      | error e =>
        rw [hx] at h
        cases h
      | ok y =>
        rw [hx] at h
        cases hl : l.mapM f with
        | error e =>
          dsimp only [bind, Except.bind] at h
          rw [hl] at h
          cases h
        | ok zs =>
          intro z hz
          rcases mem_cons.1 hz with rfl | hz
          · exact ⟨y, hx⟩
          · exact ih ⟨zs, hl⟩ z hz
  · intro h
    obtain ⟨ys, hys, -⟩ := mapM_ok (g := id) (Q := fun _ _ => True) fun x hx => by
      obtain ⟨y, hy⟩ := h x hx
      exact ⟨y, hy, trivial⟩
    exact ⟨_, hys⟩

theorem mapM_error {e : ε} (h : l.mapM f = .error e) : ∃ x ∈ l, f x = .error e := by
  induction l with
  | nil => cases h
  | cons x l ih =>
    rw [mapM_cons] at h
    cases hx : f x with
    | error e' =>
      rw [hx] at h
      cases h
      exact ⟨x, mem_cons_self, hx⟩
    | ok y =>
      rw [hx] at h
      cases hl : l.mapM f with
      | error e' =>
        dsimp only [bind, Except.bind] at h
        rw [hl] at h
        cases h
        obtain ⟨z, hz, he⟩ := ih hl
        exact ⟨z, mem_cons_of_mem _ hz, he⟩
      | ok zs =>
        dsimp only [bind, Except.bind] at h
        rw [hl] at h
        cases h

end Mapped

section Table
variable {h : Heap} {indent : Option Bytes} {n level : Nat} {r : Ref} {seen : List Ref}

theorem bind_ok_iff {ε α β : Type} {x : Except ε α} {g : α → β} :
    (∃ y, (x >>= fun a => pure (g a)) = .ok y) ↔ ∃ a, x = .ok a := by
  cases x with
  | error e =>
    constructor
    · rintro ⟨y, hy⟩
      cases hy
    · rintro ⟨a, ha⟩
      cases ha
  | ok a => exact ⟨fun _ => ⟨a, rfl⟩, fun _ => ⟨g a, rfl⟩⟩

theorem bind_error {ε α β : Type} {x : Except ε α} {g : α → β} {e : ε} (h : (x >>= fun a => pure (g a)) = .error e) :
    x = .error e := by
  cases x with
  | error e' =>
    cases h
    rfl
  | ok a => cases h

theorem encode_seen (hr : r ∈ seen) : encode_value h indent (n + 1) (.table r) level seen = .error .circular := by
  rw [encode_value, if_pos (by simpa using hr)]

end Table

/-- What has no text. `bad` are the types that are refused. -/
inductive Unfit (h : Heap) (bad : Opaque → Prop) : Val → Prop
  | nan : Unfit h bad (.num .nan)
  | infinity (neg : Bool) : Unfit h bad (.num (.inf neg))
  | type {t : Opaque} : bad t → Unfit h bad (.opaque_ t)
  | key {r : Ref} {e : Key × Val} : ¬ IsArray (h.getD r []) → e ∈ h.getD r [] → (∀ k, e.1 ≠ .str k) →
      Unfit h bad (.table r)

/-- `u` is `v` or below it. -/
def Below (h : Heap) : Val → Val → Prop := ReflTransGen (Child h)

/-- `u` is below itself. -/
def Cyclic (h : Heap) (u : Val) : Prop := TransGen (Child h) u u

def Refused (h : Heap) (bad : Opaque → Prop) (v : Val) : Prop :=
  ∃ u, Below h u v ∧ (Unfit h bad u ∨ Cyclic h u)

def notNull (t : Opaque) : Prop := t ≠ .cdata true

/-- For `v`, with the tables `seen` above it, no more than `n` calls of `encode_value` are inside one another. -/
def Nested (h : Heap) : Nat → List Ref → Val → Prop
  | 0, _, _ => False
  | n + 1, seen, v => ∀ r, v = .table r → r ∉ seen → ∀ e ∈ h.getD r [], Nested h n (r :: seen) e.2

section Whole
variable {h : Heap} {indent : Option Bytes} {bad : Opaque → Prop} {n level : Nat} {r : Ref} {seen : List Ref}
    {u v : Val}

theorem table_ok_iff (hes : Pairs (h.getD r [])) (hr : r ∉ seen) :
    (∃ s, encode_value h indent (n + 1) (.table r) level seen = .ok s) ↔ ¬ Unfit h bad (.table r) ∧
      ∀ e ∈ h.getD r [], ∃ s, encode_value h indent n e.2 (level + 1) (r :: seen) = .ok s := by
  by_cases ha : IsArray (h.getD r [])
  · have hfit : ¬ Unfit h bad (.table r) := by
      rintro ⟨⟩
      contradiction
    obtain ⟨us, hp⟩ := ha
    have hmem : ∀ u, u ∈ us ↔ ∃ e ∈ h.getD r [], e.2 = u := by
      intro u
      constructor
      · intro hu
        obtain ⟨i, hi, rfl⟩ := mem_iff_getElem.1 hu
        exact ⟨_, hp.mem_iff.2 (mem_indexed.2 ⟨i, hi, rfl⟩), rfl⟩
      · rintro ⟨e, he, rfl⟩
        exact snd_mem_of_mem_indexed (hp.mem_iff.1 he)
    have hnil : Val.nil ∉ us := fun hu => by
      obtain ⟨e, he, h0⟩ := (hmem _).1 hu
      exact hes.values e he h0
    rw [encode_array hr hp hnil ((is_array_iff hes).2 ⟨us, hp⟩), bind_ok_iff, mapM_ok_iff]
    simp only [bind_ok_iff, hfit, not_false_eq_true, true_and]
    constructor
    · exact fun hus e he => hus e.2 ((hmem _).2 ⟨e, he, rfl⟩)
    · intro hes' u hu
      obtain ⟨e, he, rfl⟩ := (hmem u).1 hu
      exact hes' e he
  · have hfalse : is_array (h.getD r []) = false := by
      rw [← Bool.not_eq_true, is_array_iff hes]
      exact ha
    rw [encode_object hr hfalse, bind_ok_iff, mapM_ok_iff]
    have hmember : ∀ e : Key × Val,
        (∃ y, encodeMember (fun u => encode_value h indent n u (level + 1) (r :: seen)) indent level e = .ok y) ↔
          (∃ k, e.1 = .str k) ∧ ∃ s, encode_value h indent n e.2 (level + 1) (r :: seen) = .ok s := by
      intro e
      obtain ⟨k, x⟩ := e
      cases k with
      | str k =>
        refine bind_ok_iff.trans ?_
        simp
      | _ =>
        constructor
        · rintro ⟨y, hy⟩
          cases hy
        · rintro ⟨⟨k, hk⟩, -⟩
          cases hk
    simp only [hmember]
    constructor
    · intro hall
      refine ⟨?_, fun e he => (hall e he).2⟩
      intro hfit
      cases hfit with
      | @key _ e _ he hk =>
        obtain ⟨k, hke⟩ := (hall e he).1
        exact hk k hke
    · rintro ⟨hfit, hall⟩ e he
      refine ⟨?_, hall e he⟩
      by_contra hk
      exact hfit (.key ha he fun k hke => hk ⟨k, hke⟩)

theorem table_error {x : EncodeError} (hes : Pairs (h.getD r [])) (hr : r ∉ seen)
    (hx : encode_value h indent (n + 1) (.table r) level seen = .error x) :
    (∃ t, x = .key t) ∨ ∃ e ∈ h.getD r [], encode_value h indent n e.2 (level + 1) (r :: seen) = .error x := by
  by_cases ha : IsArray (h.getD r [])
  · have hi := (is_array_iff hes).2 ha
    obtain ⟨us, hp⟩ := ha
    have hmem : ∀ u ∈ us, ∃ e ∈ h.getD r [], e.2 = u := fun u hu => by
      obtain ⟨i, hi, rfl⟩ := mem_iff_getElem.1 hu
      exact ⟨_, hp.mem_iff.2 (mem_indexed.2 ⟨i, hi, rfl⟩), rfl⟩
    have hnil : Val.nil ∉ us := fun hu => by
      obtain ⟨e, he, h0⟩ := hmem _ hu
      exact hes.values e he h0
    rw [encode_array hr hp hnil hi] at hx
    obtain ⟨u, hu, hx⟩ := mapM_error (bind_error hx)
    obtain ⟨e, he, rfl⟩ := hmem u hu
    exact .inr ⟨e, he, bind_error hx⟩
  · have hfalse : is_array (h.getD r []) = false := by
      rw [← Bool.not_eq_true, is_array_iff hes]
      exact ha
    rw [encode_object hr hfalse] at hx
    obtain ⟨e, he, hx⟩ := mapM_error (bind_error hx)
    obtain ⟨k, y⟩ := e
    cases k with
    | str k => exact .inr ⟨_, he, bind_error hx⟩
    | _ =>
      cases hx
      exact .inl ⟨_, rfl⟩

theorem encode_number_ok (x : Number) : (∃ s, encode_number x = .ok s) ↔ ¬ Unfit h bad (.num x) := by
  cases x with
  | nan =>
    constructor
    · rintro ⟨s, hs⟩
      cases hs
    · exact fun hn => absurd .nan hn
  | inf neg =>
    constructor
    · rintro ⟨s, hs⟩
      cases hs
    · exact fun hn => absurd (.infinity neg) hn
  | fin neg x =>
    refine ⟨fun _ => by rintro ⟨⟩, fun _ => ?_⟩
    unfold encode_number
    dsimp only
    split_ifs
    · exact ⟨_, rfl⟩
    · exact ⟨_, rfl⟩

theorem below_leaf (hv : ∀ r, v ≠ .table r) (hu : Below h u v) : u = v := by
  rcases ReflTransGen.cases_tail hu with rfl | ⟨w, -, r, e, hr, -⟩
  · rfl
  · exact absurd hr (hv r)

theorem leaf_not_cyclic (hv : ∀ r, v ≠ .table r) : ¬ Cyclic h v := by
  intro hc
  obtain ⟨w, -, r, e, hr, -⟩ := TransGen.tail'_iff.1 hc
  exact hv r hr

theorem leaf_ok_iff (hv : ∀ r, v ≠ .table r) :
    (∃ s, encode_value h indent (n + 1) v level seen = .ok s) ↔ ¬ Refused h notNull v := by
  have hself : Refused h notNull v ↔ Unfit h notNull v := by
    constructor
    · rintro ⟨u, hu, hbad⟩
      rw [below_leaf hv hu] at hbad
      exact hbad.resolve_right (leaf_not_cyclic hv)
    · exact fun hbad => ⟨v, .refl, .inl hbad⟩
  rw [hself]
  cases v with
  | table r => exact absurd rfl (hv r)
  | nil => exact ⟨fun _ => by rintro ⟨⟩, fun _ => ⟨_, rfl⟩⟩
  | bool b => exact ⟨fun _ => by rintro ⟨⟩, fun _ => ⟨_, rfl⟩⟩
  | str s => exact ⟨fun _ => by rintro ⟨⟩, fun _ => ⟨_, rfl⟩⟩
  | num x => exact encode_number_ok x
  | opaque_ t =>
    have hstep : encode_value h indent (n + 1) (.opaque_ t) level seen =
      if t = .cdata true then .ok nullLit else .error (.type t.name) := rfl
    rw [hstep]
    split_ifs with ht
    · refine ⟨fun _ => ?_, fun _ => ⟨_, rfl⟩⟩
      rintro ⟨⟩
      rename_i hb
      exact hb ht
    · constructor
      · rintro ⟨s, hs⟩
        cases hs
      · exact fun hn => absurd (.type ht) hn

theorem Path.nested (hp : Path h n v seen) : Nested h n seen v := by
  induction n generalizing v seen with
  | zero =>
    obtain ⟨n', hn'⟩ := hp.turn
    cases hn'
  | succ n ih =>
    rintro r rfl hr e he
    exact ih (hp.step hr he)

theorem refused_table_iff : Refused h bad (.table r) ↔ Unfit h bad (.table r) ∨ ∃ e ∈ h.getD r [], Refused h bad e.2 := by
  -- below the table itself only its children are left
  have hlow : ∀ w, TransGen (Child h) w (.table r) → ∃ e ∈ h.getD r [], Below h w e.2 := by
    intro w hw
    obtain ⟨x, hx, r', e, hr', he, rfl⟩ := TransGen.tail'_iff.1 hw
    cases hr'
    exact ⟨e, he, hx⟩
  constructor
  · rintro ⟨u, hu, hbad⟩
    rcases reflTransGen_iff_eq_or_transGen.1 hu with rfl | hu
    · refine hbad.imp_right fun hcyc => ?_
      obtain ⟨e, he, hw⟩ := hlow _ hcyc
      exact ⟨e, he, _, hw, .inr hcyc⟩
    · obtain ⟨e, he, hw⟩ := hlow u hu
      exact .inr ⟨e, he, u, hw, hbad⟩
  · rintro (hbad | ⟨e, he, u, hu, hbad⟩)
    · exact ⟨_, .refl, .inl hbad⟩
    · exact ⟨u, hu.tail ⟨r, e, rfl, he, rfl⟩, hbad⟩

/-- With the tables above it in `seen`, a value is encoded if and only if the calls fit on the stack and nothing below it
is refused. -/
theorem encode_value_ok_iff (hh : ∀ r, Pairs (h.getD r [])) (habove : ∀ r ∈ seen, TransGen (Child h) v (.table r)) :
    (∃ s, encode_value h indent n v level seen = .ok s) ↔ Nested h n seen v ∧ ¬ Refused h notNull v := by
  induction n generalizing v level seen with
  | zero =>
    refine iff_of_false ?_ fun h => h.1
    rintro ⟨s, hs⟩
    cases hs
  | succ n ih =>
    by_cases hv : ∀ r, v ≠ .table r
    · rw [leaf_ok_iff hv]
      exact (and_iff_right fun r hr => absurd hr (hv r)).symm
    obtain ⟨r, hr⟩ := not_forall.1 hv
    obtain rfl := not_not.1 hr
    by_cases hseen : r ∈ seen
    · rw [encode_seen hseen]
      refine iff_of_false ?_ fun h => h.2 ⟨_, .refl, .inr (habove r hseen)⟩
      rintro ⟨s, hs⟩
      cases hs
    have hchild : ∀ e ∈ h.getD r [], (∃ s, encode_value h indent n e.2 (level + 1) (r :: seen) = .ok s) ↔
        Nested h n (r :: seen) e.2 ∧ ¬ Refused h notNull e.2 := fun e he => ih fun r' hr' => by
      have hbelow : Child h e.2 (.table r) := ⟨r, e, rfl, he, rfl⟩
      rcases mem_cons.1 hr' with rfl | hr'
      · exact .single hbelow
      · exact .head hbelow (habove r' hr')
    rw [@table_ok_iff _ _ notNull _ _ _ _ (hh r) hseen, refused_table_iff, not_or]
    constructor
    · rintro ⟨hfit, hes⟩
      refine ⟨?_, hfit, ?_⟩
      · rintro r' hr' - e he
        cases hr'
        exact ((hchild e he).1 (hes e he)).1
      · rintro ⟨e, he, hbad⟩
        exact ((hchild e he).1 (hes e he)).2 hbad
    · rintro ⟨hn, hfit, hes⟩
      exact ⟨hfit, fun e he => (hchild e he).2 ⟨hn r rfl hseen e he, fun hbad => hes ⟨e, he, hbad⟩⟩⟩

theorem encode_ne_fuel (hh : ∀ r, Pairs (h.getD r [])) (hn : Nested h n seen v) :
    encode_value h indent n v level seen ≠ .error .fuel := by
  induction n generalizing v level seen with
  | zero => exact hn.elim
  | succ n ih =>
    cases v with
    | table r =>
      by_cases hseen : r ∈ seen
      · rw [encode_seen hseen]
        exact fun hx => by cases hx
      · intro hx
        rcases table_error (hh r) hseen hx with ⟨t, ht⟩ | ⟨e, he, hx⟩
        · cases ht
        · exact ih (hn r rfl hseen e he) hx
    | num x =>
      change encode_number x ≠ _
      cases x with
      | fin neg x =>
        unfold encode_number
        dsimp only
        split_ifs <;> exact fun hx => by cases hx
      | _ => exact fun hx => by cases hx
    | opaque_ t =>
      change (if t = .cdata true then .ok nullLit else .error (.type t.name) : Except EncodeError Bytes) ≠ _
      split_ifs <;> exact fun hx => by cases hx
    | _ => exact fun hx => by cases hx

theorem error_iff_not_ok {ε α : Type} {x : Except ε α} : (∃ e, x = .error e) ↔ ¬ ∃ a, x = .ok a := by
  cases x with
  | error e =>
    refine ⟨fun _ => ?_, fun _ => ⟨e, rfl⟩⟩
    rintro ⟨a, ha⟩
    cases ha
  | ok a =>
    refine ⟨?_, fun hn => absurd ⟨a, rfl⟩ hn⟩
    rintro ⟨e, he⟩
    cases he

/-- `encode` (no `indent`) and `encode_pretty`, on a stack with room for `n` calls of `encode_value` inside one another:
an error is raised exactly when something below the value is refused or the calls nest more deeply, and only then is it
that of the stack. They never nest more deeply than there are tables. -/
theorem encode_error_iff (h : Heap) (hh : ∀ r, Pairs (h.getD r [])) (v : Val) :
    (∀ indent n, (∃ e, encode_value h indent n v 0 [] = .error e) ↔ Refused h notNull v ∨ ¬ Nested h n [] v) ∧
      (∀ indent n, encode_value h indent n v 0 [] = .error .fuel → ¬ Nested h n [] v) ∧
      Nested h (h.length + 1) [] v := by
  refine ⟨fun indent n => ?_, fun indent n hx hn => encode_ne_fuel hh hn hx, (Path.start h v).nested⟩
  rw [error_iff_not_ok, encode_value_ok_iff hh fun r hr => absurd hr not_mem_nil, not_and_or, not_not, or_comm]

theorem pairs_twoKeys (r : Ref) : Pairs (twoKeys.getD r []) := by
  rcases r with _ | _ | r
  · refine ⟨?_, ?_⟩
    · change List.Pairwise _ [_, _]
      simp [Key.eq]
    · intro e he
      rcases mem_pair.1 he with rfl | rfl <;> exact fun h => by cases h
  · refine ⟨?_, ?_⟩
    · change List.Pairwise _ [_, _]
      simp [Key.eq, eq_ofNat]
    · intro e he
      rcases mem_pair.1 he with rfl | rfl <;> exact fun h => by cases h
  · exact ⟨List.Pairwise.nil, fun e he => absurd he not_mem_nil⟩

theorem encode_error_iff_twoKeys :
    (∀ indent n, (∃ e, encode_value twoKeys indent n (.table 0) 0 [] = .error e) ↔
        Refused twoKeys notNull (.table 0) ∨ ¬ Nested twoKeys n [] (.table 0)) ∧
      (∀ indent n, encode_value twoKeys indent n (.table 0) 0 [] = .error .fuel → ¬ Nested twoKeys n [] (.table 0)) ∧
      Nested twoKeys (twoKeys.length + 1) [] (.table 0) :=
  encode_error_iff twoKeys pairs_twoKeys (.table 0)

/-- Each of `n` tables holds the next. -/
def chain (n : Nat) : Heap := (List.range n).map fun i => [(.str [], .table (i + 1))]

theorem getD_chain (n i : Nat) : (chain n).getD i [] = if i < n then [(.str [], .table (i + 1))] else [] := by
  unfold chain
  split_ifs with hi <;> simp [List.getD, hi]

theorem pairs_chain (n : Nat) : ∀ r, Pairs ((chain n).getD r []) := by
  intro r
  rw [getD_chain]
  split_ifs
  · exact ⟨List.pairwise_singleton .., by simp⟩
  · exact ⟨List.Pairwise.nil, by simp⟩

theorem child_chain {n i : Nat} (hu : Child (chain n) u (.table i)) : u = .table (i + 1) := by
  obtain ⟨r, e, hr, he, rfl⟩ := hu
  cases hr
  rw [getD_chain] at he
  split_ifs at he
  · rw [mem_singleton.1 he]
  · exact absurd he not_mem_nil

theorem below_chain {n i : Nat} (hu : TransGen (Child (chain n)) u (.table i)) : ∃ j, i < j ∧ u = .table j := by
  induction hu using TransGen.head_induction_on with
  | single hu => exact ⟨_, Nat.lt_succ_self _, child_chain hu⟩
  | head hu _ ih =>
    obtain ⟨j, hj, rfl⟩ := ih
    exact ⟨_, Nat.lt_succ_of_lt hj, child_chain hu⟩

theorem chain_not_refused (n : Nat) : ¬ Refused (chain n) notNull (.table 0) := by
  rintro ⟨u, hu, hbad⟩
  obtain ⟨j, rfl⟩ : ∃ j, u = .table j := by
    rcases reflTransGen_iff_eq_or_transGen.1 hu with rfl | hu
    · exact ⟨0, rfl⟩
    · obtain ⟨j, -, rfl⟩ := below_chain hu
      exact ⟨j, rfl⟩
  rcases hbad with hbad | hcyc
  · cases hbad with
    | @key _ e _ he hk =>
      rw [getD_chain] at he
      split_ifs at he
      · rw [mem_singleton.1 he] at hk
        exact hk [] rfl
      · exact absurd he not_mem_nil
  · obtain ⟨j', hj, heq⟩ := below_chain hcyc
    cases heq
    exact absurd hj (lt_irrefl _)

theorem not_nested_chain {n i : Nat} (hi : i + k ≤ n) (hseen : ∀ r ∈ seen, r < i) :
    ¬ Nested (chain n) k seen (.table i) := by
  induction k generalizing i seen with
  | zero => exact id
  | succ k ih =>
    intro hn
    have he : ((.str [], .table (i + 1)) : Key × Val) ∈ (chain n).getD i [] := by
      rw [getD_chain, if_pos (by omega)]
      exact mem_singleton_self _
    refine ih (by omega) (fun r hr => ?_) (hn i rfl (fun hi => absurd (hseen i hi) (lt_irrefl _)) _ he)
    rcases mem_cons.1 hr with rfl | hr
    · exact Nat.lt_succ_self _
    · exact Nat.lt_succ_of_lt (hseen r hr)

def standard (t : Opaque) : Prop := t = .function ∨ t = .userdata ∨ t = .thread

/-- A number of a C type is refused too, and on every stack a chain of tables that is too long. -/
theorem encode_cdata :
    (¬ ∀ (h : Heap), (∀ r, Pairs (h.getD r [])) → ∀ v : Val, (∃ e, encode h v = .error e) ↔ Refused h standard v) ∧
      ∀ indent n, ∃ h : Heap, (∀ r, Pairs (h.getD r [])) ∧ ¬ Refused h notNull (.table 0) ∧
        ∃ e, encode_value h indent n (.table 0) 0 [] = .error e := by
  refine ⟨fun hall => ?_, fun indent n => ⟨chain n, pairs_chain n, chain_not_refused n, ?_⟩⟩
  swap
  · rw [error_iff_not_ok, encode_value_ok_iff (pairs_chain n) fun r hr => absurd hr not_mem_nil]
    exact fun h => not_nested_chain (Nat.zero_add n).le (fun r hr => absurd hr not_mem_nil) h.1
  have hpairs : ∀ r, Pairs (([] : Heap).getD r []) := fun r =>
    ⟨by cases r <;> exact List.Pairwise.nil, fun e he => by cases r <;> cases he⟩
  have hleaf : ∀ r, Val.opaque_ (.cdata false) ≠ .table r := fun r hr => by cases hr
  obtain ⟨u, hu, hbad⟩ := (hall [] hpairs (.opaque_ (.cdata false))).1 ⟨_, rfl⟩
  obtain rfl := below_leaf hleaf hu
  rcases hbad with hbad | hcyc
  · cases hbad with
    | type ht => rcases ht with ht | ht | ht <;> cases ht
  · exact leaf_not_cyclic hleaf hcyc

end Whole

end Node9.Json
