import Node9.Ifmt

/-!
# Bounded printing

`dofmt` follows the characters and conversions of the format (`dofmt_eq`). In the buffer of `vsmprint` there is always
room, and what is in that of `vsnprint` is as much of the same characters as fits: `bounded_iff`.
-/

namespace Node9.Dofmt
open Buf Rune Fmt List Option

/-! ### The items of a format -/

inductive Item
  | text (u : Bytes)
  | conv (c : Conv) (a : Arg)

/-- What `dofmt` goes through, and whether the format does not end inside a verb. -/
def parse : Nat → Args → Bytes → List Item × Bool
  | 0, _, _ => ([], true)
  | _ + 1, _, [] => ([], true)
  | fuel + 1, args, b :: fmt =>
    if b = 0 then ([], true)
    else if b = 37 then
      match dispatch fmt.length {} args fmt with
      | none => ([], false)
      | some (c, args, rest) =>
        let x := parse fuel (if takes c.r then args.next else args) rest
        (.conv c (args 0) :: x.1, x.2)
    else if b.toNat < Runeself then
      let x := parse fuel args fmt
      (.text [b] :: x.1, x.2)
    else
      let n := (chartorune (b :: fmt)).2
      let x := parse fuel args ((b :: fmt).drop n)
      (.text ((b :: fmt).take n) :: x.1, x.2)

def items (fmt : Bytes) (args : Args) : List Item := (parse fmt.length args fmt).1

def complete (fmt : Bytes) (args : Args) : Bool := (parse fmt.length args fmt).2

def Item.print (err : CString) : Item → Out → Res
  | text u => emit u
  | conv c a => verb err c a

def prints (err : CString) : List Item → Out → Res
  | [], o => .done o
  | i :: is, o => (i.print err o).andThen (prints err is)

section Follow
variable {err : CString} {o : Out}

theorem dofmt_eq (fuel : Nat) (args : Args) (fmt : Bytes) (o : Out) : dofmt err fuel args fmt o =
    (prints err (parse fuel args fmt).1 o).andThen fun o => if (parse fuel args fmt).2 then .done o else .fail o := by
  induction fuel generalizing args fmt o with
  | zero => rfl
  | succ fuel ih =>
    rcases fmt with _ | ⟨b, fmt⟩
    · rfl
    rw [dofmt, parse]
    by_cases h0 : b = 0
    · rw [if_pos h0, if_pos h0]
      rfl
    rw [if_neg h0, if_neg h0]
    by_cases hverb : b = 37
    · rw [if_pos hverb, if_pos hverb]
      rcases dispatch fmt.length {} args fmt with _ | ⟨c, args', rest⟩
      · rfl
      · dsimp only
        rw [prints, Res.andThen_assoc]
        exact congrArg _ (funext fun o => ih _ _ o)
    rw [if_neg hverb, if_neg hverb]
    by_cases hlow : b.toNat < Runeself
    · rw [if_pos hlow, if_pos hlow]
      dsimp only
      rw [prints, Res.andThen_assoc]
      exact congrArg _ (funext fun o => ih _ _ o)
    · rw [if_neg hlow, if_neg hlow]
      dsimp only
      rw [prints, Res.andThen_assoc]
      exact congrArg _ (funext fun o => ih _ _ o)

theorem character_text {u : Bytes} : ∀ (fuel : Nat) (args : Args) (fmt : Bytes), .text u ∈ (parse fuel args fmt).1 →
    Character u := by
  intro fuel
  induction fuel with
  | zero => exact fun _ _ h => absurd h not_mem_nil
  | succ fuel ih =>
    intro args fmt h
    rcases fmt with _ | ⟨b, fmt⟩
    · exact absurd h not_mem_nil
    rw [parse] at h
    split_ifs at h with h0 hverb hlow
    · exact absurd h not_mem_nil
    · rcases hd : dispatch fmt.length {} args fmt with _ | ⟨c, args', rest⟩
      · rw [hd] at h
        exact absurd h not_mem_nil
      · rw [hd] at h
        rcases mem_cons.1 h with h | h
        · cases h
        · exact ih _ _ h
    · rcases mem_cons.1 h with h | h
      · cases h
        exact character_byte b
      · exact ih _ _ h
    · rcases mem_cons.1 h with h | h
      · cases h
        rcases chartorune_cases (s := b :: fmt) with hbad | ⟨c, hc, hpre, hok⟩
        · rw [hbad]
          exact character_byte b
        · have hle : (chartorune (b :: fmt)).2 ≤ (b :: fmt).length := chartorune_spec.2.2.2.1
          rw [hok] at hle ⊢
          have hpre' := prefix_of_prefix_length_le hpre (prefix_append (b :: fmt) [0]) hle
          exact .inr ⟨c, hc, (prefix_iff_eq_take.1 hpre').symm⟩
      · exact ih _ _ h

end Follow

/-! ### Printing the items -/

/-- The conversions of a format, each with the argument that it takes. -/
def conversions (fmt : Bytes) (args : Args) : List (Conv × Arg) :=
  (items fmt args).filterMap fun i => match i with
    | .conv c a => some (c, a)
    | .text _ => none

def Item.units (err : CString) : Item → Option (List Bytes)
  | text u => some [u]
  | conv c a => verbUnits err c a

def unitsOf (err : CString) : List Item → Option (List Bytes)
  | [] => some []
  | i :: is => (i.units err).bind fun us => (unitsOf err is).map (us ++ ·)

section Prints
variable {err : CString} {P : List Bytes → Out → Prop} {fails : Prop} {us vs : List Bytes} {o : Out} {i : Item}
  {is : List Item}

theorem unitsOf_ne_none : unitsOf err is ≠ none ↔ ∀ i ∈ is, i.units err ≠ none := by
  induction is with
  | nil => exact ⟨fun _ i hi => absurd hi not_mem_nil, fun _ => some_ne_none []⟩
  | cons i is ih =>
    rw [forall_mem_cons, ← ih, unitsOf]
    rcases i.units err with _ | us
    · exact ⟨fun h => absurd rfl h, fun h => absurd rfl h.1⟩
    · rw [bind_some, ne_eq, map_eq_none_iff]
      exact ⟨fun h => ⟨some_ne_none us, h⟩, fun h => h.2⟩

def Item.Good : Item → Prop
  | text u => Character u
  | conv _ _ => True

theorem Item.character (hi : i.Good) (h : i.units err = some vs) : ∀ v ∈ vs, Character v := by
  rcases i with u | ⟨c, a⟩
  · cases h
    exact fun v hv => mem_singleton.1 hv ▸ hi
  · exact fun v hv => character_verbUnits h hv

theorem character_unitsOf (hgood : ∀ i ∈ is, i.Good) (h : unitsOf err is = some vs) : ∀ v ∈ vs, Character v := by
  induction is generalizing vs with
  | nil =>
    cases h
    exact fun v hv => absurd hv not_mem_nil
  | cons i is ih =>
    obtain ⟨hi, his⟩ := forall_mem_cons.1 hgood
    obtain ⟨us, hus, h⟩ := bind_eq_some_iff.1 h
    obtain ⟨ws, hws, rfl⟩ := map_eq_some_iff.1 h
    intro v hv
    rcases mem_append.1 hv with hv | hv
    · exact i.character hi hus v hv
    · exact ih his hws v hv

theorem Item.print_none (h : i.units err = none) (o : Out) : i.print err o = .stray := by
  rcases i with u | ⟨c, a⟩
  · cases h
  · rcases verb_eq err c a with ⟨-, hstray⟩ | ⟨us, hus, -⟩
    · exact hstray o
    · cases h.symm.trans hus

theorem Item.print_some (hP : Printer P fails) (hi : i.Good) (h : i.units err = some vs) (ho : P us o) :
    Printed P fails us vs (i.print err o) := by
  have hemits := hP.emits ho (i.character hi h)
  rcases i with u | ⟨c, a⟩
  · cases h
    have hone : Dofmt.emits [u] o = emit u o := by
      rw [emits]
      cases emit u o <;> rfl
    rwa [hone] at hemits
  rcases verb_eq err c a with ⟨hnone, -⟩ | ⟨us', hus, hverb⟩
  · cases hnone.symm.trans h
  obtain rfl : us' = vs := Option.some.inj (hus.symm.trans h)
  rcases hverb with hverb | hverb
  · show Printed P fails us us' (verb err c a o)
    rw [hverb]
    exact hemits
  · obtain ⟨o', ho', hPo⟩ := hemits.ignore
    exact .inl ⟨o', (hverb o).trans ho', hPo⟩

theorem prints_some (hP : Printer P fails) (hgood : ∀ i ∈ is, i.Good) (h : unitsOf err is = some vs) (ho : P us o) :
    Printed P fails us vs (prints err is o) := by
  induction is generalizing us vs o with
  | nil =>
    cases h
    refine .inl ⟨o, rfl, ?_⟩
    rwa [append_nil]
  | cons i is ih =>
    obtain ⟨hi, his⟩ := forall_mem_cons.1 hgood
    obtain ⟨us', hus, h⟩ := bind_eq_some_iff.1 h
    obtain ⟨ws, hws, rfl⟩ := map_eq_some_iff.1 h
    exact (i.print_some hP hi hus ho).andThen fun o' ho' => ih his hws ho'

/-- There is always room in the buffer of `vsmprint`, so that a conversion that has no characters is reached. -/
theorem prints_none (hgood : ∀ i ∈ is, i.Good) (h : unitsOf err is = none) (ho : Growing us o) :
    prints err is o = .stray := by
  induction is generalizing us o with
  | nil => cases h
  | cons i is ih =>
    obtain ⟨hi, his⟩ := forall_mem_cons.1 hgood
    rw [unitsOf] at h
    rw [prints]
    rcases hus : i.units err with _ | us'
    · rw [i.print_none hus]
      rfl
    · rw [hus, bind_some, map_eq_none_iff] at h
      rcases i.print_some growing_printer hi hus ho with ⟨o', ho', hgrow⟩ | ⟨hno, -⟩
      · rw [ho', Res.done_andThen]
        exact ih his h hgrow
      · exact hno.elim

theorem good_items (fmt : Bytes) (args : Args) : ∀ i ∈ items fmt args, i.Good := by
  intro i hi
  rcases i with u | ⟨c, a⟩
  · exact character_text fmt.length args fmt hi
  · trivial

theorem verbUnits_iff (c : Conv) (a : Arg) : verbUnits err c a ≠ none ↔ Fits c a.word := by
  by_cases hint : Integer c.r
  · have hverb : verbUnits err c a = intUnits c a.word := if_pos hint
    rw [hverb]
    rcases fits_iff (w := a.word) hint with ⟨hfits, us, hus⟩ | ⟨hno, hnone⟩
    · exact ⟨fun _ => hfits, fun _ => by rw [hus]; exact some_ne_none us⟩
    · exact ⟨fun h => absurd hnone h, fun h => absurd h hno⟩
  have hb : c.r ≠ 'b'.toNat := by
    intro hb
    rw [hb] at hint
    exact hint (by decide)
  refine ⟨fun _ h => absurd h hb, fun _ => ?_⟩
  unfold verbUnits
  rw [if_neg hint]
  split_ifs <;> exact some_ne_none _

theorem fits_units (fmt : Bytes) (args : Args) :
    unitsOf err (items fmt args) ≠ none ↔ ∀ x ∈ conversions fmt args, Fits x.1 x.2.word := by
  rw [unitsOf_ne_none]
  constructor
  · intro h x hx
    obtain ⟨i, hi, hix⟩ := mem_filterMap.1 hx
    have hne := h i hi
    rcases i with u | ⟨c, a⟩
    · cases hix
    · cases hix
      exact (verbUnits_iff c a).1 hne
  · intro h i hi
    rcases i with u | ⟨c, a⟩
    · exact some_ne_none _
    · exact (verbUnits_iff c a).2 (h (c, a) (mem_filterMap.2 ⟨_, hi, rfl⟩))

end Prints

/-! ### Bounded printing -/

/-- What is in the buffer that `dofmt` leaves. -/
def Res.text : Res → Option Bytes
  | stray => none
  | fail o => some o.text
  | done o => some o.text

/-- The text that `vsmprint` builds. It returns it, unless the format ends inside a verb. -/
def built (err : CString) (fmt : Bytes) (args : Args) : Option Bytes := (dofmt err fmt.length args fmt fmtstrinit).text

/-- The first characters of a text, with room for a null in a buffer of `len` bytes, and all if they fit. -/
def Prefixes (us : List Bytes) (len : Nat) (t : Bytes) : Prop :=
  ∃ k ≤ us.length, t = (us.take k).flatten ∧ t.length < len ∧ (us.flatten.length < len → k = us.length)

/-- `us` are the characters of the format and of its conversions, one after the other. -/
structure Bounds (err : CString) (fmt : Bytes) (args : Args) (us : List Bytes) : Prop where
  units : unitsOf err (items fmt args) = some us
  character : ∀ u ∈ us, Character u
  built : built err fmt args = some us.flatten
  vsmprint : vsmprint err fmt args = some (if complete fmt args then some us.flatten else none)
  vsnprint : ∀ len : Int, 1 ≤ len → ∃ t : Bytes, vsnprint err len fmt args = some (t ++ [0], (t.length : Int)) ∧ Prefixes us len.toNat t
  vseprint : ∀ buf e : Nat, buf < e → ∃ t : Bytes, vseprint err buf e fmt args = some (t ++ [0], some (buf + t.length)) ∧
    Prefixes us (e - buf) t

section Main
variable {err : CString} {fmt : Bytes} {args : Args} {us : List Bytes}

theorem dofmt_bounded (room : Nat) (h : unitsOf err (items fmt args) = some us) : ∃ o, Bounded room us o ∧
    (dofmt err fmt.length args fmt ⟨[], room, room + 1, false⟩ = .done o ∨
      dofmt err fmt.length args fmt ⟨[], room, room + 1, false⟩ = .fail o) := by
  rw [dofmt_eq]
  have hprints := prints_some bounded_printer (good_items fmt args) h (bounded_start room)
  rw [items] at hprints
  rcases hprints with ⟨o, ho, hb⟩ | ⟨-, o, ho, hb⟩
  · refine ⟨o, hb, ?_⟩
    rw [ho, Res.done_andThen]
    split_ifs
    · exact .inl rfl
    · exact .inr rfl
  · have hnil := hb []
    rw [append_nil] at hnil
    refine ⟨o, hnil, .inr ?_⟩
    rw [ho]
    rfl

theorem Bounded.prefixes {room : Nat} {o : Out} (h : Bounded room us o) : Prefixes us (room + 1) o.text := by
  obtain ⟨k, hk, hplace, hall⟩ := place_take us ([] : Bytes)
  refine ⟨k, hk, ?_, Nat.lt_succ_of_le h.le, fun hlen => hall ?_⟩
  · rw [h.text, hplace, nil_append]
  · rw [length_nil]
    omega

section
variable (h : unitsOf err (items fmt args) = some us)
include h

theorem vsnprint_spec (len : Int) (hlen : 1 ≤ len) :
    ∃ t : Bytes, vsnprint err len fmt args = some (t ++ [0], (t.length : Int)) ∧ Prefixes us len.toNat t := by
  obtain ⟨room, hroom⟩ : ∃ room, len.toNat = room + 1 := ⟨len.toNat - 1, by omega⟩
  obtain ⟨o, hb, ho⟩ := dofmt_bounded room h
  have hstore : o.text.length < o.size := by
    rw [hb.size]
    exact Nat.lt_succ_of_le hb.le
  refine ⟨o.text, ?_, hroom ▸ hb.prefixes⟩
  unfold vsnprint
  rw [if_neg (by omega), hroom, Nat.add_sub_cancel]
  rcases ho with ho | ho
  · rw [ho]
    exact if_pos hstore
  · rw [ho]
    exact if_pos hstore

theorem vseprint_spec (buf e : Nat) (hlt : buf < e) :
    ∃ t : Bytes, vseprint err buf e fmt args = some (t ++ [0], some (buf + t.length)) ∧ Prefixes us (e - buf) t := by
  obtain ⟨room, hroom⟩ : ∃ room, e - buf = room + 1 := ⟨e - buf - 1, by omega⟩
  obtain ⟨o, hb, ho⟩ := dofmt_bounded room h
  have hstore : o.text.length < o.size := by
    rw [hb.size]
    exact Nat.lt_succ_of_le hb.le
  refine ⟨o.text, ?_, hroom ▸ hb.prefixes⟩
  unfold vseprint
  rw [if_neg (by omega), hroom, show e - 1 - buf = room by omega]
  rcases ho with ho | ho
  · rw [ho]
    exact if_pos hstore
  · rw [ho]
    exact if_pos hstore

theorem dofmt_growing : ∃ o, Growing us o ∧
    dofmt err fmt.length args fmt fmtstrinit = if complete fmt args then .done o else .fail o := by
  have hprints := prints_some growing_printer (good_items fmt args) h growing_fmtstrinit
  rcases hprints with ⟨o, ho, hg⟩ | ⟨hno, -⟩
  · refine ⟨o, hg, ?_⟩
    rw [items] at ho
    rw [dofmt_eq, ho]
    rfl
  · exact hno.elim

theorem bounds_of_units : Bounds err fmt args us := by
  obtain ⟨o, hg, ho⟩ := dofmt_growing h
  have hstore : o.text.length < o.size := by
    have hroom := hg.room
    have hstop := hg.stop
    omega
  refine ⟨h, character_unitsOf (good_items fmt args) h, ?_, ?_, vsnprint_spec h, vseprint_spec h⟩
  · unfold built
    rw [ho, ← hg.text]
    split_ifs <;> rfl
  · unfold Dofmt.vsmprint
    rw [ho, ← hg.text]
    split_ifs
    · exact if_pos hstore
    · rfl

end

theorem Bounds.fits (h : Bounds err fmt args us) : ∀ x ∈ conversions fmt args, Fits x.1 x.2.word := by
  refine (show unitsOf err (items fmt args) ≠ none ↔ _ from fits_units fmt args).1 fun hnone => ?_
  have hbuilt := h.built
  have hstray := prints_none (good_items fmt args) hnone growing_fmtstrinit
  rw [items] at hstray
  unfold Dofmt.built at hbuilt
  rw [dofmt_eq, hstray] at hbuilt
  cases hbuilt

theorem bounded_iff (err : CString) (fmt : Bytes) (args : Args) :
    (∃ us, Bounds err fmt args us) ↔ ∀ x ∈ conversions fmt args, Fits x.1 x.2.word := by
  constructor
  · rintro ⟨us, hus⟩
    exact hus.fits
  · intro h
    obtain ⟨us, hus⟩ := Option.ne_none_iff_exists'.1 ((fits_units fmt args).2 h)
    exact ⟨us, bounds_of_units hus⟩

/-- `%,ullb` of 2^64-1. -/
theorem bounded_fails : ¬ ∀ (err : CString) (fmt : Bytes) (args : Args), ∃ us, Bounds err fmt args us := by
  intro h
  obtain ⟨us, hus⟩ := h ⟨[], List.not_mem_nil⟩ [37, 44, 117, 108, 108, 98] fun _ => ⟨-1, none, none⟩
  have hconv : conversions [37, 44, 117, 108, 108, 98] (fun _ => ⟨-1, none, none⟩) = [(ullb, ⟨-1, none, none⟩)] := rfl
  refine not_fits_ullb (hus.fits (ullb, ⟨-1, none, none⟩) ?_)
  rw [hconv]
  exact List.mem_singleton_self _

end Main

end Node9.Dofmt
