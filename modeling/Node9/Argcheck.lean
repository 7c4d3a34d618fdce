import Mathlib

/-!
# Checked arguments (`torch/argcheck.lua`)

A checker takes its arguments by position, or by name from a table. It does not tell a nil that was given by position
from a value, and it drops nils from the list of its results: `checks_iff` says for which calls that makes no
difference.

Lua values are any type; nil is none.
-/

namespace Node9.Argcheck
open List Function Option

variable {V : Type}

/-- `type(v)`, and `v[name]` of a table. -/
structure Lua (V : Type) where
  type : V → String
  field : V → String → Option V

/-- A rule; `defaultf` is what the default function returns. -/
structure Rule (V : Type) where
  name : String
  type : Option String
  check : Option (V → Bool)
  default : Option V
  defaulta : Option String
  defaultf : Option (Option V)
  opt : Bool

/-- What `argcheck.new` is called with; `usage` is the text of `format_args`. -/
structure Spec (V : Type) where
  rules : List (Rule V)
  names : (rules.map Rule.name).Nodup
  pack : Bool
  nonamed : Bool
  usage : String

variable (L : Lua V)

def checkType (v : V) (typename : String) : Bool :=
  if typename = "number" then L.type v = "number"
  else if typename = "string" then L.type v = "string"
  else if typename = "boolean" then L.type v = "boolean"
  else if typename = "table" then L.type v = "table"
  else if typename = "function" then L.type v = "function"
  else L.type v = typename

/-- The table `results`: the values by name, and the list of them. -/
structure Results (V : Type) where
  named : String → Option V
  list : List V

/-- `table.insert` of a nil does nothing. -/
def Results.store (res : Results V) (name : String) (value : Option V) : Results V :=
  ⟨update res.named name value, res.list ++ value.toList⟩

def invalid (usage : String) : String := "invalid arguments\n\n" ++ usage

/-- One turn of the loop over the rules, with the table of names if there is one. -/
def checkRule (usage : String) (named : Option V) (args : List (Option V)) (i : Nat) (rule : Rule V)
    (res : Results V) : Except String (Results V) :=
  let value := named.elim (args.getD i none) fun t => L.field t rule.name
  let found := named.elim (decide (i < args.length)) fun t => (L.field t rule.name).isSome
  if found = false then
    if rule.default.isSome then .ok (res.store rule.name rule.default)
    else if rule.defaulta.isSome then .ok (res.store rule.name (rule.defaulta.bind res.named))
    else if rule.defaultf.isSome then .ok (res.store rule.name rule.defaultf.join)
    else if rule.opt = false then .error (invalid usage)
    else .ok (res.store rule.name value)
  else if value.any (fun v => rule.type.any fun t => !checkType L v t) then .error (invalid usage)
  else if value.any (fun v => rule.check.any fun check => !check v) then .error (invalid usage)
  else .ok (res.store rule.name value)

/-- The loop from the `i`-th rule on. -/
def checkRules (usage : String) (named : Option V) (args : List (Option V)) :
    Nat → List (Rule V) → Results V → Except String (Results V)
  | _, [], res => .ok res
  | i, rule :: rules, res =>
    (checkRule L usage named args i rule res).bind fun res => checkRules usage named args (i + 1) rules res

/-- The single argument, if it is a table that looks like named arguments. -/
def namedArgs (spec : Spec V) (args : List (Option V)) : Option V :=
  if args.length = 1 ∧ spec.nonamed = false then
    (args.headD none).filter fun first =>
      L.type first = "table" && spec.rules.any fun rule => (L.field first rule.name).isSome
  else none

inductive Return (V : Type)
  | table (res : Results V)
  | values (vs : List V)

/-- The checker that `argcheck.new` returns. -/
def checker (spec : Spec V) (args : List (Option V)) : Except String (Return V) :=
  (checkRules L spec.usage (namedArgs L spec args) args 0 spec.rules ⟨fun _ => none, []⟩).map fun res =>
    if spec.pack then .table res else .values res.list

/-! ### What a call means -/

/-- A call by position, or with a table of names. -/
inductive Call (V : Type)
  | positional (args : List (Option V))
  | named (t : V)

def Call.args : Call V → List (Option V)
  | positional args => args
  | named t => [some t]

def Call.table? : Call V → Option V
  | positional _ => none
  | named t => some t

/-- An argument for a rule, and whether there is one, be it nil. -/
structure Entry (V : Type) where
  rule : Rule V
  found : Bool
  value : Option V
  absent : found = false → value = none

/-- The argument for the `i`-th rule. -/
def entry (named : Option V) (args : List (Option V)) (i : Nat) (rule : Rule V) : Entry V where
  rule := rule
  found := named.elim (decide (i < args.length)) fun t => (L.field t rule.name).isSome
  value := named.elim (args.getD i none) fun t => L.field t rule.name
  absent := by
    intro h
    rcases named with _ | t
    · exact List.getD_eq_default _ _ (Nat.not_lt.1 (of_decide_eq_false h))
    · exact Option.not_isSome_iff_eq_none.1 (Bool.eq_false_iff.1 h)

/-- From the `i`-th rule on. -/
def entriesFrom (named : Option V) (args : List (Option V)) : Nat → List (Rule V) → List (Entry V)
  | _, [] => []
  | i, rule :: rules => entry L named args i rule :: entriesFrom named args (i + 1) rules

def Call.entries (spec : Spec V) (c : Call V) : List (Entry V) := entriesFrom L c.table? c.args 0 spec.rules

/-- What a rule has without a value, with the values of the rules before it; none if it needs one. -/
def fallback (rule : Rule V) (prev : String → Option V) : Option (Option V) :=
  if rule.default.isSome then some rule.default
  else if rule.defaulta.isSome then some (rule.defaulta.bind prev)
  else if rule.defaultf.isSome then some rule.defaultf.join
  else if rule.opt then some none
  else none

/-- The value has the type of the rule and passes its check. -/
def passes (rule : Rule V) (v : V) : Bool := rule.type.all (L.type v = ·) && rule.check.all (· v)

/-- The values of the rules, or none for an error. -/
def expected : List (Entry V) → (String → Option V) → Option (List (Option V))
  | [], _ => some []
  | e :: entries, prev =>
    if e.value.any fun v => !passes L e.rule v then none
    else (e.value.elim (fallback e.rule prev) fun v => some (some v)).bind fun value =>
      (expected entries (update prev e.rule.name value)).map fun vs => value :: vs

/-- The `i`-th result; all others are nil. -/
def Return.nth : Return V → Nat → Option V
  | table res, i => res.list[i]?
  | values vs, i => vs[i]?

def Agrees (o : Except String (Return V)) (e : Option (List (Option V))) : Prop :=
  (e = none ∧ ∃ msg, o = .error msg) ∨ ∃ vs r, e = some vs ∧ o = .ok r ∧ ∀ i, r.nth i = vs.getD i none

/-- Both fail, or they have the same results. -/
def Same (o o' : Except String (Return V)) : Prop :=
  (∃ msg msg', o = .error msg ∧ o' = .error msg') ∨ ∃ r r', o = .ok r ∧ o' = .ok r' ∧ ∀ i, r.nth i = r'.nth i

/-! ### The loop of the checker -/

variable {L} {rule : Rule V} {prev : String → Option V} {v : V} {e : Entry V} {entries : List (Entry V)}

theorem checkType_eq (L : Lua V) (v : V) (t : String) : checkType L v t = decide (L.type v = t) := by
  unfold checkType
  split_ifs with h1 h2 h3 h4 h5
  · rw [h1]
  · rw [h2]
  · rw [h3]
  · rw [h4]
  · rw [h5]
  · rfl

variable (L) in
/-- The argument is an error: its value does not pass, or the rule needs one. -/
def Fails (e : Entry V) : Prop :=
  (∃ v ∈ e.value, passes L e.rule v = false) ∨ e.found = false ∧ fallback e.rule (fun _ => none) = none

/-- What the checker takes for the value. -/
def Entry.taken (e : Entry V) (prev : String → Option V) : Option V :=
  if e.found then e.value else (fallback e.rule prev).join

theorem fallback_eq_none (prev prev' : String → Option V) : fallback rule prev = none ↔ fallback rule prev' = none := by
  unfold fallback
  split_ifs <;> simp

theorem checkRule_absent (usage : String) {named : Option V} {args : List (Option V)} {i : Nat} (res : Results V)
    (h : (entry L named args i rule).found = false) : checkRule L usage named args i rule res =
      (fallback rule res.named).elim (.error (invalid usage)) fun v => .ok (res.store rule.name v) := by
  have hvalue := (entry L named args i rule).absent h
  have hfound : named.elim (decide (i < args.length)) (fun t => (L.field t rule.name).isSome) = false := h
  have hnone : named.elim (args.getD i none) (fun t => L.field t rule.name) = none := hvalue
  unfold checkRule fallback
  rw [hfound, hnone]
  cases rule.opt <;> split_ifs <;> first | rfl | contradiction

theorem not_passes (L : Lua V) (rule : Rule V) (v : V) : (!passes L rule v) =
    ((rule.type.any fun t => !checkType L v t) || rule.check.any fun check => !check v) := by
  have htype : (!rule.type.all (L.type v = ·)) = rule.type.any fun t => !checkType L v t := by
    rcases rule.type with _ | t
    · rfl
    · rw [any_some, checkType_eq]
      rfl
  have hcheck : (!rule.check.all (· v)) = rule.check.any fun check => !check v := by
    rcases rule.check with _ | check <;> rfl
  rw [passes, Bool.not_and, htype, hcheck]

theorem checkRule_found (usage : String) {named : Option V} {args : List (Option V)} {i : Nat} (res : Results V)
    (h : (entry L named args i rule).found = true) : checkRule L usage named args i rule res =
      if (entry L named args i rule).value.any fun v => !passes L rule v then .error (invalid usage)
      else .ok (res.store rule.name (entry L named args i rule).value) := by
  have hfound : named.elim (decide (i < args.length)) (fun t => (L.field t rule.name).isSome) = true := h
  have hvalue : named.elim (args.getD i none) (fun t => L.field t rule.name) = (entry L named args i rule).value := rfl
  unfold checkRule
  rw [hfound, if_neg (by decide), hvalue]
  generalize (entry L named args i rule).value = value
  rcases value with _ | v
  · rfl
  · rw [any_some, any_some, any_some, not_passes]
    generalize (rule.type.any fun t => !checkType L v t) = wrong
    generalize (rule.check.any fun check => !check v) = failed
    cases wrong <;> cases failed <;> rfl

theorem any_not_passes : (∃ v ∈ e.value, passes L e.rule v = false) ↔
    (e.value.any fun v => !passes L e.rule v) = true := by
  rw [Option.any_eq_true]
  simp

theorem checkRule_eq (usage : String) (named : Option V) (args : List (Option V)) (i : Nat) (rule : Rule V)
    (res : Results V) :
    (Fails L (entry L named args i rule) → checkRule L usage named args i rule res = .error (invalid usage)) ∧
      (¬ Fails L (entry L named args i rule) → checkRule L usage named args i rule res =
        .ok (res.store rule.name ((entry L named args i rule).taken res.named))) := by
  have hrule : (entry L named args i rule).rule = rule := rfl
  rcases hfound : (entry L named args i rule).found with _ | _
  · have hvalue := (entry L named args i rule).absent hfound
    have hfails : Fails L (entry L named args i rule) ↔ fallback rule res.named = none := by
      rw [Fails, hvalue, hfound, hrule, fallback_eq_none _ res.named]
      simp
    rw [hfails, checkRule_absent usage res hfound, Entry.taken, hfound, hrule]
    rcases fallback rule res.named with _ | v
    · exact ⟨fun _ => rfl, fun h => absurd rfl h⟩
    · exact ⟨fun h => absurd h (some_ne_none v), fun _ => rfl⟩
  · have hfails : Fails L (entry L named args i rule) ↔
        ((entry L named args i rule).value.any fun v => !passes L rule v) = true := by
      rw [Fails, any_not_passes, hfound]
      simp [hrule]
    rw [hfails, checkRule_found usage res hfound, Entry.taken, hfound, if_pos rfl]
    exact ⟨fun h => if_pos h, fun h => if_neg h⟩

/-- What the checker takes for the values. -/
def takenAll : List (Entry V) → (String → Option V) → List (Option V)
  | [], _ => []
  | e :: entries, prev => e.taken prev :: takenAll entries (update prev e.rule.name (e.taken prev))

theorem checkRules_eq (usage : String) (named : Option V) (args : List (Option V)) :
    ∀ (rules : List (Rule V)) (i : Nat) (res : Results V),
      ((∃ e ∈ entriesFrom L named args i rules, Fails L e) →
        checkRules L usage named args i rules res = .error (invalid usage)) ∧
      ((∀ e ∈ entriesFrom L named args i rules, ¬ Fails L e) → ∃ res',
      checkRules L usage named args i rules res = .ok res' ∧
        res'.list = res.list ++ (takenAll (entriesFrom L named args i rules) res.named).filterMap id)
  | [], i, res => ⟨by rintro ⟨e, ⟨⟩, -⟩, fun _ => ⟨res, rfl, (List.append_nil _).symm⟩⟩
  | rule :: rules, i, res => by
    obtain ⟨hbad, hgood⟩ := checkRule_eq (L := L) usage named args i rule res
    rw [entriesFrom, checkRules, forall_mem_cons]
    constructor
    · rintro ⟨e, he, hfails⟩
      by_cases hhead : Fails L (entry L named args i rule)
      · rw [hbad hhead]
        rfl
      have hmem : e ∈ entriesFrom L named args (i + 1) rules := by
        rcases mem_cons.1 he with rfl | he
        · exact absurd hfails hhead
        · exact he
      rw [hgood hhead]
      exact (checkRules_eq usage named args rules (i + 1) _).1 ⟨e, hmem, hfails⟩
    · rintro ⟨hhead, htail⟩
      obtain ⟨res', hrun, hlist⟩ := (checkRules_eq usage named args rules (i + 1)
        (res.store rule.name ((entry L named args i rule).taken res.named))).2 htail
      refine ⟨res', by rw [hgood hhead]; exact hrun, ?_⟩
      rw [hlist, takenAll, Results.store, append_assoc]
      congr 1
      rcases (entry L named args i rule).taken res.named with _ | v
      · rfl
      · rfl

/-- The value of a rule: what is supplied, or else the fallback. -/
def Entry.meant (e : Entry V) (prev : String → Option V) : Option V := e.value.or (fallback e.rule prev).join

/-- A nil that is given is for a rule that has no other value. -/
def Silent : List (Entry V) → (String → Option V) → Prop
  | [], _ => True
  | e :: entries, prev =>
    (e.found = true → e.value = none → fallback e.rule prev = some none) ∧
      Silent entries (update prev e.rule.name (e.meant prev))

def NoGap : List (Option V) → Prop
  | [] => True
  | some _ :: vs => NoGap vs
  | none :: vs => ∀ v ∈ vs, v = none

variable (L) in
/-- The call is an error anyway; or no nil stands for a default, and the nils are at the end. -/
def Meets (entries : List (Entry V)) : Prop :=
  (∃ e ∈ entries, Fails L e) ∨
    Silent entries (fun _ => none) ∧ ∀ vs ∈ expected L entries fun _ => none, NoGap vs

variable {w : Option V} {vs ws : List (Option V)} {prev' : String → Option V}

theorem expected_cons_some (hv : e.value = some v) (hpass : passes L e.rule v = true) :
    expected L (e :: entries) prev =
      (expected L entries (update prev e.rule.name (some v))).map fun vs => some v :: vs := by
  rw [expected, hv, any_some, hpass, if_neg (by decide)]
  rfl

theorem expected_cons_none (hv : e.value = none) : expected L (e :: entries) prev =
    (fallback e.rule prev).bind fun value =>
      (expected L entries (update prev e.rule.name value)).map fun vs => value :: vs := by
  rw [expected, hv, any_none, if_neg Bool.false_ne_true]
  rfl

theorem expected_fails : ∀ (entries : List (Entry V)) (prev : String → Option V), (∃ e ∈ entries, Fails L e) →
    expected L entries prev = none
  | [], _, h => by
    obtain ⟨e, ⟨⟩, -⟩ := h
  | e :: entries, prev, h => by
    obtain ⟨x, hx, hfails⟩ := h
    rcases mem_cons.1 hx with rfl | hx
    · rcases hfails with hbad | ⟨hfound, hneed⟩
      · rw [expected, if_pos (any_not_passes.1 hbad)]
      · rw [expected_cons_none (x.absent hfound), (fallback_eq_none _ prev).1 hneed]
        rfl
    · have ih := fun prev => expected_fails entries prev ⟨x, hx, hfails⟩
      rw [expected]
      split_ifs
      · rfl
      · simp [ih]

theorem Fails.not_some (h : ¬ Fails L e) (hv : e.value = some v) : passes L e.rule v = true := by
  by_contra hno
  exact h (.inl ⟨v, hv, Bool.eq_false_of_not_eq_true hno⟩)

theorem Fails.fallback (h : ¬ Fails L e) (hfound : e.found = false) (prev : String → Option V) :
    ∃ u, fallback e.rule prev = some u :=
  ne_none_iff_exists'.1 fun hnone => h (.inr ⟨hfound, (fallback_eq_none prev _).1 hnone⟩)

theorem Entry.found_of_some (hv : e.value = some v) : e.found = true := by
  by_contra hno
  rw [e.absent (Bool.eq_false_of_not_eq_true hno)] at hv
  exact some_ne_none v hv.symm

theorem expected_taken_iff : ∀ (entries : List (Entry V)) (prev : String → Option V), (∀ e ∈ entries, ¬ Fails L e) →
    (expected L entries prev = some (takenAll entries prev) ↔ Silent entries prev)
  | [], _, _ => iff_of_true rfl trivial
  | e :: entries, prev, h => by
    obtain ⟨hhead, htail⟩ := forall_mem_cons.1 h
    have ih := fun prev => expected_taken_iff entries prev htail
    rw [takenAll, Silent]
    rcases hv : e.value with _ | v
    · rw [expected_cons_none hv]
      cases hfound : e.found with
      | false =>
        obtain ⟨u, hu⟩ := Fails.fallback hhead hfound prev
        have htaken : e.taken prev = u := by
          rw [Entry.taken, hfound, if_neg Bool.false_ne_true, hu]
          rfl
        have hmeant : e.meant prev = u := by
          rw [Entry.meant, hv, hu]
          rfl
        rw [hu, htaken, hmeant, ← ih]
        simp
      | true =>
        have htaken : e.taken prev = none := by rw [Entry.taken, hfound, if_pos rfl, hv]
        have hmeant : e.meant prev = (fallback e.rule prev).join := by
          rw [Entry.meant, hv]
          rfl
        rw [htaken, hmeant]
        rcases fallback e.rule prev with _ | u
        · exact iff_of_false (by simp) fun h => some_ne_none _ (h.1 rfl rfl).symm
        rcases u with _ | u
        · rw [← ih]
          simp
        · refine iff_of_false ?_ fun h => some_ne_none u (Option.some.inj (h.1 rfl rfl))
          intro heq
          obtain ⟨vs, -, hvs⟩ := map_eq_some_iff.1 heq
          exact some_ne_none u (head_eq_of_cons_eq hvs)
    · have htaken : e.taken prev = some v := by rw [Entry.taken, Entry.found_of_some hv, if_pos rfl, hv]
      have hmeant : e.meant prev = some v := by
        rw [Entry.meant, hv]
        rfl
      rw [expected_cons_some hv (Fails.not_some hhead hv), htaken, hmeant, ← ih]
      simp

def OrNil (w v : Option V) : Prop := w = none ∨ w = v

theorem fallback_orNil (rule : Rule V) (h : ∀ n, OrNil (prev n) (prev' n)) :
    OrNil (fallback rule prev).join (fallback rule prev').join := by
  unfold fallback
  split_ifs
  · exact .inr rfl
  · rcases rule.defaulta with _ | n
    · exact .inl rfl
    · exact h n
  · exact .inr rfl
  · exact .inr rfl
  · exact .inr rfl

theorem update_orNil (n : String) {w v : Option V} (hw : OrNil w v) (h : ∀ n, OrNil (prev n) (prev' n)) :
    ∀ m, OrNil (update prev n w m) (update prev' n v m) := by
  intro m
  rw [update_apply, update_apply]
  split_ifs
  · exact hw
  · exact h m

theorem takenAll_orNil : ∀ (entries : List (Entry V)) (prev prev' : String → Option V) {vs : List (Option V)},
    (∀ n, OrNil (prev n) (prev' n)) → expected L entries prev' = some vs →
      List.Forall₂ OrNil (takenAll entries prev) vs
  | [], _, _, vs, _, h => by
    cases h
    exact .nil
  | e :: entries, prev, prev', vs, hprev, h => by
    rw [takenAll]
    have hor : ∀ u, e.value.elim (fallback e.rule prev') (fun v => some (some v)) = some u →
      OrNil (e.taken prev) u := by
      intro u hu
      rcases hv : e.value with _ | v
      · rw [hv, elim_none] at hu
        have hfall := fallback_orNil e.rule hprev
        rw [hu, join_some] at hfall
        rw [Entry.taken, hv]
        split_ifs
        · exact .inl rfl
        · exact hfall
      · rw [hv, elim_some] at hu
        rw [Entry.taken, Entry.found_of_some hv, if_pos rfl, hv]
        exact .inr (Option.some.inj hu)
    rw [expected] at h
    split_ifs at h
    obtain ⟨u, hu, h⟩ := bind_eq_some_iff.1 h
    obtain ⟨vs, hvs, rfl⟩ := map_eq_some_iff.1 h
    exact .cons (hor u hu) (takenAll_orNil entries _ _ (update_orNil _ (hor u hu) hprev) hvs)

/-! ### The list of results -/

theorem getElem_filterMap_cons (v : V) (vs : List (Option V)) (ws : List (Option V)) :
    (∀ i, ((some v :: ws).filterMap id)[i]? = (some v :: vs).getD i none) ↔
      ∀ i, (ws.filterMap id)[i]? = vs.getD i none := by
  constructor
  · intro h i
    exact h (i + 1)
  · intro h i
    rcases i with _ | i
    · rfl
    · exact h i

theorem all_none_iff : (∀ v ∈ vs, v = none) ↔ ∀ i, vs.getD i none = none := by
  constructor
  · intro h i
    rw [getD_eq_getElem?_getD]
    rcases hi : vs[i]? with _ | v
    · rfl
    · exact h v (mem_of_getElem? hi)
  · intro h v hv
    obtain ⟨i, hi⟩ := mem_iff_getElem?.1 hv
    have hnone := h i
    rwa [getD_eq_getElem?_getD, hi] at hnone

theorem noGap_iff : ∀ vs : List (Option V), NoGap vs ↔ ∀ i, (vs.filterMap id)[i]? = vs.getD i none
  | [] => iff_of_true trivial fun _ => rfl
  | some v :: vs => by
    rw [NoGap, noGap_iff vs, getElem_filterMap_cons]
  | none :: vs => by
    have hsome : ∀ vs : List (Option V), vs.filterMap id = [] ↔ ∀ v ∈ vs, v = none := by
      intro vs
      rw [filterMap_eq_nil_iff]
      rfl
    rw [NoGap, ← hsome]
    constructor
    · intro h i
      have hall := (hsome vs).1 h
      have hcons : (none :: vs).filterMap id = vs.filterMap id := rfl
      rw [hcons, h, List.getElem?_nil]
      rcases i with _ | i
      · rfl
      · rw [getD_cons_succ, all_none_iff.1 hall]
    · intro h
      have hzero : (vs.filterMap id)[0]? = none := h 0
      exact eq_nil_of_length_eq_zero (Nat.le_zero.1 (List.getElem?_eq_none_iff.1 hzero))

theorem countP_of_getElem : ∀ (l : List V) (vs : List (Option V)), (∀ i, l[i]? = vs.getD i none) →
    vs.countP Option.isSome = l.length
  | [], vs, h => by
    have hall := all_none_iff.2 fun i => (h i).symm
    refine countP_eq_zero.2 fun v hv hsome => ?_
    rw [hall v hv] at hsome
    exact Bool.false_ne_true hsome
  | v :: l, [], h => absurd (h 0) (some_ne_none v)
  | v :: l, w :: vs, h => by
    have hw : some v = w := h 0
    have ih := countP_of_getElem l vs fun i => h (i + 1)
    rw [← hw, countP_cons_of_pos rfl, ih, length_cons]

theorem countP_filterMap (ws : List (Option V)) : ws.countP Option.isSome = (ws.filterMap id).length := by
  induction ws with
  | nil => rfl
  | cons w ws ih =>
    rcases w with _ | v
    · exact ih
    · rw [countP_cons_of_pos rfl, ih]
      rfl

theorem eq_of_orNil : ∀ {ws vs : List (Option V)}, List.Forall₂ OrNil ws vs →
    ws.countP Option.isSome ≤ vs.countP Option.isSome ∧
      (vs.countP Option.isSome ≤ ws.countP Option.isSome → ws = vs)
  | _, _, .nil => ⟨le_rfl, fun _ => rfl⟩
  | w :: ws, v :: vs, .cons hw htail => by
    obtain ⟨hle, heq⟩ := eq_of_orNil htail
    rcases hw with rfl | rfl
    · rcases v with _ | v
      · exact ⟨hle, fun h => by rw [heq h]⟩
      · have hcons : (some v :: vs).countP Option.isSome = vs.countP Option.isSome + 1 := countP_cons_of_pos rfl
        have hnone : (none :: ws).countP Option.isSome = ws.countP Option.isSome := countP_cons_of_neg (by simp)
        rw [hcons, hnone]
        exact ⟨by omega, fun h => by omega⟩
    · rw [countP_cons, countP_cons]
      exact ⟨by omega, fun h => by rw [heq (by omega)]⟩

/-- The list of the values that are taken is what is meant only if these are, with their nils at the end. -/
theorem list_eq_iff (h : List.Forall₂ OrNil ws vs) :
    (∀ i, (ws.filterMap id)[i]? = vs.getD i none) ↔ ws = vs ∧ NoGap vs := by
  constructor
  · intro hlist
    have hcount := countP_of_getElem _ _ hlist
    rw [← countP_filterMap] at hcount
    obtain rfl := (eq_of_orNil h).2 (le_of_eq hcount)
    exact ⟨rfl, (noGap_iff _).2 hlist⟩
  · rintro ⟨rfl, hgap⟩
    exact (noGap_iff _).1 hgap

variable (L) in
/-- The checker takes the call as it is meant, by position or by name. -/
def Call.Read (spec : Spec V) (c : Call V) : Prop := namedArgs L spec c.args = c.table?

theorem nth_return (spec : Spec V) (res : Results V) (i : Nat) :
    (if spec.pack then Return.table res else Return.values res.list).nth i = res.list[i]? := by
  split_ifs <;> rfl

/-- A call that is read as it is meant has the results that are meant if and only if it meets the condition. -/
theorem agrees_iff {spec : Spec V} {c : Call V} (hc : c.Read L spec) :
    Agrees (checker L spec c.args) (expected L (c.entries L spec) fun _ => none) ↔ Meets L (c.entries L spec) := by
  obtain ⟨hbad, hgood⟩ := checkRules_eq (L := L) spec.usage c.table? c.args spec.rules 0 ⟨fun _ => none, []⟩
  have hrun : checker L spec c.args = (checkRules L spec.usage c.table? c.args 0 spec.rules ⟨fun _ => none, []⟩).map
      fun res => if spec.pack then .table res else .values res.list := by
    rw [checker, show namedArgs L spec c.args = c.table? from hc]
  rw [hrun]
  by_cases hfails : ∃ e ∈ c.entries L spec, Fails L e
  · refine iff_of_true (.inl ⟨expected_fails _ _ hfails, invalid spec.usage, ?_⟩) (.inl hfails)
    rw [hbad hfails]
    rfl
  have hno : ∀ e ∈ c.entries L spec, ¬ Fails L e := fun e he hf => hfails ⟨e, he, hf⟩
  obtain ⟨res, hres, hlist⟩ := hgood hno
  have htaken := expected_taken_iff (c.entries L spec) (fun _ => none) hno
  have hnth : ∀ i, (if spec.pack then Return.table res else Return.values res.list).nth i =
      ((takenAll (c.entries L spec) fun _ => none).filterMap id)[i]? := by
    intro i
    rw [nth_return, hlist]
    rfl
  rw [hres]
  constructor
  · rintro (⟨-, msg, hmsg⟩ | ⟨vs, r, hvs, hr, hall⟩)
    · exact absurd hmsg (by rintro ⟨⟩)
    obtain rfl := Except.ok.inj hr
    have hor := takenAll_orNil (c.entries L spec) (fun _ => none) (fun _ => none) (fun _ => .inl rfl) hvs
    obtain ⟨rfl, hgap⟩ := (list_eq_iff hor).1 fun i => (hnth i).symm.trans (hall i)
    refine .inr ⟨htaken.1 hvs, fun vs h => ?_⟩
    obtain rfl := Option.some.inj (hvs.symm.trans h)
    exact hgap
  · rintro (hf | ⟨hsilent, hgap⟩)
    · exact absurd hf hfails
    · have hvs := htaken.2 hsilent
      refine .inr ⟨_, _, hvs, rfl, fun i => (hnth i).trans ?_⟩
      exact (noGap_iff _).1 (hgap _ hvs) i

variable (L) in
/-- The values that a call gives to the rules. -/
def Call.supplied (spec : Spec V) (c : Call V) : List (Option V) := (c.entries L spec).map Entry.value

theorem entriesFrom_rules (named : Option V) (args : List (Option V)) : ∀ (rules : List (Rule V)) (i : Nat),
    (entriesFrom L named args i rules).map Entry.rule = rules
  | [], _ => rfl
  | rule :: rules, i => by
    rw [entriesFrom, List.map_cons, entriesFrom_rules named args rules]
    rfl

theorem expected_congr : ∀ (entries entries' : List (Entry V)) (prev : String → Option V),
    entries.map Entry.rule = entries'.map Entry.rule → entries.map Entry.value = entries'.map Entry.value →
      expected L entries prev = expected L entries' prev
  | [], [], _, _, _ => rfl
  | [], _ :: _, _, h, _ => absurd h (List.cons_ne_nil _ _).symm
  | _ :: _, [], _, h, _ => absurd h (List.cons_ne_nil _ _)
  | e :: entries, e' :: entries', prev, hr, hv => by
    rw [List.map_cons, List.map_cons] at hr hv
    have hrest := fun prev => expected_congr entries entries' prev (tail_eq_of_cons_eq hr)
      (tail_eq_of_cons_eq hv)
    rw [expected, expected, head_eq_of_cons_eq hr, head_eq_of_cons_eq hv]
    simp only [hrest]

theorem Agrees.same {o o' : Except String (Return V)} {x : Option (List (Option V))} (h : Agrees o x)
    (h' : Agrees o' x) : Same o o' := by
  rcases h with ⟨hx, msg, hmsg⟩ | ⟨vs, r, hx, hr, hall⟩
  · rcases h' with ⟨-, msg', hmsg'⟩ | ⟨vs, r, hx', -, -⟩
    · exact .inl ⟨msg, msg', hmsg, hmsg'⟩
    · exact absurd (hx.symm.trans hx') (some_ne_none vs).symm
  · rcases h' with ⟨hx', -, -⟩ | ⟨vs', r', hx', hr', hall'⟩
    · exact absurd (hx.symm.trans hx') (some_ne_none vs)
    · obtain rfl := Option.some.inj (hx.symm.trans hx')
      exact .inr ⟨r, r', hr, hr', fun i => (hall i).trans (hall' i).symm⟩

/-- The results are what is meant if and only if the call meets the condition; and calls by position and by name with
the same values, which meet it, have the same outcome. -/
theorem checks_iff (L : Lua V) (spec : Spec V) (c : Call V) (hc : c.Read L spec) :
    (Agrees (checker L spec c.args) (expected L (c.entries L spec) fun _ => none) ↔ Meets L (c.entries L spec)) ∧
      ∀ c' : Call V, c'.Read L spec → c'.supplied L spec = c.supplied L spec →
        Meets L (c.entries L spec) → Meets L (c'.entries L spec) →
          Same (checker L spec c.args) (checker L spec c'.args) := by
  refine ⟨agrees_iff hc, fun c' hc' hsupplied hmeets hmeets' => ?_⟩
  have hrules : (c'.entries L spec).map Entry.rule = (c.entries L spec).map Entry.rule := by
    rw [Call.entries, Call.entries, entriesFrom_rules, entriesFrom_rules]
  have hexpected := expected_congr (L := L) (c'.entries L spec) (c.entries L spec) (fun _ => none) hrules hsupplied
  have hagrees := (agrees_iff hc').2 hmeets'
  rw [hexpected] at hagrees
  exact ((agrees_iff hc).2 hmeets).same hagrees

/-- 0 is a table, with 1 under `a` and 2 under `b`. -/
def numbers : Lua Int where
  type v := if v = 0 then "table" else "number"
  field v name := if v = 0 then (if name = "a" then some 1 else if name = "b" then some 2 else none) else none

/-- An optional number and one that is required. -/
def pair : Spec Int where
  rules := [⟨"a", some "number", none, none, none, none, true⟩, ⟨"b", some "number", none, none, none, none, false⟩]
  names := by decide
  pack := false
  nonamed := false
  usage := ""

theorem checks_iff_pair :
    (Agrees (checker numbers pair [some 1, some 2])
        (expected numbers ((Call.positional [some 1, some 2]).entries numbers pair) fun _ => none) ↔
      Meets numbers ((Call.positional [some 1, some 2]).entries numbers pair)) ∧
      Same (checker numbers pair [some 1, some 2]) (checker numbers pair [some 0]) := by
  obtain ⟨hagrees, hsame⟩ := checks_iff numbers pair (.positional [some 1, some 2]) rfl
  refine ⟨hagrees, hsame (.named 0) rfl rfl (.inr ⟨⟨nofun, nofun, trivial⟩, ?_⟩) (.inr ⟨⟨nofun, nofun, trivial⟩, ?_⟩)⟩
  all_goals
    rintro vs ⟨⟩
    trivial

/-- With a nil for the optional number the other one comes first. -/
theorem not_agrees : ¬ Agrees (checker numbers pair [none, some 5])
    (expected numbers ((Call.positional [none, some 5]).entries numbers pair) fun _ => none) := by
  have hrun : checker numbers pair [none, some 5] = .ok (.values [5]) := rfl
  have hmeant : expected numbers ((Call.positional [none, some 5]).entries numbers pair) (fun _ => none) =
      some [none, some 5] := rfl
  rw [hrun, hmeant]
  rintro (⟨h, -⟩ | ⟨vs, r, hvs, hr, hall⟩)
  · exact Option.some_ne_none _ h
  · cases hvs
    obtain rfl := Except.ok.inj hr
    exact absurd (hall 0) (by decide)

end Node9.Argcheck
