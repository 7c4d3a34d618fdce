import Node9.Class

/-!
# Runs of class definitions

`Inv` says what the tables of a run are and that `isofclass` has what the paths have. Each action that meets `Meets`
keeps it, so that in every state of a run the instances are `Right`, and a definition that fails changes nothing:
`registry`.
-/

namespace Node9.Class
open Buf Lua Steps Function List
open Option hiding mem_map mem_toFinset

/-! ### Fields of new tables -/

section Fields
variable {name : Name} {r : Nat} {m : Method}

theorem method_ne (m : Method) {e : String} (he : lit e ∈ own) : (Val.str m.1 : Value) ≠ event e := by
  intro h
  have hm : m.1 = lit e := Val.str.inj h
  exact m.2 (hm ▸ he)

theorem fields_cons (x : String × Value) (l : List (String × Value)) (k : Value) :
    fields (x :: l) k = if k = event x.1 then x.2 else fields l k := by
  unfold fields
  rw [map_cons, lookup_cons]
  by_cases hk : k = event x.1
  · rw [if_pos hk, beq_iff_eq.2 hk]
    rfl
  · rw [if_neg hk, beq_eq_false_iff_ne.2 hk]

theorem fields_nil (k : Value) : fields [] k = .nil := rfl

/-- The table of a class, except its metatable. -/
structure Cls (t : Table Fn) (methods : Name → Value) (c : Name) (r : Nat) : Prop where
  typename : t.fields (event "__typename") = .str c
  factory : t.fields (event "__factory") = .fn (.factory r)
  new : t.fields (event "new") = .fn (.new r)
  index : t.fields (event "__index") = .table r
  newindex : t.fields (event "__newindex") = .nil
  unprotected : t.fields (event "__metatable") = .nil
  method : ∀ m : Method, t.fields (.str m.1) = methods m.1

theorem cls_newclass (name : Name) (r : Nat) :
    Cls (newclass name r) (fun m => if m = lit "__init" then .fn .init else .nil) name r := by
  unfold newclass
  constructor
  case method =>
    intro m
    by_cases hm : m.1 = lit "__init"
    · rw [hm, if_pos rfl]
      simp (disch := decide) only [fields_cons, if_neg, if_true, lit, event]
    have hinit : (Val.str m.1 : Value) ≠ event "__init" := fun h => hm (Val.str.inj h)
    have h1 := method_ne m (e := "__typename") (by decide)
    have h2 := method_ne m (e := "__index") (by decide)
    have h3 := method_ne m (e := "__factory") (by decide)
    have h4 := method_ne m (e := "new") (by decide)
    simp only [fields_cons, fields_nil, if_neg hm, if_neg hinit, if_neg h1, if_neg h2, if_neg h3, if_neg h4]
  all_goals simp (disch := decide) only [fields_cons, fields_nil, if_neg, if_true]

theorem behind_fields (r : Nat) :
    (behind r).fields (event "__index") = .table r ∧ (behind r).fields (event "__newindex") = .table r := by
  unfold behind
  constructor <;> simp (disch := decide) only [fields_cons, if_neg, if_true]

end Fields

section Paths
variable {parent : Name → Option (Option Name)} {c t : Name} {l l' : List Name}

namespace Path

section
variable (h : Path parent c l)
include h

theorem eq (h' : Path parent c l') : l = l' := by
  induction h generalizing l' with
  | root hc =>
    rcases h' with hc' | ⟨hc', -⟩
    · rfl
    · cases hc.symm.trans hc'
  | cons hc h ih =>
    rcases h' with hc' | ⟨hc', h'⟩
    · cases hc.symm.trans hc'
    · cases hc.symm.trans hc'
      rw [ih h']

theorem defined : ∀ t ∈ l, parent t ≠ none := by
  induction h with
  | root hc =>
    intro t ht
    rw [mem_singleton.1 ht, hc]
    exact some_ne_none _
  | cons hc h ih =>
    intro t ht
    rcases mem_cons.1 ht with rfl | ht
    · rw [hc]
      exact some_ne_none _
    · exact ih t ht

theorem grow (ht : parent t = none) (x : Option (Option Name)) :
    Path (update parent t x) c l := by
  have hne : ∀ {c y}, parent c = some y → update parent t x c = some y := by
    intro c y hc
    rw [update_of_ne, hc]
    rintro rfl
    cases hc.symm.trans ht
  induction h with
  | root hc => exact .root (hne hc)
  | cons hc h ih => exact .cons (hne hc) ih

theorem head : c ∈ l := by
  cases h with
  | root => exact mem_singleton_self c
  | cons => exact mem_cons_self

theorem suffix (ht : t ∈ l) : ∃ l', Path parent t l' ∧ l'.length ≤ l.length := by
  induction h with
  | root hc =>
    rw [mem_singleton.1 ht]
    exact ⟨_, .root hc, le_rfl⟩
  | cons hc h ih =>
    rcases mem_cons.1 ht with rfl | ht
    · exact ⟨_, .cons hc h, le_rfl⟩
    · obtain ⟨l', hl', hle⟩ := ih ht
      exact ⟨l', hl', Nat.le_succ_of_le hle⟩

theorem nodup : l.Nodup := by
  induction h with
  | root hc => exact nodup_singleton _
  | cons hc h ih =>
    refine nodup_cons.2 ⟨fun hmem => ?_, ih⟩
    obtain ⟨l', hl', hle⟩ := h.suffix hmem
    rw [← (Path.cons hc h).eq hl', length_cons] at hle
    exact absurd hle (Nat.not_succ_le_self _)

end

end Path
end Paths

inductive Kind
  | cls
  | front
  | behind
  | made

/-- What each table is for, and what the classes and instances look like. -/
structure Inv (kind : Nat → Kind) (s : St) : Prop where
  cls : ∀ c r, s.classes c = some r → r < s.next ∧ kind r = .cls ∧ Cls (s.heap.tables r) (s.methods c) c r
  above : ∀ c r, s.classes c = some r → ∃ par, s.parent c = some par ∧
    (s.heap.tables r).metatable = par.bind s.classes ∧ ∀ p ∈ par, s.classes p ≠ none
  free : ∀ c, s.classes c = none → s.parent c = none ∧ s.isofclass c = none
  path : ∀ c, s.classes c ≠ none → ∃ l, Path s.parent c l ∧ l.length ≤ 99
  below : ∀ t, s.classes t ≠ none → ∃ names, s.isofclass t = some names ∧
    ∀ c, names c = true ↔ ∃ l, Path s.parent c l ∧ t ∈ l
  ctor : ∀ x ∈ s.ctors, x.1 < s.next ∧ kind x.1 = .front ∧ ∃ mt r, mt < s.next ∧ kind mt = .behind ∧
    s.classes x.2 = some r ∧ s.heap.tables x.1 = front mt ∧ s.heap.tables mt = behind r
  made : ∀ x ∈ s.made, x.1 < s.next ∧ kind x.1 = .made ∧ ∃ r, s.classes x.2 = some r ∧
    (s.heap.tables x.1).metatable = some r

theorem inv_init : Inv (fun _ => .cls) init := by
  refine ⟨?_, ?_, fun c _ => ⟨rfl, rfl⟩, fun c hc => absurd rfl hc, fun c hc => absurd rfl hc, ?_, ?_⟩
  · rintro c r ⟨⟩
  · rintro c r ⟨⟩
  · exact fun x hx => absurd hx not_mem_nil
  · exact fun x hx => absurd hx not_mem_nil

section Looks
variable {kind : Nat → Kind} {s : St} {c t p : Name} {l : List Name} {r i : Nat}

theorem rawget_event (h : Heap Fn) (r : Nat) (e : String) : h.rawget r (event e) = (h.tables r).fields (event e) := rfl

theorem rawget_str (h : Heap Fn) (r : Nat) (m : Name) : h.rawget r (.str m) = (h.tables r).fields (.str m) := rfl

theorem metamethod_table {h : Heap Fn} {q : Nat} {e : String} (hm : (h.tables r).metatable = some q) :
    h.metamethod (.table r) e = (h.tables q).fields (event e) := by
  have hmeta : h.metatable (.table r) = some q := hm
  unfold Heap.metamethod
  rw [hmeta]
  rfl

theorem metamethod_none {h : Heap Fn} {e : String} (hm : (h.tables r).metatable = none) :
    h.metamethod (.table r) e = .nil := by
  have hmeta : h.metatable (.table r) = none := hm
  unfold Heap.metamethod
  rw [hmeta]

namespace Inv

section
variable (h : Inv kind s)
include h

theorem classes_of_parent (hc : s.parent c ≠ none) : s.classes c ≠ none :=
  fun hn => hc (h.free c hn).1

theorem parent_of_classes (hc : s.classes c ≠ none) : s.parent c ≠ none := by
  obtain ⟨r, hr⟩ := ne_none_iff_exists'.1 hc
  obtain ⟨par, hpar, -⟩ := h.above c r hr
  rw [hpar]
  exact some_ne_none par

theorem metatable_root (hc : s.classes c = some r) (hp : s.parent c = some none) :
    (s.heap.tables r).metatable = none := by
  obtain ⟨par, hpar, hmeta, -⟩ := h.above c r hc
  cases hp.symm.trans hpar
  exact hmeta

theorem metatable_child (hc : s.classes c = some r) (hp : s.parent c = some (some p)) :
    ∃ q, s.classes p = some q ∧ (s.heap.tables r).metatable = some q := by
  obtain ⟨par, hpar, hmeta, hdef⟩ := h.above c r hc
  cases hp.symm.trans hpar
  obtain ⟨q, hq⟩ := ne_none_iff_exists'.1 (hdef p rfl)
  exact ⟨q, hq, hmeta.trans hq⟩

theorem lookup (m : Method) (hl : Path s.parent c l) : ∀ {r n}, s.classes c = some r → l.length ≤ n →
    gettableIn s.heap n (.table r) (.str m.1) = .value (nearest s.methods m.1 l) := by
  induction hl with
  | @root c hp =>
    intro r n hc hn
    obtain ⟨n, rfl⟩ := Nat.exists_eq_succ_of_ne_zero (Nat.pos_iff_ne_zero.1 hn)
    have hraw : s.heap.rawget r (.str m.1) = s.methods c m.1 := (h.cls c r hc).2.2.method m
    unfold nearest
    by_cases hm : s.methods c m.1 = .nil
    · rw [if_pos hm, gettableIn_none (hraw.trans hm) (metamethod_none (h.metatable_root hc hp))]
      rfl
    · rw [if_neg hm, gettableIn_present (fun hn => hm (hraw.symm.trans hn)), hraw]
  | @cons c p l hp hl ih =>
    intro r n hc hn
    obtain ⟨n, rfl⟩ := Nat.exists_eq_succ_of_ne_zero (show n ≠ 0 by rw [length_cons] at hn; omega)
    have hraw : s.heap.rawget r (.str m.1) = s.methods c m.1 := (h.cls c r hc).2.2.method m
    unfold nearest
    by_cases hm : s.methods c m.1 = .nil
    · obtain ⟨q, hq, hmeta⟩ := h.metatable_child hc hp
      have hindex : s.heap.metamethod (.table r) "__index" = .table q :=
        (metamethod_table hmeta).trans (h.cls p q hq).2.2.index
      rw [if_pos hm, gettableIn_table (hraw.trans hm) hindex]
      exact ih hq (Nat.le_of_succ_le_succ hn)
    · rw [if_neg hm, gettableIn_present (fun hn => hm (hraw.symm.trans hn)), hraw]

theorem path_le (hl : Path s.parent c l) : l.length ≤ s.next := by
  have href : ∀ t ∈ l, ∃ r, s.classes t = some r := fun t ht =>
    ne_none_iff_exists'.1 (h.classes_of_parent (hl.defined t ht))
  have hinj : ∀ t ∈ l, ∀ t' ∈ l, (s.classes t).getD 0 = (s.classes t').getD 0 → t = t' := by
    intro t ht t' ht' he
    obtain ⟨r, hr⟩ := href t ht
    obtain ⟨r', hr'⟩ := href t' ht'
    rw [hr, hr'] at he
    obtain rfl : r = r' := he
    exact Val.str.inj ((h.cls t r hr).2.2.typename.symm.trans (h.cls t' r hr').2.2.typename)
  have hnd : (l.map fun t => (s.classes t).getD 0).Nodup := List.Nodup.map_on hinj hl.nodup
  have hsub : (l.map fun t => (s.classes t).getD 0).toFinset ⊆ Finset.range s.next := by
    intro r hr
    obtain ⟨t, ht, rfl⟩ := mem_map.1 (mem_toFinset.1 hr)
    obtain ⟨r, hr⟩ := href t ht
    rw [hr]
    exact Finset.mem_range.2 (h.cls t r hr).1
  have hcard := Finset.card_le_card hsub
  rwa [toFinset_card_of_nodup hnd, length_map, Finset.card_range] at hcard

theorem instance_istype (hc : s.classes c = some r) (hi : (s.heap.tables i).metatable = some r)
    (hl : Path s.parent c l) (ht : s.parent t ≠ none) : Class.istype s (.table i) t = some (decide (t ∈ l)) := by
  obtain ⟨-, -, hcls⟩ := h.cls c r hc
  obtain ⟨names, hnames, hmem⟩ := h.below t (h.classes_of_parent ht)
  have hmeta : s.heap.getmetatable (.table i) = .table r := getmetatable_some hi hcls.unprotected
  have hdec : names c = decide (t ∈ l) := by
    refine Bool.eq_iff_iff.2 ((hmem c).trans ?_)
    rw [decide_eq_true_iff]
    constructor
    · rintro ⟨l', hl', hmem'⟩
      rwa [hl.eq hl']
    · exact fun hmem' => ⟨l, hl, hmem'⟩
  have hname : s.heap.rawget r (event "__typename") = .str c := hcls.typename
  unfold Class.istype
  rw [hmeta]
  dsimp only
  rw [hname, hnames]
  exact congrArg some hdec

theorem right : Right s := by
  refine ⟨fun c => ?_, fun x hx => ?_⟩
  · rw [isSome_iff_ne_none, isSome_iff_ne_none]
    exact ⟨h.parent_of_classes, h.classes_of_parent⟩
  obtain ⟨-, -, r, hc, hi⟩ := h.made x hx
  have hdef : s.classes x.2 ≠ none := by
    rw [hc]
    exact some_ne_none r
  obtain ⟨l, hl, hlen⟩ := h.path x.2 hdef
  refine ⟨l, hl, fun t ht => h.instance_istype hc hi hl (isSome_iff_ne_none.1 ht), fun m hm => ?_⟩
  have hindex : s.heap.metamethod (.table x.1) "__index" = .table r :=
    (metamethod_table hi).trans (h.cls x.2 r hc).2.2.index
  exact (gettableIn_table hm hindex).trans (h.lookup m hl hc hlen)

end

end Inv
end Looks

/-! ### Marking the ancestors -/

section Marking
variable {kind : Nat → Kind} {s : St} {p : Name} {l : List Name}

theorem Inv.mark_path (h : Inv kind s) {heap : Heap Fn} (hheap : ∀ r < s.next, heap.tables r = s.heap.tables r)
    (name : Name) (hl : Path s.parent p l) : ∀ {q n iso}, s.classes p = some q → l.length < n →
    (∀ t ∈ l, iso t ≠ none) → ∃ iso', mark heap name n iso (.table q) = some (iso', false) ∧
      ∀ t, iso' t = if t ∈ l then (iso t).map fun names => update names name true else iso t := by
  have hturn : ∀ {p q n names iso}, s.classes p = some q → iso p = some names → mark heap name (n + 1) iso (.table q) =
      mark heap name n (update iso p (some (update names name true))) (heap.getmetatable (.table q)) := by
    intro p q n names iso hq hnames
    obtain ⟨hlt, -, hcls⟩ := h.cls p q hq
    have hname : heap.rawget q (event "__typename") = .str p := by
      rw [rawget_event, hheap q hlt]
      exact hcls.typename
    have hget : gettable heap (.table q) (event "__typename") = .value (.str p) := by
      rw [gettable_present (by rw [hname]; rintro ⟨⟩), hname]
    rw [mark, hget]
    dsimp only
    rw [hnames]
    rfl
  induction hl with
  | @root p hp =>
    intro q n iso hq hn hdef
    obtain ⟨n, rfl⟩ := Nat.exists_eq_add_of_le' (show 2 ≤ n from hn)
    obtain ⟨names, hnames⟩ := ne_none_iff_exists'.1 (hdef p (mem_singleton_self p))
    have hmeta : heap.getmetatable (.table q) = .nil := by
      refine getmetatable_none (show (heap.tables q).metatable = none from ?_)
      rw [hheap q (h.cls p q hq).1]
      exact h.metatable_root hq hp
    refine ⟨update iso p (some (update names name true)), ?_, fun t => ?_⟩
    · rw [hturn hq hnames, hmeta]
      rfl
    · by_cases ht : t = p
      · subst ht
        rw [update_self, if_pos (mem_singleton_self t), hnames]
        rfl
      · rw [update_of_ne ht, if_neg (fun hm => ht (mem_singleton.1 hm))]
  | @cons c p l hp hl ih =>
    intro q n iso hq hn hdef
    obtain ⟨n, rfl⟩ := Nat.exists_eq_succ_of_ne_zero (show n ≠ 0 by omega)
    obtain ⟨names, hnames⟩ := ne_none_iff_exists'.1 (hdef c mem_cons_self)
    obtain ⟨q', hq', hmeta⟩ := h.metatable_child hq hp
    have hup : heap.getmetatable (.table q) = .table q' := by
      refine getmetatable_some (show (heap.tables q).metatable = some q' from ?_) ?_
      · rw [hheap q (h.cls c q hq).1]
        exact hmeta
      · rw [rawget_event, hheap q' (h.cls p q' hq').1]
        exact (h.cls p q' hq').2.2.unprotected
    have hdef' : ∀ t ∈ l, update iso c (some (update names name true)) t ≠ none := by
      intro t ht
      by_cases htc : t = c
      · subst htc
        rw [update_self]
        exact some_ne_none _
      · rw [update_of_ne htc]
        exact hdef t (mem_cons_of_mem c ht)
    rw [length_cons] at hn
    obtain ⟨iso', hmark, hiso⟩ := ih hq' (show l.length < n by omega) hdef'
    refine ⟨iso', ?_, fun t => ?_⟩
    · rw [Nat.succ_eq_add_one, hturn hq hnames, hup, hmark]
    rw [hiso t]
    by_cases htc : t = c
    · subst htc
      rw [update_self, if_pos mem_cons_self, hnames]
      by_cases htl : t ∈ l
      · rw [if_pos htl, map_some, map_some, update_idem]
      · rw [if_neg htl, map_some]
    · rw [update_of_ne htc]
      by_cases htl : t ∈ l
      · rw [if_pos htl, if_pos (mem_cons_of_mem c htl)]
      · rw [if_neg htl, if_neg fun hm => htl ((mem_cons.1 hm).resolve_left htc)]

end Marking

section Definitions
variable {kind : Nat → Kind} {s : St} {name p : Name} {l : List Name} {q : Nat}

def St.linked (s : St) (name : Name) (metatable : Option Nat) : Heap Fn :=
  { s.heap with tables := update s.heap.tables s.next { newclass name s.next with metatable := metatable } }

/-- The state after a definition that returns. -/
def St.add (s : St) (name : Name) (par : Option Name) (metatable : Option Nat) (iso : Name → Option (Name → Bool)) : St :=
  ({ s with
    heap := s.linked name metatable
    next := s.next + 1
    classes := update s.classes name (some s.next)
    isofclass := iso } : St).defined s.next name par

theorem new_absent (hname : s.classes name = none) : new s (some name) .absent =
    some (s.add name none none (update s.isofclass name (some fun n => n = name))) := by
  unfold new
  dsimp only
  rw [hname]
  rfl

theorem new_name (hname : s.classes name = none) (hp : s.classes p = some q) (hne : p ≠ name) {iso}
    (hmark : mark (s.linked name (some q)) name (s.next + 1 + 1)
      (update s.isofclass name (some fun n => n = name)) (.table q) = some (iso, false)) :
    new s (some name) (.name p) = some (s.add name (some p) (some q) iso) := by
  have hp' : (s.register name).classes p = some q := by
    show update s.classes name (some s.next) p = some q
    rw [update_of_ne hne, hp]
  have hset : (s.register name).heap.setmetatable (.table s.next) (.table q) =
      some (s.linked name (some q)) := by
    have hself : ((s.register name).heap.tables s.next) = newclass name s.next := update_self ..
    have hnone : (s.register name).heap.metamethod (.table s.next) "__metatable" = .nil := by
      refine metamethod_none ?_
      rw [hself]
      rfl
    refine (if_pos hnone).trans ?_
    show some ((s.register name).heap.setmeta s.next (some q)) = _
    unfold Heap.setmeta
    rw [hself]
    have htab : (s.register name).heap.tables = update s.heap.tables s.next (newclass name s.next) := rfl
    rw [htab, update_idem]
    rfl
  unfold new
  dsimp only
  rw [hname, hp']
  dsimp only
  rw [hset]
  dsimp only
  have hmark' : mark _ name ((s.register name).next + 1) (s.register name).isofclass (.table q) = _ := hmark
  rw [hmark']
  rfl

end Definitions

section Kept
variable {kind : Nat → Kind} {s : St} {name c : Name} {par : Option Name} {l : List Name} {q r i ct : Nat} {o : Out}
  {x : Option Nat} {k v : Value} {m : Method}

def grown (kind : Nat → Kind) (n : Nat) (r : Nat) : Kind :=
  if r < n then kind r else if r = n then .cls else if r = n + 1 then .behind else .front

theorem grown_lt {n : Nat} (h : r < n) : grown kind n r = kind r := if_pos h

theorem add_tables (s : St) (name : Name) (par : Option Name) (x : Option Nat) (iso : Name → Option (Name → Bool)) :
    (∀ r < s.next, (s.add name par x iso).heap.tables r = s.heap.tables r) ∧
      (s.add name par x iso).heap.tables s.next = { newclass name s.next with metatable := x } ∧
      (s.add name par x iso).heap.tables (s.next + 1) = behind s.next ∧
      (s.add name par x iso).heap.tables (s.next + 2) = front (s.next + 1) := by
  have htab : (s.add name par x iso).heap.tables = update (update (update s.heap.tables s.next
      { newclass name s.next with metatable := x }) (s.next + 1) (behind s.next)) (s.next + 1 + 1) (front (s.next + 1)) := rfl
  rw [htab]
  refine ⟨fun r hr => ?_, ?_, ?_, update_self ..⟩
  · have h0 : r ≠ s.next := by omega
    have h1 : r ≠ s.next + 1 := by omega
    have h2 : r ≠ s.next + 1 + 1 := by omega
    rw [update_of_ne h2, update_of_ne h1, update_of_ne h0]
  · have h1 : s.next ≠ s.next + 1 := by omega
    have h2 : s.next ≠ s.next + 1 + 1 := by omega
    rw [update_of_ne h2, update_of_ne h1, update_self]
  · rw [update_of_ne (Nat.succ_ne_self _).symm, update_self]

namespace Inv

theorem add (h : Inv kind s) (hname : s.classes name = none) {iso : Name → Option (Name → Bool)}
    (hpar : par = none ∧ x = none ∧ l = [] ∨ ∃ p q, par = some p ∧ x = some q ∧ s.classes p = some q ∧ Path s.parent p l ∧
      l.length < 99)
    (hiso : ∀ t, iso t = if t = name then some (fun n => decide (n = name)) else
      if t ∈ l then (s.isofclass t).map fun names => update names name true else s.isofclass t) :
    Inv (grown kind s.next) (s.add name par x iso) := by
  obtain ⟨hold, hcls, hbehind, hfront⟩ := add_tables s name par x iso
  have hfree := (h.free name hname).1
  have hnew : (s.add name par x iso).classes = update s.classes name (some s.next) := rfl
  have hparent : (s.add name par x iso).parent = update s.parent name (some par) := rfl
  have hmethods : (s.add name par x iso).methods =
      update s.methods name fun m => if m = lit "__init" then .fn .init else .nil := rfl
  have hnext : (s.add name par x iso).next = s.next + 3 := rfl
  have hne : ∀ {c r}, s.classes c = some r → c ≠ name := by
    rintro c r hc rfl
    cases hc.symm.trans hname
  -- the path of the new class, and the old ones
  have hpath : Path (s.add name par x iso).parent name (name :: l) := by
    rw [hparent]
    rcases hpar with ⟨rfl, -, rfl⟩ | ⟨p, q, rfl, -, hp, hl, -⟩
    · exact .root (update_self ..)
    · exact .cons (update_self ..) (hl.grow hfree _)
  have hpath' : ∀ {c l'}, Path s.parent c l' → Path (s.add name par x iso).parent c l' := by
    intro c l' hl'
    rw [hparent]
    exact hl'.grow hfree _
  have hmem : ∀ {c r}, s.classes c = some r → (s.add name par x iso).classes c = some r := by
    intro c r hc
    rw [hnew, update_of_ne (hne hc), hc]
  have hcases : ∀ {c r}, (s.add name par x iso).classes c = some r → c = name ∧ r = s.next ∨ s.classes c = some r := by
    intro c r hc
    rw [hnew] at hc
    by_cases hcn : c = name
    · rw [hcn, update_self] at hc
      exact .inl ⟨hcn, (Option.some.inj hc).symm⟩
    · rw [update_of_ne hcn] at hc
      exact .inr hc
  refine ⟨fun c r hc => ?_, fun c r hc => ?_, fun c hc => ?_, fun c hc => ?_, fun t ht => ?_, fun y hy => ?_,
    fun y hy => ?_⟩
  · rcases hcases hc with ⟨rfl, rfl⟩ | hc
    · refine ⟨by omega, ?_, ?_⟩
      · rw [grown, if_neg (lt_irrefl _), if_pos rfl]
      · have hfields := cls_newclass c s.next
        rw [hcls, hmethods, update_self]
        exact ⟨hfields.typename, hfields.factory, hfields.new, hfields.index, hfields.newindex, hfields.unprotected,
          hfields.method⟩
    · obtain ⟨hlt, hkind, hfields⟩ := h.cls c r hc
      rw [grown_lt hlt, hold r hlt, hmethods, update_of_ne (hne hc)]
      exact ⟨by omega, hkind, hfields⟩
  · rcases hcases hc with ⟨rfl, rfl⟩ | hc
    · refine ⟨par, by rw [hparent, update_self], ?_, ?_⟩
      · rw [hcls]
        rcases hpar with ⟨rfl, rfl, -⟩ | ⟨p, q, rfl, rfl, hp, -⟩
        · rfl
        · exact (hmem hp).symm
      rintro p hp
      rcases hpar with ⟨rfl, -⟩ | ⟨p', q, rfl, -, hp', -⟩
      · cases hp
      · cases hp
        rw [hmem hp']
        exact some_ne_none q
    obtain ⟨par', hpar', hmeta, hdef⟩ := h.above c r hc
    refine ⟨par', by rw [hparent, update_of_ne (hne hc), hpar'], ?_, fun p hp => ?_⟩
    · rw [hold r (h.cls c r hc).1, hmeta]
      rcases par' with _ | p
      · rfl
      · obtain ⟨q', hq'⟩ := ne_none_iff_exists'.1 (hdef p rfl)
        show s.classes p = (s.add name par x iso).classes p
        rw [hmem hq', hq']
    · obtain ⟨q', hq'⟩ := ne_none_iff_exists'.1 (hdef p hp)
      rw [hmem hq']
      exact some_ne_none q'
  · have hcn : c ≠ name := by
      rintro rfl
      rw [hnew, update_self] at hc
      cases hc
    rw [hnew, update_of_ne hcn] at hc
    obtain ⟨hfr, hisofr⟩ := h.free c hc
    refine ⟨by rw [hparent, update_of_ne hcn, hfr], ?_⟩
    show iso c = none
    rw [hiso c, if_neg hcn, hisofr]
    split_ifs <;> rfl
  · by_cases hcn : c = name
    · refine ⟨name :: l, hcn ▸ hpath, ?_⟩
      rcases hpar with ⟨-, -, rfl⟩ | ⟨p, q, -, -, -, -, hlen⟩
      · exact Nat.succ_le_succ zero_le
      · rw [length_cons]
        omega
    · rw [hnew, update_of_ne hcn] at hc
      obtain ⟨l', hl', hlen⟩ := h.path c hc
      exact ⟨l', hpath' hl', hlen⟩
  · -- what is below a class
    have hold' : ∀ {c l'}, c ≠ name → Path (s.add name par x iso).parent c l' → s.classes c ≠ none → Path s.parent c l' := by
      intro c l' hcn hl' hc
      obtain ⟨l₀, hl₀, -⟩ := h.path c hc
      rwa [hl'.eq (hpath' hl₀)]
    have hdefined : ∀ {c l'}, c ≠ name → Path (s.add name par x iso).parent c l' → s.classes c ≠ none := by
      intro c l' hcn hl' hc
      have hno : (s.add name par x iso).parent c = none := by
        rw [hparent, update_of_ne hcn, (h.free c hc).1]
      exact hl'.defined c hl'.head hno
    have hiff : ∀ {c} t, c ≠ name →
        ((∃ l', Path (s.add name par x iso).parent c l' ∧ t ∈ l') ↔ ∃ l', Path s.parent c l' ∧ t ∈ l') := by
      intro c t hcn
      constructor
      · rintro ⟨l', hl', ht'⟩
        exact ⟨l', hold' hcn hl' (hdefined hcn hl'), ht'⟩
      · rintro ⟨l', hl', ht'⟩
        exact ⟨l', hpath' hl', ht'⟩
    have hself : ∀ t, (∃ l', Path (s.add name par x iso).parent name l' ∧ t ∈ l') ↔ t ∈ name :: l := by
      intro t
      constructor
      · rintro ⟨l', hl', ht'⟩
        rwa [hl'.eq hpath] at ht'
      · exact fun ht' => ⟨_, hpath, ht'⟩
    have hnl : name ∉ l := by
      rcases hpar with ⟨-, -, rfl⟩ | ⟨p, q, -, -, -, hl, -⟩
      · exact not_mem_nil
      · exact fun hm => hl.defined name hm hfree
    show ∃ names, iso t = some names ∧ _
    rw [hiso t]
    by_cases htn : t = name
    · rw [if_pos htn]
      refine ⟨_, rfl, fun c => ?_⟩
      rw [decide_eq_true_iff]
      by_cases hcn : c = name
      · rw [hcn, hself, htn]
        exact ⟨fun _ => mem_cons_self, fun _ => rfl⟩
      · refine ⟨fun hc => absurd hc hcn, ?_⟩
        rintro ⟨l', hl', ht'⟩
        exact absurd hfree ((hold' hcn hl' (hdefined hcn hl')).defined name (htn ▸ ht'))
    rw [if_neg htn]
    have htc : s.classes t ≠ none := by
      rwa [hnew, update_of_ne htn] at ht
    obtain ⟨names, hnames, hbelow⟩ := h.below t htc
    rw [hnames]
    by_cases htl : t ∈ l
    · rw [if_pos htl]
      refine ⟨update names name true, rfl, fun c => ?_⟩
      by_cases hcn : c = name
      · rw [hcn, update_self, hself]
        exact ⟨fun _ => mem_cons_of_mem name htl, fun _ => rfl⟩
      · rw [update_of_ne hcn, hbelow, hiff t hcn]
    rw [if_neg htl]
    refine ⟨names, rfl, fun c => ?_⟩
    by_cases hcn : c = name
    · rw [hcn, hself]
      constructor
      · intro hn
        obtain ⟨l', hl', -⟩ := (hbelow name).1 hn
        exact absurd hfree (hl'.defined name hl'.head)
      · exact fun hm => absurd ((mem_cons.1 hm).resolve_left htn) htl
    · rw [hbelow, hiff t hcn]
  · have hctors : (s.add name par x iso).ctors = (s.next + 2, name) :: s.ctors := rfl
    rw [hctors] at hy
    rcases mem_cons.1 hy with rfl | hy
    · refine ⟨by omega, ?_, s.next + 1, s.next, by omega, ?_, ?_, hfront, hbehind⟩
      · exact (if_neg (by omega)).trans ((if_neg (by omega)).trans (if_neg (by omega)))
      · exact (if_neg (by omega)).trans ((if_neg (by omega)).trans (if_pos rfl))
      · rw [hnew, update_self]
    · obtain ⟨hlt, hkind, mt, r, hmt, hkmt, hc, hct, hm⟩ := h.ctor y hy
      refine ⟨by omega, by rw [grown_lt hlt, hkind], mt, r, by omega, by rw [grown_lt hmt, hkmt], hmem hc, ?_, ?_⟩
      · rw [hold _ hlt, hct]
      · rw [hold _ hmt, hm]
  · obtain ⟨hlt, hkind, r, hc, hi⟩ := h.made y hy
    refine ⟨by omega, by rw [grown_lt hlt, hkind], r, hmem hc, ?_⟩
    rw [hold _ hlt, hi]

end Inv
end Kept

section Others
variable {kind : Nat → Kind} {s : St} {c : Name} {r i ct : Nat} {o : Out} {k v : Value} {m : Method}

theorem put_methods (s : St) (t k v : Value) : (put s t k v).methods = s.methods := by
  unfold put
  split <;> rfl

theorem rawset_tables (h : Heap Fn) (r : Nat) {k v : Value} {x : Nat} (hx : x ≠ r) :
    (h.rawset r k v).tables x = h.tables x := by
  unfold Heap.rawset
  split
  · exact update_of_ne hx ..
  · rfl

namespace Inv

section
variable (h : Inv kind s)
include h

theorem out (o : Out) : Inv kind { s with out := o } :=
  ⟨h.cls, h.above, h.free, h.path, h.below, h.ctor, h.made⟩

theorem instantiate (hc : s.classes c = some r) : ∃ kind', Inv kind' (Class.instantiate s (.table r) c) := by
  have hfactory : s.heap.rawget r (event "__factory") = .fn (.factory r) := (h.cls c r hc).2.2.factory
  have hget : gettable s.heap (.table r) (event "__factory") = .value (.fn (.factory r)) := by
    rw [gettable_present (by rw [hfactory]; rintro ⟨⟩), hfactory]
  have hold : ∀ x < s.next, (s.alloc ⟨fun _ => .nil, some r⟩).heap.tables x = s.heap.tables x := fun x hx =>
    update_of_ne (ne_of_lt hx) ..
  have hkind : ∀ x < s.next, update kind s.next .made x = kind x := fun x hx =>
    update_of_ne (ne_of_lt hx) ..
  have hself : (s.alloc ⟨fun _ => .nil, some r⟩).heap.tables s.next = ⟨fun _ => .nil, some r⟩ := update_self ..
  unfold Class.instantiate
  rw [hget]
  dsimp only
  refine ⟨update kind s.next .made, ⟨fun c' r' hc' => ?_, fun c' r' hc' => ?_, h.free, h.path, h.below,
    fun y hy => ?_, fun y hy => ?_⟩⟩
  · obtain ⟨hlt, hk, hcls⟩ := h.cls c' r' hc'
    refine ⟨Nat.lt_succ_of_lt hlt, (hkind r' hlt).trans hk, ?_⟩
    show Cls ((s.alloc ⟨fun _ => .nil, some r⟩).heap.tables r') _ _ _
    rw [hold r' hlt]
    exact hcls
  · obtain ⟨par, hpar, hmeta, hdef⟩ := h.above c' r' hc'
    exact ⟨par, hpar, (congrArg Table.metatable (hold r' (h.cls c' r' hc').1)).trans hmeta, hdef⟩
  · obtain ⟨hlt, hk, mt, r', hmt, hkmt, hc', hct, hm⟩ := h.ctor y hy
    exact ⟨Nat.lt_succ_of_lt hlt, (hkind _ hlt).trans hk, mt, r', Nat.lt_succ_of_lt hmt, (hkind _ hmt).trans hkmt, hc',
      (hold _ hlt).trans hct, (hold _ hmt).trans hm⟩
  · rcases mem_cons.1 hy with rfl | hy
    · exact ⟨Nat.lt_succ_self _, update_self .., r, hc, congrArg Table.metatable hself⟩
    · obtain ⟨hlt, hk, r', hc', hi⟩ := h.made y hy
      exact ⟨Nat.lt_succ_of_lt hlt, (hkind _ hlt).trans hk, r', hc', (congrArg Table.metatable (hold _ hlt)).trans hi⟩

theorem construct (hx : (ct, c) ∈ s.ctors) : ∃ kind', Inv kind' (Class.construct s ct c) := by
  obtain ⟨-, -, mt, r, -, -, hc, hct, hmt⟩ := h.ctor _ hx
  have hraw : s.heap.rawget ct (event "new") = .nil := by
    rw [rawget_event, hct]
    rfl
  have hindex : s.heap.metamethod (.table ct) "__index" = .table r := by
    rw [metamethod_table (congrArg Table.metatable hct), hmt]
    exact (behind_fields r).1
  have hnew : s.heap.rawget r (event "new") = .fn (.new r) := (h.cls c r hc).2.2.new
  have hget : gettable s.heap (.table ct) (event "new") = .value (.fn (.new r)) := by
    unfold gettable
    rw [gettableIn_table hraw hindex, gettableIn_present (by rw [hnew]; rintro ⟨⟩), hnew]
  unfold Class.construct
  rw [hget]
  exact h.instantiate hc

theorem store (hx : (i, c) ∈ s.made) (k v : Value) : Inv kind (put s (.table i) k v) := by
  obtain ⟨-, hki, r, hc, hi⟩ := h.made _ hx
  have hset : ∀ o, Inv kind { s with heap := s.heap.rawset i k v, out := o } := by
    intro o
    have hne : ∀ {x}, kind x ≠ .made → x ≠ i := by
      rintro x hk rfl
      exact hk hki
    refine ⟨fun c' r' hc' => ?_, fun c' r' hc' => ?_, h.free, h.path, h.below, fun y hy => ?_, fun y hy => ?_⟩
    · obtain ⟨hlt, hk, hcls⟩ := h.cls c' r' hc'
      refine ⟨hlt, hk, ?_⟩
      show Cls ((s.heap.rawset i k v).tables r') _ _ _
      rw [rawset_tables s.heap i (hne (by rw [hk]; rintro ⟨⟩))]
      exact hcls
    · obtain ⟨par, hpar, hmeta, hdef⟩ := h.above c' r' hc'
      exact ⟨par, hpar, metatable_rawset.trans hmeta, hdef⟩
    · obtain ⟨hlt, hk, mt, r', hmt, hkmt, hc', hct, hm⟩ := h.ctor y hy
      refine ⟨hlt, hk, mt, r', hmt, hkmt, hc', ?_, ?_⟩
      · exact (rawset_tables s.heap i (hne (by rw [hk]; rintro ⟨⟩))).trans hct
      · exact (rawset_tables s.heap i (hne (by rw [hkmt]; rintro ⟨⟩))).trans hm
    · obtain ⟨hlt, hk, r', hc', hi'⟩ := h.made y hy
      exact ⟨hlt, hk, r', hc', metatable_rawset.trans hi'⟩
  have hnewindex : s.heap.metamethod (.table i) "__newindex" = .nil :=
    (metamethod_table hi).trans (h.cls c r hc).2.2.newindex
  unfold put
  by_cases hraw : s.heap.rawget i k = .nil
  · by_cases hkey : k.key = none
    · have hraised : settable s.heap (.table i) k v = .raised := by
        unfold settable settableIn
        refine (if_neg (not_not.2 hraw)).trans ?_
        rw [hnewindex]
        exact if_pos hkey
      rw [hraised]
      exact h.out _
    · rw [settable_plain hraw hnewindex hkey]
      exact hset _
  · rw [settable_present hraw]
    exact hset _

theorem assign (hx : (ct, c) ∈ s.ctors) (m : Method) (v : Value) :
    Inv kind { put s (.table ct) (.str m.1) v with
      methods := update s.methods c (update (s.methods c) m.1 v) } := by
  obtain ⟨-, hkct, mt, r, -, hkmt, hc, hct, hmt⟩ := h.ctor _ hx
  obtain ⟨-, hkr, hcls⟩ := h.cls c r hc
  have hraw : s.heap.rawget ct (.str m.1) = .nil := by
    rw [rawget_str, hct]
    rfl
  have hfront : s.heap.metamethod (.table ct) "__newindex" = .table r := by
    rw [metamethod_table (congrArg Table.metatable hct), hmt]
    exact (behind_fields r).2
  have hnewindex : s.heap.metamethod (.table r) "__newindex" = .nil := by
    obtain ⟨par, -, hmeta, hdef⟩ := h.above c r hc
    rcases par with _ | p
    · exact metamethod_none hmeta
    · obtain ⟨q, hq⟩ := ne_none_iff_exists'.1 (hdef p rfl)
      exact (metamethod_table (hmeta.trans hq)).trans (h.cls p q hq).2.2.newindex
  have hput : settable s.heap (.table ct) (.str m.1) v = .done (s.heap.rawset r (.str m.1) v) := by
    unfold settable
    rw [settableIn_table hraw hfront]
    by_cases hr : s.heap.rawget r (.str m.1) = .nil
    · exact settableIn_plain hr hnewindex (by rintro ⟨⟩)
    · exact settableIn_present hr
  have hself : (s.heap.rawset r (.str m.1) v).tables r =
      { s.heap.tables r with fields := update (s.heap.tables r).fields (.str m.1) v } := update_self ..
  have hown : ∀ {e : String}, lit e ∈ own →
      ((s.heap.rawset r (.str m.1) v).tables r).fields (event e) = (s.heap.tables r).fields (event e) := by
    intro e he
    rw [hself]
    exact update_of_ne (method_ne m he).symm ..
  have hmetatable : ∀ x, ((s.heap.rawset r (.str m.1) v).tables x).metatable = (s.heap.tables x).metatable := fun x =>
    metatable_rawset
  have hother : ∀ {x}, kind x ≠ .cls → (s.heap.rawset r (.str m.1) v).tables x = s.heap.tables x := by
    intro x hx
    refine rawset_tables s.heap r ?_
    rintro rfl
    exact hx hkr
  unfold put
  rw [hput]
  dsimp only
  refine ⟨fun c' r' hc' => ?_, fun c' r' hc' => ?_, h.free, h.path, h.below, fun y hy => ?_, fun y hy => ?_⟩
  · obtain ⟨hlt, hk, hcls'⟩ := h.cls c' r' hc'
    refine ⟨hlt, hk, ?_⟩
    show Cls ((s.heap.rawset r (.str m.1) v).tables r') (update s.methods c _ c') c' r'
    by_cases hr : r' = r
    · subst hr
      obtain rfl : c' = c := Val.str.inj (hcls'.typename.symm.trans hcls.typename)
      rw [update_self]
      refine ⟨(hown (by decide)).trans hcls.typename, (hown (by decide)).trans hcls.factory,
        (hown (by decide)).trans hcls.new, (hown (by decide)).trans hcls.index, (hown (by decide)).trans hcls.newindex,
        (hown (by decide)).trans hcls.unprotected, fun m' => ?_⟩
      rw [hself]
      by_cases hm : m'.1 = m.1
      · rw [hm, update_self]
        exact update_self ..
      · rw [update_of_ne hm, ← hcls.method m']
        exact update_of_ne (fun he => hm (Val.str.inj he)) ..
    · have hcc : c' ≠ c := by
        rintro rfl
        exact hr (Option.some.inj (hc'.symm.trans hc))
      rw [update_of_ne hcc, rawset_tables s.heap r hr]
      exact hcls'
  · obtain ⟨par, hpar, hmeta, hdef⟩ := h.above c' r' hc'
    exact ⟨par, hpar, (hmetatable r').trans hmeta, hdef⟩
  · obtain ⟨hlt, hk, mt', r', hmt', hkmt', hc', hct', hm'⟩ := h.ctor y hy
    refine ⟨hlt, hk, mt', r', hmt', hkmt', hc', ?_, ?_⟩
    · exact (hother (by rw [hk]; rintro ⟨⟩)).trans hct'
    · exact (hother (by rw [hkmt']; rintro ⟨⟩)).trans hm'
  · obtain ⟨hlt, hk, r', hc', hi'⟩ := h.made y hy
    exact ⟨hlt, hk, r', hc', (hmetatable _).trans hi'⟩

end

end Inv
end Others

section Runs
variable {s s' : St} {a : Act} {name p : Name}

def Good (s : St) : Prop := ∃ kind, Inv kind s

theorem mem_of_lookup {α β : Type} [DecidableEq α] {x : α} {y : β} : ∀ {l : List (α × β)}, l.lookup x = some y → (x, y) ∈ l
  | (z, w) :: l, h => by
    rw [lookup_cons] at h
    by_cases hz : x = z
    · rw [beq_iff_eq.2 hz] at h
      rw [hz, Option.some.inj h]
      exact mem_cons_self
    · rw [beq_eq_false_iff_ne.2 hz] at h
      exact mem_cons_of_mem _ (mem_of_lookup h)

theorem Good.out (h : Good s) (o : Out) : Good { s with out := o } := by
  obtain ⟨kind, h⟩ := h
  exact ⟨kind, h.out o⟩

theorem Good.new_absent (h : Good s) (hname : s.classes name = none) (hs : new s (some name) .absent = some s') :
    Good s' ∧ Kept s (.new (some name) .absent) s' := by
  obtain ⟨kind, h⟩ := h
  rw [Class.new_absent hname] at hs
  cases hs
  refine ⟨⟨_, h.add (l := []) hname (.inl ⟨rfl, rfl, rfl⟩) fun t => ?_⟩, trivial⟩
  by_cases ht : t = name
  · rw [ht, update_self, if_pos rfl]
  · rw [update_of_ne ht, if_neg ht, if_neg not_mem_nil]

theorem Good.new_name (h : Good s) (hname : s.classes name = none) (hp : ∃ l, Path s.parent p l ∧ l.length < 99)
    (hs : new s (some name) (.name p) = some s') : Good s' ∧ Kept s (.new (some name) (.name p)) s' := by
  obtain ⟨kind, h⟩ := h
  obtain ⟨l, hl, hlen⟩ := hp
  have hdef := h.classes_of_parent (hl.defined p hl.head)
  obtain ⟨q, hq⟩ := ne_none_iff_exists'.1 hdef
  have hne : p ≠ name := by
    rintro rfl
    exact hdef hname
  have hnot : name ∉ l := fun hm => hl.defined name hm (h.free name hname).1
  have hmarked : ∀ t ∈ l, update s.isofclass name (some fun n => decide (n = name)) t ≠ none := by
    intro t ht
    have htn : t ≠ name := by
      rintro rfl
      exact hnot ht
    obtain ⟨names, hnames, -⟩ := h.below t (h.classes_of_parent (hl.defined t ht))
    rw [update_of_ne htn, hnames]
    exact some_ne_none names
  have hturns : l.length < s.next + 1 + 1 := by
    have hle := h.path_le hl
    omega
  have hheap : ∀ r < s.next, (s.linked name (some q)).tables r = s.heap.tables r := fun r hr =>
    update_of_ne (ne_of_lt hr) ..
  obtain ⟨iso, hmark, hiso⟩ := h.mark_path hheap name hl hq hturns hmarked
  rw [Class.new_name hname hq hne hmark] at hs
  cases hs
  refine ⟨⟨_, h.add hname (.inr ⟨p, q, rfl, rfl, hq, hl, hlen⟩) fun t => ?_⟩, trivial⟩
  rw [hiso t]
  by_cases ht : t = name
  · rw [if_neg (ht ▸ hnot), ht, update_self, if_pos rfl]
  · rw [update_of_ne ht, if_neg ht]

theorem Good.new (h : Good s) {n : Option Name} {par : Parent} (hm : Meets s (.new n par))
    (hs : Class.new s n par = some s') : Good s' ∧ Kept s (.new n par) s' := by
  rcases n with _ | name
  · cases hs
    exact ⟨h.out _, rfl, rfl, rfl⟩
  by_cases hname : s.classes name = none
  · obtain ⟨kind, hi⟩ := h
    have hfree := (hi.free name hname).1
    rcases par with _ | p | _
    · exact Good.new_absent ⟨kind, hi⟩ hname hs
    · exact Good.new_name ⟨kind, hi⟩ hname (hm hfree) hs
    · exact absurd hfree hm
  · have hraise : Class.new s (some name) par = some (s.raise (lit "class <" ++ name ++ lit "> already exists")) :=
      if_pos (isSome_iff_ne_none.2 hname)
    cases hraise.symm.trans hs
    exact ⟨h.out _, rfl, rfl, rfl⟩

theorem step_good (h : Good s) (hm : Meets s a) (hs : step s a = some s') : Good s' ∧ Kept s a s' := by
  rcases a with ⟨n, par⟩ | ⟨ct, m, v⟩ | ct | n | ⟨i, k, v⟩
  · exact h.new hm hs
  · obtain ⟨c, hc, rfl⟩ := map_eq_some_iff.1 hs
    obtain ⟨kind, h⟩ := h
    refine ⟨⟨kind, ?_⟩, trivial⟩
    dsimp only
    rw [put_methods]
    exact h.assign (mem_of_lookup hc) m v
  · obtain ⟨c, hc, rfl⟩ := map_eq_some_iff.1 hs
    obtain ⟨kind, h⟩ := h
    exact ⟨h.construct (mem_of_lookup hc), trivial⟩
  · cases hs
    refine ⟨?_, trivial⟩
    rcases n with _ | name
    · exact h.out _
    obtain ⟨kind, h⟩ := h
    show Good (factory s (some name))
    unfold factory
    dsimp only
    rcases hc : s.classes name with _ | r
    · exact ⟨kind, h.out _⟩
    · exact h.instantiate hc
  · have hs' : (if (s.made.lookup i).isSome then some (put s (.table i) k v) else none) = some s' := hs
    split_ifs at hs' with hi
    cases hs'
    obtain ⟨c, hc⟩ := isSome_iff_exists.1 hi
    obtain ⟨kind, h⟩ := h
    exact ⟨⟨kind, h.store (mem_of_lookup hc) k v⟩, trivial⟩

theorem registry (acts : List Act) (h : Along step Meets init acts) :
    Each step Kept init acts ∧ Always step Right init acts := by
  have hinit : Good init := ⟨_, inv_init⟩
  refine ⟨h.each (fun s a s' hI hG hs => step_good hI hG hs) hinit, ?_⟩
  have halways := h.always (fun s a s' hI hG hs => (step_good hI hG hs).1) hinit
  exact halways.mono fun s hI => by
    obtain ⟨kind, hI⟩ := hI
    exact hI.right

/-- A class and a child of it. -/
theorem registry_child :
    let acts := [.new (some [65]) .absent, .new (some [66]) (.name [65]), .factory (some [66])]
    Each step Kept init acts ∧ Always step Right init acts := by
  intro acts
  refine registry acts (Along.cons trivial rfl (Along.cons (fun _ => ⟨[[65]], .root ?_, ?_⟩) rfl
    (Along.cons trivial rfl trivial)))
  · rfl
  · decide

/-- A class whose parent is unknown is registered all the same. -/
theorem registry_fails : ¬ ∀ acts : List Act, Each step Kept init acts ∧ Always step Right init acts := by
  intro h
  obtain ⟨⟨hclasses, -⟩, -⟩ := (h [.new (some [66]) (.name [80])]).1 _ rfl
  have hB : (init.register [66]).classes [66] = some 0 := by
    show update init.classes [66] (some 0) [66] = some 0
    exact update_self ..
  cases hB.symm.trans (congrFun hclasses [66])

end Runs

end Node9.Class
