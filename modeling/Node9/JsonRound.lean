import Node9.JsonRead

/-!
# Reading back what was encoded

`Plain` values are what the encoding keeps, and as an inductive predicate it holds of values without cycles only.
Their tables may be shared, and `pairs` may yield them in any order. `decode_encode`: what `encode` and
`encode_pretty` give for them is decoded to an equal value.
-/

namespace Node9.Json
open Buf Rfc8259 Lua Relation List

/-! ### Values seen from outside -/

/-- A value and, of a table, its pairs. -/
inductive Shape (V : Type)
  | nil
  | bool (b : Bool)
  | num (n : Number)
  | str (s : Bytes)
  | table (es : List (Key × V))
  | opaque_

def Heap.shape (h : Heap) : Val → Shape Val
  | .nil => .nil
  | .bool b => .bool b
  | .num n => .num n
  | .str s => .str s
  | .table r => .table (h.getD r [])
  | .opaque_ _ => .opaque_

def Value.shape : Value → Shape Value
  | nil => .nil
  | bool b => .bool b
  | num n => .num n
  | str s => .str s
  | table es => .table es

section Views
variable {V W : Type}

/-- Built from booleans, strings, integers up to 10^15, and tables that are arrays or have strings as keys. -/
inductive Plain (shape : V → Shape V) : V → Prop
  | bool {v : V} {b : Bool} : shape v = .bool b → Plain shape v
  | str {v : V} {s : Bytes} : shape v = .str s → Plain shape v
  | int {v : V} {neg : Bool} {n : Nat} : shape v = .num (.fin neg n) → n ≤ 10 ^ 15 → Plain shape v
  | array {v : V} {es : List (Key × V)} (us : List V) : shape v = .table es → es.Perm (indexed 0 us) → us ≠ [] →
      (∀ u ∈ us, Plain shape u) → Plain shape v
  | object {v : V} {es : List (Key × V)} : shape v = .table es → es ≠ [] → (∀ e ∈ es, ∃ k, e.1 = .str k) →
      (es.map Prod.fst).Nodup → (∀ e ∈ es, Plain shape e.2) → Plain shape v

/-- Equal values: tables have the same keys, with equal values. -/
inductive Equal (shape : V → Shape V) (shape' : W → Shape W) : V → W → Prop
  | bool {v : V} {w : W} {b : Bool} : shape v = .bool b → shape' w = .bool b → Equal shape shape' v w
  | str {v : V} {w : W} {s : Bytes} : shape v = .str s → shape' w = .str s → Equal shape shape' v w
  | num {v : V} {w : W} {n m : Number} : shape v = .num n → shape' w = .num m → n.eq m → Equal shape shape' v w
  | table {v : V} {w : W} {es : List (Key × V)} {fs : List (Key × W)} (ps : List (Key × V × W)) :
      shape v = .table es → shape' w = .table fs → es.Perm (ps.map fun p => (p.1, p.2.1)) →
      fs.Perm (ps.map fun p => (p.1, p.2.2)) → (∀ p ∈ ps, Equal shape shape' p.2.1 p.2.2) → Equal shape shape' v w

end Views

/-! ### Walking the heap -/

section Walk
variable {h : Heap} {n : Nat} {v : Val} {r : Ref} {seen : List Ref}

/-- `u` is in the table `v`. -/
def Child (h : Heap) (u v : Val) : Prop := ∃ r e, v = .table r ∧ e ∈ h.getD r [] ∧ e.2 = u

theorem table_of_shape {es : List (Key × Val)} (hs : h.shape v = .table es) : ∃ r, v = .table r ∧ h.getD r [] = es := by
  cases v with
  | table r => exact ⟨r, rfl, Shape.table.inj hs⟩
  | _ => cases hs

theorem Plain.acc (hv : Plain h.shape v) : Acc (Child h) v := by
  have hleaf : ∀ v, (∀ es, h.shape v ≠ .table es) → Acc (Child h) v := fun v hv => Acc.intro v fun u hu => by
    obtain ⟨r, e, rfl, -⟩ := hu
    exact absurd rfl (hv _)
  induction hv with
  | bool hs => exact hleaf _ fun es h => by cases hs.symm.trans h
  | str hs => exact hleaf _ fun es h => by cases hs.symm.trans h
  | int hs => exact hleaf _ fun es h => by cases hs.symm.trans h
  | array us hs hp _ _ ih =>
    obtain ⟨r, rfl, rfl⟩ := table_of_shape hs
    refine Acc.intro _ fun u hu => ?_
    obtain ⟨r', e, hr, he, rfl⟩ := hu
    cases hr
    exact ih _ (snd_mem_of_mem_indexed (hp.mem_iff.1 he))
  | object hs _ _ _ _ ih =>
    obtain ⟨r, rfl, rfl⟩ := table_of_shape hs
    refine Acc.intro _ fun u hu => ?_
    obtain ⟨r', e, hr, he, rfl⟩ := hu
    cases hr
    exact ih _ he

theorem Plain.ne_nil (hv : Plain h.shape v) : v ≠ .nil := by
  rintro rfl
  cases hv with
  | bool hs => cases hs
  | str hs => cases hs
  | int hs => cases hs
  | array us hs => cases hs
  | object hs => cases hs

/-- `v` is below all of `seen`, and there are more turns left than other tables. -/
structure Path (h : Heap) (n : Nat) (v : Val) (seen : List Ref) : Prop where
  nodup : seen.Nodup
  lt : ∀ r ∈ seen, r < h.length
  turns : h.length < n + seen.length
  above : ∀ r ∈ seen, TransGen (Child h) v (.table r)

namespace Path

theorem length_le (hp : Path h n v seen) : seen.length ≤ h.length := by
  have hsub : seen ⊆ List.range h.length := fun r hr => mem_range.2 (hp.lt r hr)
  have := (hp.nodup.subperm hsub).length_le
  rwa [length_range] at this

theorem start (h : Heap) (v : Val) : Path h (h.length + 1) v [] :=
  ⟨nodup_nil, fun _ hr => absurd hr not_mem_nil, Nat.lt_succ_self _, fun _ hr => absurd hr not_mem_nil⟩

theorem turn (hp : Path h n v seen) : ∃ n', n = n' + 1 :=
  Nat.exists_eq_succ_of_ne_zero fun h0 => by
    have := hp.turns
    have := hp.length_le
    omega

theorem not_mem (hp : Path h n (.table r) seen) (hacc : Acc (Child h) (.table r)) : r ∉ seen := by
  have hirr : ∀ v, Acc (TransGen (Child h)) v → ¬ TransGen (Child h) v v := fun v hv => by
    induction hv with
    | intro v _ ih => exact fun hvv => ih v hvv hvv
  exact fun hr => hirr _ hacc.transGen (hp.above r hr)

theorem step {e : Key × Val} (hp : Path h (n + 1) (.table r) seen) (hr : r ∉ seen) (he : e ∈ h.getD r []) :
    Path h n e.2 (r :: seen) := by
  have hchild : Child h e.2 (.table r) := ⟨r, e, rfl, he, rfl⟩
  refine ⟨nodup_cons.2 ⟨hr, hp.nodup⟩, ?_, ?_, ?_⟩
  · intro r' hr'
    rcases mem_cons.1 hr' with rfl | hr'
    · by_contra hlt
      rw [getD_eq_default _ _ (Nat.not_lt.1 hlt)] at he
      exact absurd he not_mem_nil
    · exact hp.lt r' hr'
  · have := hp.turns
    rw [length_cons]
    omega
  · intro r' hr'
    rcases mem_cons.1 hr' with rfl | hr'
    · exact .single hchild
    · exact .head hchild (hp.above r' hr')

end Path

end Walk

section Round
variable {ε α β γ : Type}

theorem mapM_ok {f : α → Except ε β} {g : γ → β} {Q : α → γ → Prop} {l : List α}
    (hl : ∀ x ∈ l, ∃ y, f x = .ok (g y) ∧ Q x y) : ∃ ys, l.mapM f = .ok (ys.map g) ∧ List.Forall₂ Q l ys := by
  induction l with
  | nil => exact ⟨[], rfl, .nil⟩
  | cons x l ih =>
    obtain ⟨y, hy, hQ⟩ := hl x mem_cons_self
    obtain ⟨ys, hys, hQs⟩ := ih fun z hz => hl z (mem_cons_of_mem _ hz)
    refine ⟨y :: ys, ?_, .cons hQ hQs⟩
    rw [mapM_cons, hy, hys]
    rfl

theorem perm_map {g : α → β} {l l' : List β} (hp : l.Perm l') : ∀ {xs : List α}, l' = xs.map g →
    ∃ ys : List α, ys.Perm xs ∧ l = ys.map g := by
  induction hp with
  | nil => exact fun {xs} hx => ⟨xs, .refl _, hx⟩
  | cons b _ ih =>
    intro xs hx
    obtain ⟨x, xs, rfl, rfl, rfl⟩ := map_eq_cons_iff.1 hx.symm
    obtain ⟨ys, hys, rfl⟩ := ih rfl
    exact ⟨x :: ys, hys.cons x, rfl⟩
  | swap b b' l =>
    intro xs hx
    obtain ⟨x, xs, rfl, rfl, hx'⟩ := map_eq_cons_iff.1 hx.symm
    obtain ⟨y, ys, rfl, rfl, rfl⟩ := map_eq_cons_iff.1 hx'
    exact ⟨y :: x :: ys, .swap _ _ _, rfl⟩
  | trans _ _ ih₁ ih₂ =>
    intro xs hx
    obtain ⟨ys, hys, rfl⟩ := ih₂ hx
    obtain ⟨zs, hzs, rfl⟩ := ih₁ rfl
    exact ⟨zs, hzs.trans hys, rfl⟩

variable {h : Heap} {indent : Option Bytes} {v : Val}

theorem encode_items (hind : Blank indent) {us : List Val} {n level : Nat} {seen : List Ref}
    (hus : ∀ u ∈ us, ∃ s w, encode_value h indent n u (level + 1) seen = .ok s ∧ Decodes s w ∧ w.isNil = false ∧
      Equal h.shape Value.shape u w) :
    ∃ ps : List (Bytes × Value), (us.mapM fun u => do
        let s ← encode_value h indent n u (level + 1) seen
        pure (inner indent level ++ s)) = .ok (ps.map Prod.fst) ∧
      List.Forall₂ (fun u p => Decodes p.1 p.2 ∧ p.2.isNil = false ∧ Equal h.shape Value.shape u p.2) us ps := by
  refine mapM_ok fun u hu => ?_
  obtain ⟨s, w, hs, hd, hw, he⟩ := hus u hu
  refine ⟨(inner indent level ++ s, w), ?_, hd.ws hind.inner, hw, he⟩
  rw [hs]
  rfl

theorem forall₂_right {Q : α → γ → Prop} {P : γ → Prop} {l : List α} {ys : List γ} (hl : List.Forall₂ Q l ys)
    (hQ : ∀ x y, Q x y → P y) : ∀ y ∈ ys, P y := by
  induction hl with
  | nil => exact fun _ h => absurd h not_mem_nil
  | cons hxy _ ih =>
    intro y hy
    rcases mem_cons.1 hy with rfl | hy
    · exact hQ _ _ hxy
    · exact ih y hy

theorem forall₂_zip {Q : α → γ → Prop} {l : List α} {ys : List γ} (hl : List.Forall₂ Q l ys) :
    ∀ p ∈ l.zip ys, Q p.1 p.2 := by
  induction hl with
  | nil => exact fun _ h => absurd h not_mem_nil
  | cons hxy _ ih =>
    intro p hp
    rcases mem_cons.1 hp with rfl | hp
    · exact hxy
    · exact ih p hp

theorem encode_array {r : Ref} {n level : Nat} {seen : List Ref} (hr : r ∉ seen) {us : List Val}
    (hp : (h.getD r []).Perm (indexed 0 us)) (hnil : .nil ∉ us) (ha : is_array (h.getD r []) = true) :
    encode_value h indent (n + 1) (.table r) level seen = (us.mapM fun u => do
      let s ← encode_value h indent n u (level + 1) (r :: seen)
      pure (inner indent level ++ s)) >>= fun items => pure (bracket indent level beginArray endArray items) := by
  have hitems : (List.range us.length).map (fun i => index (h.getD r []) (i + 1)) = us := by
    refine ext_getElem (by simp) fun i h1 h2 => ?_
    rw [getElem_map, getElem_range, index_of_perm hp, getD_eq_getElem _ _ h2]
  rw [encode_value, if_neg (by simpa using hr)]
  dsimp only
  rw [if_pos ha, border_of_perm hp hnil]
  conv_rhs => rw [← hitems, mapM_map]
  rfl

theorem round_array (hind : Blank indent) {r : Ref} {us : List Val} {n level : Nat} {seen : List Ref}
    (hr : r ∉ seen) (hp : (h.getD r []).Perm (indexed 0 us)) (hne : us ≠ []) (hnil : .nil ∉ us)
    (hus : ∀ u ∈ us, ∃ s w, encode_value h indent n u (level + 1) (r :: seen) = .ok s ∧ Decodes s w ∧ w.isNil = false ∧
      Equal h.shape Value.shape u w) :
    ∃ s w, encode_value h indent (n + 1) (.table r) level seen = .ok s ∧ Decodes s w ∧ w.isNil = false ∧
      Equal h.shape Value.shape (.table r) w := by
  obtain ⟨ps, hps, hall⟩ := encode_items hind hus
  have hlen := hall.length_eq
  have hpne : ps ≠ [] := fun h0 => hne (eq_nil_of_length_eq_zero (hlen.trans (congrArg List.length h0)))
  refine ⟨bracket indent level beginArray endArray (ps.map Prod.fst), .table (indexed 0 (ps.map Prod.snd)), ?_, ?_, rfl,
    .table (indexed 0 (us.zip (ps.map Prod.snd))) rfl rfl ?_ ?_ ?_⟩
  · rw [encode_array hr hp hnil (is_array_of_perm hp hne), hps]
    rfl
  · exact .array hind hpne (forall₂_right hall fun _ _ h => h.1) (forall₂_right hall fun _ _ h => h.2.1)
  · rw [map_indexed, map_fst_zip (by simpa using hlen.le)]
    exact hp
  · rw [map_indexed, map_snd_zip (by simpa using hlen.ge)]
  intro e he
  have hz := snd_mem_of_mem_indexed he
  have hall' : List.Forall₂ (fun u w => Equal h.shape Value.shape u w) us (ps.map Prod.snd) := by
    rw [List.forall₂_map_right_iff]
    exact hall.imp fun _ _ h => h.2.2
  exact forall₂_zip hall' _ hz

/-- The text of a member of an object, whose values are encoded by `enc`. -/
def encodeMember (enc : Val → Except EncodeError Bytes) (indent : Option Bytes) (level : Nat) (e : Key × Val) :
    Except EncodeError Bytes :=
  match e.1 with
  | .str k => do
    let s ← enc e.2
    pure (inner indent level ++ quote :: escape_string k ++ quote :: colon indent ++ s)
  | k => throw (.key k.type)

theorem encode_object {r : Ref} {n level : Nat} {seen : List Ref} (hr : r ∉ seen)
    (ha : is_array (h.getD r []) = false) : encode_value h indent (n + 1) (.table r) level seen =
      ((h.getD r []).mapM (encodeMember (fun u => encode_value h indent n u (level + 1) (r :: seen)) indent level)) >>=
        fun items => pure (bracket indent level beginObject endObject (if indent.isSome then sort items else items)) := by
  rw [encode_value, if_neg (by simpa using hr)]
  dsimp only
  rw [if_neg (by rw [ha]; decide)]
  rfl

theorem round_object (hind : Blank indent) {r : Ref} {n level : Nat} {seen : List Ref} (hr : r ∉ seen)
    (hne : h.getD r [] ≠ []) (hkey : ∀ e ∈ h.getD r [], ∃ k, e.1 = .str k) (hnd : ((h.getD r []).map Prod.fst).Nodup)
    (hes : ∀ e ∈ h.getD r [], ∃ s w, encode_value h indent n e.2 (level + 1) (r :: seen) = .ok s ∧ Decodes s w ∧
      w.isNil = false ∧ Equal h.shape Value.shape e.2 w) :
    ∃ s w, encode_value h indent (n + 1) (.table r) level seen = .ok s ∧ Decodes s w ∧ w.isNil = false ∧
      Equal h.shape Value.shape (.table r) w := by
  obtain ⟨cw, hcw, hcolon⟩ := colon_eq indent
  let text : Pair → Bytes := fun p => member (inner indent level) cw p.key p.text
  obtain ⟨ps, hps, hall⟩ : ∃ ps : List Pair,
      (h.getD r []).mapM (encodeMember (fun u => encode_value h indent n u (level + 1) (r :: seen)) indent level) =
        .ok (ps.map text) ∧ List.Forall₂ (fun e p => e.1 = Key.str p.key ∧
        Decodes p.text p.value ∧ p.value.isNil = false ∧ Equal h.shape Value.shape e.2 p.value) (h.getD r []) ps := by
    refine mapM_ok fun e he => ?_
    obtain ⟨k, hk⟩ := hkey e he
    obtain ⟨s, w, hs, hd, hw, heq⟩ := hes e he
    refine ⟨⟨k, w, s⟩, ?_, hk, hd, hw, heq⟩
    unfold encodeMember
    dsimp only
    rw [hk, hs, hcolon]
    simp only [text, member, append_assoc, cons_append]
    rfl
  have hlen := hall.length_eq
  have hkeys : (ps.map fun p => Key.str p.key) = (h.getD r []).map Prod.fst :=
    (List.forall₂_eq_eq_eq ▸ List.forall₂_map_left_iff.2 (List.forall₂_map_right_iff.2 (hall.imp fun _ _ h => h.1)) :
      (h.getD r []).map Prod.fst = ps.map fun p => Key.str p.key).symm
  obtain ⟨qs, hqs, hsorted⟩ : ∃ qs : List Pair, qs.Perm ps ∧
      (if indent.isSome then sort (ps.map text) else ps.map text) = qs.map text := by
    split_ifs
    · exact perm_map (mergeSort_perm _ _) rfl
    · exact ⟨ps, .refl _, rfl⟩
  have hqne : qs ≠ [] := fun h0 => hne (eq_nil_of_length_eq_zero (by rw [hlen, ← hqs.length_eq, h0]; rfl))
  have hq : ∀ p ∈ qs, Decodes p.text p.value ∧ p.value.isNil = false := fun p hp =>
    forall₂_right (P := fun p : Pair => Decodes p.text p.value ∧ p.value.isNil = false) hall
      (fun _ _ h => ⟨h.2.1, h.2.2.1⟩) p (hqs.mem_iff.1 hp)
  refine ⟨bracket indent level beginObject endObject (qs.map text), .table (qs.map fun p => (.str p.key, p.value)), ?_,
    ?_, rfl, .table (((h.getD r []).zip ps).map fun x => (x.1.1, x.1.2, x.2.value)) rfl rfl ?_ ?_ ?_⟩
  · have harr : is_array (h.getD r []) = false := by
      cases hd : h.getD r [] with
      | nil => exact absurd hd hne
      | cons e es =>
        obtain ⟨k, hk⟩ := hkey e (hd ▸ mem_cons_self)
        obtain ⟨key, x⟩ := e
        cases hk
        rfl
    rw [encode_object hr harr, hps, ← hsorted]
    rfl
  · refine .object hind hind.inner hcw hqne (fun p hp => (hq p hp).1) (fun p hp => (hq p hp).2) ?_
    exact ((hqs.map _).nodup_iff).2 (hkeys ▸ hnd)
  · rw [List.map_map]
    change (h.getD r []).Perm (((h.getD r []).zip ps).map fun x => (x.1.1, x.1.2))
    rw [show (fun x : (Key × Val) × Pair => (x.1.1, x.1.2)) = Prod.fst from rfl, map_fst_zip hlen.le]
  · rw [List.map_map]
    have hzip : ((h.getD r []).zip ps).map (fun x => (x.1.1, x.2.value)) = ps.map fun p => (.str p.key, p.value) := by
      conv_rhs => rw [← (map_snd_zip hlen.ge : ((h.getD r []).zip ps).map Prod.snd = ps), List.map_map]
      refine map_congr_left fun x hx => ?_
      rw [(forall₂_zip hall x hx).1]
      rfl
    exact (hqs.map _).trans (.of_eq hzip.symm)
  · intro p hp
    obtain ⟨x, hx, rfl⟩ := mem_map.1 hp
    exact (forall₂_zip hall x hx).2.2.2

theorem Plain.round (hind : Blank indent) (hv : Plain h.shape v) : ∀ {n : Nat} (level : Nat) {seen : List Ref},
    Path h n v seen → ∃ s w, encode_value h indent n v level seen = .ok s ∧ Decodes s w ∧ w.isNil = false ∧
      Equal h.shape Value.shape v w := by
  induction hv with
  | @bool v b hs =>
    intro n level seen hp
    obtain ⟨n, rfl⟩ := hp.turn
    cases v <;> cases hs
    exact ⟨_, _, rfl, .bool b, rfl, .bool rfl rfl⟩
  | @str v s hs =>
    intro n level seen hp
    obtain ⟨n, rfl⟩ := hp.turn
    cases v <;> cases hs
    exact ⟨_, _, rfl, .str s, rfl, .str rfl rfl⟩
  | @int v neg m hs hm =>
    intro n level seen hp
    obtain ⟨n, rfl⟩ := hp.turn
    cases v <;> cases hs
    refine ⟨_, _, ?_, .int neg hm, rfl, .num rfl rfl (by simp [Number.eq])⟩
    change encode_number (.fin neg m) = .ok (format0f neg m)
    exact if_pos ⟨NNRat.den_natCast m, Nat.cast_le.2 hm⟩
  | @array v es us hs hperm hne hus ih =>
    intro n level seen hp
    have hacc := (Plain.array us hs hperm hne hus).acc
    obtain ⟨n, rfl⟩ := hp.turn
    obtain ⟨r, rfl, rfl⟩ := table_of_shape hs
    refine round_array hind (hp.not_mem hacc) hperm hne (fun hnil => (hus _ hnil).ne_nil rfl) fun u hu => ?_
    obtain ⟨i, hi, rfl⟩ := mem_iff_getElem.1 hu
    exact ih _ hu _ (hp.step (hp.not_mem hacc) (hperm.mem_iff.2 (mem_indexed.2 ⟨i, hi, rfl⟩)))
  | @object v es hs hne hkey hnd hes ih =>
    intro n level seen hp
    have hacc := (Plain.object hs hne hkey hnd hes).acc
    obtain ⟨n, rfl⟩ := hp.turn
    obtain ⟨r, rfl, rfl⟩ := table_of_shape hs
    exact round_object hind (hp.not_mem hacc) hne hkey hnd fun e he => ih e he _ (hp.step (hp.not_mem hacc) he)

theorem decode_of_decodes {s : Bytes} {w : Value} (hs : Decodes s w) : decode s = .ok w := by
  have h := hs (s.length + 1) [] off_nil (by rw [append_nil]; exact Nat.lt_succ_self _)
  rw [append_nil] at h
  unfold decode
  rw [h]
  rfl

/-- `decode` after `encode`, and after `encode_pretty` with any indent of whitespace. -/
theorem decode_encode (h : Heap) {v : Val} (hv : Plain h.shape v) :
    (∃ s w, encode h v = .ok s ∧ decode s = .ok w ∧ Equal h.shape Value.shape v w) ∧
      ∀ indent, Ws indent → ∃ s w, encode_pretty h v (some indent) = .ok s ∧ decode s = .ok w ∧
        Equal h.shape Value.shape v w := by
  constructor
  · have hnone : Blank none := fun s hs => by cases hs
    obtain ⟨s, w, hs, hd, -, he⟩ := hv.round hnone 0 (.start h v)
    exact ⟨s, w, hs, decode_of_decodes hd, he⟩
  · intro indent hind
    have hblank : Blank (some indent) := fun s hs => Option.some.inj hs ▸ hind
    obtain ⟨s, w, hs, hd, -, he⟩ := hv.round hblank 0 (.start h v)
    exact ⟨s, w, hs, decode_of_decodes hd, he⟩

def twoKeys : Heap :=
  [[(.str [0x61], .table 1), (.str [0x62], .table 1)],
    [(.num (.ofNat 2), .num (.fin true (7 : Nat))), (.num (.ofNat 1), .str [0x22, 0x0a])]]

theorem plain_twoKeys : Plain twoKeys.shape (.table 0) := by
  have harr : Plain twoKeys.shape (.table 1) := by
    refine .array [.str [0x22, 0x0a], .num (.fin true (7 : Nat))] rfl (.swap _ _ _) (cons_ne_nil _ _) ?_
    intro u hu
    rcases mem_pair.1 hu with rfl | rfl
    · exact .str rfl
    · exact .int (n := 7) rfl (by norm_num)
  refine .object rfl (cons_ne_nil _ _) ?_ (by decide) ?_
  · intro e he
    rcases mem_pair.1 he with rfl | rfl <;> exact ⟨_, rfl⟩
  · intro e he
    rcases mem_pair.1 he with rfl | rfl <;> exact harr

theorem decode_encode_twoKeys :
    (∃ s w, encode twoKeys (.table 0) = .ok s ∧ decode s = .ok w ∧ Equal twoKeys.shape Value.shape (.table 0) w) ∧
      ∀ indent, Ws indent → ∃ s w, encode_pretty twoKeys (.table 0) (some indent) = .ok s ∧ decode s = .ok w ∧
        Equal twoKeys.shape Value.shape (.table 0) w :=
  decode_encode twoKeys plain_twoKeys

end Round

end Node9.Json
