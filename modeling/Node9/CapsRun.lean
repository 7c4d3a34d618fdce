import Node9.Caps

/-!
# Runs of writes to `caphash` and `capuse`

`Inv` counts: for every hash there are at least as many writes of it as entries on the list, writes to `capuse`
that hold one, and changes of user that have used one. A step keeps it if it meets `Fits`.
-/

namespace Node9.Cap
open Buf Hmac Rune Steps List

variable {P : Type} [DecidableEq P]

section Lists
variable {α : Type} {p q : α → Bool} {l : List α} {x : α}

theorem countP_eraseP (h : l.find? p = some x) :
    (l.eraseP p).countP q + (if q x then 1 else 0) = l.countP q := by
  induction l with
  | nil => cases h
  | cons y l ih =>
    by_cases hy : p y = true
    · rw [find?_cons_of_pos hy] at h
      cases h
      rw [eraseP_cons_of_pos hy, countP_cons]
    · rw [find?_cons_of_neg hy] at h
      rw [eraseP_cons_of_neg hy, countP_cons, countP_cons, ← ih h]
      omega

theorem countP_filterMap_le {f : α → Option α} (hf : ∀ x y, f x = some y → q y = q x) :
    (l.filterMap f).countP q ≤ l.countP q := by
  induction l with
  | nil => exact le_rfl
  | cons y l ih =>
    rw [countP_cons]
    cases hy : f y with
    | none =>
      rw [filterMap_cons_none hy]
      omega
    | some z =>
      rw [filterMap_cons_some hy, countP_cons, hf y z hy]
      omega

end Lists

section Parse
variable {a : Nat → UInt8} {len : Int32} {mem : Nat → Bool} {junk : Digest} {q : Pending}

theorem strrchr_some {c : UInt8} {s : Bytes} {i : Nat} (h : strrchr c s = some i) :
    s = s.take i ++ c :: s.drop (i + 1) ∧ c ∉ s.drop (i + 1) := by
  have hnone : ∀ {s : Bytes}, strrchr c s = none → c ∉ s := by
    intro s
    induction s with
    | nil => exact fun _ => not_mem_nil
    | cons b s ih =>
      intro hn
      unfold strrchr at hn
      split at hn
      · cases hn
      · rename_i hs
        split_ifs at hn with hb
        rw [mem_cons, not_or]
        exact ⟨Ne.symm hb, ih hs⟩
  induction s generalizing i with
  | nil => cases h
  | cons b s ih =>
    unfold strrchr at h
    split at h
    · rename_i j hj
      cases h
      obtain ⟨h1, h2⟩ := ih hj
      exact ⟨congrArg (b :: ·) h1, h2⟩
    · rename_i hs
      split_ifs at h with hb
      cases h
      exact ⟨by rw [hb]; rfl, hnone hs⟩

theorem splitAt_first {s : Bytes} (h : at' ∈ s) : ∃ v w, s = v ++ at' :: w ∧ at' ∉ v := by
  induction s with
  | nil => cases h
  | cons b s ih =>
    by_cases hb : b = at'
    · exact ⟨[], s, by rw [hb]; rfl, not_mem_nil⟩
    · obtain ⟨v, w, rfl, hv⟩ := ih ((mem_cons.1 h).resolve_left (Ne.symm hb))
      exact ⟨b :: v, w, rfl, fun hm => (mem_cons.1 hm).elim (fun h => hb h.symm) hv⟩

/-- What the number of fields says about a user part. -/
def Named (n : Nat) (part users0 users1 : Bytes) : Prop :=
  (n = 1 ∧ at' ∉ part ∧ users1 = part) ∨
    (n = 2 ∧ part = users0 ++ at' :: users1 ∧ at' ∉ users0 ∧ at' ∉ users1)

theorem fields_named {part : Bytes} (h : NoNull part)
    (hn : (getfields part 3 false [at']).narg = 1 ∨ (getfields part 3 false [at']).narg = 2) :
    Named (getfields part 3 false [at']).narg part ((getfields part 3 false [at']).field 0)
      (if (getfields part 3 false [at']).narg = 1 then (getfields part 3 false [at']).field 0
        else (getfields part 3 false [at']).field 1) := by
  by_cases hat : at' ∈ part
  · obtain ⟨v, w, rfl, hv⟩ := splitAt_first hat
    have hnv : NoNull v := fun c hc => h c (mem_append_left _ hc)
    have hnw : NoNull w := fun c hc => h c (mem_append_right _ (mem_cons_of_mem _ hc))
    by_cases hat' : at' ∈ w
    · obtain ⟨w, x, rfl, hw⟩ := splitAt_first hat'
      have := getfields_more (x := x) hnv (fun c hc => hnw c (mem_append_left _ hc)) hv hw
      omega
    · obtain ⟨h1, h2, h3⟩ := getfields_one hnv hnw hv hat'
      rw [h1, h2, h3]
      exact .inr ⟨rfl, rfl, hv, hat'⟩
  · obtain ⟨h1, h2⟩ := getfields_none h hat
    rw [h1, h2]
    exact .inl ⟨rfl, hat, rfl⟩

theorem len_lt (h : ¬ len.toInt64.toUInt64 ≥ 128 - 1) : 0 ≤ len.toInt ∧ len.toInt < 127 := by
  have h1 : len.toInt64.toUInt64.toNat < 127 := by
    have := mt UInt64.le_iff_toNat_le.2 h
    exact lt_of_not_ge this
  have h2 : len.toInt64.toUInt64.toNat = len.toInt64.toBitVec.toNat := rfl
  have h3 : len.toInt64.toInt = len.toInt64.toBitVec.toInt := rfl
  rw [BitVec.toInt_eq_toNat_cond] at h3
  rw [Int32.toInt_toInt64] at h3
  split_ifs at h3 <;> omega

theorem parse_ne_overrun : parse a len mem junk ≠ .overrun := by
  unfold parse
  split_ifs with h
  · exact fun h => by cases h
  obtain ⟨h1, h2⟩ := len_lt h
  rw [fill, if_pos ⟨h1, by omega⟩]
  dsimp only
  split
  · exact fun h => by cases h
  · split_ifs <;> exact fun h => by cases h

theorem noNull_takeWhile (s : Bytes) : NoNull (s.takeWhile (· ≠ 0)) := fun c hc => by
  simpa using mem_takeWhile_imp hc

theorem length_bytesAt (a : Nat → UInt8) (len : Int32) : (bytesAt a len).length = len.toInt.toNat := by
  rw [bytesAt, length_map, length_range]

theorem parse_lookup (h : parse a len mem junk = .lookup q) :
    q.written = bytesAt a len ∧ Splits q.written q.buf q.key ∧ q.digest = (hmac_sha1 mem q.buf q.key).getD junk ∧
      Named q.n q.buf q.users0 q.users1 ∧ q.written.length < 127 ∧ q.buf ≠ [] ∧ q.key ≠ [] := by
  unfold parse at h
  split_ifs at h with h0
  have hlen : (bytesAt a len).length < 127 := by
    have := len_lt h0
    rw [length_bytesAt]
    omega
  split at h
  · cases h
  rename_i buf hfill
  have hbuf : (bytesAt a len).takeWhile (· ≠ 0) = buf := by
    unfold fill at hfill
    split_ifs at hfill
    exact Option.some.inj hfill
  split at h
  · cases h
  rename_i i hi
  obtain ⟨h1, h2⟩ := strrchr_some hi
  dsimp only at h
  have hnn : NoNull (buf.take i) := fun c hc =>
    (hbuf ▸ noNull_takeWhile (bytesAt a len)) c (mem_of_mem_take hc)
  split_ifs at h with h3 h4 h5 <;> cases h
  all_goals rw [length_eq_zero_iff, length_eq_zero_iff, not_or] at h3
  · have hnamed := fields_named hnn (.inl h5)
    rw [if_pos h5] at hnamed
    exact ⟨rfl, ⟨hbuf.trans h1, h2⟩, rfl, hnamed, hlen, h3.2, h3.1⟩
  · have hnamed := fields_named hnn (by omega)
    rw [if_neg h5] at hnamed
    exact ⟨rfl, ⟨hbuf.trans h1, h2⟩, rfl, hnamed, hlen, h3.2, h3.1⟩

omit [DecidableEq P] in
theorem parse_mac {s : State P} {p : P} {n : Int64} (h : parse a n.toInt32 mem junk = .lookup q)
    (hfit : Fits s (.use p a n mem junk)) : q.digest = mac q.key q.buf := by
  obtain ⟨hw, hs, hd, -, hlen, hbuf, hkey⟩ := parse_lookup h
  rw [hw] at hs hlen
  obtain ⟨hk, hm0, hm1⟩ := hfit hlen q.buf q.key hs hbuf hkey
  rw [hd, hmac_sha1_eq q.buf hk hm0 hm1]
  rfl

end Parse

structure Inv (user : P → Bytes) (s : State P) : Prop where
  history : History user s.log s.user
  /-- what was looked up is the keyed hash of what was written -/
  pending : ∀ e ∈ s.pending, e.2.digest = mac e.2.key e.2.buf ∧ Splits e.2.written e.2.buf e.2.key ∧
    Named e.2.n e.2.buf e.2.users0 e.2.users1
  tokens : ∀ h, s.caps.countP (·.hash == h) + s.pending.countP (·.2.digest == h) + uses h s.log ≤ writes h s.log

namespace Inv
variable {user : P → Bytes} {s : State P}

theorem init (user : P → Bytes) : Inv user (State.init user) :=
  ⟨.nil, fun _ he => (not_mem_nil he).elim, fun _ => le_refl 0⟩

section
variable (h : Inv user s)
include h

theorem fail (p : P) : Inv user (s.fail p) :=
  ⟨.failed p h.history, h.pending, h.tokens⟩

theorem capwritehash (p : P) (a : Nat → UInt8) (n : Int64) (mem : Bool) :
    Inv user (s.capwritehash p a n mem) := by
  unfold State.capwritehash
  by_cases hn : n.toInt32.toInt ≠ SHA1dlen
  · rw [if_pos hn]
    exact h.fail p
  rw [if_neg hn]
  by_cases hm : (!mem) = true
  · rw [if_pos hm]
    exact h.fail p
  · rw [if_neg hm]
    refine ⟨.wrote _ h.history, h.pending, fun d => ?_⟩
    have ht := h.tokens d
    simp only [countP_cons, writes, uses, Bool.false_eq_true, if_false] at ht ⊢
    omega

theorem capwriteuse {p : P} {a : Nat → UInt8} {n : Int64} {mem : Nat → Bool} {junk : Digest}
    (hfit : Fits s (.use p a n mem junk)) : Inv user (s.capwriteuse p a n mem junk) := by
  unfold State.capwriteuse
  split
  · exact h.fail p
  · rename_i hp
    exact absurd hp parse_ne_overrun
  rename_i q hq
  split_ifs with hany
  · obtain ⟨hw, hs, -, hn, -⟩ := parse_lookup hq
    refine ⟨h.history, fun e he => ?_, fun d => ?_⟩
    · rcases mem_cons.1 he with rfl | he
      · exact ⟨parse_mac hq hfit, hs, hn⟩
      · exact h.pending e he
    have ht := h.tokens d
    obtain ⟨x, hx⟩ := Option.isSome_iff_exists.1 ((find?_isSome).2 (any_eq_true.1 hany))
    have hc := countP_eraseP (q := fun c : Caps => c.hash == d) hx
    have hxd : x.hash = q.digest := by simpa using find?_some hx
    simp only [countP_cons, hxd] at ht hc ⊢
    omega
  · exact h.fail p

theorem finish {p : P} {e : P × Pending} (he : s.pending.find? (·.1 == p) = some e) :
    Inv user (s.finish p e.2) := by
  obtain ⟨hd, hs, hn⟩ := h.pending e (mem_of_find?_eq_some he)
  have hpend : ∀ x ∈ s.pending.eraseP (·.1 == p), _ := fun x hx => h.pending x (mem_of_mem_eraseP hx)
  have hcount : ∀ d, (s.pending.eraseP (·.1 == p)).countP (·.2.digest == d) + (if e.2.digest == d then 1 else 0) =
      s.pending.countP (·.2.digest == d) := fun d => countP_eraseP he
  unfold State.finish
  dsimp only
  split_ifs with hu
  · refine ⟨.failed p h.history, hpend, fun d => ?_⟩
    have ht := h.tokens d
    have := hcount d
    simp only [State.fail, uses, writes, countP_cons] at ht ⊢
    simp only [Bool.false_eq_true, if_false]
    omega
  have huse : uses (mac e.2.key e.2.buf) s.log < writes (mac e.2.key e.2.buf) s.log := by
    have ht := h.tokens e.2.digest
    have := hcount e.2.digest
    rw [if_pos (beq_self_eq_true _)] at this
    rw [← hd]
    omega
  have hnames : Names (s.user p) e.2.buf e.2.users1 := by
    rcases hn with ⟨-, hat, hu1⟩ | ⟨h2, hb, hat0, hat1⟩
    · exact .inl ⟨hu1.symm, hu1 ▸ hat⟩
    · rw [not_and, not_not] at hu
      rw [hu h2]
      exact .inr ⟨hb, hat0, hat1⟩
  refine ⟨.granted h.history hs hnames huse, hpend, fun d => ?_⟩
  have ht := h.tokens d
  have := hcount d
  rw [hd] at this
  simp only [State.setid, uses, writes, countP_cons] at ht ⊢
  simp only [Bool.false_eq_true, if_false]
  omega

theorem capwatch : Inv user s.capwatch := by
  have hcaps : ∀ d, (s.caps.filterMap fun c =>
      if c.time + 1 > Captimeout then none else some { c with time := c.time + 1 }).countP (·.hash == d) ≤
      s.caps.countP (·.hash == d) := fun d => countP_filterMap_le fun x y hxy => by
    split_ifs at hxy
    cases hxy
    rfl
  unfold State.capwatch
  dsimp only
  split_ifs <;> refine ⟨h.history, h.pending, fun d => ?_⟩
  all_goals
    have := h.tokens d
    have := hcaps d
    dsimp only at *
    omega

theorem step {x : Act P} {s' : State P} (hfit : Fits s x) (hs : Cap.step s x = some s') :
    Inv user s' := by
  cases x with
  | hash p a n mem =>
    dsimp only [Cap.step] at hs
    split_ifs at hs
    cases hs
    exact h.capwritehash p a n mem
  | use p a n mem junk =>
    dsimp only [Cap.step] at hs
    split_ifs at hs
    cases hs
    exact h.capwriteuse hfit
  | finish p =>
    obtain ⟨e, he, rfl⟩ := Option.map_eq_some_iff.1 hs
    exact h.finish he
  | watch =>
    dsimp only [Cap.step] at hs
    split_ifs at hs
    cases hs
    exact h.capwatch

end

end Inv

theorem step_overrun {s s' : State P} {x : Act P} (h : s.overrun = false) (hs : step s x = some s') :
    s'.overrun = false := by
  cases x with
  | hash p a n mem =>
    dsimp only [step] at hs
    split_ifs at hs
    cases hs
    unfold State.capwritehash
    split_ifs <;> exact h
  | use p a n mem junk =>
    dsimp only [step] at hs
    split_ifs at hs
    cases hs
    unfold State.capwriteuse
    split
    · exact h
    · rename_i hp
      exact absurd hp parse_ne_overrun
    · split_ifs <;> exact h
  | finish p =>
    obtain ⟨e, he, rfl⟩ := Option.map_eq_some_iff.1 hs
    unfold State.finish
    dsimp only
    split_ifs <;> exact h
  | watch =>
    dsimp only [step] at hs
    split_ifs at hs
    cases hs
    unfold State.capwatch
    dsimp only
    split_ifs <;> exact h

/-- From an empty list on the parse buffer is never overrun, and the history is what it should be along every run in
which the keys of the writes to `capuse` are at most a block long and the hash gets its memory. -/
theorem secure_always (user : P → Bytes) (acts : List (Act P)) :
    Always step (fun s => s.overrun = false) (State.init user) acts ∧
      (Along step Fits (State.init user) acts → Always step (Secure user) (State.init user) acts) := by
  have hover : Always step (fun s => s.overrun = false) (State.init user) acts :=
    always_of_step (fun _ _ _ => step_overrun) rfl
  refine ⟨hover, fun h pre hpre s hrun => ⟨hover pre hpre s hrun, ?_⟩⟩
  have hinv : Always step (Inv user) (State.init user) acts :=
    h.always (fun _ _ _ hI hfit hs => hI.step hfit hs) (Inv.init user)
  exact (hinv pre hpre s hrun).history

section Runs

/-- `bob@` and a key. -/
def bobAt (i : Nat) : UInt8 := [98, 111, 98, 64].getD i 107

/-- A digest that is not `d`. -/
def other (d : Digest) : Digest := if d = .replicate SHA1dlen 0 then .replicate SHA1dlen 1 else .replicate SHA1dlen 0

theorem other_ne (d : Digest) : other d ≠ d := by
  unfold other
  split_ifs with h
  · rw [h]
    decide
  · exact Ne.symm h

def granting : List (Act Unit) :=
  [.hash () (fun i => (mac [107] [98, 111, 98]).toList.getD i 0) 20 true,
    .use () bobAt 5 (fun _ => true) (Vector.replicate 20 0), .finish ()]

theorem secure_granting : Always step (Secure fun _ => [101, 118, 101])
    (State.init fun _ => [101, 118, 101]) granting :=
  (secure_always _ _).2 fun _ _ => ⟨trivial, fun _ _ => ⟨fun _ part key hs _ _ => by
    have hlen : part.length + (key.length + 1) = 5 := by
      have h5 : ((bytesAt bobAt (5 : Int64).toInt32).takeWhile (· ≠ 0)).length = 5 := by decide
      rw [hs.1, length_append, length_cons] at h5
      exact h5
    exact ⟨by omega, rfl, rfl⟩, fun _ _ => ⟨trivial, trivial⟩⟩⟩

/-- A key of 65 bytes, and in `digest` the hash that was written, which is not that of `bob` and the key. -/
def forged : Digest := other (mac (replicate 65 107) [98, 111, 98])

def forging : List (Act Unit) :=
  [.hash () (fun i => forged.toList.getD i 0) 20 true, .use () bobAt 69 (fun _ => true) forged, .finish ()]

theorem parse_forging : parse bobAt 69 (fun _ => true) forged =
    .lookup ⟨bytesAt bobAt 69, [98, 111, 98], replicate 65 107, forged, 1, [98, 111, 98], [98, 111, 98]⟩ := by
  have hfill : fill bobAt 69 = some ([98, 111, 98, 64] ++ replicate 65 107) := by decide
  have hat : strrchr at' ([98, 111, 98, 64] ++ replicate 65 107) = some 3 := by decide
  have hkey : hmac_sha1 (fun _ => true) [98, 111, 98] (replicate 65 107) = none := if_pos (by decide)
  unfold parse
  rw [if_neg (by decide), hfill]
  dsimp only
  rw [hat]
  dsimp only
  rw [if_neg (by decide)]
  have hdrop : ([98, 111, 98, 64] ++ replicate 65 107 : Bytes).drop (3 + 1) = replicate 65 107 := rfl
  have htake : ([98, 111, 98, 64] ++ replicate 65 107 : Bytes).take 3 = [98, 111, 98] := rfl
  -- not by evaluation, which would compute the digest
  rw [hdrop, htake, hkey, Option.getD_none]
  rfl

/-- What was not computed is compared. -/
theorem forging_grants : ¬ ∀ (user : Unit → Bytes) (acts : List (Act Unit)),
    Always step (Secure user) (State.init user) acts := by
  intro h
  let q : Pending :=
    ⟨bytesAt bobAt 69, [98, 111, 98], replicate 65 107, forged, 1, [98, 111, 98], [98, 111, 98]⟩
  let s₁ : State Unit := ⟨[⟨forged, 0⟩], true, 0, fun _ => [101], [], false, [.wrote forged]⟩
  let s₂ : State Unit := ⟨[], true, 0, fun _ => [101], [((), q)], false, [.wrote forged]⟩
  have h1 : step (State.init fun _ => [101]) (.hash () (fun i => forged.toList.getD i 0) 20 true) = some s₁ := by
    have hash : Vector.ofFn (fun i : Fin SHA1dlen => forged.toList.getD i 0) = forged := by
      apply Vector.ext
      intro i hi
      have hi' : i < forged.toList.length := lt_of_lt_of_eq hi forged.length_toList.symm
      rw [Vector.getElem_ofFn, getD_eq_getElem _ _ hi', Vector.getElem_toList]
    have hstep : step (State.init fun _ => [101]) (.hash () (fun i => forged.toList.getD i 0) 20 true) =
        some ⟨[⟨Vector.ofFn (fun i : Fin SHA1dlen => forged.toList.getD i 0), 0⟩], true, 0, fun _ => [101], [], false,
          [.wrote (Vector.ofFn fun i : Fin SHA1dlen => forged.toList.getD i 0)]⟩ := rfl
    rw [hstep, hash]
  have h2 : step s₁ (.use () bobAt 69 (fun _ => true) forged) = some s₂ := by
    dsimp only [step, State.capwriteuse]
    rw [if_neg (by decide), show (69 : Int64).toInt32 = 69 from rfl, parse_forging]
    dsimp only [s₁]
    rw [if_pos (by simp), eraseP_cons_of_pos (by simp)]
  have h3 : step s₂ (.finish ()) = some (s₂.finish () q) := rfl
  have hrun : run step (State.init fun _ => [101]) forging = some (s₂.finish () q) :=
    run_cons.2 ⟨s₁, h1, run_cons.2 ⟨s₂, h2, run_cons.2 ⟨_, h3, rfl⟩⟩⟩
  have hsec : History (fun _ => [101])
      [.granted () (bytesAt bobAt 69) [98, 111, 98] (replicate 65 107) [98, 111, 98], .wrote forged]
      (s₂.finish () q).user := ((h _ forging).last hrun).2
  cases hsec with
  | granted _ _ _ huse =>
    have hnone : writes (P := Unit) (mac (replicate 65 107) [98, 111, 98]) [.wrote forged] = 0 := by
      refine countP_eq_zero.2 fun e he => ?_
      rw [mem_singleton.1 he]
      exact fun heq => other_ne _ (eq_of_beq heq)
    exact absurd (hnone ▸ huse) (Nat.not_lt_zero _)

end Runs

end Node9.Cap
