import Mathlib

/-!
# Routines that walk a pointer over a bounded buffer

`BufM ρ α` is a C routine over a buffer `buf` with a moving pointer `p`; whatever else it assigns to
is the record `r`. It can end in three ways: normally (`ok`), through a `return 0` in its middle
(`ret0`), or by touching a byte outside the buffer (`fault`). A fault keeps no state, so two routines
that write past the end are equal and a run of writes is one write of the concatenation
(`emit_append`). `wp m Q R s`: from `s`, `m` does not fault, and ends in `Q` or, by `return 0`, in `R`.
-/

namespace Buf
open List

abbrev Bytes := List UInt8

/-- The pointer, the buffer and the rest of the routine's state. -/
structure Cur (ρ : Type) where
  p : Nat
  buf : Bytes
  r : ρ

inductive Out (ρ α : Type)
  | ok (a : α) (s : Cur ρ)
  | ret0 (s : Cur ρ)
  | fault

def BufM (ρ α : Type) : Type := Cur ρ → Out ρ α

variable {ρ α β : Type}

namespace BufM

instance : Monad (BufM ρ) where
  pure a := fun s => .ok a s
  bind m k := fun s =>
    match m s with
    | .ok a s' => k a s'
    | .ret0 s' => .ret0 s'
    | .fault => .fault

theorem bind_apply (m : BufM ρ α) (k : α → BufM ρ β) (s : Cur ρ) :
    (m >>= k) s = match m s with
      | .ok a s' => k a s'
      | .ret0 s' => .ret0 s'
      | .fault => .fault := rfl

theorem pure_apply (a : α) (s : Cur ρ) : (pure a : BufM ρ α) s = .ok a s := rfl

instance : LawfulMonad (BufM ρ) := by
  refine LawfulMonad.mk' (BufM ρ) ?_ ?_ ?_
  · intro α m; funext s
    show (m >>= fun a => pure a) s = m s
    rw [bind_apply]; cases m s <;> rfl
  · intros; rfl
  · intro α β γ m k l; funext s
    simp only [bind_apply]; cases m s <;> rfl

end BufM

open BufM

/-- `return 0`. -/
def stop : BufM ρ α := fun s => .ret0 s

/-- `if(p+n > ep) return 0`. -/
def chk (n : Nat) : BufM ρ Unit := fun s => if s.p + n ≤ s.buf.length then .ok () s else .ret0 s

/-- Read `n` bytes at `p` and advance. -/
def fetch (n : Nat) : BufM ρ Bytes := fun s =>
  if s.p + n ≤ s.buf.length then .ok ((s.buf.drop s.p).take n) { s with p := s.p + n } else .fault

/-- Write the bytes `bs` at `p` and advance. -/
def emit (bs : Bytes) : BufM ρ Unit := fun s =>
  if s.p + bs.length ≤ s.buf.length then
    .ok () { s with p := s.p + bs.length, buf := s.buf.take s.p ++ bs ++ s.buf.drop (s.p + bs.length) }
  else .fault

/-- Where `p` points, as an offset into the buffer. -/
def here : BufM ρ Nat := fun s => .ok s.p s

/-- `p += n`, for an `n` that may be negative. -/
def move (n : Int) : BufM ρ Unit := fun s => .ok () { s with p := (s.p + n).toNat }

/-- `memmove(p, p+k, n)` inside the buffer. -/
def memmove (k n : Nat) : BufM ρ Unit := fun s =>
  if s.p + k + n ≤ s.buf.length then
    .ok () { s with buf := s.buf.take s.p ++ (s.buf.drop (s.p + k)).take n ++ s.buf.drop (s.p + n) }
  else .fault

/-- `p[i] = b`. -/
def poke (i : Nat) (b : UInt8) : BufM ρ Unit := fun s =>
  if s.p + i < s.buf.length then .ok () { s with buf := s.buf.set (s.p + i) b } else .fault

def assign (f : ρ → ρ) : BufM ρ Unit := fun s => .ok () { s with r := f s.r }

theorem emit_append (a b : Bytes) : (emit a >>= fun _ => emit b) = (emit (a ++ b) : BufM ρ Unit) := by
  funext ⟨p, buf, r⟩
  simp only [bind_apply, emit, length_append]
  by_cases ha : p + a.length ≤ buf.length
  · have hp : (buf.take p).length = p := length_take_of_le (by omega)
    have hlen : (buf.take p ++ a ++ buf.drop (p + a.length)).length = buf.length := by
      simp only [length_append, length_drop, hp]; omega
    simp only [ha, ↓reduceIte, hlen]
    by_cases hb : p + a.length + b.length ≤ buf.length
    · have hpa : (buf.take p ++ a).length = p + a.length := by rw [length_append, hp]
      have htake : (buf.take p ++ a ++ buf.drop (p + a.length)).take (p + a.length) = buf.take p ++ a := by
        rw [← hpa, take_left]
      have hdrop : (buf.take p ++ a ++ buf.drop (p + a.length)).drop (p + a.length + b.length) =
          buf.drop (p + a.length + b.length) := by
        rw [← hpa, ← drop_drop, drop_left, hpa, drop_drop]
      simp only [hb, ← add_assoc, ↓reduceIte]
      rw [htake, hdrop]
      simp only [append_assoc]
    · simp only [hb, ← add_assoc, ↓reduceIte]
  · have hb : ¬ p + (a.length + b.length) ≤ buf.length := by omega
    simp only [ha, hb, ↓reduceIte]

theorem emit_append_bind (a b : Bytes) (k : Unit → BufM ρ α) :
    (emit a >>= fun _ => emit b >>= k) = (emit (a ++ b) >>= k) := by
  rw [← emit_append, bind_assoc]

/-! ### Weakest preconditions -/

/-- From `s`, `m` does not fault; it ends in `Q` or, by `return 0`, in `R`. -/
def wp (m : BufM ρ α) (Q : α → Cur ρ → Prop) (R : Cur ρ → Prop) (s : Cur ρ) : Prop :=
  match m s with
  | .ok a s' => Q a s'
  | .ret0 s' => R s'
  | .fault => False

section
variable {Q : α → Cur ρ → Prop} {R : Cur ρ → Prop} {s : Cur ρ}

theorem wp_pure (a : α) : wp (pure a) Q R s ↔ Q a s := Iff.rfl

theorem wp_bind {Q : β → Cur ρ → Prop} (m : BufM ρ α) (k : α → BufM ρ β) :
    wp (m >>= k) Q R s ↔ wp m (fun a s' => wp (k a) Q R s') R s := by
  simp only [wp, bind_apply]; cases m s <;> rfl

theorem wp_mono {Q' : α → Cur ρ → Prop} {R' : Cur ρ → Prop} (m : BufM ρ α) (h : wp m Q R s)
    (hQ : ∀ a s', Q a s' → Q' a s') (hR : ∀ s', R s' → R' s') : wp m Q' R' s := by
  unfold wp at h ⊢
  cases hm : m s with
  | ok a s' => rw [hm] at h; exact hQ a s' h
  | ret0 s' => rw [hm] at h; exact hR s' h
  | fault => rw [hm] at h; exact h

theorem wp_ite {c : Prop} [Decidable c] (m n : BufM ρ α) :
    wp (if c then m else n) Q R s ↔ (c → wp m Q R s) ∧ (¬ c → wp n Q R s) := by
  split <;> simp_all

end

section
variable {R : Cur ρ → Prop} {s : Cur ρ}

theorem wp_chk {Q : Unit → Cur ρ → Prop} (n : Nat) :
    wp (chk n) Q R s ↔ (s.p + n ≤ s.buf.length → Q () s) ∧ (s.buf.length < s.p + n → R s) := by
  unfold wp chk
  by_cases h : s.p + n ≤ s.buf.length
  · simp [h, Nat.not_lt.2 h]
  · simp [h, lt_of_not_ge h]

theorem wp_fetch {Q : Bytes → Cur ρ → Prop} (n : Nat) :
    wp (fetch n) Q R s ↔
      s.p + n ≤ s.buf.length ∧ Q ((s.buf.drop s.p).take n) { s with p := s.p + n } := by
  unfold wp fetch
  by_cases h : s.p + n ≤ s.buf.length <;> simp [h]

theorem wp_here {Q : Nat → Cur ρ → Prop} : wp here Q R s ↔ Q s.p s := Iff.rfl

theorem wp_move {Q : Unit → Cur ρ → Prop} (n : Int) :
    wp (move n) Q R s ↔ Q () { s with p := (s.p + n).toNat } := Iff.rfl

theorem wp_assign {Q : Unit → Cur ρ → Prop} (f : ρ → ρ) :
    wp (assign f) Q R s ↔ Q () { s with r := f s.r } := Iff.rfl

theorem wp_memmove {Q : Unit → Cur ρ → Prop} (k n : Nat) :
    wp (memmove k n) Q R s ↔ s.p + k + n ≤ s.buf.length ∧
      Q () { s with buf := s.buf.take s.p ++ (s.buf.drop (s.p + k)).take n ++ s.buf.drop (s.p + n) } := by
  unfold wp memmove
  by_cases h : s.p + k + n ≤ s.buf.length <;> simp [h]

theorem wp_poke {Q : Unit → Cur ρ → Prop} (i : Nat) (b : UInt8) :
    wp (poke i b) Q R s ↔ s.p + i < s.buf.length ∧ Q () { s with buf := s.buf.set (s.p + i) b } := by
  unfold wp poke
  by_cases h : s.p + i < s.buf.length <;> simp [h]

theorem wp_memmove_poke {Q : Unit → Cur ρ → Prop} (n : Nat) :
    wp (memmove 1 n) (fun _ s' => wp (poke n 0) Q R s') R s ↔ s.p + n + 1 ≤ s.buf.length ∧
      Q () { s with
        buf := s.buf.take s.p ++ (s.buf.drop (s.p + 1)).take n ++ 0 :: s.buf.drop (s.p + n + 1) } := by
  rw [wp_memmove, Nat.add_right_comm]
  refine and_congr_right fun hn => ?_
  have hlen : (s.buf.take s.p ++ (s.buf.drop (s.p + 1)).take n).length = s.p + n := by
    simp only [length_append, length_take, length_drop]; omega
  have hset : (s.buf.take s.p ++ (s.buf.drop (s.p + 1)).take n ++ s.buf.drop (s.p + n)).set (s.p + n) 0 =
      s.buf.take s.p ++ (s.buf.drop (s.p + 1)).take n ++ 0 :: s.buf.drop (s.p + n + 1) := by
    rw [drop_eq_getElem_cons (show s.p + n < s.buf.length by omega),
      set_append_right _ _ (le_of_eq hlen), hlen, tsub_self, set_cons_zero]
  rw [wp_poke, hset]
  refine and_iff_right ?_
  simp only [length_append, length_drop, hlen]
  omega

end

/-! ### Routines that stay inside the buffer -/

/-- From any state with `k` bytes left `m` stays inside the buffer, and `l` bytes are left after it. -/
def Leaves (k : Nat) (m : BufM ρ α) (l : Nat) : Prop :=
  ∀ s, s.p + k ≤ s.buf.length →
    wp m (fun _ s' => s'.buf.length = s.buf.length ∧ s'.p + l ≤ s'.buf.length)
      (fun s' => s'.buf.length = s.buf.length) s

namespace Leaves
variable {k l l' n : Nat} {m : BufM ρ α}

theorem wp_bind {f : α → BufM ρ β} {Q : β → Cur ρ → Prop} {R : Cur ρ → Prop} {s : Cur ρ}
    (hm : Leaves k m l) (hs : s.p + k ≤ s.buf.length) (hR : ∀ s', s'.buf.length = s.buf.length → R s')
    (h : ∀ a s', s'.buf.length = s.buf.length → s'.p + l ≤ s'.buf.length → wp (f a) Q R s') :
    wp (m >>= f) Q R s :=
  (Buf.wp_bind m f).2 (wp_mono m (hm s hs) (fun a s' h' => h a s' h'.1 h'.2) hR)

theorem bind {f : α → BufM ρ β} (hm : Leaves k m l) (hf : ∀ a, Leaves l (f a) l') :
    Leaves k (m >>= f) l' := by
  intro s hs
  refine hm.wp_bind hs (fun _ h => h) fun a s' hlen hp => wp_mono (f a) (hf a s' hp) ?_ ?_
  · rintro b s'' ⟨hlen', hp'⟩
    exact ⟨hlen'.trans hlen, hp'⟩
  · intro s'' hlen'
    exact hlen'.trans hlen

theorem pure (a : α) : Leaves k (Pure.pure a : BufM ρ α) k := fun _ hs => ⟨rfl, hs⟩

theorem stop : Leaves k (stop : BufM ρ α) l := fun _ _ => rfl

theorem mono (h : Leaves k m l) (hl : l' ≤ l) : Leaves k m l' := by
  intro s hs
  refine wp_mono m (h s hs) ?_ fun _ h => h
  rintro a s' ⟨hlen, hp⟩
  exact ⟨hlen, by omega⟩

theorem ite {c : Prop} [Decidable c] {m' : BufM ρ α} (h : Leaves k m l) (h' : Leaves k m' l) :
    Leaves k (if c then m else m') l := by
  split
  · exact h
  · exact h'

theorem chk : Leaves k (chk n : BufM ρ Unit) n := fun _ _ => (wp_chk n).2 ⟨fun hn => ⟨rfl, hn⟩, fun _ => rfl⟩

theorem fetch (hn : n ≤ k) : Leaves k (fetch n : BufM ρ Bytes) (k - n) := by
  intro s hs
  refine (wp_fetch n).2 ⟨by omega, rfl, ?_⟩
  show s.p + n + (k - n) ≤ s.buf.length
  omega

theorem assign {g : ρ → ρ} : Leaves k (assign g : BufM ρ Unit) k := fun _ hs => ⟨rfl, hs⟩

theorem here : Leaves k (here : BufM ρ Nat) k := fun _ hs => ⟨rfl, hs⟩

theorem move (hn : n ≤ k) : Leaves k (move n : BufM ρ Unit) (k - n) := by
  intro s hs
  refine (wp_move _).2 ⟨rfl, ?_⟩
  show ((s.p : Int) + n).toNat + (k - n) ≤ s.buf.length
  omega

end Leaves

/-! ### Reading a buffer that is known byte by byte -/

/-- The buffer is `d` up to the pointer and `t` from it on. -/
structure At (s : Cur ρ) (d t : Bytes) : Prop where
  buf : s.buf = d ++ t
  p : s.p = d.length

namespace At
variable {s : Cur ρ} {d t u : Bytes} {R : Cur ρ → Prop}

theorem length (h : At s d t) : s.buf.length = s.p + t.length := by rw [h.buf, h.p, length_append]

theorem chk {Q : Unit → Cur ρ → Prop} (h : At s d t) {n : Nat} (hn : n ≤ t.length) (hQ : Q () s) :
    wp (chk n) Q R s := by
  have := h.length
  exact (wp_chk n).2 ⟨fun _ => hQ, fun hlt => absurd hlt (by omega)⟩

theorem emit {Q : Unit → Cur ρ → Prop} (h : At s d t) (hu : u.length ≤ t.length)
    (hQ : ∀ s', At s' (d ++ u) (t.drop u.length) → Q () s') : wp (emit u) Q R s := by
  have hlen := h.length
  unfold wp Buf.emit
  rw [if_pos (by omega)]
  refine hQ _ ⟨?_, ?_⟩
  · dsimp only
    rw [h.buf, h.p, take_left, ← drop_drop, drop_left]
  · dsimp only
    rw [h.p, length_append]

theorem fetch {Q : Bytes → Cur ρ → Prop} (h : At s d (u ++ t)) {n : Nat} (hn : n = u.length)
    (hQ : ∀ s', At s' (d ++ u) t → s'.r = s.r → Q u s') : wp (fetch n) Q R s := by
  have hlen := h.length
  rw [length_append] at hlen
  refine (wp_fetch n).2 ⟨by omega, ?_⟩
  have hu : (s.buf.drop s.p).take n = u := by rw [h.buf, h.p, drop_left, hn, take_left]
  rw [hu]
  exact hQ _ ⟨by simp [h.buf], by simp [h.p, hn]⟩ rfl

end At

end Buf
