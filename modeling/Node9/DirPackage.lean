import Node9.ConvDir

/-!
# Unpacking a directory (`dirpackage`, `kdirread` in `sysfile.c`)

The buffer is the memory from its start, of which the first `ts` bytes are what a read has returned: the loop that
counts the entries checks each of them before it is known to end there. What has been looked at is below `seen`. The
strings of the entries go behind the records that are allocated; here that area is behind the `ts` bytes, and a string
is read where it is when all is done.
-/

namespace Node9
open Buf List
open Option hiding map_map

/-- The `n` bytes from `p` on. -/
def Mem.slice (buf : Mem) (p n : Nat) : Bytes := (List.range n).map fun k => buf (p + k)

/-- The end of what `statcheckStrs` looks at. -/
def statcheckStrsSeen (buf : Bytes) : Nat → Nat → Nat
  | 0, _ => 0
  | i + 1, p =>
    if p + BIT16SZ > buf.length then 0
    else max (p + BIT16SZ) (statcheckStrsSeen buf i (p + (BIT16SZ + (gbit16 (buf.drop p)).toNat)))

def statcheckSeen (buf : Bytes) : Nat :=
  if buf.length < STATFIXLEN then 0
  else if buf.length ≠ BIT16SZ + (gbit16 buf).toNat then BIT16SZ
  else max BIT16SZ (statcheckStrsSeen buf 4 (STATFIXLEN - 4 * BIT16SZ))

structure Count where
  i : Nat
  n : Nat
  ss : Nat
  seen : Nat

/-- `m = BIT16SZ + GBIT16(&buf[i])` -/
def statLen (buf : Mem) (i : Nat) : Nat := BIT16SZ + (gbit16 (buf.slice i BIT16SZ)).toNat

def countStats (buf : Mem) (ts : Nat) : Nat → Count → Count
  | 0, c => c
  | k + 1, c =>
    if c.i < ts then
      let m := statLen buf c.i
      let e := buf.slice c.i m
      let seen := max c.seen (c.i + max BIT16SZ (statcheckSeen e))
      if statcheck e then countStats buf ts k ⟨c.i + m, c.n + 1, c.ss + m, seen⟩ else { c with seen := seen }
    else c

/-- The second loop, `none` if it looks at a byte beyond the `ts`. `inl` is an entry that is no good. -/
def convertStats (ts n : Nat) : Nat → Bytes → Nat → Nat → Nat → List (Dir StrPtr) →
    Option (Unit ⊕ Nat × Bytes × List (Dir StrPtr))
  | 0, mem, _, nn, _, d => some (.inr (nn, mem, d))
  | k + 1, mem, i, nn, s, d =>
    if i < ts then do
      let m := BIT16SZ + (gbit16 (← peek mem 0 ts i BIT16SZ)).toNat
      if nn ≥ n then pure (.inl ())
      else
        let r ← convM2D mem i m freshDir (some s)
        if r.ret ≠ m then pure (.inl ()) else convertStats ts n k r.mem (i + m) (nn + 1) (s + m) (d ++ [r.dir])
    else some (.inr (nn, mem, d))

/-- What `dirpackage` leaves in `*d`, what it returns or the error it raises, and how far it has looked. -/
structure Packaged where
  d : Option (List (Dir CharPtr))
  ret : Except String Int
  seen : Nat

/-- `none` is an access outside in the second loop. -/
def dirpackage (buf : Mem) (ts : Int) : Option Packaged :=
  if ts ≤ 0 then some ⟨none, .ok ts, 0⟩
  else
    let ts := ts.toNat
    let c := countStats buf ts ts ⟨0, 0, 0, 0⟩
    if c.i ≠ ts then some ⟨none, .error "bad directory format", c.seen⟩
    else do
      match ← convertStats ts c.n ts (buf.slice 0 ts ++ List.replicate c.ss 0) 0 0 ts [] with
      | .inl _ => pure ⟨none, .error "bad directory entry", c.seen⟩
      | .inr (nn, mem, d) => pure ⟨some (d.map (Dir.map (StrPtr.deref mem))), .ok nn, c.seen⟩

/-! ### What should come of it -/

def Dir.ofEntry (e : Bytes) : Dir CharPtr := (Dir.entry e true (freshDir.map fun _ => none)).2

/-- `dirpackage` makes records of a sequence of complete entries, refuses anything else, and keeps to the buffer. -/
structure Unpacked (buf : Mem) (ts : Nat) (r : Packaged) : Prop where
  entries : ∀ es : List Bytes, (∀ e ∈ es, statcheck e = true) → buf.slice 0 ts = es.flatten →
    r.ret = .ok es.length ∧ r.d = if es = [] then none else some (es.map Dir.ofEntry)
  other : (¬ ∃ es : List Bytes, (∀ e ∈ es, statcheck e = true) ∧ buf.slice 0 ts = es.flatten) →
    (∃ msg, r.ret = .error msg) ∧ r.d = none
  seen : r.seen ≤ ts

/-- Of the lengths of strings that the check of an entry of `m` bytes goes to from `p` on, one is not all there. -/
def CutStrs (bs : Bytes) (m : Nat) : Nat → Nat → Prop
  | 0, _ => False
  | i + 1, p =>
    p + BIT16SZ ≤ m ∧ (bs.length < p + BIT16SZ ∨ CutStrs bs m i (p + (BIT16SZ + (gbit16 (bs.drop p)).toNat)))

/-- The bytes end within the size of an entry, or within the length of a string. -/
def CutEntry (bs : Bytes) : Prop :=
  bs.length = 1 ∨ BIT16SZ ≤ bs.length ∧ STATFIXLEN ≤ BIT16SZ + (gbit16 bs).toNat ∧
    CutStrs bs (BIT16SZ + (gbit16 bs).toNat) 4 (STATFIXLEN - 4 * BIT16SZ)

/-- So does what is behind some complete entries. -/
def Cut (bs : Bytes) : Prop :=
  ∃ (es : List Bytes) (r : Bytes), bs = es.flatten ++ r ∧ (∀ e ∈ es, statcheck e = true) ∧ CutEntry r

variable {buf : Mem} {i k m n p ts : Nat} {es : List Bytes} {bs e : Bytes}

/-! ### Pieces of memory -/

@[simp] theorem Mem.length_slice : (buf.slice p n).length = n := by simp [Mem.slice]

theorem Mem.slice_append : buf.slice p (m + n) = buf.slice p m ++ buf.slice (p + m) n := by
  simp only [Mem.slice, range_add, map_append, map_map, Function.comp_def, add_assoc]

theorem Mem.take_slice (h : k ≤ n) : (buf.slice p n).take k = buf.slice p k := by
  obtain ⟨n, rfl⟩ := Nat.exists_eq_add_of_le h
  rw [Mem.slice_append, take_left' Mem.length_slice]

theorem Mem.drop_slice (h : k ≤ n) : (buf.slice p n).drop k = buf.slice (p + k) (n - k) := by
  obtain ⟨n, rfl⟩ := Nat.exists_eq_add_of_le h
  rw [Mem.slice_append, drop_left' Mem.length_slice, Nat.add_sub_cancel_left]

theorem gbit16_slice (h : BIT16SZ ≤ n) : gbit16 (buf.slice p n) = gbit16 (buf.slice p BIT16SZ) := by
  rw [← gbit16_take, Mem.take_slice h]

theorem length_of_statcheck (h : statcheck e = true) : STATFIXLEN ≤ e.length ∧
    e.length = BIT16SZ + (gbit16 e).toNat := by
  unfold statcheck at h
  split_ifs at h with hlen
  omega

theorem statcheckStrsSeen_le (j : Nat) (hle : i ≤ ts) :
    i + statcheckStrsSeen (buf.slice i m) j p ≤ ts ↔ ¬ CutStrs (buf.slice i (ts - i)) m j p := by
  induction j generalizing p with
  | zero => exact ⟨fun _ h => h, fun _ => hle⟩
  | succ j ih =>
    rw [statcheckStrsSeen, CutStrs, Mem.length_slice, Mem.length_slice]
    by_cases hp : p + BIT16SZ > m
    · rw [if_pos hp]
      refine ⟨fun _ hcut => ?_, fun _ => hle⟩
      exact absurd hcut.1 (Nat.not_le.2 hp)
    rw [if_neg hp, Mem.drop_slice (by omega), gbit16_slice (by omega)]
    by_cases hts : ts - i < p + BIT16SZ
    · refine ⟨fun hseen => ?_, fun hcut => absurd ⟨by omega, .inl hts⟩ hcut⟩
      have hmax := Nat.le_max_left (p + BIT16SZ)
        (statcheckStrsSeen (buf.slice i m) j (p + (BIT16SZ + (gbit16 (buf.slice (i + p) BIT16SZ)).toNat)))
      omega
    rw [Mem.drop_slice (by omega), gbit16_slice (n := ts - i - p) (by omega)]
    have hrest := ih (p := p + (BIT16SZ + (gbit16 (buf.slice (i + p) BIT16SZ)).toNat))
    refine ⟨fun hseen hcut => ?_, fun hcut => ?_⟩
    · rcases hcut.2 with hlt | hcut
      · exact hts hlt
      · exact hrest.1 (by omega) hcut
    · have hle' := hrest.2 fun hcut' => hcut ⟨by omega, .inr hcut'⟩
      omega

theorem seen_le (hi : i < ts) :
    i + max BIT16SZ (statcheckSeen (buf.slice i (statLen buf i))) ≤ ts ↔ ¬ CutEntry (buf.slice i (ts - i)) := by
  have hm : statLen buf i = BIT16SZ + (gbit16 (buf.slice i BIT16SZ)).toNat := rfl
  have h2 : BIT16SZ ≤ statLen buf i := by omega
  by_cases hone : ts - i < BIT16SZ
  · refine ⟨fun hseen => ?_, fun hcut => absurd (.inl ?_) hcut⟩
    · have hmax := Nat.le_max_left BIT16SZ (statcheckSeen (buf.slice i (statLen buf i)))
      omega
    · rw [Mem.length_slice]
      simp only [BIT16SZ] at hone
      omega
  have hsize : BIT16SZ + (gbit16 (buf.slice i (ts - i))).toNat = statLen buf i := by
    rw [gbit16_slice (by omega), hm]
  rw [CutEntry, hsize, Mem.length_slice, statcheckSeen, Mem.length_slice, gbit16_slice (n := statLen buf i) h2, ← hm]
  have hone' : ts - i ≠ 1 := by
    simp only [BIT16SZ] at hone
    omega
  by_cases hfix : statLen buf i < STATFIXLEN
  · rw [if_pos hfix]
    refine ⟨fun _ hcut => ?_, fun _ => ?_⟩
    · rcases hcut with hcut | ⟨-, hcut, -⟩
      · exact hone' hcut
      · exact Nat.not_le.2 hfix hcut
    · rw [Nat.max_eq_left zero_le]
      omega
  rw [if_neg hfix, if_neg (by simp)]
  have hstrs := @statcheckStrsSeen_le buf _ (statLen buf i) (STATFIXLEN - 4 * BIT16SZ) _ 4 hi.le
  refine ⟨fun hseen hcut => ?_, fun hcut => ?_⟩
  · rcases hcut with hcut | ⟨-, -, hcut⟩
    · exact hone' hcut
    · exact hstrs.1 (by omega) hcut
  · have hle := hstrs.2 fun hcut' => hcut (.inr ⟨by omega, by omega, hcut'⟩)
    omega

theorem eq_nil_of_flatten (hes : ∀ e ∈ es, statcheck e = true) (h : [] = es.flatten) : es = [] := by
  cases es with
  | nil => rfl
  | cons e es =>
    have hlen := (length_of_statcheck (hes e (mem_cons_self ..))).1
    rw [flatten_cons] at h
    rw [(append_eq_nil_iff.1 h.symm).1] at hlen
    exact absurd hlen (by decide)

theorem entries_unique {es' : List Bytes} (hes : ∀ e ∈ es, statcheck e = true) (hes' : ∀ e ∈ es', statcheck e = true)
    (h : es.flatten = es'.flatten) : es = es' := by
  induction es generalizing es' with
  | nil => exact (eq_nil_of_flatten hes' h).symm
  | cons e es ih =>
    cases es' with
    | nil => exact eq_nil_of_flatten hes h.symm
    | cons e' es' =>
      rw [flatten_cons, flatten_cons] at h
      obtain ⟨hfix, hlen⟩ := length_of_statcheck (hes e (mem_cons_self ..))
      obtain ⟨hfix', hlen'⟩ := length_of_statcheck (hes' e' (mem_cons_self ..))
      have hsize : gbit16 e = gbit16 e' := by
        have htake := congrArg (fun l => gbit16 (l.take BIT16SZ)) h
        rwa [take_append_of_le_length (hlen ▸ Nat.le_add_right ..),
          take_append_of_le_length (hlen' ▸ Nat.le_add_right ..), gbit16_take, gbit16_take] at htake
      obtain ⟨rfl, hrest⟩ := append_inj h (by rw [hlen, hlen', hsize])
      rw [ih (fun x hx => hes x (mem_cons_of_mem e hx)) (fun x hx => hes' x (mem_cons_of_mem e hx)) hrest]

theorem entry_front {r : Bytes} (he : statcheck e = true) (h : buf.slice i n = e ++ r) :
    statLen buf i ≤ n ∧ e = buf.slice i (statLen buf i) ∧ r = buf.slice (i + statLen buf i) (n - statLen buf i) := by
  obtain ⟨hfix, hlen⟩ := length_of_statcheck he
  have hn : e.length ≤ n := by
    have hlen := congrArg List.length h
    rw [Mem.length_slice, length_append] at hlen
    omega
  have htake : e = buf.slice i e.length := by
    rw [← Mem.take_slice hn, h, take_left]
  have hm : statLen buf i = e.length := by
    have h2 : BIT16SZ ≤ e.length := by
      simp only [STATFIXLEN, QIDSZ, BIT8SZ, BIT16SZ, BIT32SZ, BIT64SZ] at hfix ⊢
      omega
    rw [statLen, hlen, ← gbit16_slice h2, ← htake]
  rw [hm]
  refine ⟨hn, htake, ?_⟩
  rw [← Mem.drop_slice hn, h, drop_left]

theorem entries_front (hn : 0 < n) (hes : ∀ e ∈ es, statcheck e = true) (h : buf.slice i n = es.flatten) :
    ∃ es', es = buf.slice i (statLen buf i) :: es' ∧ statLen buf i ≤ n ∧
      buf.slice (i + statLen buf i) (n - statLen buf i) = es'.flatten := by
  cases es with
  | nil =>
    have hlen := congrArg List.length h
    rw [Mem.length_slice] at hlen
    exact absurd hlen hn.ne'
  | cons e es =>
    rw [flatten_cons] at h
    obtain ⟨hle, he, hrest⟩ := entry_front (hes e (mem_cons_self ..)) h
    exact ⟨es, by rw [← he], hle, hrest.symm⟩

theorem cut_nil : ¬ Cut [] := by
  rintro ⟨es, r, h, -, hcut⟩
  obtain ⟨-, rfl⟩ := append_eq_nil_iff.1 h.symm
  rcases hcut with hcut | ⟨hcut, -⟩
  · cases hcut
  · cases hcut

theorem cut_iff (hi : i < ts) : Cut (buf.slice i (ts - i)) ↔ CutEntry (buf.slice i (ts - i)) ∨
    (statcheck (buf.slice i (statLen buf i)) = true ∧ i + statLen buf i ≤ ts ∧
      Cut (buf.slice (i + statLen buf i) (ts - (i + statLen buf i)))) := by
  constructor
  · rintro ⟨es, r, h, hes, hcut⟩
    cases es with
    | nil =>
      rw [flatten_nil, nil_append] at h
      exact .inl (h ▸ hcut)
    | cons e es =>
      have he := hes e (mem_cons_self ..)
      rw [flatten_cons, append_assoc] at h
      obtain ⟨hle, heq, hrest⟩ := entry_front he h
      refine .inr ⟨heq ▸ he, by omega, es, r, ?_, fun e' he' => hes e' (mem_cons_of_mem e he'), hcut⟩
      rw [← Nat.sub_sub, ← hrest]
  · rintro (hcut | ⟨he, hle, es, r, h, hes, hcut⟩)
    · exact ⟨[], _, rfl, fun e he => absurd he not_mem_nil, hcut⟩
    · refine ⟨_ :: es, r, ?_, forall_mem_cons.2 ⟨he, hes⟩, hcut⟩
      rw [flatten_cons, append_assoc, ← h, ← Mem.slice_append]
      congr 1
      omega

theorem countStats_spec (k : Nat) {c : Count} (hk : ts - c.i ≤ k) (hi : c.i ≤ ts) :
    (∀ es : List Bytes, (∀ e ∈ es, statcheck e = true) → buf.slice c.i (ts - c.i) = es.flatten →
      (countStats buf ts k c).i = ts ∧ (countStats buf ts k c).n = c.n + es.length ∧
        (countStats buf ts k c).ss = c.ss + (ts - c.i)) ∧
      ((¬ ∃ es : List Bytes, (∀ e ∈ es, statcheck e = true) ∧ buf.slice c.i (ts - c.i) = es.flatten) →
        (countStats buf ts k c).i ≠ ts) ∧
      ((countStats buf ts k c).seen ≤ ts ↔ c.seen ≤ ts ∧ ¬ Cut (buf.slice c.i (ts - c.i))) := by
  have hend : c.i = ts → buf.slice c.i (ts - c.i) = [] := fun h => by
    rw [h, tsub_self]
    rfl
  induction k generalizing c with
  | zero =>
    have hts : c.i = ts := by omega
    rw [countStats, hend hts]
    refine ⟨fun es hes h => ?_, fun hno => ?_, ⟨fun hseen => ⟨hseen, cut_nil⟩, fun hseen => hseen.1⟩⟩
    · rw [eq_nil_of_flatten hes h]
      exact ⟨hts, rfl, by omega⟩
    · exact absurd ⟨[], fun e he => absurd he not_mem_nil, rfl⟩ hno
  | succ k ih =>
    rw [countStats]
    by_cases hlt : c.i < ts
    · rw [if_pos hlt]
      dsimp only
      have hm : BIT16SZ ≤ statLen buf c.i := Nat.le_add_right ..
      have hseen := @seen_le buf _ _ hlt
      have hcut := @cut_iff buf _ _ hlt
      set seen := max c.seen (c.i + max BIT16SZ (statcheckSeen (buf.slice c.i (statLen buf c.i)))) with hs
      have hseen' : seen ≤ ts ↔ c.seen ≤ ts ∧ ¬ CutEntry (buf.slice c.i (ts - c.i)) := by
        rw [← hseen, hs, Nat.max_le]
      clear hs hseen
      clear_value seen
      by_cases he : statcheck (buf.slice c.i (statLen buf c.i)) = true
      · rw [if_pos he]
        by_cases hle : c.i + statLen buf c.i ≤ ts
        · simp only [BIT16SZ] at hm
          obtain ⟨hok, hno, hrest⟩ := ih (c := ⟨c.i + statLen buf c.i, c.n + 1, c.ss + statLen buf c.i, seen⟩)
            (by dsimp only; omega) hle (fun h => by dsimp only at h ⊢; rw [h, tsub_self]; rfl)
          dsimp only at hok hno hrest
          have hsplit : buf.slice c.i (ts - c.i) = buf.slice c.i (statLen buf c.i) ++
              buf.slice (c.i + statLen buf c.i) (ts - (c.i + statLen buf c.i)) := by
            rw [← Mem.slice_append]
            congr 1
            omega
          refine ⟨fun es hes h => ?_, fun hno' => hno ?_, ?_⟩
          · obtain ⟨es, rfl, -, hes'⟩ := entries_front (by omega) hes h
            rw [Nat.sub_sub] at hes'
            obtain ⟨hi', hn, hss⟩ := hok es (fun e' he' => hes e' (mem_cons_of_mem _ he')) hes'
            rw [length_cons]
            exact ⟨hi', by omega, by omega⟩
          · rintro ⟨es, hes, h⟩
            refine hno' ⟨_ :: es, forall_mem_cons.2 ⟨he, hes⟩, ?_⟩
            rw [flatten_cons, hsplit, h]
          · rw [hrest, hseen', hcut, not_or, and_assoc]
            refine and_congr_right fun _ => and_congr_right fun _ => ?_
            rw [not_iff_not]
            exact ⟨fun h => ⟨he, hle, h⟩, fun h => h.2.2⟩
        · have hstop : countStats buf ts k ⟨c.i + statLen buf c.i, c.n + 1, c.ss + statLen buf c.i, seen⟩ =
              ⟨c.i + statLen buf c.i, c.n + 1, c.ss + statLen buf c.i, seen⟩ := by
            cases k with
            | zero => rfl
            | succ k => exact if_neg (by dsimp only; omega)
          rw [hstop]
          refine ⟨fun es hes h => ?_, fun _ => by dsimp only; omega, ?_⟩
          · obtain ⟨es, -, hfront, -⟩ := entries_front (by omega) hes h
            omega
          · rw [hseen', hcut]
            refine and_congr_right fun _ => not_congr ⟨.inl, ?_⟩
            rintro (h | ⟨-, h, -⟩)
            · exact h
            · exact absurd h hle
      · rw [if_neg he]
        refine ⟨fun es hes h => ?_, fun _ => hlt.ne, ?_⟩
        · obtain ⟨es, rfl, -, -⟩ := entries_front (by omega) hes h
          exact absurd (hes _ (mem_cons_self ..)) he
        · rw [hseen', hcut]
          refine and_congr_right fun _ => not_congr ⟨.inl, ?_⟩
          rintro (h | ⟨h, -⟩)
          · exact h
          · exact absurd h he
    · have hts : c.i = ts := by omega
      rw [if_neg hlt, hend hts]
      refine ⟨fun es hes h => ?_, fun hno => ?_, ⟨fun hseen => ⟨hseen, cut_nil⟩, fun hseen => hseen.1⟩⟩
      · rw [eq_nil_of_flatten hes h]
        exact ⟨hts, rfl, by omega⟩
      · exact absurd ⟨[], fun e he => absurd he not_mem_nil, rfl⟩ hno

/-- There is a NUL for the string at `o`, below `q`. -/
def Ends (mem : Bytes) (q o : Nat) : Prop := ∃ j, o ≤ j ∧ j < q ∧ mem[j]? = some 0

theorem Ends.mono {mem mem' : Bytes} {q q' o : Nat} (h : Ends mem q o) (hq : q ≤ q') (hm : mem'.take q = mem.take q) :
    Ends mem' q' o := by
  obtain ⟨j, hj, hlt, h0⟩ := h
  refine ⟨j, hj, by omega, ?_⟩
  have hget := congrArg (·[j]?) hm
  simp only [List.getElem?_take_of_lt hlt] at hget
  rw [hget, h0]

theorem Ends.cstrAt_eq {mem mem' : Bytes} {q o : Nat} (h : Ends mem q o) (hm : mem'.take q = mem.take q) :
    cstrAt mem' o = cstrAt mem o := by
  obtain ⟨j, hj, hlt, h0⟩ := h
  obtain ⟨d, rfl⟩ := Nat.exists_eq_add_of_le hj
  have hget := congrArg (·[o + d]?) hm
  simp only [List.getElem?_take_of_lt hlt] at hget
  have hsplit : ∀ l : Bytes, l[o + d]? = some 0 → l.drop o = (l.drop o).take d ++ 0 :: (l.drop o).drop (d + 1) := by
    intro l hl
    rw [← List.getElem?_drop] at hl
    obtain ⟨hlen, hl⟩ := List.getElem?_eq_some_iff.1 hl
    rw [← hl, ← drop_eq_getElem_cons, take_append_drop]
  have htake : (mem'.drop o).take d = (mem.drop o).take d := by
    have hk := congrArg (fun l => (l.take (o + d)).drop o) hm
    rwa [take_take, take_take, min_eq_left hlt.le, drop_take, drop_take,
      Nat.add_sub_cancel_left]
      at hk
  refine CStr.ext ?_
  show (mem'.drop o).takeWhile _ = (mem.drop o).takeWhile _
  rw [hsplit mem' (hget.trans h0), hsplit mem h0, htake, takeWhile_nul, takeWhile_nul]

theorem getStrs_frame {ebuf q : Nat} (j : Nat) {w w' : Walk} (hq : w.strs = some q)
    (h : getStrs i ebuf j w = some (.inr w')) :
    ∃ q', w'.strs = some q' ∧ q ≤ q' ∧ q' + w.p ≤ q + w'.p ∧ w'.mem.length = w.mem.length ∧
      w'.mem.take q = w.mem.take q ∧ ∃ sv, w'.sv = w.sv ++ sv ∧ sv.length = j ∧ ∀ o ∈ sv, Ends w'.mem q' o := by
  induction j generalizing w q with
  | zero =>
    cases h
    exact ⟨q, hq, le_rfl, le_rfl, rfl, rfl, [], by simp, rfl, fun o ho => absurd ho not_mem_nil⟩
  | succ j ih =>
    rw [getStrs] at h
    split_ifs at h with h2
    · cases h
    obtain ⟨ns, -, h⟩ := bind_eq_some_iff.1 h
    dsimp only at h
    split_ifs at h with hns
    · cases h
    rw [hq] at h
    obtain ⟨bs, hbs, h⟩ := bind_eq_some_iff.1 h
    obtain ⟨mem, hmem, h⟩ := bind_eq_some_iff.1 h
    have hlen : bs.length = (gbit16 ns).toNat := by
      unfold peek at hbs
      split_ifs at hbs with hin
      cases hbs
      rw [length_take, length_drop]
      omega
    unfold poke0 at hmem
    split_ifs at hmem with hfit
    cases hmem
    obtain ⟨q', hq', hle, hpq, hl, htake, sv, hsv, hj, hends⟩ := ih rfl h
    dsimp only at hpq hl htake hsv hle
    refine ⟨q', hq', by omega, ?_, hl.trans (poke_length hfit), ?_, q :: sv, ?_, by rw [length_cons, hj], ?_⟩
    · simp only [BIT16SZ] at hpq
      omega
    · have hq'' := congrArg (List.take q) htake
      rw [take_take, take_take, min_eq_left (by omega)] at hq''
      rw [hq'', poke_take hfit le_rfl]
    · rw [hsv, append_assoc]
      rfl
    refine forall_mem_cons.2 ⟨?_, hends⟩
    have hself : Ends (w.mem.take q ++ (bs ++ [0]) ++ w.mem.drop (q + (bs.length + 1))) (q + (bs.length + 1)) q := by
      refine ⟨q + bs.length, Nat.le_add_right .., by omega, ?_⟩
      have hget := congrArg (·[bs.length]?) (poke_holds hfit)
      simp only [List.getElem?_drop] at hget
      rw [List.getElem?_take_of_lt (by omega)] at hget
      rw [hget, List.getElem?_append_right le_rfl, tsub_self]
      rfl
    rw [hlen] at hself
    refine hself.mono hle ?_
    rw [← hlen] at htake ⊢
    exact htake

theorem convM2D_entry {mem : Bytes} {q : Nat} (h : Laid mem i e) (he : statcheck e = true) (hq : i + e.length ≤ q)
    (hroom : q + e.length ≤ mem.length) :
    ∃ r, convM2D mem i e.length freshDir (some q) = some r ∧ r.ret = e.length ∧ r.mem.length = mem.length ∧
      r.mem.take q = mem.take q ∧ ∀ mem' : Bytes, mem'.take (q + e.length) = r.mem.take (q + e.length) →
        r.dir.map (StrPtr.deref mem') = Dir.ofEntry e := by
  obtain ⟨r, hr, hview⟩ := @convM2D_eq _ _ _ freshDir (some q) h (.inr ⟨hq, hroom⟩) (by decide)
  have hret : r.ret = e.length := (congrArg Prod.fst hview).trans (entry_of_statcheck he _ _)
  have hdir : r.dir.map (StrPtr.deref r.mem) = Dir.ofEntry e := congrArg Prod.snd hview
  refine ⟨r, hr, hret, ?_⟩
  have hfix := (length_of_statcheck he).1
  have hpos : 0 < e.length := lt_of_lt_of_le (by decide) hfix
  unfold convM2D at hr
  rw [if_neg (Nat.not_lt.2 hfix), getFixed_eq h hfix] at hr
  dsimp only [bind, Option.bind] at hr
  cases hstrs : getStrs i (i + e.length) 4 ⟨mem, i + 41, some q, []⟩ with
  | none =>
    rw [hstrs] at hr
    cases hr
  | some x =>
    rw [hstrs] at hr
    cases x with
    | inl w =>
      cases hr
      exact absurd hret hpos.ne
    | inr w =>
      obtain ⟨q', -, -, hpq, hlen, htake, sv, hsv, hfour, hends⟩ := getStrs_frame 4 rfl hstrs
      cases hr
      dsimp only at hret hpq hlen htake hsv hdir ⊢
      refine ⟨hlen, htake, fun mem' hmem' => ?_⟩
      rw [← hdir]
      rw [nil_append] at hsv
      have hq' : q' ≤ q + e.length := by omega
      have hstr : ∀ k, k < 4 → cstrAt mem' (w.sv.getD k 0) = cstrAt w.mem (w.sv.getD k 0) := by
        intro k hk
        have hmem : w.sv.getD k 0 ∈ sv := by
          rw [hsv, getD_eq_getElem _ _ (by omega)]
          exact getElem_mem _
        exact ((hends _ hmem).mono hq' rfl).cstrAt_eq hmem'
      simp only [Dir.map, isSome_some, if_true, StrPtr.deref]
      rw [hstr 0 (by decide), hstr 1 (by decide), hstr 2 (by decide), hstr 3 (by decide)]

theorem convertStats_spec (k : Nat) {mem : Bytes} {nn q : Nat} {d : List (Dir StrPtr)} {vs : List (Dir CharPtr)}
    (hk : ts - i ≤ k) (hi : i ≤ ts) (hes : ∀ e ∈ es, statcheck e = true) (hlaid : Laid mem i es.flatten)
    (hts : i + es.flatten.length = ts) (hn : nn + es.length = n) (hq : ts ≤ q)
    (hroom : q + es.flatten.length ≤ mem.length)
    (hd : ∀ mem' : Bytes, mem'.take q = mem.take q → d.map (Dir.map (StrPtr.deref mem')) = vs) :
    ∃ mem' d', convertStats ts n k mem i nn q d = some (.inr (n, mem', d')) ∧
      d'.map (Dir.map (StrPtr.deref mem')) = vs ++ es.map Dir.ofEntry := by
  induction es generalizing k mem i nn q d vs with
  | nil =>
    have hend : i = ts := hts
    rw [length_nil, add_zero] at hn
    refine ⟨mem, d, ?_, by rw [hd mem rfl, map_nil, append_nil]⟩
    cases k with
    | zero => rw [convertStats, hn]
    | succ k => rw [convertStats, if_neg (by omega), hn]
  | cons e es ih =>
    have he := hes e (mem_cons_self ..)
    obtain ⟨hfix, hsize⟩ := length_of_statcheck he
    have hpos : 0 < e.length := lt_of_lt_of_le (by decide) hfix
    have h2 : BIT16SZ ≤ e.length := hsize ▸ Nat.le_add_right ..
    rw [flatten_cons, length_append] at hts hroom
    rw [flatten_cons] at hlaid
    have hfits := hlaid.fits
    rw [length_append] at hfits
    have hfront : Laid mem i e := by
      refine ⟨by omega, ?_⟩
      have heq := congrArg (List.take e.length) hlaid.eq
      rw [take_left, length_append, drop_take, take_take, min_eq_left (by omega)] at heq
      rw [drop_take, Nat.add_sub_cancel_left, heq]
    have hrest : Laid mem (i + e.length) es.flatten := by
      refine ⟨by omega, ?_⟩
      have heq := congrArg (List.drop e.length) hlaid.eq
      rwa [drop_left, drop_drop, length_append, ← add_assoc] at heq
    have hpeek : peek mem 0 ts i BIT16SZ = some (e.take BIT16SZ) := by
      rw [peek_eq zero_le (by omega) (by omega), ← hfront.eq, drop_take, drop_take, take_take,
        take_take]
      congr 2
      omega
    obtain ⟨r, hr, hret, hlen, htake, hdir⟩ := convM2D_entry (q := q) hfront he (by omega) (by omega)
    cases k with
    | zero => omega
    | succ k =>
      rw [length_cons] at hn
      rw [convertStats, if_pos (by omega), hpeek]
      dsimp only [bind, Option.bind]
      rw [gbit16_take, ← hsize, if_neg (by omega), hr]
      dsimp only
      rw [if_neg (not_not_intro hret)]
      have hkeep : r.mem.take (i + e.length + es.flatten.length) = mem.take (i + e.length + es.flatten.length) := by
        have hk := congrArg (List.take (i + e.length + es.flatten.length)) htake
        rwa [take_take, take_take, min_eq_left (by omega)] at hk
      have hd' : ∀ mem' : Bytes, mem'.take (q + e.length) = r.mem.take (q + e.length) →
          (d ++ [r.dir]).map (Dir.map (StrPtr.deref mem')) = vs ++ [Dir.ofEntry e] := by
        intro mem' hmem'
        have hold := congrArg (List.take q) hmem'
        rw [take_take, take_take, min_eq_left (Nat.le_add_right ..), htake] at hold
        rw [map_append, hd mem' hold, map_cons, map_nil, hdir mem' hmem']
      have hn' : nn + 1 + es.length = n := by omega
      have hlaid' : Laid r.mem (i + e.length) es.flatten :=
        ⟨by rw [hlen]; exact hrest.fits, by rw [hkeep]; exact hrest.eq⟩
      have hroom' : q + e.length + es.flatten.length ≤ r.mem.length := by omega
      obtain ⟨mem', d', hconv, hall⟩ := ih k (i := i + e.length) (by omega) (by omega)
        (fun e' he' => hes e' (mem_cons_of_mem e he')) hlaid' (by omega) hn' (by omega) hroom' hd'
      refine ⟨mem', d', hconv, ?_⟩
      rw [hall, append_assoc]
      rfl

theorem convertStats_all (hes : ∀ e ∈ es, statcheck e = true) (h : buf.slice 0 ts = es.flatten) :
    ∃ mem d, convertStats ts es.length ts (buf.slice 0 ts ++ List.replicate ts 0) 0 0 ts [] =
      some (.inr (es.length, mem, d)) ∧ d.map (Dir.map (StrPtr.deref mem)) = [] ++ es.map Dir.ofEntry := by
  have hlen := congrArg List.length h
  rw [Mem.length_slice] at hlen
  have hroom : (buf.slice 0 ts ++ List.replicate ts (0 : UInt8)).length = ts + ts := by
    rw [length_append, Mem.length_slice, length_replicate]
  have hlaid : Laid (buf.slice 0 ts ++ List.replicate ts 0) 0 es.flatten := by
    refine ⟨by omega, ?_⟩
    rw [zero_add, drop_zero, ← hlen, take_left' Mem.length_slice, h]
  exact convertStats_spec ts (Nat.sub_le ..) zero_le hes hlaid (by omega) (zero_add _) le_rfl (by omega)
    fun _ _ => rfl

/-- `dirpackage` looks beyond what was read if this ends within a size or the length of a string, and in no other way
does it go wrong. -/
theorem unpacked_iff (buf : Mem) (ts : Nat) :
    (∃ r, dirpackage buf ts = some r ∧ Unpacked buf ts r) ↔ ¬ Cut (buf.slice 0 ts) := by
  by_cases hts : ts = 0
  · subst hts
    have hr : dirpackage buf (0 : Nat) = some ⟨none, .ok 0, 0⟩ := rfl
    refine ⟨fun _ => cut_nil, fun _ => ⟨_, hr, fun es hes h => ?_, fun hno => ?_, le_rfl⟩⟩
    · rw [eq_nil_of_flatten hes h]
      exact ⟨rfl, rfl⟩
    · exact absurd ⟨[], fun e he => absurd he List.not_mem_nil, rfl⟩ hno
  · obtain ⟨hok, hno, hseen⟩ := @countStats_spec buf _ ts ⟨0, 0, 0, 0⟩ (Nat.sub_le ..) (Nat.zero_le ts)
    dsimp only at hok hno hseen
    rw [Nat.sub_zero] at hok hno hseen
    have hpos : ¬ (ts : Int) ≤ 0 := by omega
    have heq : ∀ r, dirpackage buf ts = some r → r.seen = (countStats buf ts ts ⟨0, 0, 0, 0⟩).seen := by
      intro r hr
      rw [dirpackage, if_neg hpos] at hr
      dsimp only [Int.toNat_natCast] at hr
      split_ifs at hr with hc
      · cases hr
        rfl
      · obtain ⟨x, -, hr⟩ := Option.bind_eq_some_iff.1 hr
        cases x with
        | inl => cases hr; rfl
        | inr => cases hr; rfl
    refine ⟨fun ⟨r, hr, hun⟩ => (hseen.1 (heq r hr ▸ hun.seen)).2, fun hcut => ?_⟩
    have hle := hseen.2 ⟨Nat.zero_le ts, hcut⟩
    by_cases hes : ∃ es : List Bytes, (∀ e ∈ es, statcheck e = true) ∧ buf.slice 0 ts = es.flatten
    · obtain ⟨es, hes, h⟩ := hes
      obtain ⟨hi, hn, hss⟩ := hok es hes h
      have hlen := congrArg List.length h
      rw [Mem.length_slice] at hlen
      obtain ⟨mem', d', hconv, hall⟩ := convertStats_all hes h
      refine ⟨⟨some (es.map Dir.ofEntry), .ok es.length, (countStats buf ts ts ⟨0, 0, 0, 0⟩).seen⟩, ?_,
        fun es' hes' h' => ?_, fun hno' => ?_, hle⟩
      · rw [dirpackage, if_neg hpos]
        dsimp only [Int.toNat_natCast]
        rw [if_neg (not_not_intro hi), hn, hss, Nat.zero_add, Nat.zero_add, hconv]
        dsimp only [bind, Option.bind, pure]
        rw [hall, List.nil_append]
      · rw [← entries_unique hes hes' (h.symm.trans h')]
        refine ⟨rfl, (if_neg ?_).symm⟩
        rintro rfl
        exact hts hlen
      · exact absurd ⟨es, hes, h⟩ hno'
    · refine ⟨⟨none, .error "bad directory format", (countStats buf ts ts ⟨0, 0, 0, 0⟩).seen⟩, ?_, fun es hes' h => ?_,
        fun _ => ⟨⟨_, rfl⟩, rfl⟩, hle⟩
      · rw [dirpackage, if_neg hpos]
        dsimp only [Int.toNat_natCast]
        rw [if_pos (hno hes)]
      · exact absurd ⟨es, hes', h⟩ hes

/-- The second byte of the size is not the reader's. -/
theorem not_unpacked : ¬ ∀ (buf : Mem) (ts : Nat), ∃ r, dirpackage buf ts = some r ∧ Unpacked buf ts r := by
  intro hall
  obtain ⟨r, hr, hun⟩ := hall (fun _ => 0) 1
  have hseen := hun.seen
  rw [← Option.some.inj hr] at hseen
  revert hseen
  decide

end Node9
