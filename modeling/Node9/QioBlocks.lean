import Node9.MntRdwr
import Node9.QioQueue

/-!
# Blocks with and without their addresses (`qio.c`)

`Blocks` has `pullupblock` and `qdiscard` on contents and room alone, and `MntRdwr` has `bl2mem`: what the functions on
blocks with addresses do, as long as there are bytes enough.
-/

namespace Node9.Qio
open Buf List

def Block.plain (b : Block) : Blocks.Block := ⟨b.data, b.room⟩

def plain (bp : List Block) : List Blocks.Block := bp.map Block.plain

variable {b : Block} {bp : List Block} {h : Heap}

theorem pullupLoop_plain {n : Nat} (hn : 0 < n) (hroom : n ≤ b.room) (hle : n ≤ total bp) :
    (pullupLoop b n bp h).map (fun r => plain r.1) = Blocks.pullup b.plain n (plain bp) := by
  induction bp generalizing b n h with
  | nil => exact absurd hle (Nat.not_le_of_lt hn)
  | cons c bp ih =>
    rw [total_cons] at hle
    unfold pullupLoop
    rw [plain, map_cons, Blocks.pullup]
    by_cases hlt : n < c.BLEN
    · have htake : (c.data.take n).length = n := length_take_of_le hlt.le
      have hgt : (c.BLEN : Int) > n := by exact_mod_cast hlt
      simp only [if_pos hgt, Int.toNat_natCast]
      rw [if_pos (c := c.plain.len > n) hlt, bind_some (put_ok (by rwa [htake])), htake]
      rfl
    have hc : c.data.length ≤ n := not_lt.1 hlt
    have hgt : ¬ (c.BLEN : Int) > n := by exact_mod_cast hlt
    simp only [if_neg hgt]
    rw [if_neg (c := c.plain.len > n) hlt, bind_some (put_ok (hc.trans hroom)), bind_some rfl]
    have hsub : (n : Int) - c.BLEN = (n - c.BLEN : Nat) := (Int.ofNat_sub hc).symm
    rw [hsub]
    by_cases hz : n - c.BLEN = 0
    · rw [if_pos (c := n - c.plain.len = 0) hz]
      simp only [hz, Nat.cast_zero, if_true]
      rfl
    have hz' : ((n - c.BLEN : Nat) : Int) ≠ 0 := by exact_mod_cast hz
    rw [if_neg (c := n - c.plain.len = 0) hz]
    simp only [if_neg hz']
    exact ih (Nat.pos_of_ne_zero hz) (Nat.sub_le_sub_right hroom _) (by omega)

theorem pullupblock_plain (hne : bp ≠ []) {n : Int} (hle : n ≤ total bp) :
    (pullupblock bp n h).map (fun r => plain r.1) = Blocks.pullupblock (plain bp) n := by
  obtain ⟨b, bp, rfl⟩ := exists_cons_of_ne_nil hne
  have hplain : Blocks.pullupblock (plain (b :: bp)) n = if n ≤ b.BLEN then some (plain (b :: bp))
      else if (b.BLEN + b.room : Int) < n then Blocks.pullup ⟨[], n.toNat⟩ n.toNat (plain (b :: bp))
      else Blocks.pullup b.plain (n - b.BLEN).toNat (plain bp) := rfl
  rw [hplain]
  unfold pullupblock
  by_cases hge : n ≤ b.BLEN
  · simp only [ge_iff_le, if_pos hge]
    rfl
  simp only [ge_iff_le, if_neg hge, Nat.cast_add]
  by_cases hroom : (b.BLEN + b.room : Int) < n
  · -- the new block has room for all of it
    obtain ⟨m, rfl⟩ := Int.eq_ofNat_of_zero_le (show 0 ≤ n by omega)
    simp only [if_pos hroom]
    rw [bind_some (allocb_ok (by omega))]
    exact pullupLoop_plain (by omega) le_rfl (by exact_mod_cast hle)
  · rw [total_cons] at hle
    obtain ⟨m, hm⟩ := Int.eq_ofNat_of_zero_le (show 0 ≤ n - b.BLEN by omega)
    simp only [if_neg hroom, hm]
    exact pullupLoop_plain (by omega) (by omega) (by omega)

namespace Fifo

theorem discardLoop_plain {len sofar : Int} {q : Fifo} (hq : q.bfirst = bp) (hle : sofar ≤ len) :
    plain (discardLoop len q sofar bp).2.bfirst = Blocks.qdiscard (plain bp) (len - sofar).toNat := by
  induction bp generalizing q sofar with
  | nil => exact congrArg plain hq
  | cons b bp ih =>
    have hplain : ∀ n, Blocks.qdiscard (plain (b :: bp)) n = if n = 0 then plain (b :: bp)
      else if b.BLEN ≤ n then Blocks.qdiscard (plain bp) (n - b.BLEN) else plain (b.skip n :: bp) := fun _ => rfl
    rw [hplain]
    unfold discardLoop
    by_cases hlt : sofar < len
    · have hz : (len - sofar).toNat ≠ 0 := by omega
      rw [if_pos hlt, if_neg hz]
      by_cases hfit : (b.BLEN : Int) ≤ len - sofar
      · have hfit' : b.BLEN ≤ (len - sofar).toNat := by omega
        have hrest : (len - sofar).toNat - b.BLEN = (len - (sofar + b.BLEN)).toNat := by omega
        rw [if_pos hfit, if_pos hfit', hrest]
        exact ih rfl (by omega)
      · have hfit' : ¬ b.BLEN ≤ (len - sofar).toNat := by omega
        rw [if_neg hfit, if_neg hfit']
    · rw [if_neg hlt, if_pos (by omega), hq]

theorem qdiscard_plain (q : Fifo) {len : Nat} :
    plain (q.qdiscard len).2.bfirst = Blocks.qdiscard (plain q.bfirst) len := by
  have h : plain (discardLoop len q 0 q.bfirst).2.bfirst = _ := discardLoop_plain rfl (Int.natCast_nonneg len)
  rw [sub_zero, Int.toNat_natCast] at h
  rw [← h]
  unfold qdiscard restart
  dsimp only
  split_ifs <;> rfl

end Fifo

/-- What is copied goes to `buf + p`. -/
theorem bl2mem_plain {buf : Bytes} {p n : Nat} (hroom : p + n ≤ buf.length) :
    MntRdwr.bl2mem buf p (plain bp) n = some (Buffers.overwrite buf p (bl2mem bp n).1, plain (bl2mem bp n).2) := by
  induction bp generalizing buf p n with
  | nil => exact congrArg (fun m => some (m, [])) (Buffers.overwrite_nil buf p).symm
  | cons b bp ih =>
    have hplain : MntRdwr.bl2mem buf p (plain (b :: bp)) n =
        if n < b.BLEN then (MntRdwr.put buf p (b.data.take n)).map fun buf => (buf, plain (b.skip n :: bp))
        else (MntRdwr.put buf p b.data).bind fun buf => MntRdwr.bl2mem buf (p + b.BLEN) (plain bp) (n - b.BLEN) := rfl
    rw [hplain]
    unfold bl2mem
    by_cases hlt : n < b.BLEN
    · rw [if_pos hlt, if_pos hlt, MntRdwr.put, if_pos (by rwa [length_take_of_le hlt.le])]
      rfl
    have hb : b.data.length ≤ n := not_lt.1 hlt
    have hput : p + b.data.length ≤ buf.length := by omega
    rw [if_neg hlt, if_neg hlt, MntRdwr.put, if_pos hput, Option.bind_some,
      ih (by rw [Buffers.length_overwrite hput, Block.BLEN]; omega), Block.BLEN, MntRdwr.overwrite_overwrite hput]

end Node9.Qio
