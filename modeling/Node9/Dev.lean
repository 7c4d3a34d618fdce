import Node9.ConvDir
import Node9.Lib.Listing

/-!
# Directories of devices (`dev.c`)

A generator says what is in slot `i` of a directory: an entry, nothing, or that there are no more. `devdirread` walks
the slots from `c->dri` on, and leaves in `c->dri` where it has come to. The strings of an entry are counted in an
`int`, and `convD2M` has a `uint` for the room.
-/

namespace Node9.Dev
open Buf Listing List

def Eshort : String := "i/o count too small"

structure Stat where
  dir : Dir CharPtr
  size_lt : dir.size < 2 ^ 32

/-- What a generator returns: -1, 0 or 1. -/
inductive Gen
  | stop
  | skip
  | entry (d : Stat)

/-- What a read returns or the error that it raises, what is in the buffer, and `c->dri`. -/
structure DirRead where
  ret : Except String Nat
  buf : Bytes
  dri : Nat

def devdirreadLoop (gen : Nat → Gen) : Nat → Bytes → Nat → Nat → Option DirRead
  | 0, _, _, _ => none
  | k + 1, buf, m, dri =>
    if m < buf.length then
      match gen dri with
      | .stop => some ⟨.ok m, buf, dri⟩
      | .skip => devdirreadLoop gen k buf m (dri + 1)
      | .entry d =>
        let nbuf := (buf.length - m) % 2 ^ 32
        (convD2M d.dir ((buf.drop m).take nbuf)).bind fun x =>
          let dsz := x.1.toNat
          let buf := buf.take m ++ (x.2 ++ buf.drop (m + nbuf))
          if dsz ≤ BIT16SZ then some ⟨if m = 0 then .error Eshort else .ok m, buf, dri⟩
          else devdirreadLoop gen k buf (m + dsz) (dri + 1)
    else some ⟨.ok m, buf, dri⟩

/-- The buffer is as long as the count. There is no result if the rounds do not suffice, or a byte beyond the buffer is
written. -/
def devdirread (gen : Nat → Gen) (k : Nat) (buf : Bytes) (dri : Nat) : Option DirRead :=
  devdirreadLoop gen k buf 0 dri

def DirRead.result (r : DirRead) : Except String Bytes := r.ret.map fun m => r.buf.take m

def devdirreads (gen : Nat → Gen) (k : Nat) : List Bytes → Nat → Option (List (Except String Bytes) × Nat)
  | [], dri => some ([], dri)
  | buf :: bufs, dri =>
    (devdirread gen k buf dri).bind fun r =>
      (devdirreads gen k bufs r.dri).map fun x => (r.result :: x.1, x.2)

def Gen.bytes : Gen → Option Bytes
  | .entry d => some d.dir.bytes
  | _ => none

/-- The encodings of what is in the slots from `dri` up to `stop`. -/
def entries (gen : Nat → Gen) (dri stop : Nat) : List Bytes :=
  (range' dri (stop - dri)).filterMap fun i => (gen i).bytes

/-- The first slot in which there are no more. -/
structure Stops (gen : Nat → Gen) (stop : Nat) : Prop where
  at_stop : gen stop = .stop
  before : ∀ i < stop, gen i ≠ .stop

variable {gen : Nat → Gen} {stop dri m k : Nat} {d : Stat} {buf : Bytes}

theorem length_bytes_pos (d : Dir CharPtr) : 0 < d.bytes.length := by
  rw [Dir.length_bytes]
  exact lt_of_lt_of_le (by decide) (Nat.le_add_right STATFIXLEN _)

theorem entries_stop : entries gen stop stop = [] := by
  rw [entries, tsub_self]
  rfl

theorem entries_cons (h : dri < stop) :
    entries gen dri stop = ((gen dri).bytes.toList) ++ entries gen (dri + 1) stop := by
  have hlen : stop - dri = stop - (dri + 1) + 1 := by omega
  rw [entries, hlen, range'_succ, filterMap_cons, ← entries]
  cases (gen dri).bytes <;> rfl

theorem entries_ne_nil : ∀ e ∈ entries gen dri stop, e ≠ [] := by
  intro e he
  obtain ⟨i, -, hi⟩ := mem_filterMap.1 he
  cases hg : gen i with
  | stop =>
    rw [hg] at hi
    cases hi
  | skip =>
    rw [hg] at hi
    cases hi
  | entry d =>
    rw [hg] at hi
    cases hi
    exact length_pos_iff.1 (length_bytes_pos d.dir)

theorem exists_stops (h : ∃ i, gen i = .stop) : ∃ stop, Stops gen stop := by
  classical
  exact ⟨Nat.find h, Nat.find_spec h, fun i hi => Nat.find_min h hi⟩

theorem Stops.lt (hs : Stops gen stop) (hdri : dri ≤ stop) (h : gen dri ≠ .stop) : dri < stop := by
  refine lt_of_le_of_ne hdri fun heq => h ?_
  rw [heq, hs.at_stop]

theorem Stops.eq (hs : Stops gen stop) (hdri : dri ≤ stop) (h : gen dri = .stop) : dri = stop := by
  by_contra hne
  exact hs.before dri (by omega) h

theorem entries_skip (hlt : dri < stop) (h : gen dri = .skip) : entries gen dri stop = entries gen (dri + 1) stop := by
  rw [entries_cons hlt, h]
  rfl

theorem entries_entry (hlt : dri < stop) (h : gen dri = .entry d) :
    entries gen dri stop = d.dir.bytes :: entries gen (dri + 1) stop := by
  rw [entries_cons hlt, h]
  rfl

theorem devdirreadLoop_entry (hm : m < buf.length) (hlt : buf.length < 2 ^ 32) (hg : gen dri = .entry d) :
    (d.dir.size ≤ buf.length - m → devdirreadLoop gen (k + 1) buf m dri = devdirreadLoop gen k
      (buf.take m ++ (d.dir.bytes ++ buf.drop (m + d.dir.size))) (m + d.dir.size) (dri + 1)) ∧
    (buf.length - m < d.dir.size → ∃ buf', devdirreadLoop gen (k + 1) buf m dri =
      some ⟨if m = 0 then .error Eshort else .ok m, buf', dri⟩ ∧ buf'.take m = buf.take m) := by
  have hnbuf : (buf.length - m) % 2 ^ 32 = buf.length - m := Nat.mod_eq_of_lt (by omega)
  have htake : (buf.drop m).take (buf.length - m) = buf.drop m := take_of_length_le (by rw [length_drop])
  have hrest : buf.drop (m + (buf.length - m)) = [] := drop_eq_nil_of_le (by omega)
  have hlen : (buf.drop m).length = buf.length - m := length_drop ..
  rw [devdirreadLoop, if_pos hm, hg]
  dsimp only
  rw [hnbuf, htake, hrest]
  refine ⟨fun hfit => ?_, fun hshort => ?_⟩
  · have hss := toNat_sizeD2M d.size_lt
    have hfix : STATFIXLEN ≤ d.dir.size := Nat.le_add_right ..
    have hbig : BIT16SZ < STATFIXLEN := by decide
    rw [convD2M_fits d.size_lt (by omega), Option.bind_some, hss, if_neg (by omega), drop_drop, append_nil]
  · obtain ⟨n, b, hconv, hn, -⟩ := @convD2M_short _ (buf.drop m) d.size_lt (by omega)
    rw [hconv, Option.bind_some, if_pos hn]
    exact ⟨_, rfl, take_left' (length_take_of_le hm.le)⟩

theorem devdirreadLoop_fill (hs : Stops gen stop) (hdri : dri ≤ stop) (hk : stop - dri < k) (hm : m ≤ buf.length)
    (hlt : buf.length < 2 ^ 32) (hshort : m = 0 → ¬ Short (entries gen dri stop) buf.length) :
    ∃ buf' dri', devdirreadLoop gen k buf m dri =
        some ⟨.ok (m + (fill (buf.length - m) (entries gen dri stop)).1.flatten.length), buf', dri'⟩ ∧
      dri' ≤ stop ∧ entries gen dri' stop = (fill (buf.length - m) (entries gen dri stop)).2 ∧
      buf'.take (m + (fill (buf.length - m) (entries gen dri stop)).1.flatten.length) =
        buf.take m ++ (fill (buf.length - m) (entries gen dri stop)).1.flatten := by
  induction k generalizing buf m dri with
  | zero => omega
  | succ k ih =>
    by_cases hroom : m < buf.length
    · cases hg : gen dri with
      | stop =>
        obtain rfl := hs.eq hdri hg
        rw [devdirreadLoop, if_pos hroom, hg, entries_stop]
        exact ⟨buf, dri, rfl, le_rfl, entries_stop, by simp [fill]⟩
      | skip =>
        have hlt' := hs.lt hdri (by rw [hg]; exact Gen.noConfusion)
        rw [devdirreadLoop, if_pos hroom, hg, entries_skip hlt' hg]
        rw [entries_skip hlt' hg] at hshort
        exact ih hlt' (by omega) hm hlt hshort
      | entry d =>
        have hlt' := hs.lt hdri (by rw [hg]; exact Gen.noConfusion)
        obtain ⟨hfits, hends⟩ := devdirreadLoop_entry (k := k) hroom hlt hg
        have hsize := Dir.length_bytes d.dir
        rw [entries_entry hlt' hg] at hshort ⊢
        by_cases hfit : d.dir.size ≤ buf.length - m
        · have hlen : (buf.take m ++ (d.dir.bytes ++ buf.drop (m + d.dir.size))).length = buf.length := by
            rw [length_append, length_append, length_take_of_le hm, length_drop]
            omega
          have hpos := length_bytes_pos d.dir
          obtain ⟨buf', dri', hloop, hle, hleft, htake⟩ := @ih
            _ (m + d.dir.size) (buf.take m ++ (d.dir.bytes ++ buf.drop (m + d.dir.size))) hlt' (by omega) (by omega)
            (by omega) (by omega)
          have hfill : fill (buf.length - m) (d.dir.bytes :: entries gen (dri + 1) stop) =
              (d.dir.bytes :: (fill (buf.length - m - d.dir.size) (entries gen (dri + 1) stop)).1,
                (fill (buf.length - m - d.dir.size) (entries gen (dri + 1) stop)).2) := by
            rw [fill, if_neg (by omega), hsize]
          rw [hlen, Nat.sub_add_eq] at hloop hleft htake
          rw [hfits hfit, hfill]
          dsimp only
          rw [flatten_cons, length_append, hsize, ← add_assoc]
          refine ⟨buf', dri', hloop, hle, hleft, ?_⟩
          rw [htake, ← append_assoc, take_left', append_assoc]
          rw [length_append, length_take_of_le hm, hsize]
        · obtain ⟨buf', hloop, htake⟩ := hends (by omega)
          have hpos : m ≠ 0 := by
            rintro rfl
            exact hshort rfl (short_cons.2 ⟨hroom, by omega⟩)
          have hfill : fill (buf.length - m) (d.dir.bytes :: entries gen (dri + 1) stop) =
              ([], d.dir.bytes :: entries gen (dri + 1) stop) := if_pos (by omega)
          rw [if_neg hpos] at hloop
          rw [hfill]
          exact ⟨buf', dri, hloop, hdri, entries_entry hlt' hg, by simpa using htake⟩
    · have hmlen : buf.length - m = 0 := by omega
      rw [devdirreadLoop, if_neg hroom, hmlen, fill_zero entries_ne_nil]
      exact ⟨buf, dri, rfl, hdri, rfl, by simp⟩

theorem devdirread_short (hs : Stops gen stop) (hdri : dri ≤ stop) (hk : stop - dri < k) (hlt : buf.length < 2 ^ 32)
    (hshort : Short (entries gen dri stop) buf.length) :
    ∃ buf' dri', devdirread gen k buf dri = some ⟨.error Eshort, buf', dri'⟩ ∧ dri' ≤ stop ∧
      entries gen dri' stop = entries gen dri stop := by
  unfold devdirread
  induction k generalizing dri with
  | zero => omega
  | succ k ih =>
    cases hg : gen dri with
    | stop =>
      obtain rfl := hs.eq hdri hg
      rw [entries_stop] at hshort
      exact absurd hshort not_short_nil
    | skip =>
      have hlt' := hs.lt hdri (by rw [hg]; exact Gen.noConfusion)
      rw [entries_skip hlt' hg] at hshort ⊢
      rw [devdirreadLoop, if_pos hshort.1, hg]
      exact ih hlt' (by omega) hshort
    | entry d =>
      have hlt' := hs.lt hdri (by rw [hg]; exact Gen.noConfusion)
      have hsize := Dir.length_bytes d.dir
      have hent := entries_entry hlt' hg
      rw [hent, short_cons] at hshort
      obtain ⟨-, hends⟩ := devdirreadLoop_entry (k := k) (m := 0) hshort.1 hlt hg
      obtain ⟨buf', hloop, -⟩ := hends (by omega)
      exact ⟨buf', dri, hloop, hdri, rfl⟩

theorem devdirread_spec (hs : Stops gen stop) (hdri : dri ≤ stop) (hk : stop - dri < k) (hlt : buf.length < 2 ^ 32) :
    ∃ r, devdirread gen k buf dri = some r ∧ r.dri ≤ stop ∧
      Reading (entries gen dri stop) buf.length r.result (entries gen r.dri stop) := by
  by_cases hshort : Short (entries gen dri stop) buf.length
  · obtain ⟨buf', dri', hr, hle, hleft⟩ := devdirread_short hs hdri hk hlt hshort
    refine ⟨_, hr, hle, ?_⟩
    dsimp only
    rw [hleft]
    exact .short Eshort hshort
  obtain ⟨buf', dri', hr, hle, hleft, htake⟩ := devdirreadLoop_fill (m := 0) hs hdri hk zero_le hlt
    fun _ => hshort
  refine ⟨_, hr, hle, ?_⟩
  rw [Nat.sub_zero, take_zero, nil_append] at htake
  rw [Nat.sub_zero] at hleft
  have hres : (⟨.ok (0 + (fill (buf.length - 0) (entries gen dri stop)).1.flatten.length), buf',
    dri'⟩ : DirRead).result =
      .ok (fill buf.length (entries gen dri stop)).1.flatten := congrArg Except.ok htake
  rw [hres]
  dsimp only
  rw [hleft]
  exact .fill entries_ne_nil hshort

/-! ### Reading to the end -/

theorem devdirreads_spec {bufs : List Bytes} (hs : Stops gen stop) (hdri : dri ≤ stop) (hk : stop < k)
    (hlt : ∀ buf ∈ bufs, buf.length < 2 ^ 32) :
    ∃ rs dri', devdirreads gen k bufs dri = some (rs, dri') ∧ dri' ≤ stop ∧
      Readings (entries gen dri stop) (bufs.map length) rs (entries gen dri' stop) := by
  induction bufs generalizing dri with
  | nil => exact ⟨[], dri, rfl, hdri, .nil _⟩
  | cons buf bufs ih =>
    obtain ⟨hbuf, hbufs⟩ := forall_mem_cons.1 hlt
    obtain ⟨r, hr, hle, hread⟩ := devdirread_spec (k := k) hs hdri (by omega) hbuf
    obtain ⟨rs, dri', hrs, hle', hreads⟩ := ih hle hbufs
    refine ⟨r.result :: rs, dri', ?_, hle', .cons hread hreads⟩
    rw [devdirreads, hr, Option.bind_some, hrs]
    rfl

/-- The reads of an open directory give all of its entries, in their order, and a read of something that is too small
for the next one is an error that loses nothing. -/
theorem devdirread_all {bufs : List Bytes} (h : ∃ i, gen i = .stop) (hlt : ∀ buf ∈ bufs, buf.length < 2 ^ 32) :
    ∃ stop, Stops gen stop ∧ ∀ k, stop < k → ∃ rs dri, devdirreads gen k bufs 0 = some (rs, dri) ∧
      Readings (entries gen 0 stop) (bufs.map length) rs (entries gen dri stop) ∧
      given rs ++ (entries gen dri stop).flatten = (entries gen 0 stop).flatten ∧
      ((∀ buf ∈ bufs, buf ≠ []) → (∀ r ∈ rs, ∃ d, r = .ok d) → (entries gen 0 stop).length ≤ bufs.length →
        given rs = (entries gen 0 stop).flatten) := by
  obtain ⟨stop, hs⟩ := exists_stops h
  refine ⟨stop, hs, fun k hk => ?_⟩
  obtain ⟨rs, dri, hrs, -, hreads⟩ := devdirreads_spec hs (Nat.zero_le stop) hk hlt
  refine ⟨rs, dri, hrs, hreads, hreads.given_append, fun hne hok hlen => hreads.all ?_ hok (by rwa [length_map])⟩
  intro n hn
  obtain ⟨buf, hbuf, rfl⟩ := mem_map.1 hn
  exact length_pos_iff.2 (hne buf hbuf)

def oneEntry : Nat → Gen
  | 0 => .skip
  | 1 => .entry ⟨emptyDir 7, by decide⟩
  | _ => .stop

theorem devdirread_all_oneEntry : ∃ stop, Stops oneEntry stop ∧ ∀ k, stop < k → ∃ rs dri,
    devdirreads oneEntry k [replicate 60 0, replicate 60 0] 0 = some (rs, dri) ∧
      given rs ++ (entries oneEntry dri stop).flatten = (entries oneEntry 0 stop).flatten := by
  obtain ⟨stop, hs, hall⟩ := @devdirread_all oneEntry [replicate 60 0, replicate 60 0] ⟨2, rfl⟩
    (by decide)
  refine ⟨stop, hs, fun k hk => ?_⟩
  obtain ⟨rs, dri, hrs, -, hgiven, -⟩ := hall k hk
  exact ⟨rs, dri, hrs, hgiven⟩

/-- A read of no bytes is not an error. -/
theorem devdirread_zero : ¬ ∀ (gen : Nat → Gen) (stop dri k : Nat) (buf : Bytes), Stops gen stop → dri ≤ stop →
    stop - dri < k → (∃ e ∈ (entries gen dri stop).head?, buf.length < e.length) →
      ∃ r err, devdirread gen k buf dri = some r ∧ r.ret = .error err := by
  intro hall
  have hs : Stops oneEntry 2 := by
    refine ⟨rfl, fun i hi => ?_⟩
    obtain rfl | rfl : i = 0 ∨ i = 1 := by omega
    · exact Gen.noConfusion
    · exact Gen.noConfusion
  obtain ⟨r, err, hr, herr⟩ := hall oneEntry 2 0 3 [] hs (by decide) (by decide) ⟨(emptyDir 7).bytes, rfl, by decide⟩
  rw [← Option.some.inj hr] at herr
  cases herr

end Node9.Dev
