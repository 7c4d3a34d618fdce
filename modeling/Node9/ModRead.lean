import Node9.BufferRun

/-!
# Reading a module (`mod.read` of `fs/os/lib/kernel.lua`)

The file is read into `linebuf`, which is appended to `buf` as long as a read does not return zero; then the text
in `buf` is given to `load`, of which nothing is known. The reads of a file that is open are answered by `r`, the
`i`-th by `r i`. The buffers are two memories, and one of them is what a `BB` is about.

A read that fails returns -1, which is not zero, and leaves a `length` that the next append believes. As long as
no read fails, all goes well up to 2^31 - 2 bytes: for more the `alloc` of `buf` is doubled to zero. That a string of
LuaJIT has no more than 2^31 - 256 bytes is left out.
-/

namespace Node9.Buffers
open Buf List

/-- `m` on a memory that is not the current one. -/
def onOther {α β : Type} (m : BB α) (o : State) (k : α → State → BB β) : BB β := fun s =>
  match m o with
  | .ok a o' => k a o' s
  | .exit => .exit
  | .fault => .fault
  | .running => .running

/-- `M.new(size)` of the module `buffers` -/
def M.new (size : UInt32) : BB Unit := do
  modify fun _ => bbNew
  bbSetalloc size

/-- `self.tostring()` of a buffer -/
def tostring : BB Bytes := do
  let bb ← buffer
  load 0 bb.length.toNat

/-- `while sys.read(fd, linebuf, 2048) ~= 0 do buf.append(linebuf) end`, from the `i`-th read on -/
def readLoop (r : Nat → Option Bytes) (turns : Nat) : Nat → Nat → State → BB Unit
  | 0, _, _ => stillRunning
  | fuel + 1, i, linebuf =>
    onOther (Sys_read 2048 (r i)) linebuf fun ret linebuf => do
      if ret = 0 then pure ()
      else
        bbCatbuf turns (.other linebuf.bb)
        readLoop r turns fuel (i + 1) linebuf

def emptyMemory : State := ⟨bbNew, 0, []⟩

/-- `self.read(path, menv)` with what it calls `mfunc, stat`; `r` is there if `sys.open` returned a descriptor. -/
def mod.read {Func : Type} (turns : Nat) (load : Bytes → Option Func × Option String)
    (r : Option (Nat → Option Bytes)) :
    BB (Option Func × Option String) :=
  match r with
  | some r =>
    onOther (M.new 2048) emptyMemory fun _ linebuf => do
      M.new 8192
      readLoop r turns turns 0 linebuf
      let mstring ← tostring
      pure (load mstring)
  | none => pure (none, some "no such module")

/-- What is reached in some turns is reached in more. -/
structure Mono {α : Type} (m : Nat → BB α) : Prop where
  ok : ∀ {k turns : Nat} {s s' : State} {a : α}, k ≤ turns → m k s = .ok a s' → m turns s = .ok a s'

section Turns
variable {α β : Type} {s s' : State}

theorem ok_of_bind {m : BB α} {k : α → BB β} {b : β} (h : (m >>= k) s = .ok b s') :
    ∃ a s₁, m s = .ok a s₁ ∧ k a s₁ = .ok b s' := by
  cases hm : m s with
  | ok a s₁ => exact ⟨a, s₁, rfl, (bind_ok hm k).symm.trans h⟩
  | exit => cases (bind_exit hm k).symm.trans h
  | fault => cases (bind_fault hm k).symm.trans h
  | running => cases (bind_running hm k).symm.trans h

theorem onOther_ok {m : BB α} {o o' : State} {a : α} (h : m o = .ok a o') (k : α → State → BB β) :
    onOther m o k s = k a o' s := by
  unfold onOther
  rw [h]

namespace Mono

theorem const (m : BB α) : Mono fun _ => m := ⟨fun _ h => h⟩

theorem bind {m : Nat → BB α} {k : Nat → α → BB β} (hm : Mono m) (hk : ∀ a, Mono fun turns => k turns a) :
    Mono fun turns => m turns >>= k turns := by
  refine ⟨fun hle h => ?_⟩
  obtain ⟨a, s₁, h₁, h₂⟩ := ok_of_bind h
  exact (bind_ok (hm.ok hle h₁) _).trans ((hk a).ok hle h₂)

end Mono

theorem grow_mono (full : Bytebuffer → Bool) : Mono (grow full) := by
  constructor
  intro k turns s s' a hle h
  induction k generalizing s turns with
  | zero =>
    by_cases hb : full s.bb = true
    · simp only [grow, bind_buffer, if_pos hb, stillRunning_apply] at h
      cases h
    · simp only [grow, bind_buffer, if_neg hb, pure_apply] at h
      cases turns <;> simp only [grow, bind_buffer, if_neg hb, pure_apply, h]
  | succ k ih =>
    obtain ⟨turns, rfl⟩ := Nat.exists_eq_succ_of_ne_zero (Nat.ne_zero_of_lt hle)
    simp only [grow, bind_buffer] at h ⊢
    by_cases hb : full s.bb = true
    · rw [if_pos hb] at h ⊢
      obtain ⟨_, s₁, h₁, h₂⟩ := ok_of_bind h
      rw [bind_ok h₁]
      exact ih (Nat.le_of_succ_le_succ hle) h₂
    · rw [if_neg hb] at h ⊢
      exact h

theorem bbAppend_mono (elem : UInt8) : Mono fun turns => bbAppend turns elem :=
  (grow_mono _).bind fun _ => .const _

theorem bbNull_mono : Mono bbNull := (bbAppend_mono 0).bind fun _ => .const _

theorem bbAppendn_mono (elem : Elem) (n : UInt32) : Mono fun turns => bbAppendn turns elem n := by
  refine Mono.bind (.const buffer) fun bb => ?_
  exact (grow_mono _).bind fun _ => .const _

theorem bbCatbuf_mono (src : Source) : Mono fun turns => bbCatbuf turns src := by
  refine Mono.bind (.const buffer) fun bb => ?_
  by_cases hpos : (src.get bb).length > 0
  · simp only [if_pos hpos]
    exact (bbAppendn_mono _ _).bind fun _ => bbNull_mono
  · simp only [if_neg hpos]
    exact bbNull_mono

end Turns

/-! ### What `alloc` becomes -/

/-- What doubling makes of a power of two. -/
def Doubling (alloc : UInt32) : Prop := alloc = 0 ∨ ∃ j ≤ 31, alloc.toNat = 2 ^ j

theorem twice_lt {a : Nat} (h : a < 2 ^ 31) : twice a < 2 ^ 32 := by
  unfold twice
  split
  · decide
  · omega

namespace Doubling
variable {a : UInt32}

theorem le (h : Doubling a) : a.toNat ≤ 2 ^ 31 := by
  rcases h with rfl | ⟨j, hj, ha⟩
  · exact zero_le
  · rw [ha]
    exact Nat.pow_le_pow_right (by decide) hj

theorem doubled (h : Doubling a) : Doubling (doubled a) := by
  rcases h with rfl | ⟨j, hj, ha⟩
  · exact .inr ⟨10, by decide, rfl⟩
  rcases hj.lt_or_eq with hlt | rfl
  · have hpow : 2 ^ (j + 1) ≤ 2 ^ 31 := Nat.pow_le_pow_right (by decide) hlt
    have htwice : twice a.toNat = 2 ^ (j + 1) := by
      rw [twice, if_neg (by rw [ha]; exact (Nat.two_pow_pos j).ne'), ha, pow_succ, Nat.mul_comm]
    exact .inr ⟨j + 1, hlt, by rw [toNat_doubled (by omega), htwice]⟩
  · have ha' : a = 2147483648 := UInt32.toNat_inj.1 ha
    subst ha'
    exact .inl rfl

end Doubling

/-- An operation that only doubles. -/
structure Doubles {α : Type} (m : BB α) : Prop where
  ok : ∀ {s s' : State} {a : α}, m s = .ok a s' → Doubling s.bb.alloc → Doubling s'.bb.alloc

namespace Doubles
variable {α β : Type}

theorem bind {m : BB α} {k : α → BB β} (hm : Doubles m) (hk : ∀ a, Doubles (k a)) : Doubles (m >>= k) := by
  refine ⟨fun h hd => ?_⟩
  obtain ⟨a, s₁, h₁, h₂⟩ := ok_of_bind h
  exact (hk a).ok h₂ (hm.ok h₁ hd)

theorem buffer : Doubles buffer := ⟨fun h hd => (by cases h; exact hd)⟩

theorem pure (a : α) : Doubles (pure a : BB α) := ⟨fun h hd => (by cases h; exact hd)⟩

theorem modify {f : Bytebuffer → Bytebuffer} (hf : ∀ b, (f b).alloc = b.alloc) : Doubles (modify f) := by
  refine ⟨fun {s s' a} h hd => ?_⟩
  cases h
  exact (hf s.bb).symm ▸ hd

theorem fetch (bytes : Bytes) (n : Nat) : Doubles (fetch bytes n) := by
  refine ⟨fun h hd => ?_⟩
  unfold Buffers.fetch at h
  split at h <;> cases h
  exact hd

theorem store (i : Int) (xs : Bytes) : Doubles (store i xs) := by
  refine ⟨fun h hd => ?_⟩
  unfold Buffers.store at h
  split_ifs at h <;> cases h <;> exact hd

theorem setalloc_zero : Doubles (bbSetalloc 0) := by
  refine Doubles.mk fun {s s' a} h hd => ?_
  change realloc (doubled s.bb.alloc) s = .ok a s' at h
  unfold realloc at h
  split at h <;> cases h
  exact hd.doubled

theorem grow (full : Bytebuffer → Bool) (turns : Nat) : Doubles (grow full turns) := by
  induction turns with
  | zero =>
    refine buffer.bind fun bb => ?_
    by_cases hb : full bb = true
    · rw [if_pos hb]
      exact ⟨fun h => (by cases h)⟩
    · rw [if_neg hb]
      exact pure ()
  | succ turns ih =>
    refine buffer.bind fun bb => ?_
    by_cases hb : full bb = true
    · rw [if_pos hb]
      exact setalloc_zero.bind fun _ => ih
    · rw [if_neg hb]
      exact pure ()

theorem bbAppend (turns : Nat) (elem : UInt8) : Doubles (bbAppend turns elem) :=
  (grow _ _).bind fun _ => buffer.bind fun _ => (store _ _).bind fun _ =>
    (modify (by intro; rfl)).bind fun _ => store _ _

theorem bbNull (turns : Nat) : Doubles (bbNull turns) := (bbAppend turns 0).bind fun _ => modify (by intro; rfl)

theorem bbAppendn (turns : Nat) (elem : Elem) (n : UInt32) : Doubles (bbAppendn turns elem n) :=
  buffer.bind fun _ => (grow _ _).bind fun _ => buffer.bind fun _ => (fetch _ _).bind fun _ => (store _ _).bind fun _ =>
    (modify (by intro; rfl)).bind fun _ => store _ _

theorem bbCatbuf (turns : Nat) (src : Source) : Doubles (bbCatbuf turns src) := by
  refine buffer.bind fun bb => ?_
  by_cases hpos : (src.get bb).length > 0
  · simp only [if_pos hpos]
    exact (bbAppendn _ _ _).bind fun _ => bbNull turns
  · simp only [if_neg hpos]
    exact bbNull turns

end Doubles

/-! ### Appends that never return -/

theorem grow_never {full : Bytebuffer → Bool} {need : Nat} {len : UInt32} {s s' : State} (hf : Full full len need)
    (hneed : 2 ^ 31 < need) (hpos : 0 < len.toNat) (h : Inv s) (hd : Doubling s.bb.alloc) (hl : s.bb.length = len)
    (turns : Nat) : grow full turns s ≠ .ok () s' := by
  have hfull {s : State} (hi : Inv s) (hd : Doubling s.bb.alloc) (hl : s.bb.length = len) : full s.bb = true :=
    (hf s.bb hl hi.length_le).2 (lt_of_le_of_lt hd.le hneed)
  induction turns generalizing s with
  | zero =>
    intro hok
    simp only [grow, bind_buffer, if_pos (hfull h hd hl), stillRunning_apply] at hok
    cases hok
  | succ turns ih =>
    intro hok
    simp only [grow, bind_buffer, if_pos (hfull h hd hl)] at hok
    obtain ⟨_, s₁, h₁, h₂⟩ := ok_of_bind hok
    have hlen := h.length_le
    rw [hl] at hlen
    by_cases hlt : s.bb.alloc.toNat < 2 ^ 31
    · have ht := twice_lt hlt
      cases (setalloc_zero h ht).symm.trans h₁
      exact ih (inv_doubled h ht) hd.doubled hl h₂
    · have ha : s.bb.alloc = 2147483648 := UInt32.toNat_inj.1 (Nat.le_antisymm hd.le (Nat.not_lt.1 hlt))
      have hr : bbSetalloc 0 s = .fault := realloc_fault h (by rw [ha, hl]; exact hpos)
      cases hr.symm.trans h₁

section Never
variable {turns : Nat} {s s' : State}

theorem ok_of_bbAppendn {bytes : Bytes} {n0 : UInt32} (hne : n0 ≠ 0)
    (hok : bbAppendn turns (.mem bytes) n0 s = .ok () s') :
    ∃ s₁, grow (fun bb => !bbNeed bb (n0 + 1)) turns s = .ok () s₁ ∧ n0.toNat ≤ bytes.length := by
  unfold bbAppendn at hok
  rw [bind_buffer] at hok
  simp only [if_neg hne] at hok
  obtain ⟨_, s₁, h₁, h₂⟩ := ok_of_bind hok
  refine ⟨s₁, h₁, ?_⟩
  rw [bind_buffer] at h₂
  obtain ⟨_, s₂, h₃, -⟩ := ok_of_bind h₂
  by_contra hn
  have hf : fetch bytes n0.toNat s₁ = .fault := if_neg hn
  cases hf.symm.trans h₃

theorem ok_of_bbCatbuf {src : Bytebuffer} (hc : src.content.isSome) (hpos : 0 < src.length.toNat)
    (hok : bbCatbuf turns (.other src) s = .ok () s') :
    ∃ s₁, grow (fun bb => !bbNeed bb (src.length + 1)) turns s = .ok () s₁ ∧ src.length.toNat ≤ src.cells.length := by
  have hpos' : src.length > 0 := UInt32.lt_iff_toNat_lt.2 hpos
  rw [bbCatbuf_eq] at hok
  obtain ⟨_, s₂, h₂, -⟩ := ok_of_bind ((if_pos hpos').symm.trans hok)
  rw [bbContents, if_pos hc] at h₂
  exact ok_of_bbAppendn (UInt32.pos_iff_ne_zero.1 hpos') h₂

end Never

/-- From the `i`-th on the reads give `chunks`, and then zero or an error. -/
inductive Answers (r : Nat → Option Bytes) : Nat → List Bytes → Bool → Prop
  | zero {i : Nat} : r i = some [] → Answers r i [] false
  | error {i : Nat} : r i = none → Answers r i [] true
  | data {i : Nat} {c : Bytes} {chunks : List Bytes} {failed : Bool} :
    r i = some c → 0 < c.length → c.length ≤ 2048 → Answers r (i + 1) chunks failed → Answers r i (c :: chunks) failed

/-- `linebuf` -/
structure Line (o : State) : Prop where
  inv : Inv o
  alloc : o.bb.alloc = 2048

section Line
variable {o : State}

theorem Line.holds (h : Line o) : Holds o.bb := ⟨h.inv.length_le, h.inv.cells⟩

theorem Sys_read_some (h : Line o) {data : Bytes} (hd : data.length ≤ 2048) :
    ∃ o', Sys_read 2048 (some data) o = .ok (data.length : Int) o' ∧ Line o' ∧ o'.bb.contents = data ∧
      o'.bb.length.toNat = data.length := by
  have ha : o.bb.alloc.toNat = 2048 := by rw [h.alloc]; rfl
  have hcells := h.inv.cells
  have hclip : clip o.bb 2048 = 2048 := by
    rw [clip, if_neg (by omega)]
  have htake : data.take (2048 : Int).toNat = data := take_of_length_le hd
  obtain ⟨o₁, h₁, hw⟩ := kread_some (n := 2048) h.inv data 0 (by decide) (by omega)
  rw [htake] at h₁ hw
  have hlen : (UInt32.ofInt (data.length : Int)).toNat = data.length := toNat_ofInt (by omega) (by omega)
  refine ⟨{ o₁ with bb := { o₁.bb with length := UInt32.ofInt (data.length : Int) } }, ?_, ⟨hw.setLength ?_, ?_⟩,
    ?_, hlen⟩
  · have hn : (2048 : Int32).toInt = 2048 := rfl
    unfold Sys_read
    rw [hn, if_neg (by decide), bind_buffer, hclip]
    exact bind_ok h₁ _
  · rw [hlen, ha]
    exact hd
  · exact hw.alloc.trans h.alloc
  · have hend := @take_overwrite_end o.bb.cells data 0 (by omega)
    rw [zero_add, take_zero, nil_append] at hend
    show o₁.bb.cells.take (UInt32.ofInt (data.length : Int)).toNat = data
    rw [hlen, hw.cells, hend]

theorem Sys_read_none (h : Line o) : ∃ o', Sys_read 2048 none o = .ok (-1) o' ∧ o'.bb.content.isSome ∧
    o'.bb.cells.length < o'.bb.length.toNat := by
  have hcells := h.inv.cells
  rw [h.alloc] at hcells
  refine ⟨{ o with bb := { o.bb with length := UInt32.ofInt (-1) } }, ?_, ?_, ?_⟩
  · unfold Sys_read
    rw [if_neg (by decide), bind_buffer, bind_ok (kread_none _ _)]
    rfl
  · exact Bytebuffer.content_of_cells (b := o.bb) (length_pos_iff.1 (by rw [hcells]; decide))
  · show o.bb.cells.length < (UInt32.ofInt (-1)).toNat
    rw [hcells]
    decide

end Line

/-- `buf` between two reads. -/
structure Between (s : State) : Prop where
  inv : Inv s
  doubling : Doubling s.bb.alloc
  room : s.bb.length.toNat + 2 ≤ s.bb.alloc.toNat

section Loop
variable {r : Nat → Option Bytes} {i : Nat} {c : Bytes} {chunks : List Bytes} {failed : Bool} {o s s' : State}

theorem readLoop_data (hr : r i = some c) (hpos : 0 < c.length) (hc : c.length ≤ 2048) (ho : Line o) :
    ∃ o', Line o' ∧ o'.bb.contents = c ∧ o'.bb.length.toNat = c.length ∧ ∀ turns fuel s,
      readLoop r turns (fuel + 1) i o s =
        (bbCatbuf turns (.other o'.bb) >>= fun _ => readLoop r turns fuel (i + 1) o') s := by
  obtain ⟨o', h', ho', hcont, hlen⟩ := Sys_read_some ho hc
  refine ⟨o', ho', hcont, hlen, fun turns fuel s => ?_⟩
  rw [← hr] at h'
  rw [readLoop, onOther_ok h', if_neg (by omega)]

theorem Between.cat (h : Between s) (ho : Line o) (hroom : s.bb.length.toNat + o.bb.length.toNat + 2 ≤ 2 ^ 31)
    {turns : Nat}
    (hok : bbCatbuf turns (.other o.bb) s = .ok () s') :
    Between s' ∧ s'.bb.contents = s.bb.contents ++ o.bb.contents ∧
      s'.bb.length.toNat = s.bb.length.toNat + o.bb.length.toNat := by
  have hj := (bbCatbuf_other_runs h.inv ho.holds (.of_le s.bb.alloc.toNat_lt hroom)).of_eq_ok hok
  have hlen : o.bb.contents.length = o.bb.length.toNat := ho.inv.length_contents
  have hl := hj.length
  have hr := hj.room
  exact ⟨⟨hj.inv, (Doubles.bbCatbuf turns _).ok hok h.doubling, by omega⟩, hj.contents, by omega⟩

theorem readLoop_ends (ha : Answers r i chunks failed) (hf : failed = false) (ho : Line o) (h : Between s)
    (hroom : s.bb.length.toNat + chunks.flatten.length + 2 ≤ 2 ^ 31) :
    ∃ k s', (∀ turns fuel, k ≤ turns → k ≤ fuel → readLoop r turns fuel i o s = .ok () s') ∧ Between s' ∧
      s'.bb.contents = s.bb.contents ++ chunks.flatten := by
  induction ha generalizing o s with
  | @zero i hr =>
    obtain ⟨o', h', -⟩ := @Sys_read_some o ho [] (by decide)
    refine ⟨1, s, fun turns fuel _ hle => ?_, h, by simp⟩
    obtain ⟨fuel, rfl⟩ := Nat.exists_eq_succ_of_ne_zero (Nat.ne_zero_of_lt hle)
    rw [← hr] at h'
    rw [readLoop, onOther_ok h', length_nil, if_pos (by decide), pure_apply]
  | error => cases hf
  | @data i c chunks failed hr hpos hc _ ih =>
    obtain ⟨o', ho', hcont, hlen, hturn⟩ := readLoop_data hr hpos hc ho
    rw [flatten_cons, length_append] at hroom
    obtain ⟨k₁, hk₁⟩ := (bbCatbuf_other_runs h.inv ho'.holds (.of_le s.bb.alloc.toNat_lt (by omega))).ends
    obtain ⟨s₁, hs₁⟩ := hk₁ k₁ le_rfl
    obtain ⟨hb₁, hcont₁, hlen₁⟩ := h.cat ho' (by omega) hs₁
    obtain ⟨k₂, s₂, hk₂, hb₂, hcont₂⟩ := ih hf ho' hb₁ (by omega)
    refine ⟨k₁ + k₂ + 1, s₂, fun turns fuel ht hle => ?_, hb₂, ?_⟩
    · obtain ⟨fuel, rfl⟩ := Nat.exists_eq_succ_of_ne_zero (Nat.ne_zero_of_lt hle)
      rw [hturn, bind_ok ((bbCatbuf_mono _).ok (by omega) hs₁)]
      exact hk₂ turns fuel (by omega) (by omega)
    · rw [hcont₂, hcont₁, hcont, append_assoc, flatten_cons]

theorem readLoop_never (ha : Answers r i chunks failed) (ho : Line o) (h : Between s)
    (hbad : failed = true ∨ 2 ^ 31 < s.bb.length.toNat + chunks.flatten.length + 2) (turns fuel : Nat) :
    readLoop r turns fuel i o s ≠ .ok () s' := by
  induction ha generalizing o s fuel with
  | @zero i hr =>
    have := h.room
    have := h.doubling.le
    simp only [Bool.false_eq_true, flatten_nil, length_nil, false_or] at hbad
    omega
  | @error i hr =>
    intro hok
    cases fuel with
    | zero => cases hok
    | succ fuel =>
      obtain ⟨o', h', hc, hmore⟩ := Sys_read_none ho
      rw [← hr] at h'
      rw [readLoop, onOther_ok h', if_neg (by decide)] at hok
      obtain ⟨_, s₁, h₁, -⟩ := ok_of_bind hok
      obtain ⟨_, -, hle⟩ := ok_of_bbCatbuf hc (Nat.zero_lt_of_lt hmore) h₁
      omega
  | @data i c chunks failed hr hpos hc _ ih =>
    intro hok
    cases fuel with
    | zero => cases hok
    | succ fuel =>
      obtain ⟨o', ho', hcont, hlen, hturn⟩ := readLoop_data hr hpos hc ho
      rw [hturn] at hok
      obtain ⟨_, s₁, h₁, h₂⟩ := ok_of_bind hok
      rw [flatten_cons, length_append] at hbad
      by_cases hroom : s.bb.length.toNat + o'.bb.length.toNat + 2 ≤ 2 ^ 31
      · obtain ⟨hb₁, -, hlen₁⟩ := h.cat ho' hroom h₁
        exact ih ho' hb₁ (hbad.imp_right fun _ => by omega) _ h₂
      have hcells : 0 < o'.bb.cells.length := by
        rw [ho'.inv.cells, ho'.alloc]
        decide
      have hcs := Bytebuffer.content_of_cells (length_pos_iff.1 hcells)
      obtain ⟨_, hgrow, -⟩ := ok_of_bbCatbuf hcs (by omega) h₁
      exact grow_never (full_bbNeed s.bb.length o'.bb.length (by omega)) (Nat.not_le.1 hroom) (by omega) h.inv
        h.doubling rfl turns hgrow

end Loop

theorem M.new_spec (s : State) (size : UInt32) (hne : size ≠ 0) :
    ∃ s', M.new size s = .ok () s' ∧ Inv s' ∧ s'.bb.alloc = size ∧ s'.bb.length = 0 := by
  have hinv : Inv { s with bb := bbNew } := .new s.next s.freed
  have hle : (0 : UInt32).toNat ≤ size.toNat := zero_le
  refine ⟨State.resize { s with bb := bbNew } size, ?_, inv_resize hinv hle, rfl, rfl⟩
  have hlt : ¬ (0 : UInt32) ≥ size := fun h => hne (UInt32.toNat_inj.1 (Nat.le_zero.1 (UInt32.le_iff_toNat_le.1 h)))
  rw [M.new, bind_modify, bbSetalloc, bind_buffer, if_neg hne]
  show (if (0 : UInt32) ≥ size then pure () else if false then bbFail else realloc size : BB Unit) _ = _
  rw [if_neg hlt, if_neg (by decide)]
  exact realloc_eq hinv hle

theorem tostring_eq {s : State} (h : Inv s) : tostring s = .ok s.bb.contents s := by
  have hle := h.length_le
  have hl := load_ok (i := 0) (n := s.bb.length.toNat) h (by omega)
  rw [drop_zero] at hl
  exact hl

section Read
variable {Func : Type} {load : Bytes → Option Func × Option String} {r : Nat → Option Bytes} {chunks : List Bytes}
  {failed : Bool}

theorem read_eq (load : Bytes → Option Func × Option String) (r : Nat → Option Bytes) : ∃ o s, Line o ∧ Between s ∧
    s.bb.length = 0 ∧ ∀ turns,
    mod.read turns load (some r) emptyMemory =
      (readLoop r turns turns 0 o >>= fun _ => tostring >>= fun mstring => pure (load mstring)) s := by
  obtain ⟨o, ho, hio, hao, -⟩ := M.new_spec emptyMemory 2048 (by decide)
  obtain ⟨s, hs, his, has, hls⟩ := M.new_spec emptyMemory 8192 (by decide)
  refine ⟨o, s, ⟨hio, hao⟩, ⟨his, .inr ⟨13, by decide, by rw [has]; rfl⟩, ?_⟩, hls, fun turns => ?_⟩
  · rw [hls, has]
    decide
  · rw [mod.read, onOther_ok ho, bind_ok hs]

/-- Given turns enough, what is compiled is the text that was read. -/
def Compiles (load : Bytes → Option Func × Option String) (r : Nat → Option Bytes) (chunks : List Bytes) : Prop :=
  ∃ k, ∀ turns, k ≤ turns → ∃ s, mod.read turns load (some r) emptyMemory = .ok (load chunks.flatten) s

/-- No read fails, and there is not more than the buffer can be doubled for. -/
def Readable (chunks : List Bytes) (failed : Bool) : Prop := failed = false ∧ chunks.flatten.length + 2 ≤ 2 ^ 31

theorem compiles_of_readable (h : Answers r 0 chunks failed) (hr : Readable chunks failed) :
    Compiles load r chunks := by
  obtain ⟨o, s, ho, hb, hl, heq⟩ := read_eq load r
  have h0 : s.bb.length.toNat = 0 := congrArg UInt32.toNat hl
  obtain ⟨k, s', hk, hb', hcont⟩ := readLoop_ends h hr.1 ho hb (by rw [h0, zero_add]; exact hr.2)
  have hnil : s.bb.contents = [] := by rw [Bytebuffer.contents, h0, take_zero]
  rw [hnil, nil_append] at hcont
  refine ⟨k, fun turns hle => ⟨s', ?_⟩⟩
  rw [heq, bind_ok (hk turns turns hle hle), bind_ok (tostring_eq hb'.inv), hcont]
  rfl

theorem never_of_not_readable (h : Answers r 0 chunks failed) (hr : ¬ Readable chunks failed) (turns : Nat)
    (res : Option Func × Option String) (s : State) : mod.read turns load (some r) emptyMemory ≠ .ok res s := by
  obtain ⟨o, s₀, ho, hb, hl, heq⟩ := read_eq load r
  have h0 : s₀.bb.length.toNat = 0 := congrArg UInt32.toNat hl
  intro hok
  rw [heq] at hok
  obtain ⟨_, s₁, h₁, -⟩ := ok_of_bind hok
  refine readLoop_never h ho hb ?_ turns turns h₁
  rw [h0, zero_add, ← Bool.not_eq_false, ← not_le]
  exact not_and_or.1 hr

/-- For all answers that reads may give. Else `mod.read` does not return at all. -/
theorem read_iff (h : Answers r 0 chunks failed) :
    (Compiles load r chunks ↔ Readable chunks failed) ∧
      (¬ Readable chunks failed → ∀ turns res s, mod.read turns load (some r) emptyMemory ≠ .ok res s) := by
  refine ⟨⟨fun hc => ?_, compiles_of_readable h⟩, never_of_not_readable h⟩
  by_contra hr
  obtain ⟨k, hk⟩ := hc
  obtain ⟨s, hs⟩ := hk k le_rfl
  exact never_of_not_readable h hr k _ s hs

end Read

def threeBytes : Nat → Option Bytes
  | 0 => some [120, 61, 49]
  | _ => some []

theorem read_iff_threeBytes :
    (Compiles (fun _ => (some (), none)) threeBytes [[120, 61, 49]] ↔ Readable [[120, 61, 49]] false) ∧
      (¬ Readable [[120, 61, 49]] false → ∀ turns res s,
        mod.read turns (fun _ => (some (), none)) (some threeBytes) emptyMemory ≠ .ok res s) :=
  read_iff (.data rfl (by decide) (by decide) (.zero rfl))

/-- The first read fails. -/
theorem read_fails : ¬ ∀ (r : Nat → Option Bytes) (chunks : List Bytes) (failed : Bool), Answers r 0 chunks failed →
    Compiles (fun _ => (some (), none)) r chunks := by
  intro hall
  have ha : Answers (fun _ => none) 0 [] true := .error rfl
  obtain ⟨k, hk⟩ := hall _ _ _ ha
  obtain ⟨s, hs⟩ := hk k le_rfl
  have hr : ¬ Readable [] true := fun h => by cases h.1
  exact never_of_not_readable ha hr k _ s hs

end Node9.Buffers
