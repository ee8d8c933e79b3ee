import RpEcosystem.Writer.Core

/-!
# The bursts of the writer and the DMA buffer

The ring of the writer has `2 ^ ADDR_WIDTH` beats of eight bytes, 8 MiB in the `lago_v1_3`
design. `cma_init` allocates and maps `1024` pages, 4 MiB with pages of 4096 bytes, and the
writer is given the physical address of that buffer. `bursts_inside_iff`: the bursts of a run
stay inside the buffer if and only if every address is accepted while the beats counted so
far in the lap, with the 16 of the burst, fit into it. With 4096-byte pages this fails in
every lap in its second half (`streaming_overruns`).
-/

namespace RpEcosystem.Writer

open Clocked

/-- The buffer obtained by `cma_init`: `CMA_ALLOC` of `1024` pages returns its physical
address, below 4 GiB by the DMA mask of the device. -/
structure CmaBuffer where
  pageSize : Nat
  base : BitVec 32
  below : base.toNat + 1024 * pageSize ≤ 2 ^ 32

/-- `dev_size` as requested and mapped. -/
def CmaBuffer.size (buf : CmaBuffer) : Nat := 1024 * buf.pageSize

def CmaBuffer.Contains (buf : CmaBuffer) (b : BitVec 32) : Prop :=
  buf.base.toNat ≤ b.toNat ∧ b.toNat < buf.base.toNat + buf.size

variable {g : Generics} {F : Fifo}

/-- The bytes of the incrementing burst offered on the address channel. -/
def Regs.Covers (r : Regs g F) (i : Input) (b : BitVec 32) : Prop :=
  ∃ k, k < (mAxiAwlen.toNat + 1) * 2 ^ mAxiAwsize.toNat ∧
    b = r.mAxiAwaddr i + BitVec.ofNat 32 k

/-- Every byte of every burst of a run lies in the buffer. -/
def BurstsInside (F : Fifo) (x : Nat → Input) (buf : CmaBuffer) : Prop :=
  ∀ t, addressAccepted .lago F x t = true →
    ∀ b, (run .lago F x t).Covers (x t) b → buf.Contains b

theorem covers_iff (r : Regs g F) (i : Input) (b : BitVec 32) :
    r.Covers i b ↔ ∃ k, k < 128 ∧ b = r.mAxiAwaddr i + BitVec.ofNat 32 k := by
  simp [Regs.Covers, mAxiAwlen, mAxiAwsize]

theorem contains_iff (buf : CmaBuffer) {n : Nat} (hn : n < 2 ^ 24) :
    buf.Contains (buf.base + BitVec.ofNat 32 n) ↔ n < buf.size := by
  have hbelow := buf.below
  have hlt := buf.base.isLt
  unfold CmaBuffer.Contains CmaBuffer.size
  rw [BitVec.toNat_add, BitVec.toNat_ofNat, Nat.mod_eq_of_lt (show n < 2 ^ 32 by omega)]
  rcases Nat.lt_or_ge (buf.base.toNat + n) (2 ^ 32) with h | h
  · rw [Nat.mod_eq_of_lt h]
    omega
  · rw [Nat.mod_eq_sub_mod h, Nat.mod_eq_of_lt (by omega)]
    omega

/-- A burst lies in the buffer exactly when its first beat leaves room for all 16. -/
theorem covers_contains_iff (buf : CmaBuffer) (r : Regs .lago F) (i : Input)
    (hcfg : i.cfgData = buf.base) :
    (∀ b, r.Covers i b → buf.Contains b) ↔ r.intAddrReg.toNat + 16 ≤ 128 * buf.pageSize := by
  have hlt : r.intAddrReg.toNat < 2 ^ 20 := r.intAddrReg.isLt
  have hbyte : ∀ k, r.mAxiAwaddr i + BitVec.ofNat 32 k =
      buf.base + BitVec.ofNat 32 (8 * r.intAddrReg.toNat + k) := by
    intro k
    rw [Regs.mAxiAwaddr_eq, hcfg, BitVec.add_assoc, ← BitVec.ofNat_add]
  have hin : (∀ b, r.Covers i b → buf.Contains b) ↔
      ∀ k, k < 128 → 8 * r.intAddrReg.toNat + k < buf.size := by
    constructor
    · intro h k hk
      have := h _ ((covers_iff r i _).mpr ⟨k, hk, rfl⟩)
      rwa [hbyte, contains_iff buf (by omega)] at this
    · intro h b hb
      obtain ⟨k, hk, rfl⟩ := (covers_iff r i b).mp hb
      rw [hbyte, contains_iff buf (by omega)]
      exact h k hk
  rw [hin]
  unfold CmaBuffer.size
  constructor
  · intro h
    have := h 127 (by omega)
    omega
  · intro h k hk
    omega

/-- **DMA bounds.** In every run of the writer of the `lago_v1_3` design with the buffer's
address configured, for every FIFO, input stream and ready pattern: all bytes of all bursts
lie in the buffer if and only if at every accepted address the data beats accepted before
it, counted modulo the ring, leave room for a burst in `128 * pageSize` beats. -/
theorem bursts_inside_iff (F : Fifo) (x : Nat → Input) (buf : CmaBuffer)
    (hcfg : ∀ t, (x t).cfgData = buf.base) :
    BurstsInside F x buf ↔ ∀ t, addressAccepted .lago F x t = true →
      events (beat .lago F x) 0 t % 2 ^ 20 + 16 ≤ 128 * buf.pageSize := by
  have hstep : ∀ t, (∀ b, (run .lago F x t).Covers (x t) b → buf.Contains b) ↔
      events (beat .lago F x) 0 t % 2 ^ 20 + 16 ≤ 128 * buf.pageSize := by
    intro t
    rw [covers_contains_iff buf _ _ (hcfg t), intAddrReg_eq_beats, BitVec.toNat_ofNat]
    rfl
  constructor
  · intro h t ht
    exact (hstep t).mp (h t ht)
  · intro h t ht
    exact (hstep t).mpr (h t ht)

/-! ## A run at full speed -/

/-- A FIFO of 512 words whose `ALMOSTEMPTY` is high up to `ALMOST_EMPTY_OFFSET + 1` words. -/
def queue : Fifo where
  State := List (BitVec 64)
  reset := []
  full q := decide (512 ≤ q.length)
  almostEmpty q := decide (q.length ≤ 16)
  dout q := q.headD 0
  edge rden wren di q := (if rden then q.tail else q) ++ (if wren then [di] else [])

/-- A stream with a word in every cycle and memory that accepts everything at once. -/
def streaming (base : BitVec 32) (_ : Nat) : Input where
  cfgData := base
  mAxiAwready := true
  mAxiWready := true
  sAxisTdata := 0
  sAxisTvalid := true

/-- The FIFO after an edge of a streaming run. -/
theorem queue_streaming {base : BitVec 32} {t n : Nat} {r : Regs g queue}
    (hfifo : r.fifo = List.replicate n (0 : BitVec 64)) (hn : n < 512) :
    (next (streaming base t) r).fifo =
      (if r.intWvalidReg then List.replicate (n - 1) (0 : BitVec 64)
        else List.replicate n (0 : BitVec 64)) ++ [0] := by
  have hfull : r.intFullWire = false := by
    rw [Regs.intFullWire, hfifo]
    simp [queue, hn]
  simp only [next, hfifo, Regs.intRdenWire, Regs.intTreadyWire, hfull, streaming, Bool.true_and,
    Bool.not_false]
  cases r.intWvalidReg <;> simp [queue]

/-- The FIFO fills before the first burst. -/
theorem streaming_fills (base : BitVec 32) {n : Nat} (hn : n ≤ 17) :
    (run g queue (streaming base) n).intAwvalidReg = false ∧
      (run g queue (streaming base) n).intWvalidReg = false ∧
      (run g queue (streaming base) n).intAddrReg = 0 ∧
      (run g queue (streaming base) n).fifo = List.replicate n (0 : BitVec 64) := by
  induction n with
  | zero => exact ⟨rfl, rfl, rfl, rfl⟩
  | succ n ih =>
    obtain ⟨haw, hw, haddr, hfifo⟩ := ih (by omega)
    have hempty : (run g queue (streaming base) n).intEmptyWire = true := by
      rw [Regs.intEmptyWire, hfifo]
      simp [queue]
      omega
    have hlast : (run g queue (streaming base) n).intWlastWire = false := by
      rw [Regs.intWlastWire, haddr]
      rfl
    rw [run_succ]
    refine ⟨?_, ?_, ?_, ?_⟩
    · simp [next, Regs.intAwvalidNext, Regs.starts, hempty, haw]
    · simp [next, Regs.intWvalidNext, Regs.starts, hempty, hlast, hw]
    · simp [next, Regs.intAddrNext, Regs.intRdenWire, hw, haddr]
    · rw [queue_streaming hfifo (by omega), hw, List.replicate_succ']
      rfl

/-- Then one beat is accepted in every cycle and one address in every sixteenth. -/
theorem streaming_runs (base : BitVec 32) (n : Nat) :
    (run g queue (streaming base) (18 + n)).intAwvalidReg = decide (n % 16 = 0) ∧
      (run g queue (streaming base) (18 + n)).intWvalidReg = true ∧
      (run g queue (streaming base) (18 + n)).intAddrReg = BitVec.ofNat _ n ∧
      (run g queue (streaming base) (18 + n)).fifo = List.replicate 18 (0 : BitVec 64) := by
  induction n with
  | zero =>
    obtain ⟨haw, hw, haddr, hfifo⟩ := streaming_fills base (le_refl 17)
    have hempty : (run g queue (streaming base) 17).intEmptyWire = false := by
      rw [Regs.intEmptyWire, hfifo]
      rfl
    rw [show 18 + 0 = 17 + 1 from rfl, run_succ]
    refine ⟨?_, ?_, ?_, ?_⟩
    · simp [next, Regs.intAwvalidNext, Regs.starts, hempty, haw, hw]
    · simp [next, Regs.intWvalidNext, Regs.starts, hempty, haw, hw]
    · simp [next, Regs.intAddrNext, Regs.intRdenWire, hw, haddr]
    · rw [queue_streaming hfifo (by omega), hw]
      rfl
  | succ n ih =>
    obtain ⟨haw, hw, haddr, hfifo⟩ := ih
    have hempty : (run g queue (streaming base) (18 + n)).intEmptyWire = false := by
      rw [Regs.intEmptyWire, hfifo]
      rfl
    have hlast : (run g queue (streaming base) (18 + n)).intWlastWire =
        decide (n % 16 = 15) := by
      have hmod : n % 2 ^ g.addrWidth % 16 = n % 16 :=
        Nat.mod_mod_of_dvd n (Nat.pow_dvd_pow 2 g.four_le)
      rw [Regs.intWlastWire_eq, haddr, BitVec.toNat_ofNat]
      exact congrArg (fun k => decide (k = 15)) hmod
    rw [← Nat.add_assoc, run_succ]
    refine ⟨?_, ?_, ?_, ?_⟩
    · simp [next, Regs.intAwvalidNext, Regs.starts, hempty, hw, haw, hlast, streaming]
      omega
    · simp [next, Regs.intWvalidNext, Regs.starts, hempty, hw]
    · simp [next, Regs.intAddrNext, Regs.intRdenWire, hw, haddr, streaming, BitVec.ofNat_add]
    · rw [queue_streaming hfifo (by omega), hw]
      rfl

/-- The first beat is accepted in cycle `18`. -/
theorem streaming_beats (base : BitVec 32) (n : Nat) :
    events (beat g queue (streaming base)) 0 (18 + n) = n := by
  induction n with
  | zero =>
    have hquiet : ∀ t, 0 ≤ t → t < 18 → beat g queue (streaming base) t = false := by
      intro t _ ht
      simp [beat, Regs.intRdenWire, (streaming_fills base (by omega : t ≤ 17)).2.1]
    rw [Nat.add_zero, events_quiet (Nat.le_refl 0) (Nat.zero_le 18) hquiet, events_self]
  | succ n ih =>
    have hbeat : beat g queue (streaming base) (18 + n) = true := by
      rw [beat, Regs.intRdenWire, (streaming_runs base n).2.1]
      rfl
    rw [← Nat.add_assoc, events_succ _ (Nat.zero_le _), ih, hbeat]
    rfl

/-- The buffer of a system with 4096-byte pages. -/
def pages4096 : CmaBuffer := ⟨4096, 0x1E000000#32, by decide⟩

/-- The address accepted after `2 ^ 19` beats is the end of the buffer. -/
theorem streaming_overruns :
    (∀ t, (streaming pages4096.base t).cfgData = pages4096.base) ∧
      ¬ BurstsInside queue (streaming pages4096.base) pages4096 := by
  refine ⟨fun _ => rfl, ?_⟩
  intro h
  obtain ⟨haw, -, haddr, -⟩ := streaming_runs (g := .lago) pages4096.base (2 ^ 19)
  have hinside := (covers_contains_iff pages4096 _ _ rfl).mp
    (h (18 + 2 ^ 19) (by rw [addressAccepted, haw]; rfl))
  rw [haddr, BitVec.toNat_ofNat] at hinside
  exact absurd hinside (by decide)

theorem bursts_inside_streaming :
    BurstsInside queue (streaming pages4096.base) pages4096 ↔
      ∀ t, addressAccepted .lago queue (streaming pages4096.base) t = true →
        events (beat .lago queue (streaming pages4096.base)) 0 t % 2 ^ 20 + 16 ≤ 128 * 4096 :=
  bursts_inside_iff queue (streaming pages4096.base) pages4096 fun _ => rfl

end RpEcosystem.Writer
