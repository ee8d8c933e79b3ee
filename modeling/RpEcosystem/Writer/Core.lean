import RpEcosystem.Clocked.Machine
import RpEcosystem.Clocked.Events

/-!
# The RAM writer `axis_ram_writer`

The writer moves 64-bit beats from a FIFO to memory in AXI bursts of 16 beats, for
`AXI_ADDR_WIDTH = 32` and `AXI_DATA_WIDTH = AXIS_TDATA_WIDTH = 64` and for every `ADDR_WIDTH`
for which the core elaborates. The FIFO is a primitive of the device, so it is a parameter:
a state with its flags and output word, and what a clock edge does to it.

`intAddrReg` counts the data beats accepted by memory modulo the ring
(`intAddrReg_eq_beats`); it is the position reported on `sts_data`, and with `ADDR_SIZE` zero
bits appended it is the offset of the burst address.
-/

namespace RpEcosystem.Writer

open Clocked

structure Generics where
  addrWidth : Nat
  axiIdWidth : Nat
  /-- `int_wlast_wire` reads four bits of the counter -/
  four_le : 4 ≤ addrWidth
  /-- the sum of `m_axi_awaddr` has the width of the port -/
  le_29 : addrWidth ≤ 29

/-- The writer of the `lago_v1_3` design. -/
def Generics.lago : Generics := ⟨20, 3, by decide, by decide⟩

/-- The primitive `FIFO36E1` in first-word-fall-through mode. -/
structure Fifo where
  State : Type
  reset : State
  full : State → Bool
  almostEmpty : State → Bool
  dout : State → BitVec 64
  edge : (rden wren : Bool) → (di : BitVec 64) → State → State

/-- The input ports in one clock cycle. -/
structure Input where
  cfgData : BitVec 32
  mAxiAwready : Bool
  mAxiWready : Bool
  sAxisTdata : BitVec 64
  sAxisTvalid : Bool

structure Regs (g : Generics) (F : Fifo) where
  intAwvalidReg : Bool
  intWvalidReg : Bool
  intAddrReg : BitVec g.addrWidth
  intWidReg : BitVec g.axiIdWidth
  fifo : F.State

/-! ## Constants -/

/-- The loop of `clogb2`, with the remaining value and the result so far. -/
def clogb2Loop (temp retVal : Nat) : Nat :=
  if 1 < temp then clogb2Loop (temp / 2) (retVal + 1) else retVal
termination_by temp

def clogb2 (value : Nat) : Nat := clogb2Loop value 1

def addrSize : Nat := clogb2 (64 / 8 - 1)

@[simp] theorem addrSize_eq : addrSize = 3 := by
  simp [addrSize, clogb2, clogb2Loop]

def mAxiAwlen : BitVec 4 := BitVec.ofNat 4 15

def mAxiAwsize : BitVec 3 := BitVec.ofNat 3 addrSize

/-! ## Wires and output ports -/

namespace Regs

variable {g : Generics} {F : Fifo} (r : Regs g F) (i : Input)

def intFullWire : Bool := F.full r.fifo

def intEmptyWire : Bool := F.almostEmpty r.fifo

def intTreadyWire : Bool := !r.intFullWire

def intWlastWire : Bool := r.intAddrReg.extractLsb' 0 4 == 0b1111#4

def intRdenWire : Bool := i.mAxiWready && r.intWvalidReg

def stsData : BitVec g.addrWidth := r.intAddrReg

def mAxiAwaddr : BitVec 32 := i.cfgData + (r.intAddrReg ++ BitVec.zero addrSize).setWidth 32

def mAxiAwid : BitVec g.axiIdWidth := r.intWidReg

def mAxiWdata : BitVec 64 := F.dout r.fifo

theorem intWlastWire_eq : r.intWlastWire = decide (r.intAddrReg.toNat % 16 = 15) := by
  have h : r.intAddrReg.extractLsb' 0 4 = 0b1111#4 ↔ r.intAddrReg.toNat % 16 = 15 := by
    rw [← BitVec.toNat_inj]
    simp
  rw [intWlastWire, beq_eq_decide]
  exact decide_eq_decide.mpr h

/-- The burst address is the offset of eight bytes a beat; the sum may wrap. -/
theorem mAxiAwaddr_eq :
    r.mAxiAwaddr i = i.cfgData + BitVec.ofNat 32 (8 * r.intAddrReg.toNat) := by
  have hlt : r.intAddrReg.toNat < 2 ^ 29 :=
    r.intAddrReg.isLt.trans_le (Nat.pow_le_pow_right (by decide) g.le_29)
  unfold Regs.mAxiAwaddr
  congr 1
  apply BitVec.eq_of_toNat_eq
  rw [BitVec.toNat_setWidth, BitVec.toNat_append]
  simp [Nat.shiftLeft_eq]
  omega

/-! ## Next-state logic -/

/-- No burst is under way and the FIFO holds one. -/
def starts : Bool := !r.intEmptyWire && !r.intAwvalidReg && !r.intWvalidReg

def intAwvalidNext : Bool :=
  if r.starts || (i.mAxiWready && r.intWlastWire && !r.intEmptyWire) then true
  else if i.mAxiAwready && r.intAwvalidReg then false
  else r.intAwvalidReg

def intWvalidNext : Bool :=
  if r.starts then true
  else if i.mAxiWready && r.intWlastWire && r.intEmptyWire then false
  else r.intWvalidReg

def intAddrNext : BitVec g.addrWidth :=
  if r.intRdenWire i then r.intAddrReg + 1 else r.intAddrReg

def intWidNext : BitVec g.axiIdWidth :=
  if i.mAxiWready && r.intWlastWire then r.intWidReg + 1 else r.intWidReg

end Regs

/-! ## The core -/

variable {g : Generics} {F : Fifo}

def next (i : Input) (r : Regs g F) : Regs g F where
  intAwvalidReg := r.intAwvalidNext i
  intWvalidReg := r.intWvalidNext i
  intAddrReg := r.intAddrNext i
  intWidReg := r.intWidNext i
  fifo := F.edge (r.intRdenWire i) (r.intTreadyWire && i.sAxisTvalid) i.sAxisTdata r.fifo

def machine (g : Generics) (F : Fifo) : Machine Input (Regs g F) where
  reset :=
    { intAwvalidReg := false
      intWvalidReg := false
      intAddrReg := 0
      intWidReg := 0
      fifo := F.reset }
  next := next

/-- The registers in cycle `t` of a run from reset. -/
def run (g : Generics) (F : Fifo) (x : Nat → Input) (t : Nat) : Regs g F := (machine g F).run x t

theorem run_succ (x : Nat → Input) (t : Nat) :
    run g F x (t + 1) = next (x t) (run g F x t) := rfl

/-- A data beat is accepted in cycle `t`. -/
def beat (g : Generics) (F : Fifo) (x : Nat → Input) (t : Nat) : Bool :=
  (run g F x t).intRdenWire (x t)

/-- A burst address is accepted in cycle `t`. -/
def addressAccepted (g : Generics) (F : Fifo) (x : Nat → Input) (t : Nat) : Bool :=
  (run g F x t).intAwvalidReg && (x t).mAxiAwready

theorem intAddrReg_eq_beats (x : Nat → Input) (t : Nat) :
    (run g F x t).intAddrReg = BitVec.ofNat g.addrWidth (events (beat g F x) 0 t) := by
  induction t with
  | zero => rfl
  | succ t ih =>
    rw [run_succ, events_succ _ (Nat.zero_le t)]
    cases hb : beat g F x t with
    | true =>
      rw [beat] at hb
      simp [next, Regs.intAddrNext, hb, ih, BitVec.ofNat_add]
    | false =>
      rw [beat] at hb
      simp [next, Regs.intAddrNext, hb, ih]

end RpEcosystem.Writer
