import RpEcosystem.Clocked.Machine
import Mathlib.Data.Fin.VecNotation

/-!
# The trigger core `axis_lago_trigger` v1.3

The registers of the core and the next-state logic of each of its processes, for
`AXIS_TDATA_WIDTH = 32`, `ADC_DATA_WIDTH = 14`, `METADATA_ARRAY_LENGTH = 12` and
`SUBTRIG_ARRAY_LENGTH = 3` (the values of the design; only `DATA_ARRAY_LENGTH` is set by
it) and for every `DATA_ARRAY_LENGTH` for which the core elaborates. The two channels run
the same logic on their own registers, so a channel is a record and its logic is written
once; the names of the source (`tr1_s`, `tr2_s`, ...) are its two instances.

* `Channel`, `Regs`, `Input`: the registers and the ports in one clock cycle;
* `tr`, `subtr`, `maxTick`, with the names of the source as instances: the signals;
* `Channel.next`, `arrayPpsNext`, `arrayScalersNext`, `fsmNext`: the next-state logic;
* `machine`: the core as a synchronous circuit, reset by `aresetn`.
-/

namespace RpEcosystem.Trigger

open Clocked

/-- A word of the output stream. -/
abbrev Word := BitVec 32

/-- The generic of the core. The comparators read the entries `0 .. 10` of the window, so
the core elaborates only with at least eleven entries. -/
structure Generics where
  dataArrayLength : Nat
  window : 11 ≤ dataArrayLength

def metadataArrayLength : Nat := 12

def subtrigArrayLength : Nat := 3

inductive State
  | stIdle
  | stAttTr
  | stSendTrStatus
  | stSendCntStatus
  | stAttSubtr
  | stAttPps
  deriving DecidableEq, Repr

/-- The two channels. -/
inductive Side
  | a
  | b
  deriving DecidableEq, Repr

structure ChannelIn where
  trigLvlI : BitVec 16
  subtrigLvlI : BitVec 16
  scalerI : BitVec 32

/-- The input ports in one clock cycle. -/
structure Input where
  a : ChannelIn
  b : ChannelIn
  ppsI : Bool
  clkCntPpsI : BitVec 27
  tempI : BitVec 24
  pressureI : BitVec 24
  timeI : BitVec 24
  dateI : BitVec 24
  latitudeI : BitVec 24
  longitudeI : BitVec 24
  altitudeI : BitVec 24
  satellitesI : BitVec 24
  sAxisTdata : BitVec 32
  sAxisTvalid : Bool
  mAxisTready : Bool

def Input.chan (i : Input) : Side → ChannelIn
  | .a => i.a
  | .b => i.b

/-- The 14 bits of `s_axis_tdata` that belong to a channel. -/
def Input.sample (i : Input) : Side → BitVec 14
  | .a => i.sAxisTdata.extractLsb' 0 14
  | .b => i.sAxisTdata.extractLsb' 16 14

/-- The registers of one channel: input register, shift window (the newest sample enters
at the highest index), rate counter, prescaler, delayed trigger and charge. -/
structure Channel (g : Generics) where
  adcReg : BitVec 16
  adcDatReg : Fin g.dataArrayLength → BitVec 16
  rateCntReg : BitVec 24
  scalerCntReg : BitVec 32
  trDlyReg : Bool
  chargeReg : BitVec 14

structure Fsm where
  stateReg : State
  wrCountReg : BitVec 8
  dataToFifoReg : Word
  axisTvalidReg : Bool
  axisTreadyReg : Bool

structure Regs (g : Generics) where
  a : Channel g
  b : Channel g
  arrayPpsReg : Fin metadataArrayLength → Word
  trStatusReg : Word
  cntStatusReg : Word
  trigCntReg : BitVec 30
  arrayScalersReg : Fin subtrigArrayLength → Word
  fsm : Fsm

/-! ## Comparators -/

/-- The low 14 bits, sign-extended over the two padding bits. -/
def pad (v : BitVec 14) : BitVec 16 := v.signExtend 16

/-- `trig_lvl_a` and its three siblings: the configured level reduced to the ADC width. -/
def level (lvlI : BitVec 16) : BitVec 16 := pad (lvlI.extractLsb' 0 14)

/-- The bits `AXIS_TDATA_WIDTH/2-2 downto 0` that every comparison reads as signed. -/
def low15 (v : BitVec 16) : BitVec 15 := v.extractLsb' 0 15

namespace Channel

variable {g : Generics}

/-- The eleven oldest entries of the window. -/
def dat (c : Channel g) (k : Fin 11) : BitVec 16 := c.adcDatReg (k.castLE g.window)

/-- `tr1_s`, `tr2_s`: entry 10 has reached the level and the nine older ones are below. -/
def tr (lvl : BitVec 16) (c : Channel g) : Bool :=
  ((c.dat 10).msb == lvl.msb) &&
  (low15 lvl).sle (low15 (c.dat 10)) &&
  (low15 (c.dat 9)).slt (low15 lvl) &&
  (low15 (c.dat 8)).slt (low15 lvl) &&
  (low15 (c.dat 7)).slt (low15 lvl) &&
  (low15 (c.dat 6)).slt (low15 lvl) &&
  (low15 (c.dat 5)).slt (low15 lvl) &&
  (low15 (c.dat 4)).slt (low15 lvl) &&
  (low15 (c.dat 3)).slt (low15 lvl) &&
  (low15 (c.dat 2)).slt (low15 lvl) &&
  (low15 (c.dat 1)).slt (low15 lvl)

/-- `subtr1_s`, `subtr2_s`: entry 2 is a local maximum between the two levels. -/
def subtr (lvl sublvl : BitVec 16) (c : Channel g) : Bool :=
  ((c.dat 2).msb == sublvl.msb) &&
  (low15 sublvl).sle (low15 (c.dat 2)) &&
  (low15 (c.dat 1)).slt (low15 (c.dat 2)) &&
  ((low15 (c.dat 3)).slt (low15 (c.dat 2)) ||
    (low15 (c.dat 3) == low15 (c.dat 2) && (low15 (c.dat 4)).slt (low15 (c.dat 2)))) &&
  ((c.dat 2).msb == lvl.msb) &&
  (low15 (c.dat 2)).slt (low15 lvl) &&
  (low15 (c.dat 3)).slt (low15 lvl) &&
  (low15 (c.dat 4)).slt (low15 lvl)

/-- `scaler_a_max_tick`, `scaler_b_max_tick`. -/
def maxTick (scalerI : BitVec 32) (c : Channel g) : Bool := c.scalerCntReg == scalerI

def reset (g : Generics) : Channel g where
  adcReg := 0
  adcDatReg := fun _ => 0
  rateCntReg := 0
  scalerCntReg := 0
  trDlyReg := false
  chargeReg := 0

/-- The registers of a channel after an edge; `sample` are its 14 bits of `s_axis_tdata`
and `accept` is `axis_tready_reg and s_axis_tvalid`. -/
def next (i : ChannelIn) (ppsI accept : Bool) (sample : BitVec 14) (c : Channel g) :
    Channel g where
  adcReg := if accept then pad sample else c.adcReg
  adcDatReg := fun k =>
    if h : k.val + 1 < g.dataArrayLength then c.adcDatReg ⟨k.val + 1, h⟩ else c.adcReg
  rateCntReg :=
    if c.maxTick i.scalerI then c.rateCntReg + 1 else if ppsI then 0 else c.rateCntReg
  scalerCntReg :=
    if c.tr (level i.trigLvlI) then c.scalerCntReg + 1
    else if c.scalerCntReg = i.scalerI then 0 else c.scalerCntReg
  trDlyReg := c.tr (level i.trigLvlI)
  -- `'left` and `'right` of the source are the bounds of the index range
  chargeReg := c.chargeReg + BitVec.ofNat 14 (g.dataArrayLength - 1) - BitVec.ofNat 14 0

end Channel

/-! ## Combinational signals -/

namespace Regs

variable {g : Generics} (r : Regs g) (i : Input)

def chan : Side → Channel g
  | .a => r.a
  | .b => r.b

def tr (s : Side) : Bool := (r.chan s).tr (level (i.chan s).trigLvlI)

def maxTick (s : Side) : Bool := (r.chan s).maxTick (i.chan s).scalerI

def subtr (s : Side) : Bool :=
  (r.chan s).subtr (level (i.chan s).trigLvlI) (level (i.chan s).subtrigLvlI)

def tr1S : Bool := r.tr i .a

def tr2S : Bool := r.tr i .b

def scalerAMaxTick : Bool := r.maxTick i .a

def scalerBMaxTick : Bool := r.maxTick i .b

def trS : Bool := r.scalerAMaxTick i || r.scalerBMaxTick i

def subtr1S : Bool := r.subtr i .a

def subtr2S : Bool := r.subtr i .b

def subtrS : Bool := r.subtr1S i || r.subtr2S i

/-! ## Packet contents -/

/-- The twelve words latched by a pulse, from index 0 (`METADATA_ARRAY_LENGTH-12`) up. -/
def ppsWords : Fin metadataArrayLength → Word :=
  ![0b11110#5 ++ 0b000#3 ++ r.b.rateCntReg,
    0b11101#5 ++ 0b000#3 ++ r.a.rateCntReg,
    0b11100#5 ++ 0b100#3 ++ i.satellitesI,
    0b11100#5 ++ 0b011#3 ++ i.dateI,
    0b11100#5 ++ 0b010#3 ++ i.altitudeI,
    0b11100#5 ++ 0b001#3 ++ i.longitudeI,
    0b11100#5 ++ 0b000#3 ++ i.latitudeI,
    0b11011#5 ++ 0b000#3 ++ i.timeI,
    0b11010#5 ++ 0b000#3 ++ i.pressureI,
    0b11001#5 ++ 0b000#3 ++ i.tempI,
    0b11000#5 ++ i.clkCntPpsI,
    0xFFFFFFFF#32]

def arrayPpsNext : Fin metadataArrayLength → Word :=
  if i.ppsI then r.ppsWords i else r.arrayPpsReg

/-- `tr_status_next` for a tick in this cycle. -/
def trStatus : Word :=
  0b010#3 ++ BitVec.ofBool r.b.trDlyReg ++ BitVec.ofBool r.a.trDlyReg ++ i.clkCntPpsI

/-- `cnt_status_next` for a tick in this cycle. -/
def cntStatus : Word := 0b10#2 ++ r.trigCntReg

/-- The three words of a subtrigger: pulse maxima, charges, channel flags and clock. -/
def scalerWords : Fin subtrigArrayLength → Word :=
  ![0b0000#4 ++ (r.a.dat 2).extractLsb' 0 14 ++ (r.b.dat 2).extractLsb' 0 14,
    0b0000#4 ++ r.a.chargeReg ++ r.b.chargeReg,
    0b010#3 ++ BitVec.ofBool (r.subtr2S i) ++ BitVec.ofBool (r.subtr1S i) ++ i.clkCntPpsI]

def arrayScalersNext : Fin subtrigArrayLength → Word :=
  if r.subtrS i then r.scalerWords i else r.arrayScalersReg

/-- The data word sent in `ST_ATT_TR`: the oldest entry of both windows. -/
def sampleWord : Word :=
  0b00#2 ++ (r.b.dat 0).extractLsb' 13 1 ++ (r.b.dat 0).extractLsb' 0 13 ++
    0b00#2 ++ (r.a.dat 0).extractLsb' 13 1 ++ (r.a.dat 0).extractLsb' 0 13

end Regs

/-- The entry of an array at an integer index; the FSM never leaves the index range. -/
def readArray {n : Nat} (array : Fin n → Word) (k : Nat) : Word :=
  if h : k < n then array ⟨k, h⟩ else 0

/-! ## The FSM -/

/-- The state in which `ST_IDLE` serves `status = tr_s & subtr_s & pps_i`. -/
def idleNext (trS subtrS ppsI : Bool) : State :=
  if ppsI then .stAttPps else if trS then .stAttTr else if subtrS then .stAttSubtr else .stIdle

/-- A state that sends the words of an array: the word counter advances with every word
taken and is cleared by every cycle in which `m_axis_tready` is low. -/
def sendArray (mAxisTready : Bool) (length : Nat) (word : Word) (done : State) (f : Fsm) : Fsm :=
  if mAxisTready then
    { stateReg := if f.wrCountReg.toNat = length - 1 then done else f.stateReg
      wrCountReg := f.wrCountReg + 1
      dataToFifoReg := word
      axisTvalidReg := true
      axisTreadyReg := false }
  else { f with wrCountReg := 0, axisTvalidReg := true, axisTreadyReg := false }

/-- A state that sends one register. -/
def sendReg (mAxisTready : Bool) (word : Word) (done : State) (f : Fsm) : Fsm :=
  if mAxisTready then
    { stateReg := done
      wrCountReg := 0
      dataToFifoReg := word
      axisTvalidReg := true
      axisTreadyReg := false }
  else { f with wrCountReg := 0, axisTvalidReg := true, axisTreadyReg := false }

/-- Next-state logic and outputs of the FSM. -/
def fsmNext {g : Generics} (i : Input) (r : Regs g) : Fsm :=
  match r.fsm.stateReg with
  | .stIdle =>
    { stateReg :=
        if i.mAxisTready then idleNext (r.trS i) (r.subtrS i) i.ppsI else .stIdle
      wrCountReg := 0
      dataToFifoReg := r.fsm.dataToFifoReg
      axisTvalidReg := false
      axisTreadyReg := true }
  | .stAttTr =>
    sendArray i.mAxisTready g.dataArrayLength r.sampleWord .stSendTrStatus r.fsm
  | .stSendTrStatus => sendReg i.mAxisTready r.trStatusReg .stSendCntStatus r.fsm
  | .stSendCntStatus => sendReg i.mAxisTready r.cntStatusReg .stIdle r.fsm
  | .stAttSubtr =>
    sendArray i.mAxisTready subtrigArrayLength
      (readArray r.arrayScalersReg r.fsm.wrCountReg.toNat) .stIdle r.fsm
  | .stAttPps =>
    sendArray i.mAxisTready metadataArrayLength
      (readArray r.arrayPpsReg r.fsm.wrCountReg.toNat) .stIdle r.fsm

/-! ## The core -/

def Regs.reset (g : Generics) : Regs g where
  a := Channel.reset g
  b := Channel.reset g
  arrayPpsReg := fun _ => 0
  trStatusReg := 0
  cntStatusReg := 0
  trigCntReg := 0
  arrayScalersReg := fun _ => 0
  fsm :=
    { stateReg := .stIdle
      wrCountReg := 0
      dataToFifoReg := 0
      axisTvalidReg := false
      axisTreadyReg := false }

/-- All registers after an edge with `aresetn` high. -/
def next {g : Generics} (i : Input) (r : Regs g) : Regs g where
  a := r.a.next i.a i.ppsI (r.fsm.axisTreadyReg && i.sAxisTvalid) (i.sample .a)
  b := r.b.next i.b i.ppsI (r.fsm.axisTreadyReg && i.sAxisTvalid) (i.sample .b)
  arrayPpsReg := r.arrayPpsNext i
  trStatusReg := if r.trS i then r.trStatus i else r.trStatusReg
  cntStatusReg := if r.trS i then r.cntStatus else r.cntStatusReg
  trigCntReg := if r.trS i then r.trigCntReg + 1 else r.trigCntReg
  arrayScalersReg := r.arrayScalersNext i
  fsm := fsmNext i r

/-- The core as a synchronous circuit. -/
def machine (g : Generics) : Machine Input (Regs g) where
  reset := Regs.reset g
  next := next

/-- The registers in cycle `t` of a run from reset. -/
def run (g : Generics) (x : Nat → Input) (t : Nat) : Regs g := (machine g).run x t

/-- The word transferred on `m_axis` at the edge that ends cycle `t`. -/
def output (g : Generics) (x : Nat → Input) (t : Nat) : Option Word :=
  if (run g x t).fsm.axisTvalidReg && (x t).mAxisTready then some (run g x t).fsm.dataToFifoReg
  else none

@[simp] theorem run_zero (g : Generics) (x : Nat → Input) : run g x 0 = Regs.reset g := rfl

theorem run_succ (g : Generics) (x : Nat → Input) (t : Nat) :
    run g x (t + 1) = next (x t) (run g x t) := rfl

theorem next_chan {g : Generics} (i : Input) (r : Regs g) (s : Side) :
    (next i r).chan s = (r.chan s).next (i.chan s) i.ppsI
      (r.fsm.axisTreadyReg && i.sAxisTvalid) (i.sample s) := by
  cases s <;> rfl

@[simp] theorem reset_chan (g : Generics) (s : Side) :
    (Regs.reset g).chan s = Channel.reset g := by
  cases s <;> rfl

/-- The ports of a detector that sees only zero samples, with both levels at 1 and both
factors `N`. -/
def Input.quiet (N : BitVec 32) (t : Nat) : Input where
  a := ⟨1, 8190, N⟩
  b := ⟨1, 8190, N⟩
  ppsI := false
  clkCntPpsI := BitVec.ofNat 27 t
  tempI := 0
  pressureI := 0
  timeI := 0
  dateI := 0
  latitudeI := 0
  longitudeI := 0
  altitudeI := 0
  satellitesI := 0
  sAxisTdata := 0
  sAxisTvalid := true
  mAxisTready := true

/-- A pulse of height 1 on channel a in every tenth cycle. -/
def Input.pulses (N : BitVec 32) (t : Nat) : Input :=
  { Input.quiet N t with sAxisTdata := if t % 10 = 1 then 1 else 0 }

/-- The smallest window. -/
def Generics.smallest : Generics := ⟨11, le_rfl⟩

end RpEcosystem.Trigger
