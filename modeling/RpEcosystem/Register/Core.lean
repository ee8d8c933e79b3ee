import RpEcosystem.Clocked.Machine
import RpEcosystem.Writer.Core
import Mathlib.Tactic.Common

/-!
# The register files `axi_cfg_register` and `axi_sts_register`

Two AXI4-Lite slaves with 32-bit words. The configuration register keeps one flip-flop for
every bit of its output, each with its own enable, and can be read back; the status register
reads a vector of input bits. Both take their word index from a slice of the address whose width
`clogb2` computes from the number of words.

* `Generics`, `Generics.size`, `Generics.width`, `Generics.index`: the sizes and the word index;
* `Cfg`, `Sts`: inputs, registers, output ports and the step of the two circuits;
* `clogb2_eq`, `index_eq`: the index as a remainder;
* `index_in_range_iff`: the index stays inside the register file exactly for the powers of two
  from 2 on.
-/

namespace RpEcosystem.Register

open Clocked

/-! ## Sizes -/

/-- The generics of either core, with `AXI_DATA_WIDTH` and `AXI_ADDR_WIDTH` 32. -/
structure Generics where
  /-- `CFG_DATA_WIDTH` or `STS_DATA_WIDTH` -/
  dataWidth : Nat
  /-- What the read multiplexer gives for an index outside its range; the source says nothing
  about it. -/
  outside : Nat → BitVec 32
  pos : 0 < dataWidth
  whole : dataWidth % 32 = 0
  /-- the generic is a number of the language -/
  natural : dataWidth < 2147483648

/-- The loop is the one of the writer. -/
def clogb2 (value : Nat) : Nat := Writer.clogb2Loop value 1

def sel (cond : Bool) (ifTrue ifFalse : Nat) : Nat := bif cond then ifTrue else ifFalse

def addrLsb : Nat := clogb2 (32 / 8 - 1)

namespace Generics

variable (g : Generics)

/-- `CFG_SIZE` or `STS_SIZE`. -/
def size : Nat := g.dataWidth / 32

/-- `CFG_WIDTH` or `STS_WIDTH`. -/
def width : Nat := sel (decide (1 < g.size)) (clogb2 (g.size - 1)) 1

/-- The slice of an address that selects the word. -/
def index (addr : BitVec 32) : Nat := (addr.extractLsb' addrLsb g.width).toNat

/-- The word `j` of a register file. -/
def word (data : BitVec g.dataWidth) (j : Nat) : BitVec 32 := data.extractLsb' (32 * j) 32

/-- The read multiplexer `int_data_mux`. -/
def readMux (data : BitVec g.dataWidth) (j : Nat) : BitVec 32 :=
  if j < g.size then g.word data j else g.outside j

theorem dataWidth_eq : g.dataWidth = 32 * g.size := by
  have h := g.whole
  unfold size
  omega

theorem size_pos : 0 < g.size := by
  have h := g.pos
  have hw := g.whole
  unfold size
  omega

theorem size_lt : g.size < 67108864 := by
  have h := g.natural
  unfold size
  omega

end Generics

/-! ## The circuits -/

/-- The valid bit of a response channel after an edge. -/
def validNext (request ready valid : Bool) : Bool :=
  if request then true else if ready && valid then false else valid

/-- A flip-flop with clock enable and synchronous reset after an edge. -/
def fdre (ce r d q : Bool) : Bool := if r then false else if ce then d else q

/-- The vector with the bit `f p` at place `p`. -/
def generate (n : Nat) (f : Nat → Bool) : BitVec n :=
  (BitVec.ofBoolListLE ((List.range n).map f)).setWidth n

theorem getLsbD_generate {n p : Nat} (f : Nat → Bool) (hp : p < n) :
    (generate n f).getLsbD p = f p := by
  rw [generate, BitVec.getLsbD_setWidth, BitVec.getLsbD_ofBoolListLE]
  simp [hp]

namespace Cfg

/-- The input ports of `axi_cfg_register` in one clock cycle. -/
structure Input where
  aresetn : Bool
  awaddr : BitVec 32
  awvalid : Bool
  wdata : BitVec 32
  wstrb : BitVec 4
  wvalid : Bool
  bready : Bool
  araddr : BitVec 32
  arvalid : Bool
  rready : Bool
  deriving DecidableEq, Repr

structure Regs (g : Generics) where
  intDataWire : BitVec g.dataWidth
  resetS : Bool
  intBvalidReg : Bool
  intRvalidReg : Bool
  intRdataReg : BitVec 32
  deriving DecidableEq, Repr

variable {g : Generics}

def Input.intWvalidWire (i : Input) : Bool := i.awvalid && i.wvalid

def intCeWire (g : Generics) (i : Input) (j : Nat) : Bool :=
  i.intWvalidWire && decide (g.index i.awaddr = j)

/-- The enable of bit `k` of word `j`. -/
def tmpS1 (g : Generics) (i : Input) (j k : Nat) : Bool :=
  intCeWire g i j && i.wstrb.getLsbD (k / 8)

/-- All registers after an edge; bit `k` of word `j` is at place `32 * j + k`. -/
def next (i : Input) (r : Regs g) : Regs g where
  intDataWire := generate g.dataWidth fun p =>
    fdre (tmpS1 g i (p / 32) (p % 32)) r.resetS (i.wdata.getLsbD (p % 32))
      (r.intDataWire.getLsbD p)
  resetS := !i.aresetn
  intBvalidReg := i.aresetn && validNext i.intWvalidWire i.bready r.intBvalidReg
  intRvalidReg := i.aresetn && validNext i.arvalid i.rready r.intRvalidReg
  intRdataReg :=
    if i.aresetn then
      if i.arvalid then g.readMux r.intDataWire (g.index i.araddr) else r.intRdataReg
    else 0

namespace Regs

variable (r : Regs g)

def cfgData : BitVec g.dataWidth := r.intDataWire

def bvalid : Bool := r.intBvalidReg

def rvalid : Bool := r.intRvalidReg

def rdata : BitVec 32 := r.intRdataReg

end Regs

def Input.awready (i : Input) : Bool := i.intWvalidWire

def Input.wready (i : Input) : Bool := i.intWvalidWire

/-- `s_axi_arready` is tied high. -/
def arready : Bool := true

/-- The flip-flops are 0 at power-up. -/
def machine (g : Generics) : Machine Input (Regs g) where
  reset := ⟨0, true, false, false, 0⟩
  next := next

/-- The registers in cycle `t` of a run from `r`, with the reset among the inputs. -/
def runFrom (r : Regs g) (x : Nat → Input) (t : Nat) : Regs g := (machine g).runFrom r x t

theorem runFrom_succ (r : Regs g) (x : Nat → Input) (t : Nat) :
    runFrom r x (t + 1) = next (x t) (runFrom r x t) := rfl

end Cfg

namespace Sts

/-- The input ports of `axi_sts_register` that it reads. -/
structure Input (g : Generics) where
  aresetn : Bool
  stsData : BitVec g.dataWidth
  araddr : BitVec 32
  arvalid : Bool
  rready : Bool

structure Regs where
  intRvalidReg : Bool
  intRdataReg : BitVec 32
  deriving DecidableEq, Repr

variable {g : Generics}

def next (i : Input g) (r : Regs) : Regs where
  intRvalidReg := i.aresetn && validNext i.arvalid i.rready r.intRvalidReg
  intRdataReg :=
    if i.aresetn then
      if i.arvalid then g.readMux i.stsData (g.index i.araddr) else r.intRdataReg
    else 0

def Regs.rvalid (r : Regs) : Bool := r.intRvalidReg

def Regs.rdata (r : Regs) : BitVec 32 := r.intRdataReg

/-- `s_axi_arready` is tied high. -/
def arready : Bool := true

def machine (g : Generics) : Machine (Input g) Regs where
  reset := ⟨false, 0⟩
  next := next

def runFrom (r : Regs) (x : Nat → Input g) (t : Nat) : Regs := (machine g).runFrom r x t

theorem runFrom_succ (r : Regs) (x : Nat → Input g) (t : Nat) :
    runFrom r x (t + 1) = next (x t) (runFrom r x t) := rfl

end Sts

/-! ## The word index -/

theorem clogb2Loop_eq (temp retVal : Nat) :
    Writer.clogb2Loop temp retVal = retVal + temp.log2 := by
  fun_induction Writer.clogb2Loop temp retVal with
  | case1 temp retVal h ih =>
    rw [ih, Nat.log2_def temp, if_pos (show 2 ≤ temp from h)]
    omega
  | case2 temp retVal h =>
    rw [Nat.log2_def, if_neg (by omega), Nat.add_zero]

/-- `clogb2` counts the binary digits of a positive number. -/
theorem clogb2_eq (value : Nat) : clogb2 value = value.log2 + 1 := by
  rw [clogb2, clogb2Loop_eq, Nat.add_comm]

@[simp] theorem addrLsb_eq : addrLsb = 2 := by
  rw [addrLsb, clogb2_eq, Nat.log2_def]
  simp [Nat.log2_def]

namespace Generics

variable (g : Generics)

theorem width_of_one (h : g.size = 1) : g.width = 1 := by
  rw [width, h]
  rfl

theorem width_of_lt (h : 1 < g.size) : g.width = (g.size - 1).log2 + 1 := by
  rw [width, decide_eq_true h, sel, cond_true, clogb2_eq]

/-- The index bits reach the last word. -/
theorem size_le_pow : g.size ≤ 2 ^ g.width := by
  rcases Nat.lt_or_ge 1 g.size with h | h
  · have hlog := (g.size - 1).lt_log2_self
    rw [g.width_of_lt h]
    omega
  · rw [g.width_of_one (by have := g.size_pos; omega)]
    omega

/-- One index bit less would not reach the last word of two or more. -/
theorem pow_lt_size (h : 1 < g.size) : 2 ^ (g.width - 1) < g.size := by
  have hlog := Nat.log2_self_le (n := g.size - 1) (by omega)
  rw [g.width_of_lt h, Nat.add_sub_cancel]
  omega

theorem pow_width_lt : 2 ^ g.width ≤ 2 * 67108864 := by
  have hsize := g.size_lt
  rcases Nat.lt_or_ge 1 g.size with h | h
  · have hpow := g.pow_lt_size h
    obtain ⟨w, hw⟩ : ∃ w, g.width = w + 1 := ⟨_, g.width_of_lt h⟩
    rw [hw, Nat.add_sub_cancel] at hpow
    rw [hw, Nat.pow_succ]
    omega
  · rw [g.width_of_one (by have := g.size_pos; omega)]
    decide

theorem index_eq (addr : BitVec 32) : g.index addr = addr.toNat / 4 % 2 ^ g.width := by
  rw [index, addrLsb_eq, BitVec.extractLsb'_toNat, Nat.shiftRight_eq_div_pow]

/-- Every number of `width` digits is the index of an address. -/
theorem exists_index {j : Nat} (hj : j < 2 ^ g.width) : ∃ addr : BitVec 32, g.index addr = j := by
  have hlt := g.pow_width_lt
  refine ⟨BitVec.ofNat 32 (4 * j), ?_⟩
  have haddr : (BitVec.ofNat 32 (4 * j)).toNat / 4 = j := by
    rw [BitVec.toNat_ofNat]
    omega
  rw [index_eq, haddr, Nat.mod_eq_of_lt hj]

/-- For a power of two from 2 on, the index bits count exactly the words. -/
theorem pow_width_of_pow {m : Nat} (hm : 1 ≤ m) (h : g.size = 2 ^ m) : g.width = m := by
  have hlt : 1 < g.size := by
    rw [h]
    exact Nat.one_lt_two_pow (by omega)
  have hlo := g.pow_lt_size hlt
  have hhi := g.size_le_pow
  rw [h] at hlo hhi
  have h1 := (Nat.pow_lt_pow_iff_right (by omega)).1 hlo
  have h2 := (Nat.pow_le_pow_iff_right (by omega)).1 hhi
  omega

end Generics

/-- The index bits reach every word. They stay inside the register file for every address
exactly when the number of words is a power of two and not 1: otherwise the slice can hold
numbers that are not indices, and a single word is read with an index bit of its own. -/
theorem index_in_range_iff (g : Generics) :
    (∀ j, j < g.size → ∃ addr : BitVec 32, g.index addr = j) ∧
      ((∀ addr : BitVec 32, g.index addr < g.size) ↔ ∃ m, 1 ≤ m ∧ g.size = 2 ^ m) := by
  have hle := g.size_le_pow
  refine ⟨fun j hj => g.exists_index (by omega), ?_, ?_⟩
  · intro hin
    have hpos : 0 < 2 ^ g.width := Nat.two_pow_pos _
    obtain ⟨addr, haddr⟩ := g.exists_index (j := 2 ^ g.width - 1) (by omega)
    have htop := hin addr
    have hsize : g.size = 2 ^ g.width := by omega
    refine ⟨g.width, ?_, hsize⟩
    rcases Nat.lt_or_ge 1 g.size with h | h
    · rw [g.width_of_lt h]
      omega
    · rw [g.width_of_one (by have := g.size_pos; omega)]
  · rintro ⟨m, hm, hsize⟩ addr
    rw [g.index_eq, g.pow_width_of_pow hm hsize, ← hsize]
    exact Nat.mod_lt _ g.size_pos

/-- The 32 words of the default width. -/
def Generics.standard : Generics where
  dataWidth := 1024
  outside := fun _ => 0
  pos := by decide
  whole := by decide
  natural := by decide

theorem index_in_range_standard :
    ∀ addr : BitVec 32, Generics.standard.index addr < Generics.standard.size :=
  (index_in_range_iff .standard).2.2 ⟨5, by decide, rfl⟩

/-- The five status words of a design: 160 bits. -/
def Generics.fiveWords : Generics where
  dataWidth := 160
  outside := fun _ => 0
  pos := by decide
  whole := by decide
  natural := by decide

/-- Three address bits select among the five words, so the address of word 7 is not refused. -/
theorem index_outside_fiveWords :
    ¬ ∀ addr : BitVec 32, Generics.fiveWords.index addr < Generics.fiveWords.size := by
  intro h
  have hseven := h 28#32
  revert hseven
  decide +kernel

end RpEcosystem.Register
