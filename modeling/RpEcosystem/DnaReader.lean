import RpEcosystem.Clocked.Events
import Mathlib.Logic.Function.Iterate

/-!
# The reader of the device number

`dna_reader` reads the 57 bits of the device number once after every reset. Its port is a primitive
of the device, a shift register with a clock of its own, which is bit 5 of the cycle counter: the
port moves when the counter comes to `32` modulo `64`, and the core samples its output when the
counter leaves `63` modulo `64`.

* `Port`: the primitive, of which only the load is used (`Port.Loads`);
* `Phase`, `phase_edge`: every register and the port by the value of the counter;
* `dnaData_after_reset`: from any state, the number is there after a reset and stays.
-/

namespace RpEcosystem.DnaReader

open Clocked

variable {π : Type}

/-- The primitive `DNA_PORT` with `DIN` low: its output, and its state after a rising edge of its
clock with the given `READ` and `SHIFT`. -/
structure Port (π : Type) where
  dout : π → Bool
  clock : (read shift : Bool) → π → π

namespace Port

variable (port : Port π)

/-- `READ` loads the number of the device, whatever was there before. -/
def Loads (loaded : π) : Prop := ∀ p, port.clock true false p = loaded

/-- The port after the load and `k` shifts. -/
def shifted (loaded : π) (k : Nat) : π := (port.clock false true)^[k] loaded

/-- The bits of the number in the order in which the port gives them. -/
def serial (loaded : π) (k : Nat) : Bool := port.dout (port.shifted loaded k)

theorem shifted_succ (loaded : π) (k : Nat) :
    port.shifted loaded (k + 1) = port.clock false true (port.shifted loaded k) :=
  Function.iterate_succ_apply' _ _ _

end Port

structure Regs where
  intEnblReg : Bool
  intReadReg : Bool
  intShiftReg : Bool
  intCntrReg : BitVec 16
  intDataReg : BitVec 57

/-- The registers and the port. -/
structure State (π : Type) extends Regs where
  port : π

namespace Regs

variable (r : Regs)

def intCompWire : Bool := decide (r.intCntrReg < BitVec.ofNat 16 (64 * 57))

/-- The low bits of the counter are all ones. -/
def sampling : Bool := decide (r.intCntrReg.extractLsb' 0 6 = BitVec.allOnes 6)

def next (intDataWire : Bool) : Regs where
  intEnblReg :=
    if !r.intEnblReg && r.intCompWire then true
    else if !r.intCompWire then false else r.intEnblReg
  intReadReg :=
    if !r.intEnblReg && r.intCompWire then true
    else if r.sampling then false else r.intReadReg
  intShiftReg :=
    if !r.intCompWire then false else if r.sampling then true else r.intShiftReg
  intCntrReg := if r.intEnblReg then r.intCntrReg + 1 else r.intCntrReg
  intDataReg := if r.sampling then r.intDataReg.shiftConcat intDataWire else r.intDataReg

def reset : Regs := ⟨false, false, false, 0, 0⟩

end Regs

/-- An edge of `aclk`. The port sees one of its own when bit 5 of the counter rises. -/
def edge (port : Port π) (aresetn : Bool) (s : State π) : State π :=
  let r := bif aresetn then s.toRegs.next (port.dout s.port) else Regs.reset
  { toRegs := r
    port :=
      if !s.intCntrReg.getLsbD 5 && r.intCntrReg.getLsbD 5 then
        port.clock r.intReadReg r.intShiftReg s.port
      else s.port }

/-- The state in cycle `t`, from `s` in cycle `0`; nothing is known of `s` but that it is one. -/
def run (port : Port π) (aresetn : Nat → Bool) (s : State π) : Nat → State π
  | 0 => s
  | t + 1 => edge port (aresetn t) (run port aresetn s t)

def dnaData (s : State π) : BitVec 57 := s.intDataReg

/-! ## The bits received -/

/-- The first `n` bits, the last one lowest. -/
def received (bits : Nat → Bool) : Nat → BitVec 57
  | 0 => 0
  | n + 1 => (received bits n).shiftConcat (bits n)

theorem getLsbD_received (bits : Nat → Bool) {n i : Nat} (hi : i < n) (hw : i < 57) :
    (received bits n).getLsbD i = bits (n - 1 - i) := by
  induction n generalizing i with
  | zero => omega
  | succ n ih =>
    rw [received, BitVec.getLsbD_shiftConcat]
    cases i with
    | zero => simp
    | succ i =>
      have hsub : n + 1 - 1 - (i + 1) = n - 1 - i := by omega
      rw [hsub, ← ih (i := i) (by omega) (by omega)]
      simp [hw]

theorem getLsbD_received_of_le (bits : Nat → Bool) {n i : Nat} (hi : n ≤ i) :
    (received bits n).getLsbD i = false := by
  induction n generalizing i with
  | zero => simp [received]
  | succ n ih =>
    have hprev : (received bits n).getLsbD (i - 1) = false := ih (by omega)
    rw [received, BitVec.getLsbD_shiftConcat, if_neg (by omega), hprev, Bool.and_false]

/-! ## One edge -/

theorem Regs.sampling_eq (r : Regs) : r.sampling = decide (r.intCntrReg.toNat % 64 = 63) := by
  rw [Regs.sampling, decide_eq_decide, ← BitVec.toNat_inj, BitVec.extractLsb'_toNat]
  simp

theorem Regs.intCompWire_eq (r : Regs) : r.intCompWire = decide (r.intCntrReg.toNat < 3648) := by
  rw [Regs.intCompWire, decide_eq_decide, BitVec.lt_def]
  rfl

theorem getLsbD_five (v : BitVec 16) : v.getLsbD 5 = decide (v.toNat / 32 % 2 = 1) := by
  rw [BitVec.getLsbD, Nat.testBit_eq_decide_div_mod_eq]

/-- The registers when the counter is at `c`, which stops at `64 * 57 + 1`. -/
structure Regs.At (bits : Nat → Bool) (c : Nat) (r : Regs) : Prop where
  cntr : r.intCntrReg.toNat = c
  le : c ≤ 3649
  enbl : r.intEnblReg = decide (c ≤ 3648)
  read : r.intReadReg = decide (c < 64)
  shift : r.intShiftReg = decide (64 ≤ c ∧ c ≤ 3648)
  data : r.intDataReg = received bits (c / 64)

/-- The registers go on with the counter; every bit is sampled at the end of its period. -/
theorem Regs.At.next {bits : Nat → Bool} {c : Nat} {r : Regs} (h : r.At bits c) (hc : c ≤ 3648)
    {b : Bool} (hb : c % 64 = 63 → b = bits (c / 64)) : (r.next b).At bits (c + 1) := by
  have henbl : r.intEnblReg = true := by rw [h.enbl, decide_eq_true hc]
  have hcomp : r.intCompWire = decide (c < 3648) := by rw [r.intCompWire_eq, h.cntr]
  have hsampling : r.sampling = decide (c % 64 = 63) := by rw [r.sampling_eq, h.cntr]
  have hread := h.read
  have hshift := h.shift
  have hdata := h.data
  constructor
  · have hcntr := h.cntr
    rw [Regs.next, henbl, if_pos rfl, toNat_add_one_of_lt (by omega), hcntr]
  · omega
  · simp only [Regs.next, henbl, hcomp]
    by_cases hlast : c < 3648
    · rw [decide_eq_true hlast, decide_eq_true (by omega : c + 1 ≤ 3648)]
      rfl
    · rw [decide_eq_false hlast, decide_eq_false (by omega : ¬ c + 1 ≤ 3648)]
      rfl
  · simp only [Regs.next, henbl, hsampling, hread, Bool.not_true, Bool.false_and,
      Bool.false_eq_true, if_false]
    by_cases hend : c % 64 = 63
    · rw [decide_eq_true hend, decide_eq_false (by omega : ¬ c + 1 < 64)]
      rfl
    · rw [decide_eq_false hend, if_neg Bool.false_ne_true, decide_eq_decide]
      omega
  · simp only [Regs.next, hcomp, hsampling, hshift]
    by_cases hlast : c < 3648
    · rw [decide_eq_true hlast, Bool.not_true, if_neg Bool.false_ne_true]
      by_cases hend : c % 64 = 63
      · rw [decide_eq_true hend, if_pos rfl, eq_comm, decide_eq_true_eq]
        omega
      · rw [decide_eq_false hend, if_neg Bool.false_ne_true, decide_eq_decide]
        omega
    · rw [decide_eq_false hlast, decide_eq_false (by omega : ¬ (64 ≤ c + 1 ∧ c + 1 ≤ 3648))]
      rfl
  · simp only [Regs.next, hsampling, hdata]
    by_cases hend : c % 64 = 63
    · have hdiv : (c + 1) / 64 = c / 64 + 1 := by omega
      simp [hend, hdiv, received, hb hend]
    · have hdiv : (c + 1) / 64 = c / 64 := by omega
      simp [hend, hdiv]

/-- The counter has stopped, and nothing changes any more. -/
theorem Regs.At.next_stopped {bits : Nat → Bool} {r : Regs} (h : r.At bits 3649) (b : Bool) :
    r.next b = r := by
  have henbl : r.intEnblReg = false := h.enbl
  have hshift : r.intShiftReg = false := h.shift
  have hcomp : r.intCompWire = false := by rw [r.intCompWire_eq, h.cntr]; rfl
  have hsampling : r.sampling = false := by rw [r.sampling_eq, h.cntr]; rfl
  obtain ⟨enbl, read, shift, cntr, data⟩ := r
  subst henbl hshift
  simp [Regs.next, hcomp, hsampling]

/-- The registers and the port when the counter is at `c`. -/
structure Phase (port : Port π) (loaded : π) (c : Nat) (s : State π) : Prop where
  regs : s.toRegs.At (port.serial loaded) c
  port : 32 ≤ c → s.port = port.shifted loaded ((c - 32) / 64)

section Step

variable {port : Port π} {loaded : π} {c : Nat} {s : State π}

/-- The bit that is sampled has been on the output for half a period. -/
theorem Phase.next_regs (h : Phase port loaded c s) (hc : c ≤ 3648) :
    (edge port true s).toRegs.At (port.serial loaded) (c + 1) := by
  refine h.regs.next hc fun hend => ?_
  rw [h.port (by omega), show (c - 32) / 64 = c / 64 by omega, Port.serial]

/-- The counter goes on. The port moves at `32` modulo `64`, first with `READ` and then with
`SHIFT`. -/
theorem Phase.edge_counting (hload : port.Loads loaded) (h : Phase port loaded c s)
    (hc : c ≤ 3648) : Phase port loaded (c + 1) (edge port true s) := by
  have hregs := h.next_regs hc
  refine ⟨hregs, fun hfrom => ?_⟩
  have hrise : (!s.intCntrReg.getLsbD 5 && (edge port true s).intCntrReg.getLsbD 5) =
      decide (c % 64 = 31) := by
    rw [getLsbD_five, getLsbD_five, h.regs.cntr, hregs.cntr, ← decide_not, ← Bool.decide_and,
      decide_eq_decide]
    omega
  have hport : (edge port true s).port =
      if !s.intCntrReg.getLsbD 5 && (edge port true s).intCntrReg.getLsbD 5 then
        port.clock (edge port true s).intReadReg (edge port true s).intShiftReg s.port
      else s.port := rfl
  rw [hport, hrise, hregs.read, hregs.shift]
  by_cases hmove : c % 64 = 31
  · rw [if_pos (decide_eq_true hmove)]
    by_cases hfirst : c = 31
    · subst hfirst
      exact hload s.port
    · rw [h.port (by omega), show (c + 1 - 32) / 64 = (c - 32) / 64 + 1 by omega,
        port.shifted_succ, decide_eq_false (by omega), decide_eq_true (by omega)]
  · rw [if_neg (by simpa using hmove), h.port (by omega)]
    congr 1
    omega

theorem Phase.edge_stopped (h : Phase port loaded 3649 s) : edge port true s = s := by
  have hregs : s.toRegs.next (port.dout s.port) = s.toRegs := h.regs.next_stopped _
  simp [edge, hregs]

/-- The first edge after a reset starts the counter. -/
theorem phase_start (p : π) : Phase port loaded 0 (edge port true ⟨Regs.reset, p⟩) :=
  ⟨⟨rfl, by omega, rfl, rfl, rfl, rfl⟩, fun h => absurd h (by omega)⟩

end Step

/-! ## Whole runs -/

section Runs

variable {port : Port π} {loaded : π} (hload : port.Loads loaded) {aresetn : Nat → Bool}
  {s : State π} {u : Nat} (hreset : aresetn u = false)

include hreset in
theorem run_reset : (run port aresetn s (u + 1)).toRegs = Regs.reset := by
  rw [run, hreset]
  rfl

include hload hreset in
/-- The counter is one cycle behind the time since the reset, until it stops. -/
theorem phase_run {t : Nat} (hrun : ∀ v, u < v → v ≤ u + 1 + t → aresetn v = true) :
    Phase port loaded (min t 3649) (run port aresetn s (u + 1 + (t + 1))) := by
  induction t with
  | zero =>
    have hregs : (run port aresetn s (u + 1)).toRegs = Regs.reset := run_reset hreset
    have hstep : run port aresetn s (u + 1 + 1) = edge port true (run port aresetn s (u + 1)) := by
      rw [run, hrun (u + 1) (by omega) (by omega)]
    have hstate : run port aresetn s (u + 1) = ⟨Regs.reset, (run port aresetn s (u + 1)).port⟩ := by
      rw [← hregs]
    rw [hstep, hstate]
    exact phase_start _
  | succ t ih =>
    have hphase := ih fun v huv hvt => hrun v huv (by omega)
    have hstep : run port aresetn s (u + 1 + (t + 1 + 1)) =
        edge port true (run port aresetn s (u + 1 + (t + 1))) := by
      rw [← Nat.add_assoc, run, hrun _ (by omega) (by omega)]
    rw [hstep]
    rcases Nat.lt_or_ge t 3649 with hcount | hstop
    · rw [Nat.min_eq_left hcount.le] at hphase
      rw [Nat.min_eq_left hcount]
      exact hphase.edge_counting hload (by omega)
    · rw [Nat.min_eq_right hstop] at hphase
      rw [Nat.min_eq_right (by omega), hphase.edge_stopped]
      exact hphase

end Runs

/-- **The device number.** From any state, after a reset the bits of the number come in one by one,
in the order in which the port gives them, the first of them highest; after all of them the output
is the number, as long as there is no other reset. -/
theorem dnaData_after_reset {port : Port π} {loaded : π} (hload : port.Loads loaded)
    {aresetn : Nat → Bool} (s : State π) {u t : Nat} (hreset : aresetn u = false)
    (hrun : ∀ v, u < v → v ≤ u + 1 + t → aresetn v = true) :
    let data := dnaData (run port aresetn s (u + 1 + (t + 1)))
    (∀ k, k < min (t / 64) 57 → data.getLsbD (min (t / 64) 57 - 1 - k) = port.serial loaded k) ∧
      (∀ i, min (t / 64) 57 ≤ i → data.getLsbD i = false) ∧
      (3648 ≤ t → ∀ k ≤ 56, data.getLsbD (56 - k) = port.serial loaded k) := by
  have hdata := (phase_run hload (s := s) hreset hrun).regs.data
  rw [show min t 3649 / 64 = min (t / 64) 57 by omega] at hdata
  intro data
  have hbits : ∀ k, k < min (t / 64) 57 →
      data.getLsbD (min (t / 64) 57 - 1 - k) = port.serial loaded k := by
    intro k hk
    have hback : min (t / 64) 57 - 1 - (min (t / 64) 57 - 1 - k) = k := by omega
    change BitVec.getLsbD (State.toRegs _).intDataReg _ = _
    rw [hdata, getLsbD_received _ (by omega) (by omega), hback]
  refine ⟨hbits, fun i hi => ?_, fun ht k hk => ?_⟩
  · change BitVec.getLsbD (State.toRegs _).intDataReg _ = _
    rw [hdata]
    exact getLsbD_received_of_le _ hi
  · have hall : min (t / 64) 57 = 57 := by omega
    rw [hall] at hbits
    exact hbits k (by omega)

/-- A port that holds its number in a shift register, highest bit first. -/
def Port.ofNumber (n : BitVec 57) : Port (BitVec 57) where
  dout p := p.getLsbD 56
  clock read shift p := bif read then n else bif shift then p <<< 1 else p

theorem Port.serial_ofNumber (n : BitVec 57) (k : Nat) (hk : k ≤ 56) :
    (Port.ofNumber n).serial n k = n.getLsbD (56 - k) := by
  have hshifted : (Port.ofNumber n).shifted n k = n <<< k := by
    clear hk
    induction k with
    | zero => simp [Port.shifted]
    | succ k ih =>
      rw [Port.shifted_succ, ih, BitVec.shiftLeft_add]
      rfl
  change BitVec.getLsbD ((Port.ofNumber n).shifted n k) 56 = _
  rw [hshifted, BitVec.getLsbD_shiftLeft]
  simp
  omega

/-- A reset in the first cycle, and then none. -/
theorem dnaData_after_reset_number :
    dnaData (run (Port.ofNumber 0x155aa1234567890) (fun v => decide (0 < v)) ⟨Regs.reset, 0⟩
      3650) = 0x155aa1234567890 := by
  have hbits := (@dnaData_after_reset _ (Port.ofNumber 0x155aa1234567890) 0x155aa1234567890
    (fun _ => rfl) (fun v => decide (0 < v)) ⟨Regs.reset, 0⟩ 0 3648 rfl
    (fun v hv _ => decide_eq_true hv)).2.2 le_rfl
  apply BitVec.eq_of_getLsbD_eq
  intro i hi
  have hbit := hbits (56 - i) (by omega)
  rw [Port.serial_ofNumber _ _ (by omega), show 56 - (56 - i) = i by omega] at hbit
  exact hbit

end RpEcosystem.DnaReader
