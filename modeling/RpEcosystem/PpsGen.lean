import RpEcosystem.Clocked.Machine
import RpEcosystem.Clocked.Modulo
import Mathlib.Tactic.Common

/-!
# The time base `pps_gen`

A counter modulo `CLK_FREQ` makes the false PPS, a multiplexer selects between it and the
level of the GPS receiver, and a three-state detector turns every rising edge of the selected
level into a pulse of one cycle. The pulse clears the count of the cycles of the second.

The two resets do not reset the same registers: `resetn_i` stops the counters only, and
nothing resets `false_pps`, which the power-up value sets.

* `Input`, `Regs`, `next`, `machine`: the circuit;
* `oneClkPps_succ`: the detector against the sampled level, from any state;
* `clkCntPps_since`: the count since the last pulse;
* `oneClkPps_false`: the cycles in which the false PPS pulses;
* `pps_time_base`: both sources for every `CLK_FREQ` from 5 to `2 ^ 27`.
-/

namespace RpEcosystem.PpsGen

open Clocked

/-- The input ports in one clock cycle; the input buffer of `pps_i` is a wire. -/
structure Input where
  aresetn : Bool
  resetnI : Bool
  ppsI : Bool
  gpsenI : Bool

inductive PpsSt
  | zero
  | edge
  | one
  deriving DecidableEq, Repr

structure Regs where
  oneSecCnt : BitVec 27
  clkCntPps : BitVec 27
  falsePps : Bool
  ppsStReg : PpsSt
  deriving DecidableEq, Repr

def Input.rstSig (i : Input) : Bool := !i.aresetn || !i.resetnI

namespace Regs

variable (i : Input) (r : Regs)

/-- The selected level. -/
def pps : Bool := bif i.gpsenI then r.falsePps else i.ppsI

def ppsStNext : PpsSt :=
  match r.ppsStReg, r.pps i with
  | .zero, true => .edge
  | .zero, false => .zero
  | .edge, true => .one
  | .edge, false => .zero
  | .one, true => .one
  | .one, false => .zero

def oneClkPps : Bool := decide (r.ppsStReg = .edge)

def ppsO : Bool := r.oneClkPps

def intO : Bool := r.oneClkPps

def clkCntPpsO : BitVec 27 := r.clkCntPps

def ppsSigO : Bool := (i.ppsI && !i.gpsenI) || (r.falsePps && i.gpsenI)

def ppsGpsLedO : Bool := bif i.gpsenI then false else i.ppsI

def falsePpsLedO : Bool := bif i.gpsenI then r.falsePps else false

end Regs

/-- The registers at power-up. -/
def Regs.powerUp : Regs := ⟨0, 0, false, .zero⟩

/-- The registers after an edge; `clkFreq` is `CLK_FREQ`. -/
def next (clkFreq : Nat) (i : Input) (r : Regs) : Regs where
  oneSecCnt :=
    if i.rstSig then 0
    else if r.oneSecCnt.toNat = clkFreq - 1 then 0 else r.oneSecCnt + 1
  clkCntPps :=
    if i.rstSig then 0
    else if r.oneClkPps then 0 else r.clkCntPps + 1
  -- up for 200 ms of every second
  falsePps :=
    if i.rstSig then r.falsePps else decide (r.oneSecCnt.toNat < clkFreq / 5)
  ppsStReg := if i.aresetn then r.ppsStNext i else .zero

def machine (clkFreq : Nat) : Machine Input Regs where
  reset := Regs.powerUp
  next := next clkFreq

/-- The registers in cycle `t` of a run from `r`, with the resets among the inputs. -/
def runFrom (clkFreq : Nat) (r : Regs) (x : Nat → Input) (t : Nat) : Regs :=
  (machine clkFreq).runFrom r x t

theorem runFrom_succ (clkFreq : Nat) (r : Regs) (x : Nat → Input) (t : Nat) :
    runFrom clkFreq r x (t + 1) = next clkFreq (x t) (runFrom clkFreq r x t) := rfl

/-! ## The edge detector -/

theorem ppsStNext_eq_zero (i : Input) (r : Regs) : r.ppsStNext i = .zero ↔ r.pps i = false := by
  unfold Regs.ppsStNext
  cases r.ppsStReg <;> cases r.pps i <;> simp

theorem ppsStNext_eq_edge (i : Input) (r : Regs) :
    r.ppsStNext i = .edge ↔ r.pps i = true ∧ r.ppsStReg = .zero := by
  unfold Regs.ppsStNext
  cases r.ppsStReg <;> cases r.pps i <;> simp

section Detector

variable {f : Nat} (r : Regs) (x : Nat → Input)

/-- The selected level in cycle `t`. -/
def level (f : Nat) (t : Nat) : Bool := (runFrom f r x t).pps (x t)

/-- The level sampled at the end of the cycle before, which at the start is the one the
detector remembers. -/
def before (f : Nat) : Nat → Bool
  | 0 => decide (r.ppsStReg ≠ .zero)
  | t + 1 => level r x f t

variable {r x}

theorem level_false (hgps : ∀ t, (x t).gpsenI = true) (t : Nat) :
    level r x f t = (runFrom f r x t).falsePps := by
  rw [level, Regs.pps, hgps t]
  rfl

theorem level_gps (hgps : ∀ t, (x t).gpsenI = false) (t : Nat) :
    level r x f t = (x t).ppsI := by
  rw [level, Regs.pps, hgps t]
  rfl

variable (hrel : ∀ t, (x t).aresetn = true)

include hrel

theorem ppsStReg_succ (t : Nat) :
    (runFrom f r x (t + 1)).ppsStReg = (runFrom f r x t).ppsStNext (x t) := by
  rw [runFrom_succ]
  exact if_pos (hrel t)

theorem ppsStReg_eq_zero (t : Nat) :
    (runFrom f r x t).ppsStReg = .zero ↔ before r x f t = false := by
  cases t with
  | zero => simp [before, runFrom]
  | succ t => rw [ppsStReg_succ hrel, ppsStNext_eq_zero, before, level]

/-- A pulse follows exactly the rising edges of the sampled level. -/
theorem oneClkPps_succ (t : Nat) : (runFrom f r x (t + 1)).oneClkPps = true ↔
    level r x f t = true ∧ before r x f t = false := by
  rw [Regs.oneClkPps, decide_eq_true_eq, ppsStReg_succ hrel, ppsStNext_eq_edge,
    ppsStReg_eq_zero hrel, level]

/-- A pulse lasts one cycle. -/
theorem oneClkPps_isolated (t : Nat) (h : (runFrom f r x t).oneClkPps = true) :
    (runFrom f r x (t + 1)).oneClkPps = false := by
  by_contra hagain
  rw [Bool.not_eq_false, oneClkPps_succ hrel, ← ppsStReg_eq_zero hrel] at hagain
  rw [Regs.oneClkPps, decide_eq_true_eq] at h
  exact absurd (h.symm.trans hagain.2) (by decide)

end Detector

/-! ## The count of the second -/

/-- Both resets are released. -/
def Input.Released (i : Input) : Prop := i.aresetn = true ∧ i.resetnI = true

theorem Input.Released.rstSig {i : Input} (h : i.Released) : i.rstSig = false := by
  simp [Input.rstSig, h.1, h.2]

section Released

variable {f : Nat} {r : Regs} {x : Nat → Input} (hrel : ∀ t, (x t).Released)

include hrel

theorem clkCntPps_succ (t : Nat) : (runFrom f r x (t + 1)).clkCntPps =
    if (runFrom f r x t).oneClkPps then 0 else (runFrom f r x t).clkCntPps + 1 := by
  rw [runFrom_succ]
  simp [next, (hrel t).rstSig]

/-- After a pulse the register counts the cycles, from 0 in the cycle that follows it. -/
theorem clkCntPps_since {p t : Nat} (hpt : p < t) (hp : (runFrom f r x p).oneClkPps = true)
    (hlast : ∀ u, p < u → u < t → (runFrom f r x u).oneClkPps = false) :
    (runFrom f r x t).clkCntPps.toNat = (t - p - 1) % 2 ^ 27 := by
  induction t, hpt using Nat.le_induction with
  | base =>
    rw [clkCntPps_succ hrel, if_pos hp]
    simp
  | succ t hpt ih =>
    have hquiet := hlast t hpt (by omega)
    have hcnt := ih fun u h1 h2 => hlast u h1 (by omega)
    rw [clkCntPps_succ hrel, hquiet, if_neg (by decide), BitVec.toNat_add, hcnt]
    change ((t - p - 1) % 2 ^ 27 + 1) % 2 ^ 27 = (t + 1 - p - 1) % 2 ^ 27
    rw [Nat.mod_add_mod, show t + 1 - p - 1 = t - p - 1 + 1 by omega]

/-! ## The false PPS -/

theorem oneSecCnt_counts : CountsModulo (fun t => (runFrom f r x t).oneSecCnt) f := by
  intro t
  simp only [runFrom_succ]
  simp [next, (hrel t).rstSig]

theorem falsePps_succ (t : Nat) : (runFrom f r x (t + 1)).falsePps =
    decide ((runFrom f r x t).oneSecCnt.toNat < f / 5) := by
  rw [runFrom_succ]
  simp [next, (hrel t).rstSig]

/-- From power-up the false PPS pulses two cycles after the counter has been 0: one for the
level, one for the detector. -/
theorem oneClkPps_false (hf : 5 ≤ f) (hw : f ≤ 2 ^ 27) (hr : r = Regs.powerUp)
    (hgps : ∀ t, (x t).gpsenI = true) (t : Nat) :
    (runFrom f r x (t + 2)).oneClkPps = true ↔ t % f = 0 := by
  have hcnt := (oneSecCnt_counts (f := f) (r := r) hrel).toNat_eq (by omega) hw (by rw [hr]; rfl)
  rw [oneClkPps_succ fun t => (hrel t).1, before, level_false hgps, level_false hgps,
    falsePps_succ hrel, hcnt, decide_eq_true_eq]
  cases t with
  | zero =>
    rw [hr]
    simp [runFrom, Regs.powerUp]
    omega
  | succ t =>
    have hlt := Nat.mod_lt t (show 0 < f by omega)
    rw [falsePps_succ hrel, hcnt, decide_eq_false_iff_not, add_one_mod (by omega)]
    split <;> omega

end Released

theorem powerUp_held {f : Nat} {x : Nat → Input} {n : Nat}
    (hrst : ∀ t, t < n → (x t).rstSig = true) (hgps : ∀ t, (x t).gpsenI = true) {t : Nat}
    (ht : t ≤ n) : runFrom f .powerUp x t = .powerUp := by
  induction t with
  | zero => rfl
  | succ t ih =>
    rw [runFrom_succ, ih (by omega)]
    simp [next, hrst t ht, Regs.powerUp, Regs.ppsStNext, Regs.pps, hgps t]

/-- The first two cycles after power-up are quiet. -/
theorem oneClkPps_start {f : Nat} {x : Nat → Input} (hrel : ∀ t, (x t).Released)
    (hgps : ∀ t, (x t).gpsenI = true) {t : Nat} (ht : t < 2) :
    (runFrom f .powerUp x t).oneClkPps = false := by
  match t with
  | 0 => rfl
  | 1 =>
    by_contra h
    rw [Bool.not_eq_false, oneClkPps_succ fun t => (hrel t).1, level_false hgps] at h
    exact absurd h.1 (by simp [runFrom, Regs.powerUp])

/-! ## Both sources -/

section FalsePps

variable {f : Nat} {x : Nat → Input} {n : Nat} (hf : 5 ≤ f) (hw : f ≤ 2 ^ 27)
  (hgps : ∀ t, (x t).gpsenI = true) (hrst : ∀ t, t < n → (x t).rstSig = true)
  (hrel : ∀ t, n ≤ t → (x t).Released)

include hgps hrst in
/-- After the reset the run is the run from power-up. -/
theorem runFrom_released (t : Nat) : runFrom f .powerUp x (n + t) =
    runFrom f .powerUp (fun u => x (n + u)) t := by
  have hheld : (machine f).runFrom .powerUp x n = .powerUp := powerUp_held hrst hgps le_rfl
  unfold runFrom
  rw [Machine.runFrom_add, hheld]

include hf hw hgps hrst hrel

theorem ppsO_false_iff (t : Nat) : (runFrom f .powerUp x t).ppsO = true ↔
    ∃ k, t = n + 2 + k * f := by
  have hshift := runFrom_released (f := f) hgps hrst
  have hrel' : ∀ u, (x (n + u)).Released := fun u => hrel _ (Nat.le_add_right n u)
  have hgps' : ∀ u, (x (n + u)).gpsenI = true := fun u => hgps _
  rcases Nat.lt_or_ge t (n + 2) with hlt | hge
  · have hquiet : (runFrom f .powerUp x t).ppsO = false := by
      rcases Nat.lt_or_ge t n with hn | hn
      · rw [powerUp_held hrst hgps hn.le]
        rfl
      · obtain ⟨u, rfl⟩ := Nat.exists_eq_add_of_le hn
        rw [hshift]
        exact oneClkPps_start hrel' hgps' (by omega)
    rw [hquiet]
    refine ⟨fun h => absurd h (by decide), ?_⟩
    rintro ⟨k, rfl⟩
    omega
  · obtain ⟨u, rfl⟩ := Nat.exists_eq_add_of_le hge
    rw [Nat.add_assoc, Nat.add_comm 2 u, hshift, Regs.ppsO,
      oneClkPps_false hrel' hf hw rfl hgps', ← Nat.dvd_iff_mod_eq_zero]
    refine ⟨fun ⟨k, hk⟩ => ⟨k, by rw [hk, Nat.mul_comm]; omega⟩, fun ⟨k, hk⟩ => ⟨k, ?_⟩⟩
    rw [Nat.mul_comm]
    omega

/-- At every pulse but the first the count is one less than the length of the second. -/
theorem clkCntPps_false (k : Nat) :
    (runFrom f .powerUp x (n + 2 + (k + 1) * f)).clkCntPpsO.toNat = f - 1 := by
  have hpulse := ppsO_false_iff hf hw hgps hrst hrel
  have hshift := runFrom_released (f := f) hgps hrst
  have hrel' : ∀ u, (x (n + u)).Released := fun u => hrel _ (Nat.le_add_right n u)
  have hlast : ∀ u, 2 + k * f < u → u < 2 + (k + 1) * f →
      (runFrom f .powerUp (fun u => x (n + u)) u).oneClkPps = false := by
    intro u hlo hhi
    by_contra h
    rw [Bool.not_eq_false, ← hshift] at h
    obtain ⟨j, hj⟩ := (hpulse (n + u)).1 h
    have h1 : k * f < j * f := by omega
    have h2 : j * f < (k + 1) * f := by omega
    have h1' := Nat.lt_of_mul_lt_mul_right h1
    have h2' := Nat.lt_of_mul_lt_mul_right h2
    omega
  have hp : (runFrom f .powerUp (fun u => x (n + u)) (2 + k * f)).oneClkPps = true := by
    rw [← hshift]
    exact (hpulse _).2 ⟨k, by omega⟩
  have hmul : (k + 1) * f = k * f + f := Nat.succ_mul k f
  have hcnt := clkCntPps_since hrel' (t := 2 + (k + 1) * f) (by omega) hp hlast
  rw [Nat.add_assoc, hshift, Regs.clkCntPpsO, hcnt, hmul]
  exact (Nat.mod_eq_of_lt (by omega)).trans (by omega)

end FalsePps

/-- The two time bases, for every `CLK_FREQ` from 5 to `2 ^ 27`.

From power-up, after any number `n` of cycles in reset, the false PPS pulses in the cycles
`n + 2 + k * CLK_FREQ` and in no other, with `CLK_FREQ - 1` in the count at every pulse but the
first. With the receiver selected, from any state, a pulse of one cycle follows exactly the
samples of `pps_i` that are high after a low one, and the count holds the cycles since the
last pulse less one, modulo `2 ^ 27`. -/
theorem pps_time_base (f : Nat) (hf : 5 ≤ f) (hw : f ≤ 2 ^ 27) :
    (∀ (n : Nat) (x : Nat → Input), (∀ t, (x t).gpsenI = true) →
      (∀ t, t < n → (x t).rstSig = true) → (∀ t, n ≤ t → (x t).Released) →
        (∀ t, (runFrom f .powerUp x t).ppsO = true ↔ ∃ k, t = n + 2 + k * f) ∧
        ∀ k, (runFrom f .powerUp x (n + 2 + (k + 1) * f)).clkCntPpsO.toNat = f - 1) ∧
      (∀ (r : Regs) (x : Nat → Input), (∀ t, (x t).gpsenI = false) → (∀ t, (x t).Released) →
        ((runFrom f r x 1).ppsO = true ↔ (x 0).ppsI = true ∧ r.ppsStReg = .zero) ∧
        (∀ t, (runFrom f r x (t + 2)).ppsO = true ↔
          (x (t + 1)).ppsI = true ∧ (x t).ppsI = false) ∧
        (∀ t, (runFrom f r x t).ppsO = true → (runFrom f r x (t + 1)).ppsO = false) ∧
        ∀ p t, p < t → (runFrom f r x p).ppsO = true →
          (∀ u, p < u → u < t → (runFrom f r x u).ppsO = false) →
          (runFrom f r x t).clkCntPpsO.toNat = (t - p - 1) % 2 ^ 27) := by
  refine ⟨?_, ?_⟩
  · intro n x hgps hrst hrel
    exact ⟨ppsO_false_iff hf hw hgps hrst hrel, clkCntPps_false hf hw hgps hrst hrel⟩
  · intro r x hgps hrel
    have haresetn : ∀ t, (x t).aresetn = true := fun t => (hrel t).1
    refine ⟨?_, ?_, oneClkPps_isolated haresetn, ?_⟩
    · rw [Regs.ppsO, oneClkPps_succ haresetn, level_gps hgps, ← ppsStReg_eq_zero haresetn]
      rfl
    · intro t
      rw [Regs.ppsO, oneClkPps_succ haresetn, level_gps hgps, before, level_gps hgps]
    · intro p t hpt hp hlast
      exact clkCntPps_since hrel hpt hp hlast

/-- Three cycles of reset, then the false PPS. -/
def Input.falseGps (t : Nat) : Input := ⟨decide (3 ≤ t), true, false, true⟩

/-- A receiver that toggles its level in every cycle. -/
def Input.toggling (t : Nat) : Input := ⟨true, true, decide (t % 2 = 1), false⟩

theorem pps_time_base_design :
    ((runFrom 125000000 .powerUp Input.falseGps 125000005).ppsO = true ∧
        (runFrom 125000000 .powerUp Input.falseGps 125000005).clkCntPpsO.toNat = 124999999) ∧
      (runFrom 125000000 .powerUp Input.toggling 2).ppsO = true := by
  obtain ⟨hfalse, hgps⟩ := pps_time_base 125000000 (by decide) (by decide)
  obtain ⟨hpulse, hcnt⟩ := hfalse 3 Input.falseGps (fun _ => rfl)
    (fun t ht => by simp [Input.rstSig, Input.falseGps, Nat.not_le.2 ht])
    (fun t ht => ⟨by simpa [Input.falseGps] using ht, rfl⟩)
  obtain ⟨-, hedge, -⟩ := hgps .powerUp Input.toggling (fun _ => rfl) (fun _ => ⟨rfl, rfl⟩)
  exact ⟨⟨(hpulse 125000005).2 ⟨1, rfl⟩, hcnt 0⟩, (hedge 0).2 ⟨rfl, rfl⟩⟩

end RpEcosystem.PpsGen
