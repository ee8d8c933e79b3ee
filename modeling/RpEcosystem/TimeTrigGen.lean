import RpEcosystem.Clocked.Machine
import RpEcosystem.Clocked.Modulo

/-!
# The trigger generators `time_trig_gen` and `axi_time_trig_gen`

A counter runs up to the setting and gives a trigger of one cycle. The comparison has a register of
its own, so that the counter takes one step more before it returns to zero: a setting `n` gives a
trigger in every cycle `n + 1`. The setting 1 gives a trigger that stays high, and the setting 0 the
longest period, because the comparison is with the 32-bit value `n - 1`.

The AXI version takes setting and reset from one configuration register through two registers on
the data clock.

* `Regs`, `counter`: the counter of either core;
* `At`, `at_next`: its registers by the number of the cycle;
* `AxiRegs`, `axi`: the counter behind the configuration register;
* `triggers_iff`: the triggers after the reset is released.
-/

namespace RpEcosystem.TimeTrigGen

open Clocked

/-- `cntr_reg`, `trig_reg` and `comp_reg`. -/
structure Regs (w : Nat) where
  cntr : BitVec w
  trig : Bool
  comp : Bool
  deriving DecidableEq, Repr

variable {w : Nat}

def Regs.next (cfgData : BitVec 32) (s : Regs w) : Regs w where
  comp := if s.cntr.toNat = (cfgData - 1).toNat then false else true
  cntr := if s.comp then s.cntr + 1 else 0
  trig := if s.cntr.toNat = (cfgData - 1).toNat then true else false

/-- The counter with `w` bits. -/
def counter (w : Nat) : Machine (BitVec 32) (Regs w) where
  reset := ⟨0, false, false⟩
  next := Regs.next

/-- `time_trig_gen`. -/
def timeTrigGen : Machine (BitVec 32) (Regs 32) := counter 32

/-! ## The counter -/

/-- The cycles from one trigger to the next, for a setting other than 1. -/
def period (cfgData : BitVec 32) : Nat := (cfgData - 1).toNat + 2

/-- The registers in cycle `t` after the reset, for the period `m + 2`. -/
structure At (m t : Nat) (s : Regs w) : Prop where
  comp : s.comp = decide (t % (m + 2) ≠ 0)
  cntr : if t % (m + 2) = 0 then s.cntr.toNat ≠ m else s.cntr.toNat + 1 = t % (m + 2)
  trig : s.trig = decide (0 < t ∧ t % (m + 2) = 0)

theorem at_reset {m : Nat} (hm : m ≠ 0) : At m 0 (counter w).reset where
  comp := by simp [counter]
  cntr := by simpa [counter] using hm.symm
  trig := by simp [counter]

theorem at_next {m t : Nat} {s : Regs w} (h : At m t s) {cfgData : BitVec 32} (hm : m ≠ 0)
    (hcfg : (cfgData - 1).toNat = m) (hw : m < 2 ^ w) : At m (t + 1) (s.next cfgData) := by
  have hmod : (t + 1) % (m + 2) = if t % (m + 2) = m + 1 then 0 else t % (m + 2) + 1 :=
    add_one_mod (by omega) t
  have hlt : t % (m + 2) < m + 2 := Nat.mod_lt t (by omega)
  have hcntr := h.cntr
  have hcomp := h.comp
  rw [Regs.next, hcfg]
  by_cases hzero : t % (m + 2) = 0
  · -- the counter is set back, and the first count is not the last
    rw [if_pos hzero] at hcntr
    rw [hzero, if_neg (by omega)] at hmod
    simp only [hzero, ne_eq, not_true, decide_false] at hcomp
    constructor <;> simp [hcomp, hcntr, hmod]
  · rw [if_neg hzero] at hcntr
    simp only [hzero, ne_eq, not_false_iff, decide_true] at hcomp
    by_cases hlast : s.cntr.toNat = m
    · rw [if_pos (by omega)] at hmod
      have hpast : (s.cntr + 1).toNat ≠ m := by
        intro heq
        by_cases hfits : s.cntr.toNat + 1 < 2 ^ w
        · rw [toNat_add_one_of_lt hfits] at heq
          omega
        · -- the counter is back at zero by itself
          change (s.cntr + BitVec.ofNat w 1).toNat = m at heq
          rw [BitVec.toNat_add, hlast, BitVec.toNat_ofNat, Nat.add_mod_mod,
            show m + 1 = 2 ^ w by omega, Nat.mod_self] at heq
          exact hm heq.symm
      refine ⟨by simp [hlast, hmod], ?_, by simp [hlast, hmod]⟩
      rw [if_pos hmod, if_pos hcomp]
      exact hpast
    · rw [if_neg (by omega)] at hmod
      have hcount : (s.cntr + 1).toNat = s.cntr.toNat + 1 := toNat_add_one_of_lt (by omega)
      refine ⟨by simp [hlast, hmod], ?_, by simp [hlast, hmod]⟩
      rw [if_neg (by omega), if_pos hcomp, hcount, hmod, hcntr]

theorem at_run {cfgData : BitVec 32} (hne : cfgData ≠ 1) (hw : 32 ≤ w) (t : Nat) :
    At (cfgData - 1).toNat t ((counter w).run (fun _ => cfgData) t) := by
  have hm : (cfgData - 1).toNat ≠ 0 := by
    intro hzero
    have hsub : cfgData - 1 = 0#32 := BitVec.eq_of_toNat_eq hzero
    exact hne (by rw [← BitVec.sub_add_cancel cfgData 1, hsub, BitVec.zero_add])
  have hfits : (cfgData - 1).toNat < 2 ^ w :=
    lt_of_lt_of_le (cfgData - 1).isLt (Nat.pow_le_pow_right (by decide) hw)
  induction t with
  | zero => exact at_reset hm
  | succ t ih => exact at_next ih hm rfl hfits

/-- With the setting 1 the counter does not leave zero. -/
theorem run_one (t : Nat) :
    (counter w).run (fun _ => 1) t = ⟨0, decide (0 < t), false⟩ := by
  induction t with
  | zero => rfl
  | succ t ih =>
    rw [Machine.run_succ, ih]
    simp [counter, Regs.next]

/-- The triggers of the counter. -/
theorem trig_iff (hw : 32 ≤ w) (cfgData : BitVec 32) (t : Nat) :
    ((counter w).run (fun _ => cfgData) t).trig = true ↔
      0 < t ∧ (cfgData = 1 ∨ period cfgData ∣ t) := by
  by_cases hone : cfgData = 1
  · subst hone
    rw [run_one, decide_eq_true_eq]
    exact ⟨fun h => ⟨h, .inl rfl⟩, fun h => h.1⟩
  · rw [(at_run hone hw t).trig, decide_eq_true_eq, period, Nat.dvd_iff_mod_eq_zero,
      or_iff_right hone]

example : (timeTrigGen.run (fun _ => 4) 9).trig = false ∧
    (timeTrigGen.run (fun _ => 4) 10).trig = true := by
  decide

/-! ## Behind the configuration register -/

/-- `fifo_s` of `sync0_i` and the registers of the counter. -/
structure AxiRegs where
  fifoS0 : BitVec 64
  fifoS1 : BitVec 64
  gen : Regs 64
  deriving DecidableEq, Repr

namespace AxiRegs

variable (s : AxiRegs)

def rstnS : Bool := s.fifoS1.getLsbD 32

def cfgDataComp : BitVec 32 := s.fifoS1.extractLsb' 0 32

/-- One edge of `data_clk`; `cfgDataS` is what the configuration register shows at that time. -/
def next (cfgDataS : BitVec 64) : AxiRegs where
  fifoS0 := cfgDataS
  fifoS1 := s.fifoS0
  gen := (counter 64).edge s.rstnS s.cfgDataComp s.gen

end AxiRegs

/-- `axi_time_trig_gen` on its data clock. -/
def axi : Machine (BitVec 64) AxiRegs where
  reset := ⟨0, 0, (counter 64).reset⟩
  next := fun cfgDataS s => s.next cfgDataS

section Axi

variable {s : AxiRegs} {x : Nat → BitVec 64} {T : Nat} {c : BitVec 64}

/-- The configuration arrives two cycles late. -/
theorem fifoS1_eq (t : Nat) : (axi.runFrom s x (t + 2)).fifoS1 = x t := rfl

theorem gen_eq (hlow : (x T).getLsbD 32 = false) (hhigh : c.getLsbD 32 = true)
    (hx : ∀ t, T < t → x t = c) (t : Nat) :
    (axi.runFrom s x (T + 3 + t)).gen =
      (counter 64).run (fun _ => c.extractLsb' 0 32) t := by
  induction t with
  | zero =>
    have hstep : (axi.runFrom s x (T + 2 + 1)).gen = (counter 64).edge
        (axi.runFrom s x (T + 2)).rstnS (axi.runFrom s x (T + 2)).cfgDataComp
        (axi.runFrom s x (T + 2)).gen := rfl
    rw [Nat.add_zero, hstep, AxiRegs.rstnS, fifoS1_eq, hlow]
    rfl
  | succ t ih =>
    have hstep : (axi.runFrom s x (T + 3 + t + 1)).gen = (counter 64).edge
        (axi.runFrom s x (T + 3 + t)).rstnS (axi.runFrom s x (T + 3 + t)).cfgDataComp
        (axi.runFrom s x (T + 3 + t)).gen := rfl
    have hcfg : (axi.runFrom s x (T + 3 + t)).fifoS1 = c := by
      rw [show T + 3 + t = T + 1 + t + 2 by omega, fifoS1_eq, hx _ (by omega)]
    rw [← Nat.add_assoc, hstep, ih, AxiRegs.rstnS, AxiRegs.cfgDataComp, hcfg, hhigh]
    rfl

/-- **Triggers.** From any state: when the register is written with the reset bit set and a setting
`n` after the bit was clear, the triggers begin three cycles later and come in every cycle that is
a multiple of the period, which is `n + 1` for a setting from 2 on. -/
theorem triggers_iff (hlow : (x T).getLsbD 32 = false) (hhigh : c.getLsbD 32 = true)
    (hx : ∀ t, T < t → x t = c) (t : Nat) :
    ((axi.runFrom s x (T + 3 + t)).gen.trig = true ↔
        0 < t ∧ (c.extractLsb' 0 32 = 1 ∨ period (c.extractLsb' 0 32) ∣ t)) ∧
      (2 ≤ (c.extractLsb' 0 32).toNat →
        period (c.extractLsb' 0 32) = (c.extractLsb' 0 32).toNat + 1) := by
  refine ⟨?_, fun htwo => ?_⟩
  · rw [gen_eq hlow hhigh hx]
    exact trig_iff (by decide) _ t
  · rw [period, toNat_sub_one_of_pos (by omega)]
    omega

end Axi

/-- The generator runs with the setting 9 when it is stopped for a cycle and set to 2. -/
def restarted (t : Nat) : BitVec 64 :=
  if t < 5 then 0x100000009 else if t = 5 then 2 else 0x100000002

theorem triggers_iff_restarted :
    (axi.runFrom axi.reset restarted (5 + 3 + 6)).gen.trig = true :=
  (@triggers_iff axi.reset restarted 5 0x100000002 (by decide) (by decide)
    (fun t ht => by rw [restarted, if_neg (by omega), if_neg (by omega)]) 6).1.mpr
    ⟨by decide, .inr (by decide)⟩

end RpEcosystem.TimeTrigGen
