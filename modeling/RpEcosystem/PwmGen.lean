import RpEcosystem.Clocked.Frames
import RpEcosystem.Clocked.Machine
import RpEcosystem.Clocked.Modulo

/-!
# The pulse width modulator `pwm_gen`

A frame has sixteen slots of `MAX_CNT + 1` cycles. The high byte of the setting is the width of the
pulse in every slot, and each bit of the low half makes the pulse of its slot one cycle longer. A
setting is taken at the end of a frame. The width of a slot reaches the comparator one cycle late,
which does no harm because the first cycle of a slot is high for every width.

* `Regs`, `next`, `machine`: the circuit;
* `At`, `at_next`: the registers by the number of the cycle;
* `frame_high`: the high cycles of a frame.
-/

namespace RpEcosystem.PwmGen

open Clocked

structure Regs where
  vcnt : BitVec 8
  bcnt : BitVec 4
  v : BitVec 8
  vR : BitVec 8
  b : BitVec 16
  deriving DecidableEq, Repr

namespace Regs

variable (maxCnt : Nat) (cfgI : BitVec 24) (s : Regs)

/-- The last cycle of a slot. -/
def top : Bool := s.vcnt.toNat = maxCnt

def next : Regs where
  vcnt := if s.top maxCnt then 0 else s.vcnt + 1
  bcnt := if s.top maxCnt then s.bcnt + 1 else s.bcnt
  v := if s.top maxCnt && s.bcnt = 0b1111 then cfgI.extractLsb' 16 8 else s.v
  vR := if s.b.getLsbD 0 then s.v + 1 else s.v
  b :=
    if s.top maxCnt && s.bcnt = 0b1111 then cfgI.extractLsb' 0 16
    else if s.top maxCnt && s.bcnt ≠ 0b1111 then 0#1 ++ s.b.extractLsb' 1 15 else s.b

def pwmO : Bool := s.vcnt.toNat ≤ s.vR.toNat

end Regs

def machine (maxCnt : Nat) : Machine (BitVec 24) Regs where
  reset := ⟨0, 0, 0, 0, 0⟩
  next := Regs.next maxCnt

/-- The registers in cycle `t`; `x` is `cfg_i`. -/
def run (maxCnt : Nat) (x : Nat → BitVec 24) (t : Nat) : Regs := (machine maxCnt).run x t

/-- The output in cycle `t`. -/
def pwm (maxCnt : Nat) (x : Nat → BitVec 24) (t : Nat) : Bool := (run maxCnt x t).pwmO

/-! ## Cycles -/

/-- The setting of frame `k`, taken in the last cycle of the frame before. -/
def setting (maxCnt : Nat) (x : Nat → BitVec 24) (k : Nat) : BitVec 24 :=
  if k = 0 then 0 else x (16 * (maxCnt + 1) * k - 1)

/-- The width of the pulse in slot `j`. -/
def width (c : BitVec 24) (j : Nat) : BitVec 8 :=
  c.extractLsb' 16 8 + if c.getLsbD j then 1 else 0

/-- The registers in cycle `i` of slot `q`, counted from the start. -/
structure At (maxCnt : Nat) (x : Nat → BitVec 24) (q i : Nat) (s : Regs) : Prop where
  le : i ≤ maxCnt
  vcnt : s.vcnt.toNat = i
  bcnt : s.bcnt.toNat = q % 16
  v : s.v = (setting maxCnt x (q / 16)).extractLsb' 16 8
  b : s.b = (setting maxCnt x (q / 16)).extractLsb' 0 16 >>> (q % 16)
  vR : 0 < i → s.vR = width (setting maxCnt x (q / 16)) (q % 16)

section Step

variable {maxCnt : Nat} {x : Nat → BitVec 24} {q i : Nat} {s : Regs}

theorem shift_one (v : BitVec 16) : 0#1 ++ v.extractLsb' 1 15 = v >>> 1 := by
  apply BitVec.eq_of_toNat_eq
  have hv : v.toNat < 65536 := v.isLt
  rw [BitVec.toNat_append, BitVec.extractLsb'_toNat, BitVec.toNat_ushiftRight]
  have hmod : v.toNat >>> 1 % 2 ^ 15 = v.toNat >>> 1 := by
    rw [Nat.shiftRight_eq_div_pow]
    omega
  rw [hmod]
  simp

/-- The bit of the present slot is the lowest one. -/
theorem At.bit (h : At maxCnt x q i s) :
    s.b.getLsbD 0 = (setting maxCnt x (q / 16)).getLsbD (q % 16) := by
  have hslot : q % 16 < 16 := Nat.mod_lt q (by decide)
  rw [h.b, BitVec.getLsbD_ushiftRight, BitVec.getLsbD_extractLsb']
  simp [hslot]

theorem At.next_vR (h : At maxCnt x q i s) (cfgI : BitVec 24) :
    (s.next maxCnt cfgI).vR = width (setting maxCnt x (q / 16)) (q % 16) := by
  simp only [Regs.next, h.bit, h.v, width]
  split <;> simp

/-- Inside a slot. -/
theorem At.next (hmax : maxCnt < 256) (h : At maxCnt x q i s) (hi : i < maxCnt)
    (cfgI : BitVec 24) : At maxCnt x q (i + 1) (s.next maxCnt cfgI) := by
  have hvcnt := h.vcnt
  have htop : s.top maxCnt = false := by
    rw [Regs.top, hvcnt]
    exact decide_eq_false (by omega)
  have hstay : (s.next maxCnt cfgI).bcnt = s.bcnt ∧ (s.next maxCnt cfgI).v = s.v ∧
      (s.next maxCnt cfgI).b = s.b := by
    simp [Regs.next, htop]
  refine ⟨hi, ?_, ?_, ?_, ?_, fun _ => h.next_vR cfgI⟩
  · simp only [Regs.next, htop, Bool.false_eq_true, if_false]
    rw [toNat_add_one_of_lt (by omega), hvcnt]
  · rw [hstay.1, h.bcnt]
  · rw [hstay.2.1, h.v]
  · rw [hstay.2.2, h.b]

/-- From one slot to the next, and from one frame to the next with its setting. -/
theorem At.next_slot (h : At maxCnt x q maxCnt s) {cfgI : BitVec 24}
    (hcfg : q % 16 = 15 → setting maxCnt x (q / 16 + 1) = cfgI) :
    At maxCnt x (q + 1) 0 (s.next maxCnt cfgI) := by
  have hbcnt := h.bcnt
  have htop : s.top maxCnt = true := by
    rw [Regs.top, h.vcnt]
    exact decide_eq_true rfl
  have hlast : (s.bcnt = 0b1111) ↔ q % 16 = 15 := by
    rw [← BitVec.toNat_inj, hbcnt]
    rfl
  have hcount : (s.next maxCnt cfgI).bcnt.toNat = (q + 1) % 16 := by
    simp only [Regs.next, htop, if_true]
    rw [BitVec.toNat_add, hbcnt]
    change (q % 16 + 1) % 16 = (q + 1) % 16
    omega
  have hzero : (s.next maxCnt cfgI).vcnt.toNat = 0 := by simp [Regs.next, htop]
  by_cases hframe : q % 16 = 15
  · have hdiv : (q + 1) / 16 = q / 16 + 1 := by omega
    have hmod : (q + 1) % 16 = 0 := by omega
    refine ⟨Nat.zero_le _, hzero, hcount, ?_, ?_, fun h0 => absurd h0 (by omega)⟩
    · simp [Regs.next, htop, hlast.mpr hframe, hdiv, hcfg hframe]
    · simp [Regs.next, htop, hlast.mpr hframe, hdiv, hmod, hcfg hframe]
  · have hdiv : (q + 1) / 16 = q / 16 := by omega
    have hmod : (q + 1) % 16 = q % 16 + 1 := by omega
    have hne : ¬ s.bcnt = 0b1111 := mt hlast.mp hframe
    have hnext : (s.next maxCnt cfgI).v = s.v ∧
        (s.next maxCnt cfgI).b = 0#1 ++ s.b.extractLsb' 1 15 := by
      simp only [Regs.next, htop, Bool.true_and, decide_eq_true_eq, if_neg hne, if_pos hne]
      exact ⟨trivial, trivial⟩
    refine ⟨Nat.zero_le _, hzero, hcount, ?_, ?_, fun h0 => absurd h0 (by omega)⟩
    · rw [hnext.1, h.v, hdiv]
    · rw [hnext.2, shift_one, h.b, hdiv, hmod, BitVec.shiftRight_add]

end Step

/-! ## Frames -/

/-- The last cycle of a frame. -/
theorem setting_succ {maxCnt q : Nat} (x : Nat → BitVec 24) (hq : q % 16 = 15) :
    setting maxCnt x (q / 16 + 1) = x ((maxCnt + 1) * q + maxCnt) := by
  have hround : 16 * (q / 16 + 1) = q + 1 := by omega
  have hcycle : 16 * (maxCnt + 1) * (q / 16 + 1) = (maxCnt + 1) * q + maxCnt + 1 := by
    rw [Nat.mul_comm 16, Nat.mul_assoc, hround, Nat.mul_succ, Nat.add_assoc]
  rw [setting, if_neg (by omega), hcycle, Nat.add_sub_cancel]

section Runs

variable {maxCnt : Nat} (hmax : maxCnt < 256) (x : Nat → BitVec 24)

include hmax

theorem at_slot {q : Nat} (h : At maxCnt x q 0 (run maxCnt x ((maxCnt + 1) * q))) {i : Nat}
    (hi : i ≤ maxCnt) : At maxCnt x q i (run maxCnt x ((maxCnt + 1) * q + i)) := by
  induction i with
  | zero => exact h
  | succ i ih => exact (ih (by omega)).next hmax (by omega) _

/-- The registers in every cycle. -/
theorem at_run (q : Nat) {i : Nat} (hi : i ≤ maxCnt) :
    At maxCnt x q i (run maxCnt x ((maxCnt + 1) * q + i)) := by
  refine at_slot hmax x ?_ hi
  induction q with
  | zero =>
    refine ⟨Nat.zero_le _, rfl, rfl, ?_, ?_, fun h => absurd h (by omega)⟩
    · simp [setting, run, machine]
    · simp [setting, run, machine]
  | succ q ih =>
    have hlast := at_slot hmax x ih (Nat.le_refl maxCnt)
    exact hlast.next_slot fun hq => setting_succ x hq

theorem pwm_eq (q : Nat) {i : Nat} (hi : i ≤ maxCnt) :
    pwm maxCnt x ((maxCnt + 1) * q + i) =
      decide (i ≤ (width (setting maxCnt x (q / 16)) (q % 16)).toNat) := by
  have h := at_run hmax x q hi
  rw [pwm, Regs.pwmO, h.vcnt]
  rcases Nat.eq_zero_or_pos i with rfl | hpos
  · simp
  · rw [h.vR hpos]

/-- The high cycles of a frame, slot by slot. -/
theorem events_frame (k : Nat) :
    events (pwm maxCnt x) (16 * (maxCnt + 1) * k) (16 * (maxCnt + 1) * (k + 1)) =
      ∑ j ∈ Finset.range 16, min ((width (setting maxCnt x k) j).toNat + 1) (maxCnt + 1) := by
  have hstart : 16 * (maxCnt + 1) * k = (maxCnt + 1) * (16 * k) := by
    rw [Nat.mul_comm 16, Nat.mul_assoc]
  have hend : 16 * (maxCnt + 1) * (k + 1) = (maxCnt + 1) * (16 * k) + (maxCnt + 1) * 16 := by
    rw [Nat.mul_comm 16, Nat.mul_assoc, Nat.mul_succ, Nat.mul_add]
  rw [hstart, hend]
  apply events_blocks
  intro j hj
  have hslot : (maxCnt + 1) * (16 * k) + (maxCnt + 1) * j = (maxCnt + 1) * (16 * k + j) := by
    rw [Nat.mul_add]
  have hnext : (maxCnt + 1) * (16 * k) + (maxCnt + 1) * (j + 1) =
      (maxCnt + 1) * (16 * k + j) + (maxCnt + 1) := by
    rw [Nat.mul_succ, ← Nat.add_assoc, hslot]
  rw [hslot, hnext]
  apply events_level
  intro i hi
  rw [pwm_eq hmax x _ (by omega), show (16 * k + j) / 16 = k by omega,
    show (16 * k + j) % 16 = j by omega]

end Runs

end RpEcosystem.PwmGen
