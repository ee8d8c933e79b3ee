import Mathlib.Data.Rat.Floor
import Mathlib.Tactic.Linarith

/-!
# Conversions from real to integer types

A C program converts a `float` or `double` to an integer type by dropping the fraction. The result
is defined when the integer that is left is a value of the type. The numbers are exact here.

* `trunc`: the integer that is left;
* `uint32`, `int32`: the two conversions.
-/

namespace CLib

/-- The integral part of a number. -/
def trunc (q : ℚ) : ℤ := q.num.tdiv q.den

@[simp] theorem trunc_intCast (n : ℤ) : trunc n = n := by
  simp [trunc]

/-- On positive numbers the fraction is dropped downwards. -/
theorem trunc_of_nonneg {q : ℚ} (h : 0 ≤ q) : trunc q = ⌊q⌋ := by
  rw [trunc, Int.tdiv_eq_ediv_of_nonneg (Rat.num_nonneg.mpr h), Rat.floor_def']

theorem trunc_neg (q : ℚ) : trunc (-q) = -trunc q := by
  rw [trunc, trunc, Rat.num_neg_eq_neg_num, Rat.den_neg_eq_den, Int.neg_tdiv]

theorem trunc_mono {q r : ℚ} (h : q ≤ r) : trunc q ≤ trunc r := by
  have hceil : ∀ {q : ℚ}, q ≤ 0 → trunc q = ⌈q⌉ := fun {q} hq => by
    rw [← neg_neg q, trunc_neg, trunc_of_nonneg (neg_nonneg.mpr hq), Int.ceil_neg]
  rcases le_total 0 q with hq | hq
  · rw [trunc_of_nonneg hq, trunc_of_nonneg (hq.trans h)]
    exact Int.floor_mono h
  · rcases le_total 0 r with hr | hr
    · rw [hceil hq, trunc_of_nonneg hr]
      exact (Int.ceil_nonpos.mpr hq).trans (Int.floor_nonneg.mpr hr)
    · rw [hceil hq, hceil hr]
      exact Int.ceil_mono h

/-- The conversion to `uint32_t`, where it is defined. -/
def uint32 (q : ℚ) : Option (BitVec 32) :=
  if 0 ≤ trunc q ∧ trunc q < 2 ^ 32 then some (BitVec.ofInt 32 (trunc q)) else none

/-- The conversion to `int32_t`, where it is defined. -/
def int32 (q : ℚ) : Option (BitVec 32) :=
  if -2 ^ 31 ≤ trunc q ∧ trunc q < 2 ^ 31 then some (BitVec.ofInt 32 (trunc q)) else none

theorem toNat_of_uint32 {q : ℚ} {d : BitVec 32} (h : uint32 q = some d) :
    (d.toNat : ℤ) = trunc q := by
  unfold uint32 at h
  split at h
  next hin =>
    obtain rfl := Option.some.inj h
    rw [BitVec.toNat_ofInt]
    omega
  next => cases h

theorem uint32_of_nonneg {q : ℚ} (hlo : 0 ≤ q) (hhi : q < 2 ^ 32) :
    ∃ d, uint32 q = some d ∧ (d.toNat : ℤ) = ⌊q⌋ := by
  have hfloor : 0 ≤ ⌊q⌋ ∧ ⌊q⌋ < 2 ^ 32 := by
    refine ⟨Int.floor_nonneg.mpr hlo, Int.floor_lt.mpr ?_⟩
    push_cast
    exact hhi
  have hsome : uint32 q = some (BitVec.ofInt 32 (trunc q)) := by
    rw [uint32, if_pos (by rw [trunc_of_nonneg hlo]; exact hfloor)]
  refine ⟨_, hsome, ?_⟩
  rw [toNat_of_uint32 hsome, trunc_of_nonneg hlo]

theorem int32_intCast {n : ℤ} (hlo : -2 ^ 31 ≤ n) (hhi : n < 2 ^ 31) :
    int32 n = some (BitVec.ofInt 32 n) := by
  rw [int32, trunc_intCast, if_pos ⟨hlo, hhi⟩]

end CLib
