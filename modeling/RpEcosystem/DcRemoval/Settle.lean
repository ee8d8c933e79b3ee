import RpEcosystem.DcRemoval.Core
import Mathlib.Order.OrderIsoNat
import Mathlib.Order.Monotone.Basic

/-!
# A constant input leaves no offset

Measured from the level it tends to, the accumulator follows a loop that subtracts its own
value of three cycles ago divided by `2 ^ 16`. The corrections are so small that three
values in a row never lie on both sides of the dead band `[0, 2 ^ 16)`: the loop comes from
below or from above, moves towards the band only, and can stop nowhere else.

* `Loop`: such a loop over the integers, for any divisor;
* `Below`, `Above`: the two ways to come to the band, each preserved by a step;
* `Loop.eventually_inside`: every loop ends inside the band;
* `settles`: the output is 0 from some cycle on.
-/

namespace RpEcosystem.DcRemoval

/-! ## Loops with a delayed correction -/

/-- An integrator that subtracts its value of three steps ago divided by `k`, with
corrections of at most a quarter of `k`. -/
structure Loop (k : Int) (b : Nat → Int) : Prop where
  pos : 0 < k
  step : ∀ n, b (n + 3) = b (n + 2) - b n / k
  small : ∀ n, -k ≤ 4 * (b (n + 1) - b n) ∧ 4 * (b (n + 1) - b n) ≤ k

/-- Three values in a row that are not above the band. -/
def Below (k : Int) (b : Nat → Int) (n : Nat) : Prop := b n < k ∧ b (n + 1) < k ∧ b (n + 2) < k

/-- Three values in a row that are not below the band. -/
def Above (b : Nat → Int) (n : Nat) : Prop := 0 ≤ b n ∧ 0 ≤ b (n + 1) ∧ 0 ≤ b (n + 2)

/-- A nonincreasing sequence that stays nonnegative is constant from some place on. -/
theorem eventually_constant {f : Nat → Int} (hf : ∀ n, 0 ≤ f n) (hle : ∀ n, f (n + 1) ≤ f n) :
    ∃ N, ∀ n, N ≤ n → f n = f N := by
  have hanti : Antitone (fun n => (f n).toNat) :=
    antitone_nat_of_succ_le (fun n => Int.toNat_le_toNat (hle n))
  obtain ⟨N, hN⟩ := WellFoundedLT.antitone_chain_condition hanti
  refine ⟨N, fun n hn => ?_⟩
  have h := hN n hn
  have h0 := hf N
  have h1 := hf n
  omega

namespace Loop

variable {k : Int} {b : Nat → Int}

/-- Over three steps the corrections cannot cross the band. -/
theorem near (h : Loop k b) (n : Nat) :
    (-k ≤ 2 * (b (n + 2) - b n) ∧ 2 * (b (n + 2) - b n) ≤ k) ∧
      (-k < b (n + 1) - b n ∧ b (n + 1) - b n < k) ∧
      (-k < b (n + 2) - b (n + 1) ∧ b (n + 2) - b (n + 1) < k) ∧
      (-k < b (n + 3) - b n ∧ b (n + 3) - b n < k) := by
  have hk := h.pos
  have h0 := h.small n
  have h1 : -k ≤ 4 * (b (n + 2) - b (n + 1)) ∧ 4 * (b (n + 2) - b (n + 1)) ≤ k :=
    h.small (n + 1)
  have h2 : -k ≤ 4 * (b (n + 3) - b (n + 2)) ∧ 4 * (b (n + 3) - b (n + 2)) ≤ k :=
    h.small (n + 2)
  omega

theorem below_or_above (h : Loop k b) (n : Nat) : Below k b n ∨ Above b n := by
  have hk := h.pos
  have hnear := h.near n
  unfold Below Above
  omega

/-- From below the loop moves upwards, and the corrections in flight do not carry it over
the band. -/
theorem below_step (h : Loop k b) {n : Nat} (hb : Below k b n) :
    Below k b (n + 1) ∧ b (n + 2) ≤ b (n + 3) := by
  obtain ⟨hb0, hb1, hb2⟩ := hb
  have hstep := h.step n
  have hnear := h.near n
  rcases Int.lt_or_le (b n) 0 with hneg | hnn
  · have hdiv : b n / k < 0 := Int.ediv_neg_of_neg_of_pos hneg h.pos
    exact ⟨⟨hb1, hb2, (by omega : b (n + 3) < k)⟩, by omega⟩
  · have hdiv : b n / k = 0 := Int.ediv_eq_zero_of_lt hnn hb0
    exact ⟨⟨hb1, hb2, (by omega : b (n + 3) < k)⟩, by omega⟩

theorem above_step (h : Loop k b) {n : Nat} (ha : Above b n) :
    Above b (n + 1) ∧ b (n + 3) ≤ b (n + 2) := by
  obtain ⟨ha0, ha1, ha2⟩ := ha
  have hstep := h.step n
  have hnear := h.near n
  have hdiv : 0 ≤ b n / k := Int.ediv_nonneg ha0 h.pos.le
  rcases Int.lt_or_le (b n) k with hlt | hge
  · have hzero : b n / k = 0 := Int.ediv_eq_zero_of_lt ha0 hlt
    exact ⟨⟨ha1, ha2, (by omega : 0 ≤ b (n + 3))⟩, by omega⟩
  · exact ⟨⟨ha1, ha2, (by omega : 0 ≤ b (n + 3))⟩, by omega⟩

theorem below_all (h : Loop k b) (h0 : Below k b 0) (n : Nat) : Below k b n := by
  induction n with
  | zero => exact h0
  | succ n ih => exact (h.below_step ih).1

theorem above_all (h : Loop k b) (h0 : Above b 0) (n : Nat) : Above b n := by
  induction n with
  | zero => exact h0
  | succ n ih => exact (h.above_step ih).1

/-- From either side the loop stops. -/
theorem eventually_stops (h : Loop k b) : ∃ N, ∀ n, N ≤ n → b (n + 3) = b (n + 2) := by
  rcases h.below_or_above 0 with h0 | h0
  · have hall := h.below_all h0
    obtain ⟨N, hN⟩ := eventually_constant (f := fun n => k - b (n + 2))
      (fun n => Int.sub_nonneg.2 (hall n).2.2.le)
      (fun n => Int.sub_le_sub_left (h.below_step (hall n)).2 k)
    refine ⟨N, fun n hn => ?_⟩
    have h1 := hN n hn
    have h2 : k - b (n + 3) = k - b (N + 2) := hN (n + 1) (by omega)
    omega
  · have hall := h.above_all h0
    obtain ⟨N, hN⟩ := eventually_constant (f := fun n => b (n + 2))
      (fun n => (hall n).2.2) (fun n => (h.above_step (hall n)).2)
    refine ⟨N, fun n hn => ?_⟩
    rw [hN n hn]
    exact hN (n + 1) (by omega)

/-- A loop that has stopped subtracts nothing: it is inside the band. -/
theorem eventually_inside (h : Loop k b) : ∃ N, ∀ n, N ≤ n → b n / k = 0 := by
  obtain ⟨N, hN⟩ := h.eventually_stops
  refine ⟨N, fun n hn => ?_⟩
  have hstop := hN n hn
  have hstep := h.step n
  omega

end Loop

/-! ## The filter as a loop -/

section Constant

variable {x : Nat → Input 16}

/-- In one cycle the accumulator moves by at most a quarter of the divisor. -/
theorem accumulated_succ (hx : UnitGain x) (t : Nat) :
    -16384 ≤ accumulated (fun n => (x n).dataI.toInt) (t + 1)
        - accumulated (fun n => (x n).dataI.toInt) t ∧
      accumulated (fun n => (x n).dataI.toInt) (t + 1)
        - accumulated (fun n => (x n).dataI.toInt) t ≤ 16384 := by
  have hd := (run_settled hx t).d22
  have hs := run_d32 hx t
  rw [← run_accumulated hx, ← run_accumulated hx]
  omega

/-- From the cycle after the input has become constant on, the distance of the accumulator
from the input is a loop. -/
theorem loop_of_constant (hx : UnitGain x) {v : Int} {t₀ : Nat}
    (hv : ∀ t, t₀ ≤ t → (x t).dataI.toInt = v) :
    Loop 65536 (fun n => accumulated (fun n => (x n).dataI.toInt) (t₀ + 1 + n) - v * 65536) where
  pos := by decide
  step n := by
    have hs : accumulated (fun n => (x n).dataI.toInt) (t₀ + n + 4) =
        accumulated (fun n => (x n).dataI.toInt) (t₀ + n + 3) +
          ((x (t₀ + n)).dataI.toInt -
            accumulated (fun n => (x n).dataI.toInt) (t₀ + n + 1) / 65536) := rfl
    rw [hv (t₀ + n) (by omega)] at hs
    rw [show t₀ + 1 + (n + 3) = t₀ + n + 4 by omega,
      show t₀ + 1 + (n + 2) = t₀ + n + 3 by omega, show t₀ + 1 + n = t₀ + n + 1 by omega]
    omega
  small n := by
    have hs := accumulated_succ hx (t₀ + 1 + n)
    rw [show t₀ + 1 + (n + 1) = t₀ + 1 + n + 1 by omega]
    omega

theorem eventually_baseline (hx : UnitGain x) {v : Int} {t₀ : Nat}
    (hv : ∀ t, t₀ ≤ t → (x t).dataI.toInt = v) :
    ∃ T, ∀ t, T ≤ t → baseline (fun n => (x n).dataI.toInt) t = v := by
  obtain ⟨N, hN⟩ := (loop_of_constant hx hv).eventually_inside
  refine ⟨t₀ + 1 + N, fun t ht => ?_⟩
  obtain ⟨n, rfl⟩ := Nat.exists_eq_add_of_le ht
  have hin := hN (N + n) (by omega)
  rw [show t₀ + 1 + (N + n) = t₀ + 1 + N + n by omega] at hin
  unfold baseline
  omega

end Constant

/-- Whatever samples came before, a constant input ends in an output of exactly 0. -/
theorem settles (x : Nat → Input 16) (hk : ∀ t, (x t).kI = 1)
    (hx : ∀ t, -8192 ≤ (x t).dataI.toInt ∧ (x t).dataI.toInt ≤ 8191)
    (c : BitVec 16) (t₀ : Nat) (hc : ∀ t, t₀ ≤ t → (x t).dataI = c) :
    ∃ T, ∀ t, T ≤ t → (run x t).dataO = 0 := by
  have hg : UnitGain x := fun t => ⟨hk t, hx t⟩
  have hv : ∀ t, t₀ ≤ t → (x t).dataI.toInt = c.toInt := fun t ht => by rw [hc t ht]
  obtain ⟨T, hT⟩ := eventually_baseline hg hv
  refine ⟨T + t₀ + 5, fun t ht => ?_⟩
  obtain ⟨s, rfl⟩ : ∃ s, t = s + 1 := ⟨t - 1, by omega⟩
  have hout := dataO_eq hg s
  have hdelayed : delayed (fun n => (x n).dataI.toInt) s = c.toInt := by
    unfold delayed
    rw [if_neg (by omega)]
    exact hv (s - 4) (by omega)
  apply BitVec.eq_of_toInt_eq
  rw [hout, difference, hdelayed, hT s (by omega), Int.sub_self]
  rfl

/-- A step from one end of the range to the other. -/
def Input.stepDown (t : Nat) : Input 16 where
  kI := 1
  dataI := if t < 100 then 8191 else -8192

theorem settles_stepDown : ∃ T, ∀ t, T ≤ t → (run Input.stepDown t).dataO = 0 := by
  refine settles Input.stepDown (fun _ => rfl) (fun t => ?_) (-8192) 100 (fun t ht => ?_)
  · simp only [Input.stepDown]
    split <;> decide
  · exact if_neg (by omega)

end RpEcosystem.DcRemoval
