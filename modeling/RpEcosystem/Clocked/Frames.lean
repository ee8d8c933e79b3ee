import RpEcosystem.Clocked.Events
import Mathlib.Algebra.BigOperators.Group.Finset.Basic

/-!
# Events in frames of equal length

* `events_add`, `events_blocks`: the events of a frame are those of its blocks;
* `events_level`: a signal that is high up to a level.
-/

namespace Clocked

theorem events_add (p : Nat → Bool) {a b c : Nat} (hab : a ≤ b) (hbc : b ≤ c) :
    events p a c = events p a b + events p b c := by
  induction c, hbc using Nat.le_induction with
  | base => simp
  | succ c hbc ih => rw [events_succ p (hab.trans hbc), events_succ p hbc, ih, Nat.add_assoc]

theorem events_blocks {p : Nat → Bool} {a P : Nat} {f : Nat → Nat} (n : Nat)
    (h : ∀ j, j < n → events p (a + P * j) (a + P * (j + 1)) = f j) :
    events p a (a + P * n) = ∑ j ∈ Finset.range n, f j := by
  induction n with
  | zero => simp
  | succ n ih =>
    have hle : a + P * n ≤ a + P * (n + 1) := by
      rw [Nat.mul_succ]
      omega
    rw [events_add p (Nat.le_add_right a (P * n)) hle, ih fun j hj => h j (by omega),
      h n (by omega), Finset.sum_range_succ]

/-- A block of `P` cycles in which the signal is high up to cycle `n`. -/
theorem events_level {p : Nat → Bool} {a n : Nat} (P : Nat)
    (h : ∀ i, i < P → p (a + i) = decide (i ≤ n)) : events p a (a + P) = min (n + 1) P := by
  induction P with
  | zero => simp
  | succ P ih =>
    rw [← Nat.add_assoc, events_succ p (Nat.le_add_right a P), ih fun i hi => h i (by omega),
      h P (by omega)]
    by_cases hP : P ≤ n
    · rw [if_pos (decide_eq_true hP)]
      omega
    · rw [if_neg (by simpa using hP)]
      omega

end Clocked
