import Mathlib.Order.Basic
import Mathlib.Tactic.Common

/-!
# Maximal runs of a condition

A condition on the cycles holds in runs. A flag that is set by a mark inside a run and cleared
where the run ends remembers whether the present run has a mark.

* `IsRun`: a maximal run, given by its first cycle and the cycle that ends it;
* `Marked`: the present run has a mark;
* `flag_iff_marked_succ`, `marked_iff_exists_run`: how a flag follows it, and what it says where
  the run ends.
-/

namespace Clocked

variable {p q : Nat → Prop}

/-- The cycles `[a, b)` are a maximal run of `p`, which ends with cycle `b`. -/
structure IsRun (p : Nat → Prop) (a b : Nat) : Prop where
  nonempty : a < b
  inside : ∀ v, a ≤ v → v < b → p v
  first : a = 0 ∨ ¬ p (a - 1)
  ended : ¬ p b

/-- A cycle with `q` before cycle `t`, and `p` in every cycle since. -/
def Marked (p q : Nat → Prop) (t : Nat) : Prop :=
  ∃ u < t, q u ∧ ∀ v, u ≤ v → v < t → p v

theorem not_marked_zero : ¬ Marked p q 0 := by
  rintro ⟨u, hu, -⟩
  omega

theorem Marked.last {t : Nat} (h : Marked p q (t + 1)) : p t := by
  obtain ⟨u, hu, -, hp⟩ := h
  exact hp t (by omega) (by omega)

/-- A mark sets the flag and the end of the run clears it. -/
theorem marked_succ (hqp : ∀ t, q t → p t) (t : Nat) :
    Marked p q (t + 1) ↔ q t ∨ p t ∧ Marked p q t := by
  constructor
  · intro h
    have hlast := h.last
    obtain ⟨u, hu, hq, hp⟩ := h
    by_cases hut : u = t
    · exact .inl (hut ▸ hq)
    · exact .inr ⟨hlast, u, by omega, hq, fun v huv hvt => hp v huv (by omega)⟩
  · rintro (hq | ⟨hlast, u, hu, hq, hp⟩)
    · refine ⟨t, by omega, hq, fun v htv hvt => ?_⟩
      have hvt : v = t := by omega
      exact hvt ▸ hqp t hq
    · refine ⟨u, by omega, hq, fun v huv hvt => ?_⟩
      by_cases heq : v = t
      · exact heq ▸ hlast
      · exact hp v huv (by omega)

/-- A flag that a mark sets, and that is cleared where a marked run ends. -/
theorem flag_iff_marked_succ (hqp : ∀ t, q t → p t) {t : Nat} {set clear flag : Bool}
    (hset : set = true ↔ q t) (hclear : clear = true ↔ ¬ p t ∧ Marked p q t)
    (hflag : flag = true ↔ Marked p q t) :
    (if set then true else if clear then false else flag) = true ↔ Marked p q (t + 1) := by
  rw [marked_succ hqp, ← hset]
  cases set with
  | true => simp
  | false =>
    rw [if_neg Bool.false_ne_true, ← hflag]
    cases hc : clear with
    | true =>
      have hend := (hclear.1 hc).1
      simp [hend]
    | false =>
      have hkeep : flag = true → p t := by
        intro hf
        by_contra hend
        exact absurd (hclear.2 ⟨hend, hflag.1 hf⟩) (by simp [hc])
      simp only [Bool.false_eq_true, if_false, false_or]
      exact ⟨fun hf => ⟨hkeep hf, hf⟩, fun h => h.2⟩

/-- A run goes back to the cycle after the last failure, or to the start. -/
theorem exists_first {u t : Nat} (hp : ∀ v, u ≤ v → v < t → p v) :
    ∃ a ≤ u, (∀ v, a ≤ v → v < t → p v) ∧ (a = 0 ∨ ¬ p (a - 1)) := by
  induction u with
  | zero => exact ⟨0, Nat.le_refl 0, hp, .inl rfl⟩
  | succ u ih =>
    by_cases hu : p u
    · obtain ⟨a, hau, hrun, hfirst⟩ := ih fun v huv hvt => by
        by_cases heq : v = u
        · exact heq ▸ hu
        · exact hp v (by omega) hvt
      exact ⟨a, by omega, hrun, hfirst⟩
    · exact ⟨u + 1, Nat.le_refl _, hp, .inr hu⟩

/-- Where a run ends, it had a mark exactly if it is marked. -/
theorem marked_iff_exists_run {t : Nat} (hend : ¬ p t) :
    Marked p q t ↔ ∃ a, IsRun p a t ∧ ∃ u, a ≤ u ∧ u < t ∧ q u := by
  constructor
  · rintro ⟨u, hu, hq, hp⟩
    obtain ⟨a, hau, hrun, hfirst⟩ := exists_first hp
    exact ⟨a, ⟨by omega, hrun, hfirst, hend⟩, u, hau, hu, hq⟩
  · rintro ⟨a, hrun, u, hau, hu, hq⟩
    exact ⟨u, hu, hq, fun v huv hvt => hrun.inside v (by omega) hvt⟩

/-- A run does not reach back over a cycle without `p`. -/
theorem IsRun.lt_of_not {a b v : Nat} (h : IsRun p a b) (hv : ¬ p v) (hvb : v < b) : v < a := by
  by_contra hav
  exact hv (h.inside v (by omega) hvb)

end Clocked
