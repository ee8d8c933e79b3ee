import RpEcosystem.Clocked.Events
import Mathlib.Data.Nat.ModEq
import Mathlib.Data.Nat.Init

/-!
# Free-running counters

A register that counts the cycles and returns to zero from `M - 1` holds the cycle number
modulo `M`, for every width that `M` fits.

* `CountsModulo.toNat_eq`: the count;
* `wraps_iff`, `events_wraps`: it returns to zero once in every `M` cycles;
* `eq_sub_events`: what goes down by one at every event.
-/

namespace Clocked

/-- A counter of the cycles that returns to zero from `M - 1`. -/
def CountsModulo {w : Nat} (c : Nat → BitVec w) (M : Nat) : Prop :=
  ∀ t, c (t + 1) = if (c t).toNat = M - 1 then 0 else c t + 1

/-- The cycles in which the counter is about to return to zero. -/
def wraps {w : Nat} (c : Nat → BitVec w) (M t : Nat) : Bool := decide ((c t).toNat = M - 1)

/-- A difference above zero does not wrap. -/
theorem toNat_sub_ofNat_of_le {w k : Nat} {v : BitVec w} (h : k ≤ v.toNat) :
    (v - BitVec.ofNat w k).toNat = v.toNat - k := by
  have hlt := v.isLt
  have hk : (BitVec.ofNat w k).toNat = k := by
    rw [BitVec.toNat_ofNat]
    exact Nat.mod_eq_of_lt (by omega)
  have hle : BitVec.ofNat w k ≤ v := by
    rw [BitVec.le_def, hk]
    exact h
  rw [BitVec.toNat_sub_of_le hle, hk]

theorem toNat_sub_one_of_pos {w : Nat} {v : BitVec w} (h : 0 < v.toNat) :
    (v - 1).toNat = v.toNat - 1 :=
  toNat_sub_ofNat_of_le h

/-- The last of `a` counts. -/
theorem eq_sub_one_iff {w a : Nat} {c v : BitVec w} (hv : v.toNat = a) (ha : 0 < a) :
    c = v - 1 ↔ c.toNat = a - 1 := by
  rw [← BitVec.toNat_inj, toNat_sub_one_of_pos (by omega), hv]

/-- Two different numbers with one remainder are at least the divisor apart. -/
theorem add_le_of_mod_eq {M s t : Nat} (h : s % M = t % M) (hlt : s < t) : s + M ≤ t := by
  have hdvd : M ∣ t - s := (Nat.modEq_iff_dvd' hlt.le).1 h
  have := Nat.le_of_dvd (by omega) hdvd
  omega

/-- The remainder after one more: it returns to zero from `M - 1`. -/
theorem add_one_mod {M : Nat} (hpos : 0 < M) (t : Nat) :
    (t + 1) % M = if t % M = M - 1 then 0 else t % M + 1 := by
  have hlt : t % M < M := Nat.mod_lt t hpos
  rw [← Nat.mod_add_mod]
  split
  next htop => rw [htop, Nat.sub_add_cancel hpos, Nat.mod_self]
  next hlow => exact Nat.mod_eq_of_lt (by omega)

/-- The last remainder comes before a multiple. -/
theorem dvd_add_one_iff {n k : Nat} : n + 1 ∣ k + 1 ↔ k % (n + 1) = n := by
  rw [Nat.dvd_iff_mod_eq_zero, add_one_mod (by omega : 0 < n + 1), Nat.add_sub_cancel]
  split
  next h => simp [h]
  next h => simp [h]

namespace CountsModulo

variable {w M : Nat} {c : Nat → BitVec w}

theorem toNat_eq (hc : CountsModulo c M) (hpos : 0 < M) (hfit : M ≤ 2 ^ w) (h0 : c 0 = 0)
    (t : Nat) : (c t).toNat = t % M := by
  induction t with
  | zero => simp [h0]
  | succ t ih =>
    have hlt : t % M < M := Nat.mod_lt t hpos
    rw [hc t, add_one_mod hpos, ih]
    split
    next => simp
    next hlow => rw [toNat_add_one_of_lt (by omega), ih]

theorem wraps_iff (hc : CountsModulo c M) (hpos : 0 < M) (hfit : M ≤ 2 ^ w) (h0 : c 0 = 0)
    (t : Nat) : wraps c M t = true ↔ t % M = M - 1 := by
  rw [wraps, decide_eq_true_eq, hc.toNat_eq hpos hfit h0]

/-- The returns to zero in `[a, b)` are the multiples of `M` that are passed there. -/
theorem events_wraps (hc : CountsModulo c M) (hpos : 0 < M) (hfit : M ≤ 2 ^ w) (h0 : c 0 = 0)
    {a b : Nat} (hab : a ≤ b) : a / M + events (wraps c M) a b = b / M := by
  induction b, hab using Nat.le_induction with
  | base => simp
  | succ b hab ih =>
    have hiff : wraps c M b = true ↔ M ∣ b + 1 := by
      rw [hc.wraps_iff hpos hfit h0, Nat.dvd_iff_mod_eq_zero, add_one_mod hpos]
      split <;> simp_all
    rw [events_succ _ hab, Nat.succ_div, ← ih, Nat.add_assoc]
    simp only [hiff]

end CountsModulo

/-- A quantity that goes down by one at every event, and not below zero. -/
theorem eq_sub_events {p : Nat → Bool} {f : Nat → Nat} {a : Nat}
    (hf : ∀ t, a ≤ t → f (t + 1) = f t - if p t then 1 else 0) {b : Nat} (hab : a ≤ b) :
    f b = f a - events p a b := by
  induction b, hab using Nat.le_induction with
  | base => simp
  | succ b hab ih => rw [hf b hab, ih, events_succ p hab, Nat.sub_sub]

end Clocked
