import RpEcosystem.Clocked.Machine
import RpEcosystem.Clocked.Stream

/-!
# A register on a stream: `axis_variable`

The core offers the value of a configuration register whenever it has changed. A word that waits is
replaced by a newer value, so not every value is sent and a value may be sent twice, but the last
one is: the receiver ends with the value of the register.

* `Input`, `Regs`, `machine`: the circuit;
* `sent`, `shown`: the words transferred, and the value the receiver has;
* `shown_of_idle`: with nothing on offer the receiver has the value of the register;
* `receiver_settles`: what follows after the last change.
-/

namespace RpEcosystem.Variable

open Clocked

structure Input (w : Nat) where
  cfgData : BitVec w
  mAxisTready : Bool

structure Regs (w : Nat) where
  intTdataReg : BitVec w
  intTvalidReg : Bool
  deriving DecidableEq, Repr

variable {w : Nat}

def Regs.intTvalidNext (i : Input w) (s : Regs w) : Bool :=
  if s.intTdataReg ≠ i.cfgData then true
  else if i.mAxisTready && s.intTvalidReg then false
  else s.intTvalidReg

def machine (w : Nat) : Machine (Input w) (Regs w) where
  reset := ⟨0, false⟩
  next i s := ⟨i.cfgData, s.intTvalidNext i⟩

def run (x : Nat → Input w) (t : Nat) : Regs w := (machine w).run x t

def transfer (i : Input w) (s : Regs w) : Option (BitVec w) :=
  if s.intTvalidReg && i.mAxisTready then some s.intTdataReg else none

/-- The words transferred before cycle `t`. -/
def sent (x : Nat → Input w) (t : Nat) : List (BitVec w) :=
  transfers (fun u => transfer (x u) (run x u)) 0 t

/-- The value the receiver has before cycle `t`; it starts with zero as the register does. -/
def shown (x : Nat → Input w) (t : Nat) : BitVec w := (sent x t).getLastD 0

variable {x : Nat → Input w}

theorem run_succ (x : Nat → Input w) (t : Nat) :
    run x (t + 1) = ⟨(x t).cfgData, (run x t).intTvalidNext (x t)⟩ := rfl

theorem sent_succ (x : Nat → Input w) (t : Nat) :
    sent x (t + 1) = sent x t ++ (transfer (x t) (run x t)).toList :=
  transfers_succ _ (Nat.zero_le t)

/-- Without an offer the receiver is up to date. -/
theorem shown_of_idle (x : Nat → Input w) (t : Nat) (h : (run x t).intTvalidReg = false) :
    shown x t = (run x t).intTdataReg := by
  induction t with
  | zero => rfl
  | succ t ih =>
    have hsame : (run x t).intTdataReg = (x t).cfgData := by
      by_contra hne
      rw [run_succ, Regs.intTvalidNext, if_pos hne] at h
      cases h
    rw [run_succ, Regs.intTvalidNext, if_neg (not_not.mpr hsame)] at h
    rw [shown, sent_succ, run_succ, transfer]
    cases hvalid : (run x t).intTvalidReg with
    | false =>
      rw [shown, hsame] at ih
      simpa using ih hvalid
    | true =>
      have hready : (x t).mAxisTready = true := by
        by_contra hlow
        simp [hvalid, hlow] at h
      simp [hready, hsame]

section Settled

variable {T : Nat} {c : BitVec w} (hcfg : ∀ t, T ≤ t → (x t).cfgData = c)

include hcfg

theorem tdata_settled {t : Nat} (ht : T < t) : (run x t).intTdataReg = c := by
  obtain ⟨s, rfl⟩ : ∃ s, t = s + 1 := ⟨t - 1, by omega⟩
  rw [run_succ]
  exact hcfg s (by omega)

/-- Only a transfer ends the offer, and no new one begins. -/
theorem tvalid_settled {t : Nat} (ht : T < t) :
    (run x (t + 1)).intTvalidReg = ((run x t).intTvalidReg && !(x t).mAxisTready) := by
  have hsame : (run x t).intTdataReg = (x t).cfgData := by
    rw [tdata_settled hcfg ht, hcfg t (by omega)]
  rw [run_succ, Regs.intTvalidNext, if_neg (not_not.mpr hsame)]
  cases (run x t).intTvalidReg <;> cases (x t).mAxisTready <;> rfl

/-- Until the offer is taken nothing is sent, and then the value once. -/
theorem sent_settled {t : Nat} (ht : T < t) :
    sent x t = sent x (T + 1) ∨
      sent x t = sent x (T + 1) ++ [c] ∧ (run x t).intTvalidReg = false := by
  induction t, ht using Nat.le_induction with
  | base => exact .inl rfl
  | succ t ht ih =>
    rw [sent_succ, tvalid_settled hcfg ht, transfer, tdata_settled hcfg ht]
    rcases ih with hsent | ⟨hsent, hvalid⟩
    · cases hvalid : (run x t).intTvalidReg with
      | false => exact .inl (by simp [hsent])
      | true =>
        cases hready : (x t).mAxisTready with
        | false => exact .inl (by simp [hsent])
        | true => exact .inr ⟨by simp [hsent], by simp⟩
    · exact .inr ⟨by simp [hsent, hvalid], by simp [hvalid]⟩

theorem idle_settled {u : Nat} (hu : T < u) (hready : (x u).mAxisTready = true) {t : Nat}
    (ht : u < t) : (run x t).intTvalidReg = false := by
  induction t, ht using Nat.le_induction with
  | base => rw [tvalid_settled hcfg hu, hready, Bool.not_true, Bool.and_false]
  | succ t ht ih => rw [tvalid_settled hcfg (by omega), ih, Bool.false_and]

/-- **Settling.** When the register no longer changes after cycle `T` and the receiver is ready once
after that, it has the value of the register from then on; the value is sent at most once more, and
nothing follows it. -/
theorem receiver_settles {u : Nat} (hu : T < u) (hready : (x u).mAxisTready = true) {t : Nat}
    (ht : u < t) :
    shown x t = c ∧ sent x t = sent x (u + 1) ∧
      (sent x t = sent x (T + 1) ∨ sent x t = sent x (T + 1) ++ [c]) := by
  refine ⟨?_, ?_, ?_⟩
  · rw [shown_of_idle x t (idle_settled hcfg hu hready ht), tdata_settled hcfg (by omega)]
  · induction t, ht using Nat.le_induction with
    | base => rfl
    | succ t ht ih => simp [sent_succ, transfer, idle_settled hcfg hu hready ht, ih]
  · exact (sent_settled hcfg (by omega)).imp_right And.left

end Settled

/-- Two changes while the receiver is not ready. -/
def hurried (t : Nat) : Input 8 where
  cfgData := if t < 1 then 3 else 7
  mAxisTready := decide (4 ≤ t)

theorem receiver_settles_hurried : shown hurried 9 = 7 ∧ sent hurried 9 = sent hurried 5 :=
  have h := receiver_settles (x := hurried) (T := 1) (c := 7) (u := 4) (t := 9)
    (fun t ht => by rw [hurried, if_neg (by omega)]) (by decide) (by decide) (by decide)
  ⟨h.1, h.2.1⟩

end RpEcosystem.Variable
