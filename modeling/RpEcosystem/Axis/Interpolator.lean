import RpEcosystem.Clocked.Machine
import RpEcosystem.Clocked.Events
import RpEcosystem.Clocked.Rates

/-!
# Repeating words: `axis_interpolator`

The core takes a word when it holds none, and offers it until it has been taken once more than
`cfg_data` says.

* `Input`, `Regs`, `machine`: the circuit;
* `Holds`, `holds_next`: what has been sent while a word is held;
* `repeats_exactly`: the words sent are the words received, each the same number of times.
-/

namespace RpEcosystem.Interpolator

open Clocked

structure Input (tw cw : Nat) where
  cfgData : BitVec cw
  sAxisTdata : BitVec tw
  sAxisTvalid : Bool
  mAxisTready : Bool

structure Regs (tw cw : Nat) where
  intTdataReg : BitVec tw
  intTvalidReg : Bool
  intCntrReg : BitVec cw

variable {tw cw : Nat}

namespace Regs

variable (r : Regs tw cw) (i : Input tw cw)

def intTdataNext : BitVec tw :=
  if i.sAxisTvalid && !r.intTvalidReg then i.sAxisTdata else r.intTdataReg

def intCntrNext : BitVec cw :=
  if i.mAxisTready && r.intTvalidReg && decide (r.intCntrReg < i.cfgData) then r.intCntrReg + 1
  else if i.mAxisTready && r.intTvalidReg && !decide (r.intCntrReg < i.cfgData) then 0
  else r.intCntrReg

def intTvalidNext : Bool :=
  if i.sAxisTvalid && !r.intTvalidReg then true
  else if i.mAxisTready && r.intTvalidReg && !decide (r.intCntrReg < i.cfgData) then false
  else r.intTvalidReg

def sAxisTready : Bool := !r.intTvalidReg

def mAxisTdata : BitVec tw := r.intTdataReg

def mAxisTvalid : Bool := r.intTvalidReg

/-- The word transferred on `s_axis`. -/
def accepted : Option (BitVec tw) :=
  if i.sAxisTvalid && r.sAxisTready then some i.sAxisTdata else none

/-- The word transferred on `m_axis`. -/
def taken : Option (BitVec tw) :=
  if r.mAxisTvalid && i.mAxisTready then some r.mAxisTdata else none

end Regs

def next (i : Input tw cw) (r : Regs tw cw) : Regs tw cw where
  intTdataReg := r.intTdataNext i
  intTvalidReg := r.intTvalidNext i
  intCntrReg := r.intCntrNext i

def machine (tw cw : Nat) : Machine (Input tw cw) (Regs tw cw) where
  reset := { intTdataReg := 0, intTvalidReg := false, intCntrReg := 0 }
  next := next

variable (x : Nat → Input tw cw)

def run (t : Nat) : Regs tw cw := (machine tw cw).run x t

theorem run_succ (t : Nat) : run x (t + 1) = next (x t) (run x t) := rfl

/-- The words transferred on `s_axis` before cycle `t`. -/
def received (t : Nat) : List (BitVec tw) :=
  transfers (fun u => (run x u).accepted (x u)) 0 t

/-- The words transferred on `m_axis` before cycle `t`. -/
def sent (t : Nat) : List (BitVec tw) :=
  transfers (fun u => (run x u).taken (x u)) 0 t

/-! ## One edge -/

/-- The invariant: all copies of the words received have been sent, but for the word that is
held, of which `intCntrReg` copies have been sent. -/
def Holds (n : Nat) (ins outs : List (BitVec tw)) (r : Regs tw cw) : Prop :=
  if r.intTvalidReg then
    r.intCntrReg.toNat ≤ n ∧ ∃ before, ins = before ++ [r.intTdataReg] ∧
      outs = repeated (n + 1) before ++ List.replicate r.intCntrReg.toNat r.intTdataReg
  else r.intCntrReg = 0 ∧ outs = repeated (n + 1) ins

section Step

variable {n : Nat} {ins outs : List (BitVec tw)} {i : Input tw cw} {tdata : BitVec tw}
  {cntr : BitVec cw}

/-- With nothing held, a word that is offered is accepted and none of its copies is sent yet. -/
theorem holds_next_free (h : Holds n ins outs ⟨tdata, false, cntr⟩) :
    Holds n (ins ++ (Regs.accepted ⟨tdata, false, cntr⟩ i).toList)
      (outs ++ (Regs.taken ⟨tdata, false, cntr⟩ i).toList) (next i ⟨tdata, false, cntr⟩) := by
  obtain ⟨hcntr, houts⟩ : cntr = 0 ∧ outs = repeated (n + 1) ins := h
  have hnone : Regs.taken ⟨tdata, false, cntr⟩ i = none := rfl
  rw [hnone, Option.toList_none, List.append_nil]
  cases hvalid : i.sAxisTvalid with
  | false =>
    have hin : Regs.accepted ⟨tdata, false, cntr⟩ i = none := by simp [Regs.accepted, hvalid]
    have hsame : next i ⟨tdata, false, cntr⟩ = ⟨tdata, false, cntr⟩ := by
      simp [next, Regs.intTdataNext, Regs.intTvalidNext, Regs.intCntrNext, hvalid]
    rw [hin, hsame, Option.toList_none, List.append_nil]
    exact ⟨hcntr, houts⟩
  | true =>
    have hin : Regs.accepted ⟨tdata, false, cntr⟩ i = some i.sAxisTdata := by
      simp [Regs.accepted, Regs.sAxisTready, hvalid]
    have hnext : next i ⟨tdata, false, cntr⟩ = ⟨i.sAxisTdata, true, 0⟩ := by
      simp [next, Regs.intTdataNext, Regs.intTvalidNext, Regs.intCntrNext, hvalid, hcntr]
    rw [hin, hnext]
    exact ⟨Nat.zero_le n, ins, rfl, by simpa using houts⟩

/-- A word that is held is sent once more when the other side is ready. -/
theorem holds_next_held (hn : i.cfgData.toNat = n) (h : Holds n ins outs ⟨tdata, true, cntr⟩) :
    Holds n (ins ++ (Regs.accepted ⟨tdata, true, cntr⟩ i).toList)
      (outs ++ (Regs.taken ⟨tdata, true, cntr⟩ i).toList) (next i ⟨tdata, true, cntr⟩) := by
  have hfits : n < 2 ^ cw := hn ▸ i.cfgData.isLt
  obtain ⟨hle, before, hins, houts⟩ : cntr.toNat ≤ n ∧ ∃ before, ins = before ++ [tdata] ∧
    outs = repeated (n + 1) before ++ List.replicate cntr.toNat tdata := h
  have hin : Regs.accepted ⟨tdata, true, cntr⟩ i = none := by
    simp [Regs.accepted, Regs.sAxisTready]
  rw [hin, Option.toList_none, List.append_nil]
  cases hready : i.mAxisTready with
  | false =>
    have hout : Regs.taken ⟨tdata, true, cntr⟩ i = none := by simp [Regs.taken, hready]
    have hsame : next i ⟨tdata, true, cntr⟩ = ⟨tdata, true, cntr⟩ := by
      simp [next, Regs.intTdataNext, Regs.intTvalidNext, Regs.intCntrNext, hready]
    rw [hout, hsame, Option.toList_none, List.append_nil]
    exact ⟨hle, before, hins, houts⟩
  | true =>
    have hout : Regs.taken ⟨tdata, true, cntr⟩ i = some tdata := by
      simp [Regs.taken, Regs.mAxisTvalid, Regs.mAxisTdata, hready]
    have hmore : outs ++ [tdata] =
        repeated (n + 1) before ++ List.replicate (cntr.toNat + 1) tdata := by
      rw [houts, List.replicate_succ', List.append_assoc]
    rw [hout, Option.toList_some, hmore]
    by_cases hlt : cntr < i.cfgData
    · have hnext : next i ⟨tdata, true, cntr⟩ = ⟨tdata, true, cntr + 1⟩ := by
        simp [next, Regs.intTdataNext, Regs.intTvalidNext, Regs.intCntrNext, hready, hlt]
      rw [BitVec.lt_def, hn] at hlt
      have hcount : (cntr + 1).toNat = cntr.toNat + 1 := toNat_add_one_of_lt (by omega)
      rw [hnext, ← hcount]
      exact ⟨by rw [hcount]; exact hlt, before, hins, rfl⟩
    · -- this was the last copy
      have hnext : next i ⟨tdata, true, cntr⟩ = ⟨tdata, false, 0⟩ := by
        simp [next, Regs.intTdataNext, Regs.intTvalidNext, Regs.intCntrNext, hready, hlt]
      rw [BitVec.lt_def, hn] at hlt
      have hcount : cntr.toNat = n := by omega
      rw [hnext, hcount, ← repeated_concat, ← hins]
      exact ⟨rfl, rfl⟩

theorem holds_next {r : Regs tw cw} (hn : i.cfgData.toNat = n) (h : Holds n ins outs r) :
    Holds n (ins ++ (r.accepted i).toList) (outs ++ (r.taken i).toList) (next i r) := by
  obtain ⟨tdata, held, cntr⟩ := r
  cases held with
  | false => exact holds_next_free h
  | true => exact holds_next_held hn h

end Step

/-! ## Runs -/

theorem run_holds {n : Nat} (hx : ∀ t, (x t).cfgData.toNat = n) (t : Nat) :
    Holds n (received x t) (sent x t) (run x t) := by
  induction t with
  | zero => exact ⟨rfl, rfl⟩
  | succ t ih =>
    rw [received, sent, transfers_succ _ (Nat.zero_le t), transfers_succ _ (Nat.zero_le t),
      run_succ]
    exact holds_next (hx t) ih

/-- Every word received is sent `n + 1` times, in order, and a further one is only received when
this is done. -/
theorem repeats_exactly {n : BitVec cw} (hx : ∀ t, (x t).cfgData = n) (t : Nat) :
    sent x t <+: repeated (n.toNat + 1) (received x t) ∧
      ((run x t).sAxisTready = true → sent x t = repeated (n.toNat + 1) (received x t)) := by
  have h := run_holds x (fun t => congrArg BitVec.toNat (hx t)) t
  rw [Holds] at h
  cases hheld : (run x t).intTvalidReg with
  | false =>
    simp only [hheld, Bool.false_eq_true, if_false] at h
    rw [h.2]
    exact ⟨List.prefix_rfl, fun _ => rfl⟩
  | true =>
    simp only [hheld, if_true] at h
    obtain ⟨hle, before, hins, houts⟩ := h
    refine ⟨?_, ?_⟩
    · rw [hins, houts, repeated_concat, List.prefix_append_right_inj]
      refine ⟨List.replicate (n.toNat + 1 - (run x t).intCntrReg.toNat) (run x t).intTdataReg, ?_⟩
      rw [← List.replicate_add, Nat.add_sub_cancel' (by omega)]
    · intro hready
      simp [Regs.sAxisTready, hheld] at hready

/-- A word that is offered and taken in every cycle, twice. -/
def steady : Input 8 8 where
  cfgData := 1
  sAxisTdata := 5
  sAxisTvalid := true
  mAxisTready := true

theorem repeats_exactly_steady : sent (fun _ => steady) 5 <+: [5, 5, 5, 5] ∧
    sent (fun _ => steady) 3 = [5, 5] :=
  ⟨(@repeats_exactly 8 8 (fun _ => steady) 1 (fun _ => rfl) 5).1,
    (@repeats_exactly 8 8 (fun _ => steady) 1 (fun _ => rfl) 3).2 (by decide)⟩

end RpEcosystem.Interpolator
