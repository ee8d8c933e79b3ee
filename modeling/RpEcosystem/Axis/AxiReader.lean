import RpEcosystem.Clocked.Machine
import RpEcosystem.Clocked.Response
import Mathlib.Tactic.IntervalCases

/-!
# Reading a stream over AXI: `axi_axis_reader`

A read returns the word that is available when its address is accepted, or zero, and the word that
is available when the answer is taken is removed from the stream. These are the same word only
under conditions on what happens in between.

* `Input`, `Regs`, `machine`: the circuit;
* `channel`: its read channel, with one register for the answer;
* `consumed`, `returned`: the words that leave the stream and the words that are returned;
* `pairs_iff`: when they are the same.
-/

namespace RpEcosystem.AxiReader

open Clocked

/-- The ports that the core reads, but for the stream data. The stream master and the AXI master
choose them freely. -/
structure Control where
  sAxiArvalid : Bool
  sAxiRready : Bool
  sAxisTvalid : Bool

structure Input (dw : Nat) extends Control where
  sAxisTdata : BitVec dw

structure Regs (dw : Nat) where
  intRvalidReg : Bool
  intRdataReg : BitVec dw

variable {dw : Nat}

namespace Regs

variable (r : Regs dw) (i : Input dw)

def intRvalidNext : Bool :=
  if i.sAxiArvalid then true
  else if i.sAxiRready && r.intRvalidReg then false
  else r.intRvalidReg

def intRdataNext : BitVec dw :=
  if i.sAxiArvalid && i.sAxisTvalid then i.sAxisTdata
  else if i.sAxiArvalid && !i.sAxisTvalid then 0
  else r.intRdataReg

def sAxiArready : Bool := true

def sAxiRdata : BitVec dw := r.intRdataReg

def sAxiRvalid : Bool := r.intRvalidReg

def sAxisTready : Bool := i.sAxiRready && r.intRvalidReg

end Regs

def machine (dw : Nat) : Machine (Input dw) (Regs dw) where
  reset := { intRvalidReg := false, intRdataReg := 0 }
  next i r := { intRvalidReg := r.intRvalidNext i, intRdataReg := r.intRdataNext i }

section Runs

variable (x : Nat → Input dw)

def run (t : Nat) : Regs dw := (machine dw).run x t

/-- The read channel. -/
def channel : Channel (BitVec dw) where
  request t := (x t).sAxiArvalid
  selected t := if (x t).sAxisTvalid then (x t).sAxisTdata else 0
  ready t := (x t).sAxiRready
  valid t := (run x t).sAxiRvalid
  data t := (run x t).sAxiRdata

theorem channel_registered : (channel x).Registered where
  empty := rfl
  valid_succ _ := rfl
  data_succ t := by
    change (run x t).intRdataNext (x t) = _
    simp only [Regs.intRdataNext, channel]
    rcases Bool.eq_false_or_eq_true (x t).sAxiArvalid with har | har <;>
      rcases Bool.eq_false_or_eq_true (x t).sAxisTvalid with hword | hword <;>
      simp [har, hword, Regs.sAxiRdata]

/-- The word removed from the stream in cycle `t`. -/
def consumed (t : Nat) : Option (BitVec dw) :=
  if (x t).sAxisTvalid && (run x t).sAxisTready (x t) then some (x t).sAxisTdata else none

/-- The cycle in which the address of the read that is answered in cycle `t` was accepted. -/
def addressCycle (c : Nat → Control) (t : Nat) : Nat := lastMark (fun u => (c u).sAxiArvalid) t

/-- The word returned in cycle `t`, when one was available at the address. -/
def returned (t : Nat) : Option (BitVec dw) :=
  if (channel x).taken t && (x (addressCycle (fun u => (x u).toControl) t)).sAxisTvalid
    then some (run x t).sAxiRdata else none

/-- The words removed from the stream are the words returned. -/
def Paired : Prop := ∀ t, transfers (consumed x) 0 t = transfers (returned x) 0 t

end Runs

/-! ## Control -/

section Control

variable (c : Nat → Control)

def inputs (d : Nat → BitVec dw) (t : Nat) : Input dw where
  toControl := c t
  sAxisTdata := d t

/-- `s_axi_rvalid`, which does not depend on the words. -/
def rvalid : Nat → Bool
  | 0 => false
  | t + 1 =>
    if (c t).sAxiArvalid then true
    else if (c t).sAxiRready && rvalid t then false
    else rvalid t

/-- An answer is taken in cycle `t`; this is also `s_axis_tready`. -/
def taken (t : Nat) : Bool := (c t).sAxiRready && rvalid c t

/-- The stream master holds `tvalid` until the transfer. -/
def HoldsValid : Prop :=
  ∀ t, (c t).sAxisTvalid = true → taken c t = false → (c (t + 1)).sAxisTvalid = true

/-- The stream master holds a word until its transfer. -/
def HoldsData (d : Nat → BitVec dw) : Prop :=
  ∀ t, (c t).sAxisTvalid = true → taken c t = false → d (t + 1) = d t

/-- Nothing comes between the address and the answer: a word that was available at the address is
not removed in that very cycle by the answer before, and when none was available none is at the
answer. -/
def Undisturbed : Prop :=
  ∀ t, taken c t = true →
    ((c (addressCycle c t)).sAxisTvalid = true → taken c (addressCycle c t) = false) ∧
      ((c (addressCycle c t)).sAxisTvalid = false → (c t).sAxisTvalid = false)

variable {c}

theorem rvalid_eq (d : Nat → BitVec dw) (t : Nat) :
    (run (inputs c d) t).intRvalidReg = rvalid c t := by
  induction t with
  | zero => rfl
  | succ t ih =>
    rw [rvalid, ← ih]
    rfl

theorem taken_eq (d : Nat → BitVec dw) (t : Nat) : (channel (inputs c d)).taken t = taken c t := by
  rw [taken, ← rvalid_eq d]
  rfl

theorem consumed_eq (d : Nat → BitVec dw) (t : Nat) : consumed (inputs c d) t =
    if (c t).sAxisTvalid && taken c t then some (d t) else none := by
  rw [← taken_eq d]
  rfl

/-- What an answer returns, in terms of the cycle of its address. -/
theorem returned_eq (d : Nat → BitVec dw) {t : Nat} (ht : taken c t = true) :
    addressCycle c t < t ∧ (∀ u, addressCycle c t < u → u < t → taken c u = false) ∧
      returned (inputs c d) t = if (c (addressCycle c t)).sAxisTvalid
        then some (d (addressCycle c t)) else none := by
  have hvalid : (channel (inputs c d)).valid t = true := by
    rw [taken, ← rvalid_eq d, Bool.and_eq_true] at ht
    exact ht.2
  obtain ⟨hlt, hdata, hquiet⟩ := (channel_registered (inputs c d)).waiting hvalid
  refine ⟨hlt, ?_, ?_⟩
  · intro u hlo hhi
    have hready : (c u).sAxiRready = false := hquiet u hlo hhi
    rw [taken, hready, Bool.false_and]
  · rw [returned, taken_eq, ht, Bool.true_and]
    change (if (c (addressCycle c t)).sAxisTvalid = true then some ((channel (inputs c d)).data t)
      else none) = _
    rw [hdata]
    split
    next hword =>
      congr 1
      exact if_pos hword
    next => rfl

theorem consumed_of_not_taken (d : Nat → BitVec dw) {t : Nat} (ht : taken c t = false) :
    consumed (inputs c d) t = none ∧ returned (inputs c d) t = none := by
  rw [consumed_eq, returned, taken_eq, ht]
  simp

/-- A word that is not removed is held. -/
theorem word_held (hc : HoldsValid c) {d : Nat → BitVec dw} (hd : HoldsData c d) {s t : Nat}
    (hst : s ≤ t) (hs : (c s).sAxisTvalid = true)
    (hkept : ∀ u, s ≤ u → u < t → taken c u = false) :
    (c t).sAxisTvalid = true ∧ d t = d s := by
  induction t, hst using Nat.le_induction with
  | base => exact ⟨hs, rfl⟩
  | succ t hst ih =>
    obtain ⟨hword, hsame⟩ := ih fun u hlo hhi => hkept u hlo (by omega)
    have hkeep := hkept t hst (by omega)
    exact ⟨hc t hword hkeep, (hd t hword hkeep).trans hsame⟩

theorem paired_of_undisturbed (hc : HoldsValid c) (h : Undisturbed c) {d : Nat → BitVec dw}
    (hd : HoldsData c d) : Paired (inputs c d) := by
  have hsame : consumed (inputs c d) = returned (inputs c d) := by
    funext t
    cases ht : taken c t with
    | false =>
      obtain ⟨hnone, hnone'⟩ := consumed_of_not_taken d ht
      rw [hnone, hnone']
    | true =>
      obtain ⟨hlt, hquiet, hreturned⟩ := returned_eq d ht
      obtain ⟨hkept, hempty⟩ := h t ht
      rw [hreturned, consumed_eq, ht, Bool.and_true]
      cases hword : (c (addressCycle c t)).sAxisTvalid with
      | false => simp [hempty hword]
      | true =>
        obtain ⟨hthere, hdata⟩ := word_held hc hd (Nat.le_of_lt hlt) hword fun u hlo hhi => by
          rcases Nat.lt_or_eq_of_le hlo with hlo | rfl
          · exact hquiet u hlo hhi
          · exact hkept hword
        simp [hthere, hdata]
  intro t
  rw [hsame]

theorem consumed_eq_returned {x : Nat → Input dw} (h : Paired x) (t : Nat) :
    consumed x t = returned x t := by
  have hnext := h (t + 1)
  rw [transfers_succ _ (Nat.zero_le t), transfers_succ _ (Nat.zero_le t), h t,
    List.append_cancel_left_eq] at hnext
  generalize consumed x t = a at hnext ⊢
  generalize returned x t = b at hnext ⊢
  cases a <;> cases b <;> simp_all

/-- The words of a stream that alternates between zero and one. -/
def alternating (c : Nat → Control) (dw t : Nat) : BitVec dw :=
  BitVec.ofNat dw (events (fun u => (c u).sAxisTvalid && taken c u) 0 t % 2)

theorem alternating_holds (c : Nat → Control) (dw : Nat) : HoldsData c (alternating c dw) := by
  intro t _ hkeep
  rw [alternating, alternating, events_succ _ (Nat.zero_le t), hkeep, Bool.and_false]
  rfl

/-- After one word has been removed the stream shows another. -/
theorem alternating_ne (hdw : 0 < dw) {c : Nat → Control} {s t : Nat} (hst : s < t)
    (hs : (c s).sAxisTvalid = true) (htaken : taken c s = true)
    (hquiet : ∀ u, s < u → u < t → taken c u = false) :
    alternating c dw t ≠ alternating c dw s := by
  have hcount : events (fun u => (c u).sAxisTvalid && taken c u) 0 t =
      events (fun u => (c u).sAxisTvalid && taken c u) 0 s + 1 := by
    rw [events_quiet (Nat.zero_le (s + 1)) hst fun u hlo hhi => by
      rw [hquiet u hlo hhi, Bool.and_false], events_succ _ (Nat.zero_le s), hs, htaken]
    rfl
  have hbit : ∀ k, (BitVec.ofNat dw (k % 2)).toNat = k % 2 := by
    intro k
    rw [BitVec.toNat_ofNat]
    apply Nat.mod_eq_of_lt
    have htwo : 2 ^ 1 ≤ 2 ^ dw := Nat.pow_le_pow_right (by omega) hdw
    omega
  intro heq
  have hval := congrArg BitVec.toNat heq
  rw [alternating, alternating, hbit, hbit, hcount] at hval
  omega

end Control

/-- One read of a word that is there all the time. -/
def single (t : Nat) : Control where
  sAxiArvalid := decide (t = 1)
  sAxiRready := decide (t = 3)
  sAxisTvalid := decide (t ≤ 3)

theorem single_holds : HoldsValid single := by
  intro t hword hkeep
  simp only [single, decide_eq_true_eq] at hword ⊢
  have hne : t ≠ 3 := by
    rintro rfl
    revert hkeep
    decide
  omega

/-- A read of the empty stream; the word arrives before the answer is taken. -/
def early (t : Nat) : Control where
  sAxiArvalid := decide (t = 0)
  sAxiRready := true
  sAxisTvalid := decide (t = 1)

/-- Two reads, the second one accepted while the answer of the first is taken. -/
def twice (t : Nat) : Control where
  sAxiArvalid := decide (t ≤ 1)
  sAxiRready := true
  sAxisTvalid := decide (t ≤ 2)

end RpEcosystem.AxiReader
