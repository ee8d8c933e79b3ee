import RpEcosystem.Clocked.Machine
import RpEcosystem.Clocked.Modulo
import RpEcosystem.Clocked.Rates

/-!
# Packets of a fixed length: `axis_packetizer`

The core passes a stream through and marks the last word of each packet. A packet has one word
more than `cfg_data`, since the word that finds the counter at `cfg_data` still passes. After the
first packet the core starts again (`CONTINUOUS` is `"TRUE"`) or stops (`"FALSE"`).

* `Input`, `Regs`, `machine`: the circuit, with the two variants of its counter and enable flag;
* `Turns`, `Stops`: the registers after a number of words;
* `packets_exact`: which words pass and which of them are marked.
-/

namespace RpEcosystem.Packetizer

open Clocked

structure Input (tw cw : Nat) where
  cfgData : BitVec cw
  sAxisTdata : BitVec tw
  sAxisTvalid : Bool
  mAxisTready : Bool

structure Regs (cw : Nat) where
  intCntrReg : BitVec cw
  intEnblReg : Bool

variable {tw cw : Nat}

namespace Regs

variable (r : Regs cw) (i : Input tw cw)

def intCompWire : Bool := decide (r.intCntrReg < i.cfgData)

def intTvalidWire : Bool := r.intEnblReg && i.sAxisTvalid

def intTlastWire : Bool := !r.intCompWire i

def sAxisTready : Bool := r.intEnblReg && i.mAxisTready

def mAxisTvalid : Bool := r.intTvalidWire i

def mAxisTlast : Bool := r.intEnblReg && r.intTlastWire i

/-- `int_cntr_next`; only the continuous variant returns to zero. -/
def intCntrNext (continuous : Bool) : BitVec cw :=
  if i.mAxisTready && r.intTvalidWire i && r.intCompWire i then r.intCntrReg + 1
  else if continuous && (i.mAxisTready && r.intTvalidWire i && r.intTlastWire i) then 0
  else r.intCntrReg

/-- `int_enbl_next`; only the other variant stops. -/
def intEnblNext (continuous : Bool) : Bool :=
  if !r.intEnblReg && r.intCompWire i then true
  else if !continuous && (i.mAxisTready && r.intTvalidWire i && r.intTlastWire i) then false
  else r.intEnblReg

/-- A word passes: it is transferred on both sides. -/
def passes : Bool := r.intEnblReg && i.sAxisTvalid && i.mAxisTready

end Regs

def machine (continuous : Bool) (tw cw : Nat) : Machine (Input tw cw) (Regs cw) where
  reset := { intCntrReg := 0, intEnblReg := false }
  next i r :=
    { intCntrReg := r.intCntrNext i continuous
      intEnblReg := r.intEnblNext i continuous }

variable (continuous : Bool) (x : Nat → Input tw cw)

def run (t : Nat) : Regs cw := (machine continuous tw cw).run x t

/-- The words transferred on `s_axis` before cycle `t`. -/
def received (t : Nat) : List (BitVec tw) :=
  transfers (fun u => if (x u).sAxisTvalid && (run continuous x u).sAxisTready (x u)
    then some (x u).sAxisTdata else none) 0 t

/-- The words transferred on `m_axis` before cycle `t`, with their `tlast`. -/
def sent (t : Nat) : List (BitVec tw × Bool) :=
  transfers (fun u => if (run continuous x u).mAxisTvalid (x u) && (x u).mAxisTready
    then some ((x u).sAxisTdata, (run continuous x u).mAxisTlast (x u)) else none) 0 t

/-- Both sides are ready for a word. -/
def offered (t : Nat) : Bool := (x t).sAxisTvalid && (x t).mAxisTready

theorem run_succ (t : Nat) : run continuous x (t + 1) =
    { intCntrReg := (run continuous x t).intCntrNext (x t) continuous
      intEnblReg := (run continuous x t).intEnblNext (x t) continuous } := rfl

variable {continuous x}

theorem received_succ (t : Nat) : received continuous x (t + 1) = received continuous x t ++
    if (run continuous x t).passes (x t) then [(x t).sAxisTdata] else [] := by
  rw [received, transfers_succ _ (Nat.zero_le t), received]
  congr 1
  cases henbl : (run continuous x t).intEnblReg <;> cases hvalid : (x t).sAxisTvalid <;>
    cases hready : (x t).mAxisTready <;>
    simp [Regs.sAxisTready, Regs.passes, henbl, hvalid, hready]

theorem sent_succ (t : Nat) : sent continuous x (t + 1) = sent continuous x t ++
    if (run continuous x t).passes (x t)
      then [((x t).sAxisTdata, (run continuous x t).intTlastWire (x t))] else [] := by
  rw [sent, transfers_succ _ (Nat.zero_le t), sent]
  congr 1
  cases henbl : (run continuous x t).intEnblReg <;> cases hvalid : (x t).sAxisTvalid <;>
    cases hready : (x t).mAxisTready <;>
    simp [Regs.mAxisTvalid, Regs.intTvalidWire, Regs.mAxisTlast, Regs.passes, henbl, hvalid, hready]

/-! ## One edge -/

section Step

variable {n k : Nat} {i : Input tw cw} {r : Regs cw}

/-- The registers of the continuous variant after `k` words. -/
structure Turns (n k : Nat) (r : Regs cw) : Prop where
  enabled : r.intEnblReg = true
  count : r.intCntrReg.toNat = k % (n + 1)

/-- The registers of the other variant after `k` words. -/
structure Stops (n k : Nat) (r : Regs cw) : Prop where
  enabled : r.intEnblReg = decide (k ≤ n)
  count : r.intCntrReg.toNat = min k n
  le : k ≤ n + 1

theorem intTlastWire_iff (hn : i.cfgData.toNat = n) :
    r.intTlastWire i = true ↔ n ≤ r.intCntrReg.toNat := by
  simp only [Regs.intTlastWire, Regs.intCompWire, BitVec.lt_def, hn]
  simp

theorem Turns.last (h : Turns n k r) (hn : i.cfgData.toNat = n) :
    r.intTlastWire i = decide (n + 1 ∣ k + 1) := by
  have hlt : k % (n + 1) < n + 1 := Nat.mod_lt k (Nat.succ_pos n)
  rw [Bool.eq_iff_iff, intTlastWire_iff hn, decide_eq_true_iff, dvd_add_one_iff, h.count]
  omega

theorem Stops.last (h : Stops n k r) (hn : i.cfgData.toNat = n) (hk : k ≤ n) :
    r.intTlastWire i = decide (k + 1 = n + 1) := by
  rw [Bool.eq_iff_iff, intTlastWire_iff hn, decide_eq_true_iff, h.count]
  omega

theorem passes_eq : (i.mAxisTready && r.intTvalidWire i) = r.passes i := by
  rw [Regs.intTvalidWire, Regs.passes, Bool.and_comm]

theorem intCntrNext_eq (continuous : Bool) : r.intCntrNext i continuous =
    if r.passes i then
      if r.intTlastWire i then (if continuous then 0 else r.intCntrReg) else r.intCntrReg + 1
    else r.intCntrReg := by
  rw [Regs.intCntrNext, Regs.intTlastWire, passes_eq]
  cases r.passes i <;> cases r.intCompWire i <;> cases continuous <;> rfl

/-- The stopped variant falls back on the last word and only then. -/
theorem intEnblNext_eq (continuous : Bool) (henbl : r.intEnblReg = true) :
    r.intEnblNext i continuous = (continuous || !(r.passes i && r.intTlastWire i)) := by
  rw [Regs.intEnblNext, passes_eq, henbl]
  cases r.passes i <;> cases r.intTlastWire i <;> cases continuous <;> rfl

theorem Turns.next (h : Turns n k r) (hn : i.cfgData.toNat = n) :
    Turns n (k + if r.passes i then 1 else 0) ((machine true tw cw).next i r) := by
  have hlast := h.last hn
  obtain ⟨henbl, hcount⟩ := h
  have hfits : n < 2 ^ cw := hn ▸ i.cfgData.isLt
  have hlt : k % (n + 1) < n + 1 := Nat.mod_lt k (Nat.succ_pos n)
  refine ⟨intEnblNext_eq true henbl, ?_⟩
  change (r.intCntrNext i true).toNat = _
  rw [intCntrNext_eq, hlast]
  cases r.passes i with
  | false => exact hcount
  | true =>
    simp only [if_true, decide_eq_true_eq, dvd_add_one_iff]
    rw [add_one_mod (by omega : 0 < n + 1), Nat.add_sub_cancel]
    split
    next => rfl
    next hne => rw [toNat_add_one_of_lt (by omega), hcount]

theorem Stops.next_of_le (h : Stops n k r) (hn : i.cfgData.toNat = n) (hk : k ≤ n) :
    Stops n (k + if r.passes i then 1 else 0) ((machine false tw cw).next i r) := by
  have hfits : n < 2 ^ cw := hn ▸ i.cfgData.isLt
  have henbl : r.intEnblReg = true := h.enabled.trans (decide_eq_true hk)
  have hcount : r.intCntrReg.toNat = k := by rw [h.count, Nat.min_eq_left hk]
  have hnext : (machine false tw cw).next i r =
      ⟨r.intCntrNext i false, r.intEnblNext i false⟩ := rfl
  rw [hnext, intCntrNext_eq, intEnblNext_eq false henbl, h.last hn hk]
  cases r.passes i with
  | false => exact ⟨(decide_eq_true hk).symm, h.count, h.le⟩
  | true =>
    by_cases hend : k = n
    · rw [decide_eq_true (by omega : k + 1 = n + 1)]
      refine ⟨(decide_eq_false (by simp only [if_true]; omega)).symm, ?_, ?_⟩
      · simp only [if_true, Bool.false_eq_true, if_false]
        omega
      · simp only [if_true]
        omega
    · rw [decide_eq_false (by omega : ¬ k + 1 = n + 1)]
      refine ⟨(decide_eq_true (by simp only [if_true]; omega)).symm, ?_, ?_⟩
      · simp only [if_true, Bool.false_eq_true, if_false]
        rw [toNat_add_one_of_lt (by omega)]
        omega
      · simp only [if_true]
        omega

/-- When all words have passed the registers do not move any more. -/
theorem Stops.next_of_done (h : Stops n (n + 1) r) (hn : i.cfgData.toNat = n) :
    r.passes i = false ∧ (machine false tw cw).next i r = r := by
  have henbl : r.intEnblReg = false := h.enabled.trans (decide_eq_false (by omega))
  have hcount := h.count
  have hlast : r.intTlastWire i = true := (intTlastWire_iff hn).mpr (by omega)
  have hcomp : r.intCompWire i = false := by simpa [Regs.intTlastWire] using hlast
  have hpass : r.passes i = false := by simp [Regs.passes, henbl]
  have hcntr : r.intCntrNext i false = r.intCntrReg := by
    rw [intCntrNext_eq, hpass]
    rfl
  have hstay : r.intEnblNext i false = r.intEnblReg := by
    simp [Regs.intEnblNext, Regs.intTvalidWire, henbl, hcomp]
  refine ⟨hpass, ?_⟩
  change (⟨r.intCntrNext i false, r.intEnblNext i false⟩ : Regs cw) = r
  rw [hcntr, hstay]

theorem Stops.next (h : Stops n k r) (hn : i.cfgData.toNat = n) :
    Stops n (k + if r.passes i then 1 else 0) ((machine false tw cw).next i r) := by
  by_cases hk : k ≤ n
  · exact h.next_of_le hn hk
  · have hend : k = n + 1 := by
      have hle := h.le
      omega
    subst hend
    obtain ⟨hpass, hsame⟩ := h.next_of_done hn
    rw [hpass, hsame]
    exact h

end Step

/-! ## Runs -/

section Run

variable {n : Nat} (hpos : 1 ≤ n) (hx : ∀ t, (x t).cfgData.toNat = n)

theorem length_received_succ (t : Nat) : (received continuous x (t + 1)).length =
    (received continuous x t).length + if (run continuous x t).passes (x t) then 1 else 0 := by
  rw [received_succ, List.length_append]
  congr 1
  split <;> rfl

include hpos hx

/-- In the first cycle nothing passes and the core is enabled. -/
theorem run_one (continuous : Bool) : (run continuous x 1).intEnblReg = true ∧
    (run continuous x 1).intCntrReg = 0 ∧ received continuous x 1 = [] ∧
      sent continuous x 1 = [] := by
  have hn := hx 0
  have hcomp : (run continuous x 0).intCompWire (x 0) = true := by
    simp only [Regs.intCompWire, BitVec.lt_def, decide_eq_true_eq, hn]
    exact hpos
  have hpass : (run continuous x 0).passes (x 0) = false := rfl
  refine ⟨?_, ?_, ?_, ?_⟩
  · rw [run_succ, Regs.intEnblNext, hcomp]
    rfl
  · rw [run_succ, intCntrNext_eq, hpass]
    rfl
  · rw [received_succ, hpass]
    rfl
  · rw [sent_succ, hpass]
    rfl

theorem run_turns (t : Nat) :
    Turns n (received true x (t + 1)).length (run true x (t + 1)) := by
  induction t with
  | zero =>
    obtain ⟨henbl, hcntr, hnone, -⟩ := run_one hpos hx true
    exact ⟨henbl, by rw [hcntr, hnone]; rfl⟩
  | succ t ih =>
    rw [length_received_succ]
    exact ih.next (hx (t + 1))

theorem run_stops (t : Nat) :
    Stops n (received false x (t + 1)).length (run false x (t + 1)) := by
  induction t with
  | zero =>
    obtain ⟨henbl, hcntr, hnone, -⟩ := run_one hpos hx false
    exact ⟨by rw [henbl, hnone]; rfl, by rw [hcntr, hnone]; simp, by rw [hnone]; simp⟩
  | succ t ih =>
    rw [length_received_succ]
    exact ih.next (hx (t + 1))

/-- The words are marked by their number, whatever they are. -/
theorem sent_eq {p : Nat → Bool}
    (hlast : ∀ t, (run continuous x (t + 1)).passes (x (t + 1)) = true →
      (run continuous x (t + 1)).intTlastWire (x (t + 1)) =
        p ((received continuous x (t + 1)).length + 1)) (t : Nat) :
    sent continuous x t = flagged p (received continuous x t) := by
  cases t with
  | zero => rfl
  | succ t =>
    induction t with
    | zero =>
      obtain ⟨-, -, hnone, hsent⟩ := run_one hpos hx continuous
      rw [hnone, hsent]
      rfl
    | succ t ih =>
      rw [sent_succ, received_succ, ih]
      cases hpass : (run continuous x (t + 1)).passes (x (t + 1)) with
      | false => simp
      | true =>
        simp only [if_true]
        rw [flagged_concat, hlast t hpass]

/-- The stopping variant takes every word that is offered to it until it has enough. -/
theorem length_received (t : Nat) :
    (received false x (t + 1)).length = min (n + 1) (events (offered x) 1 (t + 1)) := by
  induction t with
  | zero =>
    obtain ⟨-, -, hnone, -⟩ := run_one hpos hx false
    rw [hnone]
    simp
  | succ t ih =>
    have hstops := run_stops hpos hx t
    rw [ih] at hstops
    have henbl := hstops.enabled
    rw [length_received_succ, ih, events_succ (offered x) (by omega : 1 ≤ t + 1)]
    have hpass : (run false x (t + 1)).passes (x (t + 1)) = true ↔
        min (n + 1) (events (offered x) 1 (t + 1)) ≤ n ∧ offered x (t + 1) = true := by
      rw [Regs.passes, henbl, Bool.and_assoc, Bool.and_eq_true, decide_eq_true_iff, offered]
    simp only [hpass]
    cases offered x (t + 1) with
    | false => simp
    | true =>
      simp only [and_true, if_true]
      split <;> omega

end Run

/-- What passes, and what is marked: in the continuous variant the last word of every packet of
`n + 1` words; in the other one exactly `n + 1` words pass, the last one is marked, and the core
is closed to both sides afterwards. -/
theorem packets_exact {n : BitVec cw} (hn : 1 ≤ n.toNat) (hx : ∀ t, (x t).cfgData = n) (t : Nat) :
    sent true x t = flagged (fun k => decide (n.toNat + 1 ∣ k)) (received true x t) ∧
      sent false x t = flagged (fun k => decide (k = n.toNat + 1)) (received false x t) ∧
      (received false x t).length = min (n.toNat + 1) (events (offered x) 1 t) ∧
      ((received false x t).length = n.toNat + 1 → ∀ u, t ≤ u →
        (run false x u).sAxisTready (x u) = false ∧ (run false x u).mAxisTvalid (x u) = false) := by
  have hx' : ∀ t, (x t).cfgData.toNat = n.toNat := fun t => congrArg BitVec.toNat (hx t)
  have hlength : ∀ t, (received false x t).length =
      min (n.toNat + 1) (events (offered x) 1 t) := by
    intro t
    cases t with
    | zero => rfl
    | succ t => exact length_received hn hx' t
  refine ⟨?_, ?_, hlength t, ?_⟩
  · apply sent_eq hn hx'
    intro u _
    exact (run_turns hn hx' u).last (hx' (u + 1))
  · apply sent_eq hn hx'
    intro u hpass
    have hstops := run_stops hn hx' u
    apply hstops.last (hx' (u + 1))
    -- a word passes, so the core is enabled
    simp only [Regs.passes, Bool.and_eq_true] at hpass
    exact of_decide_eq_true (hstops.enabled.symm.trans hpass.1.1)
  · intro hall u htu
    have ht : t ≠ 0 := by
      rintro rfl
      cases hall
    obtain ⟨v, rfl⟩ : ∃ v, u = v + 1 := ⟨u - 1, by omega⟩
    have hlater : (received false x (v + 1)).length = n.toNat + 1 := by
      have hmono := events_mono (offered x) (by omega : 1 ≤ t) htu
      rw [hlength] at hall ⊢
      omega
    have henbl := (run_stops hn hx' v).enabled
    rw [hlater, decide_eq_false (by omega)] at henbl
    simp [Regs.sAxisTready, Regs.mAxisTvalid, Regs.intTvalidWire, henbl]

/-- Packets of two words, with both sides ready in every cycle. -/
def steady : Input 8 8 where
  cfgData := 1
  sAxisTdata := 5
  sAxisTvalid := true
  mAxisTready := true

theorem packets_exact_steady :
    sent true (fun _ => steady) 6 =
        flagged (fun k => decide (2 ∣ k)) (received true (fun _ => steady) 6) ∧
      (received false (fun _ => steady) 6).length = 2 ∧
      (run false (fun _ => steady) 6).sAxisTready steady = false := by
  obtain ⟨hmarked, -, hlength, hclosed⟩ :=
    @packets_exact 8 8 (fun _ => steady) 1 (by decide) (fun _ => rfl) 6
  have hall : (received false (fun _ => steady) 6).length = 2 := hlength.trans (by decide)
  exact ⟨hmarked, hall, (hclosed hall 6 le_rfl).1⟩

end RpEcosystem.Packetizer
