import RpEcosystem.Clocked.Machine
import RpEcosystem.Clocked.Modulo
import RpEcosystem.Clocked.Rates

/-!
# Passing on every `n + 1`-st word: `axis_decimator`

The core counts the words it accepts and keeps every `n + 1`-st in one register until it is taken.
It accepts a word in every cycle: `s_axis_tready` does not depend on that register, so a selected
word that arrives while the previous one still waits takes its place.

* `Input`, `Regs`, `machine`: the circuit;
* `selected`: the cycles in which a selected word arrives, in terms of the inputs;
* `intTvalidReg_iff`: when a word waits;
* `delivers_iff`: the patterns of the two handshakes for which nothing is lost.
-/

namespace RpEcosystem.Decimator

open Clocked

structure Input (tw cw : Nat) where
  cfgData : BitVec cw
  sAxisTdata : BitVec tw
  sAxisTvalid : Bool
  mAxisTready : Bool

structure Regs (tw cw : Nat) where
  intTdataReg : BitVec tw
  intTvalidReg : Bool
  intTreadyReg : Bool
  intCntrReg : BitVec cw

variable {tw cw : Nat}

namespace Regs

variable (r : Regs tw cw) (i : Input tw cw)

def intCompWire : Bool := decide (r.intCntrReg < i.cfgData)

def intTvalidWire : Bool := r.intTreadyReg && i.sAxisTvalid

def intTreadyNext : Bool := if !r.intTreadyReg && r.intCompWire i then true else r.intTreadyReg

def intCntrNext : BitVec cw :=
  if r.intTvalidWire i && r.intCompWire i then r.intCntrReg + 1
  else if r.intTvalidWire i && !r.intCompWire i then 0
  else r.intCntrReg

def intTdataNext : BitVec tw :=
  if r.intTvalidWire i && !r.intCompWire i then i.sAxisTdata else r.intTdataReg

def intTvalidNext : Bool :=
  if r.intTvalidWire i && !r.intCompWire i then true
  else if i.mAxisTready && r.intTvalidReg then false
  else r.intTvalidReg

def sAxisTready : Bool := r.intTreadyReg

def mAxisTdata : BitVec tw := r.intTdataReg

def mAxisTvalid : Bool := r.intTvalidReg

/-- The word transferred on `s_axis`. -/
def accepted : Option (BitVec tw) :=
  if i.sAxisTvalid && r.sAxisTready then some i.sAxisTdata else none

/-- The word transferred on `m_axis`. -/
def taken : Option (BitVec tw) :=
  if r.mAxisTvalid && i.mAxisTready then some r.mAxisTdata else none

end Regs

def next (i : Input tw cw) (r : Regs tw cw) : Regs tw cw where
  intTdataReg := r.intTdataNext i
  intTvalidReg := r.intTvalidNext i
  intTreadyReg := r.intTreadyNext i
  intCntrReg := r.intCntrNext i

def machine (tw cw : Nat) : Machine (Input tw cw) (Regs tw cw) where
  reset := { intTdataReg := 0, intTvalidReg := false, intTreadyReg := false, intCntrReg := 0 }
  next := next

section Runs

variable (x : Nat → Input tw cw)

def run (t : Nat) : Regs tw cw := (machine tw cw).run x t

theorem run_succ (t : Nat) : run x (t + 1) = next (x t) (run x t) := rfl

/-- The words transferred on `s_axis` before cycle `t`. -/
def received (t : Nat) : List (BitVec tw) :=
  transfers (fun u => (run x u).accepted (x u)) 0 t

/-- The words transferred on `m_axis` before cycle `t`. -/
def sent (t : Nat) : List (BitVec tw) :=
  transfers (fun u => (run x u).taken (x u)) 0 t

/-- The words sent are the selected ones as far as they go, and a word that waits does not
change. -/
structure Delivers (n : Nat) : Prop where
  inOrder : ∀ t, sent x t <+: everyNth (n + 1) (received x t)
  steady : ∀ t, (run x t).mAxisTvalid = true → (x t).mAxisTready = false →
    (run x (t + 1)).mAxisTdata = (run x t).mAxisTdata

/-- A selected word arrives in cycle `t`. Words are accepted from cycle `1` on. -/
def selected (n : Nat) (valid : Nat → Bool) (t : Nat) : Bool :=
  decide (1 ≤ t) && valid t && decide (n + 1 ∣ events valid 1 t + 1)

/-- A selected word waits and the next one arrives. -/
def overrun (n : Nat) (t : Nat) : Prop :=
  (run x t).intTvalidReg = true ∧ selected n (fun u => (x u).sAxisTvalid) t = true ∧
    (x t).mAxisTready = false

end Runs

/-! ## The counter -/

section Counter

variable {x : Nat → Input tw cw} {n : Nat} (hpos : 1 ≤ n) (hx : ∀ t, (x t).cfgData.toNat = n)

theorem intCompWire_eq {r : Regs tw cw} {i : Input tw cw} {k : Nat} (hn : i.cfgData.toNat = n)
    (hk : r.intCntrReg.toNat = k % (n + 1)) : r.intCompWire i = !decide (n + 1 ∣ k + 1) := by
  have hlt : k % (n + 1) < n + 1 := Nat.mod_lt k (Nat.succ_pos n)
  rw [Regs.intCompWire, ← decide_not]
  simp only [BitVec.lt_def, hn, hk, dvd_add_one_iff]
  rw [decide_eq_decide]
  omega

/-- The counter moves with the words that are accepted. -/
theorem intCntrNext_eq {r : Regs tw cw} {i : Input tw cw} {k : Nat} (hn : i.cfgData.toNat = n)
    (hready : r.intTreadyReg = true) (hk : r.intCntrReg.toNat = k % (n + 1)) :
    (r.intCntrNext i).toNat = (k + if i.sAxisTvalid then 1 else 0) % (n + 1) := by
  have hfits : n < 2 ^ cw := hn ▸ i.cfgData.isLt
  have hlt : k % (n + 1) < n + 1 := Nat.mod_lt k (Nat.succ_pos n)
  rw [Regs.intCntrNext, intCompWire_eq hn hk, Regs.intTvalidWire, hready]
  cases i.sAxisTvalid with
  | false => simpa using hk
  | true =>
    simp only [Bool.true_and, Bool.not_eq_true', decide_eq_false_iff_not, decide_eq_true_eq,
      Bool.not_not, if_true, dvd_add_one_iff]
    rw [add_one_mod (by omega : 0 < n + 1), Nat.add_sub_cancel]
    split_ifs with hlast
    · rfl
    · rw [toNat_add_one_of_lt (by omega), hk]

include hpos hx

theorem run_counter (t : Nat) : (run x (t + 1)).intTreadyReg = true ∧
    (run x (t + 1)).intCntrReg.toNat = events (fun u => (x u).sAxisTvalid) 1 (t + 1) % (n + 1) := by
  induction t with
  | zero =>
    have hcomp : (run x 0).intCompWire (x 0) = true := by
      simp only [Regs.intCompWire, BitVec.lt_def, hx, decide_eq_true_eq]
      exact hpos
    rw [run_succ]
    constructor
    · simp [next, Regs.intTreadyNext, hcomp]
    · simp [next, Regs.intCntrNext, Regs.intTvalidWire, run, machine]
  | succ t ih =>
    obtain ⟨hready, hcntr⟩ := ih
    rw [run_succ, events_succ _ (by omega : 1 ≤ t + 1)]
    constructor
    · simp [next, Regs.intTreadyNext, hready]
    · exact intCntrNext_eq (hx (t + 1)) hready hcntr

/-- The output register is loaded in the cycles in which a selected word arrives. -/
theorem loads_eq (t : Nat) :
    ((run x t).intTvalidWire (x t) && !(run x t).intCompWire (x t)) =
      selected n (fun u => (x u).sAxisTvalid) t := by
  cases t with
  | zero => rfl
  | succ t =>
    obtain ⟨hready, hcntr⟩ := run_counter hpos hx t
    rw [intCompWire_eq (hx (t + 1)) hcntr, Regs.intTvalidWire, hready, Bool.not_not, selected,
      decide_eq_true (by omega : 1 ≤ t + 1)]

theorem intTvalidReg_succ (t : Nat) : (run x (t + 1)).intTvalidReg =
    if selected n (fun u => (x u).sAxisTvalid) t then true
    else if (x t).mAxisTready && (run x t).intTvalidReg then false
    else (run x t).intTvalidReg := by
  rw [← loads_eq hpos hx]
  rfl

theorem intTdataReg_succ (t : Nat) : (run x (t + 1)).intTdataReg =
    if selected n (fun u => (x u).sAxisTvalid) t then (x t).sAxisTdata
    else (run x t).intTdataReg := by
  rw [← loads_eq hpos hx]
  rfl

/-- A word waits when one has arrived and none was taken since. -/
theorem intTvalidReg_iff (t : Nat) : (run x t).intTvalidReg = true ↔
    ∃ a, a < t ∧ selected n (fun u => (x u).sAxisTvalid) a = true ∧
      ∀ u, a < u → u < t → (x u).mAxisTready = false := by
  induction t with
  | zero => simp [run, machine]
  | succ t ih =>
    rw [intTvalidReg_succ hpos hx]
    constructor
    · intro h
      split_ifs at h with hsel htaken
      · exact ⟨t, by omega, hsel, fun u h1 h2 => by omega⟩
      · obtain ⟨a, ha, hsel', hquiet⟩ := ih.mp h
        refine ⟨a, by omega, hsel', fun u hau hut => ?_⟩
        rcases Nat.lt_succ_iff_lt_or_eq.mp hut with hlt | rfl
        · exact hquiet u hau hlt
        · simpa [h] using htaken
    · rintro ⟨a, ha, hsel, hquiet⟩
      rcases Nat.lt_succ_iff_lt_or_eq.mp ha with hlt | rfl
      · have hheld := ih.mpr ⟨a, hlt, hsel, fun u hau hut => hquiet u hau (by omega)⟩
        simp [hheld, hquiet t hlt (by omega)]
      · simp [hsel]

theorem accepted_eq (t : Nat) : (run x t).accepted (x t) =
    if 1 ≤ t ∧ (x t).sAxisTvalid = true then some (x t).sAxisTdata else none := by
  cases t with
  | zero => simp [Regs.accepted, Regs.sAxisTready, run, machine]
  | succ t =>
    obtain ⟨hready, -⟩ := run_counter hpos hx t
    simp [Regs.accepted, Regs.sAxisTready, hready]

theorem length_received (t : Nat) :
    (received x t).length = events (fun u => (x u).sAxisTvalid) 1 t := by
  induction t with
  | zero => rfl
  | succ t ih =>
    rw [received, transfers_succ _ (Nat.zero_le t), List.length_append, accepted_eq hpos hx]
    change (received x t).length + _ = _
    cases t with
    | zero => simp [ih, events]
    | succ t =>
      rw [ih, events_succ _ (by omega : 1 ≤ t + 1)]
      cases (x (t + 1)).sAxisTvalid <;> simp

/-- One more cycle of selected words. -/
theorem everyNth_received_succ (t : Nat) : everyNth (n + 1) (received x (t + 1)) =
    everyNth (n + 1) (received x t) ++
      if selected n (fun u => (x u).sAxisTvalid) t then [(x t).sAxisTdata] else [] := by
  rw [received, transfers_succ _ (Nat.zero_le t), accepted_eq hpos hx]
  change everyNth (n + 1) (received x t ++ _) = _
  by_cases haccept : 1 ≤ t ∧ (x t).sAxisTvalid = true
  · rw [if_pos haccept, Option.toList_some, everyNth_concat, length_received hpos hx]
    simp [selected, haccept]
  · rw [if_neg haccept, Option.toList_none, List.append_nil]
    have hnot : selected n (fun u => (x u).sAxisTvalid) t = false := by
      rw [Bool.eq_false_iff]
      intro hsel
      simp only [selected, Bool.and_eq_true, decide_eq_true_eq] at hsel
      exact haccept hsel.1
    simp [hnot]

end Counter

/-! ## Overruns -/

section Overruns

variable {x : Nat → Input tw cw} {n : Nat} (hpos : 1 ≤ n) (hx : ∀ t, (x t).cfgData.toNat = n)

include hpos hx

/-- Every word sent is a selected one, in order and not twice, overruns or not. -/
theorem sent_append_waiting_sublist (t : Nat) :
    (sent x t ++ if (run x t).intTvalidReg then [(run x t).intTdataReg] else []).Sublist
      (everyNth (n + 1) (received x t)) := by
  induction t with
  | zero => exact List.Sublist.refl _
  | succ t ih =>
    rw [everyNth_received_succ hpos hx, sent, transfers_succ _ (Nat.zero_le t),
      intTvalidReg_succ hpos hx, intTdataReg_succ hpos hx]
    change (sent x t ++ _ ++ _).Sublist _
    have htaken : (sent x t ++ ((run x t).taken (x t)).toList).Sublist
        (everyNth (n + 1) (received x t)) := by
      refine List.Sublist.trans (List.Sublist.append_left ?_ _) ih
      simp only [Regs.taken, Regs.mAxisTvalid, Regs.mAxisTdata]
      rcases Bool.eq_false_or_eq_true (run x t).intTvalidReg with hheld | hheld <;>
        rcases Bool.eq_false_or_eq_true (x t).mAxisTready with hready | hready <;>
        simp [hheld, hready]
    cases selected n (fun u => (x u).sAxisTvalid) t with
    | true => exact htaken.append_right _
    | false =>
      simp only [Regs.taken, Regs.mAxisTvalid, Regs.mAxisTdata] at htaken ⊢
      rcases Bool.eq_false_or_eq_true (run x t).intTvalidReg with hheld | hheld <;>
        rcases Bool.eq_false_or_eq_true (x t).mAxisTready with hready | hready <;>
        simp [hheld, hready] at ih htaken ⊢ <;> assumption

/-- Without overruns the selected words are those sent and the one that waits. -/
theorem sent_append_waiting (hno : ∀ t, ¬ overrun x n t) (t : Nat) :
    sent x t ++ (if (run x t).intTvalidReg then [(run x t).intTdataReg] else []) =
      everyNth (n + 1) (received x t) := by
  induction t with
  | zero => rfl
  | succ t ih =>
    have hover := hno t
    rw [everyNth_received_succ hpos hx, ← ih, sent, transfers_succ _ (Nat.zero_le t),
      intTvalidReg_succ hpos hx, intTdataReg_succ hpos hx]
    change sent x t ++ _ ++ _ = _
    simp only [Regs.taken, Regs.mAxisTvalid, Regs.mAxisTdata]
    simp only [overrun] at hover
    rcases Bool.eq_false_or_eq_true (run x t).intTvalidReg with hheld | hheld <;>
      rcases Bool.eq_false_or_eq_true (x t).mAxisTready with hready | hready <;>
      rcases Bool.eq_false_or_eq_true (selected n (fun u => (x u).sAxisTvalid) t) with
        hsel | hsel <;>
      simp [hheld, hready, hsel] at hover ⊢

theorem delivers_of_no_overrun (hno : ∀ t, ¬ overrun x n t) : Delivers x n where
  inOrder t := by
    rw [← sent_append_waiting hpos hx hno]
    exact List.prefix_append _ _
  steady t hheld hready := by
    have hnot : selected n (fun u => (x u).sAxisTvalid) t = false := by
      rw [Bool.eq_false_iff]
      intro hsel
      exact hno t ⟨hheld, hsel, hready⟩
    change (run x (t + 1)).intTdataReg = (run x t).intTdataReg
    rw [intTdataReg_succ hpos hx, hnot]
    rfl

/-- An overrun is a selected word with none taken since the one before it. -/
theorem overrun_iff (t : Nat) : overrun x n t ↔
    selected n (fun u => (x u).sAxisTvalid) t = true ∧
      ∃ a, a < t ∧ selected n (fun u => (x u).sAxisTvalid) a = true ∧
        ∀ u, a < u → u ≤ t → (x u).mAxisTready = false := by
  rw [overrun, intTvalidReg_iff hpos hx]
  constructor
  · rintro ⟨⟨a, ha, hsel, hquiet⟩, hsel', hready⟩
    refine ⟨hsel', a, ha, hsel, fun u hau hut => ?_⟩
    rcases Nat.lt_or_eq_of_le hut with hlt | rfl
    · exact hquiet u hau hlt
    · exact hready
  · rintro ⟨hsel', a, ha, hsel, hquiet⟩
    exact ⟨⟨a, ha, hsel, fun u hau hut => hquiet u hau (Nat.le_of_lt hut)⟩, hsel',
      hquiet t ha le_rfl⟩

end Overruns

/-- The inputs with constant `n`, for the patterns of the two handshakes and the words. -/
def inputs (n : BitVec cw) (valid ready : Nat → Bool) (d : Nat → BitVec tw) (t : Nat) :
    Input tw cw where
  cfgData := n
  sAxisTdata := d t
  sAxisTvalid := valid t
  mAxisTready := ready t

/-- Nothing is lost, whatever the words are, exactly when the receiver is ready at least once
after the arrival of a selected word and not later than the next one. -/
theorem delivers_iff {n : BitVec cw} (hn : 1 ≤ n.toNat) (valid ready : Nat → Bool) :
    (∀ d : Nat → BitVec tw, Delivers (inputs n valid ready d) n.toNat) ↔
      tw = 0 ∨ ∀ a b, a < b → selected n.toNat valid a = true →
        selected n.toNat valid b = true → ∃ u, a < u ∧ u ≤ b ∧ ready u = true := by
  constructor
  · intro hall
    by_contra hcon
    push Not at hcon
    obtain ⟨htw, a, b, hab, ha, hb, hquiet⟩ := hcon
    -- words that are zero but for the second of the two
    let d : Nat → BitVec tw := fun t => if t = b then 1 else 0
    have hx : ∀ t, (inputs n valid ready d t).cfgData.toNat = n.toNat := fun _ => rfl
    have hover := (overrun_iff hn hx b).mpr ⟨hb, a, hab, ha, fun u hau hub =>
      Bool.eq_false_of_not_eq_true (hquiet u hau hub)⟩
    have hsame := (hall d).steady b hover.1 hover.2.2
    have hzero : ∀ t, t ≤ b → (run (inputs n valid ready d) t).intTdataReg = 0 := by
      intro t
      induction t with
      | zero => exact fun _ => rfl
      | succ t ih =>
        intro ht
        rw [intTdataReg_succ hn hx, ih (by omega)]
        split
        · exact if_neg (by omega)
        · rfl
    change (run _ (b + 1)).intTdataReg = (run _ b).intTdataReg at hsame
    rw [intTdataReg_succ hn hx, hzero b le_rfl, if_pos hover.2.1] at hsame
    have hone : (1 : BitVec tw) = 0 := (if_pos rfl).symm.trans hsame
    apply htw
    simpa using congrArg BitVec.toNat hone
  · rintro (rfl | hready) d
    · have hx : ∀ t, (inputs n valid ready d t).cfgData.toNat = n.toNat := fun _ => rfl
      refine ⟨fun t => ?_, fun t _ _ => Subsingleton.elim _ _⟩
      have hsub := (List.sublist_append_left _ _).trans (sent_append_waiting_sublist hn hx t)
      rw [List.prefix_iff_eq_take]
      apply List.ext_getElem
      · rw [List.length_take, Nat.min_eq_left hsub.length_le]
      · intro k _ _
        exact Subsingleton.elim _ _
    · have hx : ∀ t, (inputs n valid ready d t).cfgData.toNat = n.toNat := fun _ => rfl
      apply delivers_of_no_overrun hn hx
      intro t hover
      obtain ⟨hb, a, hab, ha, hquiet⟩ := (overrun_iff hn hx t).mp hover
      obtain ⟨u, hau, hub, hu⟩ := hready a t hab ha hb
      rw [show ready u = false from hquiet u hau hub] at hu
      cases hu

/-- Every second word, to a receiver that is always ready. -/
theorem delivers_ready : Delivers (inputs (1 : BitVec 8) (fun _ => true) (fun _ => true)
    fun t => BitVec.ofNat 8 t) 1 :=
  (@delivers_iff 8 8 1 (by decide) (fun _ => true) (fun _ => true)).mpr
    (Or.inr fun _ b hab _ _ => ⟨b, hab, le_rfl, rfl⟩) _

/-- The receiver is ready in cycle 5 only; the word of cycle 2 has been replaced by that of
cycle 4. -/
theorem word_lost : ¬ Delivers (inputs (1 : BitVec 8) (fun _ => true) (fun t => decide (t = 5))
    fun t => BitVec.ofNat 8 t) 1 := by
  intro h
  have horder := h.inOrder 6
  revert horder
  decide

end RpEcosystem.Decimator
