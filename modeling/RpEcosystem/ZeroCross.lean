import RpEcosystem.Clocked.Machine
import RpEcosystem.Clocked.Runs

/-!
# The zero-crossing detector `zero_cross_det`

Each of the two channels compares the sign of a sample with the sign of the sample before it.
A change counts only if one of two flags is set: a sample below `-HYST_CONST` arms the way up and
a sample above `HYST_CONST` the way down.

* `Channel`, `Regs`, `machine`: the circuit;
* `SchmittTrigger`: what the output of a channel is for, in terms of the runs of its samples;
* `Follows`: the flags of a channel tell whether the present run has a sample past the threshold;
* `schmitt_trigger`: both channels are such triggers.
-/

namespace RpEcosystem.ZeroCross

open Clocked

variable {w : Nat}

/-- The registers of one channel. -/
structure Channel (w : Nat) where
  sigReg : BitVec w
  detOReg : Bool
  hystLowReg : Bool
  hystHighReg : Bool

namespace Channel

variable (c : Channel w) (hystConst : Nat) (sigNext : BitVec w)

/-- The condition that sets the output. -/
def crossesUp : Bool := c.sigReg.msb && !sigNext.msb && c.hystLowReg

/-- The condition that clears it. -/
def crossesDown : Bool := !c.sigReg.msb && sigNext.msb && c.hystHighReg

def detONext : Bool :=
  if c.crossesUp sigNext then true else if c.crossesDown sigNext then false else c.detOReg

def hystLowNext : Bool :=
  if sigNext.slt (BitVec.ofInt w (-hystConst)) then true
  else if c.crossesUp sigNext then false
  else c.hystLowReg

def hystHighNext : Bool :=
  if (BitVec.ofInt w hystConst).slt sigNext then true
  else if c.crossesDown sigNext then false
  else c.hystHighReg

variable {c}

/-- Of the two conditions only the one that changes the output matters. -/
theorem detONext_of_low (hlow : c.detOReg = false) : c.detONext sigNext = c.crossesUp sigNext := by
  rw [detONext, hlow]
  cases c.crossesUp sigNext <;> simp

theorem detONext_of_high (hhigh : c.detOReg = true) :
    c.detONext sigNext = !c.crossesDown sigNext := by
  rw [detONext, hhigh]
  cases hup : c.crossesUp sigNext with
  | false => cases c.crossesDown sigNext <;> rfl
  | true =>
    -- the sample is not negative, so it does not cross downwards
    simp only [crossesUp, Bool.and_eq_true, Bool.not_eq_true'] at hup
    simp [crossesDown, hup.1.2]

end Channel

/-- One channel with the sample as its input. -/
def channel (hystConst w : Nat) : Machine (BitVec w) (Channel w) where
  reset := { sigReg := 0, detOReg := false, hystLowReg := false, hystHighReg := false }
  next sigNext c :=
    { sigReg := sigNext
      detOReg := c.detONext sigNext
      hystLowReg := c.hystLowNext hystConst sigNext
      hystHighReg := c.hystHighNext hystConst sigNext }

structure Regs (w : Nat) where
  a : Channel w
  b : Channel w

/-- `sig_a_next` is the lower half of `s_axis_tdata`. -/
def sigANext (sAxisTdata : BitVec (w + w)) : BitVec w := sAxisTdata.extractLsb' 0 w

/-- `sig_b_next` is the upper half. -/
def sigBNext (sAxisTdata : BitVec (w + w)) : BitVec w := sAxisTdata.extractLsb' w w

def machine (hystConst w : Nat) : Machine (BitVec (w + w)) (Regs w) where
  reset := { a := (channel hystConst w).reset, b := (channel hystConst w).reset }
  next sAxisTdata r :=
    { a := (channel hystConst w).next (sigANext sAxisTdata) r.a
      b := (channel hystConst w).next (sigBNext sAxisTdata) r.b }

variable (hystConst : Nat) (x : Nat → BitVec (w + w))

def run (t : Nat) : Regs w := (machine hystConst w).run x t

def detAO (t : Nat) : Bool := (run hystConst x t).a.detOReg

def detBO (t : Nat) : Bool := (run hystConst x t).b.detOReg

/-- The sample of the first channel in cycle `t`, as a signed number. -/
def sampleA (t : Nat) : Int := (sigANext (x t)).toInt

def sampleB (t : Nat) : Int := (sigBNext (x t)).toInt

/-! ## What a trigger is -/

section Trigger

/-- The output goes up with the sample that ends a run of negative samples with one below `-h`,
and down with the sample that ends a run of the others with one above `h`. -/
structure SchmittTrigger (h : Int) (s : Nat → Int) (det : Nat → Bool) : Prop where
  starts : det 0 = false
  rises : ∀ t, det t = false → (det (t + 1) = true ↔
    0 ≤ s t ∧ ∃ a, IsRun (fun v => s v < 0) a t ∧ ∃ u, a ≤ u ∧ u < t ∧ s u < -h)
  falls : ∀ t, det t = true → (det (t + 1) = false ↔
    s t < 0 ∧ ∃ a, IsRun (fun v => 0 ≤ s v) a t ∧ ∃ u, a ≤ u ∧ u < t ∧ h < s u)

/-- The sample of cycle `t` makes the output rise. -/
def RisesAt (det : Nat → Bool) (t : Nat) : Prop := det t = false ∧ det (t + 1) = true

variable {h : Int} {s : Nat → Int} {det : Nat → Bool}

/-- An output that is high and low later falls in between. -/
theorem exists_fall {i j : Nat} (hij : i ≤ j) (hi : det i = true) (hj : det j = false) :
    ∃ k, i ≤ k ∧ k < j ∧ det k = true ∧ det (k + 1) = false := by
  induction j, hij using Nat.le_induction with
  | base => exact absurd (hi.symm.trans hj) (by decide)
  | succ j hij ih =>
    cases hprev : det j with
    | true => exact ⟨j, hij, Nat.lt_succ_self j, hprev, hj⟩
    | false =>
      obtain ⟨k, hik, hkj, hhigh, hlow⟩ := ih hprev
      exact ⟨k, hik, by omega, hhigh, hlow⟩

/-- Between two rising edges the samples go over both thresholds, the upper one first. -/
theorem SchmittTrigger.swings (htrig : SchmittTrigger h s det) {i j : Nat} (hij : i < j)
    (hi : RisesAt det i) (hj : RisesAt det j) :
    ∃ u v, i ≤ u ∧ u < v ∧ v < j ∧ h < s u ∧ s v < -h := by
  obtain ⟨k, hik, hkj, hhigh, hlow⟩ := exists_fall (by omega : i + 1 ≤ j) hi.2 hj.1
  obtain ⟨-, a, hneg, -⟩ := (htrig.rises i hi.1).1 hi.2
  obtain ⟨hk, b, hpos, u, hbu, huk, hu⟩ := (htrig.falls k hhigh).1 hlow
  obtain ⟨-, c, hneg', v, hcv, hvj, hv⟩ := (htrig.rises j hj.1).1 hj.2
  -- the sample before the first edge is negative, and the one before the fall is not
  have hbefore : s (i - 1) < 0 := hneg.inside (i - 1) (by have := hneg.nonempty; omega)
    (by have := hneg.nonempty; omega)
  have hprev : 0 ≤ s (k - 1) := hpos.inside (k - 1) (by have := hpos.nonempty; omega)
    (by have := hpos.nonempty; omega)
  have hib := hpos.lt_of_not (by omega : ¬ 0 ≤ s (i - 1)) (by omega)
  have hkc := hneg'.lt_of_not (by omega : ¬ s (k - 1) < 0) (by omega)
  exact ⟨u, v, by omega, by omega, hvj, hu, hv⟩

end Trigger

/-! ## One channel -/

section Follow

variable {hystConst} {s : Nat → Int} {t : Nat} {c : Channel w} {sigNext : BitVec w}

/-- The registers of a channel in cycle `t`: the sign of the last sample, and whether the run it
belongs to has gone over the threshold. -/
structure Follows (h : Int) (s : Nat → Int) (t : Nat) (c : Channel w) : Prop where
  sign : c.sigReg.msb = true ↔ 0 < t ∧ s (t - 1) < 0
  low : c.hystLowReg = true ↔ Marked (fun v => s v < 0) (fun v => s v < -h) t
  high : c.hystHighReg = true ↔ Marked (fun v => 0 ≤ s v) (fun v => h < s v) t

theorem msb_iff (hs : sigNext.toInt = s t) : sigNext.msb = true ↔ s t < 0 := by
  rw [BitVec.msb_eq_toInt, decide_eq_true_iff, hs]

variable {h : Int}

/-- The way up is open for a sample that ends a marked run of negative ones. -/
theorem Follows.crossesUp_iff (hf : Follows h s t c) (hs : sigNext.toInt = s t) :
    c.crossesUp sigNext = true ↔
      0 ≤ s t ∧ Marked (fun v => s v < 0) (fun v => s v < -h) t := by
  have hmsb := msb_iff hs
  simp only [Channel.crossesUp, Bool.and_eq_true, Bool.not_eq_true', Bool.eq_false_iff, ne_eq,
    hmsb, hf.sign, hf.low]
  constructor
  · rintro ⟨⟨-, hnext⟩, hmark⟩
    exact ⟨by omega, hmark⟩
  · rintro ⟨hnext, hmark⟩
    refine ⟨⟨?_, by omega⟩, hmark⟩
    -- the flag is set, so the run reaches to the last sample
    cases t with
    | zero => exact absurd hmark not_marked_zero
    | succ t => exact ⟨Nat.succ_pos t, hmark.last⟩

theorem Follows.crossesDown_iff (hf : Follows h s t c) (hs : sigNext.toInt = s t) :
    c.crossesDown sigNext = true ↔
      s t < 0 ∧ Marked (fun v => 0 ≤ s v) (fun v => h < s v) t := by
  have hmsb := msb_iff hs
  simp only [Channel.crossesDown, Bool.and_eq_true, Bool.not_eq_true', Bool.eq_false_iff, ne_eq,
    hmsb, hf.sign, hf.high]
  constructor
  · rintro ⟨⟨-, hnext⟩, hmark⟩
    exact ⟨hnext, hmark⟩
  · rintro ⟨hnext, hmark⟩
    refine ⟨⟨?_, hnext⟩, hmark⟩
    cases t with
    | zero => exact absurd hmark not_marked_zero
    | succ t =>
      rintro ⟨-, hneg⟩
      have hlast : 0 ≤ s t := hmark.last
      rw [Nat.add_sub_cancel] at hneg
      omega

section Thresholds

variable (hhyst : hystConst + 1 < 2 ^ (w - 1))

include hhyst

theorem width_pos : 0 < w := by
  rcases Nat.eq_zero_or_pos w with rfl | hpos
  · simp at hhyst
  · exact hpos

theorem slt_neg_iff (hs : sigNext.toInt = s t) :
    sigNext.slt (BitVec.ofInt w (-hystConst)) = true ↔ s t < -hystConst := by
  have hcast : ((hystConst : Int) + 1) < 2 ^ (w - 1) := by exact_mod_cast hhyst
  rw [BitVec.slt_iff_toInt_lt, hs, BitVec.toInt_ofInt_eq_self (width_pos hhyst) (by omega)
    (by omega)]

theorem lt_slt_iff (hs : sigNext.toInt = s t) :
    (BitVec.ofInt w hystConst).slt sigNext = true ↔ hystConst < s t := by
  have hcast : ((hystConst : Int) + 1) < 2 ^ (w - 1) := by exact_mod_cast hhyst
  rw [BitVec.slt_iff_toInt_lt, hs, BitVec.toInt_ofInt_eq_self (width_pos hhyst) (by omega)
    (by omega)]

theorem Follows.next (hf : Follows hystConst s t c) (hs : sigNext.toInt = s t) :
    Follows hystConst s (t + 1) ((channel hystConst w).next sigNext c) := by
  refine ⟨?_, ?_, ?_⟩
  · rw [Nat.add_sub_cancel]
    exact (msb_iff hs).trans (by simp)
  · refine flag_iff_marked_succ (fun v hv => by omega) (slt_neg_iff hhyst hs) ?_ hf.low
    rw [Int.not_lt]
    exact hf.crossesUp_iff hs
  · refine flag_iff_marked_succ (fun v hv => by omega) (lt_slt_iff hhyst hs) ?_ hf.high
    rw [Int.not_le]
    exact hf.crossesDown_iff hs

theorem run_follows (y : Nat → BitVec w) (t : Nat) :
    Follows hystConst (fun v => (y v).toInt) t ((channel hystConst w).run y t) := by
  induction t with
  | zero =>
    refine ⟨?_, ?_, ?_⟩
    · simp [channel]
    · exact iff_of_false (by simp [channel]) not_marked_zero
    · exact iff_of_false (by simp [channel]) not_marked_zero
  | succ t ih => exact ih.next hhyst rfl

/-- A channel by itself is a trigger. -/
theorem channel_trigger (y : Nat → BitVec w) :
    SchmittTrigger hystConst (fun v => (y v).toInt)
      (fun t => ((channel hystConst w).run y t).detOReg) := by
  refine ⟨rfl, ?_, ?_⟩
  · intro t hlow
    have hup := (run_follows hhyst y t).crossesUp_iff (rfl : (y t).toInt = _)
    change ((channel hystConst w).run y t).detONext (y t) = true ↔ _
    rw [Channel.detONext_of_low (y t) hlow, hup]
    exact and_congr_right fun hend => marked_iff_exists_run (Int.not_lt.2 hend)
  · intro t hhigh
    have hdown := (run_follows hhyst y t).crossesDown_iff (rfl : (y t).toInt = _)
    change ((channel hystConst w).run y t).detONext (y t) = false ↔ _
    rw [Channel.detONext_of_high (y t) hhigh, Bool.not_eq_false', hdown]
    exact and_congr_right fun hend => marked_iff_exists_run (Int.not_le.2 hend)

end Thresholds

end Follow

/-! ## Both channels -/

theorem run_a (t : Nat) :
    (run hystConst x t).a = (channel hystConst w).run (fun u => sigANext (x u)) t :=
  (channel hystConst w).eq_run (fun t => (run hystConst x t).a) _ rfl (fun _ => rfl) t

theorem run_b (t : Nat) :
    (run hystConst x t).b = (channel hystConst w).run (fun u => sigBNext (x u)) t :=
  (channel hystConst w).eq_run (fun t => (run hystConst x t).b) _ rfl (fun _ => rfl) t

theorem detAO_eq : detAO hystConst x =
    fun t => ((channel hystConst w).run (fun u => sigANext (x u)) t).detOReg := by
  funext t
  rw [detAO, run_a]

theorem detBO_eq : detBO hystConst x =
    fun t => ((channel hystConst w).run (fun u => sigBNext (x u)) t).detOReg := by
  funext t
  rw [detBO, run_b]

variable {hystConst}

/-- Each output is a trigger on the samples of its own channel and does not depend on the other,
and two rising edges are a full swing of the samples apart. -/
theorem schmitt_trigger (hhyst : hystConst + 1 < 2 ^ (w - 1)) :
    SchmittTrigger hystConst (sampleA x) (detAO hystConst x) ∧
      SchmittTrigger hystConst (sampleB x) (detBO hystConst x) ∧
      (∀ i j, i < j → RisesAt (detAO hystConst x) i → RisesAt (detAO hystConst x) j →
        ∃ u v, i ≤ u ∧ u < v ∧ v < j ∧ hystConst < sampleA x u ∧ sampleA x v < -hystConst) ∧
      (∀ i j, i < j → RisesAt (detBO hystConst x) i → RisesAt (detBO hystConst x) j →
        ∃ u v, i ≤ u ∧ u < v ∧ v < j ∧ hystConst < sampleB x u ∧ sampleB x v < -hystConst) ∧
      (∀ y : Nat → BitVec (w + w), (∀ t, sigANext (y t) = sigANext (x t)) →
        detAO hystConst y = detAO hystConst x) ∧
      (∀ y : Nat → BitVec (w + w), (∀ t, sigBNext (y t) = sigBNext (x t)) →
        detBO hystConst y = detBO hystConst x) := by
  have htrigA : SchmittTrigger hystConst (sampleA x) (detAO hystConst x) := by
    rw [detAO_eq]
    exact channel_trigger hhyst fun u => sigANext (x u)
  have htrigB : SchmittTrigger hystConst (sampleB x) (detBO hystConst x) := by
    rw [detBO_eq]
    exact channel_trigger hhyst fun u => sigBNext (x u)
  refine ⟨htrigA, htrigB, ?_, ?_, ?_, ?_⟩
  · intro i j hij hi hj
    exact htrigA.swings hij hi hj
  · intro i j hij hi hj
    exact htrigB.swings hij hi hj
  · intro y hsame
    rw [detAO_eq, detAO_eq, funext hsame]
  · intro y hsame
    rw [detBO_eq, detBO_eq, funext hsame]

/-- Samples of the first channel with two rising edges, at `2` and at `4`. -/
def swing (t : Nat) : BitVec (4 + 4) :=
  if t = 1 ∨ t = 3 then 0x0d else if t = 2 then 0x03 else 0x00

theorem schmitt_trigger_swing : RisesAt (detAO 2 swing) 2 ∧ RisesAt (detAO 2 swing) 4 ∧
    ∃ u v, 2 ≤ u ∧ u < v ∧ v < 4 ∧ ((2 : Nat) : Int) < sampleA swing u ∧
      sampleA swing v < -((2 : Nat) : Int) := by
  have hfirst : RisesAt (detAO 2 swing) 2 := ⟨by decide, by decide⟩
  have hsecond : RisesAt (detAO 2 swing) 4 := ⟨by decide, by decide⟩
  obtain ⟨-, -, hswings, -⟩ := @schmitt_trigger 4 2 swing (by decide)
  exact ⟨hfirst, hsecond, hswings 2 4 (by decide) hfirst hsecond⟩

end RpEcosystem.ZeroCross
