import RpEcosystem.Clocked.Machine
import RpEcosystem.Clocked.Stream
import Mathlib.Dynamics.PeriodicPts.Lemmas

/-!
# Pseudo random words: `axis_lfsr`

A shift register whose new bit is the exclusive nor of the two bits below the highest one. The
highest bit takes part in nothing, it is the bit below it one word ago. The other bits are a
feedback shift register of their own: their step can be undone, so they return to where they began
and never come into the state of all ones, which would stay.

* `shift`, `Input`, `Regs`, `machine`: the circuit;
* `low`, `turn`, `turn_injective`: the bits below the highest one;
* `delivers_sequence`: the words on the stream.
-/

namespace RpEcosystem.Lfsr

open Clocked

/-- `AXIS_TDATA_WIDTH` is `n + 3`. -/
abbrev Data (n : Nat) := BitVec (n + 3)

structure Regs (n : Nat) where
  intLfsrReg : Data n
  intEnblReg : Bool
  deriving DecidableEq, Repr

variable {n : Nat}

/-- `tmp_sig`. -/
def tmpSig (v : Data n) : Bool := !(v.getLsbD (n + 1) ^^ v.getLsbD n)

/-- The register with the new bit shifted in. -/
def shift (v : Data n) : Data n := v.extractLsb' 0 (n + 2) ++ BitVec.ofBool (tmpSig v)

def seed (n : Nat) : Data n := BitVec.ofNat (n + 3) 5

def intLfsrNext (hasTready mAxisTready : Bool) (s : Regs n) : Data n :=
  if s.intEnblReg && (!hasTready || mAxisTready) then shift s.intLfsrReg else s.intLfsrReg

def intEnblNext (s : Regs n) : Bool := if !s.intEnblReg then true else s.intEnblReg

/-- The core with `HAS_TREADY`; its only input is `m_axis_tready`. -/
def machine (hasTready : Bool) (n : Nat) : Machine Bool (Regs n) where
  reset := ⟨seed n, false⟩
  next mAxisTready s := ⟨intLfsrNext hasTready mAxisTready s, intEnblNext s⟩

def run (hasTready : Bool) (n : Nat) (x : Nat → Bool) (t : Nat) : Regs n :=
  (machine hasTready n).run x t

def transfer (mAxisTready : Bool) (s : Regs n) : Option (Data n) :=
  if s.intEnblReg && mAxisTready then some s.intLfsrReg else none

/-- The words transferred before cycle `t`. -/
def sent (hasTready : Bool) (n : Nat) (x : Nat → Bool) (t : Nat) : List (Data n) :=
  transfers (fun u => transfer (x u) (run hasTready n x u)) 0 t

/-! ## The bits below the highest one -/

def low (v : Data n) : BitVec (n + 2) := v.extractLsb' 0 (n + 2)

/-- The step of these bits. -/
def turn (v : BitVec (n + 2)) : BitVec (n + 2) :=
  v.extractLsb' 0 (n + 1) ++ BitVec.ofBool (!(v.getLsbD (n + 1) ^^ v.getLsbD n))

theorem getLsbD_append_ofBool {m : Nat} (v : BitVec m) (b : Bool) :
    (v ++ BitVec.ofBool b).getLsbD 0 = b ∧
      ∀ i, (v ++ BitVec.ofBool b).getLsbD (i + 1) = v.getLsbD i := by
  refine ⟨?_, fun i => ?_⟩
  · rw [BitVec.getLsbD_append, if_pos (by decide), BitVec.getLsbD_ofBool]
    simp
  · rw [BitVec.getLsbD_append, if_neg (by omega), Nat.add_sub_cancel]

theorem getLsbD_turn_zero (v : BitVec (n + 2)) :
    (turn v).getLsbD 0 = !(v.getLsbD (n + 1) ^^ v.getLsbD n) :=
  (getLsbD_append_ofBool _ _).1

theorem getLsbD_turn_succ (v : BitVec (n + 2)) {i : Nat} (hi : i ≤ n) :
    (turn v).getLsbD (i + 1) = v.getLsbD i := by
  rw [turn, (getLsbD_append_ofBool _ _).2, BitVec.getLsbD_extractLsb']
  simp [Nat.lt_succ_of_le hi]

theorem getLsbD_low (v : Data n) {i : Nat} (hi : i < n + 2) : (low v).getLsbD i = v.getLsbD i := by
  rw [low, BitVec.getLsbD_extractLsb']
  simp [hi]

theorem low_shift (v : Data n) : low (shift v) = turn (low v) := by
  apply BitVec.eq_of_getLsbD_eq
  intro i hi
  cases i with
  | zero =>
    rw [getLsbD_turn_zero, getLsbD_low _ hi, getLsbD_low _ (by omega), getLsbD_low _ (by omega)]
    exact (getLsbD_append_ofBool _ _).1
  | succ i =>
    rw [getLsbD_turn_succ _ (by omega), getLsbD_low _ hi, shift, (getLsbD_append_ofBool _ _).2]
    rfl

theorem low_iterate (v : Data n) (k : Nat) : low (shift^[k] v) = turn^[k] (low v) := by
  induction k with
  | zero => rfl
  | succ k ih => rw [Function.iterate_succ_apply', Function.iterate_succ_apply', low_shift, ih]

/-- The step can be undone. -/
theorem turn_injective : Function.Injective (turn (n := n)) := by
  intro v v' h
  have hlow : ∀ i, i ≤ n → v.getLsbD i = v'.getLsbD i := by
    intro i hi
    rw [← getLsbD_turn_succ v hi, h, getLsbD_turn_succ v' hi]
  have hhigh : v.getLsbD (n + 1) = v'.getLsbD (n + 1) := by
    have hbit := getLsbD_turn_zero v
    rw [h, getLsbD_turn_zero, hlow n le_rfl] at hbit
    simpa using hbit.symm
  apply BitVec.eq_of_getLsbD_eq
  intro i hi
  rcases Nat.lt_or_ge n i with hlt | hle
  · rw [show i = n + 1 by omega, hhigh]
  · exact hlow i hle

theorem turn_allOnes : turn (BitVec.allOnes (n + 2)) = BitVec.allOnes (n + 2) := by
  apply BitVec.eq_of_getLsbD_eq
  intro i hi
  cases i with
  | zero => simp [getLsbD_turn_zero]
  | succ i =>
    rw [getLsbD_turn_succ _ (by omega)]
    simp [hi, show i < n + 2 by omega]

/-- The state of all ones is not reached. -/
theorem iterate_ne_allOnes {v : BitVec (n + 2)} (hv : v ≠ BitVec.allOnes (n + 2)) (k : Nat) :
    turn^[k] v ≠ BitVec.allOnes (n + 2) := by
  induction k with
  | zero => exact hv
  | succ k ih =>
    rw [Function.iterate_succ_apply', ← turn_allOnes]
    exact fun h => ih (turn_injective h)

theorem low_seed_ne : low (seed n) ≠ BitVec.allOnes (n + 2) := by
  intro h
  have hbit := congrArg (fun v => v.getLsbD 1) h
  simp only [getLsbD_low _ (show 1 < n + 2 by omega), seed, BitVec.getLsbD_ofNat,
    BitVec.getLsbD_allOnes] at hbit
  simp [Nat.testBit] at hbit

/-! ## The stream -/

/-- The register holds the word that follows the ones transferred. -/
theorem register_eq {hasTready : Bool} {x : Nat → Bool}
    (hx : hasTready = true ∨ ∀ t, x t = true) (t : Nat) :
    (run hasTready n x t).intEnblReg = decide (0 < t) ∧
      (run hasTready n x t).intLfsrReg = shift^[(sent hasTready n x t).length] (seed n) ∧
      sent hasTready n x t =
        (List.range (sent hasTready n x t).length).map fun k => shift^[k] (seed n) := by
  induction t with
  | zero => exact ⟨rfl, rfl, rfl⟩
  | succ t ih =>
    obtain ⟨henbl, hreg, hsent⟩ := ih
    have hready : (!hasTready || x t) = x t := by
      rcases hx with hx | hx
      · rw [hx]
        rfl
      · rw [hx t, Bool.or_true]
    have hsucc : sent hasTready n x (t + 1) =
        sent hasTready n x t ++ (transfer (x t) (run hasTready n x t)).toList :=
      transfers_succ _ (Nat.zero_le t)
    have hnext : run hasTready n x (t + 1) =
        ⟨intLfsrNext hasTready (x t) (run hasTready n x t),
          intEnblNext (run hasTready n x t)⟩ := rfl
    rw [hsucc, hnext, intLfsrNext, intEnblNext, hready, transfer]
    cases hpass : (run hasTready n x t).intEnblReg && x t with
    | false => exact ⟨by simp, by simpa using hreg, by simpa using hsent⟩
    | true =>
      refine ⟨by simp, ?_, ?_⟩
      · simp [hreg, Function.iterate_succ_apply']
      · simp only [if_true, Option.toList_some, List.length_append, List.length_singleton,
          List.range_succ, List.map_append, List.map_singleton]
        rw [← hsent, hreg]

/-- **The sequence.** However the receiver stalls, the words are those of the shift register from
its seed on, in order and without gaps. Their bits below the highest one come back after some number
of words and are never all ones. A core without `tready` needs a receiver that is always ready. -/
theorem delivers_sequence {hasTready : Bool} {x : Nat → Bool}
    (hx : hasTready = true ∨ ∀ t, x t = true) :
    (∀ t, sent hasTready n x t =
        (List.range (sent hasTready n x t).length).map fun k => shift^[k] (seed n)) ∧
      (∃ p, 0 < p ∧ ∀ k, low (shift^[k + p] (seed n)) = low (shift^[k] (seed n))) ∧
      ∀ k, low (shift^[k] (seed n)) ≠ BitVec.allOnes (n + 2) := by
  refine ⟨fun t => (register_eq hx t).2.2, ?_, ?_⟩
  · have hfinite : Finite (BitVec (n + 2)) :=
      Finite.of_injective BitVec.toFin fun _ _ h => BitVec.eq_of_toFin_eq h
    obtain ⟨p, hpos, hperiod⟩ :=
      Function.mem_periodicPts.mp (turn_injective.mem_periodicPts (low (seed n)))
    refine ⟨p, hpos, fun k => ?_⟩
    rw [low_iterate, low_iterate, Function.iterate_add_apply]
    exact congrArg _ hperiod
  · intro k
    rw [low_iterate]
    exact iterate_ne_allOnes low_seed_ne k

/-- A receiver that takes every third word. -/
def stalling (t : Nat) : Bool := t % 3 = 0

theorem delivers_sequence_stalling :
    sent true 61 stalling 10 = (List.range 3).map fun k => shift^[k] (seed 61) :=
  (@delivers_sequence 61 true stalling (.inl rfl)).1 10

end RpEcosystem.Lfsr
