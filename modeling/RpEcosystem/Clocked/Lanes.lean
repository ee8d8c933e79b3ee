import Mathlib.Algebra.Ring.Nat

/-!
# Words made of lanes

A wide word holds several narrow ones side by side; lane `0` is the least significant.

* `lane`, `ofLanes`: a lane of a word and the word with given lanes;
* `lane_ofLanes`: the lanes of such a word;
* `ofInt_add_toInt`, `ofInt_add_signExtend`: residues of a running sum.
-/

namespace Clocked

/-- Lane `i` of a word with lanes of `w` bits. -/
def lane {n : Nat} (w i : Nat) (x : BitVec n) : BitVec w := x.extractLsb' (w * i) w

/-- The word with lanes `f 0, …, f (n - 1)`. -/
def ofLanes (w : Nat) (f : Nat → BitVec w) : (n : Nat) → BitVec (w * n)
  | 0 => 0
  | n + 1 => (f n ++ ofLanes w f n).cast (Nat.add_comm w (w * n))

theorem lane_ofLanes {w : Nat} (f : Nat → BitVec w) {n i : Nat} (hi : i < n) :
    lane w i (ofLanes w f n) = f i := by
  induction n with
  | zero => omega
  | succ n ih =>
    apply BitVec.eq_of_getLsbD_eq
    intro j hj
    rw [lane, BitVec.getLsbD_extractLsb', ofLanes, BitVec.getLsbD_cast, BitVec.getLsbD_append,
      decide_eq_true hj, Bool.true_and]
    rcases Nat.lt_succ_iff_lt_or_eq.mp hi with hlt | rfl
    · have hmul : w * i + w ≤ w * n := by
        rw [← Nat.mul_succ]
        exact Nat.mul_le_mul_left w hlt
      rw [if_pos (by omega), ← ih hlt, lane, BitVec.getLsbD_extractLsb', decide_eq_true hj,
        Bool.true_and]
    · rw [if_neg (by omega), Nat.add_sub_cancel_left]

@[simp] theorem lane_zero {n : Nat} (w i : Nat) : lane w i (0 : BitVec n) = 0 := by
  apply BitVec.eq_of_getLsbD_eq
  intro j hj
  simp [lane]

/-- The residue of a sum, from the residue of the sum so far and the next term. -/
theorem ofInt_add_toInt {w : Nat} (total : Int) (x : BitVec w) :
    BitVec.ofInt w total + x = BitVec.ofInt w (total + x.toInt) := by
  rw [BitVec.ofInt_add, BitVec.ofInt_toInt]

theorem ofInt_add_signExtend {v w : Nat} (total : Int) (x : BitVec v) :
    BitVec.ofInt w total + x.signExtend w = BitVec.ofInt w (total + x.toInt) := by
  rw [BitVec.signExtend, BitVec.ofInt_add]

end Clocked
