import RpEcosystem.Clocked.Machine
import Mathlib.Logic.Function.Iterate
import Mathlib.Data.Nat.Find

/-!
# Gray codes

The reflected Gray code of a word and its inverse, for every width. The inverse is computed
as a circuit does it, by a wire that feeds back into itself one bit lower: `ungray g` is the
value on which the assignment `b <= g xor (b >> 1)` settles, whatever it starts from
(`ungray_eq`, `ungray_unique`). The codes of a number and of its successor differ in one bit, the
wrap of the register included (`gray_add_one_differs`).
-/

namespace Clocked

variable {w : Nat}

/-- The reflected Gray code. -/
def gray (x : BitVec w) : BitVec w := x ^^^ (x >>> 1)

theorem getLsbD_gray (x : BitVec w) (i : Nat) :
    (gray x).getLsbD i = (x.getLsbD i ^^ x.getLsbD (i + 1)) := by
  rw [gray, BitVec.getLsbD_xor, BitVec.getLsbD_ushiftRight, Nat.add_comm]

/-- One evaluation of `b <= g xor (b >> 1)`. -/
def ungrayStep (g b : BitVec w) : BitVec w := g ^^^ (b >>> 1)

/-- The inverse of `gray`: each evaluation settles one more bit, from the highest down. -/
def ungray (g : BitVec w) : BitVec w := (ungrayStep g)^[w] 0

/-- After `n` evaluations the highest `n` bits no longer depend on the start. -/
theorem ungrayStep_settles (g b c : BitVec w) (n i : Nat) (hi : w ≤ i + n) :
    ((ungrayStep g)^[n] b).getLsbD i = ((ungrayStep g)^[n] c).getLsbD i := by
  induction n generalizing i with
  | zero =>
    have hge : w ≤ i := hi
    rw [BitVec.getLsbD_of_ge _ _ hge, BitVec.getLsbD_of_ge _ _ hge]
  | succ n ih =>
    rw [Function.iterate_succ_apply', Function.iterate_succ_apply', ungrayStep, ungrayStep,
      BitVec.getLsbD_xor, BitVec.getLsbD_xor, BitVec.getLsbD_ushiftRight,
      BitVec.getLsbD_ushiftRight, ih (1 + i) (by omega)]

theorem ungray_eq (g : BitVec w) : ungray g = ungrayStep g (ungray g) := by
  apply BitVec.eq_of_getLsbD_eq
  intro i _
  rw [ungray, ← Function.iterate_succ_apply' (ungrayStep g) w 0, Function.iterate_succ_apply]
  exact ungrayStep_settles g _ _ w i (by omega)

theorem ungray_unique {g b : BitVec w} (h : ungrayStep g b = b) : b = ungray g := by
  apply BitVec.eq_of_getLsbD_eq
  intro i _
  have hfixed : (ungrayStep g)^[w] b = b := Function.iterate_fixed h w
  rw [← hfixed]
  exact ungrayStep_settles g b 0 w i (by omega)

@[simp] theorem ungray_gray (b : BitVec w) : ungray (gray b) = b := by
  have hstep : ungrayStep (gray b) b = b := by
    rw [ungrayStep, gray, BitVec.xor_assoc, BitVec.xor_self, BitVec.xor_zero]
  exact (ungray_unique hstep).symm

@[simp] theorem gray_ungray (g : BitVec w) : gray (ungray g) = g := by
  have hfixed : g ^^^ (ungray g >>> 1) = ungray g := (ungray_eq g).symm
  calc ungray g ^^^ (ungray g >>> 1)
      = g ^^^ (ungray g >>> 1) ^^^ (ungray g >>> 1) := by rw [hfixed]
    _ = g := by rw [BitVec.xor_assoc, BitVec.xor_self, BitVec.xor_zero]

theorem gray_inj {x y : BitVec w} : gray x = gray y ↔ x = y := by
  constructor
  · intro h
    rw [← ungray_gray x, h, ungray_gray]
  · rintro rfl
    rfl

/-! ## Successors -/

/-- A carry runs into bit `i` of `x + 1`. -/
def Ripples (x : BitVec w) (i : Nat) : Prop := ∀ j < i, x.getLsbD j = true

instance (x : BitVec w) (i : Nat) : Decidable (Ripples x i) :=
  inferInstanceAs (Decidable (∀ j < i, _))

theorem ripples_succ {x : BitVec w} {i : Nat} :
    Ripples x (i + 1) ↔ Ripples x i ∧ x.getLsbD i = true := by
  constructor
  · intro h
    exact ⟨fun j hj => h j (Nat.lt_succ_of_lt hj), h i (Nat.lt_succ_self i)⟩
  · rintro ⟨hlow, hi⟩ j hj
    rcases Nat.lt_succ_iff_lt_or_eq.mp hj with hlt | rfl
    · exact hlow j hlt
    · exact hi

theorem getLsbD_add_one (x : BitVec w) {i : Nat} (hi : i < w) :
    (x + 1).getLsbD i = (x.getLsbD i ^^ decide (Ripples x i)) := by
  change (x + 1#w).getLsbD i = _
  rw [BitVec.getLsbD_add hi]
  cases i with
  | zero => simp [Ripples, hi]
  | succ i =>
    have hiff : Ripples x (i + 1) ↔ ∀ j, j ≤ i → x.getLsbD j = true :=
      ⟨fun h j hj => h j (Nat.lt_succ_of_le hj), fun h j hj => h j (Nat.le_of_lt_succ hj)⟩
    have hone : (1#w).getLsbD (i + 1) = false := by simp
    rw [BitVec.carry_succ_one i x (by omega), hone, Bool.false_xor]
    congr 1
    exact decide_eq_decide.2 hiff.symm

/-- The bit that changes is the lowest zero, or the highest bit when there is none below it. -/
theorem gray_differs_iff (x : BitVec w) {i : Nat} (hi : i < w) :
    (gray x).getLsbD i ≠ (gray (x + 1)).getLsbD i ↔
      Ripples x i ∧ (i + 1 < w → x.getLsbD i = false) := by
  rw [getLsbD_gray, getLsbD_gray, getLsbD_add_one x hi]
  by_cases htop : i + 1 < w
  · rw [getLsbD_add_one x htop]
    simp only [ripples_succ, htop, forall_const]
    by_cases hr : Ripples x i <;> cases x.getLsbD i <;> cases x.getLsbD (i + 1) <;> simp [hr]
  · have hx : x.getLsbD (i + 1) = false := BitVec.getLsbD_of_ge _ _ (by omega)
    have hx' : (x + 1).getLsbD (i + 1) = false := BitVec.getLsbD_of_ge _ _ (by omega)
    rw [hx, hx']
    by_cases hr : Ripples x i <;> cases x.getLsbD i <;> simp [hr, htop]

theorem gray_add_one_differs (hw : 0 < w) (x : BitVec w) :
    ∃! i, (gray x).getLsbD i ≠ (gray (x + 1)).getLsbD i := by
  -- the first index that is a zero of `x` or the top of the register
  have hex : ∃ i, i + 1 < w → x.getLsbD i = false := ⟨w, fun h => by omega⟩
  have hle : Nat.find hex ≤ w - 1 := Nat.find_min' hex fun h => by omega
  have hlt : Nat.find hex < w := by omega
  refine ⟨Nat.find hex, (gray_differs_iff x hlt).mpr ⟨?_, Nat.find_spec hex⟩, ?_⟩
  · intro j hj
    have hbefore := Nat.find_min hex hj
    push Not at hbefore
    exact eq_true_of_ne_false hbefore.2
  · intro i hdiff
    have hi : i < w := by
      by_contra hge
      apply hdiff
      rw [BitVec.getLsbD_of_ge _ _ (by omega), BitVec.getLsbD_of_ge _ _ (by omega)]
    obtain ⟨hr, hzero⟩ := (gray_differs_iff x hi).mp hdiff
    apply le_antisymm
    · by_contra hgt
      have hspec := Nat.find_spec hex (by omega)
      rw [hr _ (by omega)] at hspec
      cases hspec
    · exact Nat.find_min' hex hzero

end Clocked
