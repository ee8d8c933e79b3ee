import RpEcosystem.Fifo.Ctrl
import Mathlib.Data.Fintype.EquivFin
import Mathlib.Data.Nat.ModEq

/-!
# The Gray pointers of `fifo_read_ctrl` and `fifo_write_ctrl`

Each side of the controller on its own: a pointer register, and the pointer of the other side as
an input that may be anything.

* `readCtrl`, `writeCtrl`: the two circuits;
* `eq_ptrAt`: a pointer that moves by `gray1` is the code of the number of its steps;
* `sameLap_iff`: slot and lap together tell the counts apart modulo two laps;
* `pointers_sound`: codes, addresses and comparisons.
-/

namespace RpEcosystem.Fifo

open Clocked

variable {g : Generics}

/-- The request of one side and the pointer it gets from the other. -/
structure SideInput (g : Generics) where
  enable : Bool
  ptrIn : Ptr g

/-- `empty_flag` -/
def emptyFlag (wPtrIn rPtrReg : Ptr g) : Bool :=
  wPtrIn.getLsbD g.depth == rPtrReg.getLsbD g.depth &&
    wPtrIn.extractLsb' 0 (g.depth - 1) == rPtrReg.extractLsb' 0 (g.depth - 1) &&
    addrMsb rPtrReg == addrMsb wPtrIn

/-- `full_flag` -/
def fullFlag (rPtrIn wPtrReg : Ptr g) : Bool :=
  rPtrIn.getLsbD g.depth != wPtrReg.getLsbD g.depth &&
    rPtrIn.extractLsb' 0 (g.depth - 1) == wPtrReg.extractLsb' 0 (g.depth - 1) &&
    addrMsb rPtrIn == addrMsb wPtrReg

/-- `rd = '1' and empty_flag = '0'` -/
def readStep (i : SideInput g) (rPtrReg : Ptr g) : Bool := i.enable && !emptyFlag i.ptrIn rPtrReg

/-- `wr = '1' and full_flag = '0'` -/
def writeStep (i : SideInput g) (wPtrReg : Ptr g) : Bool := i.enable && !fullFlag i.ptrIn wPtrReg

/-- `fifo_read_ctrl` -/
def readCtrl (g : Generics) : Machine (SideInput g) (Ptr g) where
  reset := 0
  next i rPtrReg := if readStep i rPtrReg then gray1 rPtrReg else rPtrReg

/-- `fifo_write_ctrl` -/
def writeCtrl (g : Generics) : Machine (SideInput g) (Ptr g) where
  reset := 0
  next i wPtrReg := if writeStep i wPtrReg then gray1 wPtrReg else wPtrReg

/-- The steps that the read side has accepted before cycle `t`. -/
def readSteps (x : Nat → SideInput g) (t : Nat) : Nat :=
  events (fun u => readStep (x u) ((readCtrl g).run x u)) 0 t

/-- The steps that the write side has accepted before cycle `t`. -/
def writeSteps (x : Nat → SideInput g) (t : Nat) : Nat :=
  events (fun u => writeStep (x u) ((writeCtrl g).run x u)) 0 t

/-- The two sides in the controller: each moves at the edges of its own clock. -/
theorem next_eq_sides (e : Event) (r : Ctrl g) :
    (next e r).rPtrReg =
        (if e.clkr then (readCtrl g).next ⟨e.rd, r.wPtrIn⟩ r.rPtrReg else r.rPtrReg) ∧
      (next e r).wPtrReg =
        (if e.clkw then (writeCtrl g).next ⟨e.wr, r.rPtrIn⟩ r.wPtrReg else r.wPtrReg) :=
  ⟨rfl, rfl⟩

/-! ## Codes -/

/-- A pointer that moves by `gray1` is the code of the number of its steps. -/
theorem eq_ptrAt {ptr : Nat → Ptr g} {step : Nat → Bool} (h0 : ptr 0 = 0)
    (hstep : ∀ t, ptr (t + 1) = if step t then gray1 (ptr t) else ptr t) (t : Nat) :
    ptr t = ptrAt g (events step 0 t) := by
  induction t with
  | zero => simp [h0, ptrAt, gray]
  | succ t ih =>
    rw [hstep, events_succ _ (Nat.zero_le t), ih]
    cases step t with
    | true => exact gray1_ptrAt _
    | false => rfl

/-- The code only depends on the number modulo two laps. -/
theorem ptrAt_mod (k : Nat) : ptrAt g (k % 2 ^ (g.depth + 1)) = ptrAt g k := by
  rw [ptrAt, ptrAt]
  congr 1
  apply BitVec.eq_of_toNat_eq
  rw [BitVec.toNat_ofNat, BitVec.toNat_ofNat, Nat.mod_mod]

/-- Consecutive pointers differ in one bit. -/
theorem ptrAt_succ_differs (k : Nat) :
    ∃! b, (ptrAt g k).getLsbD b ≠ (ptrAt g (k + 1)).getLsbD b := by
  have hsucc : ptrAt g (k + 1) = gray (BitVec.ofNat _ k + 1) := by
    rw [ptrAt, BitVec.ofNat_add]
    rfl
  rw [hsucc]
  exact gray_add_one_differs (Nat.succ_pos _) _

/-! ## Addresses -/

theorem addrAll_bijective (g : Generics) :
    Function.Bijective fun k : Fin (2 ^ g.depth) => addrAll (ptrAt g k) := by
  constructor
  · intro j k h
    have hmod := addrAll_ptrAt_inj.mp h
    rw [Nat.mod_eq_of_lt j.isLt, Nat.mod_eq_of_lt k.isLt] at hmod
    exact Fin.ext hmod
  · intro a
    refine ⟨⟨(ungray a).toNat, (ungray a).isLt⟩, ?_⟩
    change addrAll (ptrAt g (ungray a).toNat) = a
    rw [addrAll_ptrAt, BitVec.ofNat_toNat, BitVec.setWidth_eq, gray_ungray]

/-! ## Comparisons -/

/-- Slot and lap together tell the counts apart modulo two laps. -/
theorem mod_lap_inj {j k : Nat} :
    j % 2 ^ (g.depth + 1) = k % 2 ^ (g.depth + 1) ↔
      j % 2 ^ g.depth = k % 2 ^ g.depth ∧ j / 2 ^ g.depth % 2 = k / 2 ^ g.depth % 2 := by
  rw [Nat.mod_pow_succ, Nat.mod_pow_succ]
  constructor
  · intro h
    have hj : j % 2 ^ g.depth < 2 ^ g.depth := Nat.mod_lt _ (Nat.two_pow_pos _)
    have hk : k % 2 ^ g.depth < 2 ^ g.depth := Nat.mod_lt _ (Nat.two_pow_pos _)
    have hmod := congrArg (· % 2 ^ g.depth) h
    simp only [Nat.add_mul_mod_self_left, Nat.mod_eq_of_lt hj, Nat.mod_eq_of_lt hk] at hmod
    rw [hmod, Nat.add_left_cancel_iff] at h
    exact ⟨hmod, Nat.eq_of_mul_eq_mul_left (Nat.two_pow_pos _) h⟩
  · rintro ⟨hmod, hdiv⟩
    rw [hmod, hdiv]

/-- The empty comparison, for any two counts. -/
theorem emptyFlag_ptrAt (j k : Nat) : emptyFlag (ptrAt g k) (ptrAt g j) = true ↔
    j % 2 ^ (g.depth + 1) = k % 2 ^ (g.depth + 1) := by
  -- the flag of the controller in a state with these two pointers
  let r : Ctrl g := ⟨ptrAt g j, ptrAt g k, ⟨ptrAt g k, ptrAt g k⟩, ⟨ptrAt g j, ptrAt g j⟩⟩
  have hflag := r.emptyFlag_iff_same
  change emptyFlag (ptrAt g k) (ptrAt g j) = true ↔ (ptrAt g j).getLsbD g.depth =
    (ptrAt g k).getLsbD g.depth ∧ addrAll (ptrAt g j) = addrAll (ptrAt g k) at hflag
  rw [hflag, sameTop_ptrAt, addrAll_ptrAt_inj, mod_lap_inj, and_comm]

/-- The full comparison, for any two counts. -/
theorem fullFlag_ptrAt (j k : Nat) : fullFlag (ptrAt g j) (ptrAt g k) = true ↔
    k % 2 ^ (g.depth + 1) = (j + 2 ^ g.depth) % 2 ^ (g.depth + 1) := by
  let r : Ctrl g := ⟨ptrAt g j, ptrAt g k, ⟨ptrAt g k, ptrAt g k⟩, ⟨ptrAt g j, ptrAt g j⟩⟩
  have hflag := r.fullFlag_iff_same
  change fullFlag (ptrAt g j) (ptrAt g k) = true ↔ ¬ (ptrAt g j).getLsbD g.depth =
    (ptrAt g k).getLsbD g.depth ∧ addrAll (ptrAt g j) = addrAll (ptrAt g k) at hflag
  rw [hflag, sameTop_ptrAt, addrAll_ptrAt_inj, mod_lap_inj, Nat.add_mod_right,
    Nat.add_div_right _ (Nat.two_pow_pos _)]
  omega

/-! ## Both sides -/

/-- The pointers of the FIFO: each is the Gray code of its accepted steps, consecutive ones differ
in one bit, the address is a bijection of the steps modulo one lap, and the two comparisons hold
for counts that agree, or are a lap apart, modulo two laps. -/
theorem pointers_sound (g : Generics) :
    (∀ x t, (readCtrl g).run x t =
        gray (BitVec.ofNat (g.depth + 1) (readSteps x t % 2 ^ (g.depth + 1)))) ∧
      (∀ x t, (writeCtrl g).run x t =
        gray (BitVec.ofNat (g.depth + 1) (writeSteps x t % 2 ^ (g.depth + 1)))) ∧
      (∀ i, ∃! b, (ptrAt g i).getLsbD b ≠ (ptrAt g (i + 1)).getLsbD b) ∧
      (∀ i, addrAll (ptrAt g i) = addrAll (ptrAt g (i % 2 ^ g.depth))) ∧
      (Function.Bijective fun k : Fin (2 ^ g.depth) => addrAll (ptrAt g k)) ∧
      (∀ i j, emptyFlag (ptrAt g j) (ptrAt g i) = true ↔
        i % 2 ^ (g.depth + 1) = j % 2 ^ (g.depth + 1)) ∧
      ∀ i j, fullFlag (ptrAt g j) (ptrAt g i) = true ↔
        i % 2 ^ (g.depth + 1) = (j + 2 ^ g.depth) % 2 ^ (g.depth + 1) := by
  refine ⟨?_, ?_, ptrAt_succ_differs, ?_, addrAll_bijective g, emptyFlag_ptrAt, ?_⟩
  · intro x t
    have hcode := eq_ptrAt ((readCtrl g).run_zero x) ((readCtrl g).run_succ x) t
    rw [hcode]
    exact (ptrAt_mod _).symm
  · intro x t
    have hcode := eq_ptrAt ((writeCtrl g).run_zero x) ((writeCtrl g).run_succ x) t
    rw [hcode]
    exact (ptrAt_mod _).symm
  · intro i
    rw [addrAll_ptrAt_inj, Nat.mod_mod]
  · intro i j
    exact fullFlag_ptrAt j i

end RpEcosystem.Fifo
