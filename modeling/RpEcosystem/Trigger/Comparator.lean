import RpEcosystem.Trigger.Snapshot

/-!
# The comparator as a signed test

The comparison of entry 10 with the level is split into an equality of the sign bits and a
comparison of the 15 bits below them; the comparisons of the nine older entries read the same 15
bits and no sign. On padded samples the lower 15 bits already are the signed value, so the
equality of the signs adds nothing where a sample and a level of one sign are compared, and
refuses a sample that is not negative under a level that is: a pulse that rises in one cycle from
below a negative level to zero or above does not trigger.

* `tr_window`: the comparator on a window of samples;
* `comparator_iff`: the signed rising-edge test, and exactly when it is met.
-/

namespace RpEcosystem.Trigger

variable {g : Generics}

/-- The level of a channel as a signed number: the low 14 bits of its port. -/
def ChannelIn.signedLevel (i : ChannelIn) : Int := (i.trigLvlI.extractLsb' 0 14).toInt

theorem msb_pad (v : BitVec 14) : (pad v).msb = decide (v.toInt < 0) := by
  rw [BitVec.msb_eq_toInt, toInt_pad]

/-- The comparator on a window of padded samples. -/
theorem tr_window {r : Regs g} {i : Input} {s : Side} {v : Fin 11 → BitVec 14}
    (hv : ∀ k, (r.chan s).dat k = pad (v k)) : r.tr i s = true ↔
      ((v 10).toInt < 0 ↔ (i.chan s).signedLevel < 0) ∧
      (i.chan s).signedLevel ≤ (v 10).toInt ∧
      ∀ k : Fin 11, 1 ≤ k.val → k.val < 10 → (v k).toInt < (i.chan s).signedLevel := by
  rw [Regs.tr, Channel.tr_iff]
  simp only [hv, level, msb_pad, BitVec.sle_iff_toInt_le, BitVec.slt_iff_toInt_lt, toInt_low15_pad,
    toInt_pad, decide_eq_decide, ChannelIn.signedLevel]

/-- On every window of sign-extended samples and for every level, on both channels: the
comparator is the signed test that entry 10 has reached the level and the nine older entries
have not, unless entry 10 has crossed a negative level and is itself not negative. -/
theorem comparator_iff (g : Generics) (r : Regs g) (i : Input) (s : Side) (v : Fin 11 → BitVec 14)
    (hv : ∀ k, (r.chan s).dat k = pad (v k)) :
    (r.tr i s = true ↔ (i.chan s).signedLevel ≤ (v 10).toInt ∧
        ∀ k : Fin 11, 1 ≤ k.val → k.val < 10 → (v k).toInt < (i.chan s).signedLevel) ↔
      (0 ≤ (i.chan s).signedLevel ∨ (v 10).toInt < 0 ∨
        ∃ k : Fin 11, 1 ≤ k.val ∧ k.val < 10 ∧ (i.chan s).signedLevel ≤ (v k).toInt) := by
  rw [tr_window hv]
  constructor
  · intro h
    by_contra hbad
    simp only [not_or, not_exists, not_and, Int.not_le, Int.not_lt] at hbad
    obtain ⟨hneg, hpos, hbelow⟩ := hbad
    have hsigns := (h.2 ⟨by omega, hbelow⟩).1
    omega
  · rintro (hlvl | hneg | ⟨k, h1, h10, hk⟩)
    · exact ⟨And.right, fun h => ⟨by omega, h⟩⟩
    · exact ⟨And.right, fun h => ⟨by omega, h⟩⟩
    · refine ⟨And.right, fun h => ?_⟩
      have hbelow := h.2 k h1 h10
      omega

/-- A window with `w` in entry 10 and `u` in the others. -/
def edgeSamples (u w : BitVec 14) (k : Fin 11) : BitVec 14 := if k.val = 10 then w else u

/-- Both channels hold such a window. -/
def Regs.edge (u w : BitVec 14) : Regs .smallest :=
  { Regs.reset .smallest with
    a := { Channel.reset .smallest with adcDatReg := fun k => pad (edgeSamples u w k) }
    b := { Channel.reset .smallest with adcDatReg := fun k => pad (edgeSamples u w k) } }

/-- The ports with both levels at `lvl`. -/
def Input.levels (lvl : BitVec 16) : Input :=
  { Input.quiet 1 0 with a := ⟨lvl, 8190, 1⟩, b := ⟨lvl, 8190, 1⟩ }

theorem edge_dat (u w : BitVec 14) (s : Side) (k : Fin 11) :
    ((Regs.edge u w).chan s).dat k = pad (edgeSamples u w k) := by
  cases s <;> rfl

/-- From -10 to 3 over a level of -5. -/
theorem comparator_misses :
    ¬ ((Regs.edge (-10) 3).tr (Input.levels (-5)) .a = true ↔
      ((Input.levels (-5)).chan .a).signedLevel ≤ (edgeSamples (-10) 3 10).toInt ∧
        ∀ k : Fin 11, 1 ≤ k.val → k.val < 10 →
          (edgeSamples (-10) 3 k).toInt < ((Input.levels (-5)).chan .a).signedLevel) := by
  decide

theorem comparator_iff_positive : (Regs.edge 2 7).tr (Input.levels 5) .b = true := by
  have hiff := (comparator_iff .smallest (Regs.edge 2 7) (Input.levels 5) .b (edgeSamples 2 7)
    (edge_dat 2 7 .b)).2 (Or.inl (by decide))
  exact hiff.2 (by decide)

end RpEcosystem.Trigger
