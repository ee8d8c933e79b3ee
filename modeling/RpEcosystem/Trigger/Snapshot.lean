import RpEcosystem.Trigger.Packets
import RpEcosystem.Trigger.Ready
import RpEcosystem.Trigger.Scaler

/-!
# A trigger packet is a snapshot

The window is a delay line: entry `k` in cycle `t` is the input register of `D - k` cycles
earlier (`adcDatReg_eq`, where the cycles before reset read as the reset value). It keeps
moving while the FSM sends its oldest entry, one per cycle, so the packet is the contents of
the input registers over `D` consecutive cycles.

The comparator fires two cycles before the FSM opens the packet, on entry 10; in the packet
that sample is word 8 (`snapshot`).
-/

namespace RpEcosystem.Trigger

open Clocked

variable {g : Generics} {x : Nat → Input}

/-! ## Padded samples -/

theorem low15_pad (v : BitVec 14) : low15 (pad v) = v.signExtend 15 := by
  apply BitVec.eq_of_getLsbD_eq
  intro i hi
  have : i < 16 := by omega
  simp only [low15, pad, BitVec.getLsbD_extractLsb', BitVec.getLsbD_signExtend, Nat.zero_add, hi,
    this, decide_true, Bool.true_and]

theorem low14_pad (v : BitVec 14) : (pad v).extractLsb' 0 14 = v := by
  apply BitVec.eq_of_getLsbD_eq
  intro i hi
  have : i < 16 := by omega
  simp only [pad, BitVec.getLsbD_extractLsb', BitVec.getLsbD_signExtend, Nat.zero_add, hi, this,
    decide_true, Bool.true_and, if_true]

theorem toInt_pad (v : BitVec 14) : (pad v).toInt = v.toInt :=
  BitVec.toInt_signExtend_of_le (by omega)

theorem toInt_low15_pad (v : BitVec 14) : (low15 (pad v)).toInt = (pad v).toInt := by
  rw [low15_pad, toInt_pad, BitVec.toInt_signExtend_of_le (by omega)]

/-- The input registers hold padded samples. -/
theorem adcReg_pad (g : Generics) (x : Nat → Input) (s : Side) (t : Nat) :
    ∃ v, ((run g x t).chan s).adcReg = pad v := by
  apply (machine g).run_invariant (P := fun r => ∃ v, (r.chan s).adcReg = pad v) x
  · exact ⟨0, by simp [machine, Channel.reset, pad]⟩
  · rintro t r ⟨v, hv⟩
    simp only [machine, next_chan, Channel.next]
    split
    · exact ⟨_, rfl⟩
    · exact ⟨v, hv⟩

/-! ## The window as a delay line -/

theorem adcDatReg_eq (g : Generics) (x : Nat → Input) (s : Side) (t : Nat)
    (k : Fin g.dataArrayLength) :
    ((run g x t).chan s).adcDatReg k =
      ((run g x (t - (g.dataArrayLength - k.val))).chan s).adcReg := by
  induction t generalizing k with
  | zero => simp [Channel.reset]
  | succ t ih =>
    have hk := k.isLt
    rw [run_succ, next_chan]
    simp only [Channel.next]
    split_ifs with h
    · rw [ih]
      have : t - (g.dataArrayLength - (k.val + 1)) = t + 1 - (g.dataArrayLength - k.val) := by omega
      simp only [this]
    · have : t + 1 - (g.dataArrayLength - k.val) = t := by omega
      rw [this]

theorem dat_eq (g : Generics) (x : Nat → Input) (s : Side) (t : Nat) (k : Fin 11) :
    ((run g x t).chan s).dat k =
      ((run g x (t - (g.dataArrayLength - k.val))).chan s).adcReg :=
  adcDatReg_eq g x s t (k.castLE g.window)

/-- The sample of a channel in a data word, extended to the width of the input register. -/
def sampleOf (w : Word) : Side → BitVec 16
  | .a => pad (w.extractLsb' 0 14)
  | .b => pad (w.extractLsb' 16 14)

/-- The sign bits, sent apart from the other bits, rejoin them. -/
theorem sampleWord_eq (r : Regs g) : r.sampleWord =
    (0b00#2 ++ (r.b.dat 0).extractLsb' 0 14) ++ (0b00#2 ++ (r.a.dat 0).extractLsb' 0 14) := by
  have hjoin : ∀ v : BitVec 16, v.extractLsb' 13 1 ++ v.extractLsb' 0 13 = v.extractLsb' 0 14 :=
    fun v => BitVec.extractLsb'_append_extractLsb'_eq_extractLsb' rfl
  rw [← hjoin, ← hjoin]
  simp only [Regs.sampleWord, BitVec.append_assoc, BitVec.cast_eq]

theorem sampleWord_fields (r : Regs g) (s : Side) :
    sampleOf r.sampleWord s = pad (((r.chan s).dat 0).extractLsb' 0 14) := by
  rw [sampleWord_eq]
  cases s with
  | a =>
    rw [sampleOf, BitVec.extractLsb'_append_eq_of_add_le (by omega),
      BitVec.extractLsb'_append_eq_right]
    rfl
  | b =>
    rw [sampleOf, BitVec.extractLsb'_append_eq_of_le (by omega),
      BitVec.extractLsb'_append_eq_right]
    rfl

theorem sampleOf_sampleWord (t : Nat) (s : Side) :
    sampleOf (run g x t).sampleWord s = ((run g x (t - g.dataArrayLength)).chan s).adcReg := by
  obtain ⟨v, hv⟩ := adcReg_pad g x s (t - g.dataArrayLength)
  have hdat : ((run g x t).chan s).dat 0 = pad v := by
    rw [dat_eq, ← hv]
    rfl
  rw [sampleWord_fields, hdat, low14_pad, hv]

/-! ## Packets -/

theorem Opens.word (hready : AlwaysReady x) (hD : g.dataArrayLength ≤ 256) {t j : Nat}
    (h : Opens g x t) (hj : j < g.dataArrayLength) :
    output g x (t + 2 + j) = some (run g x (t + 1 + j)).sampleWord := by
  obtain ⟨hstate, -⟩ := array_run hready rfl hD (h.starts hready) j hj
  rw [show t + 2 + j = t + 1 + j + 1 by omega, output_succ hready, hstate]
  simp [Regs.sendWord, hstate, State.word]

/-- The input port takes samples until the packet has opened, and again after its end. -/
theorem Opens.axisTready (hready : AlwaysReady x) (hD : g.dataArrayLength ≤ 256) {t : Nat}
    (h : Opens g x t) : (run g x (t + 1)).fsm.axisTreadyReg = true ∧
      ∀ u, t + 2 ≤ u → u ≤ t + 3 + g.dataArrayLength →
        (run g x u).fsm.axisTreadyReg = false := by
  constructor
  · simp [run_succ, axisTready_next, h.1]
  · intro u hu hle
    obtain ⟨v, rfl⟩ := Nat.exists_eq_add_of_le' (show 1 ≤ u by omega)
    have hclose := h.closes hready hD
    have hcnt := fsm_sendTrStatus hclose.status (hready (t + 1 + g.dataArrayLength))
    rw [← run_succ] at hcnt
    rw [run_succ, axisTready_next]
    rcases (by omega : v < t + 1 + g.dataArrayLength ∨ v = t + 1 + g.dataArrayLength ∨
      v = t + 1 + g.dataArrayLength + 1) with hv | rfl | rfl
    · simp [hclose.window v (by omega) hv]
    · simp [hclose.status]
    · simp [hcnt]

/-- The comparator in terms of signed samples. -/
theorem crossing_samples {s : Side} {t : Nat} (h : (run g x t).tr (x t) s = true) :
    (level ((x t).chan s).trigLvlI).toInt ≤
        ((run g x (t - (g.dataArrayLength - 10))).chan s).adcReg.toInt ∧
      ∀ k, 1 ≤ k → k < 10 →
        ((run g x (t - (g.dataArrayLength - k))).chan s).adcReg.toInt <
          (level ((x t).chan s).trigLvlI).toInt := by
  obtain ⟨hreached, hbelow⟩ := Channel.tr_samples h
  have hlow : ∀ k : Fin 11, (low15 (((run g x t).chan s).dat k)).toInt =
      ((run g x (t - (g.dataArrayLength - k.val))).chan s).adcReg.toInt := by
    intro k
    obtain ⟨v, hv⟩ := adcReg_pad g x s (t - (g.dataArrayLength - k.val))
    rw [dat_eq, hv, toInt_low15_pad]
  rw [BitVec.sle_iff_toInt_le, hlow, level, toInt_low15_pad] at hreached
  refine ⟨hreached, fun k h1 h10 => ?_⟩
  have hk := hbelow ⟨k, by omega⟩ h1 h10
  rwa [BitVec.slt_iff_toInt_lt, hlow, level, toInt_low15_pad] at hk

/-- A tick comes one cycle after the crossing that completes its group. -/
theorem crossing_of_tick {s : Side} {N : BitVec 32} (hpos : 1 ≤ N.toNat)
    (hN : ∀ t, ((x t).chan s).scalerI = N) {t : Nat} (h : (run g x t).maxTick (x t) s = true) :
    ∃ u, t = u + 1 ∧ (run g x u).tr (x u) s = true := by
  have hne : N ≠ 0 := by
    rintro rfl
    simp at hpos
  cases t with
  | zero =>
    simp only [Regs.maxTick, run_zero, reset_chan, Channel.maxTick, Channel.reset, hN,
      beq_iff_eq] at h
    exact absurd h.symm hne
  | succ u =>
    refine ⟨u, rfl, ?_⟩
    have htick : tick (scalerCnt (Regs.reset g) x s) N (u + 1) = true := by
      rw [← ticks_eq_tick _ x s hN]
      exact h
    exact (scalerCnt_divides (Regs.reset g) x s hN).pulse_of_tick hne u htick

/-- **A trigger packet is a snapshot.** Let the packet opened in cycle `t` be in `ST_ATT_TR`
from cycle `e = t + 1` on. Its data words carry, oldest first, the input registers of both
channels over the cycles `e - D .. e - 1` (the reset value stands for the cycles before
reset). The port takes samples up to cycle `e`, so the freeze during the packet changes the
input registers only from cycle `e + 2` on. If channel `s` ticks in the cycle that opens the
packet, its sample in word 8 has reached the level and those in the words before are below
it. -/
theorem snapshot (g : Generics) (hD : g.dataArrayLength ≤ 256) (x : Nat → Input)
    (hready : AlwaysReady x) (N : Side → BitVec 32) (lvl : Side → BitVec 16)
    (hpos : ∀ s, 1 ≤ (N s).toNat) (hN : ∀ s t, ((x t).chan s).scalerI = N s)
    (hlvl : ∀ s t, ((x t).chan s).trigLvlI = lvl s) {t e : Nat} (h : Opens g x t)
    (he : e = t + 1) :
    (∀ j, j < g.dataArrayLength → ∃ w, output g x (e + 1 + j) = some w ∧
        tag2 w = 0b00#2 ∧
        ∀ s, sampleOf w s = ((run g x (e + j - g.dataArrayLength)).chan s).adcReg) ∧
      (run g x e).fsm.axisTreadyReg = true ∧
      (∀ u, e < u → u ≤ e + 2 + g.dataArrayLength → (run g x u).fsm.axisTreadyReg = false) ∧
      ∀ s, (run g x t).maxTick (x t) s = true →
        (∃ w, output g x (e + 1 + 8) = some w ∧ (level (lvl s)).toInt ≤ (sampleOf w s).toInt) ∧
          ∀ j, j < 8 → ∃ w, output g x (e + 1 + j) = some w ∧
            (sampleOf w s).toInt < (level (lvl s)).toInt := by
  subst he
  have hwindow := g.window
  have hword : ∀ j, j < g.dataArrayLength → output g x (t + 1 + 1 + j) =
      some (run g x (t + 1 + j)).sampleWord := fun j hj => h.word hready hD hj
  obtain ⟨htready, hfreeze⟩ := h.axisTready hready hD
  refine ⟨?_, htready, fun u hu hle => hfreeze u hu (by omega), ?_⟩
  · intro j hj
    exact ⟨_, hword j hj, tag2_sampleWord _, fun s => sampleOf_sampleWord _ s⟩
  · intro s htick
    obtain ⟨u, rfl, hcross⟩ := crossing_of_tick (hpos s) (hN s) htick
    obtain ⟨hreached, hbelow⟩ := crossing_samples hcross
    rw [hlvl] at hreached hbelow
    constructor
    · refine ⟨_, hword 8 (by omega), ?_⟩
      rw [sampleOf_sampleWord]
      rwa [show u + 1 + 1 + 8 - g.dataArrayLength = u - (g.dataArrayLength - 10) by omega]
    · intro j hj
      refine ⟨_, hword j (by omega), ?_⟩
      rw [sampleOf_sampleWord]
      have hj' := hbelow (j + 2) (by omega) (by omega)
      rwa [show u + 1 + 1 + j - g.dataArrayLength = u - (g.dataArrayLength - (j + 2)) by omega]

theorem snapshot_pulses :
    (∃ w, output .smallest (Input.pulses 1) 14 = some w ∧
        (level 1).toInt ≤ (sampleOf w .a).toInt) ∧
      ∀ j, j < 8 → ∃ w, output .smallest (Input.pulses 1) (5 + 1 + j) = some w ∧
        (sampleOf w .a).toInt < (level 1).toInt :=
  (snapshot .smallest (by decide) (Input.pulses 1) (fun _ => rfl) (fun _ => 1) (fun _ => 1)
    (fun _ => by decide) (fun s _ => by cases s <;> rfl) (fun s _ => by cases s <;> rfl)
    (t := 4) (e := 5) ⟨by decide +kernel, by decide +kernel⟩ rfl).2.2.2 .a (by decide +kernel)

end RpEcosystem.Trigger
