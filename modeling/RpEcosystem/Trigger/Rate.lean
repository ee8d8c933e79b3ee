import RpEcosystem.Trigger.Scaler

/-!
# The rates reported every second

The rate counter of a channel counts its prescaler ticks and is cleared by `pps_i`, with
the tick first: it is a tally in the sense of `Clocked.Tallies`. A pulse latches the count
into `array_pps`. A tick in the cycle of a pulse is not in the latched count, so it belongs
to the second that the pulse starts.

`rates_addUp_iff`: the latched rates are the ticks of each second and every second starts
from zero, if and only if no pulse meets a tick while the count is not zero. Such a pulse
does not clear the counter, and the next second is reported with the previous one on top
(`rates_coincidence`).
-/

namespace RpEcosystem.Trigger

open Clocked

variable {g : Generics}

/-- The word of `array_pps` that carries the rate of a channel. -/
def rateIndex : Side → Fin metadataArrayLength
  | .a => ⟨1, by decide⟩
  | .b => ⟨0, by decide⟩

/-- The rate in `array_pps` after the edge that ends cycle `t`. -/
def latchedRate (g : Generics) (x : Nat → Input) (s : Side) (t : Nat) : BitVec 24 :=
  ((run g x (t + 1)).arrayPpsReg (rateIndex s)).extractLsb' 0 24

def rateCnt (g : Generics) (x : Nat → Input) (s : Side) (t : Nat) : BitVec 24 :=
  ((run g x t).chan s).rateCntReg

/-- At every pulse the latched rate is the number of ticks from the cycle of the previous
pulse, or from reset, up to this one, and the new second starts from nothing but the tick
of the pulse's own cycle. -/
def RatesAddUp (g : Generics) (x : Nat → Input) (s : Side) : Prop :=
  ∀ t, (x t).ppsI = true →
    latchedRate g x s t = BitVec.ofNat 24
        (events (ticks (Regs.reset g) x s) (lastMark (fun u => (x u).ppsI) t) t) ∧
      rateCnt g x s (t + 1) = if ticks (Regs.reset g) x s t then 1 else 0

theorem rateCnt_tallies (g : Generics) (x : Nat → Input) (s : Side) :
    Tallies (ticks (Regs.reset g) x s) (fun u => (x u).ppsI) (rateCnt g x s) := by
  intro t
  exact congrArg Channel.rateCntReg (next_chan (x t) (run g x t) s)

theorem latchedRate_eq (x : Nat → Input) (s : Side) {t : Nat} (h : (x t).ppsI = true) :
    latchedRate g x s t = rateCnt g x s t := by
  unfold latchedRate rateCnt
  rw [run_succ]
  simp only [next, Regs.arrayPpsNext, h, if_true]
  cases s <;> exact BitVec.extractLsb'_append_eq_right

/-- **The reported rates add up** exactly when no pulse meets a tick of the channel while
its count is not zero. -/
theorem rates_addUp_iff (g : Generics) (x : Nat → Input) (s : Side) :
    RatesAddUp g x s ↔
      ∀ t, (x t).ppsI = true → (run g x t).maxTick (x t) s = true →
        ((run g x t).chan s).rateCntReg = 0 := by
  have h0 : rateCnt g x s 0 = 0 := by simp [rateCnt, Channel.reset]
  refine Iff.trans ?_ ((rateCnt_tallies g x s).exact_iff h0)
  constructor
  · intro h t hpps
    rw [← latchedRate_eq x s hpps]
    exact h t hpps
  · intro h t hpps
    rw [latchedRate_eq x s hpps]
    exact h t hpps

/-- Two pulses on channel a, the second one ticking in the cycle of a `pps_i` pulse. -/
def coincidence (t : Nat) : Input :=
  { Input.quiet 1 t with
    sAxisTdata := if t = 1 ∨ t = 21 then 1 else 0
    ppsI := decide (t = 24 ∨ t = 60) }

/-- Between the pulses of cycles 24 and 60 there is one tick, in cycle 24 itself; the rate
latched in cycle 60 is 2, more than all ticks of both border cycles and of those between. -/
theorem rates_coincidence :
    ¬ RatesAddUp .smallest coincidence .a ∧
      (∀ t, t < 61 → (coincidence t).ppsI = true → t = 24 ∨ t = 60) ∧
      events (ticks (Regs.reset .smallest) coincidence .a) 24 61 = 1 ∧
      latchedRate .smallest coincidence .a 60 = 2 := by
  refine ⟨?_, ?_, by decide +kernel, by decide +kernel⟩
  · intro h
    exact absurd (h 60 rfl).1 (by decide +kernel)
  · intro t _ h
    simpa [coincidence] using h

end RpEcosystem.Trigger
