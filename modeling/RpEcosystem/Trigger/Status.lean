import RpEcosystem.Trigger.Ready

/-!
# The closing words of a trigger packet

The status and counter registers are rewritten by every tick of either channel, while a
packet takes longer than the window to leave. `closingWords_iff`: with the output always
ready, the two closing words describe the tick that opened the packet if and only if no
further tick comes up to the cycle in which the status word is loaded. The counter tells
every further tick apart, because it cannot come round within one packet.
-/

namespace RpEcosystem.Trigger

open Clocked

variable {g : Generics} {x : Nat → Input}

/-- `tr_s` in the cycles of a run. -/
def trSignal (g : Generics) (x : Nat → Input) (t : Nat) : Bool := (run g x t).trS (x t)

theorem trigCnt_eq (g : Generics) (x : Nat → Input) {t u : Nat} (h : t ≤ u) :
    (run g x u).trigCntReg =
      (run g x t).trigCntReg + BitVec.ofNat 30 (events (trSignal g x) t u) := by
  induction u, h using Nat.le_induction with
  | base => simp
  | succ u hu ih =>
    rw [events_succ _ hu, run_succ]
    cases htick : (run g x u).trS (x u) with
    | true => simp [next, trSignal, htick, ih, BitVec.ofNat_add, BitVec.add_assoc]
    | false => simp [next, trSignal, htick, ih]

/-- After a tick the counter register holds the count of the last one. -/
theorem cntStatus_eq {t u : Nat} (ht : trSignal g x t = true) (h : t + 1 ≤ u) :
    (run g x u).cntStatusReg = 0b10#2 ++ ((run g x u).trigCntReg - 1) := by
  have hstep : ∀ u, trSignal g x u = true →
      (run g x (u + 1)).cntStatusReg = 0b10#2 ++ ((run g x (u + 1)).trigCntReg - 1) := by
    intro u hu
    rw [trSignal] at hu
    rw [run_succ]
    simp only [next, hu, if_true, Regs.cntStatus, BitVec.add_sub_cancel]
  induction u, h using Nat.le_induction with
  | base => exact hstep t ht
  | succ u _ ih =>
    cases hu : trSignal g x u with
    | true => exact hstep u hu
    | false =>
      rw [trSignal] at hu
      rw [run_succ]
      simpa [next, hu] using ih

theorem trStatus_kept {t c : Nat} (ht : trSignal g x t = true) (hc : t + 1 ≤ c)
    (hquiet : ∀ u, t < u → u < c → trSignal g x u = false) :
    (run g x c).trStatusReg = (run g x t).trStatus (x t) := by
  induction c, hc using Nat.le_induction with
  | base =>
    rw [trSignal] at ht
    rw [run_succ]
    simp [next, ht]
  | succ c hc ih =>
    have hu := hquiet c (by omega) (by omega)
    rw [trSignal] at hu
    rw [run_succ]
    simpa [next, hu] using ih fun u h1 h2 => hquiet u h1 (by omega)

/-- The counter register still holds the count of the tick in cycle `t` exactly when no tick
came since. -/
theorem cntStatus_kept_iff {t c : Nat} (ht : trSignal g x t = true) (hc : t < c)
    (hshort : c ≤ t + 2 ^ 29) :
    (run g x (c + 1)).cntStatusReg = (run g x t).cntStatus ↔
      ∀ u, t < u → u ≤ c → trSignal g x u = false := by
  have hfirst : events (trSignal g x) t (t + 1) = 1 := by simp [events_succ _ (le_refl t), ht]
  have hbound := events_le_length (trSignal g x) t (c + 1)
  have hpos := events_mono (trSignal g x) (a := t) (b := t + 1) (c := c + 1) (by omega) (by omega)
  have hcount : (run g x (c + 1)).cntStatusReg = (run g x t).cntStatus ↔
      events (trSignal g x) t (c + 1) = 1 := by
    rw [cntStatus_eq ht (by omega), trigCnt_eq g x (show t ≤ c + 1 by omega), Regs.cntStatus]
    constructor
    · intro h
      have hfield := congrArg (BitVec.extractLsb' 0 30) h
      rw [BitVec.extractLsb'_append_eq_right, BitVec.extractLsb'_append_eq_right] at hfield
      generalize (run g x t).trigCntReg = v at hfield
      bv_omega
    · intro h
      simp only [h, BitVec.ofNat_eq_ofNat, BitVec.add_sub_cancel]
  rw [hcount]
  constructor
  · intro hone u hu huc
    by_contra htick
    have hbefore := events_mono (trSignal g x) (a := t) (b := t + 1) (c := u) (by omega) (by omega)
    have hcounted := events_lt (trSignal g x) (a := t) (b := c + 1) (u := u) (by omega) (by omega)
      (by simpa using htick)
    omega
  · intro hquiet
    rw [events_quiet (b := t + 1) (by omega) (by omega) fun u h1 h2 => hquiet u h1 (by omega)]
    exact hfirst

/-- **The closing words.** With the output always ready, the status word and the counter
word of a packet hold the flags, the clock count and the trigger count of the tick that
opened it if and only if no further tick of either channel comes before the cycle after the
status word is loaded. -/
theorem closingWords_iff (hready : AlwaysReady x) {t c : Nat} (h : Closes g x t c) :
    (output g x (c + 1) = some ((run g x t).trStatus (x t)) ∧
        output g x (c + 2) = some (run g x t).cntStatus) ↔
      ∀ u, t < u → u ≤ c → (run g x u).trS (x u) = false := by
  obtain ⟨hstatus, hcount⟩ := h.outputs hready
  have hle := h.le hready
  rw [hstatus, hcount, Option.some.injEq, Option.some.injEq]
  have hcnt := cntStatus_kept_iff h.opens.tick h.lt (by omega)
  constructor
  · rintro ⟨-, hc⟩
    exact hcnt.mp hc
  · intro hquiet
    exact ⟨trStatus_kept h.opens.tick h.lt fun u h1 h2 => hquiet u h1 h2.le, hcnt.mpr hquiet⟩

theorem pulses_closes : Closes .smallest (Input.pulses 1) 4 16 :=
  Opens.closes (g := .smallest) (fun _ => rfl) (by decide) ⟨by decide +kernel, by decide +kernel⟩

theorem closingWords_pulses :
    (output .smallest (Input.pulses 1) 17 =
          some ((run .smallest (Input.pulses 1) 4).trStatus (Input.pulses 1 4)) ∧
        output .smallest (Input.pulses 1) 18 = some (run .smallest (Input.pulses 1) 4).cntStatus) ↔
      ∀ u, 4 < u → u ≤ 16 → (run .smallest (Input.pulses 1) u).trS (Input.pulses 1 u) = false :=
  closingWords_iff (fun _ => rfl) pulses_closes

/-- A pulse on channel a followed one sample later by a pulse on channel b. -/
def twoChannels (t : Nat) : Input :=
  { Input.quiet 1 t with sAxisTdata := if t = 1 then 1 else if t = 2 then 0x00010000 else 0 }

/-- The packet opened by channel a in cycle 4 is closed with the flag of channel b and the
clock count of cycle 5. -/
theorem closingWords_twoChannels :
    Closes .smallest twoChannels 4 16 ∧
      ¬ (output .smallest twoChannels 17 =
            some ((run .smallest twoChannels 4).trStatus (twoChannels 4)) ∧
          output .smallest twoChannels 18 = some (run .smallest twoChannels 4).cntStatus) := by
  refine ⟨Opens.closes (g := .smallest) (fun _ => rfl) (by decide)
    ⟨by decide +kernel, by decide +kernel⟩, ?_⟩
  rintro ⟨hstatus, -⟩
  exact absurd hstatus (by decide +kernel)

end RpEcosystem.Trigger
