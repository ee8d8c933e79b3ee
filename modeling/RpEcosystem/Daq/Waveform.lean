import RpEcosystem.Daq.EventWords
import RpEcosystem.Trigger.Status

/-!
# From the converters to the data file

The trigger core cuts a window out of the samples of the two converters, and `read_buffer` prints
the words that it finds in the memory.

* `Listening`, `dat_of_listening`: what the core has taken from its port before a tick;
* `eventPacket`, `words_of_opens`: the packet of a tick, by the samples at the port;
* `waveform_printed`: the text that it leaves in the data file.
-/

namespace RpEcosystem.Daq

open Clocked
open Trigger (Word Generics Regs Side AlwaysReady Opens run output trSignal)

variable {g : Generics} {x : Nat → Trigger.Input}

/-! ## The samples -/

/-- For a whole window before cycle `t` the core has taken a sample in every cycle. -/
structure Listening (g : Generics) (x : Nat → Trigger.Input) (t : Nat) : Prop where
  late : g.dataArrayLength ≤ t
  valid : ∀ u, t ≤ u + g.dataArrayLength → u < t → (x u).sAxisTvalid = true
  ready : ∀ u, t ≤ u + g.dataArrayLength → u < t → (run g x u).fsm.axisTreadyReg = true

/-- The oldest entry of the window while the packet is sent. -/
theorem dat_of_listening {t j : Nat} (h : Listening g x t) (hj : j < g.dataArrayLength) (s : Side) :
    (((run g x (t + 1 + j)).chan s).dat 0).extractLsb' 0 14 =
      (x (t - g.dataArrayLength + j)).sample s := by
  have hlate := h.late
  have hback : t + 1 + j - g.dataArrayLength = t - g.dataArrayLength + j + 1 := by omega
  have hdat : ((run g x (t + 1 + j)).chan s).dat 0 =
      ((run g x (t - g.dataArrayLength + j + 1)).chan s).adcReg := by
    rw [Trigger.dat_eq, ← hback]
    rfl
  have hvalid := h.valid (t - g.dataArrayLength + j) (by omega) (by omega)
  have hready := h.ready (t - g.dataArrayLength + j) (by omega) (by omega)
  have hreg : ((run g x (t - g.dataArrayLength + j + 1)).chan s).adcReg =
      Trigger.pad ((x (t - g.dataArrayLength + j)).sample s) := by
    rw [Trigger.run_succ, Trigger.next_chan]
    simp [Trigger.Channel.next, hvalid, hready]
  rw [hdat, hreg, Trigger.low14_pad]

/-! ## The packet -/

/-- A tick in cycle `t` with a whole window before it: the samples at the port, the channels that
have crossed their level, the clock count, and the number of the tick. -/
def eventPacket (g : Generics) (x : Nat → Trigger.Input) (t : Nat) : TriggerPacket where
  samples := (List.range g.dataArrayLength).map fun j =>
    ((x (t - g.dataArrayLength + j)).sample .a, (x (t - g.dataArrayLength + j)).sample .b)
  flag2 := (run g x (t - 1)).tr2S (x (t - 1))
  flag1 := (run g x (t - 1)).tr1S (x (t - 1))
  clkCnt := (x t).clkCntPpsI
  trigCnt := BitVec.ofNat 30 (events (trSignal g x) 0 t)

theorem trStatus_eq_eventPacket {t : Nat} (ht : 0 < t) :
    (run g x t).trStatus (x t) =
      statusWord (eventPacket g x t).flag2 (eventPacket g x t).flag1 (eventPacket g x t).clkCnt := by
  obtain ⟨u, rfl⟩ : ∃ u, t = u + 1 := ⟨t - 1, by omega⟩
  rfl

theorem cntStatus_eq_eventPacket (t : Nat) :
    (run g x t).cntStatus = countWord (eventPacket g x t).trigCnt := by
  have hcnt := Trigger.trigCnt_eq g x (Nat.zero_le t)
  rw [cntStatus_eq_countWord, hcnt]
  simp [eventPacket, Regs.reset]

/-- With no other tick until it is closed, the packet says what its tick has found. -/
theorem words_of_opens (hready : AlwaysReady x) (hD : g.dataArrayLength ≤ 256) {t : Nat}
    (h : Opens g x t) (hlisten : Listening g x t)
    (hquiet : ∀ u, t < u → u ≤ t + 1 + g.dataArrayLength → trSignal g x u = false) :
    transfers (output g x) (t + 2) (t + 2 + g.dataArrayLength + 2) = (eventPacket g x t).words := by
  have hwindow := g.window
  have hlate := hlisten.late
  have hcloses := h.closes hready hD
  obtain ⟨hstatus, hcount⟩ := hcloses.outputs hready
  have hkept := Trigger.trStatus_kept h.tick hcloses.lt fun u h1 h2 => hquiet u h1 h2.le
  have hcnt := (Trigger.cntStatus_kept_iff h.tick hcloses.lt (by omega)).mpr hquiet
  rw [hkept, trStatus_eq_eventPacket (by omega)] at hstatus
  rw [hcnt, cntStatus_eq_eventPacket] at hcount
  have hdata := transfers_some (a := t + 2) (f := output g x)
    (w := fun j => dataWord ((x (t - g.dataArrayLength + j)).sample .a)
      ((x (t - g.dataArrayLength + j)).sample .b)) g.dataArrayLength fun j hj => by
    have ha := dat_of_listening hlisten hj .a
    have hb := dat_of_listening hlisten hj .b
    rw [h.word hready hD hj, sampleWord_eq_dataWord, ← ha, ← hb]
    rfl
  have hstatus' : output g x (t + 2 + g.dataArrayLength) = _ :=
    (congrArg (output g x) (by omega)).trans hstatus
  have hcount' : output g x (t + 2 + g.dataArrayLength + 1) = _ :=
    (congrArg (output g x) (by omega)).trans hcount
  rw [transfers_succ _ (by omega), transfers_succ _ (by omega), hdata, hstatus', hcount']
  simp [TriggerPacket.words, eventPacket]

/-! ## The text -/

/-- **A trigger in the data file.** With the output of the core ready, let a tick open a packet
after a whole window of samples, and no other tick come until the packet is closed. Where the words
of the packet are in the memory, the decoding loop prints, whatever it has read before, the window
of samples at the port of the core, oldest first and with their signs, then the channels that have
crossed their level with the clock count of the tick, and then the number of ticks before it. -/
theorem waveform_printed (hready : AlwaysReady x) (hD : g.dataArrayLength ≤ 256) {t : Nat}
    (h : Opens g x t) (hlisten : Listening g x t)
    (hquiet : ∀ u, t < u → u ≤ t + 1 + g.dataArrayLength → trSignal g x u = false)
    (libc : Libc) (mem : Nat → Word × Readings) (i : Nat) (r : Reader Decoder)
    (hmem : (List.range' i (g.dataArrayLength + 2)).map (fun k => (mem k).1) =
      transfers (output g x) (t + 2) (t + 2 + g.dataArrayLength + 2)) :
    (readWords mem (decodeWord libc) (g.dataArrayLength + 2) i r).out.log =
      r.out.log ++ (eventPacket g x t).lines.map fun l => (r.out.fhout, l) := by
  rw [words_of_opens hready hD h hlisten hquiet] at hmem
  rw [readWords_eq]
  refine (decodes_packet libc (eventPacket g x t) _ r.out ?_).log
  rw [List.map_map]
  exact hmem

/-- A pulse on channel a in cycle 20. -/
def latePulse (t : Nat) : Trigger.Input :=
  { Trigger.Input.quiet 1 t with sAxisTdata := if t = 20 then 1 else 0 }

theorem waveform_printed_latePulse :
    (readWords (fun k => (((transfers (output .smallest latePulse) 25 38).getD k 0 : Word), default))
        (decodeWord noCalendar) 13 0 ⟨-2, default⟩).out.log =
      (eventPacket .smallest latePulse 23).lines.map fun l => (.stdout, l) := by
  refine waveform_printed (g := .smallest) (x := latePulse) (t := 23) (fun _ => rfl) (by decide)
    ⟨by decide +kernel, by decide +kernel⟩ ⟨by decide, fun _ _ _ => rfl, ?_⟩ ?_ noCalendar _ 0
    ⟨-2, default⟩ ?_
  · have hall : ∀ u < 23, 12 ≤ u → (run .smallest latePulse u).fsm.axisTreadyReg = true := by
      decide +kernel
    intro u hfrom hto
    have hlen : Generics.smallest.dataArrayLength = 11 := rfl
    exact hall u hto (by omega)
  · have hall : ∀ u < 36, 23 < u → trSignal .smallest latePulse u = false := by
      decide +kernel
    intro u hfrom hto
    have hlen : Generics.smallest.dataArrayLength = 11 := rfl
    exact hall u (by omega) hfrom
  · decide +kernel

end RpEcosystem.Daq
