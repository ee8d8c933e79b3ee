import RpEcosystem.Daq.ReadBuffer
import RpEcosystem.Writer.Bounds
import Mathlib.Data.Set.Basic

/-!
# The units of writer and reader

The writer counts beats of eight bytes and reports the count on `sts_data`;
`wait_for_interrupt` reads it into `position` and `read_buffer` takes it as an index of 32-bit
words. The width converter packs two trigger words into a beat, low half first, so beat `a`
fills the words `2 * a` and `2 * a + 1` of the buffer.

In the first lap, with `p` beats accepted, the words `0 .. 2 * p - 1` are written
(`mem_written`) and the words `0 .. p - 1` may be read (`mayProcess_iff`).
`units_agree_iff` compares the two: what may be read is always written, it is all that is
written only before the first beat, and the words written at one time may all be read only
after the position has doubled.
-/

namespace RpEcosystem.Daq

open Clocked Writer

/-- What `poll` returns in `wait_for_interrupt`: nothing within the timeout, or an interrupt
with the pending register of the controller. -/
inductive Poll
  | timeout
  | interrupt (ipr : BitVec 32)

/-- The variable `position` after a call of `wait_for_interrupt`, with `sts` the status
register of the writer. -/
def waitForInterrupt (sts : BitVec 32) (position : Nat) : Poll → Nat
  | .timeout => position
  | .interrupt ipr => if ipr &&& 1 ≠ 0 then sts.toNat else position

variable (F : Fifo) (x : Nat → Writer.Input)

/-- The status register in cycle `t`. -/
def sts (t : Nat) : BitVec 32 := (run .lago F x t).stsData.setWidth 32

/-- The positions passed to `read_buffer`, for polls that return in the given cycles. -/
def positions : Nat → List (Nat × Poll) → List Nat
  | _, [] => []
  | position, (t, poll) :: polls =>
    waitForInterrupt (sts F x t) position poll ::
      positions (waitForInterrupt (sts F x t) position poll) polls

/-- The 32-bit words of the buffer written before cycle `t`. -/
def written (t : Nat) : Set Nat :=
  {w | ∃ u, u < t ∧ beat .lago F x u = true ∧ w / 2 = (run .lago F x u).intAddrReg.toNat}

/-- The words that `read_buffer` may have processed once the position of cycle `t` has been
reported, after any polls in earlier cycles. -/
def mayProcess (t : Nat) : Set Nat :=
  {i | ∃ polls : List (Nat × Poll), polls.Pairwise (·.1 ≤ ·.1) ∧ (∀ q ∈ polls, q.1 ≤ t) ∧
    i ∈ daqIndices ringLimit (positions F x 0 (polls ++ [(t, .interrupt 1)]))}

variable {F x}

/-! ## What is written -/

theorem sts_eq {t : Nat} (hlap : events (beat .lago F x) 0 t < 2 ^ 20) :
    (sts F x t).toNat = events (beat .lago F x) 0 t := by
  rw [sts, Regs.stsData, intAddrReg_eq_beats, BitVec.toNat_setWidth, BitVec.toNat_ofNat]
  change _ % 2 ^ 20 % 2 ^ 32 = _
  omega

theorem mem_written {t : Nat} (hlap : events (beat .lago F x) 0 t < 2 ^ 20) (w : Nat) :
    w ∈ written F x t ↔ w < 2 * events (beat .lago F x) 0 t := by
  have haddr : ∀ u, u < t → (run .lago F x u).intAddrReg.toNat = events (beat .lago F x) 0 u := by
    intro u hu
    have := events_mono (beat .lago F x) (Nat.zero_le u) hu.le
    rw [intAddrReg_eq_beats, BitVec.toNat_ofNat]
    exact Nat.mod_eq_of_lt (show _ < 2 ^ 20 by omega)
  constructor
  · rintro ⟨u, hu, hbeat, hw⟩
    have := events_lt (beat .lago F x) (Nat.zero_le u) hu hbeat
    rw [haddr u hu] at hw
    omega
  · intro hw
    obtain ⟨u, -, hu, hbeat, hcount⟩ :=
      exists_event (beat .lago F x) (show w / 2 < events (beat .lago F x) 0 t by omega)
    exact ⟨u, hu, hbeat, by rw [haddr u hu, hcount]⟩

/-! ## What may be read -/

/-- Positions that do not go back are read below their bound. -/
theorem decoded_lt {limit b : Nat} {c : Int} {ps : List Nat} (hsorted : ps.Pairwise (· ≤ ·))
    (hstart : -2 ≤ c) (hle : ∀ p ∈ ps, c ≤ p) (hb : ∀ p ∈ ps, p ≤ b) :
    ∀ i ∈ decoded limit c ps, i < b := by
  induction ps generalizing c with
  | nil => simp [decoded]
  | cons p ps ih =>
    rw [List.pairwise_cons] at hsorted
    obtain ⟨hfirst, hsorted⟩ := hsorted
    have hcp := hle p List.mem_cons_self
    have hwrap : -2 ≤ wrapCurrent limit c ∧ wrapCurrent limit c ≤ p := by
      unfold wrapCurrent
      split_ifs <;> omega
    have hvisited : ∀ i ∈ visited limit c p, i < p := by
      intro i hi
      have hlt : wrapCurrent limit c < p + 2 := by omega
      simp only [visited, readBounds, hlt, if_true] at hi
      split_ifs at hi
      · rw [List.mem_range'_1] at hi
        omega
      · simp at hi
    have hcursor : -2 ≤ cursorNext limit c p ∧ cursorNext limit c p ≤ p := by
      have hlast : cursorNext limit c p ∈
          wrapCurrent limit c :: (visited limit c p).map Int.ofNat := List.getLastD_mem_cons
      rcases List.mem_cons.mp hlast with heq | hmem
      · rwa [heq]
      · obtain ⟨i, hi, heq⟩ := List.mem_map.mp hmem
        have := hvisited i hi
        rw [← heq, Int.ofNat_eq_natCast]
        omega
    intro i hi
    rw [decoded] at hi
    rcases List.mem_append.mp hi with hi | hi
    · exact lt_of_lt_of_le (hvisited i hi) (hb p List.mem_cons_self)
    · refine ih hsorted hcursor.1 (fun q hq => ?_)
        (fun q hq => hb q (List.mem_cons_of_mem p hq)) i hi
      have := hfirst q hq
      omega

/-- In the first lap the positions never go back. -/
theorem positions_sorted {t : Nat} (hlap : events (beat .lago F x) 0 t < 2 ^ 20)
    {polls : List (Nat × Poll)} {position : Nat} (hsorted : polls.Pairwise (·.1 ≤ ·.1))
    (hpolls : ∀ q ∈ polls, q.1 ≤ t ∧ position ≤ events (beat .lago F x) 0 q.1) :
    (positions F x position polls).Pairwise (· ≤ ·) ∧
      ∀ p ∈ positions F x position polls, position ≤ p ∧ p ≤ events (beat .lago F x) 0 t := by
  induction polls generalizing position with
  | nil => simp [positions]
  | cons q polls ih =>
    obtain ⟨u, poll⟩ := q
    rw [List.pairwise_cons] at hsorted
    obtain ⟨hfirst, hsorted⟩ := hsorted
    obtain ⟨hut, hposition⟩ := hpolls (u, poll) List.mem_cons_self
    have hmono := events_mono (beat .lago F x) (Nat.zero_le u) hut
    have hread : position ≤ waitForInterrupt (sts F x u) position poll ∧
        waitForInterrupt (sts F x u) position poll ≤ events (beat .lago F x) 0 u := by
      cases poll with
      | timeout => exact ⟨le_rfl, hposition⟩
      | interrupt ipr =>
        simp only [waitForInterrupt, sts_eq (show events (beat .lago F x) 0 u < 2 ^ 20 by omega)]
        split_ifs
        · exact ⟨hposition, le_rfl⟩
        · exact ⟨le_rfl, hposition⟩
    rw [positions]
    generalize waitForInterrupt (sts F x u) position poll = p at hread ⊢
    obtain ⟨hpositions, hbounds⟩ := @ih p hsorted fun q hq => by
      have := events_mono (beat .lago F x) (Nat.zero_le u) (hfirst q hq)
      exact ⟨(hpolls q (List.mem_cons_of_mem _ hq)).1, by omega⟩
    refine ⟨List.pairwise_cons.mpr ⟨fun q hq => (hbounds q hq).1, hpositions⟩, ?_⟩
    intro q hq
    rcases List.mem_cons.mp hq with rfl | hq
    · omega
    · have := hbounds q hq
      omega

theorem mem_mayProcess {t : Nat} (hlap : events (beat .lago F x) 0 t < 2 ^ 20) (i : Nat) :
    i ∈ mayProcess F x t ↔ i < events (beat .lago F x) 0 t := by
  constructor
  · rintro ⟨polls, hsorted, hpolls, hi⟩
    rw [daqIndices_eq] at hi
    have hall : ∀ q ∈ polls ++ [(t, Poll.interrupt 1)], q.1 ≤ t := by
      intro q hq
      rcases List.mem_append.mp hq with hq | hq
      · exact hpolls q hq
      · rw [List.mem_singleton.mp hq]
    have hsorted' : (polls ++ [(t, Poll.interrupt 1)]).Pairwise (·.1 ≤ ·.1) := by
      rw [List.pairwise_append]
      refine ⟨hsorted, List.pairwise_singleton _ _, fun q hq r hr => ?_⟩
      rw [List.mem_singleton.mp hr]
      exact hpolls q hq
    obtain ⟨hpositions, hbounds⟩ := positions_sorted hlap hsorted'
      fun q hq => ⟨hall q hq, Nat.zero_le _⟩
    exact decoded_lt hpositions le_rfl (fun p _ => by omega) (fun p hp => (hbounds p hp).2) i hi
  · intro hi
    refine ⟨[], List.Pairwise.nil, by simp, ?_⟩
    rw [daqIndices_eq]
    have hpos : positions F x 0 [(t, Poll.interrupt 1)] = [events (beat .lago F x) 0 t] := by
      simp [positions, waitForInterrupt, sts_eq hlap]
    rw [List.nil_append, hpos, decoded, visited_start wrapCurrent_start, decoded, List.append_nil]
    exact List.mem_range.mpr hi

/-- **Units.** In every run of the writer, at every cycle `t` of the first lap: nothing that
may be processed is unwritten; the words that may be processed for the position reported in
`t` are exactly the words written up to it if and only if no beat has been accepted; and the
words written up to `t` may all be processed for the position reported in a later cycle `u`
if and only if that position is at least twice the one of `t`. -/
theorem units_agree_iff (F : Fifo) (x : Nat → Writer.Input) (t : Nat)
    (hlap : events (beat .lago F x) 0 t < 2 ^ 20) :
    mayProcess F x t ⊆ written F x t ∧
      (mayProcess F x t = written F x t ↔ ∀ u, u < t → beat .lago F x u = false) ∧
      ∀ u, t ≤ u → events (beat .lago F x) 0 u < 2 ^ 20 →
        (written F x t ⊆ mayProcess F x u ↔ 2 * (sts F x t).toNat ≤ (sts F x u).toNat) := by
  have hlate : ∀ u, t ≤ u → events (beat .lago F x) 0 u < 2 ^ 20 →
      (written F x t ⊆ mayProcess F x u ↔ 2 * (sts F x t).toNat ≤ (sts F x u).toNat) := by
    intro u _ hlapu
    rw [sts_eq hlap, sts_eq hlapu]
    constructor
    · intro h
      by_contra hlt
      have hw := h ((mem_written hlap (events (beat .lago F x) 0 u)).mpr (by omega))
      rw [mem_mayProcess hlapu] at hw
      omega
    · intro h w hw
      rw [mem_written hlap] at hw
      exact (mem_mayProcess hlapu w).mpr (by omega)
  have hsub : mayProcess F x t ⊆ written F x t := by
    intro i hi
    rw [mem_mayProcess hlap] at hi
    exact (mem_written hlap i).mpr (by omega)
  have hzero : (∀ u, u < t → beat .lago F x u = false) ↔ events (beat .lago F x) 0 t = 0 := by
    constructor
    · intro h
      rw [events_quiet le_rfl (Nat.zero_le t) fun u _ hu => h u hu, events_self]
    · intro h u hu
      by_contra hb
      simp only [Bool.not_eq_false] at hb
      have := events_lt (beat .lago F x) (Nat.zero_le u) hu hb
      omega
  refine ⟨hsub, ?_, hlate⟩
  rw [hzero]
  constructor
  · intro h
    have := (hlate t le_rfl hlap).mp h.ge
    rw [sts_eq hlap] at this
    omega
  · intro h
    exact hsub.antisymm ((hlate t le_rfl hlap).mpr (by rw [sts_eq hlap]; omega))

theorem streaming_firstLap (base : BitVec 32) {t : Nat} (ht : t < 2 ^ 20) :
    events (beat .lago queue (streaming base)) 0 t < 2 ^ 20 := by
  have := events_le_length (beat .lago queue (streaming base)) 0 t
  omega

theorem units_agree_streaming :
    mayProcess queue (streaming pages4096.base) 40 ⊆ written queue (streaming pages4096.base) 40 :=
  (units_agree_iff queue (streaming pages4096.base) 40 (streaming_firstLap _ (by decide))).1

/-- After one beat the words 0 and 1 are written and only word 0 may be processed. -/
theorem units_disagree_firstBeat :
    mayProcess queue (streaming pages4096.base) 19 ≠
      written queue (streaming pages4096.base) 19 := by
  intro h
  have hlap := streaming_firstLap pages4096.base (t := 19) (by decide)
  have hone : events (beat .lago queue (streaming pages4096.base)) 0 19 = 1 := by
    rw [← sts_eq hlap, sts, Regs.stsData, (streaming_runs pages4096.base 1).2.2.1]
    rfl
  have hw := (mem_written hlap 1).mpr (by omega)
  rw [← h, mem_mayProcess hlap] at hw
  omega

end RpEcosystem.Daq
