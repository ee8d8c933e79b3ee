import RpEcosystem.Daq.Units
import RpEcosystem.Writer.Memory
import RpEcosystem.Axis.TlastGen
import RpEcosystem.Trigger.Core

/-!
# The words of the trigger core as the program sees them

In the design the words of the trigger core go through the tlast generator, the width converter and
the writer into the buffer, while the acquisition loop polls the position and reads. Writer and
program are not synchronised otherwise: a word is read at any time after the poll. As long as the
writer stays in the buffer the program reads nothing but words of the trigger core, each at its own
place. It does not read all of them: the cursor is moved by two between two reads, so the word at
the end of every read but the last one is left out, and no other.

* `Chain`: the cores and the memory together;
* `readEnds`, `decoded_cursorAt`: the reads of a session, and what they leave out;
* `Turn`, `turnCalls`: the turns of the acquisition loop;
* `reads_stream`: what the program decodes.
-/

namespace RpEcosystem.Daq

open Clocked Writer
open Trigger (Word output)

/-! ## The cores -/

/-- The output of the trigger core is the input of the tlast generator. -/
structure Linked (g : Trigger.Generics) (x : Nat → Trigger.Input)
    (z : Nat → TlastGen.Input 32 32) : Prop where
  tvalid : ∀ t, (z t).sAxisTvalid = (Trigger.run g x t).fsm.axisTvalidReg
  tdata : ∀ t, (z t).sAxisTdata = (Trigger.run g x t).fsm.dataToFifoReg
  tready : ∀ t, (x t).mAxisTready = TlastGen.Regs.sAxisTready (z t)

/-- The words from the trigger core to the buffer. The writer leaves its reset `T` cycles after the
trigger core. -/
structure Chain (g : Trigger.Generics) (F : Fifo) (S : FirstWordFallThrough F) (T : Nat)
    (x : Nat → Trigger.Input) (z : Nat → TlastGen.Input 32 32) (y : Nat → Writer.Input)
    (base : BitVec 32) (ram : Nat → Memory) : Prop where
  linked : Linked g x z
  /-- the converter gives the writer the packed words of the tlast generator -/
  packs : ∀ t, transfers (accepted .lago F y) 0 t <+:
    pack ((TlastGen.sent z (T + t)).map TlastGen.Word.tdata)
  memory : Stores .lago F y base ram
  holdsBurst : HoldsBurst .lago F S y

section Chain

variable {g : Trigger.Generics} {F : Fifo} {S : FirstWordFallThrough F} {T : Nat}
  {x : Nat → Trigger.Input} {z : Nat → TlastGen.Input 32 32} {y : Nat → Writer.Input}
  {base : BitVec 32} {ram : Nat → Memory}

theorem Linked.map_tdata_sent (h : Linked g x z) (t : Nat) :
    (TlastGen.sent z t).map TlastGen.Word.tdata = transfers (output g x) 0 t := by
  induction t with
  | zero => rfl
  | succ t ih =>
    have hready : (z t).mAxisTready = (x t).mAxisTready := (h.tready t).symm
    rw [TlastGen.sent, transfers_succ _ (Nat.zero_le t), transfers_succ _ (Nat.zero_le t),
      List.map_append, ← TlastGen.sent, ih]
    congr 1
    rw [TlastGen.transfer, TlastGen.Regs.mAxisTvalid, output, h.tvalid t, hready]
    split
    · simp [h.tdata t]
    · rfl

/-- A word that is read behind the writer is the one the trigger core sent at that place. -/
theorem Chain.getElem?_words (h : Chain g F S T x z y base ram) {t u i : Nat} (htu : t ≤ u)
    (hlap : beats .lago F y t ≤ 2 ^ 19) (hi : i < 2 * beats .lago F y t) :
    (transfers (output g x) 0 (T + u))[i]? = some (wordAt (ram t) base i) := by
  have hpacked : transfers (Writer.written .lago F y) 0 t <+:
      pack (transfers (output g x) 0 (T + t)) := by
    rw [← h.linked.map_tdata_sent]
    refine List.IsPrefix.trans ?_ (h.packs t)
    rw [accepted_eq h.memory.addressFirst h.holdsBurst t]
    exact List.prefix_append _ _
  have hword := h.memory.getElem?_words (hlap.trans (by decide)) hpacked hi
  obtain ⟨hlt, -⟩ := List.getElem?_eq_some_iff.mp hword
  rw [transfers_append _ (Nat.zero_le _) (by omega : T + t ≤ T + u),
    List.getElem?_append_left hlt, hword]

end Chain

/-! ## The reads of a session -/

/-- The index at which a read begins, when the last one ended at `a`. -/
def firstRead (a : Nat) : Nat := if a = 0 then 0 else a + 1

/-- The ends of the reads for a list of positions, the last one before having ended at `a`. -/
def readEnds : Nat → List Nat → List Nat
  | _, [] => []
  | a, p :: ps => if firstRead a < p then p :: readEnds p ps else readEnds a ps

/-- The cursor after a read that ended at `a`. -/
def cursorAt (a : Nat) : Int := if a = 0 then -2 else (a : Int) - 1

section Reads

variable {limit a p : Nat}

theorem visited_cursorAt (hp : p + 1 < limit) (hap : a ≤ p) :
    visited limit (cursorAt a) p = List.range' (firstRead a) (p - firstRead a) := by
  by_cases ha : a = 0
  · subst ha
    have hwrap : wrapCurrent limit (cursorAt 0) = -2 := wrapCurrent_start
    rw [visited_start hwrap, List.range_eq_range']
    rfl
  · have hcursor : cursorAt a = (a : Int) - 1 := if_neg ha
    have hfirst : firstRead a = a + 1 := if_neg ha
    have hwrap : wrapCurrent limit ((a : Int) - 1) = (a : Int) - 1 := if_neg (by omega)
    have hlt : (a : Int) - 1 < p + 2 := by omega
    have hne : (a : Int) - 1 ≠ p := by omega
    have hinit : ((a : Int) - 1 + 2).toNat = a + 1 := by omega
    have hcount : ((p : Int) - ((a : Int) - 1 + 2)).toNat = p - (a + 1) := by omega
    simp [visited, hcursor, hfirst, hwrap, readBounds, hlt, hne, hinit, hcount]

theorem cursorNext_cursorAt (hp : p + 1 < limit) (hap : a ≤ p) :
    cursorNext limit (cursorAt a) p = cursorAt (if firstRead a < p then p else a) := by
  have hwrap : wrapCurrent limit (cursorAt a) = cursorAt a := by
    refine if_neg ?_
    unfold cursorAt
    split <;> omega
  rw [cursorNext, visited_cursorAt hp hap, hwrap]
  split
  next hlt =>
    obtain ⟨n, hn⟩ : ∃ n, p - firstRead a = n + 1 := ⟨p - firstRead a - 1, by omega⟩
    have hpos : p ≠ 0 := by omega
    rw [hn, List.range'_1_concat, List.map_append, List.map_singleton, List.getLastD_concat,
      cursorAt, if_neg hpos]
    change ((firstRead a + n : Nat) : Int) = _
    omega
  next hge =>
    rw [show p - firstRead a = 0 by omega]
    rfl

theorem firstRead_lt_of_mem {ps : List Nat} {e : Nat} (h : e ∈ readEnds a ps) :
    firstRead a < e := by
  induction ps generalizing a with
  | nil => cases h
  | cons p ps ih =>
    rw [readEnds] at h
    split at h
    next hlt =>
      rcases List.mem_cons.mp h with rfl | hmem
      · exact hlt
      · have hlater := ih hmem
        have : p ≤ firstRead p := by
          unfold firstRead
          split <;> omega
        omega
    next => exact ih h

theorem mem_of_mem_readEnds {ps : List Nat} {e : Nat} (h : e ∈ readEnds a ps) : e ∈ ps := by
  induction ps generalizing a with
  | nil => cases h
  | cons p ps ih =>
    rw [readEnds] at h
    split at h
    · rcases List.mem_cons.mp h with rfl | hmem
      · exact List.mem_cons_self
      · exact List.mem_cons_of_mem p (ih hmem)
    · exact List.mem_cons_of_mem p (ih h)

/-- Leaving out one index and some later ones. -/
theorem filter_range'_gap {s e : Nat} {l : List Nat} (hsp : s ≤ p) (hpe : p < e)
    (hl : ∀ i ∈ l, p < i) :
    (List.range' s (e - s)).filter (fun i => decide (i ∉ p :: l)) =
      List.range' s (p - s) ++
        (List.range' (p + 1) (e - (p + 1))).filter (fun i => decide (i ∉ l)) := by
  have hsplit : List.range' s (e - s) =
      List.range' s (p - s) ++ p :: List.range' (p + 1) (e - (p + 1)) := by
    rw [show e - s = (p - s) + (e - (p + 1) + 1) by omega, ← List.range'_append_1,
      List.range'_succ, show s + (p - s) = p by omega]
  have hbefore : (List.range' s (p - s)).filter (fun i => decide (i ∉ p :: l)) =
      List.range' s (p - s) := by
    rw [List.filter_eq_self]
    intro i hi
    have hlt := (List.mem_range'_1.mp hi).2
    simp only [List.mem_cons, not_or, decide_eq_true_eq]
    exact ⟨by omega, fun hmem => absurd (hl i hmem) (by omega)⟩
  have hafter : (List.range' (p + 1) (e - (p + 1))).filter (fun i => decide (i ∉ p :: l)) =
      (List.range' (p + 1) (e - (p + 1))).filter (fun i => decide (i ∉ l)) := by
    apply List.filter_congr
    intro i hi
    have hne : i ≠ p := by
      have := (List.mem_range'_1.mp hi).1
      omega
    simp [hne]
  rw [hsplit, List.filter_append, hbefore, List.filter_cons_of_neg (by simp), hafter]

/-- Positions that do not go back are read without gaps but for the ends of the reads. -/
theorem decoded_cursorAt {ps : List Nat} (hsorted : ps.Pairwise (· ≤ ·)) (hps : ∀ p ∈ ps, a ≤ p)
    (hlimit : ∀ p ∈ ps, p + 1 < limit) :
    decoded limit (cursorAt a) ps =
      (List.range' (firstRead a) ((readEnds a ps).getLastD a - firstRead a)).filter
        fun i => decide (i ∉ (readEnds a ps).dropLast) := by
  induction ps generalizing a with
  | nil =>
    have hnone : a - firstRead a = 0 := by
      unfold firstRead
      split <;> omega
    simp [decoded, readEnds, hnone]
  | cons p ps ih =>
    rw [List.pairwise_cons] at hsorted
    have hap := hps p List.mem_cons_self
    have hp := hlimit p List.mem_cons_self
    have hlater : ∀ q ∈ ps, q + 1 < limit := fun q hq => hlimit q (List.mem_cons_of_mem p hq)
    rw [decoded, visited_cursorAt hp hap, cursorNext_cursorAt hp hap, readEnds]
    split
    next hlt =>
      have hfirst : firstRead p = p + 1 := if_neg (by omega)
      rw [ih hsorted.2 hsorted.1 hlater, hfirst]
      cases hends : readEnds p ps with
      | nil => simp
      | cons r rest =>
        have hmem : ∀ e ∈ r :: rest, p + 1 < e := fun e he =>
          hfirst ▸ firstRead_lt_of_mem (hends ▸ he)
        have hlast : p < (r :: rest).getLastD p := by
          rw [List.getLastD_cons]
          have := hmem _ List.getLastD_mem_cons
          omega
        have hlost : ∀ e ∈ (r :: rest).dropLast, p < e := fun e he => by
          have := hmem e ((List.dropLast_sublist _).mem he)
          omega
        rw [← filter_range'_gap (by omega) hlast hlost]
        rfl
    next hge =>
      rw [show p - firstRead a = 0 by omega, ih hsorted.2 (fun q hq => hps q
        (List.mem_cons_of_mem p hq)) hlater]
      rfl

end Reads

/-! ## The acquisition loop -/

/-- A turn of the loop: the cycle in which the position is polled, what `poll` returns, and for
every word the cycle in which it is read and what else is read with it. -/
structure Turn (ρ : Type) where
  cycle : Nat
  poll : Poll
  readAt : Nat → Nat
  reading : Nat → ρ

section Loop

variable {α ρ σ : Type}

/-- The calls of `read_buffer` in a list of turns, from a value of `position` on. -/
def turnCalls (F : Fifo) (y : Nat → Writer.Input) (see : Turn ρ → Nat → α) :
    Nat → List (Turn ρ) → List (Call α)
  | _, [] => []
  | position, v :: vs =>
    ⟨waitForInterrupt (sts F y v.cycle) position v.poll, see v⟩ ::
      turnCalls F y see (waitForInterrupt (sts F y v.cycle) position v.poll) vs

/-- The positions of the turns. -/
def turnPositions (F : Fifo) (y : Nat → Writer.Input) (vs : List (Turn ρ)) : List Nat :=
  positions F y 0 (vs.map fun v => (v.cycle, v.poll))

variable {F : Fifo} {y : Nat → Writer.Input}

theorem map_pos_turnCalls (see : Turn ρ → Nat → α) (position : Nat) (vs : List (Turn ρ)) :
    (turnCalls F y see position vs).map Call.pos =
      positions F y position (vs.map fun v => (v.cycle, v.poll)) := by
  induction vs generalizing position with
  | nil => rfl
  | cons v vs ih =>
    rw [turnCalls, List.map_cons, List.map_cons, positions, ih]

/-- Two lists of calls at the same positions with memories that agree below them. -/
theorem daqLoop_congr {limit a : Nat} {decode : σ → α → σ} {enter : σ → σ} {s : σ}
    {cs cs' : List (Call α)}
    (hsame : List.Forall₂ (fun c c' => c.pos = c'.pos ∧ ∀ i, i < c.pos → c.mem i = c'.mem i) cs cs')
    (hsorted : (cs.map Call.pos).Pairwise (· ≤ ·)) (hpos : ∀ p ∈ cs.map Call.pos, a ≤ p)
    (hlimit : ∀ p ∈ cs.map Call.pos, p + 1 < limit) :
    daqLoop limit decode enter cs ⟨cursorAt a, s⟩ =
      daqLoop limit decode enter cs' ⟨cursorAt a, s⟩ := by
  induction hsame generalizing a s with
  | nil => rfl
  | @cons c c' cs cs' hc hcs ih =>
    obtain ⟨hp, hmem⟩ := hc
    rw [List.map_cons] at hsorted hpos hlimit
    rw [List.pairwise_cons] at hsorted
    have hap := hpos c.pos List.mem_cons_self
    have hlt := hlimit c.pos List.mem_cons_self
    have hwords : (visited limit (cursorAt a) c.pos).map c.mem =
        (visited limit (cursorAt a) c.pos).map c'.mem := by
      rw [visited_cursorAt hlt hap]
      refine List.map_congr_left fun i hi => hmem i ?_
      have := List.mem_range'_1.mp hi
      omega
    have hnext : ∀ p ∈ cs.map Call.pos, (if firstRead a < c.pos then c.pos else a) ≤ p := by
      intro p hp
      have := hsorted.1 p hp
      split <;> omega
    simp only [daqLoop, List.foldl_cons]
    rw [← daqLoop, ← daqLoop, readBuffer_eq, readBuffer_eq, ← hp, hwords,
      cursorNext_cursorAt hlt hap]
    exact ih hsorted.2 hnext fun p hp => hlimit p (List.mem_cons_of_mem _ hp)

end Loop

section Session

variable {g : Trigger.Generics} {F : Fifo} {S : FirstWordFallThrough F} {T last : Nat}
  {x : Nat → Trigger.Input} {z : Nat → TlastGen.Input 32 32} {y : Nat → Writer.Input}
  {base : BitVec 32} {ram : Nat → Memory} {ρ : Type}

/-- What the program reads from the memory. -/
def seenIn (ram : Nat → Memory) (base : BitVec 32) (v : Turn ρ) (i : Nat) : Word × ρ :=
  (wordAt (ram (v.readAt i)) base i, v.reading i)

/-- What it would read from a list of words. -/
def seenAs (words : List Word) (v : Turn ρ) (i : Nat) : Word × ρ := (words.getD i 0, v.reading i)

theorem waitForInterrupt_bounds {t position : Nat} (hlap : beats .lago F y t < 2 ^ 20)
    (hposition : position ≤ beats .lago F y t) (poll : Poll) :
    position ≤ waitForInterrupt (sts F y t) position poll ∧
      waitForInterrupt (sts F y t) position poll ≤ beats .lago F y t := by
  cases poll with
  | timeout => exact ⟨le_rfl, hposition⟩
  | interrupt ipr =>
    rw [waitForInterrupt, sts_eq hlap]
    split
    · exact ⟨hposition, le_rfl⟩
    · exact ⟨le_rfl, hposition⟩

/-- Every word that a turn reads has been written and is in its place. -/
theorem Chain.same_calls (h : Chain g F S T x z y base ram) (hlap : beats .lago F y last ≤ 2 ^ 19)
    {vs : List (Turn ρ)} (hsorted : vs.Pairwise (·.cycle ≤ ·.cycle))
    (hcycles : ∀ v ∈ vs, ∀ i, v.cycle ≤ v.readAt i ∧ v.readAt i ≤ last) {position : Nat}
    (hposition : ∀ v ∈ vs, position ≤ beats .lago F y v.cycle) :
    List.Forall₂ (fun c c' => c.pos = c'.pos ∧ ∀ i, i < c.pos → c.mem i = c'.mem i)
      (turnCalls F y (seenIn ram base) position vs)
      (turnCalls F y (seenAs (transfers (output g x) 0 (T + last))) position vs) := by
  induction vs generalizing position with
  | nil => exact .nil
  | cons v vs ih =>
    rw [List.pairwise_cons] at hsorted
    have hreads := hcycles v List.mem_cons_self
    have hbeats : ∀ u, u ≤ last → beats .lago F y u ≤ 2 ^ 19 := fun u hu =>
      (events_mono _ (Nat.zero_le u) hu).trans hlap
    have hcycle := hbeats v.cycle ((hreads 0).1.trans (hreads 0).2)
    obtain ⟨hlow, hhigh⟩ := waitForInterrupt_bounds (by omega)
      (hposition v List.mem_cons_self) v.poll
    refine .cons ⟨rfl, fun i hi => ?_⟩ (ih hsorted.2 (fun w hw => hcycles w
      (List.mem_cons_of_mem v hw)) fun w hw => hhigh.trans (events_mono _ (Nat.zero_le _)
        (hsorted.1 w hw)))
    obtain ⟨hafter, hbefore⟩ := hreads i
    have hmono : beats .lago F y v.cycle ≤ beats .lago F y (v.readAt i) :=
      events_mono _ (Nat.zero_le _) hafter
    have hi' : i < waitForInterrupt (sts F y v.cycle) position v.poll := hi
    have hword := h.getElem?_words hbefore (hbeats _ hbefore) (show i < _ by omega)
    change (wordAt _ _ _, _) = (List.getD _ _ _, _)
    rw [List.getD_eq_getElem?_getD, hword, Option.getD_some]

/-- **The words of the trigger core.** Whatever the clocks of program and design do, as long as the
writer stays in the buffer: the program decodes what it would decode if the buffer held the words of
the trigger core, all of them and from the beginning; of these it decodes, in order and once, those
up to the end of the last read except the words at the ends of the reads before; and it has got to
half of the words at most. -/
theorem reads_stream (h : Chain g F S T x z y base ram) (hlap : beats .lago F y last ≤ 2 ^ 19)
    {vs : List (Turn ρ)} (hsorted : vs.Pairwise (·.cycle ≤ ·.cycle))
    (hcycles : ∀ v ∈ vs, ∀ i, v.cycle ≤ v.readAt i ∧ v.readAt i ≤ last) :
    (∀ (σ : Type) (decode : σ → Word × ρ → σ) (enter : σ → σ) (s : σ),
      daqLoop ringLimit decode enter (turnCalls F y (seenIn ram base) 0 vs) ⟨-2, s⟩ =
        daqLoop ringLimit decode enter
          (turnCalls F y (seenAs (transfers (output g x) 0 (T + last))) 0 vs) ⟨-2, s⟩) ∧
      daqIndices ringLimit (turnPositions F y vs) =
        (List.range ((readEnds 0 (turnPositions F y vs)).getLastD 0)).filter
          (fun i => decide (i ∉ (readEnds 0 (turnPositions F y vs)).dropLast)) ∧
      2 * (readEnds 0 (turnPositions F y vs)).getLastD 0 ≤
        (transfers (output g x) 0 (T + last)).length := by
  have hpolls : ∀ q ∈ vs.map fun v => (v.cycle, v.poll),
      q.1 ≤ last ∧ 0 ≤ events (beat .lago F y) 0 q.1 := by
    intro q hq
    obtain ⟨v, hv, rfl⟩ := List.mem_map.mp hq
    obtain ⟨hafter, hbefore⟩ := hcycles v hv 0
    exact ⟨hafter.trans hbefore, Nat.zero_le _⟩
  have hfirst : beats .lago F y last < 2 ^ 20 := by omega
  obtain ⟨hpositions, hbounds⟩ :=
    positions_sorted hfirst (List.pairwise_map.mpr hsorted) hpolls
  have hlimit : ∀ p ∈ turnPositions F y vs, p + 1 < ringLimit := by
    intro p hp
    have hle : p ≤ beats .lago F y last := (hbounds p hp).2
    rw [ringLimit]
    omega
  refine ⟨fun σ decode enter s => ?_, ?_, ?_⟩
  · have hsame := h.same_calls hlap hsorted hcycles fun v _ => Nat.zero_le _
    have hmap := map_pos_turnCalls (F := F) (y := y) (seenIn ram base) 0 vs
    exact daqLoop_congr (a := 0) hsame (hmap ▸ hpositions) (fun _ _ => Nat.zero_le _)
      (hmap ▸ hlimit)
  · rw [daqIndices_eq, List.range_eq_range']
    exact decoded_cursorAt (a := 0) hpositions (fun _ _ => Nat.zero_le _) hlimit
  · have hend : (readEnds 0 (turnPositions F y vs)).getLastD 0 ≤ beats .lago F y last := by
      rcases List.mem_cons.mp (@List.getLastD_mem_cons _ (readEnds 0 (turnPositions F y vs)) 0)
        with hzero | hmem
      · rw [hzero]
        exact Nat.zero_le _
      · exact (hbounds _ (mem_of_mem_readEnds hmem)).2
    rcases Nat.eq_zero_or_pos (beats .lago F y last) with hnone | hsome
    · omega
    · have hword := h.getElem?_words le_rfl hlap
        (show 2 * beats .lago F y last - 1 < 2 * beats .lago F y last by omega)
      have := (List.getElem?_eq_some_iff.mp hword).1
      omega

end Session

/-! ## A session with two polls -/

/-- A pulse of the time base in every fourteenth cycle. -/
def secondsOnly (t : Nat) : Trigger.Input := { Trigger.Input.quiet 0 t with ppsI := t % 14 = 0 }

def afterTrigger (t : Nat) : TlastGen.Input 32 32 where
  pktLength := 1
  sAxisTvalid := (Trigger.run .smallest secondsOnly t).fsm.axisTvalidReg
  sAxisTdata := (Trigger.run .smallest secondsOnly t).fsm.dataToFifoReg
  mAxisTready := true

theorem linked_afterTrigger : Linked .smallest secondsOnly afterTrigger :=
  ⟨fun _ => rfl, fun _ => rfl, fun _ => rfl⟩

/-- The beats of the first sixty cycles. -/
def firstBeats : List (BitVec 64) := pack (transfers (output .smallest secondsOnly) 0 60)

/-- A converter that holds them back until then. -/
def heldBack (t : Nat) : Writer.Input where
  cfgData := pages4096.base
  mAxiAwready := true
  mAxiWready := true
  sAxisTdata := firstBeats.getD (t - 60) 0
  sAxisTvalid := decide (60 ≤ t ∧ t < 87)

theorem length_firstBeats : firstBeats.length = 27 := by
  rw [firstBeats, length_pack]
  decide +kernel

theorem heldBack_addressFirst : AddressFirst .lago queue heldBack :=
  addressFirst_of_awready fun _ => rfl

theorem accepted_heldBack (t : Nat) :
    transfers (accepted .lago queue heldBack) 0 t = firstBeats.take (t - 60) := by
  induction t with
  | zero => rfl
  | succ t ih =>
    have hcontents := congrArg List.length
      (accepted_eq heldBack_addressFirst (queue_holdsBurst heldBack) t)
    rw [ih, List.length_append, List.length_take, length_firstBeats] at hcontents
    have hready : (run .lago queue heldBack t).intTreadyWire = true := by
      have hfull : ¬ 512 ≤ (run .lago queue heldBack t).fifo.length := by
        change _ = _ + (run .lago queue heldBack t).fifo.length at hcontents
        omega
      rw [Regs.intTreadyWire, Regs.intFullWire, Bool.not_eq_true']
      exact decide_eq_false hfull
    rw [transfers_succ _ (Nat.zero_le t), ih, accepted, hready, Bool.true_and]
    by_cases hvalid : 60 ≤ t ∧ t < 87
    · have hdata : (heldBack t).sAxisTvalid = true := decide_eq_true hvalid
      have hlt : t - 60 < firstBeats.length := by
        rw [length_firstBeats]
        omega
      rw [if_pos hdata, show t + 1 - 60 = t - 60 + 1 by omega, List.take_add_one]
      simp [heldBack, hlt]
    · have hdata : (heldBack t).sAxisTvalid = false := decide_eq_false hvalid
      rw [if_neg (by simp [hdata]), Option.toList_none, List.append_nil]
      rcases Nat.lt_or_ge t 60 with hlt | hge
      · rw [show t + 1 - 60 = t - 60 by omega]
      · rw [List.take_of_length_le (by rw [length_firstBeats]; omega),
          List.take_of_length_le (by rw [length_firstBeats]; omega)]

theorem chain_heldBack : Chain .smallest queue queueContents 0 secondsOnly afterTrigger heldBack
    pages4096.base (storing .lago queue heldBack pages4096.base) where
  linked := linked_afterTrigger
  packs t := by
    rw [accepted_heldBack, linked_afterTrigger.map_tdata_sent, Nat.zero_add]
    rcases Nat.lt_or_ge t 60 with hlt | hge
    · rw [show t - 60 = 0 by omega]
      exact List.nil_prefix
    · refine (List.take_prefix _ _).trans (pack_mono ?_)
      rw [transfers_append _ (Nat.zero_le 60) hge]
      exact List.prefix_append _ _
  memory := stores_storing (fun _ => rfl) heldBack_addressFirst
  holdsBurst := queue_holdsBurst heldBack

def twoPolls : List (Turn Unit) :=
  [⟨82, .interrupt 1, fun _ => 90, fun _ => ()⟩, ⟨94, .interrupt 1, fun _ => 99, fun _ => ()⟩]

/-- Word 4 is left out. -/
theorem reads_stream_heldBack : daqIndices ringLimit (turnPositions queue heldBack twoPolls) =
    (List.range 16).filter fun i => decide (i ∉ [4]) := by
  have hpositions : turnPositions queue heldBack twoPolls = [4, 16] := by decide +kernel
  have hlap : beats .lago queue heldBack 99 ≤ 2 ^ 19 :=
    (events_le_length _ 0 99).trans (by decide)
  have hread := (@reads_stream _ _ _ _ 99 _ _ _ _ _ Unit chain_heldBack hlap twoPolls
    (by simp [twoPolls]) (by simp [twoPolls])).2.1
  rw [hpositions] at hread ⊢
  exact hread

end RpEcosystem.Daq
