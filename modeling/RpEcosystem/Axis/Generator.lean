import RpEcosystem.Clocked.Machine
import RpEcosystem.Clocked.Modulo
import RpEcosystem.Clocked.Stream
import Mathlib.Algebra.BigOperators.Group.List.Basic
import Mathlib.Data.BitVec

/-!
# Sums of packets: `axis_generator`

The core takes a packet, adds its words and sends the sum eight times, the last time with `tlast`.
The first word of a packet only wakes the core up: it is taken from the stream in `Idle` and never
added, and its own `tlast` is not looked at.

* `Input`, `Regs`, `step`: the circuit;
* `Request`, `answer`: a packet, and what is sent for it;
* `Stage`, `stage_step`: what has been taken and sent in each state;
* `answers_requests`: every packet is answered, one after another.
-/

namespace RpEcosystem.Generator

open Clocked

inductive State
  | idle
  | readInputs
  | writeOutputs
  deriving DecidableEq, Repr

structure Input (w : Nat) where
  sAxisTdata : BitVec w
  sAxisTlast : Bool
  sAxisTvalid : Bool
  mAxisTready : Bool

/-- The registers. `nr_of_reads` and `nr_of_writes` have the range 0 to 7; nothing reads the first
one, which wraps in a packet of more than nine words. -/
structure Regs (w : Nat) where
  state : State
  sum : BitVec w
  nrOfReads : BitVec 3
  nrOfWrites : BitVec 3
  tlast : Bool
  deriving DecidableEq, Repr

variable {w : Nat}

def numberOfInputWords : Nat := 8

def numberOfOutputWords : Nat := 8

def sAxisTready (s : Regs w) : Bool := if s.state = .writeOutputs then false else true

def mAxisTvalid (s : Regs w) : Bool := if s.state = .writeOutputs then true else false

def step (i : Input w) (s : Regs w) : Regs w :=
  match s.state with
  | .idle =>
    if i.sAxisTvalid then
      { s with
        state := .readInputs
        nrOfReads := BitVec.ofNat 3 (numberOfInputWords - 1)
        sum := 0 }
    else s
  | .readInputs =>
    if i.sAxisTvalid then
      let s := { s with sum := s.sum + i.sAxisTdata }
      if i.sAxisTlast then
        { s with
          state := .writeOutputs
          nrOfWrites := BitVec.ofNat 3 (numberOfOutputWords - 1) }
      else { s with nrOfReads := s.nrOfReads - 1 }
    else s
  | .writeOutputs =>
    if i.mAxisTready then
      if s.nrOfWrites = 0 then { s with state := .idle, tlast := false }
      else
        { s with
          tlast := if s.nrOfWrites = 1 then true else s.tlast
          nrOfWrites := s.nrOfWrites - 1 }
    else s

def machine (w : Nat) : Machine (Input w) (Regs w) where
  reset := ⟨.idle, 0, 0, 0, false⟩
  next := step

def run (x : Nat → Input w) (t : Nat) : Regs w := (machine w).run x t

/-- The word taken on `s_axis` with its `tlast`. -/
def taken (i : Input w) (s : Regs w) : Option (BitVec w × Bool) :=
  if i.sAxisTvalid && sAxisTready s then some (i.sAxisTdata, i.sAxisTlast) else none

/-- The word transferred on `m_axis` with its `tlast`. -/
def transfer (i : Input w) (s : Regs w) : Option (BitVec w × Bool) :=
  if mAxisTvalid s && i.mAxisTready then some (s.sum, s.tlast) else none

def received (x : Nat → Input w) (t : Nat) : List (BitVec w × Bool) :=
  transfers (fun u => taken (x u) (run x u)) 0 t

def sent (x : Nat → Input w) (t : Nat) : List (BitVec w × Bool) :=
  transfers (fun u => transfer (x u) (run x u)) 0 t

/-! ## Requests and answers -/

/-- The sum of all words but the first. -/
def total (p : List (BitVec w × Bool)) : BitVec w := (p.tail.map Prod.fst).sum

/-- A packet under way: the first word and words without `tlast`. -/
def Begun (p : List (BitVec w × Bool)) : Prop := p ≠ [] ∧ ∀ v ∈ p.tail, v.2 = false

/-- A packet: of the words after the first only the last one has `tlast`. -/
def Request (p : List (BitVec w × Bool)) : Prop := ∃ front d, p = front ++ [(d, true)] ∧ Begun front

def answer (p : List (BitVec w × Bool)) : List (BitVec w × Bool) :=
  List.replicate 7 (total p, false) ++ [(total p, true)]

theorem total_concat {p : List (BitVec w × Bool)} (hp : p ≠ []) (v : BitVec w × Bool) :
    total (p ++ [v]) = total p + v.1 := by
  rw [total, List.tail_append_of_ne_nil hp, List.map_append, List.sum_append, total]
  simp

theorem Begun.concat {p : List (BitVec w × Bool)} (h : Begun p) (d : BitVec w) :
    Begun (p ++ [(d, false)]) := by
  refine ⟨by simp, fun v hv => ?_⟩
  rw [List.tail_append_of_ne_nil h.1, List.mem_append] at hv
  rcases hv with hv | hv
  · exact h.2 v hv
  · rw [List.mem_singleton.mp hv]

/-! ## One edge -/

/-- What has been taken and sent: `ps` are the packets taken so far. -/
def Stage (l m : List (BitVec w × Bool)) (s : Regs w) : Prop :=
  ∃ ps : List (List (BitVec w × Bool)), (∀ p ∈ ps, Request p) ∧
    match s.state with
    | .idle => l = ps.flatten ∧ m = (ps.map answer).flatten ∧ s.tlast = false
    | .readInputs => ∃ p, Begun p ∧ s.sum = total p ∧ l = ps.flatten ++ p ∧
        m = (ps.map answer).flatten ∧ s.tlast = false
    | .writeOutputs => ∃ p, Request p ∧ s.sum = total p ∧ l = ps.flatten ++ p ∧
        m = (ps.map answer).flatten ++
          List.replicate (7 - s.nrOfWrites.toNat) (total p, false) ∧
        s.tlast = decide (s.nrOfWrites = 0)

section Step

variable {l m : List (BitVec w × Bool)} {i : Input w} {s : Regs w}

theorem stage_idle (hstate : s.state = .idle) (h : Stage l m s) :
    Stage (l ++ (taken i s).toList) (m ++ (transfer i s).toList) (step i s) := by
  obtain ⟨ps, hps, h⟩ := h
  rw [hstate] at h
  obtain ⟨rfl, rfl, htlast⟩ := h
  refine ⟨ps, hps, ?_⟩
  cases hvalid : i.sAxisTvalid with
  | false => simpa [step, taken, transfer, mAxisTvalid, hstate, hvalid] using htlast
  | true =>
    simp only [step, taken, transfer, sAxisTready, mAxisTvalid, hstate, hvalid, if_true]
    exact ⟨[(i.sAxisTdata, i.sAxisTlast)], ⟨by simp, nofun⟩, rfl, by simp, by simp, htlast⟩

theorem stage_readInputs (hstate : s.state = .readInputs) (h : Stage l m s) :
    Stage (l ++ (taken i s).toList) (m ++ (transfer i s).toList) (step i s) := by
  obtain ⟨ps, hps, h⟩ := h
  rw [hstate] at h
  obtain ⟨p, hbegun, hsum, rfl, rfl, htlast⟩ := h
  refine ⟨ps, hps, ?_⟩
  cases hvalid : i.sAxisTvalid with
  | false =>
    simp only [step, taken, transfer, mAxisTvalid, hstate, hvalid, Bool.false_and,
      Bool.false_eq_true, if_false]
    exact ⟨p, hbegun, hsum, by simp, by simp, htlast⟩
  | true =>
    cases hlast : i.sAxisTlast with
    | false =>
      simp only [step, taken, transfer, sAxisTready, mAxisTvalid, hstate, hvalid, hlast, if_true,
        Bool.false_eq_true, if_false]
      refine ⟨p ++ [(i.sAxisTdata, false)], hbegun.concat _, ?_, by simp, by simp, htlast⟩
      rw [total_concat hbegun.1, hsum]
    | true =>
      simp only [step, taken, transfer, sAxisTready, mAxisTvalid, hstate, hvalid, hlast, if_true]
      refine ⟨p ++ [(i.sAxisTdata, true)], ⟨p, i.sAxisTdata, rfl, hbegun⟩, ?_, by simp, ?_, ?_⟩
      · rw [total_concat hbegun.1, hsum]
      · simp [numberOfOutputWords]
      · rw [htlast]
        decide

theorem stage_writeOutputs (hstate : s.state = .writeOutputs) (h : Stage l m s) :
    Stage (l ++ (taken i s).toList) (m ++ (transfer i s).toList) (step i s) := by
  obtain ⟨ps, hps, h⟩ := h
  rw [hstate] at h
  obtain ⟨p, hrequest, hsum, rfl, rfl, htlast⟩ := h
  cases hready : i.mAxisTready with
  | false =>
    refine ⟨ps, hps, ?_⟩
    simp only [step, taken, transfer, sAxisTready, hstate, hready, Bool.and_false,
      Bool.false_eq_true, if_false, if_true]
    exact ⟨p, hrequest, hsum, by simp, by simp, htlast⟩
  | true =>
    by_cases hzero : s.nrOfWrites = 0
    · -- the eighth word ends the answer
      refine ⟨ps ++ [p],
        List.forall_mem_append.mpr ⟨hps, List.forall_mem_singleton.mpr hrequest⟩, ?_⟩
      simp only [step, taken, transfer, sAxisTready, mAxisTvalid, hstate, hready, if_true,
        Bool.and_false, Bool.false_eq_true, if_false, if_pos hzero, hsum, htlast]
      simp [hzero, answer]
    · have hlt := s.nrOfWrites.isLt
      have hpos : 0 < s.nrOfWrites.toNat :=
        Nat.pos_of_ne_zero fun h0 => hzero (BitVec.eq_of_toNat_eq h0)
      have hnext : (s.nrOfWrites - 1).toNat = s.nrOfWrites.toNat - 1 := toNat_sub_one_of_pos hpos
      have hone : s.nrOfWrites - 1 = 0 ↔ s.nrOfWrites = 1 := by
        rw [← BitVec.toNat_inj, ← BitVec.toNat_inj, hnext]
        change s.nrOfWrites.toNat - 1 = 0 ↔ s.nrOfWrites.toNat = 1
        omega
      refine ⟨ps, hps, ?_⟩
      simp only [step, taken, transfer, sAxisTready, mAxisTvalid, hstate, hready, if_true,
        Bool.and_false, Bool.false_eq_true, if_false, if_neg hzero]
      refine ⟨p, hrequest, hsum, by simp, ?_, ?_⟩
      · rw [hnext, show 7 - (s.nrOfWrites.toNat - 1) = 7 - s.nrOfWrites.toNat + 1 by omega,
          List.replicate_succ', ← List.append_assoc, hsum, htlast, decide_eq_false hzero]
        rfl
      · rw [htlast, decide_eq_false hzero, decide_eq_decide.mpr hone]
        by_cases hlast : s.nrOfWrites = 1
        · rw [if_pos hlast, decide_eq_true hlast]
        · rw [if_neg hlast, decide_eq_false hlast]

theorem stage_step (h : Stage l m s) :
    Stage (l ++ (taken i s).toList) (m ++ (transfer i s).toList) (step i s) := by
  cases hstate : s.state with
  | idle => exact stage_idle hstate h
  | readInputs => exact stage_readInputs hstate h
  | writeOutputs => exact stage_writeOutputs hstate h

end Step

theorem stage_run (x : Nat → Input w) (t : Nat) : Stage (received x t) (sent x t) (run x t) := by
  induction t with
  | zero => exact ⟨[], nofun, rfl, rfl, rfl⟩
  | succ t ih =>
    rw [received, sent, transfers_succ _ (Nat.zero_le t), transfers_succ _ (Nat.zero_le t)]
    exact stage_step ih

/-- **Answers.** The words taken are whole packets and one under way. What has been sent are the
answers to the packets in their order, of which the last one may be incomplete; no word of the next
packet is taken before it is complete. -/
theorem answers_requests (x : Nat → Input w) (t : Nat) :
    ∃ (ps : List (List (BitVec w × Bool))) (rest : List (BitVec w × Bool)),
      received x t = ps.flatten ++ rest ∧ (∀ p ∈ ps, Request p) ∧ (rest = [] ∨ Begun rest) ∧
        sent x t <+: (ps.map answer).flatten ∧
        (ps.map answer).flatten.length ≤ (sent x t).length + 8 ∧
        (rest ≠ [] → sent x t = (ps.map answer).flatten) := by
  obtain ⟨ps, hps, h⟩ := stage_run x t
  cases hstate : (run x t).state with
  | idle =>
    rw [hstate] at h
    obtain ⟨hl, hm, -⟩ := h
    exact ⟨ps, [], by simpa using hl, hps, .inl rfl, by rw [hm], by rw [hm]; omega, by simp⟩
  | readInputs =>
    rw [hstate] at h
    obtain ⟨p, hbegun, -, hl, hm, -⟩ := h
    exact ⟨ps, p, hl, hps, .inr hbegun, by rw [hm], by rw [hm]; omega, fun _ => hm⟩
  | writeOutputs =>
    rw [hstate] at h
    obtain ⟨p, hrequest, -, hl, hm, -⟩ := h
    have hpacket : ((ps ++ [p]).map answer).flatten = (ps.map answer).flatten ++ answer p := by
      simp
    have hsplit : answer p = List.replicate (7 - (run x t).nrOfWrites.toNat) (total p, false) ++
        (List.replicate ((run x t).nrOfWrites.toNat) (total p, false) ++ [(total p, true)]) := by
      have hlt := (run x t).nrOfWrites.isLt
      rw [answer, ← List.append_assoc, List.replicate_append_replicate,
        Nat.sub_add_cancel (by omega)]
    refine ⟨ps ++ [p], [], by simpa using hl,
      List.forall_mem_append.mpr ⟨hps, List.forall_mem_singleton.mpr hrequest⟩, .inl rfl, ?_, ?_,
      by simp⟩
    · rw [hpacket, hm, hsplit, ← List.append_assoc]
      exact List.prefix_append _ _
    · rw [hpacket, hm, List.length_append, List.length_append, answer]
      simp

end RpEcosystem.Generator
