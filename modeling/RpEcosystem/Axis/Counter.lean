import RpEcosystem.Clocked.Machine
import RpEcosystem.Clocked.Modulo
import RpEcosystem.Clocked.Rates

/-!
# A packet of numbers: `axis_counter`

The core offers a count that moves on with every transfer. Its `tvalid` and `tlast` are registered
comparisons of the count, so they are right one cycle late: both belong to the count of the cycle
before. The last two words are sent as they should be only when they are taken at once, and one
cycle after the last word `tvalid` rises again, since the count has left the value it is compared
with.

* `Input`, `Regs`, `machine`: the circuit;
* `run_early`, `sent_early`: the run up to the word before the last;
* `one_packet_iff`: the receivers that get exactly one packet.
-/

namespace RpEcosystem.Counter

open Clocked

structure Input (cw : Nat) where
  cfgData : BitVec cw
  mAxisTready : Bool

structure Regs (cw : Nat) where
  cntrReg : BitVec cw
  tlastReg : Bool
  compReg : Bool

variable {cw : Nat}

namespace Regs

variable (r : Regs cw) (i : Input cw)

def tlastNext : Bool := if r.cntrReg = i.cfgData - 2 then true else false

def compNext : Bool := if r.cntrReg = i.cfgData - 1 then false else true

def cntrNext : BitVec cw :=
  if r.compReg && i.mAxisTready then r.cntrReg + 1 else r.cntrReg

/-- `m_axis_tdata`: the count, resized to the width of the port. -/
def mAxisTdata (tw : Nat) : BitVec tw := r.cntrReg.setWidth tw

def mAxisTlast : Bool := r.tlastReg

def mAxisTvalid : Bool := r.compReg

/-- The word transferred on `m_axis`, with its `tlast`. -/
def taken (tw : Nat) : Option (BitVec tw × Bool) :=
  if r.mAxisTvalid && i.mAxisTready then some (r.mAxisTdata tw, r.mAxisTlast) else none

end Regs

def machine (cw : Nat) : Machine (Input cw) (Regs cw) where
  reset := { cntrReg := 0, tlastReg := false, compReg := false }
  next i r := { cntrReg := r.cntrNext i, tlastReg := r.tlastNext i, compReg := r.compNext i }

/-- The inputs with constant `n` and a receiver that is ready in some cycles. -/
def inputs (n : BitVec cw) (ready : Nat → Bool) (t : Nat) : Input cw where
  cfgData := n
  mAxisTready := ready t

section Runs

variable (n : BitVec cw) (ready : Nat → Bool)

def run (t : Nat) : Regs cw := (machine cw).run (inputs n ready) t

/-- The words transferred on `m_axis` before cycle `t`. -/
def sent (tw : Nat) (t : Nat) : List (BitVec tw × Bool) :=
  transfers (fun u => (run n ready u).taken (inputs n ready u) tw) 0 t

end Runs

/-- The numbers below `k`, as words. -/
def numbers (tw k : Nat) : List (BitVec tw) := (List.range k).map (BitVec.ofNat tw)

/-- The packet: the numbers below `n`, with `tlast` on the last one. -/
def packet (tw n : Nat) : List (BitVec tw × Bool) :=
  flagged (fun k => decide (k = n)) (numbers tw n)

/-- At most one packet is sent, and a word that is offered stays until it is taken. -/
structure OnePacket (tw : Nat) (n : BitVec cw) (ready : Nat → Bool) : Prop where
  inOrder : ∀ t, sent n ready tw t <+: packet tw n.toNat
  steady : ∀ t, (run n ready t).mAxisTvalid = true → ready t = false →
    (run n ready (t + 1)).mAxisTvalid = true

/-! ## One edge -/

section Step

variable {n : BitVec cw} {ready : Nat → Bool}

theorem cntrReg_succ (t : Nat) : (run n ready (t + 1)).cntrReg =
    if (run n ready t).compReg && ready t then (run n ready t).cntrReg + 1
    else (run n ready t).cntrReg := rfl

theorem compReg_succ (hn : 2 ≤ n.toNat) (t : Nat) : (run n ready (t + 1)).compReg =
    !decide ((run n ready t).cntrReg.toNat = n.toNat - 1) := by
  change (if (run n ready t).cntrReg = n - 1 then false else true) = _
  simp only [eq_sub_one_iff rfl (by omega : 0 < n.toNat)]
  split
  next h => simp [h]
  next h => simp [h]

theorem tlastReg_succ (hn : 2 ≤ n.toNat) (t : Nat) : (run n ready (t + 1)).tlastReg =
    decide ((run n ready t).cntrReg.toNat = n.toNat - 2) := by
  have hiff : (run n ready t).cntrReg = n - 2 ↔
      (run n ready t).cntrReg.toNat = n.toNat - 2 := by
    rw [← BitVec.toNat_inj]
    exact Eq.congr_right (toNat_sub_ofNat_of_le hn)
  change (if (run n ready t).cntrReg = n - 2 then true else false) = _
  simp only [hiff]
  split
  next h => simp [h]
  next h => simp [h]

theorem sent_taken (tw : Nat) {t : Nat} (hcomp : (run n ready t).compReg = true)
    (hready : ready t = true) : sent n ready tw (t + 1) = sent n ready tw t ++
      [(BitVec.ofNat tw (run n ready t).cntrReg.toNat, (run n ready t).tlastReg)] := by
  have hword : (run n ready t).taken (inputs n ready t) tw =
      some ((run n ready t).cntrReg.setWidth tw, (run n ready t).tlastReg) := by
    simp [Regs.taken, Regs.mAxisTvalid, Regs.mAxisTdata, Regs.mAxisTlast, inputs, hcomp, hready]
  rw [sent, transfers_succ _ (Nat.zero_le t), hword, BitVec.ofNat_toNat]
  rfl

theorem sent_idle (tw : Nat) {t : Nat} (h : ((run n ready t).compReg && ready t) = false) :
    sent n ready tw (t + 1) = sent n ready tw t := by
  have hnone : (run n ready t).taken (inputs n ready t) tw = none := by
    simp only [Regs.taken, Regs.mAxisTvalid, inputs, h]
    rfl
  rw [sent, transfers_succ _ (Nat.zero_le t), hnone, Option.toList_none, List.append_nil]
  rfl

/-! ## Up to the word before the last -/

theorem numbers_succ (tw k : Nat) : numbers tw (k + 1) = numbers tw k ++ [BitVec.ofNat tw k] := by
  rw [numbers, List.range_succ, List.map_append, numbers]
  rfl

@[simp] theorem length_numbers (tw k : Nat) : (numbers tw k).length = k := by
  simp [numbers]

theorem numbers_prefix_of_le (tw : Nat) {j k : Nat} (h : j ≤ k) :
    numbers tw j <+: numbers tw k := by
  induction k, h using Nat.le_induction with
  | base => exact List.prefix_rfl
  | succ k hjk ih =>
    rw [numbers_succ]
    exact ih.trans (List.prefix_append _ _)

/-- While the word before the last has not been taken, the count is the number of transfers, and
the next word is offered. -/
theorem run_early (hn : 2 ≤ n.toNat) {t : Nat} (ht : events ready 1 t ≤ n.toNat - 2) :
    (run n ready (t + 1)).cntrReg.toNat = events ready 1 (t + 1) ∧
      (run n ready (t + 1)).compReg = true ∧
      (run n ready (t + 1)).tlastReg = decide (events ready 1 t = n.toNat - 2) := by
  have hfits : n.toNat < 2 ^ cw := n.isLt
  induction t with
  | zero =>
    have hzero : (run n ready 0).cntrReg.toNat = 0 := rfl
    rw [compReg_succ hn, tlastReg_succ hn, hzero]
    exact ⟨rfl, by simp; omega, rfl⟩
  | succ t ih =>
    have hmono := events_le_add_one ready 1 t
    obtain ⟨hcntr, hcomp, -⟩ := ih (by omega)
    rw [compReg_succ hn, tlastReg_succ hn, hcntr, cntrReg_succ, hcomp,
      events_succ ready (by omega : 1 ≤ t + 1)]
    refine ⟨?_, by simp; omega, rfl⟩
    cases ready (t + 1) with
    | false => exact hcntr
    | true =>
      simp only [Bool.and_self, if_true]
      rw [toNat_add_one_of_lt (by omega), hcntr]

theorem flagged_numbers_succ (tw k m : Nat) :
    flagged (fun j => decide (j = m)) (numbers tw (k + 1)) =
      flagged (fun j => decide (j = m)) (numbers tw k) ++
        [(BitVec.ofNat tw k, decide (k + 1 = m))] := by
  rw [numbers_succ, flagged_concat, length_numbers]

/-- The words that are taken before the last but one are not marked. -/
theorem sent_early (hn : 2 ≤ n.toNat) (tw : Nat) {t : Nat} (ht : events ready 1 t ≤ n.toNat - 2) :
    sent n ready tw t =
      flagged (fun k => decide (k = n.toNat)) (numbers tw (events ready 1 t)) := by
  induction t with
  | zero => rfl
  | succ t ih =>
    have hmono := events_le_add_one ready 1 t
    cases t with
    | zero => rfl
    | succ t =>
      have hmono' := events_le_add_one ready 1 t
      have hsucc := events_succ ready (by omega : 1 ≤ t + 1)
      obtain ⟨hcntr, hcomp, htlast⟩ := run_early hn (by omega : events ready 1 t ≤ n.toNat - 2)
      cases hready : ready (t + 1) with
      | false =>
        rw [hready] at hsucc
        rw [sent_idle tw (by rw [hready, Bool.and_false]), ih (by omega), hsucc]
        rfl
      | true =>
        rw [hready, if_pos rfl] at hsucc
        rw [sent_taken tw hcomp hready, ih (by omega), hsucc, flagged_numbers_succ, hcntr, htlast,
          decide_eq_false (by omega), decide_eq_false (by omega)]

end Step

/-! ## The last words -/

/-- The last three words of a packet of `n` are taken one right after the other, the first of them
in cycle `t`. -/
structure Prompt (n : Nat) (ready : Nat → Bool) (t : Nat) : Prop where
  pos : 1 ≤ t
  before : events ready 1 t + 3 = n
  third : ready t = true
  second : ready (t + 1) = true
  last : ready (t + 2) = true

namespace Prompt

variable {n : BitVec cw} {ready : Nat → Bool} {t : Nat}

theorem two_le (h : Prompt n.toNat ready t) : 2 ≤ n.toNat := by
  have hbefore := h.before
  omega

theorem events_succ_eq (h : Prompt n.toNat ready t) : events ready 1 (t + 1) = n.toNat - 2 := by
  have hbefore := h.before
  rw [events_succ ready h.pos, if_pos h.third]
  omega

/-- The word before the last is offered, not marked, and then the last one, marked. -/
theorem run_last (h : Prompt n.toNat ready t) :
    ((run n ready (t + 1)).cntrReg.toNat = n.toNat - 2 ∧ (run n ready (t + 1)).compReg = true ∧
        (run n ready (t + 1)).tlastReg = false) ∧
      (run n ready (t + 2)).cntrReg.toNat = n.toNat - 1 ∧ (run n ready (t + 2)).compReg = true ∧
        (run n ready (t + 2)).tlastReg = true := by
  have hbefore := h.before
  have hsucc := h.events_succ_eq
  have hsucc' : events ready 1 (t + 2) = n.toNat - 1 := by
    rw [events_succ ready (by omega : 1 ≤ t + 1), if_pos h.second]
    omega
  obtain ⟨hcntr, hcomp, htlast⟩ := run_early h.two_le (by omega : events ready 1 t ≤ n.toNat - 2)
  obtain ⟨hcntr', hcomp', htlast'⟩ :=
    run_early h.two_le (by omega : events ready 1 (t + 1) ≤ n.toNat - 2)
  refine ⟨⟨hcntr.trans hsucc, hcomp, ?_⟩, hcntr'.trans hsucc', hcomp', ?_⟩
  · rw [htlast, decide_eq_false (by omega)]
  · rw [htlast', decide_eq_true hsucc]

theorem sent_last (h : Prompt n.toNat ready t) (tw : Nat) :
    sent n ready tw (t + 3) = packet tw n.toNat := by
  have hbefore := h.before
  have hsucc := h.events_succ_eq
  obtain ⟨⟨hcntr, hcomp, htlast⟩, hcntr', hcomp', htlast'⟩ := h.run_last
  obtain ⟨k, hk⟩ : ∃ k, n.toNat = k + 2 := ⟨n.toNat - 2, by omega⟩
  rw [sent_taken tw hcomp' h.last, sent_taken tw hcomp h.second,
    sent_early h.two_le tw (by omega), packet, hsucc, hcntr, hcntr', htlast, htlast', hk,
    flagged_numbers_succ tw (k + 1), flagged_numbers_succ tw k]
  simp

/-- As long as the receiver is not ready again, nothing more is sent; but from cycle `t + 4` on
the number after the last is offered. -/
theorem run_after (h : Prompt n.toNat ready t) (tw k : Nat)
    (hquiet : ∀ u, t + 4 ≤ u → u < t + 3 + k → ready u = false) :
    (run n ready (t + 3 + k)).cntrReg = n ∧ (run n ready (t + 3 + k)).compReg = decide (1 ≤ k) ∧
      sent n ready tw (t + 3 + k) = packet tw n.toNat := by
  have hn := h.two_le
  have hfits : n.toNat < 2 ^ cw := n.isLt
  induction k with
  | zero =>
    obtain ⟨-, hcntr, hcomp, -⟩ := h.run_last
    refine ⟨?_, ?_, h.sent_last tw⟩
    · change (run n ready (t + 2 + 1)).cntrReg = n
      rw [cntrReg_succ, hcomp, h.last, ← BitVec.toNat_inj]
      simp only [Bool.and_self, if_true]
      rw [toNat_add_one_of_lt (by omega), hcntr]
      omega
    · change (run n ready (t + 2 + 1)).compReg = _
      rw [compReg_succ hn, hcntr]
      simp
  | succ k ih =>
    obtain ⟨hcntr, hcomp, hsent⟩ := ih fun u hlo hhi => hquiet u hlo (by omega)
    have hidle : ((run n ready (t + 3 + k)).compReg && ready (t + 3 + k)) = false := by
      cases k with
      | zero => rw [hcomp]; rfl
      | succ k => rw [hquiet (t + 3 + (k + 1)) (by omega) (by omega), Bool.and_false]
    refine ⟨?_, ?_, ?_⟩
    · rw [← Nat.add_assoc, cntrReg_succ, hidle]
      exact hcntr
    · rw [← Nat.add_assoc, compReg_succ hn, hcntr,
        decide_eq_false (by omega : ¬ n.toNat = n.toNat - 1),
        decide_eq_true (by omega : 1 ≤ k + 1)]
      rfl
    · rw [← Nat.add_assoc, sent_idle tw hidle, hsent]

end Prompt

/-! ## One packet -/

section OnePacket

variable {n : BitVec cw} {ready : Nat → Bool}

/-- A receiver that never takes the word before the last gets a part of the packet. -/
theorem onePacket_of_few (hn : 2 ≤ n.toNat) (tw : Nat)
    (hfew : ∀ t, events ready 1 t + 2 ≤ n.toNat) : OnePacket tw n ready where
  inOrder t := by
    have ht := hfew t
    rw [sent_early hn tw (by omega)]
    exact flagged_prefix _ (numbers_prefix_of_le tw (by omega))
  steady t _ _ := by
    have ht := hfew t
    exact (run_early hn (by omega)).2.1

theorem sent_mono (tw : Nat) {t u : Nat} (h : t ≤ u) : sent n ready tw t <+: sent n ready tw u := by
  rw [sent, sent, transfers_append _ (Nat.zero_le t) h]
  exact List.prefix_append _ _

theorem onePacket_of_prompt (tw : Nat) {t : Nat} (h : Prompt n.toNat ready t)
    (hclosed : ∀ u, t + 4 ≤ u → ready u = false) : OnePacket tw n ready where
  inOrder u := by
    rcases Nat.le_total u (t + 3) with hle | hge
    · rw [← h.sent_last tw]
      exact sent_mono tw hle
    · obtain ⟨k, rfl⟩ := Nat.exists_eq_add_of_le hge
      have hsent := (h.run_after tw k fun u hlo _ => hclosed u hlo).2.2
      exact hsent ▸ List.prefix_rfl
  steady u hvalid hready := by
    rcases Nat.lt_or_ge u (t + 2) with hlt | hge
    · have hearly : events ready 1 u ≤ n.toNat - 2 := by
        rw [← h.events_succ_eq]
        exact events_le_of_le ready 1 (by omega)
      exact (run_early h.two_le hearly).2.1
    · have hne : u ≠ t + 2 := by
        rintro rfl
        rw [h.last] at hready
        cases hready
      obtain ⟨k, rfl⟩ := Nat.exists_eq_add_of_le (by omega : t + 3 ≤ u)
      have hafter := (h.run_after tw (k + 1) fun u hlo _ => hclosed u hlo).2.1
      exact hafter.trans (decide_eq_true (by omega))

/-- When the word before the last is taken it must not be marked, so it is taken in its first
cycle; and the last one is only offered for one cycle. -/
theorem OnePacket.prompt {tw : Nat} (hn : 2 ≤ n.toNat) (h : OnePacket tw n ready) {t : Nat}
    (ht : n.toNat ≤ events ready 1 t + 1) : ∃ u, Prompt n.toNat ready u := by
  obtain ⟨u, hpos, -, hsecond, hcount⟩ :=
    exists_event ready (by omega : n.toNat - 2 < events ready 1 t)
  obtain ⟨v, rfl⟩ : ∃ v, u = v + 1 := ⟨u - 1, by omega⟩
  have hmono := events_le_add_one ready 1 v
  obtain ⟨hcntr, hcomp, htlast⟩ := run_early hn (by omega : events ready 1 v ≤ n.toNat - 2)
  obtain ⟨k, hk⟩ : ∃ k, n.toNat = k + 2 := ⟨n.toNat - 2, by omega⟩
  have hunmarked : (run n ready (v + 1)).tlastReg = false := by
    have horder := h.inOrder (v + 2)
    rw [sent_taken tw hcomp hsecond, sent_early hn tw (by omega), hcntr, hcount, packet, hk,
      flagged_numbers_succ tw (k + 1), flagged_numbers_succ tw k, List.append_assoc,
      Nat.add_sub_cancel, List.prefix_append_right_inj] at horder
    simpa using horder
  rw [htlast, decide_eq_false_iff_not] at hunmarked
  have hv : 1 ≤ v := by
    by_contra hzero
    obtain rfl : v = 0 := by omega
    exact hunmarked hcount
  have hthird : ready v = true := by
    by_contra hlow
    rw [events_succ ready hv, if_neg hlow] at hcount
    exact hunmarked hcount
  refine ⟨v, hv, ?_, hthird, hsecond, ?_⟩
  · rw [events_succ ready hv, if_pos hthird] at hcount
    omega
  · -- if it is not taken then `tvalid` falls
    by_contra hlow
    obtain ⟨hcntr', hcomp', -⟩ := run_early hn (by omega : events ready 1 (v + 1) ≤ n.toNat - 2)
    have hstays := h.steady (v + 2) hcomp' (Bool.eq_false_of_not_eq_true hlow)
    rw [events_succ ready (by omega : 1 ≤ v + 1), if_pos hsecond] at hcntr'
    change (run n ready (v + 2 + 1)).compReg = true at hstays
    rw [compReg_succ hn, hcntr', decide_eq_true (by omega)] at hstays
    cases hstays

/-- The receivers that get exactly one packet: those that never take the word before the last, and
those that take the last three words one right after the other and nothing from the second cycle
after the last one on. -/
theorem one_packet_iff (hn : 2 ≤ n.toNat) (tw : Nat) : OnePacket tw n ready ↔
    (∀ t, events ready 1 t + 2 ≤ n.toNat) ∨
      ∃ t, Prompt n.toNat ready t ∧ ∀ u, t + 4 ≤ u → ready u = false := by
  constructor
  · intro h
    by_cases hfew : ∀ t, events ready 1 t + 2 ≤ n.toNat
    · exact Or.inl hfew
    · push Not at hfew
      obtain ⟨t, ht⟩ := hfew
      obtain ⟨u, hprompt⟩ := h.prompt hn (by omega : n.toNat ≤ events ready 1 t + 1)
      refine Or.inr ⟨u, hprompt, ?_⟩
      intro w
      -- the first cycle in which the receiver is ready again would bring one word too many
      induction w using Nat.strong_induction_on with
      | _ w ih =>
        intro hw
        by_contra hready
        obtain ⟨k, rfl⟩ := Nat.exists_eq_add_of_le (by omega : u + 3 ≤ w)
        obtain ⟨-, hcomp, hsent⟩ := hprompt.run_after tw k fun v hlo hhi => ih v hhi hlo
        have hmore := (h.inOrder (u + 3 + k + 1)).length_le
        rw [sent_taken tw (hcomp.trans (decide_eq_true (by omega)))
          (Bool.eq_true_of_not_eq_false hready), hsent, List.length_append,
          List.length_singleton] at hmore
        omega
  · rintro (hfew | ⟨t, hprompt, hclosed⟩)
    · exact onePacket_of_few hn tw hfew
    · exact onePacket_of_prompt tw hprompt hclosed

end OnePacket

/-- A receiver that is ready in the cycles 1 to 3. -/
def thrice (t : Nat) : Bool := decide (1 ≤ t ∧ t ≤ 3)

theorem one_packet_thrice : OnePacket 16 (3 : BitVec 16) thrice :=
  (@one_packet_iff 16 3 thrice (by decide) 16).mpr
    (Or.inr ⟨1, ⟨by decide, by decide, by decide, by decide, by decide⟩, fun u hu => by
      simp only [thrice, decide_eq_false_iff_not]
      omega⟩)

/-- A receiver that is always ready gets a fourth word. -/
theorem counter_goes_on : ¬ OnePacket 16 (3 : BitVec 16) fun _ => true := by
  intro h
  have horder := h.inOrder 6
  revert horder
  decide

end RpEcosystem.Counter
