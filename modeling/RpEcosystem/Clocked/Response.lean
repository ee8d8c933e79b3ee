import RpEcosystem.Clocked.Events
import RpEcosystem.Clocked.Stream
import Mathlib.Tactic.Common

/-!
# Response channels

A slave with room for one answer: a request sets `valid`, a transfer clears it, and a request
wins over both. A request that meets an answer nobody takes is an *overrun*; it replaces that
answer.

* `Channel`: the requests accepted and the answers offered over the cycles;
* `Channel.Registered`: the answer is kept in one register;
* `Channel.Answers`: what the other side relies on;
* `Registered.events_eq`: requests are transfers, the pending answer and the overruns;
* `Registered.transfers_eq`: without overruns every request gets its own data, in order;
* `Registered.waiting`: an answer that waits belongs to the last request.
-/

namespace Clocked

/-- A request in a cycle selects the data of its answer; an answer is taken in a cycle in which
it is valid and the other side is ready. -/
structure Channel (α : Type) where
  request : Nat → Bool
  selected : Nat → α
  ready : Nat → Bool
  valid : Nat → Bool
  data : Nat → α

namespace Channel

variable {α : Type} (c : Channel α)

/-- The cycles in which an answer is taken. -/
def taken (t : Nat) : Bool := c.ready t && c.valid t

/-- A request in a cycle in which an answer waits and is not taken. -/
def overrun (t : Nat) : Bool := c.request t && c.valid t && !c.ready t

/-- The data of the answers, in the cycles in which they are taken. -/
def takenData (t : Nat) : Option α := if c.taken t then some (c.data t) else none

/-- What the requests select. -/
def requested (t : Nat) : Option α := if c.request t then some (c.selected t) else none

/-- No request meets an answer that waits and is not taken. -/
def NoOverrun : Prop := ∀ t, c.overrun t = false

/-- Every request gets an answer of its own: whenever no answer waits, as many were taken as
requests were made; the answers carry what the requests selected, one by one; and an answer
that waits does not change. -/
structure Answers : Prop where
  counted : ∀ t, c.valid t = false → events c.taken 0 t = events c.request 0 t
  inOrder : ∀ t, transfers c.takenData 0 t <+: transfers c.requested 0 t
  steady : ∀ t, c.valid t = true → c.ready t = false → c.data (t + 1) = c.data t

/-- A channel with one register for its answer. -/
structure Registered : Prop where
  empty : c.valid 0 = false
  valid_succ : ∀ t, c.valid (t + 1) =
    if c.request t then true else if c.ready t && c.valid t then false else c.valid t
  data_succ : ∀ t, c.data (t + 1) = if c.request t then c.selected t else c.data t

namespace Registered

variable {c}

/-- Every request has been answered, waits for its transfer or was overrun. -/
theorem events_eq (h : c.Registered) (t : Nat) : events c.request 0 t =
    events c.taken 0 t + (if c.valid t then 1 else 0) + events c.overrun 0 t := by
  induction t with
  | zero => simp [h.empty]
  | succ t ih =>
    rw [events_succ _ t.zero_le, events_succ _ t.zero_le, events_succ _ t.zero_le, ih,
      h.valid_succ t]
    simp only [taken, overrun]
    rcases Bool.eq_false_or_eq_true (c.request t) with hr | hr <;>
      rcases Bool.eq_false_or_eq_true (c.ready t) with hy | hy <;>
      rcases Bool.eq_false_or_eq_true (c.valid t) with hv | hv <;>
      simp [hr, hy, hv] <;> omega

/-- While no answer waits, the counts agree exactly if there was no overrun so far. -/
theorem events_eq_iff (h : c.Registered) {t : Nat} (ht : c.valid t = false) :
    events c.taken 0 t = events c.request 0 t ↔ ∀ u, u < t → c.overrun u = false := by
  have heq := h.events_eq t
  rw [ht] at heq
  have hzero : events c.overrun 0 t = 0 ↔ ∀ u, u < t → c.overrun u = false := by
    constructor
    · intro hnone u hu
      by_contra hover
      have hlt := events_lt _ (Nat.zero_le u) hu (eq_true_of_ne_false hover)
      omega
    · intro hnone
      have hq := events_quiet (a := 0) (b := 0) le_rfl t.zero_le fun u _ hu => hnone u hu
      rw [hq, events_self]
  rw [← hzero]
  simp only [Bool.false_eq_true, if_false] at heq
  omega

/-- The answers given and the one that waits are what the requests selected, in order. -/
theorem transfers_eq (h : c.Registered) (hno : c.NoOverrun) (t : Nat) :
    transfers c.takenData 0 t ++ (if c.valid t then [c.data t] else []) =
      transfers c.requested 0 t := by
  induction t with
  | zero => simp [h.empty]
  | succ t ih =>
    have hover := hno t
    simp only [overrun] at hover
    rw [transfers_succ _ t.zero_le, transfers_succ _ t.zero_le, ← ih, h.valid_succ t,
      h.data_succ t]
    simp only [takenData, taken, requested]
    rcases Bool.eq_false_or_eq_true (c.request t) with hr | hr <;>
      rcases Bool.eq_false_or_eq_true (c.ready t) with hy | hy <;>
      rcases Bool.eq_false_or_eq_true (c.valid t) with hv | hv <;>
      simp [hr, hy, hv] at hover ⊢

/-- An answer that waits was selected by the last request, and nothing was taken since. -/
theorem waiting (h : c.Registered) {t : Nat} (ht : c.valid t = true) :
    lastMark c.request t < t ∧ c.data t = c.selected (lastMark c.request t) ∧
      ∀ u, lastMark c.request t < u → u < t → c.ready u = false := by
  induction t with
  | zero =>
    rw [h.empty] at ht
    cases ht
  | succ t ih =>
    rw [h.valid_succ t] at ht
    rw [lastMark, h.data_succ t]
    split_ifs at ht ⊢ with hreq htaken
    · exact ⟨by omega, rfl, fun u hlo hhi => by omega⟩
    · obtain ⟨hlt, hdata, hquiet⟩ := ih ht
      have hready : c.ready t = false := by simpa [ht] using htaken
      refine ⟨by omega, hdata, fun u hlo hhi => ?_⟩
      rcases Nat.lt_succ_iff_lt_or_eq.mp hhi with hhi | rfl
      · exact hquiet u hlo hhi
      · exact hready

theorem answers (h : c.Registered) (hno : c.NoOverrun) : c.Answers where
  counted t ht := (h.events_eq_iff ht).2 fun u _ => hno u
  inOrder t := by
    rw [← h.transfers_eq hno]
    exact List.prefix_append _ _
  steady t hv hr := by
    have hquiet : c.request t = false := by
      have hover := hno t
      simpa [overrun, hv, hr] using hover
    rw [h.data_succ t, hquiet]
    rfl

end Registered

end Channel

end Clocked
