import Mathlib.Data.List.Basic
import Mathlib.Order.Nat

/-!
# Streams of transferred words and packets

An output that transfers at most one word per cycle is a function `f : Nat → Option α` of
the cycle; `transfers f a b` are the words it transfers in the cycles `[a, b)`, in order.

`PacketStream P l` says that `l` is a concatenation of whole packets (lists that satisfy
`P`), the last one possibly cut short. It is closed under prefixes
(`PacketStream.of_prefix`), so a stream may be judged by the words already issued,
including one that still waits for its transfer.
-/

namespace Clocked

variable {α : Type}

/-- The words transferred in the cycles `[a, b)`. -/
def transfers (f : Nat → Option α) (a b : Nat) : List α := (List.range' a (b - a)).filterMap f

@[simp] theorem transfers_self (f : Nat → Option α) (a : Nat) : transfers f a a = [] := by
  simp [transfers]

theorem transfers_succ (f : Nat → Option α) {a b : Nat} (h : a ≤ b) :
    transfers f a (b + 1) = transfers f a b ++ (f b).toList := by
  have hlen : b + 1 - a = (b - a) + 1 := by omega
  have hb : a + (b - a) = b := by omega
  rw [transfers, transfers, hlen, List.range'_1_concat, List.filterMap_append, hb]
  cases hf : f b <;> simp [hf]

theorem transfers_append (f : Nat → Option α) {a b c : Nat} (hab : a ≤ b) (hbc : b ≤ c) :
    transfers f a c = transfers f a b ++ transfers f b c := by
  induction c, hbc using Nat.le_induction with
  | base => simp
  | succ c hbc ih =>
    rw [transfers_succ f (hab.trans hbc), transfers_succ f hbc, ih, List.append_assoc]

/-- A stretch of cycles that all transfer a word. -/
theorem transfers_some {f : Nat → Option α} {w : Nat → α} {a : Nat} (n : Nat)
    (h : ∀ k, k < n → f (a + k) = some (w k)) :
    transfers f a (a + n) = (List.range n).map w := by
  induction n with
  | zero => simp
  | succ n ih =>
    rw [← Nat.add_assoc, transfers_succ f (by omega), ih fun k hk => h k (by omega),
      h n (by omega), List.range_succ]
    simp

theorem mem_transfers {f : Nat → Option α} {a b : Nat} {w : α} :
    w ∈ transfers f a b ↔ ∃ u, a ≤ u ∧ u < b ∧ f u = some w := by
  simp only [transfers, List.mem_filterMap, List.mem_range'_1]
  constructor
  · rintro ⟨u, hu, hw⟩
    exact ⟨u, hu.1, by omega, hw⟩
  · rintro ⟨u, ha, hb, hw⟩
    exact ⟨u, ⟨ha, by omega⟩, hw⟩

/-! ## Packets -/

/-- A concatenation of whole packets, the last one possibly cut short. -/
def PacketStream (P : List α → Prop) (l : List α) : Prop :=
  ∃ (ps : List (List α)) (rest : List α), l = ps.flatten ++ rest ∧ (∀ p ∈ ps, P p) ∧
    (rest = [] ∨ ∃ p, P p ∧ rest <+: p)

namespace PacketStream

variable {P : List α → Prop}

theorem imp {Q : List α → Prop} (hPQ : ∀ p, P p → Q p) {l : List α} (h : PacketStream P l) :
    PacketStream Q l := by
  obtain ⟨ps, rest, hl, hps, hrest⟩ := h
  refine ⟨ps, rest, hl, fun p hp => hPQ p (hps p hp), ?_⟩
  exact hrest.imp_right fun ⟨p, hp, hcut⟩ => ⟨p, hPQ p hp, hcut⟩

theorem of_prefix {l l' : List α} (h : PacketStream P l) (hpre : l' <+: l) :
    PacketStream P l' := by
  obtain ⟨ps, rest, rfl, hps, hrest⟩ := h
  induction ps generalizing l' with
  | nil =>
    refine ⟨[], l', by simp, by simp, ?_⟩
    simp only [List.flatten_nil, List.nil_append] at hpre
    rcases hrest with rfl | ⟨p, hp, hcut⟩
    · exact Or.inl (List.prefix_nil.mp hpre)
    · exact Or.inr ⟨p, hp, hpre.trans hcut⟩
  | cons p ps ih =>
    rw [List.flatten_cons, List.append_assoc] at hpre
    rcases List.prefix_or_prefix_of_prefix hpre (List.prefix_append p _) with hcut | ⟨l'', rfl⟩
    · exact ⟨[], l', by simp, by simp, Or.inr ⟨p, hps p List.mem_cons_self, hcut⟩⟩
    · obtain ⟨qs, rest', hl'', hqs, hrest'⟩ :=
        ih ((List.prefix_append_right_inj p).mp hpre) fun q hq => hps q (List.mem_cons_of_mem p hq)
      refine ⟨p :: qs, rest', by simp [hl''], ?_, hrest'⟩
      intro q hq
      rcases List.mem_cons.mp hq with rfl | hq
      · exact hps _ List.mem_cons_self
      · exact hqs q hq

end PacketStream

end Clocked
