import Mathlib.Algebra.Ring.Nat
import Mathlib.Data.Nat.Find
import Mathlib.Order.Nat

/-!
# Counting events over cycles

A one-bit signal is a function `p : Nat → Bool` of the cycle; `events p a b` is the number
of cycles in `[a, b)` in which it is high. Two counters are studied for any signals and
any register width.

* A *divider* counts pulses and returns to zero from `N`, with the increment first
  (`Divides`). When no two pulses are adjacent it ticks exactly once every `N` pulses
  (`Divides.ticks_eq_div`). From an arbitrary count `c`, more than `N` pulses bring a tick
  within `N` pulses exactly when `c ≤ N` (`Divides.tick_within_iff`): from a larger count
  it first runs through the whole range of the register.
* A *tally* counts ticks and is cleared by a mark, again with the increment first
  (`Tallies`). It holds the ticks since the last mark exactly as long as no mark meets a
  tick on a nonzero count (`Tallies.exact_iff`).
-/

namespace Clocked

/-- The number of cycles `u` with `a ≤ u < b` in which `p` is high. -/
def events (p : Nat → Bool) (a b : Nat) : Nat := (List.range' a (b - a)).countP p

@[simp] theorem events_self (p : Nat → Bool) (a : Nat) : events p a a = 0 := by
  simp [events]

theorem events_succ (p : Nat → Bool) {a b : Nat} (h : a ≤ b) :
    events p a (b + 1) = events p a b + if p b then 1 else 0 := by
  have hlen : b + 1 - a = (b - a) + 1 := by omega
  have hb : a + (b - a) = b := by omega
  rw [events, events, hlen, List.range'_1_concat, List.countP_append, hb]
  simp [List.countP_cons]

theorem events_le_succ (p : Nat → Bool) {a b : Nat} (h : a ≤ b) :
    events p a b ≤ events p a (b + 1) := by
  rw [events_succ p h]
  omega

/-- The count never falls, also before it starts. -/
theorem events_le_add_one (p : Nat → Bool) (a b : Nat) : events p a b ≤ events p a (b + 1) := by
  by_cases h : a ≤ b
  · exact events_le_succ p h
  · have hnone : events p a b = 0 := by
      rw [events, Nat.sub_eq_zero_of_le (by omega)]
      rfl
    omega

theorem events_le_of_le (p : Nat → Bool) (a : Nat) {b c : Nat} (h : b ≤ c) :
    events p a b ≤ events p a c := by
  induction c, h using Nat.le_induction with
  | base => exact le_rfl
  | succ c _ ih => exact ih.trans (events_le_add_one p a c)

theorem events_mono (p : Nat → Bool) {a b c : Nat} (hab : a ≤ b) (hbc : b ≤ c) :
    events p a b ≤ events p a c := by
  induction hbc with
  | refl => exact le_rfl
  | @step c hbc ih => exact ih.trans (events_le_succ p (hab.trans hbc))

theorem events_le_length (p : Nat → Bool) (a b : Nat) : events p a b ≤ b - a := by
  simpa [events] using List.countP_le_length (p := p) (l := List.range' a (b - a))

/-- Low cycles do not change the count. -/
theorem events_quiet {p : Nat → Bool} {a b c : Nat} (hab : a ≤ b) (hbc : b ≤ c)
    (h : ∀ u, b ≤ u → u < c → p u = false) : events p a c = events p a b := by
  induction c, hbc using Nat.le_induction with
  | base => rfl
  | succ c hbc ih =>
    rw [events_succ p (hab.trans hbc), h c hbc (by omega), ih fun u h1 h2 => h u h1 (by omega)]
    rfl

/-- The high cycle with a given number of high cycles before it. -/
theorem exists_event (p : Nat → Bool) {a b k : Nat} (hk : k < events p a b) :
    ∃ u, a ≤ u ∧ u < b ∧ p u = true ∧ events p a u = k := by
  have hab : a ≤ b := by
    have := events_le_length p a b
    omega
  induction b, hab using Nat.le_induction with
  | base => simp at hk
  | succ b hab ih =>
    by_cases hlt : k < events p a b
    · obtain ⟨u, hau, hub, hp, hu⟩ := ih hlt
      exact ⟨u, hau, by omega, hp, hu⟩
    · rw [events_succ p hab] at hk
      split_ifs at hk with hp
      · exact ⟨b, hab, by omega, hp, by omega⟩
      · omega

/-- A high cycle counts itself. -/
theorem events_lt (p : Nat → Bool) {a b u : Nat} (hau : a ≤ u) (hub : u < b) (hp : p u = true) :
    events p a u < events p a b := by
  have h1 := events_succ p hau
  have h2 := events_mono p (a := a) (b := u + 1) (c := b) (by omega) hub
  rw [if_pos hp] at h1
  omega

/-- The count passes every value on its way up. -/
theorem exists_events_eq (p : Nat → Bool) {a b k : Nat} (hab : a ≤ b) (hk : k ≤ events p a b) :
    ∃ v, a ≤ v ∧ v ≤ b ∧ events p a v = k := by
  induction b, hab using Nat.le_induction with
  | base => exact ⟨a, le_rfl, le_rfl, by simp at hk ⊢; omega⟩
  | succ b hab ih =>
    by_cases hle : k ≤ events p a b
    · obtain ⟨v, hav, hvb, hv⟩ := ih hle
      exact ⟨v, hav, by omega, hv⟩
    · refine ⟨b + 1, by omega, le_rfl, ?_⟩
      rw [events_succ p hab] at hk ⊢
      split at hk <;> simp_all <;> omega

/-! ## Dividers -/

/-- An increment below the top of the register does not wrap. -/
theorem toNat_add_one_of_lt {w : Nat} {v : BitVec w} (h : v.toNat + 1 < 2 ^ w) :
    (v + 1).toNat = v.toNat + 1 := by
  rw [BitVec.toNat_add, show (1 : BitVec w) = BitVec.ofNat w 1 from rfl,
    BitVec.toNat_ofNat, Nat.add_mod_mod, Nat.mod_eq_of_lt h]

theorem toNat_add_one_of_ne {w : Nat} {v : BitVec w} (h : v ≠ BitVec.allOnes w) :
    (v + 1).toNat = v.toNat + 1 := by
  have hne : v.toNat ≠ 2 ^ w - 1 := by
    intro htop
    exact h (BitVec.eq_of_toNat_eq (by rw [htop, BitVec.toNat_allOnes]))
  have hlt := v.isLt
  exact toNat_add_one_of_lt (by omega)

/-- A counter of the pulses `p` that returns to zero from `N`; a pulse has priority over
the return. -/
def Divides {w : Nat} (p : Nat → Bool) (c : Nat → BitVec w) (N : BitVec w) : Prop :=
  ∀ t, c (t + 1) = if p t then c t + 1 else if c t = N then 0 else c t

/-- The divider ticks in the cycles in which it holds `N`. -/
def tick {w : Nat} (c : Nat → BitVec w) (N : BitVec w) (t : Nat) : Bool := decide (c t = N)

namespace Divides

variable {w : Nat} {p : Nat → Bool} {c : Nat → BitVec w} {N : BitVec w}

/-- The invariant of a divider whose pulses are never adjacent: every pulse is either in
the count or in a completed group of `N`, and no pulse falls on a tick. -/
theorem invariant (hc : Divides p c N) (hiso : ∀ t, p t = true → p (t + 1) = false)
    (h0 : c 0 = 0) (hN : N ≠ 0) (t : Nat) :
    events p 0 t = N.toNat * events (tick c N) 0 t + (c t).toNat ∧
      (c t).toNat ≤ N.toNat ∧ (c t = N → p t = false) := by
  have hN0 : N.toNat ≠ 0 := by
    intro h
    exact hN (BitVec.eq_of_toNat_eq (by simpa using h))
  induction t with
  | zero =>
    refine ⟨by simp [h0], by simp [h0], ?_⟩
    intro h
    exact absurd (h.symm.trans h0) hN
  | succ t ih =>
    obtain ⟨hcount, hle, hquiet⟩ := ih
    rw [events_succ p (Nat.zero_le t), events_succ (tick c N) (Nat.zero_le t), hcount]
    cases hp : p t with
    | true =>
      -- a pulse never meets a tick, so the count is below `N` and cannot wrap
      have hne : c t ≠ N := fun h => by simp [hquiet h] at hp
      have hlt : (c t).toNat < N.toNat := by
        refine lt_of_le_of_ne hle fun h => hne (BitVec.eq_of_toNat_eq h)
      have hstep : c (t + 1) = c t + 1 := by simp [hc t, hp]
      have hval : (c (t + 1)).toNat = (c t).toNat + 1 := by
        have := N.isLt
        rw [hstep, toNat_add_one_of_lt (by omega)]
      refine ⟨?_, by omega, fun _ => hiso t hp⟩
      simp [tick, hne, hval]
      omega
    | false =>
      by_cases hN' : c t = N
      · have hstep : c (t + 1) = 0 := by simp [hc t, hp, hN']
        refine ⟨?_, by simp [hstep], fun h => absurd (h.symm.trans hstep) hN⟩
        simp [tick, hN', hstep, Nat.mul_add]
      · have hstep : c (t + 1) = c t := by simp [hc t, hp, hN']
        refine ⟨?_, by rw [hstep]; exact hle, fun h => absurd (hstep.symm.trans h) hN'⟩
        simp [tick, hN', hstep]

/-- **Exact division.** With pulses never adjacent, the ticks up to and including cycle
`t` are the completed groups of `N` pulses before `t`. -/
theorem ticks_eq_div (hc : Divides p c N) (hiso : ∀ t, p t = true → p (t + 1) = false)
    (h0 : c 0 = 0) (hN : N ≠ 0) (t : Nat) :
    events (tick c N) 0 (t + 1) = events p 0 t / N.toNat := by
  obtain ⟨hcount, hle, -⟩ := hc.invariant hiso h0 hN t
  have hpos : 0 < N.toNat := by
    refine Nat.pos_of_ne_zero fun h => hN (BitVec.eq_of_toNat_eq (by simpa using h))
  rw [events_succ _ (Nat.zero_le t), hcount, Nat.mul_add_div hpos]
  by_cases htick : c t = N
  · simp [tick, htick, Nat.div_self hpos]
  · have hlt : (c t).toNat < N.toNat :=
      lt_of_le_of_ne hle fun h => htick (BitVec.eq_of_toNat_eq h)
    simp [tick, htick, Nat.div_eq_of_lt hlt]

/-- A tick lasts one cycle. -/
theorem tick_succ_false (hc : Divides p c N) (hiso : ∀ t, p t = true → p (t + 1) = false)
    (h0 : c 0 = 0) (hN : N ≠ 0) (t : Nat) (ht : tick c N t = true) :
    tick c N (t + 1) = false := by
  have heq : c t = N := by simpa [tick] using ht
  have hquiet := (hc.invariant hiso h0 hN t).2.2 heq
  have hstep : c (t + 1) = 0 := by simp [hc t, hquiet, heq]
  simpa [tick, hstep] using hN.symm

/-- A divider that ticks in cycle `t + 1` was pulsed in cycle `t`. -/
theorem pulse_of_tick (hc : Divides p c N) (hN : N ≠ 0) (t : Nat)
    (ht : tick c N (t + 1) = true) : p t = true := by
  have heq : c (t + 1) = N := by simpa [tick] using ht
  by_contra hp
  simp only [Bool.not_eq_true] at hp
  by_cases hN' : c t = N
  · have : c (t + 1) = 0 := by simp [hc t, hp, hN']
    exact hN (heq.symm.trans this)
  · have : c (t + 1) = c t := by simp [hc t, hp, hN']
    exact hN' (this.symm.trans heq)

/-- Before its first tick the divider only counts. -/
theorem count_before_tick (hc : Divides p c N) {t : Nat}
    (hquiet : ∀ u, u < t → tick c N u = false) : c t = c 0 + BitVec.ofNat w (events p 0 t) := by
  induction t with
  | zero => simp
  | succ t ih =>
    have hne : c t ≠ N := by simpa [tick] using hquiet t (by omega)
    have ht := ih fun u hu => hquiet u (by omega)
    rw [events_succ p (Nat.zero_le t), hc t]
    cases hp : p t with
    | true => simp [ht, BitVec.ofNat_add, BitVec.add_assoc]
    | false =>
      simp only [hne, if_false, Bool.false_eq_true, Nat.add_zero]
      exact ht

/-- **The first tick after an arbitrary count.** When more than `N` pulses come, a tick
comes within the first `N` of them exactly when the count was not above `N`. -/
theorem tick_within_iff (hc : Divides p c N) {u : Nat} (hu : N.toNat < events p 0 u) :
    (∃ v, v ≤ u ∧ tick c N v = true ∧ events p 0 v ≤ N.toNat) ↔
      (c 0).toNat ≤ N.toNat := by
  constructor
  · rintro ⟨v, hvu, hv, hle⟩
    -- the first tick `v₀` is not later than `v`
    classical
    have hex : ∃ v, tick c N v = true := ⟨v, hv⟩
    have hfirst : ∀ u, u < Nat.find hex → tick c N u = false := fun u hu => by
      simpa using Nat.find_min hex hu
    have hle' : events p 0 (Nat.find hex) ≤ N.toNat :=
      (events_mono p (Nat.zero_le _) (Nat.find_min' hex hv)).trans hle
    have hN : c (Nat.find hex) = N := by simpa [tick] using Nat.find_spec hex
    rw [hc.count_before_tick hfirst] at hN
    have hval := congrArg BitVec.toNat hN
    rw [BitVec.toNat_add, BitVec.toNat_ofNat, Nat.add_mod_mod] at hval
    have h0 := (c 0).isLt
    have hNlt := N.isLt
    by_contra hgt
    -- from above `N` the count can only reach `N` through the wrap
    by_cases hwrap : (c 0).toNat + events p 0 (Nat.find hex) < 2 ^ w
    · rw [Nat.mod_eq_of_lt hwrap] at hval
      omega
    · rw [Nat.mod_eq_sub_mod (by omega), Nat.mod_eq_of_lt (by omega)] at hval
      omega
  · intro hle
    obtain ⟨v, -, hvu, hv⟩ := exists_events_eq p (a := 0) (b := u)
      (k := N.toNat - (c 0).toNat) (Nat.zero_le u) (by omega)
    by_cases hquiet : ∀ u, u < v → tick c N u = false
    · refine ⟨v, hvu, ?_, by omega⟩
      have hcv := hc.count_before_tick hquiet
      simp only [tick, decide_eq_true_eq]
      apply BitVec.eq_of_toNat_eq
      have hNlt := N.isLt
      rw [hcv, hv, BitVec.toNat_add, BitVec.toNat_ofNat, Nat.add_mod_mod,
        Nat.mod_eq_of_lt (by omega)]
      omega
    · push Not at hquiet
      obtain ⟨v', hv', htick⟩ := hquiet
      refine ⟨v', by omega, by simpa using htick, ?_⟩
      have := events_mono p (Nat.zero_le v') hv'.le
      omega

end Divides

/-! ## Tallies -/

/-- A counter of the ticks that a mark clears; a tick has priority over the clear. -/
def Tallies {w : Nat} (tick mark : Nat → Bool) (c : Nat → BitVec w) : Prop :=
  ∀ t, c (t + 1) = if tick t then c t + 1 else if mark t then 0 else c t

/-- The cycle of the last mark before cycle `t`, or `0`. -/
def lastMark (mark : Nat → Bool) : Nat → Nat
  | 0 => 0
  | t + 1 => if mark t then t else lastMark mark t

theorem lastMark_le (mark : Nat → Bool) (t : Nat) : lastMark mark t ≤ t := by
  induction t with
  | zero => exact le_rfl
  | succ t ih =>
    rw [lastMark]
    split <;> omega

namespace Tallies

variable {w : Nat} {tick mark : Nat → Bool} {c : Nat → BitVec w}

/-- The tally holds the ticks since the last mark as long as no mark meets a tick on a
nonzero count. -/
theorem count_eq (hc : Tallies tick mark c) (h0 : c 0 = 0)
    (hclear : ∀ t, mark t = true → tick t = true → c t = 0) (t : Nat) :
    c t = BitVec.ofNat w (events tick (lastMark mark t) t) := by
  induction t with
  | zero => simp [h0, lastMark]
  | succ t ih =>
    rw [hc t, lastMark]
    cases ht : tick t <;> cases hm : mark t
    · simp [events_succ tick (lastMark_le mark t), ht, ih]
    · simp [events_succ tick (le_refl t), ht]
    · simp [events_succ tick (lastMark_le mark t), ht, ih, BitVec.ofNat_add]
    · simp [events_succ tick (le_refl t), ht, hclear t hm ht]

/-- **Exact tallies.** At every mark the tally is the number of ticks since the last mark
and starts again from nothing but the tick of the mark's own cycle, if and only if no mark
meets a tick on a nonzero count. -/
theorem exact_iff (hc : Tallies tick mark c) (h0 : c 0 = 0) :
    (∀ t, mark t = true → c t = BitVec.ofNat w (events tick (lastMark mark t) t) ∧
      c (t + 1) = if tick t then 1 else 0) ↔
      ∀ t, mark t = true → tick t = true → c t = 0 := by
  constructor
  · intro h t hm ht
    have hnext := (h t hm).2
    rw [hc t] at hnext
    simpa [ht] using hnext
  · intro hclear t hm
    refine ⟨hc.count_eq h0 hclear t, ?_⟩
    rw [hc t]
    cases ht : tick t
    · simp [hm]
    · simp [hclear t hm ht]

end Tallies

end Clocked
