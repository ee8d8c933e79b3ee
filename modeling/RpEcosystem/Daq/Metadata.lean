import RpEcosystem.Daq.Decode

/-!
# Metadata words, from the trigger core to the data file

At a pulse the core sends the twelve words of `array_pps`. Ten of them carry a tag of five bits
and a subtag of three, the clock count a tag of five bits, and the last one is all ones.

* `record_ppsWords`: the record kind that the decoder gives each of them;
* `metadata_understood_iff`: in a sequence of packets every word is understood but the last one
  of each packet, which is reported as unknown. The decoder has no record for the tag `11111`,
  so no packet is understood as a whole.
-/

namespace RpEcosystem.Daq

open Trigger (Word Generics Regs metadataArrayLength)

/-! ## Record kinds of the metadata words -/

theorem record_metadata {wo : Word} (h : 24 ≤ wo.toNat / 2 ^ 27) :
    record wo = metadataKind (wo.toNat / 2 ^ 27) (wo.toNat / 2 ^ 24 % 2 ^ 3) := by
  rw [record_eq, if_neg (by omega), if_neg (by omega), if_neg (by omega), metadataRecord,
    toNat_low (wo >>> 24) (n := 3) rfl, toNat_high, toNat_high]

theorem toNat_tagged (tag : BitVec 5) (sub : BitVec 3) (v : BitVec 24) :
    (tag ++ sub ++ v).toNat = (tag.toNat * 2 ^ 3 + sub.toNat) * 2 ^ 24 + v.toNat := by
  rw [toNat_append_add, toNat_append_add]

theorem record_tagged {tag : BitVec 5} (htag : 24 ≤ tag.toNat) (sub : BitVec 3) (v : BitVec 24) :
    record (tag ++ sub ++ v) = metadataKind tag.toNat sub.toNat := by
  have hv : v.toNat < 2 ^ 24 := v.isLt
  have hsub : sub.toNat < 2 ^ 3 := sub.isLt
  have hword := toNat_tagged tag sub v
  have hhigh : (tag ++ sub ++ v).toNat / 2 ^ 27 = tag.toNat := by omega
  have hmid : (tag ++ sub ++ v).toNat / 2 ^ 24 % 2 ^ 3 = sub.toNat := by omega
  rw [record_metadata (by omega), hhigh, hmid]

theorem record_clock (v : BitVec 27) : record (0b11000#5 ++ v) = .frequency := by
  have hv : v.toNat < 2 ^ 27 := v.isLt
  have hword : (0b11000#5 ++ v).toNat = 24 * 2 ^ 27 + v.toNat := toNat_append_add _ _
  have hhigh : (0b11000#5 ++ v).toNat / 2 ^ 27 = 24 := by omega
  rw [record_metadata (by omega), hhigh]
  rfl

theorem record_ones : record 0xFFFFFFFF#32 = .unknown := by decide

/-! ## A packet of metadata -/

/-- The record kind that belongs to each word of `array_pps`, from index 0 up. The number of
satellites, the date and the closing word have no record and may only be ignored. -/
def ownRecord : Fin 12 → Record :=
  ![.rate2, .rate1, .ignored, .ignored, .altitude, .longitude, .latitude, .time, .pressure,
    .temperature, .frequency, .ignored]

variable {g : Generics}

/-- A pulse: the registers and the ports of the core at that time, and what is read while each
of the twelve words is decoded. -/
structure Pulse (g : Generics) where
  regs : Regs g
  input : Trigger.Input
  readings : Fin 12 → Readings

namespace Pulse

def word (q : Pulse g) (k : Fin 12) : Word × Readings :=
  (q.regs.ppsWords q.input k, q.readings k)

def words (q : Pulse g) : List (Word × Readings) := List.ofFn q.word

/-- The lines of the records that print a field of the packet. -/
def fieldLine (q : Pulse g) : Record → Option Line
  | .frequency => some ⟨"# x f %d \n", [.int q.input.clkCntPpsI.toNat]⟩
  | .rate1 => some ⟨"# r1 %d \n", [.int q.regs.a.rateCntReg.toNat]⟩
  | .rate2 => some ⟨"# r2 %d \n", [.int q.regs.b.rateCntReg.toNat]⟩
  | _ => none

end Pulse

/-- Word `k` of the packet, decoded in the state `s`, is recognised as its own record kind and
not reported as unknown, and prints the field it carries. -/
structure Understood (libc : Libc) (q : Pulse g) (k : Fin 12) (s : Decoder) : Prop where
  kind : record (q.word k).1 = ownRecord k
  known : ∀ l ∈ printed s (decodeWord libc s (q.word k)), l.2.format ≠ unknownFormat
  field : ∀ line, q.fieldLine (ownRecord k) = some line →
    printed s (decodeWord libc s (q.word k)) = [(s.fhout, line)]

theorem record_ppsWords (q : Pulse g) {k : Fin 12} (hk : k ≠ 11) :
    record (q.word k).1 = ownRecord k := by
  match k with
  | 0 | 1 | 2 | 3 | 4 | 5 | 6 | 7 | 8 | 9 => exact record_tagged (by decide) _ _
  | 10 => exact record_clock _
  | 11 => exact absurd rfl hk

theorem record_last (q : Pulse g) : record (q.word 11).1 = .unknown := record_ones

theorem d_rate (tag : BitVec 5) (v : BitVec 24) :
    Value.d ((tag ++ 0b000#3 ++ v) &&& 0x00FFFFFF) = .int v.toNat := by
  have hv : v.toNat < 2 ^ 24 := v.isLt
  have hword := toNat_tagged tag 0b000#3 v
  have hlow : (tag ++ 0b000#3 ++ v).toNat % 2 ^ 24 = v.toNat := by omega
  rw [d_low _ (n := 24) (by omega) rfl, hlow]

theorem d_clock (v : BitVec 27) :
    Value.d ((0b11000#5 ++ v) &&& 0x07FFFFFF) = .int v.toNat := by
  have hv : v.toNat < 2 ^ 27 := v.isLt
  have hword : (0b11000#5 ++ v).toNat = 24 * 2 ^ 27 + v.toNat := toNat_append_add _ _
  have hlow : (0b11000#5 ++ v).toNat % 2 ^ 27 = v.toNat := by omega
  rw [d_low _ (n := 27) (by omega) rfl, hlow]

/-- The frequency and the two rates print the field of their word. -/
theorem recordLines_field (q : Pulse g) {k : Fin 12} {line : Line}
    (h : q.fieldLine (ownRecord k) = some line) :
    recordLines (q.word k).1 (q.word k).2 (ownRecord k) = [line] := by
  match k with
  | 0 =>
    obtain rfl := Option.some.inj h
    exact congrArg (fun v => [Line.mk "# r2 %d \n" [v]]) (d_rate _ _)
  | 1 =>
    obtain rfl := Option.some.inj h
    exact congrArg (fun v => [Line.mk "# r1 %d \n" [v]]) (d_rate _ _)
  | 2 | 3 | 4 | 5 | 6 | 7 | 8 | 9 | 11 => cases h
  | 10 =>
    obtain rfl := Option.some.inj h
    exact congrArg (fun v => [Line.mk "# x f %d \n" [v]]) (d_clock _)

theorem ownRecord_ne_unknown : ∀ k, ownRecord k ≠ .unknown := by decide

/-- In every state the decoder understands all words of a packet but the last one. -/
theorem understood_iff (libc : Libc) (q : Pulse g) (k : Fin 12) (s : Decoder) :
    Understood libc q k s ↔ k ≠ 11 := by
  constructor
  · rintro ⟨hkind, -, -⟩ rfl
    rw [record_last] at hkind
    exact ownRecord_ne_unknown 11 hkind.symm
  · intro hk
    have hkind := record_ppsWords q hk
    refine ⟨hkind, ?_, ?_⟩
    · apply (decodeWord_quiet libc s ?_).printed
      rw [hkind]
      exact ownRecord_ne_unknown k
    · intro line hline
      have htime : ownRecord k ≠ .time := by
        intro htime
        rw [htime] at hline
        cases hline
      rw [printed_eq (decodeWord_prints libc s (q.word k) hkind htime).log,
        recordLines_field q hline]
      rfl

/-! ## Sequences of packets -/

/-- The state in which word `k` of the packet `q` is decoded, after the packets `pre`. -/
def stateAt (libc : Libc) (s : Decoder) (pre : List (Pulse g)) (q : Pulse g) (k : Fin 12) :
    Decoder :=
  (pre.flatMap Pulse.words ++ q.words.take k).foldl (decodeWord libc) s

/-- Every word of every packet is understood when the packets are decoded one after another. -/
def AllUnderstood (libc : Libc) (s : Decoder) (pulses : List (Pulse g)) : Prop :=
  ∀ pre q post, pulses = pre ++ q :: post → ∀ k, Understood libc q k (stateAt libc s pre q k)

/-- In a sequence of packets the words that are understood are those before the last one of each
packet, so a sequence is understood only when it is empty. -/
theorem metadata_understood_iff (libc : Libc) (s : Decoder) (pulses : List (Pulse g)) :
    (∀ pre q post, pulses = pre ++ q :: post → ∀ k,
        Understood libc q k (stateAt libc s pre q k) ↔ k ≠ 11) ∧
      (AllUnderstood libc s pulses ↔ pulses = []) := by
  refine ⟨fun pre q post _ k => understood_iff libc q k _, ?_⟩
  constructor
  · intro hall
    cases pulses with
    | nil => rfl
    | cons q post =>
      have hlast := hall [] q post rfl 11
      rw [understood_iff] at hlast
      exact absurd rfl hlast
  · rintro rfl pre q post hpre
    exact absurd hpre (by simp)

/-- A pulse in a core that has just been reset. -/
def firstPulse : Pulse .smallest where
  regs := Regs.reset .smallest
  input := { Trigger.Input.quiet 0 0 with ppsI := true }
  readings := fun _ => default

/-- The first packet ends with two error lines. -/
theorem firstPulse_reported :
    printed (stateAt noCalendar default [] firstPulse 11)
        (decodeWord noCalendar (stateAt noCalendar default [] firstPulse 11)
          (firstPulse.word 11)) =
      [(.stdout, ⟨"# E @@@\n", []⟩),
        (.stdout, ⟨"# E 3 - unknown word from FPGA: %d %x\n", [.int 31, .int 31]⟩)] ∧
      ¬ AllUnderstood noCalendar default [firstPulse] := by
  refine ⟨by decide +kernel, ?_⟩
  intro hall
  obtain ⟨hkind, -, -⟩ := hall [] firstPulse [] rfl 11
  revert hkind
  decide +kernel

end RpEcosystem.Daq
