import RpEcosystem.Daq.Decode
import RpEcosystem.Trigger.Snapshot

/-!
# Event words, from the trigger core to the data file

A trigger packet is a number of data words with a sample of each channel, a status word with
the channel flags and the clock count, and a counter word. `dataWord`, `statusWord` and
`countWord` pack them as the core does (`sampleWord_eq_dataWord`, `trStatus_eq_statusWord`,
`cntStatus_eq_countWord`).

* `event_words_decoded`: over the words of any trigger packets the decoding loop prints the
  packed values, one line for each word;
* `subtrigger_decoded_iff`: the two data words of a subtrigger packet are packed without the
  gap between the channels that the decoder expects, and are printed right only when both
  values are zero.
-/

namespace RpEcosystem.Daq

open Trigger (Word Generics Regs)

/-! ## Packing -/

/-- A data word of `ST_ATT_TR` with the samples of channel 1 and channel 2. -/
def dataWord (a b : BitVec 14) : Word :=
  0b00#2 ++ b.extractLsb' 13 1 ++ b.extractLsb' 0 13 ++
    0b00#2 ++ a.extractLsb' 13 1 ++ a.extractLsb' 0 13

def statusWord (flag2 flag1 : Bool) (clkCnt : BitVec 27) : Word :=
  0b010#3 ++ BitVec.ofBool flag2 ++ BitVec.ofBool flag1 ++ clkCnt

def countWord (trigCnt : BitVec 30) : Word := 0b10#2 ++ trigCnt

variable {g : Generics}

theorem trStatus_eq_statusWord (r : Regs g) (i : Trigger.Input) :
    r.trStatus i = statusWord r.b.trDlyReg r.a.trDlyReg i.clkCntPpsI := rfl

theorem cntStatus_eq_countWord (r : Regs g) : r.cntStatus = countWord r.trigCntReg := rfl

theorem dataWord_halves (a b : BitVec 14) : dataWord a b = (0b00#2 ++ b) ++ (0b00#2 ++ a) := by
  have hjoin : ∀ v : BitVec 14, v.extractLsb' 13 1 ++ v.extractLsb' 0 13 = v := fun v =>
    (BitVec.extractLsb'_append_extractLsb'_eq_extractLsb' rfl).trans BitVec.extractLsb'_eq_self
  conv_rhs => rw [← hjoin a, ← hjoin b]
  simp only [dataWord, BitVec.append_assoc, BitVec.cast_eq]

theorem sampleWord_eq_dataWord (r : Regs g) :
    r.sampleWord = dataWord ((r.a.dat 0).extractLsb' 0 14) ((r.b.dat 0).extractLsb' 0 14) := by
  rw [Trigger.sampleWord_eq, dataWord_halves]

theorem toNat_statusWord (flag2 flag1 : Bool) (clkCnt : BitVec 27) :
    (statusWord flag2 flag1 clkCnt).toNat =
      2 ^ 30 + (2 * flag2.toNat + flag1.toNat) * 2 ^ 27 + clkCnt.toNat := by
  simp only [statusWord, toNat_append_add, BitVec.toNat_ofBool]
  change ((2 * 2 ^ 1 + flag2.toNat) * 2 ^ 1 + flag1.toNat) * 2 ^ 27 + clkCnt.toNat = _
  omega

theorem toNat_countWord (trigCnt : BitVec 30) :
    (countWord trigCnt).toNat = 2 * 2 ^ 30 + trigCnt.toNat := toNat_append_add _ _

/-! ## The value of a half -/

/-- What `%hd` makes of a half of value `n`: the bits from 13 up, added to the bits 14 and 15. -/
def hdValue (n : Nat) : Int := ((n : Int) + (n : Int) / 2 ^ 13 * (3 * 2 ^ 14)).bmod (2 ^ 16)

theorem hd_adcValue (c : BitVec 16) : Value.hd (adcValue c) = .int (hdValue c.toNat) := by
  have hc : c.toNat < 2 ^ 16 := c.isLt
  have hright : Int.shiftRight c.toInt 13 = c.toInt / 2 ^ 13 := Int.shiftRight_eq_div_pow c.toInt 13
  have hleft : ∀ (v : Int) (n : Nat), Int.shiftLeft v n = v * 2 ^ n := Int.shiftLeft_eq
  unfold Value.hd adcValue hdValue
  rw [hright, hleft, hleft, BitVec.toInt_ofInt, BitVec.toInt_eq_toNat_cond]
  split
  · congr 2
    omega
  · -- the shifts lose `6 * 2 ^ 16` of a negative half, and its sign another `2 ^ 16`
    conv_rhs => rw [← Int.sub_mul_bmod_self_right _ 7]
    congr 2
    omega

/-- A sample is printed with its sign, which the shifts copy to the two bits above it. -/
theorem hdValue_sample (v : BitVec 14) : hdValue v.toNat = v.toInt := by
  have hv : v.toNat < 2 ^ 14 := v.isLt
  unfold hdValue
  rw [BitVec.toInt_eq_toNat_cond, Int.bmod_def]
  split <;> split <;> omega

theorem hdValue_of_lt {n : Nat} (h : n < 2 ^ 13) : hdValue n = n := by
  have hzero : (n : Int) / 2 ^ 13 = 0 := by omega
  unfold hdValue
  rw [hzero, Int.bmod_eq_of_le] <;> omega

/-- The low 14 bits are printed as they are. -/
theorem hdValue_emod (n : Nat) : hdValue n % 2 ^ 14 = n % 2 ^ 14 := by
  unfold hdValue
  rw [← Int.emod_emod_of_dvd _ (show (2 : Int) ^ 14 ∣ (2 ^ 16 : Nat) by decide), Int.bmod_emod,
    Int.emod_emod_of_dvd _ (by decide)]
  omega

theorem dataLine_eq (wo : Word) : dataLine wo = ⟨"%5hd %5hd\n",
    [.int (hdValue (wo.toNat % 2 ^ 16)), .int (hdValue (wo.toNat / 2 ^ 16))]⟩ := by
  have hlow : (ch wo 0).toNat = wo.toNat % 2 ^ 16 := by
    simp [ch]
  have hhigh : (ch wo 1).toNat = wo.toNat / 2 ^ 16 := by
    have := wo.isLt
    simp only [ch, Matrix.cons_val_one, Matrix.cons_val_fin_one, BitVec.extractLsb'_toNat,
      Nat.shiftRight_eq_div_pow]
    omega
  rw [dataLine, hd_adcValue, hd_adcValue, hlow, hhigh]

/-! ## Trigger packets -/

/-- A line with the values of the two channels. -/
def sampleLine (a b : BitVec 14) : Line := ⟨"%5hd %5hd\n", [.int a.toInt, .int b.toInt]⟩

/-- What the core sends for a trigger. -/
structure TriggerPacket where
  samples : List (BitVec 14 × BitVec 14)
  flag2 : Bool
  flag1 : Bool
  clkCnt : BitVec 27
  trigCnt : BitVec 30

namespace TriggerPacket

def words (p : TriggerPacket) : List Word :=
  p.samples.map (fun q => dataWord q.1 q.2) ++
    [statusWord p.flag2 p.flag1 p.clkCnt, countWord p.trigCnt]

/-- The record of the packet: its samples, its flags as a mask with the clock count, and its
number. -/
def lines (p : TriggerPacket) : List Line :=
  p.samples.map (fun q => sampleLine q.1 q.2) ++
    [⟨"# t %d %d\n", [.int (2 * p.flag2.toNat + p.flag1.toNat : Nat), .int p.clkCnt.toNat]⟩,
      ⟨"# c %ld\n", [.int p.trigCnt.toNat]⟩]

end TriggerPacket

/-- Words that are decoded to `lines`, whatever the state and the readings. -/
def Decodes (libc : Libc) (words : List Word) (lines : List Line) : Prop :=
  ∀ (l : List (Word × Readings)) (s : Decoder), l.map Prod.fst = words →
    Prints s (l.foldl (decodeWord libc) s) lines

namespace Decodes

variable {libc : Libc}

theorem nil : Decodes libc [] [] := by
  intro l s hl
  rw [List.map_eq_nil_iff.mp hl]
  exact .nil s

theorem append {words words' : List Word} {lines lines' : List Line}
    (h : Decodes libc words lines) (h' : Decodes libc words' lines') :
    Decodes libc (words ++ words') (lines ++ lines') := by
  intro l s hl
  obtain ⟨l₁, l₂, rfl, hl₁, hl₂⟩ := List.map_eq_append_iff.mp hl
  rw [List.foldl_append]
  exact (h l₁ s hl₁).trans (h' l₂ _ hl₂)

theorem flatMap {α : Type} {words : α → List Word} {lines : α → List Line}
    (h : ∀ x, Decodes libc (words x) (lines x)) (xs : List α) :
    Decodes libc (xs.flatMap words) (xs.flatMap lines) := by
  induction xs with
  | nil => exact nil
  | cons x xs ih => exact (h x).append ih

theorem single {wo : Word} {k : Record} {line : Line} (hrecord : record wo = k) (hk : k ≠ .time)
    (hline : ∀ e, recordLines wo e k = [line]) : Decodes libc [wo] [line] := by
  intro l s hl
  obtain ⟨p, rfl, rfl⟩ := List.map_eq_singleton_iff.mp hl
  rw [← hline p.2]
  exact decodeWord_prints libc s p hrecord hk

end Decodes

theorem toNat_dataWord (a b : BitVec 14) : (dataWord a b).toNat = b.toNat * 2 ^ 16 + a.toNat := by
  rw [dataWord_halves, toNat_append_add, toNat_append_add, toNat_append_add]
  simp

theorem decodes_dataWord (libc : Libc) (a b : BitVec 14) :
    Decodes libc [dataWord a b] [sampleLine a b] := by
  have ha : a.toNat < 2 ^ 14 := a.isLt
  have hb : b.toNat < 2 ^ 14 := b.isLt
  have hword := toNat_dataWord a b
  have htag : record (dataWord a b) = .data := by
    rw [record_eq, if_pos (by omega)]
  apply Decodes.single htag (by decide)
  intro _
  rw [recordLines, dataLine_eq, sampleLine, show (dataWord a b).toNat % 2 ^ 16 = a.toNat by omega,
    show (dataWord a b).toNat / 2 ^ 16 = b.toNat by omega, hdValue_sample, hdValue_sample]

theorem decodes_statusWord (libc : Libc) (flag2 flag1 : Bool) (clkCnt : BitVec 27) :
    Decodes libc [statusWord flag2 flag1 clkCnt]
      [⟨"# t %d %d\n", [.int (2 * flag2.toNat + flag1.toNat : Nat), .int clkCnt.toNat]⟩] := by
  have hclk : clkCnt.toNat < 2 ^ 27 := clkCnt.isLt
  have h2 : flag2.toNat < 2 := flag2.toNat_lt
  have h1 : flag1.toNat < 2 := flag1.toNat_lt
  have hword := toNat_statusWord flag2 flag1 clkCnt
  have htag : record (statusWord flag2 flag1 clkCnt) = .trigger := by
    rw [record_eq, if_neg (by omega), if_pos (by omega)]
  apply Decodes.single htag (by decide)
  intro _
  have hmask : (statusWord flag2 flag1 clkCnt).toNat / 2 ^ 27 % 2 ^ 3 =
      2 * flag2.toNat + flag1.toNat := by omega
  have hlow : (statusWord flag2 flag1 clkCnt).toNat % 2 ^ 27 = clkCnt.toNat := by omega
  rw [recordLines, triggerLine, d_low _ (n := 3) (by omega) rfl, d_low _ (n := 27) (by omega) rfl,
    toNat_high, hmask, hlow]

theorem decodes_countWord (libc : Libc) (trigCnt : BitVec 30) :
    Decodes libc [countWord trigCnt] [⟨"# c %ld\n", [.int trigCnt.toNat]⟩] := by
  have hcnt : trigCnt.toNat < 2 ^ 30 := trigCnt.isLt
  have hword := toNat_countWord trigCnt
  have htag : record (countWord trigCnt) = .counter := by
    rw [record_eq, if_neg (by omega), if_neg (by omega), if_pos (by omega)]
  apply Decodes.single htag (by decide)
  intro _
  rw [recordLines, counterLine, toNat_low _ (n := 30) rfl,
    show (countWord trigCnt).toNat % 2 ^ 30 = trigCnt.toNat by omega]

theorem decodes_packet (libc : Libc) (p : TriggerPacket) : Decodes libc p.words p.lines := by
  have hsamples := Decodes.flatMap (fun q : BitVec 14 × BitVec 14 => decodes_dataWord libc q.1 q.2)
    p.samples
  rw [← List.map_eq_flatMap, ← List.map_eq_flatMap] at hsamples
  exact hsamples.append ((decodes_statusWord libc p.flag2 p.flag1 p.clkCnt).append
    (decodes_countWord libc p.trigCnt))

/-- Where the buffer holds the words of trigger packets, the decoding loop prints their records
and nothing else. -/
theorem event_words_decoded (libc : Libc) (packets : List TriggerPacket)
    (mem : Nat → Word × Readings) (i n : Nat) (r : Reader Decoder)
    (h : (List.range' i n).map (fun k => (mem k).1) = packets.flatMap TriggerPacket.words) :
    (readWords mem (decodeWord libc) n i r).out.log =
      r.out.log ++ (packets.flatMap TriggerPacket.lines).map fun l => (r.out.fhout, l) := by
  rw [readWords_eq]
  refine (Decodes.flatMap (decodes_packet libc) packets _ r.out ?_).log
  rw [List.map_map]
  exact h

/-- Two samples, with the extreme values of channel 1. -/
def twoSamples : TriggerPacket where
  samples := [(0x2000, 5), (0x1FFF, 0x3FFF)]
  flag2 := true
  flag1 := false
  clkCnt := 124999999
  trigCnt := 0x3FFFFFFF

theorem twoSamples_decoded :
    (readWords (fun k => (twoSamples.words.getD k 0, default)) (decodeWord noCalendar) 4 0
        ⟨-2, default⟩).out.log =
      [(.stdout, ⟨"%5hd %5hd\n", [.int (-8192), .int 5]⟩),
        (.stdout, ⟨"%5hd %5hd\n", [.int 8191, .int (-1)]⟩),
        (.stdout, ⟨"# t %d %d\n", [.int 2, .int 124999999]⟩),
        (.stdout, ⟨"# c %ld\n", [.int 1073741823]⟩)] :=
  event_words_decoded noCalendar [twoSamples] (fun k => (twoSamples.words.getD k 0, default)) 0 4
    ⟨-2, default⟩ rfl

/-! ## Subtrigger packets -/

/-- The two 14-bit values of a subtrigger word, next to each other. -/
def packedWord (a b : BitVec 14) : Word := 0b0000#4 ++ a ++ b

theorem toNat_packedWord (a b : BitVec 14) :
    (packedWord a b).toNat = a.toNat * 2 ^ 14 + b.toNat := by
  rw [packedWord, toNat_append_add, toNat_append_add]
  simp

theorem record_packedWord (a b : BitVec 14) : record (packedWord a b) = .data := by
  have ha : a.toNat < 2 ^ 14 := a.isLt
  have hb : b.toNat < 2 ^ 14 := b.isLt
  have hword := toNat_packedWord a b
  rw [record_eq, if_pos (by omega)]

theorem toInt_emod (v : BitVec 14) : v.toInt % 2 ^ 14 = v.toNat := by
  have hv : v.toNat < 2 ^ 14 := v.isLt
  rw [BitVec.toInt_eq_toNat_cond]
  split <;> omega

/-- The low half ends with the bits of the second value and the high half holds a quarter of
the first, so both are right only for zeros. -/
theorem dataLine_packedWord_iff (a b : BitVec 14) :
    dataLine (packedWord a b) = sampleLine a b ↔ a = 0 ∧ b = 0 := by
  have ha : a.toNat < 2 ^ 14 := a.isLt
  have hb : b.toNat < 2 ^ 14 := b.isLt
  have hword := toNat_packedWord a b
  constructor
  · intro h
    rw [dataLine_eq, sampleLine] at h
    simp only [Line.mk.injEq, List.cons.injEq, Value.int.injEq, and_true, true_and] at h
    obtain ⟨hlow, hhigh⟩ := h
    have hsame : a.toNat = b.toNat := by
      have hbits := hdValue_emod ((packedWord a b).toNat % 2 ^ 16)
      rw [hlow, toInt_emod] at hbits
      omega
    have hquarter : b.toNat = a.toNat / 4 := by
      have hbits := toInt_emod b
      rw [hdValue_of_lt (by omega)] at hhigh
      omega
    constructor
    · apply BitVec.eq_of_toNat_eq
      change a.toNat = 0
      omega
    · apply BitVec.eq_of_toNat_eq
      change b.toNat = 0
      omega
  · rintro ⟨rfl, rfl⟩
    rfl

theorem printed_packedWord_iff (libc : Libc) (s : Decoder) (e : Readings) (a b : BitVec 14) :
    printed s (decodeWord libc s (packedWord a b, e)) = [(s.fhout, sampleLine a b)] ↔
      a = 0 ∧ b = 0 := by
  have hprints := decodeWord_prints libc s (packedWord a b, e) (record_packedWord a b) (by decide)
  rw [printed_eq hprints.log, ← dataLine_packedWord_iff]
  simp [recordLines]

/-- The first word of a subtrigger packet. -/
def maximumWord (r : Regs g) (i : Trigger.Input) : Word := r.scalerWords i ⟨0, by decide⟩

/-- The second word of a subtrigger packet. -/
def chargeWord (r : Regs g) (i : Trigger.Input) : Word := r.scalerWords i ⟨1, by decide⟩

theorem maximumWord_eq (r : Regs g) (i : Trigger.Input) :
    maximumWord r i =
      packedWord ((r.a.dat 2).extractLsb' 0 14) ((r.b.dat 2).extractLsb' 0 14) := rfl

theorem chargeWord_eq (r : Regs g) (i : Trigger.Input) :
    chargeWord r i = packedWord r.a.chargeReg r.b.chargeReg := rfl

/-- The two lines printed for the data words of a subtrigger packet, decoded from the state `s`
on, give the maxima and the charges of channel 1 and channel 2. -/
structure SubtriggerDecoded (libc : Libc) (r : Regs g) (i : Trigger.Input) (s : Decoder)
    (e e' : Readings) : Prop where
  maxima : printed s (decodeWord libc s (maximumWord r i, e)) =
    [(s.fhout, sampleLine ((r.a.dat 2).extractLsb' 0 14) ((r.b.dat 2).extractLsb' 0 14))]
  charges : ∀ s', s' = decodeWord libc s (maximumWord r i, e) →
    printed s' (decodeWord libc s' (chargeWord r i, e')) =
      [(s'.fhout, sampleLine r.a.chargeReg r.b.chargeReg)]

/-- A subtrigger packet is printed right if and only if its maxima and charges are all zero. -/
theorem subtrigger_decoded_iff (libc : Libc) (r : Regs g) (i : Trigger.Input) (s : Decoder)
    (e e' : Readings) :
    SubtriggerDecoded libc r i s e e' ↔
      ((r.a.dat 2).extractLsb' 0 14 = 0 ∧ (r.b.dat 2).extractLsb' 0 14 = 0) ∧
        r.a.chargeReg = 0 ∧ r.b.chargeReg = 0 := by
  constructor
  · rintro ⟨hmaxima, hcharges⟩
    have hcharge := hcharges _ rfl
    rw [maximumWord_eq, printed_packedWord_iff] at hmaxima
    rw [chargeWord_eq, printed_packedWord_iff] at hcharge
    exact ⟨hmaxima, hcharge⟩
  · rintro ⟨hmaxima, hcharge⟩
    constructor
    · rw [maximumWord_eq, printed_packedWord_iff]
      exact hmaxima
    · intro s' _
      rw [chargeWord_eq, printed_packedWord_iff]
      exact hcharge

/-- A pulse of height 1 at entry 2 of the window of channel 1. -/
def pulseRegs : Regs .smallest :=
  { Regs.reset .smallest with
    a := { Trigger.Channel.reset .smallest with
      adcDatReg := fun k => if k.val = 2 then 1 else 0 } }

/-- The pulse reaches the lower level of channel 1 only. -/
def pulseInput : Trigger.Input :=
  { Trigger.Input.quiet 0 0 with a := ⟨2, 1, 0⟩, b := ⟨2, 1, 0⟩ }

/-- The maximum 1 of channel 1 is printed as `-16384`: its lowest bit becomes bit 14 of the low
half. -/
theorem pulse_misread :
    pulseRegs.subtrS pulseInput = true ∧
      printed default (decodeWord noCalendar default (maximumWord pulseRegs pulseInput, default)) =
        [(.stdout, ⟨"%5hd %5hd\n", [.int (-16384), .int 0]⟩)] ∧
      ¬ SubtriggerDecoded noCalendar pulseRegs pulseInput default default default := by
  refine ⟨by decide +kernel, by decide +kernel, ?_⟩
  rintro ⟨hmaxima, -⟩
  revert hmaxima
  decide +kernel

end RpEcosystem.Daq
