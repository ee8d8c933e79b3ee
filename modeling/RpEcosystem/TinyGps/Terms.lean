import RpEcosystem.TinyGps.Core
import Mathlib.Algebra.Ring.Nat
import Mathlib.Tactic.SplitIfs

/-!
# Terms as strings

The buffer holds a string, its NUL, and what older terms left. No reader goes past the NUL: what it
finds depends on the string only, and is given here as a function of the string.

* `gpsatol_string`, `gpsParseDecimal_string`, `gpsParseDegrees_string`, `gpsstrcmp_string`: the
  readers;
* `takeItem`, `takeTerm`: what a term does;
* `gpsTermComplete_string`: the code does it.
-/

namespace RpEcosystem.TinyGps

open CLib

/-! ## What the readers find -/

/-- The digits after a point, where the first one counts `mult` and the next a tenth of it. -/
def fraction (mult : Nat) : Text → Nat
  | [] => 0
  | c :: q => if gpsisdigit c then mult * (c.toNat - '0'.toNat) + fraction (mult / 10) q else 0

/-- The text after the point that follows the digits. -/
def afterPoint (t : Text) : Text :=
  match t.dropWhile gpsisdigit with
  | '.' :: q => q
  | _ => []

/-- A number with two decimals, in hundredths. -/
def hundredths (t : Text) : BitVec 32 :=
  100 * BitVec.ofNat 32 (digits 10 0 t) + BitVec.ofNat 32 (fraction 10 (afterPoint t))

/-- A number with its sign, in hundredths. -/
def signedHundredths : Text → BitVec 32
  | '-' :: t => -hundredths t
  | t => hundredths t

/-- Degrees and minutes, in hundred thousandths of a degree. -/
def degrees (t : Text) : BitVec 32 :=
  let left := BitVec.ofNat 32 (digits 10 0 t)
  left / 100 * 100000 + (left % 100 * 10000 + BitVec.ofNat 32 (fraction 1000 (afterPoint t))) / 6

theorem gpsisdigit_nul : gpsisdigit '\x00' = false := by decide

theorem digits_cons_of_isdigit {c : Char} (h : gpsisdigit c) (acc : Nat) (t : Text) :
    digits 10 acc (c :: t) = digits 10 (acc * 10 + (c.toNat - '0'.toNat)) t := by
  simp only [gpsisdigit, Bool.and_eq_true, decide_eq_true_eq] at h
  have hlt : c.toNat - '0'.toNat < 10 := by
    have h9 : c.toNat ≤ '9'.toNat := h.2
    have h9' : '9'.toNat = 57 := rfl
    have h0' : '0'.toNat = 48 := rfl
    omega
  rw [digits, digit, if_pos h]
  exact if_pos hlt

theorem digits_cons_of_not_isdigit {c : Char} (h : gpsisdigit c = false) (acc : Nat) (t : Text) :
    digits 10 acc (c :: t) = acc := by
  have h' : ¬ ('0' ≤ c ∧ c ≤ '9') := by
    rintro hc
    simp [gpsisdigit, hc.1, hc.2] at h
  rw [digits, digit, if_neg h']
  split
  next d hd =>
    -- a letter counts ten at least
    have h10 : 10 ≤ d := by
      split_ifs at hd
      · cases hd; exact Nat.le_add_left 10 _
      · cases hd; exact Nat.le_add_left 10 _
    exact if_neg (by omega)
  next => rfl

theorem gpsatolFrom_string (acc : Nat) (t junk : Text) :
    gpsatolFrom (BitVec.ofNat 32 acc) (t ++ '\x00' :: junk) =
      some (BitVec.ofNat 32 (digits 10 acc t)) := by
  induction t generalizing acc with
  | nil => simp [gpsatolFrom, gpsisdigit_nul, digits]
  | cons c t ih =>
    rw [List.cons_append, gpsatolFrom]
    by_cases hc : gpsisdigit c
    · rw [if_pos hc, digits_cons_of_isdigit hc, ← ih, BitVec.ofNat_add, BitVec.ofNat_mul,
        BitVec.mul_comm]
      rfl
    · rw [if_neg hc, digits_cons_of_not_isdigit (by simpa using hc)]

theorem gpsatol_string (t junk : Text) :
    gpsatol (t ++ '\x00' :: junk) = some (BitVec.ofNat 32 (digits 10 0 t)) :=
  gpsatolFrom_string 0 t junk

theorem skipDigits_string (t junk : Text) :
    skipDigits (t ++ '\x00' :: junk) = some (t.dropWhile gpsisdigit ++ '\x00' :: junk) := by
  induction t with
  | nil => simp [skipDigits, gpsisdigit_nul]
  | cons c t ih =>
    rw [List.cons_append, skipDigits]
    split
    next hc => rw [ih, List.dropWhile_cons_of_pos hc]
    next hc => rw [List.dropWhile_cons_of_neg hc, List.cons_append]

theorem addTenkMinutes_string (mult : Nat) (hm : mult < 2 ^ 32) (sum : BitVec 32) (q junk : Text) :
    addTenkMinutes (BitVec.ofNat 32 mult) sum (q ++ '\x00' :: junk) =
      some (sum + BitVec.ofNat 32 (fraction mult q)) := by
  induction q generalizing mult sum with
  | nil => simp [addTenkMinutes, gpsisdigit_nul, fraction]
  | cons c q ih =>
    rw [List.cons_append, addTenkMinutes, fraction]
    split
    next hc =>
      have htenth : BitVec.ofNat 32 mult / 10 = BitVec.ofNat 32 (mult / 10) := by
        apply BitVec.eq_of_toNat_eq
        rw [BitVec.toNat_udiv, BitVec.toNat_ofNat, BitVec.toNat_ofNat, Nat.mod_eq_of_lt hm,
          Nat.mod_eq_of_lt (by omega)]
        rfl
      rw [htenth, ih (mult / 10) (by omega), BitVec.add_assoc, digitValue, ← BitVec.ofNat_mul,
        ← BitVec.ofNat_add]
    next => simp

theorem fraction_zero (q : Text) : fraction 0 q = 0 := by
  induction q with
  | nil => rfl
  | cons c q ih => simp [fraction, ih]

theorem addHundredths_string (ret : BitVec 32) (q junk : Text) :
    addHundredths ret ('.' :: q ++ '\x00' :: junk) =
      some (ret + BitVec.ofNat 32 (fraction 10 q)) := by
  cases q with
  | nil => simp [addHundredths, gpsisdigit_nul, fraction]
  | cons c q =>
    cases hc : gpsisdigit c with
    | false => simp [addHundredths, fraction, hc]
    | true =>
      cases q with
      | nil => simp [addHundredths, gpsisdigit_nul, fraction, hc, digitValue, BitVec.ofNat_mul]
      | cons d q =>
        cases hd : gpsisdigit d with
        | false => simp [addHundredths, fraction, hc, hd, digitValue, BitVec.ofNat_mul]
        | true =>
          simp [addHundredths, fraction, hc, hd, digitValue, BitVec.ofNat_mul, BitVec.ofNat_add,
            fraction_zero, BitVec.add_assoc]

/-- A reader looks for a point where the digits end. -/
theorem point_cases (t : Text) :
    (t.dropWhile gpsisdigit = '.' :: afterPoint t) ∨
      afterPoint t = [] ∧ ∀ junk : Text, ∃ c p,
        t.dropWhile gpsisdigit ++ '\x00' :: junk = c :: p ∧ c ≠ '.' := by
  unfold afterPoint
  split
  next q h => exact .inl h
  next h =>
    refine .inr ⟨rfl, fun junk => ?_⟩
    cases hd : t.dropWhile gpsisdigit with
    | nil => exact ⟨_, _, rfl, by decide⟩
    | cons c q => exact ⟨c, _, rfl, fun hc => h q (hc ▸ hd)⟩

theorem gpsParseDegrees_string (t junk : Text) :
    gpsParseDegrees (t ++ '\x00' :: junk) = some (degrees t) := by
  have htenk := addTenkMinutes_string 1000 (by decide)
  rw [gpsParseDegrees, gpsatol_string, skipDigits_string]
  obtain h | ⟨h, hnone⟩ := point_cases t
  · simp [h, degrees, htenk]
  · obtain ⟨c, p, hp, hc⟩ := hnone junk
    simp [h, hp, hc, degrees, fraction]

theorem parseUnsigned_string (t junk : Text) :
    parseUnsigned (t ++ '\x00' :: junk) = some (hundredths t) := by
  rw [parseUnsigned, gpsatol_string, skipDigits_string]
  obtain h | ⟨h, hnone⟩ := point_cases t
  · have hadd := addHundredths_string (100 * BitVec.ofNat 32 (digits 10 0 t)) (afterPoint t) junk
    simpa [h, hundredths] using hadd
  · obtain ⟨c, p, hp, hc⟩ := hnone junk
    simp [h, hp, hc, hundredths, fraction]

theorem signedHundredths_cons {c : Char} (hc : c ≠ '-') (t : Text) :
    signedHundredths (c :: t) = hundredths (c :: t) := by
  unfold signedHundredths
  split
  next h => simp [hc] at h
  next => rfl

theorem gpsParseDecimal_string (t junk : Text) :
    gpsParseDecimal (t ++ '\x00' :: junk) = some (signedHundredths t) := by
  cases t with
  | nil => simpa [gpsParseDecimal, signedHundredths] using parseUnsigned_string [] junk
  | cons c t =>
    by_cases hc : c = '-'
    · simp [gpsParseDecimal, hc, parseUnsigned_string, signedHundredths]
    · have h := parseUnsigned_string (c :: t) junk
      rw [List.cons_append] at h
      simp [gpsParseDecimal, hc, h, signedHundredths_cons hc]

/-- The comparison succeeds when the first string ends, so at every beginning of the second. -/
theorem gpsstrcmp_string {t : Text} (ref : Text) (ht : '\x00' ∉ t) (href : '\x00' ∉ ref)
    (junk : Text) :
    ∃ c, gpsstrcmp (t ++ '\x00' :: junk) (ref ++ ['\x00']) = some c ∧ (c = '\x00' ↔ t <+: ref) := by
  induction t generalizing ref with
  | nil => exact ⟨'\x00', by simp [gpsstrcmp], by simp⟩
  | cons a t ih =>
    rw [List.mem_cons, not_or] at ht
    cases ref with
    | nil => exact ⟨a, by simp [gpsstrcmp, Ne.symm ht.1], by simp [Ne.symm ht.1]⟩
    | cons b ref =>
      rw [List.mem_cons, not_or] at href
      by_cases hab : a = b
      · obtain ⟨c, hc, hiff⟩ := ih ref ht.2 href.2
        exact ⟨c, by simpa [gpsstrcmp, Ne.symm ht.1, hab, Ne.symm href.1] using hc,
          by simp [hiff, hab, List.cons_prefix_cons]⟩
      · exact ⟨a, by simp [gpsstrcmp, Ne.symm ht.1, hab],
          by simp [Ne.symm ht.1, List.cons_prefix_cons, hab]⟩

/-! ## What a term does -/

/-- The type that an address gives: the beginning of an address will do. -/
def addressOf (t : Text) : SentenceType :=
  if t <+: "GPRMC".toList then .gprmc else if t <+: "GPGGA".toList then .gpgga else .other

/-- What the terms of a sentence change. -/
structure Reading where
  new : Fields
  good : Bool
  clock : Nat → BitVec 32

def Gps.reading (s : Gps) : Reading := ⟨s.new, s.isGpsDataGood, s.clock⟩

def Gps.setReading (s : Gps) (r : Reading) : Gps :=
  { s with new := r.new, isGpsDataGood := r.good, clock := r.clock }

/-- A term that is used for `i`. -/
def takeItem (r : Reading) (t : Text) : Item → Reading
  | .time =>
    { r with
      new := { r.new with time := signedHundredths t, timeFix := r.clock 0 },
      clock := fun n => r.clock (n + 1) }
  | .validity => { r with good := t.head? = some 'A' }
  | .latitude =>
    { r with
      new := { r.new with latitude := degrees t, positionFix := r.clock 0 },
      clock := fun n => r.clock (n + 1) }
  | .northSouth =>
    if t.head? = some 'S' then { r with new := { r.new with latitude := -r.new.latitude } } else r
  | .longitude => { r with new := { r.new with longitude := degrees t } }
  | .eastWest =>
    if t.head? = some 'W' then { r with new := { r.new with longitude := -r.new.longitude } } else r
  | .speed => { r with new := { r.new with speed := signedHundredths t } }
  | .course => { r with new := { r.new with course := signedHundredths t } }
  | .date => { r with new := { r.new with date := BitVec.ofNat 32 (digits 10 0 t) } }
  | .fixData => { r with good := t.head?.any ('0' < ·) }
  | .satellites =>
    { r with new := { r.new with numsats := (BitVec.ofInt 8 (atoi t)).setWidth 16 } }
  | .hdop => { r with new := { r.new with hdop := signedHundredths t } }
  | .altitude => { r with new := { r.new with altitude := signedHundredths t } }

/-- A term after the address: an empty one says nothing. -/
def takeField (r : Reading) (t : Text) : Option Item → Reading
  | none => r
  | some i => if t = [] then r else takeItem r t i

/-- The use of a term of a sentence. -/
def use (type : SentenceType) (number : BitVec 8) : Option Item :=
  if type = .other then none else item (combine type number.toNat)

/-- A complete term that is no checksum. -/
def takeTerm (s : Gps) (t : Text) : Gps :=
  if s.termNumber = 0 then { s with sentenceType := addressOf t }
  else s.setReading (takeField s.reading t (use s.sentenceType s.termNumber))

theorem cstring_string {t : Text} (ht : '\x00' ∉ t) (junk : Text) :
    cstring (t ++ '\x00' :: junk) = some t := by
  have htake : (t ++ '\x00' :: junk).takeWhile (· ≠ '\x00') = t := by
    rw [List.takeWhile_append_of_pos fun c hc => by
      simpa using fun h : c = '\x00' => ht (h ▸ hc)]
    simp
  rw [cstring, if_pos (by simp), htake]

theorem addressType_string {t : Text} (ht : '\x00' ∉ t) (junk : Text) :
    addressType (t ++ '\x00' :: junk) = some (addressOf t) := by
  obtain ⟨r, hr, hrmc⟩ := gpsstrcmp_string "GPRMC".toList ht (by decide) junk
  obtain ⟨g, hg, hgga⟩ := gpsstrcmp_string "GPGGA".toList ht (by decide) junk
  have hr' : gpsstrcmp (t ++ '\x00' :: junk) "GPRMC\x00".toList = some r := hr
  have hg' : gpsstrcmp (t ++ '\x00' :: junk) "GPGGA\x00".toList = some g := hg
  simp only [addressType, hr', hg', addressOf, ← hrmc, ← hgga]
  by_cases h : r = '\x00'
  · simp [h]
  · simp [h]

theorem head_string (t junk : Text) :
    (t ++ '\x00' :: junk)[0]? = some (t.headD '\x00') := by
  cases t <;> rfl

theorem headD_eq_iff {a : Char} (ha : a ≠ '\x00') (t : Text) :
    t.headD '\x00' = a ↔ t.head? = some a := by
  cases t with
  | nil => simp [Ne.symm ha]
  | cons c t => simp

theorem readItem_string {t : Text} (ht : '\x00' ∉ t) (junk : Text) (s : Gps) (i : Item) :
    readItem s (t ++ '\x00' :: junk) i = some (s.setReading (takeItem s.reading t i)) := by
  cases i with
  | time | speed | course | hdop | altitude =>
    simp [readItem, gpsParseDecimal_string, takeItem, Gps.uptime, Gps.setReading, Gps.reading]
  | latitude | longitude =>
    simp [readItem, gpsParseDegrees_string, takeItem, Gps.uptime, Gps.setReading, Gps.reading]
  | date => simp [readItem, gpsatol_string, takeItem, Gps.setReading, Gps.reading]
  | satellites => simp [readItem, cstring_string ht, takeItem, Gps.setReading, Gps.reading]
  | validity =>
    have hA := headD_eq_iff (a := 'A') (by decide) t
    rw [readItem, head_string]
    simp only [Option.bind_eq_bind, Option.bind_some, hA]
    rfl
  | northSouth =>
    have hS := headD_eq_iff (a := 'S') (by decide) t
    rw [readItem, head_string]
    simp only [Option.bind_eq_bind, Option.bind_some, hS]
    by_cases h : t.head? = some 'S'
    · simp [h, takeItem, Gps.setReading, Gps.reading]
    · simp [h, takeItem, Gps.setReading, Gps.reading]
  | eastWest =>
    have hW := headD_eq_iff (a := 'W') (by decide) t
    rw [readItem, head_string]
    simp only [Option.bind_eq_bind, Option.bind_some, hW]
    by_cases h : t.head? = some 'W'
    · simp [h, takeItem, Gps.setReading, Gps.reading]
    · simp [h, takeItem, Gps.setReading, Gps.reading]
  | fixData => cases t <;> simp [readItem, takeItem, Gps.setReading, Gps.reading]

theorem gpsTermComplete_string {s : Gps} {t junk : Text} (ht : '\x00' ∉ t)
    (hterm : s.term.toList = t ++ '\x00' :: junk) (hcheck : s.isChecksumTerm = false) :
    gpsTermComplete s = some (false, takeTerm s t) := by
  have hfirst : s.term[0] ≠ '\x00' ↔ t ≠ [] := by
    have h0 : s.term[0] = t.headD '\x00' := by
      have := head_string t junk
      rw [← hterm] at this
      simpa using this
    rw [h0]
    cases t with
    | nil => simp
    | cons c t => simpa using fun h : c = '\x00' => ht (by simp [h])
  have hquiet : s.setReading s.reading = s := rfl
  rw [gpsTermComplete, takeTerm, hterm, hcheck, if_neg Bool.false_ne_true, addressType_string ht,
    use]
  by_cases h0 : s.termNumber = 0
  · rw [if_pos h0, if_pos h0, Option.map_some]
  · rw [if_neg h0, if_neg h0]
    by_cases htype : s.sentenceType = .other
    · rw [if_neg fun h => h.1 htype, if_pos htype, takeField, hquiet]
    · rw [if_neg htype]
      cases item (combine s.sentenceType s.termNumber.toNat) with
      | none => rw [takeField, hquiet, ite_self]
      | some i =>
        rw [takeField]
        by_cases hempty : t = []
        · rw [if_neg fun h => hfirst.mp h.2 hempty, if_pos hempty, hquiet]
        · rw [if_pos ⟨htype, hfirst.mpr hempty⟩, if_neg hempty]
          simp only [readItem_string ht, Option.map_some]

end RpEcosystem.TinyGps
