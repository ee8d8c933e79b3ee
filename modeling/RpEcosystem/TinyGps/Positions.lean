import RpEcosystem.TinyGps.Sentences
import Mathlib.Tactic.IntervalCases
import Mathlib.Tactic.Ring

/-!
# Positions and dates through the reader

A receiver writes a fix as a GPRMC sentence, with numbers of fixed width. The reader gives back the
date and the time as they were, and the position in hundred thousandths of a degree.

* `padded`, `Fix.sentence`: how a fix is written;
* `digits_padded`, `fraction_padded`: the readers read such numbers;
* `fix_read_back`: the whole way, from any state of the reader.
-/

namespace RpEcosystem.TinyGps

open CLib

/-! ## Numbers of fixed width -/

/-- A digit, also a hexadecimal one. -/
def digitChar (d : Nat) : Char := if d < 10 then Char.ofNat (48 + d) else Char.ofNat (55 + d)

/-- The last `w` decimal digits of `n`. -/
def padded : Nat → Nat → Text
  | 0, _ => []
  | w + 1, n => digitChar (n / 10 ^ w % 10) :: padded w n

theorem digitChar_spec {d : Nat} (hd : d < 10) :
    gpsisdigit (digitChar d) = true ∧ (digitChar d).toNat - '0'.toNat = d := by
  interval_cases d <;> decide

theorem fromHex_digitChar {d : Nat} (hd : d < 16) :
    fromHex (digitChar d) = d ∧ plain (digitChar d) = true := by
  interval_cases d <;> decide

theorem length_padded (w n : Nat) : (padded w n).length = w := by
  induction w with
  | zero => rfl
  | succ w ih => rw [padded, List.length_cons, ih]

theorem plain_padded {w n : Nat} : ∀ c ∈ padded w n, plain c := by
  induction w with
  | zero => simp [padded]
  | succ w ih =>
    intro c hc
    rw [padded, List.mem_cons] at hc
    rcases hc with rfl | hc
    · exact (fromHex_digitChar ((Nat.mod_lt _ (by decide)).trans (show 10 < 16 by decide))).2
    · exact ih c hc

theorem digits_padded (acc w n : Nat) (rest : Text) :
    digits 10 acc (padded w n ++ rest) = digits 10 (acc * 10 ^ w + n % 10 ^ w) rest := by
  induction w generalizing acc with
  | zero => simp [padded, Nat.mod_one]
  | succ w ih =>
    obtain ⟨hdigit, hvalue⟩ := digitChar_spec (Nat.mod_lt (n / 10 ^ w) (show 0 < 10 by decide))
    rw [padded, List.cons_append, digits_cons_of_isdigit hdigit, hvalue, ih]
    congr 1
    rw [Nat.pow_succ, Nat.mod_mul]
    ring

theorem fraction_padded (k n : Nat) : fraction (10 ^ k) (padded (k + 1) n) = n % 10 ^ (k + 1) := by
  induction k with
  | zero =>
    obtain ⟨hdigit, hvalue⟩ := digitChar_spec (Nat.mod_lt n (show 0 < 10 by decide))
    rw [padded, fraction, Nat.pow_zero, Nat.div_one, if_pos hdigit, hvalue]
    simp [padded, fraction]
  | succ k ih =>
    obtain ⟨hdigit, hvalue⟩ :=
      digitChar_spec (Nat.mod_lt (n / 10 ^ (k + 1)) (show 0 < 10 by decide))
    rw [padded, fraction, if_pos hdigit, hvalue, Nat.pow_succ 10 k,
      Nat.mul_div_cancel _ (by decide), ih, ← Nat.pow_succ, Nat.pow_succ 10 (k + 1), Nat.mod_mul,
      Nat.add_comm]

theorem isdigit_padded {w n : Nat} : ∀ c ∈ padded w n, gpsisdigit c := by
  induction w with
  | zero => simp [padded]
  | succ w ih =>
    intro c hc
    rw [padded, List.mem_cons] at hc
    rcases hc with rfl | hc
    · exact (digitChar_spec (Nat.mod_lt _ (by decide))).1
    · exact ih c hc

theorem digits_point (acc : Nat) (q : Text) : digits 10 acc ('.' :: q) = acc :=
  digits_cons_of_not_isdigit (by decide) acc q

theorem afterPoint_append {t : Text} (ht : ∀ c ∈ t, gpsisdigit c) (q : Text) :
    afterPoint (t ++ '.' :: q) = q := by
  have hdrop : (t ++ '.' :: q).dropWhile gpsisdigit = '.' :: q := by
    rw [List.dropWhile_append_of_pos ht, List.dropWhile_cons_of_neg (by decide)]
  rw [afterPoint, hdrop]
  rfl

/-! ## A fix -/

/-- A fix as it fits into a GPRMC sentence. Minutes of arc come with four decimals, speed and course
in hundredths. -/
structure Fix where
  hour : Nat
  minute : Nat
  second : Nat
  hundredth : Nat
  latDegrees : Nat
  latMinutes : Nat
  latTenk : Nat
  south : Bool
  lonDegrees : Nat
  lonMinutes : Nat
  lonTenk : Nat
  west : Bool
  speed : Nat
  course : Nat
  day : Nat
  month : Nat
  year : Nat
  hour_lt : hour < 24
  minute_lt : minute < 60
  second_le : second ≤ 60
  hundredth_lt : hundredth < 100
  lat_lt : latDegrees < 90 ∧ latMinutes < 60 ∧ latTenk < 10000
  lon_lt : lonDegrees < 180 ∧ lonMinutes < 60 ∧ lonTenk < 10000
  speed_lt : speed < 100000
  course_lt : course < 36000
  day_le : day ≤ 31
  month_le : month ≤ 12
  year_le : 1981 ≤ year ∧ year ≤ 2080

namespace Fix

variable (f : Fix)

def timeField : Text :=
  padded 2 f.hour ++ padded 2 f.minute ++ padded 2 f.second ++ '.' :: padded 2 f.hundredth

def latField : Text := padded 2 f.latDegrees ++ padded 2 f.latMinutes ++ '.' :: padded 4 f.latTenk

def lonField : Text := padded 3 f.lonDegrees ++ padded 2 f.lonMinutes ++ '.' :: padded 4 f.lonTenk

/-- A number of hundredths below 100000. -/
def centField (n : Nat) : Text := padded 3 (n / 100) ++ '.' :: padded 2 n

def dateField : Text := padded 2 f.day ++ padded 2 f.month ++ padded 2 f.year

def fields : List Text :=
  [f.timeField, ['A'], f.latField, [if f.south then 'S' else 'N'], f.lonField,
    [if f.west then 'W' else 'E'], centField f.speed, centField f.course, f.dateField]

/-- The sentence with its checksum. -/
def sentence : Text :=
  let parity := (parityOf ([','].intercalate ("GPRMC".toList :: f.fields))).toNat
  TinyGps.sentence "GPRMC".toList f.fields [digitChar (parity / 16), digitChar (parity % 16)]

end Fix

/-! ## Decimal digits of a word -/

theorem toNat_quotient {x : BitVec 32} {n k : Nat} (hx : x.toNat = n) (hk : k < 2 ^ 32) :
    (x / BitVec.ofNat 32 k).toNat = n / k := by
  rw [BitVec.toNat_udiv, BitVec.toNat_ofNat, Nat.mod_eq_of_lt hk, hx]

theorem toNat_lastTwo {x : BitVec 32} {n : Nat} (hx : x.toNat = n) :
    (x % 100).toNat = n % 100 := by
  rw [BitVec.toNat_umod, hx]
  rfl

/-- A word below the top as a multiple of another one. -/
theorem toNat_multiple {x : BitVec 32} {n k : Nat} (hx : x.toNat = n) (hk : n * k < 2 ^ 32)
    (hk' : k < 2 ^ 32) : (x * BitVec.ofNat 32 k).toNat = n * k := by
  have hnat : (BitVec.ofNat 32 k).toNat = k := by
    rw [BitVec.toNat_ofNat, Nat.mod_eq_of_lt hk']
  rw [BitVec.toNat_mul_of_lt (by rw [hx, hnat]; exact hk), hx, hnat]

theorem toNat_sum {x y : BitVec 32} {n k : Nat} (hx : x.toNat = n) (hy : y.toNat = k)
    (hk : n + k < 2 ^ 32) : (x + y).toNat = n + k := by
  rw [BitVec.toNat_add_of_lt (by rw [hx, hy]; exact hk), hx, hy]

theorem toNat_byte {x : BitVec 32} {n : Nat} (hx : x.toNat = n) (hn : n < 256) :
    (x.setWidth 8).toNat = n := by
  rw [BitVec.toNat_setWidth, hx]
  exact Nat.mod_eq_of_lt hn

/-! ## Numerals -/

theorem checksum_digitChar (p : BitVec 8) :
    checksum (digitChar (p.toNat / 16)) (digitChar (p.toNat % 16)) = p := by
  have hp : p.toNat < 256 := p.isLt
  rw [checksum, (fromHex_digitChar (by omega)).1, (fromHex_digitChar (by omega)).1]
  have hsum : (16 * ((p.toNat / 16 : Nat) : Int) + ((p.toNat % 16 : Nat) : Int)) = p.toNat := by
    omega
  rw [hsum, BitVec.ofInt_natCast, BitVec.ofNat_toNat, BitVec.setWidth_eq]

/-- A decimal number with two decimals. -/
theorem signedHundredths_numeral {whole : Text} (hw : ∀ c ∈ whole, gpsisdigit c) (n : Nat) :
    signedHundredths (whole ++ '.' :: padded 2 n) =
      BitVec.ofNat 32 (100 * digits 10 0 (whole ++ '.' :: padded 2 n) + n % 100) := by
  have hplus : signedHundredths (whole ++ '.' :: padded 2 n) =
      hundredths (whole ++ '.' :: padded 2 n) := by
    cases whole with
    | nil => exact signedHundredths_cons (by decide) _
    | cons c whole =>
      refine signedHundredths_cons ?_ _
      rintro rfl
      exact absurd (hw '-' List.mem_cons_self) (by decide)
  have hfrac := fraction_padded 1 n
  rw [hplus, hundredths, afterPoint_append hw, BitVec.ofNat_add, BitVec.ofNat_mul]
  exact congrArg (fun k => _ + BitVec.ofNat 32 k) hfrac

/-- Degrees and minutes of arc with four decimals. -/
theorem toNat_degrees_numeral {whole : Text} (hw : ∀ c ∈ whole, gpsisdigit c) {d m n : Nat}
    (hwhole : digits 10 0 (whole ++ '.' :: padded 4 n) = d * 100 + m) (hd : d < 1000)
    (hm : m < 100) (hn : n < 10000) :
    (degrees (whole ++ '.' :: padded 4 n)).toNat = d * 100000 + (m * 10000 + n) / 6 := by
  have hfrac : fraction 1000 (padded 4 n) = n := (fraction_padded 3 n).trans (Nat.mod_eq_of_lt hn)
  have hleft : (BitVec.ofNat 32 (d * 100 + m)).toNat = d * 100 + m := by
    rw [BitVec.toNat_ofNat, Nat.mod_eq_of_lt (by omega)]
  have htenk : (BitVec.ofNat 32 n).toNat = n := by
    rw [BitVec.toNat_ofNat, Nat.mod_eq_of_lt (by omega)]
  have hdeg := toNat_multiple (k := 100000)
    ((toNat_quotient (k := 100) hleft (by decide)).trans (by omega : _ = d)) (by omega) (by decide)
  have hmin := toNat_multiple (k := 10000)
    ((toNat_lastTwo hleft).trans (by omega : _ = m)) (by omega) (by decide)
  have hsixth := toNat_quotient (k := 6) (toNat_sum hmin htenk (by omega)) (by decide)
  rw [degrees, afterPoint_append hw, hwhole, hfrac]
  exact toNat_sum hdeg hsixth (by omega)

/-! ## The fields of a fix -/

namespace Fix

variable (f : Fix)

theorem time_read :
    signedHundredths f.timeField =
      BitVec.ofNat 32 (f.hour * 1000000 + f.minute * 10000 + f.second * 100 + f.hundredth) := by
  have h1 := f.hour_lt
  have h2 := f.minute_lt
  have h3 := f.second_le
  have h4 := f.hundredth_lt
  have hdigit : ∀ c ∈ padded 2 f.hour ++ padded 2 f.minute ++ padded 2 f.second, gpsisdigit c :=
    List.forall_mem_append.mpr
      ⟨List.forall_mem_append.mpr ⟨isdigit_padded, isdigit_padded⟩, isdigit_padded⟩
  rw [timeField, signedHundredths_numeral hdigit]
  simp only [List.append_assoc, digits_padded, digits_point]
  congr 1
  omega

theorem cent_read {n : Nat} (hn : n < 100000) :
    signedHundredths (centField n) = BitVec.ofNat 32 n := by
  rw [centField, signedHundredths_numeral isdigit_padded]
  simp only [digits_padded, digits_point]
  congr 1
  omega

theorem toNat_lat_read :
    (degrees f.latField).toNat =
      f.latDegrees * 100000 + (f.latMinutes * 10000 + f.latTenk) / 6 := by
  obtain ⟨h1, h2, h3⟩ := f.lat_lt
  refine toNat_degrees_numeral (List.forall_mem_append.mpr ⟨isdigit_padded, isdigit_padded⟩) ?_
    (by omega) (by omega) h3
  simp only [List.append_assoc, digits_padded, digits_point]
  omega

theorem toNat_lon_read :
    (degrees f.lonField).toNat =
      f.lonDegrees * 100000 + (f.lonMinutes * 10000 + f.lonTenk) / 6 := by
  obtain ⟨h1, h2, h3⟩ := f.lon_lt
  refine toNat_degrees_numeral (List.forall_mem_append.mpr ⟨isdigit_padded, isdigit_padded⟩) ?_
    (by omega) (by omega) h3
  simp only [List.append_assoc, digits_padded, digits_point]
  omega

theorem date_read :
    digits 10 0 f.dateField = f.day * 10000 + f.month * 100 + f.year % 100 := by
  have h1 := f.day_le
  have h2 := f.month_le
  have hnil : ∀ acc, digits 10 acc [] = acc := fun _ => rfl
  have happend := digits_padded (0 * 10 ^ 2 + f.day % 10 ^ 2) 2 f.month (padded 2 f.year ++ [])
  rw [dateField, List.append_assoc, digits_padded, ← List.append_nil (padded 2 f.year), happend,
    digits_padded, hnil]
  omega

theorem plain_numeral {a b : Text} (ha : ∀ c ∈ a, plain c) (hb : ∀ c ∈ b, plain c) :
    ∀ c ∈ a ++ '.' :: b, plain c :=
  List.forall_mem_append.mpr ⟨ha, List.forall_mem_cons.mpr ⟨by decide, hb⟩⟩

theorem fields_plain : ∀ t ∈ "GPRMC".toList :: f.fields, ∀ c ∈ t, plain c := by
  have htwo : ∀ {v w a b : Nat}, ∀ c ∈ padded v a ++ padded w b, plain c := fun {_ _ _ _} =>
    List.forall_mem_append.mpr ⟨plain_padded, plain_padded⟩
  have hthree : ∀ {u v w a b d : Nat}, ∀ c ∈ padded u a ++ padded v b ++ padded w d, plain c :=
    fun {_ _ _ _ _ _} => List.forall_mem_append.mpr ⟨htwo, plain_padded⟩
  simp only [fields, List.forall_mem_cons]
  refine ⟨plain_of_all (by decide), plain_numeral hthree plain_padded, ⟨by decide, by simp⟩,
    plain_numeral htwo plain_padded, ⟨?_, by simp⟩, plain_numeral htwo plain_padded, ⟨?_, by simp⟩,
    plain_numeral plain_padded plain_padded, plain_numeral plain_padded plain_padded, hthree,
    by simp⟩
  · cases f.south <;> decide
  · cases f.west <;> decide

/-- What the sentence leaves to be published. -/
theorem sentence_read (r : Reading) :
    (readSentence r "GPRMC".toList f.fields).new =
      { r.new with
        time := signedHundredths f.timeField, timeFix := r.clock 0,
        latitude := if f.south then -degrees f.latField else degrees f.latField,
        positionFix := r.clock 1,
        longitude := if f.west then -degrees f.lonField else degrees f.lonField,
        speed := signedHundredths (centField f.speed),
        course := signedHundredths (centField f.course),
        date := BitVec.ofNat 32 (digits 10 0 f.dateField) } := by
  have haddress : addressOf ("GPRMC".toList.take 14) = .gprmc := by decide
  have hcons : ∀ {t : Text} {n : Nat}, t.length = n + 1 → n < 14 → ∀ (r : Reading) (i : Item),
      takeField r (t.take 14) (some i) = takeItem r t i := by
    intro t n ht hn r i
    rw [List.take_of_length_le (by omega), takeField, if_neg (List.length_pos_iff.mp (by omega))]
  have htime : f.timeField.length = 8 + 1 := by simp [timeField, length_padded]
  have hlat : f.latField.length = 8 + 1 := by simp [latField, length_padded]
  have hlon : f.lonField.length = 9 + 1 := by simp [lonField, length_padded]
  have hcent : ∀ n, (centField n).length = 5 + 1 := by simp [centField, length_padded]
  have hdate : f.dateField.length = 5 + 1 := by simp [dateField, length_padded]
  have hletter : ∀ c : Char, [c].length = 0 + 1 := fun _ => rfl
  rw [readSentence, haddress, fields, layout]
  simp only [readFields_cons]
  rw [hcons htime (by decide), hcons (hletter _) (by decide), hcons hlat (by decide),
    hcons (hletter _) (by decide), hcons hlon (by decide), hcons (hletter _) (by decide),
    hcons (hcent _) (by decide), hcons (hcent _) (by decide), hcons hdate (by decide)]
  cases f.south <;> cases f.west <;> simp [takeItem, readFields]

end Fix

/-! ## The whole way -/

theorem ageOf_published (s : Gps) (fix : BitVec 32) : (ageOf s fix).2.published = s.published := by
  unfold ageOf
  split_ifs <;> rfl

theorem position_published (s : Gps) :
    (gpsGetPosition s).1.latitude = s.published.latitude ∧
      (gpsGetPosition s).1.longitude = s.published.longitude :=
  ⟨congrArg Fields.latitude (ageOf_published ..), congrArg Fields.longitude (ageOf_published ..)⟩

/-- The date of a fix is taken apart as it was put together. -/
theorem crack_date {s : Gps} {d m y : Nat} (hd : d ≤ 31) (hm : m ≤ 12)
    (hy : 1981 ≤ y ∧ y ≤ 2080)
    (hdate : s.published.date = BitVec.ofNat 32 (d * 10000 + m * 100 + y % 100)) :
    (gpsCrackDatetime s).1.day.toNat = d ∧ (gpsCrackDatetime s).1.month.toNat = m ∧
      (gpsCrackDatetime s).1.year.toNat = y := by
  have hn : (BitVec.ofNat 32 (d * 10000 + m * 100 + y % 100)).toNat =
      d * 10000 + m * 100 + y % 100 := by
    rw [BitVec.toNat_ofNat, Nat.mod_eq_of_lt (by omega)]
  generalize BitVec.ofNat 32 (d * 10000 + m * 100 + y % 100) = date at hn hdate
  simp only [gpsCrackDatetime, ageOf_published, hdate]
  refine ⟨?_, ?_, ?_⟩
  · have hday := toNat_quotient (k := 10000) hn (by decide)
    exact toNat_byte (hday.trans (by omega)) (by omega)
  · have hmonth := toNat_lastTwo (toNat_quotient (k := 100) hn (by decide))
    exact toNat_byte (hmonth.trans (by omega)) (by omega)
  · have hyear : (date % 100).toNat = y % 100 := (toNat_lastTwo hn).trans (by omega)
    have hlt : (80 : BitVec 32) < date % 100 ↔ 80 < y % 100 := by
      rw [BitVec.lt_def, hyear]
      rfl
    rw [BitVec.toNat_add, hyear]
    split_ifs with h
    · have := hlt.mp h
      change (y % 100 + 1900) % 4294967296 = y
      omega
    · have := mt hlt.mpr h
      change (y % 100 + 2000) % 4294967296 = y
      omega

theorem crack_time {s : Gps} {h m sec c : Nat} (hh : h < 24) (hm : m < 60) (hs : sec ≤ 60)
    (hc : c < 100)
    (htime : s.published.time = BitVec.ofNat 32 (h * 1000000 + m * 10000 + sec * 100 + c)) :
    (gpsCrackDatetime s).1.hour.toNat = h ∧ (gpsCrackDatetime s).1.minute.toNat = m ∧
      (gpsCrackDatetime s).1.second.toNat = sec ∧
      (gpsCrackDatetime s).1.hundredths.toNat = c := by
  have hn : (BitVec.ofNat 32 (h * 1000000 + m * 10000 + sec * 100 + c)).toNat =
      h * 1000000 + m * 10000 + sec * 100 + c := by
    rw [BitVec.toNat_ofNat, Nat.mod_eq_of_lt (by omega)]
  generalize BitVec.ofNat 32 (h * 1000000 + m * 10000 + sec * 100 + c) = time at hn htime
  simp only [gpsCrackDatetime, ageOf_published, htime]
  refine ⟨?_, ?_, ?_, ?_⟩
  · have hhour := toNat_quotient (k := 1000000) hn (by decide)
    exact toNat_byte (hhour.trans (by omega)) (by omega)
  · have hminute := toNat_lastTwo (toNat_quotient (k := 10000) hn (by decide))
    exact toNat_byte (hminute.trans (by omega)) (by omega)
  · have hsecond := toNat_lastTwo (toNat_quotient (k := 100) hn (by decide))
    exact toNat_byte (hsecond.trans (by omega)) (by omega)
  · exact toNat_byte ((toNat_lastTwo hn).trans (by omega)) (by omega)

/-- A number of degrees with its hemisphere. -/
theorem toInt_signed {x : BitVec 32} {n : Nat} (hx : x.toNat = n) (hn : n < 2 ^ 31) (b : Bool) :
    (if b then -x else x).toInt = if b then -(n : Int) else n := by
  have hpos : x.toInt = n := by
    rw [BitVec.toInt_eq_toNat_of_lt (by omega), hx]
  cases b with
  | false => simpa using hpos
  | true =>
    have hne : x ≠ BitVec.intMin 32 := by
      intro h
      rw [h] at hx
      have : (BitVec.intMin 32).toNat = 2 ^ 31 := by decide
      omega
    simp only [if_true, BitVec.toInt_neg_of_ne_intMin hne, hpos]

/-- The sentence of a fix is accepted, from any state, and publishes the fix. -/
theorem feed_fix (s : Gps) (f : Fix) :
    ∃ s', feed s (f.sentence ++ ['\r']) =
        some (List.replicate f.sentence.length false ++ [true], s') ∧
      s'.published = Fields.publish .gprmc
        (readSentence s.reading "GPRMC".toList f.fields).new s.published := by
  have haddress : addressOf ("GPRMC".toList.take 14) = .gprmc := by decide
  have hgood : (readSentence s.reading "GPRMC".toList f.fields).good = true := by
    rw [readSentence_good, haddress]
    rfl
  have hdigits : ∀ p : BitVec 8, ∀ c ∈ [digitChar (p.toNat / 16), digitChar (p.toNat % 16)],
      plain c := by
    intro p
    have hp : p.toNat < 256 := p.isLt
    have hhi := (fromHex_digitChar (show p.toNat / 16 < 16 by omega)).2
    have hlo := (fromHex_digitChar (show p.toNat % 16 < 16 by omega)).2
    simp [hhi, hlo]
  obtain ⟨s', hfeed, hpublished⟩ := feed_sentence s (e := '\r') f.fields_plain
    (show 9 ≤ 31 by decide) (hdigits (parityOf ([','].intercalate ("GPRMC".toList :: f.fields))))
    (.inl rfl)
  rw [checksum_digitChar, hgood] at hfeed hpublished
  rw [if_pos ⟨rfl, rfl⟩, haddress] at hpublished
  exact ⟨s', by simpa [Fix.sentence] using hfeed, hpublished⟩

/-- Whatever the reader has read before, a fix that is written as a GPRMC sentence is accepted at
the character after the sentence and not before. Then the date and the time are those of the fix,
and so are speed and course; the position is that of the fix, in hundred thousandths of a degree
and rounded towards zero. -/
theorem fix_read_back (s : Gps) (f : Fix) :
    ∃ s', feed s (f.sentence ++ ['\r']) =
        some (List.replicate f.sentence.length false ++ [true], s') ∧
      ((gpsCrackDatetime s').1.year.toNat = f.year ∧
        (gpsCrackDatetime s').1.month.toNat = f.month ∧
        (gpsCrackDatetime s').1.day.toNat = f.day ∧
        (gpsCrackDatetime s').1.hour.toNat = f.hour ∧
        (gpsCrackDatetime s').1.minute.toNat = f.minute ∧
        (gpsCrackDatetime s').1.second.toNat = f.second ∧
        (gpsCrackDatetime s').1.hundredths.toNat = f.hundredth) ∧
      (gpsGetPosition s').1.latitude.toInt =
        (if f.south then -1 else 1) *
          ((f.latDegrees * 100000 + (f.latMinutes * 10000 + f.latTenk) / 6 : Nat) : Int) ∧
      (gpsGetPosition s').1.longitude.toInt =
        (if f.west then -1 else 1) *
          ((f.lonDegrees * 100000 + (f.lonMinutes * 10000 + f.lonTenk) / 6 : Nat) : Int) ∧
      s'.published.speed.toNat = f.speed ∧ s'.published.course.toNat = f.course := by
  obtain ⟨s', hfeed, hpublished⟩ := feed_fix s f
  rw [f.sentence_read] at hpublished
  -- the values that are published, one by one
  have htime : s'.published.time = BitVec.ofNat 32
      (f.hour * 1000000 + f.minute * 10000 + f.second * 100 + f.hundredth) := by
    rw [hpublished, ← f.time_read]
    rfl
  have hdate : s'.published.date =
      BitVec.ofNat 32 (f.day * 10000 + f.month * 100 + f.year % 100) := by
    rw [hpublished, ← f.date_read]
    rfl
  have hlat : (gpsGetPosition s').1.latitude =
      if f.south then -degrees f.latField else degrees f.latField := by
    rw [(position_published s').1, hpublished]
    rfl
  have hlon : (gpsGetPosition s').1.longitude =
      if f.west then -degrees f.lonField else degrees f.lonField := by
    rw [(position_published s').2, hpublished]
    rfl
  have hspeed : s'.published.speed = BitVec.ofNat 32 f.speed := by
    rw [hpublished, ← Fix.cent_read f.speed_lt]
    rfl
  have hcourse : s'.published.course = BitVec.ofNat 32 f.course := by
    rw [hpublished, ← Fix.cent_read (f.course_lt.trans (by decide))]
    rfl
  obtain ⟨hday, hmonth, hyear⟩ := crack_date f.day_le f.month_le f.year_le hdate
  obtain ⟨hhour, hminute, hsecond, hhundredth⟩ :=
    crack_time f.hour_lt f.minute_lt f.second_le f.hundredth_lt htime
  obtain ⟨hlatD, hlatM, hlatT⟩ := f.lat_lt
  obtain ⟨hlonD, hlonM, hlonT⟩ := f.lon_lt
  refine ⟨s', hfeed, ⟨hyear, hmonth, hday, hhour, hminute, hsecond, hhundredth⟩, ?_, ?_, ?_, ?_⟩
  · rw [hlat, toInt_signed f.toNat_lat_read (by omega)]
    cases f.south <;> simp
  · rw [hlon, toInt_signed f.toNat_lon_read (by omega)]
    cases f.west <;> simp
  · rw [hspeed, BitVec.toNat_ofNat, Nat.mod_eq_of_lt (f.speed_lt.trans (by decide))]
  · rw [hcourse, BitVec.toNat_ofNat, Nat.mod_eq_of_lt (f.course_lt.trans (by decide))]

end RpEcosystem.TinyGps
