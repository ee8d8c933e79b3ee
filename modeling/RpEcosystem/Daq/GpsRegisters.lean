import RpEcosystem.CLib.Number
import RpEcosystem.Daq.Metadata
import RpEcosystem.Daq.Rotation

/-!
# The position and the time, from the GPS thread to the decoder

`thread_isr` writes a fix into configuration registers, the trigger core packs the low 24 bits of
each into the words of a pulse, and `read_buffer` decodes these words. The position is a signed
number of 24 bits in units of `1/65536`, so it reaches from -128 to 128; the time is written as the
decimal number `hhmmss` and read as three bytes.

* `threadIsr`, `gpsPorts`: the registers and the ports of the core;
* `SetBy.foldl_words`: what a packet leaves in a variable that one of its words sets;
* `gps_survives_iff`: the fixes that come back.
-/

namespace RpEcosystem.Daq

open Trigger (Word Generics Regs)

/-! ## The registers -/

/-- `loc_t`, as far as `thread_isr` reads it. The numbers are exact. -/
structure Location where
  times : ℚ
  date : ℚ
  latitude : ℚ
  longitude : ℚ
  altitude : ℚ
  satellites : ℚ

def cfgTimeOffset : Nat := 0x20

def cfgDateOffset : Nat := 0x24

def cfgLatitudeOffset : Nat := 0x28

def cfgLongitudeOffset : Nat := 0x2C

def cfgAltitudeOffset : Nat := 0x30

def cfgSatelliteOffset : Nat := 0x34

/-- `dev_write`: the registers by their offset. -/
def devWrite (cfg : Nat → BitVec 32) (offset : Nat) (value : BitVec 32) : Nat → BitVec 32 :=
  fun o => if o = offset then value else cfg o

/-- The registers after one turn of the loop of `thread_isr`, where its conversions are defined. -/
def threadIsr (gData : Location) (cfg : Nat → BitVec 32) : Option (Nat → BitVec 32) := do
  let gTim ← CLib.int32 gData.times
  let gDat ← CLib.int32 gData.date
  let gLat ← CLib.int32 (gData.latitude * 65536)
  let gLon ← CLib.int32 (gData.longitude * 65536)
  let gAlt ← CLib.int32 (gData.altitude * 65536)
  let gSat ← CLib.int32 gData.satellites
  let cfg := devWrite cfg cfgTimeOffset gTim
  let cfg := devWrite cfg cfgDateOffset gDat
  let cfg := devWrite cfg cfgLatitudeOffset gLat
  let cfg := devWrite cfg cfgLongitudeOffset gLon
  let cfg := devWrite cfg cfgAltitudeOffset gAlt
  return devWrite cfg cfgSatelliteOffset gSat

/-- The ports of the core that are connected to the registers: the low 24 bits of each. -/
def gpsPorts (cfg : Nat → BitVec 32) (i : Trigger.Input) : Trigger.Input :=
  { i with
    timeI := (cfg cfgTimeOffset).extractLsb' 0 24
    dateI := (cfg cfgDateOffset).extractLsb' 0 24
    latitudeI := (cfg cfgLatitudeOffset).extractLsb' 0 24
    longitudeI := (cfg cfgLongitudeOffset).extractLsb' 0 24
    altitudeI := (cfg cfgAltitudeOffset).extractLsb' 0 24
    satellitesI := (cfg cfgSatelliteOffset).extractLsb' 0 24 }

/-! ## Fixes -/

/-- A fix on Earth: the UTC time, the date as `ddmmyy`, the number of satellites, and the position
in units of `1/65536` degree or metre. -/
structure Fix where
  hour : Nat
  minute : Nat
  second : Nat
  date : Nat
  satellites : Nat
  latitude : Int
  longitude : Int
  altitude : Int
  hour_lt : hour < 24
  minute_lt : minute < 60
  second_lt : second < 60
  date_lt : date < 1000000
  satellites_lt : satellites < 256
  latitude_le : -90 * 65536 ≤ latitude ∧ latitude ≤ 90 * 65536
  longitude_le : -180 * 65536 ≤ longitude ∧ longitude ≤ 180 * 65536
  altitude_le : -500 * 65536 ≤ altitude ∧ altitude ≤ 9000 * 65536

namespace Fix

variable (fix : Fix)

/-- The time as the number with the digits `hhmmss`. -/
def hhmmss : Nat := 10000 * fix.hour + 100 * fix.minute + fix.second

def location : Location where
  times := (fix.hhmmss : ℤ)
  date := (fix.date : ℤ)
  latitude := fix.latitude / 65536
  longitude := fix.longitude / 65536
  altitude := fix.altitude / 65536
  satellites := (fix.satellites : ℤ)

end Fix

theorem threadIsr_location (fix : Fix) (cfg : Nat → BitVec 32) :
    ∃ cfg', threadIsr fix.location cfg = some cfg' ∧
      cfg' cfgTimeOffset = BitVec.ofInt 32 fix.hhmmss ∧
      cfg' cfgLatitudeOffset = BitVec.ofInt 32 fix.latitude ∧
      cfg' cfgLongitudeOffset = BitVec.ofInt 32 fix.longitude ∧
      cfg' cfgAltitudeOffset = BitVec.ofInt 32 fix.altitude := by
  obtain ⟨hour, minute, second, date, satellites, latitude, longitude, altitude, hhour, hminute,
    hsecond, hdate, hsat, hlat, hlon, halt⟩ := fix
  have hscale : ∀ n : ℤ, (n : ℚ) / 65536 * 65536 = n := fun n =>
    div_mul_cancel₀ (n : ℚ) (by norm_num)
  have htim : CLib.int32 ((10000 * hour + 100 * minute + second : Nat) : ℤ) = some _ :=
    CLib.int32_intCast (by omega) (by omega)
  have hdat : CLib.int32 (date : ℤ) = some _ := CLib.int32_intCast (by omega) (by omega)
  have hsat : CLib.int32 (satellites : ℤ) = some _ := CLib.int32_intCast (by omega) (by omega)
  have hlat : CLib.int32 latitude = some _ := CLib.int32_intCast (by omega) (by omega)
  have hlon : CLib.int32 longitude = some _ := CLib.int32_intCast (by omega) (by omega)
  have halt : CLib.int32 altitude = some _ := CLib.int32_intCast (by omega) (by omega)
  simp only [threadIsr, Fix.location, Fix.hhmmss, hscale]
  rw [htim, hdat, hsat, hlat, hlon, halt]
  exact ⟨_, rfl, rfl, rfl, rfl, rfl⟩

/-! ## The words -/

/-- A position word holds a signed number of 24 bits. -/
theorem position24_tagged (tag : BitVec 5) (sub : BitVec 3) (v : BitVec 24) :
    position24 (tag ++ sub ++ v) = v.toInt := by
  have hv : v.toNat < 2 ^ 24 := v.isLt
  have hlow : ((tag ++ sub ++ v) &&& 0xFFFFFF : Word).toNat = v.toNat := by
    rw [toNat_low _ (n := 24) rfl, toNat_tagged]
    omega
  have hshift : (((tag ++ sub ++ v) &&& 0xFFFFFF : Word) <<< 8).toNat = v.toNat * 256 := by
    rw [BitVec.toNat_shiftLeft, hlow, Nat.shiftLeft_eq]
    omega
  rw [position24, BitVec.toInt_sshiftRight, BitVec.toInt_eq_toNat_cond, hshift,
    BitVec.toInt_eq_toNat_cond, Int.shiftRight_eq_div_pow]
  split <;> split <;> omega

theorem toInt_low24 (n : Int) (hlo : -2 ^ 31 ≤ n) (hhi : n < 2 ^ 31) :
    ((BitVec.ofInt 32 n).extractLsb' 0 24).toInt = n ↔ -128 * 65536 ≤ n ∧ n < 128 * 65536 := by
  have hval : ((BitVec.ofInt 32 n).extractLsb' 0 24).toNat = (n % 2 ^ 24).toNat := by
    simp only [BitVec.extractLsb'_toNat, BitVec.toNat_ofInt, Nat.shiftRight_zero]
    omega
  rw [BitVec.toInt_eq_toNat_cond, hval]
  split <;> omega

/-! ## What a packet sets -/

/-- Only words of the kind `k` set the variable `f`. -/
def SetBy {β : Type} (libc : Libc) (f : Decoder → β) (k : Record) : Prop :=
  ∀ (s : Decoder) (p : Word × Readings), record p.1 ≠ k → f (decodeWord libc s p) = f s

variable {g : Generics}

namespace SetBy

variable {β : Type} {libc : Libc} {f : Decoder → β} {k : Record}

theorem foldl (hf : SetBy libc f k) {ps : List (Word × Readings)} (h : ∀ p ∈ ps, record p.1 ≠ k)
    (s : Decoder) : f (ps.foldl (decodeWord libc) s) = f s := by
  induction ps generalizing s with
  | nil => rfl
  | cons p ps ih =>
    rw [List.foldl_cons, ih fun q hq => h q (List.mem_cons_of_mem p hq)]
    exact hf s p (h p List.mem_cons_self)

/-- A variable that one word of the packet sets, and no later one. -/
theorem foldl_words (hf : SetBy libc f k) (q : Pulse g) (n : Fin 12)
    (hlater : ∀ m : Fin 12, n < m → record (q.word m).1 ≠ k) (s : Decoder) :
    f (q.words.foldl (decodeWord libc) s) =
      f (decodeWord libc (stateAt libc s [] q n) (q.word n)) := by
  have hn : n.val < q.words.length := by simp [Pulse.words]
  have hword : q.words[n.val] = q.word n := by simp only [Pulse.words, List.getElem_ofFn]
  have hsplit : q.words = q.words.take n ++ q.word n :: q.words.drop (n + 1) := by
    rw [← hword, List.cons_getElem_drop_succ, List.take_append_drop]
  have hdrop : ∀ p ∈ q.words.drop (n + 1), record p.1 ≠ k := by
    intro p hp
    obtain ⟨m, hm, rfl⟩ := List.mem_iff_getElem.mp hp
    simp only [List.length_drop, Pulse.words, List.length_ofFn] at hm
    have hm' : n.val + 1 + m < 12 := by omega
    have heq : (q.words.drop (n + 1))[m] = q.word ⟨n.val + 1 + m, hm'⟩ := by
      simp only [Pulse.words, List.getElem_drop, List.getElem_ofFn]
    rw [heq]
    exact hlater _ (Fin.lt_def.mpr (by simp; omega))
  conv_lhs => rw [hsplit, List.foldl_append, List.foldl_cons]
  rw [hf.foldl hdrop]
  rfl

end SetBy

theorem record_word (q : Pulse g) (m : Fin 12) :
    record (q.word m).1 = if m = 11 then .unknown else ownRecord m := by
  split
  next h => rw [h, record_last]
  next h => exact record_ppsWords q h

/-- Each coordinate is set by the words of its own kind only. -/
theorem decodeWord_position (libc : Libc) (s : Decoder) (p : Word × Readings) :
    (record p.1 ≠ .latitude → (decodeWord libc s p).gpsLat = s.gpsLat) ∧
      (record p.1 ≠ .longitude → (decodeWord libc s p).gpsLon = s.gpsLon) ∧
      (record p.1 ≠ .altitude → (decodeWord libc s p).gpsAlt = s.gpsAlt) := by
  rw [decodeWord]
  cases record p.1 with
  | time =>
    obtain ⟨_, _, _, _, _, _, heq⟩ := timeWord_timekeeping libc p.2 p.1 s
    rw [readRecord, heq]
    exact ⟨fun _ => rfl, fun _ => rfl, fun _ => rfl⟩
  | data =>
    rw [readRecord, dataWordRead, baseline]
    split <;> exact ⟨fun _ => rfl, fun _ => rfl, fun _ => rfl⟩
  | _ => simp [readRecord, triggerWordRead, counterWordRead, pulseCount, Decoder.print]

section Packet

variable (libc : Libc) (q : Pulse g) (s : Decoder)

theorem gpsLat_words : (q.words.foldl (decodeWord libc) s).gpsLat =
    q.input.latitudeI.toInt := by
  have hset : SetBy libc Decoder.gpsLat .latitude := fun s p h => (decodeWord_position libc s p).1 h
  have hkind : record (q.word 6).1 = .latitude := record_ppsWords q (by decide)
  have hval : position24 (q.word 6).1 = q.input.latitudeI.toInt := position24_tagged _ _ _
  rw [hset.foldl_words q 6 fun m hm => by rw [record_word]; revert m; decide]
  simp only [decodeWord, hkind, readRecord, hval]

theorem gpsLon_words : (q.words.foldl (decodeWord libc) s).gpsLon =
    q.input.longitudeI.toInt := by
  have hset : SetBy libc Decoder.gpsLon .longitude := fun s p h =>
    (decodeWord_position libc s p).2.1 h
  have hkind : record (q.word 5).1 = .longitude := record_ppsWords q (by decide)
  have hval : position24 (q.word 5).1 = q.input.longitudeI.toInt := position24_tagged _ _ _
  rw [hset.foldl_words q 5 fun m hm => by rw [record_word]; revert m; decide]
  simp only [decodeWord, hkind, readRecord, hval]

theorem gpsAlt_words : (q.words.foldl (decodeWord libc) s).gpsAlt =
    q.input.altitudeI.toInt := by
  have hset : SetBy libc Decoder.gpsAlt .altitude := fun s p h =>
    (decodeWord_position libc s p).2.2 h
  have hkind : record (q.word 4).1 = .altitude := record_ppsWords q (by decide)
  have hval : position24 (q.word 4).1 = q.input.altitudeI.toInt := position24_tagged _ _ _
  rw [hset.foldl_words q 4 fun m hm => by rw [record_word]; revert m; decide]
  simp only [decodeWord, hkind, readRecord, Decoder.print, hval]

end Packet

/-! ## The time word -/

theorem timeLines_fileDate (e : Readings) (wo : Word) (s : Decoder) :
    (timeLines e wo s).fileDate = s.fileDate := by
  unfold timeLines progress
  split <;> rfl

/-- The date after a time word is in range, and its time of day is that of the three bytes of the
word with their carries. -/
theorem timeWord_clock {libc : Libc} (cal : IsCalendar libc) (e : Readings) (wo : Word)
    {s : Decoder} (hgps : s.falseGPS = false) :
    (timeWord libc e wo s).fileDate.InDay ∧
      3600 * (timeWord libc e wo s).fileDate.tmHour + 60 * (timeWord libc e wo s).fileDate.tmMin +
        (timeWord libc e wo s).fileDate.tmSec =
      (3600 * (wo.toNat / 65536 % 256) + 60 * (wo.toNat / 256 % 256) + wo.toNat % 256 : Nat) %
        86400 := by
  have hdate : (timeWord libc e wo s).fileDate =
      libc.gmtime (libc.timegm (gpsTime libc e wo s).fileDate) := by
    rw [timeWord, timeLines_fileDate, hgps]
    rfl
  have hhour : (gpsTime libc e wo s).fileDate.tmHour = (wo.toNat / 65536 % 256 : Nat) := by
    have hlow := @toNat_low (wo >>> 16) 8 0xFF rfl
    rw [toNat_high] at hlow
    exact congrArg Int.ofNat hlow
  have hmin : (gpsTime libc e wo s).fileDate.tmMin = (wo.toNat / 256 % 256 : Nat) := by
    have hlow := @toNat_low (wo >>> 8) 8 0xFF rfl
    rw [toNat_high] at hlow
    exact congrArg Int.ofNat hlow
  have hsec : (gpsTime libc e wo s).fileDate.tmSec = (wo.toNat % 256 : Nat) :=
    congrArg Int.ofNat (@toNat_low wo 8 0xFF rfl)
  obtain ⟨days, hdays⟩ := cal.carries
  have hin := (cal.normalised (libc.timegm (gpsTime libc e wo s).fileDate)).toInDay
  have hsame := cal.timegm_gmtime (libc.timegm (gpsTime libc e wo s).fileDate)
  rw [hdays (libc.gmtime _), hdays (gpsTime libc e wo s).fileDate, hhour, hmin, hsec] at hsame
  rw [hdate]
  refine ⟨hin, ?_⟩
  rw [hdays (gpsTime libc e wo s).fileDate, hhour, hmin, hsec] at hin ⊢
  obtain ⟨hh, hm, hs⟩ := hin
  omega

/-- The only times whose decimal digits and bytes agree, up to carries of the bytes. -/
theorem digits_eq_bytes {h m s H M S : Nat} (hm : m < 60) (hs : s < 60) (hS : S < 256)
    (hdigits : 10000 * h + 100 * m + s = 65536 * H + 256 * M + S)
    (htime : 3600 * H + 60 * M + S = 3600 * h + 60 * m + s) : h = 0 ∧ m = 0 := by
  have hhi : 3600 * h + 60 * m < 3600 * H + 60 * M + 256 := by omega
  have hlo : 3600 * H + 60 * M < 3600 * h + 60 * m + 60 := by omega
  -- the minutes of the two times are less than five apart
  obtain ⟨c, hc⟩ : ∃ c, 60 * h + m = 60 * H + M + c := ⟨60 * h + m - (60 * H + M), by omega⟩
  have hc5 : c < 5 := by omega
  have hdiff : 13884 * H + 39 * m + 1340 * h = 49 * c + 1340 * H := by omega
  have hH : H = 0 := by omega
  have hh : h = 0 := by omega
  subst hH hh
  refine ⟨rfl, ?_⟩
  clear hdigits htime hhi hlo hc
  omega

/-- The three bytes of the number `hhmmss` are the time only in the first minute of the day. -/
theorem bytes_hhmmss (fix : Fix) :
    3600 * (fix.hhmmss / 65536 % 256) + 60 * (fix.hhmmss / 256 % 256) + fix.hhmmss % 256 =
      3600 * fix.hour + 60 * fix.minute + fix.second ↔ fix.hour = 0 ∧ fix.minute = 0 := by
  have hm := fix.minute_lt
  have hs := fix.second_lt
  have hlt : fix.hhmmss < 2 ^ 24 := by
    have hh := fix.hour_lt
    unfold Fix.hhmmss
    omega
  have hbytes : fix.hhmmss = 65536 * (fix.hhmmss / 65536 % 256) + 256 * (fix.hhmmss / 256 % 256) +
      fix.hhmmss % 256 := by omega
  constructor
  · intro htime
    exact digits_eq_bytes hm hs (Nat.mod_lt _ (by omega)) hbytes htime
  · rintro ⟨hh, hm⟩
    have hsec : fix.hhmmss = fix.second := by simp [Fix.hhmmss, hh, hm]
    rw [hsec, hh, hm]
    omega

/-! ## The whole path -/

/-- The decoder holds the time of day and the position of the fix. -/
structure Survives (fix : Fix) (s : Decoder) : Prop where
  hour : s.fileDate.tmHour = fix.hour
  minute : s.fileDate.tmMin = fix.minute
  second : s.fileDate.tmSec = fix.second
  latitude : (s.gpsLat / 65536 : ℚ) = fix.location.latitude
  longitude : (s.gpsLon / 65536 : ℚ) = fix.location.longitude
  altitude : (s.gpsAlt / 65536 : ℚ) = fix.location.altitude

theorem units_eq_iff {m n : Int} : (m / 65536 : ℚ) = n / 65536 ↔ m = n := by
  rw [div_left_inj' (by norm_num), Int.cast_inj]

theorem bytes_lt_day {n : Nat} (h : n < 4 * 65536) :
    3600 * (n / 65536 % 256) + 60 * (n / 256 % 256) + n % 256 < 86400 := by
  have hh : n / 65536 % 256 < 4 := by omega
  have hm : n / 256 % 256 < 256 := Nat.mod_lt _ (by omega)
  have hs : n % 256 < 256 := Nat.mod_lt _ (by omega)
  omega

/-- The time comes back exactly in the first minute of the day. -/
theorem time_survives_iff {libc : Libc} (cal : IsCalendar libc) (fix : Fix) (q : Pulse g)
    (htime : q.input.timeI.toNat = fix.hhmmss) {s : Decoder} (hgps : s.falseGPS = false) :
    ((q.words.foldl (decodeWord libc) s).fileDate.tmHour = fix.hour ∧
      (q.words.foldl (decodeWord libc) s).fileDate.tmMin = fix.minute ∧
      (q.words.foldl (decodeWord libc) s).fileDate.tmSec = fix.second) ↔
      fix.hour = 0 ∧ fix.minute = 0 := by
  have hset : SetBy libc Decoder.fileDate .time := fun s p h =>
    (readRecord_file libc p.1 p.2 s h).2.2.2.2
  have hmode : (stateAt libc s [] q 7).falseGPS = false := by
    rw [stateAt, foldl_falseGPS, hgps]
  rw [hset.foldl_words q 7 fun m hm => by rw [record_word]; revert m; decide]
  rw [decodeWord, record_word]
  change ((timeWord libc (q.word 7).2 (q.word 7).1 _).fileDate.tmHour = _ ∧
    (timeWord libc (q.word 7).2 (q.word 7).1 _).fileDate.tmMin = _ ∧
    (timeWord libc (q.word 7).2 (q.word 7).1 _).fileDate.tmSec = _) ↔ _
  obtain ⟨⟨hh, hm, hs⟩, hclock⟩ := timeWord_clock cal (q.word 7).2 (q.word 7).1 hmode
  have hword : (q.word 7).1.toNat = 27 * 2 ^ 27 + fix.hhmmss := by
    have h := toNat_tagged 0b11011#5 0b000#3 q.input.timeI
    rw [htime] at h
    exact h
  have hday : fix.hour < 24 ∧ fix.minute < 60 ∧ fix.second < 60 :=
    ⟨fix.hour_lt, fix.minute_lt, fix.second_lt⟩
  have hlt : fix.hhmmss < 4 * 65536 := by
    unfold Fix.hhmmss
    omega
  have hhour : (27 * 2 ^ 27 + fix.hhmmss) / 65536 % 256 = fix.hhmmss / 65536 % 256 := by omega
  have hmin : (27 * 2 ^ 27 + fix.hhmmss) / 256 % 256 = fix.hhmmss / 256 % 256 := by omega
  have hsec : (27 * 2 ^ 27 + fix.hhmmss) % 256 = fix.hhmmss % 256 := by omega
  have hsum := bytes_lt_day hlt
  rw [← bytes_hhmmss fix]
  rw [hword, hhour, hmin, hsec, Int.emod_eq_of_lt (by positivity) (by exact_mod_cast hsum)]
    at hclock
  generalize timeWord libc _ _ _ = s' at hh hm hs hclock ⊢
  generalize 3600 * (fix.hhmmss / 65536 % 256) + 60 * (fix.hhmmss / 256 % 256) +
    fix.hhmmss % 256 = T at hclock ⊢
  omega

/-- The time port has the number that was written. -/
theorem timeI_gpsPorts {cfg : Nat → BitVec 32} {fix : Fix}
    (h : cfg cfgTimeOffset = BitVec.ofInt 32 fix.hhmmss) (i : Trigger.Input) :
    (gpsPorts cfg i).timeI.toNat = fix.hhmmss := by
  have hlt : fix.hhmmss < 2 ^ 24 := by
    have hday := fix.hour_lt
    have hm := fix.minute_lt
    have hs := fix.second_lt
    unfold Fix.hhmmss
    omega
  simp only [gpsPorts, h, BitVec.extractLsb'_toNat, BitVec.toNat_ofInt, Nat.shiftRight_zero]
  omega

/-- The fixes that come back: the time is written as a decimal number and read as bytes, and a
coordinate has 24 bits. -/
theorem gps_survives_iff {libc : Libc} (cal : IsCalendar libc) (fix : Fix) (cfg : Nat → BitVec 32)
    (r : Regs g) (i : Trigger.Input) (e : Fin 12 → Readings) (s : Decoder)
    (hgps : s.falseGPS = false) :
    ∃ cfg', threadIsr fix.location cfg = some cfg' ∧
      (Survives fix ((Pulse.mk r (gpsPorts cfg' i) e).words.foldl (decodeWord libc) s) ↔
        fix.hour = 0 ∧ fix.minute = 0 ∧
          (-128 * 65536 ≤ fix.longitude ∧ fix.longitude < 128 * 65536) ∧
          (-128 * 65536 ≤ fix.altitude ∧ fix.altitude < 128 * 65536)) := by
  obtain ⟨cfg', hcfg, htim, hlat, hlon, halt⟩ := threadIsr_location fix cfg
  refine ⟨cfg', hcfg, ?_⟩
  have hlatr := fix.latitude_le
  have hlonr := fix.longitude_le
  have haltr := fix.altitude_le
  have hclock := time_survives_iff cal fix ⟨r, gpsPorts cfg' i, e⟩
    (timeI_gpsPorts htim i) hgps
  have hlat' := (toInt_low24 fix.latitude (by omega) (by omega)).2 (by omega)
  have hlon' := toInt_low24 fix.longitude (by omega) (by omega)
  have halt' := toInt_low24 fix.altitude (by omega) (by omega)
  constructor
  · rintro ⟨hhour, hmin, hsec, -, hlongitude, haltitude⟩
    rw [gpsLon_words, Fix.location, units_eq_iff] at hlongitude
    rw [gpsAlt_words, Fix.location, units_eq_iff] at haltitude
    simp only [gpsPorts, hlon] at hlongitude
    simp only [gpsPorts, halt] at haltitude
    obtain ⟨h0, m0⟩ := hclock.1 ⟨hhour, hmin, hsec⟩
    exact ⟨h0, m0, hlon'.1 hlongitude, halt'.1 haltitude⟩
  · rintro ⟨h0, m0, hlongitude, haltitude⟩
    obtain ⟨hhour, hmin, hsec⟩ := hclock.2 ⟨h0, m0⟩
    refine ⟨hhour, hmin, hsec, ?_, ?_, ?_⟩
    · rw [gpsLat_words, Fix.location, units_eq_iff]
      simpa only [gpsPorts, hlat] using hlat'
    · rw [gpsLon_words, Fix.location, units_eq_iff]
      simpa only [gpsPorts, hlon] using hlon'.2 hlongitude
    · rw [gpsAlt_words, Fix.location, units_eq_iff]
      simpa only [gpsPorts, halt] using halt'.2 haltitude

/-- Half past four at an altitude of 1400 m. -/
def Fix.mountain : Fix where
  hour := 4
  minute := 30
  second := 0
  date := 290918
  satellites := 7
  latitude := -35 * 65536
  longitude := -69 * 65536
  altitude := 1400 * 65536
  hour_lt := by decide
  minute_lt := by decide
  second_lt := by decide
  date_lt := by decide
  satellites_lt := by decide
  latitude_le := by decide
  longitude_le := by decide
  altitude_le := by decide

/-- Neither the time nor the altitude comes back. -/
theorem gps_lost : ∃ cfg', threadIsr Fix.mountain.location (fun _ => 0) = some cfg' ∧
    ¬ Survives Fix.mountain ((Pulse.mk (Regs.reset .smallest)
      (gpsPorts cfg' { Trigger.Input.quiet 0 0 with ppsI := true }) fun _ => default).words.foldl
        (decodeWord gregorian) default) := by
  obtain ⟨cfg', hcfg, htim, -⟩ := threadIsr_location Fix.mountain (fun _ => 0)
  refine ⟨cfg', hcfg, ?_⟩
  rintro ⟨hhour, hmin, hsec, -⟩
  have hclock := (time_survives_iff gregorian_isCalendar Fix.mountain ⟨Regs.reset .smallest,
    gpsPorts cfg' { Trigger.Input.quiet 0 0 with ppsI := true }, fun _ => default⟩
    (timeI_gpsPorts htim _) rfl).1 ⟨hhour, hmin, hsec⟩
  revert hclock
  decide

/-- The same place in the first minute of the day, at the level of the sea. -/
def Fix.midnight : Fix :=
  { Fix.mountain with
    hour := 0
    minute := 0
    altitude := 0
    hour_lt := by decide
    minute_lt := by decide
    altitude_le := by decide }

theorem gps_survives_midnight :
    ∃ cfg', threadIsr Fix.midnight.location (fun _ => 0) = some cfg' ∧
      Survives Fix.midnight ((Pulse.mk (Regs.reset .smallest)
        (gpsPorts cfg' { Trigger.Input.quiet 0 0 with ppsI := true }) fun _ => default).words.foldl
          (decodeWord gregorian) default) := by
  obtain ⟨cfg', hcfg, hiff⟩ := gps_survives_iff gregorian_isCalendar Fix.midnight (fun _ => 0)
    (Regs.reset .smallest) { Trigger.Input.quiet 0 0 with ppsI := true } (fun _ => default) default
    rfl
  exact ⟨cfg', hcfg, hiff.2 (by decide)⟩

end RpEcosystem.Daq
