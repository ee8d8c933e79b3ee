import RpEcosystem.Calendar.Gregorian
import RpEcosystem.Daq.Decode

/-!
# File rotation

Every time word moves the date of the program forward and may open a new file. The date is a
`struct tm` that is changed field by field, put out of range on purpose, and brought back into
range by `timegm` and `gmtime`, in `new_file` as well as after it.

Between two words the date is in range, agrees with `fileTime`, and is the one in the name of the
open file (`Filed`). A step of either clock keeps that (`clock_advances`): it stays inside the
hour of the open file and opens none, or moves to a later hour and opens one (`Advances`). The
relation composes, so it holds between any two moments of a run.

* `firstCall`: the first call of `read_buffer`;
* `IsCalendar`: what the calendar functions are documented to do, met by `gregorian`;
* `rotation_follows_clock`: the rotation over every sequence of words.
-/

namespace RpEcosystem.Daq

open Trigger (Word)

/-! ## The first call -/

/-- The date that the program starts from when there is a GPS. -/
def firstDate : Tm where
  tmSec := 55
  tmMin := 55
  tmHour := 10
  tmMday := 29
  tmMon := 8
  tmYear := 2018

/-- The bit of the configuration that says that there is no GPS. -/
def noGps (cfgResetGral : BitVec 32) : Prop := (cfgResetGral >>> 4) &&& 0x1 = 1

instance (cfgResetGral : BitVec 32) : Decidable (noGps cfgResetGral) :=
  inferInstanceAs (Decidable (_ = _))

/-- The date of the first file: `now` is `time(NULL)`. -/
def firstTime (libc : Libc) (now : Int) (cfgResetGral : BitVec 32) (s : Decoder) : Decoder :=
  if noGps cfgResetGral then
    { s with fileTime := now, fileDate := libc.gmtime now, falseGPS := true }
  else { s with fileDate := firstDate }.normalise libc

/-- What `read_buffer` does before the loop in its first call. -/
def firstCall (libc : Libc) (e : Readings) (now : Int) (cfgResetGral : BitVec 32) (s : Decoder) :
    Decoder :=
  newFile libc e (firstTime libc now cfgResetGral
    (if s.fToStdout then { s with fhout := .stdout } else s))

/-! ## The calendar functions -/

def Tm.date (d : Tm) : Calendar.Date := ⟨d.tmYear + 1900, d.tmMon, d.tmMday⟩

/-- A time of day. -/
structure Tm.InDay (d : Tm) : Prop where
  hour : 0 ≤ d.tmHour ∧ d.tmHour < 24
  min : 0 ≤ d.tmMin ∧ d.tmMin < 60
  sec : 0 ≤ d.tmSec ∧ d.tmSec < 60

/-- All fields are in range. -/
structure Tm.Normalised (d : Tm) : Prop extends d.InDay where
  date : d.date.Valid

/-- Two dates in the same hour. -/
structure SameHour (d d' : Tm) : Prop where
  year : d.tmYear = d'.tmYear
  mon : d.tmMon = d'.tmMon
  mday : d.tmMday = d'.tmMday
  hour : d.tmHour = d'.tmHour

/-- `timegm` adds up the fields, in range or not, over the days before the month; `gmtime` gives
dates in range and is its inverse on them. -/
structure IsCalendar (libc : Libc) : Prop where
  carries : ∃ days : Int → Int → Int, ∀ d : Tm, libc.timegm d =
    86400 * (days d.tmYear d.tmMon + d.tmMday) + 3600 * d.tmHour + 60 * d.tmMin + d.tmSec
  normalised : ∀ t, (libc.gmtime t).Normalised
  timegm_gmtime : ∀ t, libc.timegm (libc.gmtime t) = t
  gmtime_timegm : ∀ d : Tm, d.Normalised → libc.gmtime (libc.timegm d) = d

namespace IsCalendar

variable {libc : Libc} (cal : IsCalendar libc)

include cal

/-- A time of day is kept, whatever happens to the date. -/
theorem clock_eq {d : Tm} (h : d.InDay) : (libc.gmtime (libc.timegm d)).tmHour = d.tmHour ∧
    (libc.gmtime (libc.timegm d)).tmMin = d.tmMin ∧
    (libc.gmtime (libc.timegm d)).tmSec = d.tmSec := by
  obtain ⟨days, hdays⟩ := cal.carries
  have h' := (cal.normalised (libc.timegm d)).toInDay
  have heq := cal.timegm_gmtime (libc.timegm d)
  rw [hdays (libc.gmtime _), hdays d] at heq
  rw [hdays d] at h' ⊢
  obtain ⟨hh, hm, hs⟩ := h
  obtain ⟨hh', hm', hs'⟩ := h'
  omega

/-- The hours since the epoch tell the hours of two dates in range apart. -/
theorem sameHour_iff {d d' : Tm} (h : d.Normalised) (h' : d'.Normalised) :
    SameHour d d' ↔ libc.timegm d / 3600 = libc.timegm d' / 3600 := by
  obtain ⟨days, hdays⟩ := cal.carries
  have hd := hdays d
  have hd' := hdays d'
  obtain ⟨⟨hh, hm, hs⟩, hdate⟩ := h
  constructor
  · rintro ⟨hy, hmon, hmday, hhour⟩
    have hm' := h'.min
    have hs' := h'.sec
    rw [hy, hmon] at hd
    omega
  · intro heq
    have hm' := h'.min
    have hs' := h'.sec
    -- the date of `d` at the minute and second of `d'` is the same moment as `d'`
    have hmoved : libc.timegm { d with tmMin := d'.tmMin, tmSec := d'.tmSec } = libc.timegm d' := by
      have hmove := hdays { d with tmMin := d'.tmMin, tmSec := d'.tmSec }
      simp only at hmove
      omega
    have hin : ({ d with tmMin := d'.tmMin, tmSec := d'.tmSec } : Tm).Normalised :=
      ⟨⟨hh, hm', hs'⟩, hdate⟩
    have hsame := cal.gmtime_timegm _ hin
    rw [hmoved, cal.gmtime_timegm _ h'] at hsame
    rw [hsame]
    exact ⟨rfl, rfl, rfl, rfl⟩

end IsCalendar

/-! ## The open file -/

def openingFormat : String := "Opening file %s at %02dh%02d for data taking\n"

def secondFormat : String := "# x h   %02d:%02d:%02d %02d/%02d/%04d %d %d\n"

/-- A line with the time of a second is in the file that carries its date and hour. -/
def OwnFile (q : Sink × Line) : Prop :=
  q.2.format = secondFormat → ∃ (f : FileName) (min sec time word : Value), q = (.file f,
    ⟨secondFormat, [.int f.hour, min, sec, .int f.day, .int f.month, .int f.year, time, word]⟩)

def NoOpening (q : Sink × Line) : Prop := q.2.format ≠ openingFormat

/-- A line of any other format. -/
theorem ownFile_and_noOpening {q : Sink × Line} (hsecond : q.2.format ≠ secondFormat)
    (hopening : q.2.format ≠ openingFormat) : OwnFile q ∧ NoOpening q :=
  ⟨fun hf => absurd hf hsecond, hopening⟩

/-- Between two words: the date is in range and agrees with the time, and the open file is the
one of that date. -/
structure Filed (libc : Libc) (s : Decoder) : Prop where
  toFile : s.fToStdout = false
  date : s.fileDate.Normalised
  time : libc.timegm s.fileDate = s.fileTime
  fhout : s.fhout = .file s.currentFile

/-- Only what the file and the date are made of counts. -/
theorem Filed.congr {libc : Libc} {s s' : Decoder} (h : Filed libc s)
    (hout : s'.fToStdout = s.fToStdout) (hmode : s'.falseGPS = s.falseGPS)
    (hname : s'.charFile = s.charFile) (htime : s'.fileTime = s.fileTime)
    (hdate : s'.fileDate = s.fileDate) (hfhout : s'.fhout = s.fhout) : Filed libc s' where
  toFile := hout.trans h.toFile
  date := by
    rw [hdate]
    exact h.date
  time := by
    rw [hdate, htime]
    exact h.time
  fhout := by
    rw [hfhout, h.fhout, Decoder.currentFile, Decoder.currentFile, hmode, hname, hdate]

/-- The clock has gone on to a moment that is filed. It has stayed inside the hour and no file was
opened, or it is in a later hour. -/
structure Advances (libc : Libc) (s s' : Decoder) : Prop where
  filed : Filed libc s'
  hour_le : s.fileTime / 3600 ≤ s'.fileTime / 3600
  lines : Adds OwnFile s s'
  opens : s.fileTime / 3600 = s'.fileTime / 3600 → Adds NoOpening s s'

/-- The clock stands still and no file is opened. -/
theorem Advances.of_adds {libc : Libc} {s s' : Decoder} (h : Filed libc s')
    (htime : s'.fileTime = s.fileTime) (hadds : Adds (fun q => OwnFile q ∧ NoOpening q) s s') :
    Advances libc s s' where
  filed := h
  hour_le := by rw [htime]
  lines := hadds.mono fun _ => And.left
  opens _ := hadds.mono fun _ => And.right

theorem Advances.refl {libc : Libc} {s : Decoder} (h : Filed libc s) : Advances libc s s :=
  .of_adds h rfl (.of_log_eq rfl)

theorem Advances.trans {libc : Libc} {s s' s'' : Decoder} (h : Advances libc s s')
    (h' : Advances libc s' s'') : Advances libc s s'' where
  filed := h'.filed
  hour_le := h.hour_le.trans h'.hour_le
  lines := h.lines.trans h'.lines
  opens hsame := by
    have h1 := h.hour_le
    have h2 := h'.hour_le
    exact (h.opens (by omega)).trans (h'.opens (by omega))

/-- Nothing but the date, its normalisation and the count of the seconds changes, inside the
hour. -/
theorem IsCalendar.moved {libc : Libc} (cal : IsCalendar libc) {s : Decoder} (h : Filed libc s)
    {d : Tm} (hd : libc.timegm d / 3600 = s.fileTime / 3600) (n : Int) :
    Advances libc s ({ s with fileDate := d, mtdSeconds := n }.normalise libc) where
  filed := by
    have hin := cal.normalised (libc.timegm d)
    have hsame : SameHour s.fileDate (libc.gmtime (libc.timegm d)) := by
      rw [cal.sameHour_iff h.date hin, cal.timegm_gmtime, h.time, hd]
    refine ⟨h.toFile, hin, cal.timegm_gmtime _, ?_⟩
    change s.fhout = .file _
    rw [h.fhout]
    obtain ⟨hy, hmon, hmday, hhour⟩ := hsame
    simp [Decoder.currentFile, Decoder.normalise, hy, hmon, hmday, hhour]
  hour_le := hd.ge
  lines := .of_log_eq rfl
  opens _ := .of_log_eq rfl

/-! ## New files -/

theorem header_formats (falseGPS : Bool) (e : Readings) :
    ∀ l ∈ header falseGPS e, l.format ≠ secondFormat := by
  have hformats : secondFormat ∉ (header falseGPS e).map Line.format := by
    cases falseGPS <;> simp [header, secondFormat]
  intro l hl h
  exact hformats (List.mem_map.mpr ⟨l, hl, h⟩)

section NewFile

variable {libc : Libc} {e : Readings} {s : Decoder} (hout : s.fToStdout = false)

include hout

theorem newFile_eq : newFile libc e s =
    ({ s.normalise libc with fhout := .file (s.normalise libc).currentFile }.fprintf .stderr
      openingFormat [.name (s.normalise libc).currentFile,
        .int (s.normalise libc).fileDate.tmHour, .int (s.normalise libc).fileDate.tmMin]).print
      (header s.falseGPS e) := by
  rw [newFile, openFile, hout]
  rfl

theorem newFile_filed (cal : IsCalendar libc) : Filed libc (newFile libc e s) := by
  rw [newFile_eq hout]
  exact ⟨hout, cal.normalised _, cal.timegm_gmtime _, rfl⟩

theorem newFile_fileTime : (newFile libc e s).fileTime = libc.timegm s.fileDate := by
  rw [newFile_eq hout]
  rfl

theorem newFile_fileDate :
    (newFile libc e s).fileDate = libc.gmtime (libc.timegm s.fileDate) := by
  rw [newFile_eq hout]
  rfl

theorem newFile_adds : Adds OwnFile s (newFile libc e s) := by
  rw [newFile_eq hout]
  refine .trans (.of_log_eq rfl) (.trans (.fprintf ?_) (.print ?_))
  · intro h
    simp [openingFormat, secondFormat] at h
  · intro l hl h
    exact absurd h (header_formats _ e l hl)

/-- A new file for a later hour. -/
theorem newFile_advances (cal : IsCalendar libc)
    (hlater : s.fileTime / 3600 < libc.timegm s.fileDate / 3600) :
    Advances libc s (newFile libc e s) := by
  have htime : (newFile libc e s).fileTime = libc.timegm s.fileDate := newFile_fileTime hout
  refine ⟨newFile_filed hout cal, by omega, newFile_adds hout, fun hsame => ?_⟩
  omega

end NewFile

/-! ## The two clocks -/

section Clocks

variable {libc : Libc} (cal : IsCalendar libc) {s : Decoder} (h : Filed libc s) (e : Readings)

include cal h

theorem timegm_nextSecond : libc.timegm s.nextSecond.fileDate = s.fileTime + 1 := by
  obtain ⟨days, hdays⟩ := cal.carries
  have hnow := hdays s.fileDate
  have hnext := hdays s.nextSecond.fileDate
  rw [h.time] at hnow
  simp only [Decoder.nextSecond] at hnext ⊢
  omega

/-- Without a GPS an hour ends with its last second, and only there. -/
theorem newHour_iff : (s.nextSecond.fileDate.tmSec = 60 ∧ s.nextSecond.fileDate.tmMin = 59) ↔
    s.fileTime / 3600 < (s.fileTime + 1) / 3600 := by
  obtain ⟨days, hdays⟩ := cal.carries
  have hnow := hdays s.fileDate
  have hmin := h.date.min
  have hsec := h.date.sec
  rw [h.time] at hnow
  simp only [Decoder.nextSecond]
  omega

theorem falseGpsTime_advances : Advances libc s (falseGpsTime libc e s) ∧
    (falseGpsTime libc e s).fileTime = s.fileTime + 1 := by
  have htime := timegm_nextSecond cal h
  have hout : s.nextSecond.fToStdout = false := h.toFile
  have hhour := newHour_iff cal h
  unfold falseGpsTime
  split
  next hnew =>
    rw [rotate, hout, if_neg (by decide), newFile_fileTime hout]
    have hadv : Advances libc s.nextSecond (newFile libc e s.nextSecond) := by
      apply newFile_advances hout cal
      rw [htime]
      exact hhour.1 hnew
    exact ⟨⟨hadv.filed, hadv.hour_le, hadv.lines, hadv.opens⟩, htime⟩
  next hsame =>
    rw [hhour] at hsame
    have hin : libc.timegm s.nextSecond.fileDate / 3600 = s.fileTime / 3600 := by
      rw [htime]
      omega
    exact ⟨cal.moved h hin s.mtdSeconds, htime⟩

/-- The hour, minute and second of a word are those of a clock. -/
def InRange (wo : Word) : Prop :=
  ((wo >>> 16) &&& 0xFF).toNat < 24 ∧ ((wo >>> 8) &&& 0xFF).toNat < 60 ∧ (wo &&& 0xFF).toNat < 60

omit cal h in
instance (wo : Word) : Decidable (InRange wo) := inferInstanceAs (Decidable (_ ∧ _))

/-- An hour before the last one is an hour of the next day. -/
theorem timegm_nextHour (hour : BitVec 32) : libc.timegm (s.nextHour hour).fileDate =
    s.fileTime + 3600 * (hour.toNat - s.fileDate.tmHour) +
      if (hour.toNat : Int) < s.fileDate.tmHour then 86400 else 0 := by
  obtain ⟨days, hdays⟩ := cal.carries
  have hnow := hdays s.fileDate
  have hhour := h.date.hour
  have hcur : (BitVec.ofInt 32 s.fileDate.tmHour).toNat = s.fileDate.tmHour.toNat := by
    rw [BitVec.toNat_ofInt]
    omega
  have hlt : hour < BitVec.ofInt 32 s.fileDate.tmHour ↔ (hour.toNat : Int) < s.fileDate.tmHour := by
    rw [BitVec.lt_def, hcur]
    omega
  rw [h.time] at hnow
  rw [hdays]
  simp only [Decoder.nextHour, hlt]
  split <;> omega

theorem newHour_advances {hour : BitVec 32} (hr : hour.toNat < 24) :
    Advances libc s (newHour libc e hour s) ∧
      (newHour libc e hour s).fileDate.tmHour = hour.toNat := by
  have hnow := h.date.hour
  have hcur : BitVec.ofInt 32 s.fileDate.tmHour = hour ↔ s.fileDate.tmHour = hour.toNat := by
    rw [← BitVec.toNat_inj, BitVec.toNat_ofInt]
    omega
  unfold newHour
  split
  next hne =>
    rw [Ne, hcur] at hne
    have hout : (s.nextHour hour).fToStdout = false := h.toFile
    have hin : (s.nextHour hour).fileDate.InDay :=
      ⟨⟨Int.natCast_nonneg _, Int.ofNat_lt.2 hr⟩, h.date.min, h.date.sec⟩
    rw [rotate, hout, if_neg (by decide), newFile_fileDate hout]
    refine ⟨?_, (cal.clock_eq hin).1⟩
    have hadv : Advances libc (s.nextHour hour) (newFile libc e (s.nextHour hour)) := by
      apply newFile_advances hout cal
      change s.fileTime / 3600 < _
      rw [timegm_nextHour cal h]
      split <;> omega
    exact ⟨hadv.filed, hadv.hour_le, hadv.lines, hadv.opens⟩
  next heq => exact ⟨.refl h, hcur.1 (not_not.1 heq)⟩

theorem gpsTime_advances {wo : Word} (hr : InRange wo) (n : Int) :
    Advances libc s ({ gpsTime libc e wo s with mtdSeconds := n }.normalise libc) := by
  obtain ⟨hhour, hmin, hsec⟩ := hr
  obtain ⟨hadv, heq⟩ := newHour_advances cal h e hhour
  refine hadv.trans (cal.moved hadv.filed ?_ n)
  obtain ⟨days, hdays⟩ := cal.carries
  have hbefore := hdays (newHour libc e ((wo >>> 16) &&& 0xFF) s).fileDate
  have hm := hadv.filed.date.min
  have hs := hadv.filed.date.sec
  rw [hadv.filed.time, heq] at hbefore
  rw [hdays]
  simp only [gpsTime]
  omega

end Clocks

/-! ## One word -/

theorem timeLines_fileTime (e : Readings) (wo : Word) (s : Decoder) :
    (timeLines e wo s).fileTime = s.fileTime := by
  unfold timeLines progress
  split <;> rfl

/-- The line with the time has the date that is in the name of the open file. -/
theorem secondLines_ownFile {s : Decoder} (h : s.fhout = .file s.currentFile) (e : Readings)
    (wo : Word) : ∀ l ∈ secondLines e wo s, OwnFile (s.fhout, l) ∧ NoOpening (s.fhout, l) := by
  intro l hl
  rw [secondLines, List.mem_cons, List.mem_cons, List.mem_singleton] at hl
  rcases hl with rfl | rfl | rfl
  · exact ⟨fun _ => ⟨s.currentFile, _, _, _, _, Prod.ext h rfl⟩,
      by simp [NoOpening, openingFormat]⟩
  · exact ownFile_and_noOpening (by simp [secondFormat]) (by simp [openingFormat])
  · exact ownFile_and_noOpening (by simp [secondFormat]) (by simp [openingFormat])

theorem progress_adds (s : Decoder) :
    Adds (fun q => OwnFile q ∧ NoOpening q) s (progress s) := by
  have hlast : ∀ s : Decoder, Adds (fun q => OwnFile q ∧ NoOpening q) s
      (s.fprintf .stdout "rates %5d %5d, PPS %u        \r"
        [.int s.r1, .int s.r2, .int s.hack]) := fun s =>
    .fprintf (ownFile_and_noOpening (by simp [secondFormat]) (by simp [openingFormat]))
  unfold progress
  split
  · refine .trans (.fprintf ?_) (hlast _)
    exact ownFile_and_noOpening (by simp [secondFormat]) (by simp [openingFormat])
  · exact hlast s

/-- The lines of a second go to the open file. -/
theorem timeLines_advances {libc : Libc} {s : Decoder} (h : Filed libc s) (e : Readings)
    (wo : Word) : Advances libc s (timeLines e wo s) := by
  have hlines := secondLines_ownFile h.fhout e wo
  have hfiled : Filed libc (timeLines e wo s) := by
    unfold timeLines progress
    split
    · exact h.congr rfl rfl rfl rfl rfl rfl
    · exact h.congr rfl rfl rfl rfl rfl rfl
  exact .of_adds hfiled (timeLines_fileTime e wo s)
    (.trans (.print hlines) (.trans (.of_log_eq rfl) (progress_adds _)))

section Words

variable {libc : Libc} (cal : IsCalendar libc) {s : Decoder} (h : Filed libc s)

include cal h

theorem timeWord_advances (e : Readings) {wo : Word} (hr : s.falseGPS = false → InRange wo) :
    Advances libc s (timeWord libc e wo s) := by
  have hclock : Advances libc s
      ({ (if s.falseGPS then falseGpsTime libc e s else gpsTime libc e wo s) with
        mtdSeconds := (if s.falseGPS then falseGpsTime libc e s
          else gpsTime libc e wo s).mtdSeconds + 1 }.normalise libc) := by
    cases hmode : s.falseGPS with
    | true =>
      obtain ⟨hadv, -⟩ := falseGpsTime_advances cal h e
      have hnow : libc.timegm (falseGpsTime libc e s).fileDate / 3600 =
          (falseGpsTime libc e s).fileTime / 3600 := by rw [hadv.filed.time]
      exact hadv.trans (cal.moved hadv.filed hnow _)
    | false => exact gpsTime_advances cal h e (hr hmode) _
  exact hclock.trans (timeLines_advances hclock.filed e wo)

theorem timeWord_fileTime (e : Readings) (wo : Word) (hmode : s.falseGPS = true) :
    (timeWord libc e wo s).fileTime = s.fileTime + 1 := by
  obtain ⟨hadv, htime⟩ := falseGpsTime_advances cal h e
  rw [timeWord, hmode, timeLines_fileTime]
  exact hadv.filed.time.trans htime

end Words

/-- The records other than the time leave the file and the date alone. -/
theorem readRecord_file (libc : Libc) (wo : Word) (e : Readings) (s : Decoder) {k : Record}
    (hk : k ≠ .time) : (readRecord libc wo e s k).fToStdout = s.fToStdout ∧
      (readRecord libc wo e s k).falseGPS = s.falseGPS ∧
      (readRecord libc wo e s k).charFile = s.charFile ∧
      (readRecord libc wo e s k).fileTime = s.fileTime ∧
      (readRecord libc wo e s k).fileDate = s.fileDate := by
  cases k with
  | time => exact absurd rfl hk
  | data =>
    rw [readRecord, dataWordRead, baseline]
    split
    · exact ⟨rfl, rfl, rfl, rfl, rfl⟩
    · exact ⟨rfl, rfl, rfl, rfl, rfl⟩
  | _ => simp [readRecord, triggerWordRead, counterWordRead, pulseCount, Decoder.print]

theorem recordLines_formats (wo : Word) (e : Readings) (k : Record) :
    ∀ l ∈ recordLines wo e k, l.format ≠ secondFormat ∧ l.format ≠ openingFormat := by
  have hformats : secondFormat ∉ (recordLines wo e k).map Line.format ∧
      openingFormat ∉ (recordLines wo e k).map Line.format := by
    cases k <;> simp [recordLines, secondFormat, openingFormat, dataLine, triggerLine, counterLine,
      frequencyLine, temperatureLine, pressureLine, gpsLine, rate1Line, rate2Line, unknownLines,
      unknownFormat]
  intro l hl
  refine ⟨fun hf => hformats.1 ?_, fun hf => hformats.2 ?_⟩
  · exact List.mem_map.mpr ⟨l, hl, hf⟩
  · exact List.mem_map.mpr ⟨l, hl, hf⟩

theorem readRecord_advances {libc : Libc} {s : Decoder} (h : Filed libc s) (wo : Word)
    (e : Readings) {k : Record} (hk : k ≠ .time) : Advances libc s (readRecord libc wo e s k) := by
  obtain ⟨hout, hmode, hname, htime, hdate⟩ := readRecord_file libc wo e s hk
  obtain ⟨hlog, hfhout⟩ := readRecord_prints libc wo e s hk
  have hformats := recordLines_formats wo e k
  have hadds : Adds (fun q => OwnFile q ∧ NoOpening q) s (readRecord libc wo e s k) := by
    refine ⟨_, hlog, ?_⟩
    intro q hq
    obtain ⟨l, hl, rfl⟩ := List.mem_map.mp hq
    exact ownFile_and_noOpening (hformats l hl).1 (hformats l hl).2
  exact .of_adds (h.congr hout hmode hname htime hdate hfhout) htime hadds

theorem decodeWord_falseGPS (libc : Libc) (s : Decoder) (p : Word × Readings) :
    (decodeWord libc s p).falseGPS = s.falseGPS := by
  rw [decodeWord]
  by_cases hk : record p.1 = .time
  · obtain ⟨_, _, _, _, _, _, heq⟩ := timeWord_timekeeping libc p.2 p.1 s
    rw [hk, readRecord, heq]
  · exact (readRecord_file libc p.1 p.2 s hk).2.1

theorem foldl_falseGPS (libc : Libc) (ps : List (Word × Readings)) (s : Decoder) :
    (ps.foldl (decodeWord libc) s).falseGPS = s.falseGPS := by
  induction ps generalizing s with
  | nil => rfl
  | cons p ps ih => rw [List.foldl_cons, ih, decodeWord_falseGPS]

section Runs

variable {libc : Libc} (cal : IsCalendar libc) {s : Decoder} (h : Filed libc s)

include cal h

theorem decodeWord_advances {p : Word × Readings}
    (hr : s.falseGPS = false → record p.1 = .time → InRange p.1) :
    Advances libc s (decodeWord libc s p) := by
  rw [decodeWord]
  by_cases hk : record p.1 = .time
  · rw [hk]
    exact timeWord_advances cal h p.2 fun hmode => hr hmode hk
  · exact readRecord_advances h p.1 p.2 hk

/-! ## A sequence of words -/

theorem foldl_advances {ps : List (Word × Readings)}
    (hps : s.falseGPS = false → ∀ p ∈ ps, record p.1 = .time → InRange p.1) :
    Advances libc s (ps.foldl (decodeWord libc) s) := by
  induction ps generalizing s with
  | nil => exact .refl h
  | cons p ps ih =>
    have hstep := decodeWord_advances cal h fun hmode => hps hmode p List.mem_cons_self
    refine hstep.trans (ih hstep.filed ?_)
    intro hmode q hq
    rw [decodeWord_falseGPS] at hmode
    exact hps hmode q (List.mem_cons_of_mem p hq)

/-- Without a GPS every time word is a second. -/
theorem foldl_fileTime (hmode : s.falseGPS = true) (ps : List (Word × Readings)) :
    (ps.foldl (decodeWord libc) s).fileTime =
      s.fileTime + ps.countP fun p => record p.1 = .time := by
  induction ps generalizing s with
  | nil => simp
  | cons p ps ih =>
    have hstep := decodeWord_advances cal h (p := p) fun hgps => by simp [hmode] at hgps
    have hone : (decodeWord libc s p).fileTime =
        s.fileTime + if record p.1 = .time then 1 else 0 := by
      rw [decodeWord]
      split
      next hk =>
        rw [hk]
        exact timeWord_fileTime cal h p.2 p.1 hmode
      next hk =>
        obtain ⟨-, -, -, htime, -⟩ := readRecord_file libc p.1 p.2 s hk
        rw [htime, Int.add_zero]
    rw [List.foldl_cons, ih hstep.filed ((decodeWord_falseGPS libc s p).trans hmode), hone,
      List.countP_cons]
    simp only [decide_eq_true_eq]
    split <;> omega

end Runs

/-! ## The whole run -/

section FirstCall

variable {libc : Libc} (e : Readings) (now : Int) (cfg : BitVec 32) {s : Decoder}

theorem firstTime_fToStdout : (firstTime libc now cfg s).fToStdout = s.fToStdout := by
  unfold firstTime
  split <;> rfl

theorem firstTime_log : (firstTime libc now cfg s).log = s.log := by
  unfold firstTime
  split <;> rfl

variable (hout : s.fToStdout = false)

include hout

theorem firstCall_eq : firstCall libc e now cfg s = newFile libc e (firstTime libc now cfg s) := by
  rw [firstCall, if_neg (by rw [hout]; decide)]

theorem firstCall_filed (cal : IsCalendar libc) : Filed libc (firstCall libc e now cfg s) := by
  rw [firstCall_eq e now cfg hout]
  exact newFile_filed ((firstTime_fToStdout now cfg).trans hout) cal

theorem firstCall_adds : Adds OwnFile s (firstCall libc e now cfg s) := by
  rw [firstCall_eq e now cfg hout]
  exact .trans (.of_log_eq (firstTime_log now cfg))
    (newFile_adds ((firstTime_fToStdout now cfg).trans hout))

theorem firstCall_falseGPS :
    (firstCall libc e now cfg s).falseGPS = (decide (noGps cfg) || s.falseGPS) := by
  rw [firstCall_eq e now cfg hout, newFile_eq ((firstTime_fToStdout now cfg).trans hout)]
  change (firstTime libc now cfg s).falseGPS = _
  unfold firstTime
  split
  next h => simp [h]
  next h => simp [h, Decoder.normalise]

theorem firstCall_fileTime (cal : IsCalendar libc) (h : noGps cfg) :
    (firstCall libc e now cfg s).fileTime = now := by
  rw [firstCall_eq e now cfg hout, newFile_fileTime ((firstTime_fToStdout now cfg).trans hout),
    firstTime, if_pos h]
  exact cal.timegm_gmtime now

end FirstCall

/-- The data of a run: the words after the first call. -/
def session (libc : Libc) (e : Readings) (now : Int) (cfgResetGral : BitVec 32) (s : Decoder)
    (ps : List (Word × Readings)) : Decoder :=
  ps.foldl (decodeWord libc) (firstCall libc e now cfgResetGral s)

/-- The rotation in file mode, over every sequence of words; with a GPS the time words have to be
those of a clock. Without a GPS the time is the start time and the time words so far. Every line
with the time of a second is in the file of its own date and hour. And when the date and hour
before and after some words are the same, no file was opened for them. -/
theorem rotation_follows_clock (libc : Libc) (cal : IsCalendar libc) (e : Readings) (now : Int)
    (cfgResetGral : BitVec 32) (s : Decoder) (hout : s.fToStdout = false)
    (hgps : s.falseGPS = false) (ps : List (Word × Readings))
    (hps : ¬ noGps cfgResetGral → ∀ p ∈ ps, record p.1 = .time → InRange p.1) :
    (noGps cfgResetGral → (session libc e now cfgResetGral s ps).fileTime =
        now + ps.countP fun p => record p.1 = .time) ∧
      (∀ q ∈ printed s (session libc e now cfgResetGral s ps), OwnFile q) ∧
      (∀ qs rs, ps = qs ++ rs →
        SameHour (session libc e now cfgResetGral s qs).fileDate
          (session libc e now cfgResetGral s ps).fileDate →
        ∀ q ∈ printed (session libc e now cfgResetGral s qs)
          (session libc e now cfgResetGral s ps), q.2.format ≠ openingFormat) := by
  have hfirst := firstCall_filed e now cfgResetGral hout cal
  have hmode : (firstCall libc e now cfgResetGral s).falseGPS = decide (noGps cfgResetGral) := by
    rw [firstCall_falseGPS e now cfgResetGral hout, hgps, Bool.or_false]
  have hrange : ∀ l : List (Word × Readings), (∀ p ∈ l, p ∈ ps) →
      (firstCall libc e now cfgResetGral s).falseGPS = false →
      ∀ p ∈ l, record p.1 = .time → InRange p.1 := by
    intro l hl hno p hp
    rw [hmode, decide_eq_false_iff_not] at hno
    exact hps hno p (hl p hp)
  refine ⟨?_, ?_, ?_⟩
  · intro hno
    have htime := foldl_fileTime cal hfirst (hmode.trans (decide_eq_true hno)) ps
    rw [firstCall_fileTime e now cfgResetGral hout cal hno] at htime
    exact htime
  · have hadv := foldl_advances cal hfirst (hrange ps fun _ => id)
    exact ((firstCall_adds e now cfgResetGral hout).trans hadv.lines).printed
  · rintro qs rs rfl hsame
    have hbefore : Advances libc _ (session libc e now cfgResetGral s qs) :=
      foldl_advances cal hfirst (hrange qs fun _ => List.mem_append_left rs)
    have hkeep : (session libc e now cfgResetGral s qs).falseGPS =
        (firstCall libc e now cfgResetGral s).falseGPS := foldl_falseGPS libc qs _
    have hafter : Advances libc (session libc e now cfgResetGral s qs)
        (session libc e now cfgResetGral s (qs ++ rs)) := by
      rw [session, session, List.foldl_append]
      refine foldl_advances cal hbefore.filed fun hno => ?_
      exact hrange rs (fun _ => List.mem_append_right qs) (hkeep.symm.trans hno)
    rw [cal.sameHour_iff hbefore.filed.date hafter.filed.date, hbefore.filed.time,
      hafter.filed.time] at hsame
    exact (hafter.opens hsame).printed

/-! ## A calendar -/

/-- The day number of the epoch, the first of January 1970. -/
def epoch : Int := 719162

/-- The calendar functions by the Gregorian calendar, months out of range carried as well. -/
def gregorian : Libc where
  timegm d :=
    86400 * (Calendar.Date.number ⟨d.tmYear + 1900 + d.tmMon / 12, d.tmMon % 12, d.tmMday⟩ - epoch)
      + 3600 * d.tmHour + 60 * d.tmMin + d.tmSec
  gmtime t :=
    { tmSec := t % 60
      tmMin := t / 60 % 60
      tmHour := t / 3600 % 24
      tmMday := (Calendar.Date.ofNumber (t / 86400 + epoch)).day
      tmMon := (Calendar.Date.ofNumber (t / 86400 + epoch)).month
      tmYear := (Calendar.Date.ofNumber (t / 86400 + epoch)).year - 1900 }

/-- A month in range is not carried. -/
theorem gregorian_timegm {d : Tm} (h0 : 0 ≤ d.tmMon) (h12 : d.tmMon < 12) :
    gregorian.timegm d = 86400 * (d.date.number - epoch) + 3600 * d.tmHour + 60 * d.tmMin
      + d.tmSec := by
  have hdiv : d.tmMon / 12 = 0 := by omega
  have hmod : d.tmMon % 12 = d.tmMon := by omega
  simp only [gregorian, Tm.date, hdiv, hmod, Int.add_zero]

theorem gregorian_date (t : Int) :
    (gregorian.gmtime t).date = Calendar.Date.ofNumber (t / 86400 + epoch) := by
  simp only [gregorian, Tm.date, Int.sub_add_cancel]

theorem gregorian_isCalendar : IsCalendar gregorian where
  carries := by
    refine ⟨fun year mon => Calendar.Date.number ⟨year + 1900 + mon / 12, mon % 12, 0⟩ - epoch,
      fun d => ?_⟩
    simp only [gregorian, Calendar.Date.number]
    omega
  normalised t := by
    refine ⟨⟨?_, ?_, ?_⟩, ?_⟩
    · simp only [gregorian]
      omega
    · simp only [gregorian]
      omega
    · simp only [gregorian]
      omega
    · rw [gregorian_date]
      exact Calendar.Date.ofNumber_valid _
  timegm_gmtime t := by
    obtain ⟨h0, h12, -⟩ := Calendar.Date.ofNumber_valid (t / 86400 + epoch)
    rw [gregorian_timegm h0 h12, gregorian_date, Calendar.Date.number_ofNumber]
    simp only [gregorian]
    omega
  gmtime_timegm d h := by
    obtain ⟨⟨hh, hm, hs⟩, hdate⟩ := h
    have htime := gregorian_timegm hdate.1 hdate.2.1
    have hday : gregorian.timegm d / 86400 + epoch = d.date.number := by omega
    have hfields : (gregorian.gmtime (gregorian.timegm d)).date = d.date := by
      rw [gregorian_date, hday, Calendar.Date.ofNumber_number hdate]
    generalize gregorian.timegm d = t at htime hfields
    obtain ⟨sec, min, hour, mday, mon, year⟩ := d
    simp only [Tm.date, Calendar.Date.mk.injEq] at hfields
    obtain ⟨hy, hmon, hmday⟩ := hfields
    rw [Tm.mk.injEq]
    simp only [gregorian] at hh hm hs hy hmon hmday htime ⊢
    exact ⟨by omega, by omega, by omega, hmday, hmon, by omega⟩

/-- The time word of an hour, minute and second. -/
def timeWordOf (hour min sec : BitVec 8) : Word × Readings :=
  (0b11011#5 ++ 0b000#3 ++ hour ++ min ++ sec, default)

/-- Over midnight, with a GPS and without one. -/
theorem rotation_over_midnight :
    (∀ q ∈ printed default (session gregorian default 0 0 default
        [timeWordOf 23 59 59, timeWordOf 0 0 0]), OwnFile q) ∧
      (session gregorian default 86399 16 default [timeWordOf 0 0 0]).fileTime = 86400 := by
  obtain ⟨-, hgps, -⟩ := rotation_follows_clock gregorian gregorian_isCalendar default 0 0 default
    rfl rfl [timeWordOf 23 59 59, timeWordOf 0 0 0] (by decide)
  obtain ⟨hno, -, -⟩ := rotation_follows_clock gregorian gregorian_isCalendar default 86399 16
    default rfl rfl [timeWordOf 0 0 0] (by decide)
  exact ⟨hgps, hno (by decide)⟩

end RpEcosystem.Daq
