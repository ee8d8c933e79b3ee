import RpEcosystem.Daq.ReadBuffer
import RpEcosystem.Trigger.Core

/-!
# The body of the decoding loop

What `read_buffer` does with one 32-bit word of the buffer, with every record kind, the
counters it keeps and the rotation of the output file. A logged `fprintf` is its stream, its
format string and its converted arguments (`Line`); what the program asks of the C library and
of the devices is given with each word (`Libc`, `Readings`).

* `record`: the nested tests and switches that select the record kind of a word;
* `newFile`, `timeWord`: the file rotation and the record written every second;
* `readRecord`, `decodeWord`: the body of the loop;
* `timeWord_timekeeping`: what a time word leaves alone;
* `unknown_reported_iff`: the words reported as unknown are those of the kind `unknown`.
-/

namespace RpEcosystem.Daq

open Trigger (Word)

/-! ## Output -/

/-- `charCurrentFile`: `%s_nogps_%04d_%02d_%02d_%02dh00.dat` or `%s_%04d_%02d_%02d_%02dh00.dat`. -/
structure FileName where
  nogps : Bool
  charFile : String
  year : Int
  month : Int
  day : Int
  hour : Int
  deriving DecidableEq

/-- An argument of `fprintf` after the conversion that its directive asks for. The texts are
strings, and the floating-point readings as they are printed. -/
inductive Value
  | int (v : Int)
  | text (s : String)
  | name (f : FileName)
  deriving DecidableEq

structure Line where
  format : String
  args : List Value
  deriving DecidableEq

inductive Sink
  | stdout
  | stderr
  | file (name : FileName)
  deriving DecidableEq, Inhabited

/-- The directive `%hd`: the argument is converted to a 16-bit signed integer. -/
def Value.hd (v : Int) : Value := .int (BitVec.ofInt 16 v).toInt

/-- The directive `%d` for a word. -/
def Value.d (v : BitVec 32) : Value := .int v.toInt

/-! ## The environment -/

/-- `struct tm`, as far as the program sets or reads it. -/
structure Tm where
  tmSec : Int
  tmMin : Int
  tmHour : Int
  tmMday : Int
  tmMon : Int
  tmYear : Int
  deriving DecidableEq, Inhabited

/-- The calendar functions of the C library. -/
structure Libc where
  timegm : Tm → Int
  gmtime : Int → Tm

/-- A calendar with a single date. -/
def noCalendar : Libc := ⟨fun _ => 0, fun _ => default⟩

/-- What the devices and the system return while a word is decoded: the sensor readings as
printed, the position kept by the GPS thread, and what `new_file` writes into the header. -/
structure Readings where
  bmp180Temperature : String
  bmp180Pressure : String
  voltageAI2 : String
  voltageAI3 : String
  tempAI0 : String
  tempAI1 : String
  latitude : String
  longitude : String
  altitude : String
  cfgTrlvl1 : BitVec 32
  cfgTrlvl2 : BitVec 32
  cfgHv1 : String
  cfgHv2 : String
  cfgTrScalA : BitVec 32
  cfgTrScalB : BitVec 32
  hostname : String
  localTime : String
  deriving Inhabited

/-- The globals of the program that decoding a word reads or changes, and all that has been
printed. `gpsLat`, `gpsLon` and `gpsAlt` are in units of `1/65536`. -/
structure Decoder where
  fToStdout : Bool
  falseGPS : Bool
  charFile : String
  fhout : Sink
  fileTime : Int
  fileDate : Tm
  mtdSeconds : Int
  mtdIBin : Int
  mtdBl : Fin 3 → Int
  mtdBl2 : Fin 3 → Int
  mtdCbl : Int
  mtdDp : Int
  mtdCdp : Int
  mtdPulseCnt : Int
  mtdPulsePnt : Int
  r : Fin 8 → Int
  r1 : Int
  r2 : Int
  hack : Int
  gpsLat : Int
  gpsLon : Int
  gpsAlt : Int
  log : List (Sink × Line)
  deriving Inhabited

namespace Decoder

def fprintf (s : Decoder) (sink : Sink) (format : String) (args : List Value) : Decoder :=
  { s with log := s.log ++ [(sink, ⟨format, args⟩)] }

/-- A sequence of `fprintf(fhout, ...)`. -/
def print (s : Decoder) (lines : List Line) : Decoder :=
  { s with log := s.log ++ lines.map fun l => (s.fhout, l) }

/-- `fileTime=timegm(fileDate); fileDate=gmtime(&fileTime);` -/
def normalise (libc : Libc) (s : Decoder) : Decoder :=
  { s with
    fileTime := libc.timegm s.fileDate
    fileDate := libc.gmtime (libc.timegm s.fileDate) }

end Decoder

/-! ## Files -/

def dataVersion : Int := 5

/-- The lines at the top of every file. -/
def header (falseGPS : Bool) (e : Readings) : List Line :=
  [⟨"# v %d\n", [.int dataVersion]⟩,
    ⟨"# #\n", []⟩,
    ⟨"# # This is a %s raw data file, version %d\n", [.text "LAGO", .int dataVersion]⟩,
    ⟨"# # It contains the following data:\n", []⟩,
    ⟨"# #   <N1> <N2>        : line with values of the 2 ADC for a triggered pulse\n", []⟩,
    ⟨"# #   # t <C> <V>      : end of a trigger\n", []⟩,
    ⟨"# #                      gives the channel trigger (<C>: 3 bit mask) and 125 MHz clock " ++
      "count (<V>) of the trigger time\n", []⟩,
    ⟨"# #   # c <C>          : internal trigger counter\n", []⟩,
    ⟨"# #   # x f <V>        : 125 MHz frequency\n", []⟩,
    ⟨"# #   # x t <V>        : temperature value\n", []⟩,
    ⟨"# #   # x p <V>        : pressure value\n", []⟩,
    ⟨"# #   # x r1 <V>       : pulse rate at channel 1\n", []⟩,
    ⟨"# #   # x r2 <V>       : pulse rate at channel 2\n", []⟩,
    ⟨"# #   # x h <HH:MM:SS> <DD/MM/YYYY> <S> : GPS time (every new second, last number is " ++
      "seconds since EPOCH)\n", []⟩,
    ⟨"# #   # x s <T> C <P> hPa <A> m : temperature <T>, pressure <P> and altitude (from " ++
      "pressure) <A>\n", []⟩,
    ⟨"# #   # x g <LAT> <LON> <ALT>   : GPS data - latitude, longitude, altitude\n", []⟩,
    ⟨"# #   # x v <HV1> <HV2>         : HV voltages for channels 1 and 2\n", []⟩,
    ⟨"# #   # x b <B1> <B2> <B3>      : baselines (NOT IMPLEMENTED IN LAGO)\n", []⟩,
    ⟨"# # In case of error, an unfinished line will be finished by # E @@@\n", []⟩,
    ⟨"# # Followed by a line with # E <N> and the error message in human readable format, " ++
      "where <N> is the error code:\n", []⟩,
    ⟨"# #   # E 1 : read timeout of 2 seconds\n", []⟩,
    ⟨"# #   # E 2 : too many buffer reading tries\n", []⟩,
    ⟨"# #   # E 3 : unknown word from FPGA\n", []⟩,
    ⟨"# #\n", []⟩,
    ⟨"# # Current registers setting\n", []⟩,
    ⟨"# #\n", []⟩,
    ⟨"# x c T1 %d\n", [.d e.cfgTrlvl1]⟩,
    ⟨"# x c T2 %d\n", [.d e.cfgTrlvl2]⟩,
    ⟨"# x c HV1 %.1f mV\n", [.text e.cfgHv1]⟩,
    ⟨"# x c HV2 %.1f mV\n", [.text e.cfgHv2]⟩,
    ⟨"# x c SC1 %d\n", [.d e.cfgTrScalA]⟩,
    ⟨"# x c SC2 %d\n", [.d e.cfgTrScalB]⟩,
    ⟨"# # This file was started on %s\n", [.text e.hostname]⟩,
    ⟨"# # Machine local time was %s", [.text e.localTime]⟩] ++
  (if falseGPS then [⟨"# # WARNING, there is no GPS, using PC time\n", []⟩] else []) ++
  [⟨"# #\n", []⟩]

def Decoder.currentFile (s : Decoder) : FileName where
  nogps := s.falseGPS
  charFile := s.charFile
  year := s.fileDate.tmYear + 1900
  month := s.fileDate.tmMon + 1
  day := s.fileDate.tmMday
  hour := s.fileDate.tmHour

/-- Opens the file of the current date and hour, unless the output goes to `stdout`. -/
def openFile (libc : Libc) (s : Decoder) : Decoder :=
  if s.fToStdout then s
  else
    let s := s.normalise libc
    { s with fhout := .file s.currentFile }.fprintf .stderr
      "Opening file %s at %02dh%02d for data taking\n"
      [.name s.currentFile, .int s.fileDate.tmHour, .int s.fileDate.tmMin]

def newFile (libc : Libc) (e : Readings) (s : Decoder) : Decoder :=
  (openFile libc s).print (header s.falseGPS e)

/-! ## Record kinds -/

inductive Record
  | data
  | trigger
  | counter
  | frequency
  | temperature
  | pressure
  | time
  | latitude
  | longitude
  | altitude
  | ignored
  | rate1
  | rate2
  | unknown
  deriving DecidableEq, Repr

/-- The switch on `wo>>27`, with the one on `(wo>>24) & 0x7` in its case `0x1C`. -/
def metadataKind (tag sub : Nat) : Record :=
  match tag with
  | 0x18 => .frequency
  | 0x19 => .temperature
  | 0x1A => .pressure
  | 0x1B => .time
  | 0x1C => match sub with
    | 0 => .latitude
    | 1 => .longitude
    | 2 => .altitude
    | _ => .ignored
  | 0x1D => .rate1
  | 0x1E => .rate2
  | _ => .unknown

def metadataRecord (wo : Word) : Record :=
  metadataKind (wo >>> 27).toNat ((wo >>> 24) &&& 0x7).toNat

def record (wo : Word) : Record :=
  if wo >>> 30 = 0 then .data
  else if wo >>> 30 = 1 then .trigger
  else if wo >>> 30 = 2 then .counter
  else metadataRecord wo

/-! ## Event words -/

/-- The halves `ch[0]` and `ch[1]` of a word in memory, low half first. -/
def ch (wo : Word) : Fin 2 → BitVec 16 := ![wo.extractLsb' 0 16, wo.extractLsb' 16 16]

/-- `((ch>>13)<<14) + ((ch>>13)<<15) + ch`, after promotion to `int`. -/
def adcValue (c : BitVec 16) : Int :=
  Int.shiftLeft (Int.shiftRight c.toInt 13) 14 + Int.shiftLeft (Int.shiftRight c.toInt 13) 15 +
    c.toInt

def dataLine (wo : Word) : Line :=
  ⟨"%5hd %5hd\n", [.hd (adcValue (ch wo 0)), .hd (adcValue (ch wo 1))]⟩

/-- The baselines are taken from the first data word after a trigger (`MTD_BLBIN` is 1). -/
def baseline (c0 c1 : Int) (s : Decoder) : Decoder :=
  if s.mtdIBin = 1 then
    { s with
      mtdBl := ![s.mtdBl 0 + c0, s.mtdBl 1 + c1, s.mtdBl 2]
      mtdBl2 := ![s.mtdBl2 0 + c0 * c0, s.mtdBl2 1 + c1 * c1, s.mtdBl2 2]
      mtdCbl := s.mtdCbl + 1 }
  else s

def dataWordRead (wo : Word) (s : Decoder) : Decoder :=
  let s := s.print [dataLine wo]
  baseline (ch wo 0).toInt (ch wo 1).toInt { s with mtdIBin := s.mtdIBin + 1 }

def triggerLine (wo : Word) : Line :=
  ⟨"# t %d %d\n", [.d ((wo >>> 27) &&& 0x7), .d (wo &&& 0x7FFFFFF)]⟩

/-- `trig`, the index of the counter of this channel mask. -/
def trig (wo : Word) : Fin 8 := (wo.extractLsb' 27 3).toFin

def triggerWordRead (wo : Word) (s : Decoder) : Decoder :=
  let s := s.print [triggerLine wo]
  { s with r := fun k => if k = trig wo then s.r k + 1 else s.r k, mtdIBin := 0 }

/-- The lost pulses are the gap to the previous counter word, unless that one was 0. -/
def pulseCount (cnt : Int) (s : Decoder) : Decoder :=
  let dp := cnt - s.mtdPulseCnt - 1
  { s with
    mtdPulsePnt := s.mtdPulseCnt
    mtdPulseCnt := cnt
    mtdDp := dp
    mtdCdp := if dp > 0 ∧ s.mtdPulseCnt ≠ 0 then s.mtdCdp + dp else s.mtdCdp }

def counterLine (cnt : Int) : Line := ⟨"# c %ld\n", [.int cnt]⟩

def counterWordRead (wo : Word) (s : Decoder) : Decoder :=
  let s := pulseCount (wo &&& 0x3FFFFFFF).toNat s
  s.print [counterLine s.mtdPulseCnt]

/-! ## Metadata words -/

/-- `if (!fToStdout) new_file();` -/
def rotate (libc : Libc) (e : Readings) (s : Decoder) : Decoder :=
  if s.fToStdout then s else newFile libc e s

def Decoder.nextSecond (s : Decoder) : Decoder :=
  { s with fileDate := { s.fileDate with tmSec := s.fileDate.tmSec + 1 } }

/-- The clock without a GPS: every time word is one second. -/
def falseGpsTime (libc : Libc) (e : Readings) (s : Decoder) : Decoder :=
  if s.nextSecond.fileDate.tmSec = 60 ∧ s.nextSecond.fileDate.tmMin = 59 then
    rotate libc e s.nextSecond
  else s.nextSecond.normalise libc

/-- The hour of the word; an hour before the last one begins a new day. -/
def Decoder.nextHour (hour : BitVec 32) (s : Decoder) : Decoder :=
  { s with
    fileDate := { s.fileDate with
      tmMday :=
        if hour < BitVec.ofInt 32 s.fileDate.tmHour then s.fileDate.tmMday + 1
        else s.fileDate.tmMday
      tmHour := (hour.toNat : Int) } }

def newHour (libc : Libc) (e : Readings) (hour : BitVec 32) (s : Decoder) : Decoder :=
  if BitVec.ofInt 32 s.fileDate.tmHour ≠ hour then rotate libc e (s.nextHour hour) else s

/-- The clock with a GPS: hour, minute and second are in the word. -/
def gpsTime (libc : Libc) (e : Readings) (wo : Word) (s : Decoder) : Decoder :=
  let hour := (wo >>> 16) &&& 0xFF
  let s := newHour libc e hour s
  { s with
    fileDate := { s.fileDate with
      tmHour := (hour.toNat : Int)
      tmMin := (((wo >>> 8) &&& 0xFF).toNat : Int)
      tmSec := ((wo &&& 0xFF).toNat : Int) } }

/-- The three lines of a second. -/
def secondLines (e : Readings) (wo : Word) (s : Decoder) : List Line :=
  [⟨"# x h   %02d:%02d:%02d %02d/%02d/%04d %d %d\n",
      [.int s.fileDate.tmHour, .int s.fileDate.tmMin, .int s.fileDate.tmSec,
        .int s.fileDate.tmMday, .int (s.fileDate.tmMon + 1), .int (s.fileDate.tmYear + 1900),
        .d (BitVec.ofInt 32 s.fileTime), .d (wo &&& 0x03FFFFFF)]⟩,
    ⟨"# x v %.1f %.1f\n", [.text e.voltageAI2, .text e.voltageAI3]⟩,
    ⟨"# p %u %.1f %.1f\n", [.int s.hack, .text e.tempAI0, .text e.tempAI1]⟩]

/-- The state of the run on `stdout`, on a new line every minute. -/
def progress (s : Decoder) : Decoder :=
  (if s.hack % 60 = 0 then s.fprintf .stdout "\n" [] else s).fprintf .stdout
    "rates %5d %5d, PPS %u        \r" [.int s.r1, .int s.r2, .int s.hack]

def timeLines (e : Readings) (wo : Word) (s : Decoder) : Decoder :=
  progress { s.print (secondLines e wo s) with hack := s.hack + 1 }

def timeWord (libc : Libc) (e : Readings) (wo : Word) (s : Decoder) : Decoder :=
  let s := if s.falseGPS then falseGpsTime libc e s else gpsTime libc e wo s
  timeLines e wo ({ s with mtdSeconds := s.mtdSeconds + 1 }.normalise libc)

/-- `(int32_t)(wo&0xFFFFFF)<<8>>8` -/
def position24 (wo : Word) : Int := (((wo &&& 0xFFFFFF) <<< 8).sshiftRight 8).toInt

def frequencyLine (wo : Word) : Line := ⟨"# x f %d \n", [.d (wo &&& 0x07FFFFFF)]⟩

def rate1Line (wo : Word) : Line := ⟨"# r1 %d \n", [.d (wo &&& 0x00FFFFFF)]⟩

def rate2Line (wo : Word) : Line := ⟨"# r2 %d \n", [.d (wo &&& 0x00FFFFFF)]⟩

def temperatureLine (e : Readings) : Line := ⟨"# x t %.1f \n", [.text e.bmp180Temperature]⟩

def pressureLine (e : Readings) : Line := ⟨"# x p %.2f \n", [.text e.bmp180Pressure]⟩

def gpsLine (e : Readings) : Line :=
  ⟨"# x g %.6f %.6f %.2f\n", [.text e.latitude, .text e.longitude, .text e.altitude]⟩

def unknownFormat : String := "# E 3 - unknown word from FPGA: %d %x\n"

def unknownLines (wo : Word) : List Line :=
  [⟨"# E @@@\n", []⟩, ⟨unknownFormat, [.d (wo >>> 27), .int (wo >>> 27).toNat]⟩]

/-! ## The body of the loop -/

/-- What is done with a word of a given record kind. -/
def readRecord (libc : Libc) (wo : Word) (e : Readings) (s : Decoder) : Record → Decoder
  | .data => dataWordRead wo s
  | .trigger => triggerWordRead wo s
  | .counter => counterWordRead wo s
  | .frequency => s.print [frequencyLine wo]
  | .temperature => s.print [temperatureLine e]
  | .pressure => s.print [pressureLine e]
  | .time => timeWord libc e wo s
  | .latitude => { s with gpsLat := position24 wo }
  | .longitude => { s with gpsLon := position24 wo }
  | .altitude => { s with gpsAlt := position24 wo }.print [gpsLine e]
  | .ignored => s
  | .rate1 => { s.print [rate1Line wo] with r1 := (wo &&& 0x00FFFFFF).toInt }
  | .rate2 => { s.print [rate2Line wo] with r2 := (wo &&& 0x00FFFFFF).toInt }
  | .unknown => s.print (unknownLines wo)

def decodeWord (libc : Libc) (s : Decoder) (p : Word × Readings) : Decoder :=
  readRecord libc p.1 p.2 s (record p.1)

/-! ## Fields of a word -/

theorem toNat_append_add {m n : Nat} (x : BitVec m) (y : BitVec n) :
    (x ++ y).toNat = x.toNat * 2 ^ n + y.toNat := by
  rw [BitVec.toNat_append, ← Nat.shiftLeft_add_eq_or_of_lt y.isLt, Nat.shiftLeft_eq]

theorem toNat_low (wo : Word) {n : Nat} {mask : BitVec 32} (h : mask.toNat = 2 ^ n - 1) :
    (wo &&& mask).toNat = wo.toNat % 2 ^ n := by
  rw [BitVec.toNat_and, h, Nat.and_two_pow_sub_one_eq_mod]

theorem toNat_high (wo : Word) (n : Nat) : (wo >>> n).toNat = wo.toNat / 2 ^ n := by
  rw [BitVec.toNat_ushiftRight, Nat.shiftRight_eq_div_pow]

/-- A masked field prints as its value: it has no sign bit. -/
theorem d_low (wo : Word) {n : Nat} (hn : n < 32) {mask : BitVec 32}
    (h : mask.toNat = 2 ^ n - 1) :
    Value.d (wo &&& mask) = .int (wo.toNat % 2 ^ n : Nat) := by
  have hlt : wo.toNat % 2 ^ n < 2 ^ n := Nat.mod_lt _ (Nat.two_pow_pos n)
  have hle : 2 ^ n ≤ 2 ^ 31 := Nat.pow_le_pow_right (by omega) (by omega)
  have hlow := toNat_low wo h
  rw [Value.d, BitVec.toInt_eq_toNat_of_lt (by omega), hlow]

theorem high_eq_iff (wo : Word) (n : Nat) (k : BitVec 32) :
    wo >>> n = k ↔ wo.toNat / 2 ^ n = k.toNat := by
  rw [← BitVec.toNat_inj, toNat_high]

theorem record_eq (wo : Word) : record wo =
    if wo.toNat / 2 ^ 30 = 0 then .data
    else if wo.toNat / 2 ^ 30 = 1 then .trigger
    else if wo.toNat / 2 ^ 30 = 2 then .counter
    else metadataRecord wo := by
  unfold record
  simp only [high_eq_iff]
  rfl

/-! ## What a word prints -/

/-- `s'` has written `lines` to the output file of `s`, and nothing else. -/
structure Prints (s s' : Decoder) (lines : List Line) : Prop where
  log : s'.log = s.log ++ lines.map fun l => (s.fhout, l)
  fhout : s'.fhout = s.fhout

theorem Prints.nil (s : Decoder) : Prints s s [] := ⟨by simp, rfl⟩

theorem Prints.trans {s s' s'' : Decoder} {lines lines' : List Line} (h : Prints s s' lines)
    (h' : Prints s' s'' lines') : Prints s s'' (lines ++ lines') := by
  constructor
  · rw [h'.log, h.log, h.fhout, List.map_append, List.append_assoc]
  · rw [h'.fhout, h.fhout]

theorem baseline_prints (c0 c1 : Int) (s : Decoder) : Prints s (baseline c0 c1 s) [] := by
  unfold baseline
  split
  · exact ⟨by simp, rfl⟩
  · exact .nil s

theorem dataWordRead_prints (wo : Word) (s : Decoder) :
    Prints s (dataWordRead wo s) [dataLine wo] := by
  obtain ⟨hlog, hfhout⟩ := baseline_prints (ch wo 0).toInt (ch wo 1).toInt
    { s.print [dataLine wo] with mtdIBin := s.mtdIBin + 1 }
  constructor
  · rw [dataWordRead]
    simpa [Decoder.print] using hlog
  · exact hfhout

/-- What a record prints; the record of a second is `timeWord`. -/
def recordLines (wo : Word) (e : Readings) : Record → List Line
  | .data => [dataLine wo]
  | .trigger => [triggerLine wo]
  | .counter => [counterLine (wo &&& 0x3FFFFFFF).toNat]
  | .frequency => [frequencyLine wo]
  | .temperature => [temperatureLine e]
  | .pressure => [pressureLine e]
  | .altitude => [gpsLine e]
  | .rate1 => [rate1Line wo]
  | .rate2 => [rate2Line wo]
  | .unknown => unknownLines wo
  | _ => []

theorem readRecord_prints (libc : Libc) (wo : Word) (e : Readings) (s : Decoder) {k : Record}
    (h : k ≠ .time) : Prints s (readRecord libc wo e s k) (recordLines wo e k) := by
  cases k with
  | data => exact dataWordRead_prints wo s
  | time => exact absurd rfl h
  | _ => constructor <;> simp [readRecord, recordLines, triggerWordRead, counterWordRead,
      pulseCount, Decoder.print]

theorem decodeWord_prints (libc : Libc) (s : Decoder) (p : Word × Readings) {k : Record}
    (hrecord : record p.1 = k) (h : k ≠ .time) :
    Prints s (decodeWord libc s p) (recordLines p.1 p.2 k) := by
  rw [decodeWord, hrecord]
  exact readRecord_prints libc p.1 p.2 s h

/-! ## What a second changes -/

/-- Only the output file, the date and the time, the counts of the seconds and the log differ. -/
def Timekeeping (s s' : Decoder) : Prop :=
  ∃ fhout fileTime fileDate mtdSeconds hack log, s' = { s with
    fhout := fhout
    fileTime := fileTime
    fileDate := fileDate
    mtdSeconds := mtdSeconds
    hack := hack
    log := log }

namespace Timekeeping

variable {s s' s'' : Decoder}

theorem trans (h : Timekeeping s s') (h' : Timekeeping s' s'') : Timekeeping s s'' := by
  obtain ⟨_, _, _, _, _, _, rfl⟩ := h
  obtain ⟨_, _, _, _, _, _, rfl⟩ := h'
  exact ⟨_, _, _, _, _, _, rfl⟩

theorem newFile (libc : Libc) (e : Readings) (s : Decoder) :
    Timekeeping s (newFile libc e s) := by
  have hopen : Timekeeping s (openFile libc s) := by
    unfold openFile
    split
    · exact ⟨_, _, _, _, _, _, rfl⟩
    · exact ⟨_, _, _, _, _, _, rfl⟩
  exact hopen.trans ⟨_, _, _, _, _, _, rfl⟩

theorem rotate (libc : Libc) (e : Readings) (s : Decoder) :
    Timekeeping s (rotate libc e s) := by
  unfold Daq.rotate
  split
  · exact ⟨_, _, _, _, _, _, rfl⟩
  · exact newFile libc e s

theorem falseGpsTime (libc : Libc) (e : Readings) (s : Decoder) :
    Timekeeping s (falseGpsTime libc e s) := by
  have hnext : Timekeeping s s.nextSecond := ⟨_, _, _, _, _, _, rfl⟩
  unfold Daq.falseGpsTime
  split
  · exact hnext.trans (rotate libc e s.nextSecond)
  · exact hnext.trans ⟨_, _, _, _, _, _, rfl⟩

theorem gpsTime (libc : Libc) (e : Readings) (wo : Word) (s : Decoder) :
    Timekeeping s (gpsTime libc e wo s) := by
  have hhour : Timekeeping s (newHour libc e ((wo >>> 16) &&& 0xFF) s) := by
    have hnext : Timekeeping s (s.nextHour ((wo >>> 16) &&& 0xFF)) := ⟨_, _, _, _, _, _, rfl⟩
    unfold newHour
    split
    · exact hnext.trans (rotate libc e _)
    · exact ⟨_, _, _, _, _, _, rfl⟩
  exact hhour.trans ⟨_, _, _, _, _, _, rfl⟩

theorem timeLines (e : Readings) (wo : Word) (s : Decoder) :
    Timekeeping s (timeLines e wo s) := by
  unfold Daq.timeLines progress
  split
  · exact ⟨_, _, _, _, _, _, rfl⟩
  · exact ⟨_, _, _, _, _, _, rfl⟩

end Timekeeping

theorem timeWord_timekeeping (libc : Libc) (e : Readings) (wo : Word) (s : Decoder) :
    Timekeeping s (timeWord libc e wo s) := by
  have hclock : Timekeeping s
      (if s.falseGPS then falseGpsTime libc e s else gpsTime libc e wo s) := by
    split
    · exact .falseGpsTime libc e s
    · exact .gpsTime libc e wo s
  exact hclock.trans (.trans ⟨_, _, _, _, _, _, rfl⟩ (.timeLines e wo _))

/-! ## What is reported as unknown -/

/-- What has been printed between two states. -/
def printed (s s' : Decoder) : List (Sink × Line) := s'.log.drop s.log.length

theorem printed_eq {s s' : Decoder} {l : List (Sink × Line)} (h : s'.log = s.log ++ l) :
    printed s s' = l := by
  rw [printed, h, List.drop_left]

/-- The log has grown, by lines that satisfy `P`. -/
def Adds (P : Sink × Line → Prop) (s s' : Decoder) : Prop :=
  ∃ l, s'.log = s.log ++ l ∧ ∀ q ∈ l, P q

namespace Adds

variable {P Q : Sink × Line → Prop} {s s' s'' : Decoder}

theorem of_log_eq (h : s'.log = s.log) : Adds P s s' :=
  ⟨[], by simpa using h, by simp⟩

theorem trans (h : Adds P s s') (h' : Adds P s' s'') : Adds P s s'' := by
  obtain ⟨l, hl, hP⟩ := h
  obtain ⟨l', hl', hP'⟩ := h'
  refine ⟨l ++ l', by rw [hl', hl, List.append_assoc], ?_⟩
  intro q hq
  obtain hq | hq := List.mem_append.mp hq
  · exact hP q hq
  · exact hP' q hq

theorem mono (h : Adds P s s') (hPQ : ∀ q, P q → Q q) : Adds Q s s' := by
  obtain ⟨l, hl, hP⟩ := h
  exact ⟨l, hl, fun q hq => hPQ q (hP q hq)⟩

theorem print {lines : List Line} {s : Decoder} (h : ∀ l ∈ lines, P (s.fhout, l)) :
    Adds P s (s.print lines) := by
  refine ⟨_, rfl, ?_⟩
  intro q hq
  obtain ⟨l, hl, rfl⟩ := List.mem_map.mp hq
  exact h l hl

theorem fprintf {s : Decoder} {sink : Sink} {format : String} {args : List Value}
    (h : P (sink, ⟨format, args⟩)) : Adds P s (s.fprintf sink format args) := by
  refine ⟨_, rfl, ?_⟩
  intro q hq
  rw [List.mem_singleton.mp hq]
  exact h

theorem printed (h : Adds P s s') : ∀ q ∈ printed s s', P q := by
  obtain ⟨l, hl, hP⟩ := h
  rw [printed_eq hl]
  exact hP

end Adds

/-- The log has grown, by lines that report no unknown word. -/
def Quiet (s s' : Decoder) : Prop :=
  ∃ l, s'.log = s.log ++ l ∧ ∀ q ∈ l, q.2.format ≠ unknownFormat

namespace Quiet

variable {s s' s'' : Decoder}

theorem of_log_eq (h : s'.log = s.log) : Quiet s s' := Adds.of_log_eq h

theorem trans (h : Quiet s s') (h' : Quiet s' s'') : Quiet s s'' := Adds.trans h h'

theorem print {lines : List Line} (h : ∀ l ∈ lines, l.format ≠ unknownFormat) (s : Decoder) :
    Quiet s (s.print lines) := Adds.print h

theorem fprintf {format : String} (h : format ≠ unknownFormat) (s : Decoder) (sink : Sink)
    (args : List Value) : Quiet s (s.fprintf sink format args) := Adds.fprintf h

theorem printed (h : Quiet s s') : ∀ q ∈ printed s s', q.2.format ≠ unknownFormat :=
  Adds.printed h

end Quiet

theorem header_quiet (falseGPS : Bool) (e : Readings) :
    ∀ l ∈ header falseGPS e, l.format ≠ unknownFormat := by
  have hformats : unknownFormat ∉ (header falseGPS e).map Line.format := by
    cases falseGPS <;> simp [header, unknownFormat]
  intro l hl h
  exact hformats (List.mem_map.mpr ⟨l, hl, h⟩)

theorem openFile_quiet (libc : Libc) (s : Decoder) : Quiet s (openFile libc s) := by
  unfold openFile
  split
  · exact .of_log_eq rfl
  · exact .trans (.of_log_eq rfl) (.fprintf (by simp [unknownFormat]) _ _ _)

theorem newFile_quiet (libc : Libc) (e : Readings) (s : Decoder) : Quiet s (newFile libc e s) :=
  (openFile_quiet libc s).trans (.print (header_quiet _ e) _)

theorem rotate_quiet (libc : Libc) (e : Readings) (s : Decoder) : Quiet s (rotate libc e s) := by
  unfold rotate
  split
  · exact .of_log_eq rfl
  · exact newFile_quiet libc e s

theorem falseGpsTime_quiet (libc : Libc) (e : Readings) (s : Decoder) :
    Quiet s (falseGpsTime libc e s) := by
  have hnext : Quiet s s.nextSecond := .of_log_eq rfl
  unfold falseGpsTime
  split
  · exact hnext.trans (rotate_quiet libc e s.nextSecond)
  · exact hnext.trans (.of_log_eq rfl)

theorem newHour_quiet (libc : Libc) (e : Readings) (hour : BitVec 32) (s : Decoder) :
    Quiet s (newHour libc e hour s) := by
  have hnext : Quiet s (s.nextHour hour) := .of_log_eq rfl
  unfold newHour
  split
  · exact hnext.trans (rotate_quiet libc e (s.nextHour hour))
  · exact .of_log_eq rfl

theorem progress_quiet (s : Decoder) : Quiet s (progress s) := by
  have hlast : ∀ s : Decoder, Quiet s (s.fprintf .stdout "rates %5d %5d, PPS %u        \r"
      [.int s.r1, .int s.r2, .int s.hack]) := fun s => .fprintf (by simp [unknownFormat]) s _ _
  unfold progress
  split
  · exact .trans (.fprintf (by simp [unknownFormat]) s .stdout []) (hlast _)
  · exact hlast s

theorem timeLines_quiet (e : Readings) (wo : Word) (s : Decoder) :
    Quiet s (timeLines e wo s) := by
  have hlines : Quiet s (s.print (secondLines e wo s)) :=
    .print (by simp [secondLines, unknownFormat]) s
  exact hlines.trans (.trans (.of_log_eq rfl) (progress_quiet _))

theorem timeWord_quiet (libc : Libc) (e : Readings) (wo : Word) (s : Decoder) :
    Quiet s (timeWord libc e wo s) := by
  unfold timeWord
  refine .trans ?_ (.trans (.of_log_eq rfl) (timeLines_quiet e wo _))
  split
  · exact falseGpsTime_quiet libc e s
  · exact .trans (newHour_quiet libc e _ s) (.of_log_eq rfl)

theorem Prints.quiet {s s' : Decoder} {lines : List Line} (h : Prints s s' lines)
    (hlines : ∀ l ∈ lines, l.format ≠ unknownFormat) : Quiet s s' :=
  (Quiet.print hlines s).trans (.of_log_eq h.log)

theorem recordLines_quiet (wo : Word) (e : Readings) {k : Record} (h : k ≠ .unknown) :
    ∀ l ∈ recordLines wo e k, l.format ≠ unknownFormat := by
  have hformats : unknownFormat ∉ (recordLines wo e k).map Line.format := by
    cases k with
    | unknown => exact absurd rfl h
    | _ => simp [recordLines, unknownFormat, dataLine, triggerLine, counterLine, frequencyLine,
        temperatureLine, pressureLine, gpsLine, rate1Line, rate2Line]
  intro l hl hformat
  exact hformats (List.mem_map.mpr ⟨l, hl, hformat⟩)

/-- Every record kind but one is decoded without an error line. -/
theorem decodeWord_quiet (libc : Libc) (s : Decoder) {p : Word × Readings}
    (h : record p.1 ≠ .unknown) : Quiet s (decodeWord libc s p) := by
  by_cases htime : record p.1 = .time
  · rw [decodeWord, htime]
    exact timeWord_quiet libc p.2 p.1 s
  · exact (decodeWord_prints libc s p rfl htime).quiet (recordLines_quiet p.1 p.2 h)

/-- A word is reported as unknown if and only if its record kind is. -/
theorem unknown_reported_iff (libc : Libc) (s : Decoder) (p : Word × Readings) :
    (∃ q ∈ printed s (decodeWord libc s p), q.2.format = unknownFormat) ↔
      record p.1 = .unknown := by
  constructor
  · rintro ⟨q, hq, hformat⟩
    by_contra h
    exact (decodeWord_quiet libc s h).printed q hq hformat
  · intro h
    have hprints := decodeWord_prints libc s p h (by decide)
    rw [printed_eq hprints.log]
    refine ⟨(s.fhout, ⟨unknownFormat, [.d (p.1 >>> 27), .int (p.1 >>> 27).toNat]⟩), ?_, rfl⟩
    simp [recordLines, unknownLines]

end RpEcosystem.Daq
