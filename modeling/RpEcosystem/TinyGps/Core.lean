import RpEcosystem.CLib.Text

/-!
# The TinyGPS reader

`gps_encode` takes the characters of a receiver one at a time. A term is collected in a buffer of 15
bytes that is never cleared: what follows the terminating NUL is what older terms left. The buffer
is read with pointers that are moved until they meet something that is not a digit; a read or a
write outside the buffer is a failure of the model (`none`).

* `gpsatol`, `gpsParseDecimal`, `gpsParseDegrees`, `gpsstrcmp`: the readers, over the rest of the
  buffer;
* `gpsTermComplete`, `gpsEncode`, `feed`: a term, a character, a stream;
* `gpsGetPosition`, `gpsCrackDatetime`: what a caller gets.

`long` has 32 bits and wraps around, and `char` is unsigned, as on the processor of the board.
-/

namespace RpEcosystem.TinyGps

open CLib

/-! ## Reading a term -/

def gpsisdigit (c : Char) : Bool := '0' ≤ c && c ≤ '9'

/-- `c - '0'` -/
def digitValue (c : Char) : BitVec 32 := BitVec.ofNat 32 (c.toNat - '0'.toNat)

/-- The loop of `gpsatol`. -/
def gpsatolFrom (ret : BitVec 32) : Text → Option (BitVec 32)
  | [] => none
  | c :: str => if gpsisdigit c then gpsatolFrom (10 * ret + digitValue c) str else some ret

def gpsatol (str : Text) : Option (BitVec 32) := gpsatolFrom 0 str

/-- `while (gpsisdigit(*p)) ++p;` -/
def skipDigits : Text → Option Text
  | [] => none
  | c :: p => if gpsisdigit c then skipDigits p else some (c :: p)

/-- The two digits after the point, added to `ret`. -/
def addHundredths (ret : BitVec 32) (p : Text) : Option (BitVec 32) := do
  let p1 ← p[1]?
  if gpsisdigit p1 then
    let ret := ret + 10 * digitValue p1
    let p2 ← p[2]?
    return if gpsisdigit p2 then ret + digitValue p2 else ret
  else return ret

/-- What `gps_parse_decimal` does after the sign. -/
def parseUnsigned (p : Text) : Option (BitVec 32) := do
  let ret := 100 * (← gpsatol p)
  let p ← skipDigits p
  let point ← p[0]?
  if point = '.' then addHundredths ret p else some ret

def gpsParseDecimal (term : Text) : Option (BitVec 32) := do
  let first ← term[0]?
  if first = '-' then (parseUnsigned term.tail).map (- ·) else parseUnsigned term

/-- The loop over the digits after the point; `p` is where `++p` points to. -/
def addTenkMinutes (mult tenkMinutes : BitVec 32) : Text → Option (BitVec 32)
  | [] => none
  | c :: p =>
    if gpsisdigit c then addTenkMinutes (mult / 10) (tenkMinutes + mult * digitValue c) p
    else some tenkMinutes

def gpsParseDegrees (term : Text) : Option (BitVec 32) := do
  let left ← gpsatol term
  let tenkMinutes := left % 100 * 10000
  let p ← skipDigits term
  let point ← p[0]?
  let tenkMinutes ← if point = '.' then addTenkMinutes 1000 tenkMinutes p.tail else some tenkMinutes
  return left / 100 * 100000 + tenkMinutes / 6

/-- The character of `str1` at which the comparison ends. -/
def gpsstrcmp : Text → Text → Option Char
  | [], _ => none
  | a :: str1, str2 =>
    if a = '\x00' then some a
    else match str2 with
      | [] => none
      | b :: str2 => if a = b then gpsstrcmp str1 str2 else some a

/-- The string at a pointer. -/
def cstring (p : Text) : Option Text :=
  if '\x00' ∈ p then some (p.takeWhile (· ≠ '\x00')) else none

def fromHex (a : Char) : Int :=
  if 'A' ≤ a ∧ a ≤ 'F' then (a.toNat : Int) - 'A'.toNat + 10
  else if 'a' ≤ a ∧ a ≤ 'f' then (a.toNat : Int) - 'a'.toNat + 10
  else (a.toNat : Int) - '0'.toNat

/-! ## The state -/

inductive SentenceType
  | gpgga
  | gprmc
  | other
  deriving DecidableEq

/-- The values of the enumeration. -/
def SentenceType.code : SentenceType → Nat
  | .gpgga => 0
  | .gprmc => 1
  | .other => 2

/-- The values of a sentence; the variables of the source come in two sets of them. -/
structure Fields where
  time : BitVec 32 := 0
  date : BitVec 32 := 0
  latitude : BitVec 32 := 0
  longitude : BitVec 32 := 0
  altitude : BitVec 32 := 0
  speed : BitVec 32 := 0
  course : BitVec 32 := 0
  hdop : BitVec 32 := 0
  numsats : BitVec 16 := 0
  timeFix : BitVec 32 := 0
  positionFix : BitVec 32 := 0
  deriving DecidableEq

structure Gps where
  /-- the `_new_` variables -/
  new : Fields := {}
  /-- the variables that the public functions return -/
  published : Fields := {}
  parity : BitVec 8 := 0
  isChecksumTerm : Bool := false
  term : Vector Char 15 := Vector.replicate 15 '\x00'
  sentenceType : SentenceType := .gpgga
  termNumber : BitVec 8 := 0
  termOffset : BitVec 8 := 0
  isGpsDataGood : Bool := false
  encodedCharacters : BitVec 32 := 0
  goodSentences : BitVec 16 := 0
  failedChecksum : BitVec 16 := 0
  /-- what the next calls of `uptime` return -/
  clock : Nat → BitVec 32

namespace Gps

variable (s : Gps)

/-- `_term[i] = c` -/
def store (i : Nat) (c : Char) : Option Gps :=
  if h : i < 15 then some { s with term := s.term.set i c h } else none

/-- A call of `uptime`. -/
def uptime : BitVec 32 × Gps := (s.clock 0, { s with clock := fun n => s.clock (n + 1) })

/-- `_encoded_characters++` -/
def count : Gps := { s with encodedCharacters := s.encodedCharacters + 1 }

end Gps

/-- The assignments after the checksum test. -/
def Fields.publish (type : SentenceType) (new old : Fields) : Fields :=
  let old := { old with timeFix := new.timeFix, positionFix := new.positionFix }
  match type with
  | .gprmc =>
    { old with
      time := new.time, date := new.date, latitude := new.latitude, longitude := new.longitude,
      speed := new.speed, course := new.course }
  | .gpgga =>
    { old with
      altitude := new.altitude, time := new.time, latitude := new.latitude,
      longitude := new.longitude, numsats := new.numsats, hdop := new.hdop }
  | .other => old

/-! ## Terms -/

/-- `COMBINE` -/
def combine (type : SentenceType) (number : Nat) : Nat := (type.code <<< 5) ||| number

/-- What a term is used for. -/
inductive Item
  | time
  | validity
  | latitude
  | northSouth
  | longitude
  | eastWest
  | speed
  | course
  | date
  | fixData
  | satellites
  | hdop
  | altitude
  deriving DecidableEq

/-- The labels of the switch. -/
def item (label : Nat) : Option Item :=
  if label = combine .gprmc 1 ∨ label = combine .gpgga 1 then some .time
  else if label = combine .gprmc 2 then some .validity
  else if label = combine .gprmc 3 ∨ label = combine .gpgga 2 then some .latitude
  else if label = combine .gprmc 4 ∨ label = combine .gpgga 3 then some .northSouth
  else if label = combine .gprmc 5 ∨ label = combine .gpgga 4 then some .longitude
  else if label = combine .gprmc 6 ∨ label = combine .gpgga 5 then some .eastWest
  else if label = combine .gprmc 7 then some .speed
  else if label = combine .gprmc 8 then some .course
  else if label = combine .gprmc 9 then some .date
  else if label = combine .gpgga 6 then some .fixData
  else if label = combine .gpgga 7 then some .satellites
  else if label = combine .gpgga 8 then some .hdop
  else if label = combine .gpgga 9 then some .altitude
  else none

/-- The branches of the switch. -/
def readItem (s : Gps) (term : Text) : Item → Option Gps
  | .time => do
    let time ← gpsParseDecimal term
    let (fix, s) := s.uptime
    return { s with new := { s.new with time, timeFix := fix } }
  | .validity => do
    let first ← term[0]?
    return { s with isGpsDataGood := first = 'A' }
  | .latitude => do
    let latitude ← gpsParseDegrees term
    let (fix, s) := s.uptime
    return { s with new := { s.new with latitude, positionFix := fix } }
  | .northSouth => do
    let first ← term[0]?
    return if first = 'S' then { s with new := { s.new with latitude := -s.new.latitude } } else s
  | .longitude => do
    let longitude ← gpsParseDegrees term
    return { s with new := { s.new with longitude } }
  | .eastWest => do
    let first ← term[0]?
    return if first = 'W' then { s with new := { s.new with longitude := -s.new.longitude } } else s
  | .speed => do
    let speed ← gpsParseDecimal term
    return { s with new := { s.new with speed } }
  | .course => do
    let course ← gpsParseDecimal term
    return { s with new := { s.new with course } }
  | .date => do
    let date ← gpsatol term
    return { s with new := { s.new with date } }
  | .fixData => do
    let first ← term[0]?
    return { s with isGpsDataGood := '0' < first }
  | .satellites => do
    let text ← cstring term
    return { s with new := { s.new with numsats := (BitVec.ofInt 8 (atoi text)).setWidth 16 } }
  | .hdop => do
    let hdop ← gpsParseDecimal term
    return { s with new := { s.new with hdop } }
  | .altitude => do
    let altitude ← gpsParseDecimal term
    return { s with new := { s.new with altitude } }

/-- The first term determines the type of the sentence. -/
def addressType (term : Text) : Option SentenceType := do
  let rmc ← gpsstrcmp term "GPRMC\x00".toList
  if rmc = '\x00' then return .gprmc
  else
    let gga ← gpsstrcmp term "GPGGA\x00".toList
    return if gga = '\x00' then .gpgga else .other

/-- The checksum that two characters write. -/
def checksum (hi lo : Char) : BitVec 8 := BitVec.ofInt 8 (16 * fromHex hi + fromHex lo)

/-- The term after a `*`. -/
def checkSum (s : Gps) : Bool × Gps :=
  if checksum s.term[0] s.term[1] = s.parity then
    if s.isGpsDataGood then
      (true, { s with
        goodSentences := s.goodSentences + 1,
        published := Fields.publish s.sentenceType s.new s.published })
    else (false, s)
  else (false, { s with failedChecksum := s.failedChecksum + 1 })

/-- The term is stored and terminated. -/
def gpsTermComplete (s : Gps) : Option (Bool × Gps) :=
  if s.isChecksumTerm then some (checkSum s)
  else if s.termNumber = 0 then
    (addressType s.term.toList).map fun type => (false, { s with sentenceType := type })
  else if s.sentenceType ≠ .other ∧ s.term[0] ≠ '\x00' then
    match item (combine s.sentenceType s.termNumber.toNat) with
    | none => some (false, s)
    | some i => (readItem s s.term.toList i).map fun s => (false, s)
  else some (false, s)

/-! ## Characters -/

def byte (c : Char) : BitVec 8 := BitVec.ofNat 8 c.toNat

/-- The assignments after a character that ends a term. -/
def nextTerm (c : Char) (s : Gps) : Gps :=
  { s with termNumber := s.termNumber + 1, termOffset := 0, isChecksumTerm := c = '*' }

/-- A character that ends a term. -/
def endTerm (c : Char) (s : Gps) : Option (Bool × Gps) :=
  (if s.termOffset < 15 then (s.store s.termOffset.toNat '\x00').bind gpsTermComplete
    else some (false, s)).map fun (validSentence, s) => (validSentence, nextTerm c s)

/-- The character that begins a sentence. -/
def beginSentence (s : Gps) : Gps :=
  { s with
    termNumber := 0, termOffset := 0, parity := 0, sentenceType := .other, isChecksumTerm := false,
    isGpsDataGood := false }

/-- A checksum is no part of what it is the sum of. -/
def addParity (c : Char) (s : Gps) : Gps :=
  if s.isChecksumTerm then s else { s with parity := s.parity ^^^ byte c }

/-- Any other character. -/
def collect (c : Char) (s : Gps) : Option Gps :=
  (if s.termOffset < 14 then
      (s.store s.termOffset.toNat c).map fun s => { s with termOffset := s.termOffset + 1 }
    else some s).map (addParity c)

/-- The switch of `gps_encode`. -/
def encodeChar (s : Gps) (c : Char) : Option (Bool × Gps) :=
  if c = ',' then endTerm c { s with parity := s.parity ^^^ byte c }
  else if c = '\r' ∨ c = '\n' ∨ c = '*' then endTerm c s
  else if c = '$' then some (false, beginSentence s)
  else (collect c s).map fun s => (false, s)

def gpsEncode (s : Gps) (c : Char) : Option (Bool × Gps) := encodeChar s.count c

/-- The answers of `gps_encode` over a stream, and the state after it. -/
def feed (s : Gps) : Text → Option (List Bool × Gps)
  | [] => some ([], s)
  | c :: stream => do
    let (valid, s) ← gpsEncode s c
    let (rest, s) ← feed s stream
    return (valid :: rest, s)

/-- The variables before the first character. -/
def initial (clock : Nat → BitVec 32) : Gps := { clock }

/-! ## What a caller gets -/

/-- The age of a fix in milliseconds. -/
def ageOf (s : Gps) (fix : BitVec 32) : BitVec 32 × Gps :=
  if fix = 0xFFFFFFFF then (0xFFFFFFFF, s)
  else
    let (now, s) := s.uptime
    (now - fix, s)

structure Position where
  latitude : BitVec 32
  longitude : BitVec 32
  fixAge : BitVec 32

def gpsGetPosition (s : Gps) : Position × Gps :=
  let (age, s) := ageOf s s.published.positionFix
  (⟨s.published.latitude, s.published.longitude, age⟩, s)

structure Datetime where
  year : BitVec 32
  month : BitVec 8
  day : BitVec 8
  hour : BitVec 8
  minute : BitVec 8
  second : BitVec 8
  hundredths : BitVec 8
  fixAge : BitVec 32

def gpsCrackDatetime (s : Gps) : Datetime × Gps :=
  let (age, s) := ageOf s s.published.timeFix
  let date := s.published.date
  let time := s.published.time
  let year := date % 100
  ({ year := year + if 80 < year then 1900 else 2000,
     month := (date / 100 % 100).setWidth 8,
     day := (date / 10000).setWidth 8,
     hour := (time / 1000000).setWidth 8,
     minute := (time / 10000 % 100).setWidth 8,
     second := (time / 100 % 100).setWidth 8,
     hundredths := (time % 100).setWidth 8,
     fixAge := age }, s)

end RpEcosystem.TinyGps
