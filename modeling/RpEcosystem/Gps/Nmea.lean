import RpEcosystem.CLib.Text

/-!
# NMEA sentences

A line of the receiver is checked against its checksum, recognised by its address, and taken apart
by a chain of `strchr(ptr, ',')+1`. The search for the checksum and the chain use their results
without a test: a line without a `*` or with too few commas makes them read what is not there. Such
a read is a failure of the model (`none`).

* `validChecksum`, `getMessageType`: the checks;
* `parseGpgga`, `parseGprmc`: the two parsers, with the pointers of the chain;
* `gpgga_fields`, `gprmc_fields`: every item comes from its own field;
* `getMessageType_isSome`, `parseGpgga_isSome`, `parseGprmc_isSome`: when nothing is read that is
  not there.

Floating-point numbers are an arbitrary type with the functions that are used on them (`Doubles`).
-/

namespace RpEcosystem.Gps

open CLib

/-- The C string at the start of a buffer. -/
def cstr (line : Text) : Text := line.takeWhile (· ≠ '\x00')

/-! ## The checks -/

/-- The loop of `rp_NmeaValidChecksum`, which ends at a `*` only. -/
def xorUntilStar (sum : BitVec 8) : Text → Option (BitVec 8)
  | [] => none
  | p :: message =>
    if p = '*' then some sum else xorUntilStar (sum ^^^ BitVec.ofNat 8 p.toNat) message

/-- `rp_NmeaValidChecksum`: the checksum of the line is right. The line is followed by its NUL. -/
def validChecksum (line : Text) : Option Bool := do
  let star ← strchr '*' (cstr line)
  let checksum := BitVec.ofInt 8 (strtol 16 star.tail)
  let sum ← xorUntilStar 0 (line ++ ['\x00']).tail
  return sum = checksum

inductive MessageType
  | checksumErr
  | gpgga
  | gprmc
  | unknown
  deriving DecidableEq

/-- `rp_NmeaGetMessageType` -/
def getMessageType (line : Text) : Option MessageType := do
  let valid ← validChecksum line
  if !valid then return .checksumErr
  else if (strstr "$GPGGA".toList (cstr line)).isSome then return .gpgga
  else if (strstr "$GPRMC".toList (cstr line)).isSome then return .gprmc
  else return .unknown

/-! ## The parsers -/

/-- What the program does with numbers of type `double`. -/
structure Doubles (ν : Type) where
  atof : Text → ν
  ofInt : Int → ν
  toInt : ν → Int
  add : ν → ν → ν
  sub : ν → ν → ν
  mul : ν → ν → ν
  div : ν → ν → ν
  /-- the fractional part and the integral part -/
  modf : ν → ν × ν
  round : ν → ν

structure Gpgga (ν : Type) where
  times : ν
  latitude : ν
  lat : Char
  longitude : ν
  lon : Char
  quality : BitVec 8
  satellites : BitVec 8
  altitude : ν

structure Gprmc (ν : Type) where
  times : ν
  latitude : ν
  lat : Char
  longitude : ν
  lon : Char
  speed : ν
  course : ν
  date : ν

/-- `strchr(ptr, ',')+1` -/
def skipField (ptr : Text) : Option Text := (strchr ',' ptr).map List.tail

/-- The switch over `ptr[0]` with the two letters of a direction; any other character leaves what
was there. -/
def direction (yes no : Char) (old : Char) (ptr : Text) : Char :=
  if ptr.headD '\x00' = yes then yes
  else if ptr.headD '\x00' = no then no
  else if ptr.headD '\x00' = ',' then '\x00'
  else old

variable {ν : Type} (num : Doubles ν)

/-- `rp_NmeaParseGpgga` -/
def parseGpgga (loc : Gpgga ν) (nmea : Text) : Option (Gpgga ν) := do
  let ptr ← skipField nmea
  let loc := { loc with times := num.atof ptr }
  let ptr ← skipField ptr
  let loc := { loc with latitude := num.atof ptr }
  let ptr ← skipField ptr
  let loc := { loc with lat := direction 'N' 'S' loc.lat ptr }
  let ptr ← skipField ptr
  let loc := { loc with longitude := num.atof ptr }
  let ptr ← skipField ptr
  let loc := { loc with lon := direction 'W' 'E' loc.lon ptr }
  let ptr ← skipField ptr
  let loc := { loc with quality := BitVec.ofInt 8 (atoi ptr) }
  let ptr ← skipField ptr
  let loc := { loc with satellites := BitVec.ofInt 8 (atoi ptr) }
  let ptr ← skipField ptr
  let ptr ← skipField ptr
  return { loc with altitude := num.atof ptr }

/-- `rp_NmeaParseGprmc` -/
def parseGprmc (loc : Gprmc ν) (nmea : Text) : Option (Gprmc ν) := do
  let ptr ← skipField nmea
  let loc := { loc with times := num.atof ptr }
  let ptr ← skipField ptr
  let ptr ← skipField ptr
  let loc := { loc with latitude := num.atof ptr }
  let ptr ← skipField ptr
  let loc := { loc with lat := direction 'N' 'S' loc.lat ptr }
  let ptr ← skipField ptr
  let loc := { loc with longitude := num.atof ptr }
  let ptr ← skipField ptr
  let loc := { loc with lon := direction 'W' 'E' loc.lon ptr }
  let ptr ← skipField ptr
  let loc := { loc with speed := num.atof ptr }
  let ptr ← skipField ptr
  let loc := { loc with course := num.atof ptr }
  let ptr ← skipField ptr
  return { loc with date := num.atof ptr }

/-! ## Fields -/

/-- The letter that is kept for a direction field: the letter itself, or none for an empty one. -/
structure Direction (yes no : Char) (field : Text) (c : Char) : Prop where
  yes : field = [yes] → c = yes
  no : field = [no] → c = no
  empty : field = [] → c = '\x00'

/-- The items of a GGA sentence come from their own fields. -/
structure Gpgga.From (s : Text) (loc : Gpgga ν) : Prop where
  times : loc.times = num.atof (fromField ',' 1 s)
  latitude : loc.latitude = num.atof (fromField ',' 2 s)
  lat : Direction 'N' 'S' (field ',' 3 s) loc.lat
  longitude : loc.longitude = num.atof (fromField ',' 4 s)
  lon : Direction 'W' 'E' (field ',' 5 s) loc.lon
  quality : loc.quality = BitVec.ofInt 8 (atoi (fromField ',' 6 s))
  satellites : loc.satellites = BitVec.ofInt 8 (atoi (fromField ',' 7 s))
  altitude : loc.altitude = num.atof (fromField ',' 9 s)

/-- The items of an RMC sentence come from their own fields. -/
structure Gprmc.From (s : Text) (loc : Gprmc ν) : Prop where
  times : loc.times = num.atof (fromField ',' 1 s)
  latitude : loc.latitude = num.atof (fromField ',' 3 s)
  lat : Direction 'N' 'S' (field ',' 4 s) loc.lat
  longitude : loc.longitude = num.atof (fromField ',' 5 s)
  lon : Direction 'W' 'E' (field ',' 6 s) loc.lon
  speed : loc.speed = num.atof (fromField ',' 7 s)
  course : loc.course = num.atof (fromField ',' 8 s)
  date : loc.date = num.atof (fromField ',' 9 s)

theorem skipField_fromField {k : Nat} {s : Text} (h : k < s.count ',') :
    skipField (fromField ',' k s) = some (fromField ',' (k + 1) s) := by
  rw [skipField, strchr_fromField h, Option.map_some, List.tail_cons]

theorem skipField_start {s : Text} (h : 0 < s.count ',') :
    skipField s = some (fromField ',' 1 s) := by
  simpa using skipField_fromField h

theorem count_of_skipField {ptr next : Text} (h : skipField ptr = some next) :
    ptr.count ',' = next.count ',' + 1 := by
  obtain ⟨rest, hrest, rfl⟩ := Option.map_eq_some_iff.mp h
  exact count_of_strchr hrest

/-- In front of a further field the switch sees the letter or the comma after an empty field. -/
theorem direction_field {yes no : Char} (hyes : yes ≠ ',') (hno : no ≠ ',') (hne : no ≠ yes)
    {k : Nat} {s : Text} (h : k < s.count ',') (old : Char) :
    Direction yes no (field ',' k s) (direction yes no old (fromField ',' k s)) := by
  rw [fromField_eq h]
  refine ⟨?_, ?_, ?_⟩
  · intro hf
    rw [hf, direction, List.cons_append, List.headD_cons, if_pos rfl]
  · intro hf
    rw [hf, direction, List.cons_append, List.headD_cons, if_neg hne, if_pos rfl]
  · intro hf
    rw [hf, direction, List.nil_append, List.headD_cons, if_neg hyes.symm, if_neg hno.symm,
      if_pos rfl]

section Fields

variable {s : Text} (h : 9 ≤ s.count ',')

include h

theorem gpgga_fields (loc : Gpgga ν) :
    ∃ loc', parseGpgga num loc s = some loc' ∧ loc'.From num s := by
  have hskip : ∀ {k}, k < 9 → skipField (fromField ',' k s) = some (fromField ',' (k + 1) s) :=
    fun hk => skipField_fromField (Nat.lt_of_lt_of_le hk h)
  have hrun : parseGpgga num loc s = some
      { times := num.atof (fromField ',' 1 s)
        latitude := num.atof (fromField ',' 2 s)
        lat := direction 'N' 'S' loc.lat (fromField ',' 3 s)
        longitude := num.atof (fromField ',' 4 s)
        lon := direction 'W' 'E' loc.lon (fromField ',' 5 s)
        quality := BitVec.ofInt 8 (atoi (fromField ',' 6 s))
        satellites := BitVec.ofInt 8 (atoi (fromField ',' 7 s))
        altitude := num.atof (fromField ',' 9 s) } := by
    simp [parseGpgga, skipField_start (s := s) (by omega), hskip]
  refine ⟨_, hrun, rfl, rfl, ?_, rfl, ?_, rfl, rfl, rfl⟩
  · exact direction_field (by decide) (by decide) (by decide) (by omega) loc.lat
  · exact direction_field (by decide) (by decide) (by decide) (by omega) loc.lon

theorem gprmc_fields (loc : Gprmc ν) :
    ∃ loc', parseGprmc num loc s = some loc' ∧ loc'.From num s := by
  have hskip : ∀ {k}, k < 9 → skipField (fromField ',' k s) = some (fromField ',' (k + 1) s) :=
    fun hk => skipField_fromField (Nat.lt_of_lt_of_le hk h)
  have hrun : parseGprmc num loc s = some
      { times := num.atof (fromField ',' 1 s)
        latitude := num.atof (fromField ',' 3 s)
        lat := direction 'N' 'S' loc.lat (fromField ',' 4 s)
        longitude := num.atof (fromField ',' 5 s)
        lon := direction 'W' 'E' loc.lon (fromField ',' 6 s)
        speed := num.atof (fromField ',' 7 s)
        course := num.atof (fromField ',' 8 s)
        date := num.atof (fromField ',' 9 s) } := by
    simp [parseGprmc, skipField_start (s := s) (by omega), hskip]
  refine ⟨_, hrun, rfl, rfl, ?_, rfl, ?_, rfl, rfl, rfl⟩
  · exact direction_field (by decide) (by decide) (by decide) (by omega) loc.lat
  · exact direction_field (by decide) (by decide) (by decide) (by omega) loc.lon

end Fields

/-! ## What is read -/

/-- Nine commas are stepped over, one for each `skipField`. -/
theorem parseGpgga_isSome {loc : Gpgga ν} {s : Text} :
    (parseGpgga num loc s).isSome ↔ 9 ≤ s.count ',' := by
  constructor
  · intro h
    obtain ⟨loc', hrun⟩ := Option.isSome_iff_exists.mp h
    simp only [parseGpgga, Option.bind_eq_bind, Option.bind_eq_some_iff] at hrun
    obtain ⟨_, h1, _, h2, _, h3, _, h4, _, h5, _, h6, _, h7, _, h8, _, h9, -⟩ := hrun
    rw [count_of_skipField h1, count_of_skipField h2, count_of_skipField h3, count_of_skipField h4,
      count_of_skipField h5, count_of_skipField h6, count_of_skipField h7, count_of_skipField h8,
      count_of_skipField h9]
    omega
  · intro h
    obtain ⟨loc', hrun, -⟩ := gpgga_fields num h loc
    rw [hrun, Option.isSome_some]

theorem parseGprmc_isSome {loc : Gprmc ν} {s : Text} :
    (parseGprmc num loc s).isSome ↔ 9 ≤ s.count ',' := by
  constructor
  · intro h
    obtain ⟨loc', hrun⟩ := Option.isSome_iff_exists.mp h
    simp only [parseGprmc, Option.bind_eq_bind, Option.bind_eq_some_iff] at hrun
    obtain ⟨_, h1, _, h2, _, h3, _, h4, _, h5, _, h6, _, h7, _, h8, _, h9, -⟩ := hrun
    rw [count_of_skipField h1, count_of_skipField h2, count_of_skipField h3, count_of_skipField h4,
      count_of_skipField h5, count_of_skipField h6, count_of_skipField h7, count_of_skipField h8,
      count_of_skipField h9]
    omega
  · intro h
    obtain ⟨loc', hrun, -⟩ := gprmc_fields num h loc
    rw [hrun, Option.isSome_some]

theorem xorUntilStar_isSome {sum : BitVec 8} {message : Text} :
    (xorUntilStar sum message).isSome ↔ '*' ∈ message := by
  induction message generalizing sum with
  | nil => simp [xorUntilStar]
  | cons p message ih =>
    rw [xorUntilStar, List.mem_cons]
    split
    next hp => simp [hp]
    next hp => rw [ih, or_iff_right (Ne.symm hp)]

/-- The mark is looked for from the first character on, and the sum runs from the second one. -/
theorem validChecksum_isSome {line : Text} :
    (validChecksum line).isSome ↔ '*' ∈ cstr line ∧ '*' ∈ line.tail := by
  have htail : '*' ∈ (line ++ ['\x00']).tail ↔ '*' ∈ line.tail := by
    cases line with
    | nil => simp
    | cons p line => simp
  rw [validChecksum]
  by_cases hmem : '*' ∈ cstr line
  · obtain ⟨star, hstar⟩ :=
      Option.ne_none_iff_exists'.mp (mt strchr_eq_none.mp (not_not.mpr hmem))
    rw [and_iff_right hmem, ← htail, ← @xorUntilStar_isSome 0, hstar]
    cases xorUntilStar 0 (line ++ ['\x00']).tail with
    | none => simp
    | some sum => simp
  · rw [strchr_eq_none.mpr hmem]
    simp [hmem]

theorem getMessageType_isSome {line : Text} :
    (getMessageType line).isSome ↔ '*' ∈ cstr line ∧ '*' ∈ line.tail := by
  rw [← validChecksum_isSome, getMessageType]
  cases validChecksum line with
  | none => rfl
  | some valid =>
    simp only [Option.bind_eq_bind, Option.bind_some, Option.isSome_some, iff_true]
    split_ifs <;> rfl

example : getMessageType "$GPGGA,,,,,,,,,*7A".toList = some .gpgga := by decide

end RpEcosystem.Gps
