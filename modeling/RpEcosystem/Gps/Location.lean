import RpEcosystem.Gps.Nmea

/-!
# Collecting a location

`gps_location` reads lines until it has seen a GGA and an RMC sentence. The sentences are parsed
into local variables that nothing initialises, so each turn of the loop comes with whatever it
finds there.

* `turn`, `gpsLocation`: the body of the loop and the loop;
* `Collected`, `collected_turn`: what the location is made of after any number of turns;
* `located`: a location that is returned comes from the last accepted lines.
-/

namespace RpEcosystem.Gps

open CLib

/-- `loc_t` -/
structure Loc (ν : Type) where
  times : ν
  date : ν
  latitude : ν
  longitude : ν
  speed : ν
  altitude : ν
  course : ν
  satellites : ν

variable {ν : Type} (num : Doubles ν)

/-- `gps_deg_dec` -/
def gpsDegDec (degPoint : ν) : ν :=
  let (fraction, ddeg) := num.modf degPoint
  let sec := num.mul fraction (num.ofInt 60)
  let deg := num.toInt (num.div ddeg (num.ofInt 100))
  let min := num.toInt (num.sub degPoint (num.ofInt (deg * 100)))
  let absdlat := num.round (num.mul (num.ofInt deg) (num.ofInt 1000000))
  let absmlat := num.round (num.mul (num.ofInt min) (num.ofInt 1000000))
  let absslat := num.round (num.mul sec (num.ofInt 1000000))
  num.div
    (num.round (num.add (num.add absdlat (num.div absmlat (num.ofInt 60)))
      (num.div absslat (num.ofInt 3600))))
    (num.ofInt 1000000)

/-- One coordinate of `gps_convert_deg_to_dec`; `positive` is the letter that keeps the sign. -/
def convertDegToDec (positive : Char) (degrees : ν) (letter : Char) : ν :=
  gpsDegDec num (if letter = positive then degrees else num.mul (num.ofInt (-1)) degrees)

/-! ## The loop -/

def statusGprmc : BitVec 8 := 0x01

def statusGpgga : BitVec 8 := 0x02

def completed : BitVec 8 := 0x03

structure Collector (ν : Type) where
  status : BitVec 8
  coord : Loc ν

/-- A line, and what its turn of the loop finds in the local variables. -/
structure Turn (ν : Type) where
  line : Text
  gpgga : Gpgga ν
  gprmc : Gprmc ν

/-- The body of the loop. -/
def turn (t : Turn ν) (st : Collector ν) : Option (Collector ν) := do
  match ← getMessageType t.line with
  | .gpgga =>
    let gpgga ← parseGpgga num t.gpgga (cstr t.line)
    return {
      status := st.status ||| statusGpgga
      coord := { st.coord with
        times := gpgga.times
        latitude := convertDegToDec num 'N' gpgga.latitude gpgga.lat
        longitude := convertDegToDec num 'E' gpgga.longitude gpgga.lon
        altitude := gpgga.altitude
        satellites := num.ofInt gpgga.satellites.toNat } }
  | .gprmc =>
    let gprmc ← parseGprmc num t.gprmc (cstr t.line)
    return {
      status := st.status ||| statusGprmc
      coord := { st.coord with
        speed := gprmc.speed
        course := gprmc.course
        date := gprmc.date } }
  | _ => return st

/-- What has become of the loop when all lines so far are read. -/
inductive Outcome (ν : Type)
  | returns (coord : Loc ν) (rest : List (Turn ν))
  | waits
  | faults

/-- The same outcome with other lines left over. -/
def Outcome.mapRest (f : List (Turn ν) → List (Turn ν)) : Outcome ν → Outcome ν
  | .returns coord rest => .returns coord (f rest)
  | .waits => .waits
  | .faults => .faults

def collect (st : Collector ν) : List (Turn ν) → Outcome ν
  | [] => if st.status = completed then .returns st.coord [] else .waits
  | t :: turns =>
    if st.status = completed then .returns st.coord (t :: turns)
    else
      match turn num t st with
      | none => .faults
      | some st' => collect st' turns

/-- `gps_location` -/
def gpsLocation (coord : Loc ν) (turns : List (Turn ν)) : Outcome ν :=
  collect num { status := 0x00, coord } turns

/-! ## Where a location comes from -/

/-- The lines that are accepted as `kind`. -/
def accepted (kind : MessageType) (turns : List (Turn ν)) : List (Turn ν) :=
  turns.filter (fun t => getMessageType t.line = some kind)

/-- The lines that are accepted at all. -/
def sentences (turns : List (Turn ν)) : List (Turn ν) :=
  turns.filter
    (fun t => getMessageType t.line = some .gpgga || getMessageType t.line = some .gprmc)

/-- The fields of a location that a GGA sentence fills. -/
structure Loc.FromGpgga (s : Text) (coord : Loc ν) : Prop where
  times : coord.times = num.atof (fromField ',' 1 s)
  latitude : ∃ lat, Direction 'N' 'S' (field ',' 3 s) lat ∧
    coord.latitude = convertDegToDec num 'N' (num.atof (fromField ',' 2 s)) lat
  longitude : ∃ lon, Direction 'W' 'E' (field ',' 5 s) lon ∧
    coord.longitude = convertDegToDec num 'E' (num.atof (fromField ',' 4 s)) lon
  altitude : coord.altitude = num.atof (fromField ',' 9 s)
  satellites : coord.satellites =
    num.ofInt (BitVec.ofInt 8 (atoi (fromField ',' 7 s))).toNat

/-- The fields of a location that an RMC sentence fills. -/
structure Loc.FromGprmc (s : Text) (coord : Loc ν) : Prop where
  speed : coord.speed = num.atof (fromField ',' 7 s)
  course : coord.course = num.atof (fromField ',' 8 s)
  date : coord.date = num.atof (fromField ',' 9 s)

/-- The status when a GGA and an RMC sentence have been seen or not. -/
def statusOf (gpgga gprmc : Bool) : BitVec 8 :=
  (if gpgga then statusGpgga else 0x00) ||| (if gprmc then statusGprmc else 0x00)

/-- What the loop has collected from the turns `seen`. -/
structure Collected (seen : List (Turn ν)) (st : Collector ν) : Prop where
  status : st.status =
    statusOf (accepted .gpgga seen).getLast?.isSome (accepted .gprmc seen).getLast?.isSome
  gpgga : ∀ t, (accepted .gpgga seen).getLast? = some t → st.coord.FromGpgga num (cstr t.line)
  gprmc : ∀ t, (accepted .gprmc seen).getLast? = some t → st.coord.FromGprmc num (cstr t.line)

@[simp] theorem accepted_nil {kind : MessageType} : accepted kind ([] : List (Turn ν)) = [] := rfl

theorem accepted_concat {kind : MessageType} {seen : List (Turn ν)} {t : Turn ν} :
    accepted kind (seen ++ [t]) =
      accepted kind seen ++ if getMessageType t.line = some kind then [t] else [] := by
  simp [accepted, List.filter_append, List.filter_cons]

theorem statusOf_gpgga (gpgga gprmc : Bool) :
    statusOf gpgga gprmc ||| statusGpgga = statusOf true gprmc := by
  revert gpgga gprmc
  decide

theorem statusOf_gprmc (gpgga gprmc : Bool) :
    statusOf gpgga gprmc ||| statusGprmc = statusOf gpgga true := by
  revert gpgga gprmc
  decide

theorem statusOf_completed (gpgga gprmc : Bool) :
    statusOf gpgga gprmc = completed ↔ gpgga = true ∧ gprmc = true := by
  revert gpgga gprmc
  decide

/-! ## One turn -/

/-- A line of another kind changes nothing. -/
theorem turn_other {t : Turn ν} {type : MessageType} (htype : getMessageType t.line = some type)
    (hgga : type ≠ .gpgga) (hrmc : type ≠ .gprmc) (st : Collector ν) :
    turn num t st = some st := by
  rw [turn, htype]
  cases type with
  | gpgga => exact absurd rfl hgga
  | gprmc => exact absurd rfl hrmc
  | checksumErr => rfl
  | unknown => rfl

theorem turn_gpgga {t : Turn ν} {st st' : Collector ν}
    (htype : getMessageType t.line = some .gpgga) (h : turn num t st = some st') :
    st'.status = st.status ||| statusGpgga ∧ st'.coord.FromGpgga num (cstr t.line) ∧
      (∀ s, st.coord.FromGprmc num s → st'.coord.FromGprmc num s) := by
  simp only [turn, htype, Option.bind_eq_bind, Option.bind_some, Option.bind_eq_some_iff] at h
  obtain ⟨gpgga, hparse, hst⟩ := h
  have hcommas := (parseGpgga_isSome num).mp (Option.isSome_of_eq_some hparse)
  obtain ⟨gpgga', hparse', hfrom⟩ := gpgga_fields num hcommas t.gpgga
  rw [hparse] at hparse'
  cases hparse'
  cases hst
  refine ⟨rfl, ?_, fun s hs => ⟨hs.speed, hs.course, hs.date⟩⟩
  refine ⟨hfrom.times, ⟨_, hfrom.lat, ?_⟩, ⟨_, hfrom.lon, ?_⟩, hfrom.altitude, ?_⟩
  · rw [← hfrom.latitude]
  · rw [← hfrom.longitude]
  · rw [← hfrom.satellites]

theorem turn_gprmc {t : Turn ν} {st st' : Collector ν}
    (htype : getMessageType t.line = some .gprmc) (h : turn num t st = some st') :
    st'.status = st.status ||| statusGprmc ∧ st'.coord.FromGprmc num (cstr t.line) ∧
      (∀ s, st.coord.FromGpgga num s → st'.coord.FromGpgga num s) := by
  simp only [turn, htype, Option.bind_eq_bind, Option.bind_some, Option.bind_eq_some_iff] at h
  obtain ⟨gprmc, hparse, hst⟩ := h
  have hcommas := (parseGprmc_isSome num).mp (Option.isSome_of_eq_some hparse)
  obtain ⟨gprmc', hparse', hfrom⟩ := gprmc_fields num hcommas t.gprmc
  rw [hparse] at hparse'
  cases hparse'
  cases hst
  refine ⟨rfl, ⟨hfrom.speed, hfrom.course, hfrom.date⟩, fun s hs => ?_⟩
  exact ⟨hs.times, hs.latitude, hs.longitude, hs.altitude, hs.satellites⟩

theorem collected_start (coord : Loc ν) : Collected num [] { status := 0x00, coord } :=
  ⟨by simp [statusOf], nofun, nofun⟩

theorem collected_turn {seen : List (Turn ν)} {st st' : Collector ν} {t : Turn ν}
    (hst : Collected num seen st) (h : turn num t st = some st') :
    Collected num (seen ++ [t]) st' := by
  have htype : (getMessageType t.line).isSome := by
    rw [Option.isSome_iff_ne_none]
    intro hnone
    rw [turn, hnone] at h
    cases h
  obtain ⟨type, htype⟩ := Option.isSome_iff_exists.mp htype
  by_cases hgga : type = .gpgga
  · subst hgga
    obtain ⟨hstatus, hcoord, hframe⟩ := turn_gpgga num htype h
    refine ⟨?_, ?_, ?_⟩
    · rw [hstatus, hst.status, statusOf_gpgga, accepted_concat, accepted_concat, htype]
      simp
    · intro t' ht'
      rw [accepted_concat, if_pos htype, List.getLast?_concat] at ht'
      cases ht'
      exact hcoord
    · intro t' ht'
      rw [accepted_concat, htype] at ht'
      exact hframe _ (hst.gprmc t' (by simpa using ht'))
  by_cases hrmc : type = .gprmc
  · subst hrmc
    obtain ⟨hstatus, hcoord, hframe⟩ := turn_gprmc num htype h
    refine ⟨?_, ?_, ?_⟩
    · rw [hstatus, hst.status, statusOf_gprmc, accepted_concat, accepted_concat, htype]
      simp
    · intro t' ht'
      rw [accepted_concat, htype] at ht'
      exact hframe _ (hst.gpgga t' (by simpa using ht'))
    · intro t' ht'
      rw [accepted_concat, if_pos htype, List.getLast?_concat] at ht'
      cases ht'
      exact hcoord
  · rw [turn_other num htype hgga hrmc] at h
    cases h
    have hkeep : ∀ kind, kind = .gpgga ∨ kind = .gprmc →
        accepted kind (seen ++ [t]) = accepted kind seen := by
      intro kind hkind
      rw [accepted_concat, htype, if_neg, List.append_nil]
      rintro ⟨⟩
      exact hkind.elim hgga hrmc
    refine ⟨?_, ?_, ?_⟩
    · rw [hkeep _ (.inl rfl), hkeep _ (.inr rfl)]
      exact hst.status
    · rw [hkeep _ (.inl rfl)]
      exact hst.gpgga
    · rw [hkeep _ (.inr rfl)]
      exact hst.gprmc

/-! ## Whole runs -/

theorem collect_returns {seen turns rest : List (Turn ν)} {st : Collector ν} {coord : Loc ν}
    (hst : Collected num seen st) (h : collect num st turns = .returns coord rest) :
    ∃ used, turns = used ++ rest ∧
      ∃ st', Collected num (seen ++ used) st' ∧ st'.status = completed ∧ st'.coord = coord := by
  induction turns generalizing seen st with
  | nil =>
    rw [collect] at h
    split at h
    next hdone =>
      cases h
      exact ⟨[], rfl, st, by simpa using hst, hdone, rfl⟩
    next => cases h
  | cons t turns ih =>
    rw [collect] at h
    split at h
    next hdone =>
      cases h
      exact ⟨[], rfl, st, by simpa using hst, hdone, rfl⟩
    next =>
      split at h
      next => cases h
      next st₁ hturn =>
        obtain ⟨used, rfl, st', hst', hdone, hcoord⟩ := ih (collected_turn num hst hturn) h
        exact ⟨t :: used, rfl, st', by simpa using hst', hdone, hcoord⟩

/-- A line that can be read: it has its checksum mark, and its commas when it is accepted. -/
def Readable (line : Text) : Prop :=
  '*' ∈ cstr line ∧ '*' ∈ line.tail ∧
    (getMessageType line = some .gpgga ∨ getMessageType line = some .gprmc →
      9 ≤ (cstr line).count ',')

theorem turn_isSome {t : Turn ν} (st : Collector ν) :
    (turn num t st).isSome ↔ Readable t.line := by
  rw [Readable, ← and_assoc, ← getMessageType_isSome]
  cases htype : getMessageType t.line with
  | none => simp [turn, htype]
  | some type =>
    cases type with
    | gpgga =>
      rw [← @parseGpgga_isSome ν num t.gpgga]
      simp only [turn, htype]
      cases parseGpgga num t.gpgga (cstr t.line) <;> simp
    | gprmc =>
      rw [← @parseGprmc_isSome ν num t.gprmc]
      simp only [turn, htype]
      cases parseGprmc num t.gprmc (cstr t.line) <;> simp
    | checksumErr => simp [turn, htype]
    | unknown => simp [turn, htype]

theorem collect_ne_faults {turns : List (Turn ν)} {st : Collector ν}
    (hread : ∀ t ∈ turns, Readable t.line) : collect num st turns ≠ .faults := by
  induction turns generalizing st with
  | nil =>
    rw [collect]
    split_ifs <;> nofun
  | cons t turns ih =>
    rw [collect]
    split
    next => nofun
    next =>
      obtain ⟨st', hst'⟩ :=
        Option.isSome_iff_exists.mp ((turn_isSome num st).mpr (hread t List.mem_cons_self))
      rw [hst']
      exact ih fun t' ht' => hread t' (List.mem_cons_of_mem _ ht')

/-- While the loop waits, it has gone through all lines without completing. -/
theorem collect_waits {seen turns : List (Turn ν)} {st : Collector ν}
    (hst : Collected num seen st) (h : collect num st turns = .waits) :
    ∃ st', Collected num (seen ++ turns) st' ∧ st'.status ≠ completed := by
  induction turns generalizing seen st with
  | nil =>
    rw [collect] at h
    split at h
    next => cases h
    next hdone => exact ⟨st, by simpa using hst, hdone⟩
  | cons t turns ih =>
    rw [collect] at h
    split at h
    next => cases h
    next =>
      split at h
      next => cases h
      next st₁ hturn =>
        obtain ⟨st', hst', hdone⟩ := ih (collected_turn num hst hturn) h
        exact ⟨st', by simpa using hst', hdone⟩

/-- Whether the lines bring both kinds of sentence. -/
theorem completed_iff {seen : List (Turn ν)} {st : Collector ν} (hst : Collected num seen st) :
    st.status = completed ↔ (∃ gga, (accepted .gpgga seen).getLast? = some gga) ∧
      ∃ rmc, (accepted .gprmc seen).getLast? = some rmc := by
  rw [hst.status, statusOf_completed, Option.isSome_iff_exists, Option.isSome_iff_exists]

theorem collect_completed {st : Collector ν} (h : st.status = completed)
    (turns : List (Turn ν)) : collect num st turns = .returns st.coord turns := by
  cases turns with
  | nil => rw [collect, if_pos h]
  | cons t turns => rw [collect, if_pos h]

/-- Lines that are not accepted could as well not be there. -/
theorem collect_sentences {turns : List (Turn ν)}
    (htype : ∀ t ∈ turns, (getMessageType t.line).isSome) (st : Collector ν) :
    collect num st (sentences turns) = (collect num st turns).mapRest sentences := by
  induction turns generalizing st with
  | nil =>
    rw [sentences, List.filter_nil, collect]
    split_ifs <;> rfl
  | cons t turns ih =>
    by_cases hdone : st.status = completed
    · rw [collect_completed num hdone, collect_completed num hdone, Outcome.mapRest]
    obtain ⟨type, ht⟩ := Option.isSome_iff_exists.mp (htype t List.mem_cons_self)
    have ih := ih fun t' ht' => htype t' (List.mem_cons_of_mem _ ht')
    by_cases hkind : type = .gpgga ∨ type = .gprmc
    · have hkeep : sentences (t :: turns) = t :: sentences turns := by
        rw [sentences, List.filter_cons, if_pos (by simpa [ht] using hkind), sentences]
      rw [hkeep, collect, if_neg hdone, collect, if_neg hdone]
      cases turn num t st with
      | none => rfl
      | some st' => exact ih st'
    · have hdrop : sentences (t :: turns) = sentences turns := by
        rw [sentences, List.filter_cons, if_neg (by simpa [ht] using hkind), sentences]
      rw [not_or] at hkind
      rw [hdrop, collect, if_neg hdone, turn_other num ht hkind.1 hkind.2]
      exact ih st

/-- Each item of a sentence comes from its own field. A location is returned after a GGA and an RMC
sentence only, and comes from the last ones; other lines count for nothing, and readable lines with
both kinds among them are enough. -/
theorem located :
    (∀ s, 9 ≤ s.count ',' →
      (∀ loc, ∃ loc', parseGpgga num loc s = some loc' ∧ loc'.From num s) ∧
      (∀ loc, ∃ loc', parseGprmc num loc s = some loc' ∧ loc'.From num s)) ∧
    (∀ coord turns coord' rest, gpsLocation num coord turns = .returns coord' rest →
      ∃ used gga rmc, turns = used ++ rest ∧
        (accepted .gpgga used).getLast? = some gga ∧ coord'.FromGpgga num (cstr gga.line) ∧
        (accepted .gprmc used).getLast? = some rmc ∧ coord'.FromGprmc num (cstr rmc.line)) ∧
    (∀ coord turns, (∀ t ∈ turns, (getMessageType t.line).isSome) →
      gpsLocation num coord (sentences turns) =
        (gpsLocation num coord turns).mapRest sentences) ∧
    (∀ coord turns, (∀ t ∈ turns, Readable t.line) → accepted .gpgga turns ≠ [] →
      accepted .gprmc turns ≠ [] →
      ∃ coord' rest, gpsLocation num coord turns = .returns coord' rest) := by
  refine ⟨fun s hs => ⟨gpgga_fields num hs, gprmc_fields num hs⟩, ?_,
    fun coord turns htype => collect_sentences num htype _, ?_⟩
  · intro coord turns coord' rest h
    obtain ⟨used, hused, st', hst', hdone, rfl⟩ := collect_returns num (collected_start num coord) h
    obtain ⟨⟨gga, hgga⟩, rmc, hrmc⟩ := (completed_iff num hst').mp hdone
    exact ⟨used, gga, rmc, hused, hgga, hst'.gpgga gga hgga, hrmc, hst'.gprmc rmc hrmc⟩
  · intro coord turns hread hgga hrmc
    cases h : gpsLocation num coord turns with
    | returns coord' rest => exact ⟨coord', rest, rfl⟩
    | faults => exact absurd h (collect_ne_faults num hread)
    | waits =>
      obtain ⟨st', hst', hdone⟩ := collect_waits num (collected_start num coord) h
      refine absurd ((completed_iff num hst').mpr ⟨?_, ?_⟩) hdone
      · exact ⟨_, List.getLast?_eq_some_getLast hgga⟩
      · exact ⟨_, List.getLast?_eq_some_getLast hrmc⟩

end RpEcosystem.Gps
