import RpEcosystem.TinyGps.Streams
import Mathlib.Data.List.GetD
import Mathlib.Data.List.Induction

/-!
# Sentences

A sentence `$address,field,…,field*hh` is read the same way after every history: the `$` forgets
what was collected before, a field has its own use by its number, and the answer at the character
after the checksum is the only one that can be positive. What is kept from earlier sentences are the
values of fields that are empty.

* `layout`, `readFields`: the fields of a sentence and what they are used for;
* `use_eq_layout`: the switch of the source uses them like that, up to field 31;
* `feed_sentence`: the whole sentence;
* `sentence_accepted_iff`: when it is accepted, and what is published then.
-/

namespace RpEcosystem.TinyGps

open CLib

/-! ## What the reader has found -/

/-- The state of the reader without its buffer and its statistics. -/
structure Parse where
  published : Fields
  type : SentenceType
  number : BitVec 8
  reading : Reading
  parity : BitVec 8
  checking : Bool

def Gps.view (s : Gps) : Parse :=
  ⟨s.published, s.sentenceType, s.termNumber, s.reading, s.parity, s.isChecksumTerm⟩

/-- The buffer holds as much of `t` as there is room for. -/
structure Holds (s : Gps) (t : Text) : Prop where
  offset : s.termOffset.toNat = min t.length 14
  stored : s.term.toList.take (min t.length 14) = t.take 14

/-- A character that neither begins a sentence nor ends a term. -/
def plain (c : Char) : Bool := c ∉ "$,*\r\n\x00".toList

theorem plain_of_all {t : Text} (h : t.all plain = true) : ∀ c ∈ t, plain c :=
  List.all_eq_true.mp h

/-- The exclusive or of the characters. -/
def parityOf : Text → BitVec 8
  | [] => 0
  | c :: t => byte c ^^^ parityOf t

@[simp] theorem parityOf_append (t u : Text) : parityOf (t ++ u) = parityOf t ^^^ parityOf u := by
  induction t with
  | nil => simp [parityOf]
  | cons c t ih => rw [List.cons_append, parityOf, parityOf, ih, BitVec.xor_assoc]

theorem Holds.bounded {s : Gps} {t : Text} (h : Holds s t) : s.Bounded := by
  have := h.offset
  rw [Gps.Bounded]
  omega

theorem holds_nil {s : Gps} (h : s.termOffset = 0) : Holds s [] := ⟨by simp [h], by simp⟩

theorem ne_of_plain {c : Char} (h : plain c) :
    c ≠ '$' ∧ c ≠ ',' ∧ c ≠ '*' ∧ c ≠ '\r' ∧ c ≠ '\n' ∧ c ≠ '\x00' := by
  simpa [plain] using h

theorem Holds.count {s : Gps} {t : Text} (h : Holds s t) : Holds s.count t := ⟨h.offset, h.stored⟩

theorem view_count (s : Gps) : s.count.view = s.view := rfl

/-! ## Characters of a term -/

theorem encodeChar_plain {c : Char} (h : plain c) (s : Gps) :
    encodeChar s c = some (false, addParity c (s.append c)) := by
  obtain ⟨h1, h2, h3, h4, h5, -⟩ := ne_of_plain h
  simp [encodeChar, collect_eq, h1, h2, h3, h4, h5]

theorem Holds.append {s : Gps} {t : Text} (h : Holds s t) (c : Char) :
    Holds (s.append c) (t ++ [c]) := by
  have hoff := h.offset
  unfold Gps.append
  split_ifs with hlt
  · have hlen : t.length < 14 := by omega
    have hoff' : s.termOffset.toNat = t.length := by omega
    constructor
    · change (s.termOffset + 1).toNat = _
      rw [BitVec.toNat_add]
      change (s.termOffset.toNat + 1) % 256 = _
      rw [List.length_append, List.length_singleton, hoff', Nat.min_eq_left (by omega)]
      omega
    · have hstored : s.term.toList.take s.termOffset.toNat = t := by
        have := h.stored
        rwa [← hoff, List.take_of_length_le (Nat.le_of_lt hlen)] at this
      have hlist := toList_store (s := s) (show s.termOffset.toNat < 15 by omega) c
      rw [hstored] at hlist
      have hshort : (t ++ [c]).take 14 = t ++ [c] := List.take_of_length_le (by simp; omega)
      rw [hlist, hshort, List.length_append, List.length_singleton, Nat.min_eq_left (by omega),
        List.take_length_add_append]
      rfl
  · have hlen : 14 ≤ t.length := by omega
    constructor
    · rw [List.length_append, List.length_singleton]
      omega
    · rw [List.take_append_of_le_length hlen, ← h.stored, List.length_append,
        List.length_singleton, Nat.min_eq_right (by omega), Nat.min_eq_right hlen]

theorem Holds.addParity {s : Gps} {t : Text} (h : Holds s t) (c : Char) :
    Holds (addParity c s) t := by
  unfold TinyGps.addParity
  split_ifs
  · exact h
  · exact ⟨h.offset, h.stored⟩

/-- The parity after more characters, which count outside of a checksum only. -/
def Parse.add (p : Parse) (t : Text) : Parse :=
  { p with parity := if p.checking then p.parity else p.parity ^^^ parityOf t }

theorem view_append (s : Gps) (c : Char) : (s.append c).view = s.view := by
  unfold Gps.append
  split_ifs <;> rfl

theorem view_addParity (s : Gps) (c : Char) : (addParity c s).view = s.view.add [c] := by
  unfold addParity
  split_ifs with h
  · simp [Gps.view, Parse.add, h]
  · simp [Gps.view, Parse.add, h, parityOf, Gps.reading]

theorem Parse.add_add (p : Parse) (t u : Text) : (p.add t).add u = p.add (t ++ u) := by
  cases h : p.checking <;> simp [Parse.add, h, BitVec.xor_assoc]

theorem Parse.add_nil (p : Parse) : p.add [] = p := by
  obtain ⟨_, _, _, _, _, checking⟩ := p
  cases checking <;> simp [Parse.add, parityOf]

/-- The stream is answered `false` all along. -/
def Quiet (s : Gps) (stream : Text) (s' : Gps) : Prop :=
  feed s stream = some (List.replicate stream.length false, s')

theorem feed_append (s : Gps) (a b : Text) :
    feed s (a ++ b) =
      (feed s a).bind fun r => (feed r.2 b).map fun q => (r.1 ++ q.1, q.2) := by
  induction a generalizing s with
  | nil => simp [feed]
  | cons c a ih =>
    rw [List.cons_append, feed, feed]
    cases gpsEncode s c with
    | none => rfl
    | some r =>
      simp only [Option.bind_eq_bind, Option.bind_some, ih]
      cases feed r.2 a with
      | none => rfl
      | some q =>
        simp only [Option.bind_some, Option.pure_def]
        cases feed q.2 b <;> rfl

theorem Quiet.nil (s : Gps) : Quiet s [] s := rfl

theorem Quiet.append {s s' s'' : Gps} {a b : Text} (ha : Quiet s a s') (hb : Quiet s' b s'') :
    Quiet s (a ++ b) s'' := by
  rw [Quiet, feed_append, ha, Option.bind_some, hb, Option.map_some, List.length_append,
    List.replicate_append_replicate]

theorem Quiet.single {s s' : Gps} {c : Char} (h : gpsEncode s c = some (false, s')) :
    Quiet s [c] s' := by
  simp [Quiet, feed, h]

/-- The characters of a term. -/
theorem feed_plain {s : Gps} (hs : Holds s []) {t : Text} (ht : ∀ c ∈ t, plain c) :
    ∃ s', Quiet s t s' ∧ Holds s' t ∧ s'.view = s.view.add t := by
  induction t using List.reverseRecOn with
  | nil => exact ⟨s, .nil s, hs, s.view.add_nil.symm⟩
  | append_singleton t c ih =>
    obtain ⟨s₁, hq, hh, hv⟩ := ih fun a ha => ht a (List.mem_append_left _ ha)
    have hc : plain c := ht c (by simp)
    refine ⟨_, hq.append (.single (encodeChar_plain hc _)), ?_, ?_⟩
    · exact (hh.count.append c).addParity c
    · rw [view_addParity, view_append, view_count, hv, Parse.add_add]

/-! ## The end of a term -/

/-- The string in the buffer once the term is terminated. -/
theorem Holds.terminate {s : Gps} {t : Text} (h : Holds s t) :
    ∃ junk, (s.terminate h.bounded).term.toList = t.take 14 ++ '\x00' :: junk := by
  have hstored := h.stored
  rw [← h.offset] at hstored
  exact ⟨_, by rw [Gps.terminate, toList_store, hstored]⟩

/-- A term that is complete, for the view. -/
def Parse.takeTerm (p : Parse) (t : Text) : Parse :=
  if p.number = 0 then { p with type := addressOf t }
  else { p with reading := takeField p.reading t (use p.type p.number) }

/-- What follows a character that ends a term, for the view. -/
def Parse.next (p : Parse) (checking : Bool) : Parse :=
  { p with number := p.number + 1, checking }

theorem view_takeTerm (s : Gps) (t : Text) : (takeTerm s t).view = s.view.takeTerm t := by
  unfold takeTerm Parse.takeTerm
  by_cases h : s.termNumber = 0
  · rw [if_pos h, if_pos (show s.view.number = 0 from h)]
    rfl
  · rw [if_neg h, if_neg (show s.view.number ≠ 0 from h)]
    rfl

theorem nul_not_mem {t : Text} (ht : ∀ c ∈ t, plain c) : '\x00' ∉ t := fun h =>
  (ne_of_plain (ht _ h)).2.2.2.2.2 rfl

theorem endTerm_holds {s : Gps} {t : Text} (h : Holds s t) (ht : ∀ c ∈ t, plain c)
    (hcheck : s.isChecksumTerm = false) (c : Char) :
    ∃ s', endTerm c s = some (false, s') ∧ Holds s' [] ∧
      s'.view = (s.view.takeTerm (t.take 14)).next (c = '*') := by
  obtain ⟨junk, hterm⟩ := h.terminate
  have hnul : '\x00' ∉ t.take 14 := fun hmem => nul_not_mem ht (List.mem_of_mem_take hmem)
  refine ⟨_, by rw [endTerm_eq h.bounded, gpsTermComplete_string hnul hterm hcheck]; rfl,
    holds_nil rfl, ?_⟩
  exact congrArg (Parse.next · (c = '*')) (view_takeTerm (s.terminate h.bounded) (t.take 14))

theorem Parse.takeTerm_add (p : Parse) (t u : Text) :
    (p.add t).takeTerm u = (p.takeTerm u).add t := by
  unfold Parse.takeTerm
  by_cases h : p.number = 0
  · rw [if_pos h, if_pos (show (p.add t).number = 0 from h)]
    rfl
  · rw [if_neg h, if_neg (show (p.add t).number ≠ 0 from h)]
    rfl

section

variable {s : Gps} {p : Parse} (hs : Holds s []) (hp : s.view = p) (hcheck : p.checking = false)

include hs hp hcheck

/-- A term and the comma after it. -/
theorem feed_term_comma {t : Text} (ht : ∀ c ∈ t, plain c) :
    ∃ s', Quiet s (t ++ [',']) s' ∧ Holds s' [] ∧
      s'.view = ((p.takeTerm (t.take 14)).add (t ++ [','])).next false := by
  obtain ⟨s₁, hq, hh, hv⟩ := feed_plain hs ht
  rw [hp] at hv
  have hcheck₁ : s₁.count.isChecksumTerm = false := (congrArg Parse.checking hv).trans hcheck
  have hcomma : encodeChar s₁.count ',' = endTerm ',' (addParity ',' s₁.count) := by
    simp [encodeChar, addParity, hcheck₁]
  have hcheck₂ : (addParity ',' s₁.count).isChecksumTerm = false :=
    (congrArg Parse.checking (view_addParity s₁.count ',')).trans hcheck₁
  obtain ⟨s₂, hs₂, hh₂, hv₂⟩ := endTerm_holds (hh.count.addParity ',') ht hcheck₂ ','
  refine ⟨s₂, hq.append (.single (hcomma.trans hs₂)), hh₂, ?_⟩
  rw [hv₂, view_addParity, view_count, hv, Parse.add_add, Parse.takeTerm_add]
  rfl

/-- The last term of a sentence and the star after it. -/
theorem feed_term_star {t : Text} (ht : ∀ c ∈ t, plain c) :
    ∃ s', Quiet s (t ++ ['*']) s' ∧ Holds s' [] ∧
      s'.view = ((p.takeTerm (t.take 14)).add t).next true := by
  obtain ⟨s₁, hq, hh, hv⟩ := feed_plain hs ht
  rw [hp] at hv
  have hcheck₁ : s₁.isChecksumTerm = false := (congrArg Parse.checking hv).trans hcheck
  obtain ⟨s₂, hs₂, hh₂, hv₂⟩ := endTerm_holds hh.count ht hcheck₁ '*'
  refine ⟨s₂, hq.append (.single ?_), hh₂, ?_⟩
  · simpa [gpsEncode, encodeChar] using hs₂
  · rw [hv₂, view_count, hv, Parse.takeTerm_add]
    rfl

end

/-! ## Fields -/

/-- What the fields after the address are used for. -/
def layout : SentenceType → List Item
  | .gprmc =>
    [.time, .validity, .latitude, .northSouth, .longitude, .eastWest, .speed, .course, .date]
  | .gpgga =>
    [.time, .latitude, .northSouth, .longitude, .eastWest, .fixData, .satellites, .hdop, .altitude]
  | .other => []

/-- The fields, one after the other; a field longer than the buffer is cut. -/
def readFields (r : Reading) (items : List Item) (fields : List Text) : Reading :=
  (items.zip fields).foldl (fun r e => takeField r (e.2.take 14) (some e.1)) r

/-- Up to number 31 the labels of one type of sentence are not those of the other. -/
theorem use_eq_layout (type : SentenceType) {k : Nat} (hk : k < 31) :
    use type (BitVec.ofNat 8 (k + 1)) = (layout type)[k]? := by
  have h : ∀ type : Fin 3, ∀ k : Fin 31,
      use ([.gpgga, .gprmc, .other].get type) (BitVec.ofNat 8 (k + 1)) =
        (layout ([.gpgga, .gprmc, .other].get type))[k.val]? := by
    decide
  cases type with
  | gpgga => exact h 0 ⟨k, hk⟩
  | gprmc => exact h 1 ⟨k, hk⟩
  | other => exact h 2 ⟨k, hk⟩

theorem readFields_drop (r : Reading) (items : List Item) (k : Nat) (t : Text) (ts : List Text) :
    readFields r (items.drop k) (t :: ts) =
      readFields (takeField r (t.take 14) items[k]?) (items.drop (k + 1)) ts := by
  by_cases hk : k < items.length
  · rw [List.drop_eq_getElem_cons hk, List.getElem?_eq_getElem hk]
    rfl
  · rw [List.getElem?_eq_none (by omega), List.drop_of_length_le (by omega),
      List.drop_of_length_le (by omega)]
    rfl

theorem number_ne_zero {k : Nat} (hk : k < 31) : BitVec.ofNat 8 (k + 1) ≠ 0 := by
  intro h
  have := congrArg BitVec.toNat h
  rw [BitVec.toNat_ofNat, Nat.mod_eq_of_lt (by omega)] at this
  exact absurd this (Nat.succ_ne_zero k)

/-- The view after a field that is not the address. -/
theorem Parse.takeTerm_field {p : Parse} {k : Nat} (hk : k < 31)
    (hp : p.number = BitVec.ofNat 8 (k + 1)) (t : Text) :
    p.takeTerm t = { p with reading := takeField p.reading t (layout p.type)[k]? } := by
  rw [Parse.takeTerm, hp, if_neg (number_ne_zero hk), use_eq_layout _ hk]

theorem intercalate_cons_cons (t u : Text) (ts : List Text) :
    [','].intercalate (t :: u :: ts) = t ++ [','] ++ [','].intercalate (u :: ts) := by
  simp [List.intercalate]

/-- The view after the fields from field `k` on and the star behind them. -/
def Parse.readFrom (p : Parse) (k : Nat) (fields : List Text) (number : BitVec 8) : Parse :=
  { p with
    number,
    reading := readFields p.reading ((layout p.type).drop k) fields,
    parity := p.parity ^^^ parityOf ([','].intercalate fields),
    checking := true }

theorem feed_fields {s : Gps} (hs : Holds s []) {p : Parse} (hp : s.view = p)
    (hcheck : p.checking = false) {k : Nat} (hnumber : p.number = BitVec.ofNat 8 (k + 1)) {t : Text}
    {ts : List Text} (hk : k + ts.length < 31) (hplain : ∀ u ∈ t :: ts, ∀ c ∈ u, plain c) :
    ∃ s' n, Quiet s ([','].intercalate (t :: ts) ++ ['*']) s' ∧ Holds s' [] ∧
      s'.view = p.readFrom k (t :: ts) n := by
  induction ts generalizing s p k t with
  | nil =>
    obtain ⟨s', hq, hh, hv⟩ := feed_term_star hs hp hcheck (hplain t (by simp))
    refine ⟨s', p.number + 1, by simpa using hq, hh, ?_⟩
    rw [hv, Parse.takeTerm_field (by simpa using hk) hnumber, Parse.readFrom, readFields_drop]
    simp [Parse.add, Parse.next, hcheck, readFields]
  | cons u ts ih =>
    obtain ⟨s₁, hq, hh, hv⟩ := feed_term_comma hs hp hcheck (hplain t (by simp))
    rw [Parse.takeTerm_field (by omega) hnumber] at hv
    have hnext : p.number + 1 = BitVec.ofNat 8 (k + 1 + 1) := by
      rw [hnumber, BitVec.ofNat_add (k + 1)]
      rfl
    obtain ⟨s₂, n, hq₂, hh₂, hv₂⟩ := ih hh hv rfl hnext (by rw [List.length_cons] at hk; omega)
      (fun v hv => hplain v (List.mem_cons_of_mem _ hv))
    refine ⟨s₂, n, ?_, hh₂, ?_⟩
    · rw [intercalate_cons_cons, List.append_assoc]
      exact hq.append hq₂
    · rw [hv₂, Parse.readFrom, Parse.readFrom, readFields_drop p.reading, intercalate_cons_cons]
      simp [Parse.add, Parse.next, hcheck, parityOf, BitVec.xor_assoc]

/-! ## The checksum -/

section CheckSum

variable {s : Gps} {hi lo : Char} (h0 : s.term.toList[0]? = some hi)
  (h1 : s.term.toList[1]? = some lo)

include h0 h1

theorem checkSum_fst :
    (checkSum s).1 = (decide (checksum hi lo = s.parity) && s.isGpsDataGood) := by
  have hhi : s.term[0] = hi := by simpa using h0
  have hlo : s.term[1] = lo := by simpa using h1
  rw [checkSum, hhi, hlo]
  split_ifs with h hg
  · simp [h, hg]
  · simp [hg]
  · simp [h]

theorem checkSum_published :
    (checkSum s).2.published =
      if checksum hi lo = s.parity ∧ s.isGpsDataGood then
        Fields.publish s.sentenceType s.new s.published
      else s.published := by
  have hhi : s.term[0] = hi := by simpa using h0
  have hlo : s.term[1] = lo := by simpa using h1
  rw [checkSum, hhi, hlo]
  split_ifs with h hg hboth hboth hboth
  · rfl
  · exact absurd ⟨h, hg⟩ hboth
  · exact absurd hboth.2 hg
  · rfl
  · exact absurd hboth.1 h
  · rfl

end CheckSum

/-- The character after the checksum. -/
theorem encodeChar_checksum {s : Gps} {hi lo : Char} {more : Text}
    (h : Holds s (hi :: lo :: more)) (hcheck : s.isChecksumTerm = true) {e : Char}
    (he : e = '\r' ∨ e = '\n' ∨ e = '*') :
    ∃ s', encodeChar s e =
        some (decide (checksum hi lo = s.parity) && s.isGpsDataGood, s') ∧
      s'.published =
        if checksum hi lo = s.parity ∧ s.isGpsDataGood then
          Fields.publish s.sentenceType s.new s.published
        else s.published := by
  obtain ⟨junk, hterm⟩ := h.terminate
  have h0 : (s.terminate h.bounded).term.toList[0]? = some hi := by rw [hterm]; rfl
  have h1 : (s.terminate h.bounded).term.toList[1]? = some lo := by rw [hterm]; rfl
  have hend : encodeChar s e = endTerm e s := by
    rcases he with rfl | rfl | rfl <;> simp [encodeChar]
  have hcomplete : gpsTermComplete (s.terminate h.bounded) =
      some (checkSum (s.terminate h.bounded)) := if_pos hcheck
  refine ⟨nextTerm e (checkSum (s.terminate h.bounded)).2, ?_, checkSum_published h0 h1⟩
  rw [hend, endTerm_eq h.bounded, hcomplete, Option.map_some, checkSum_fst h0 h1]
  rfl

/-- The address and the fields after it, and the star. -/
theorem feed_body {s : Gps} (hs : Holds s []) {p : Parse} (hp : s.view = p)
    (hcheck : p.checking = false) (hnumber : p.number = 0) {address : Text} {fields : List Text}
    (hlen : fields.length ≤ 31) (hplain : ∀ t ∈ address :: fields, ∀ c ∈ t, plain c) :
    ∃ s' n, Quiet s ([','].intercalate (address :: fields) ++ ['*']) s' ∧ Holds s' [] ∧
      s'.view =
        { p with
          type := addressOf (address.take 14),
          number := n,
          reading := readFields p.reading (layout (addressOf (address.take 14))) fields,
          parity := p.parity ^^^ parityOf ([','].intercalate (address :: fields)),
          checking := true } := by
  have htake : p.takeTerm (address.take 14) = { p with type := addressOf (address.take 14) } :=
    if_pos hnumber
  cases fields with
  | nil =>
    obtain ⟨s', hq, hh, hv⟩ := feed_term_star hs hp hcheck (hplain address (by simp))
    refine ⟨s', p.number + 1, by simpa using hq, hh, ?_⟩
    rw [hv, htake]
    simp [Parse.add, Parse.next, hcheck, readFields]
  | cons t ts =>
    obtain ⟨s₁, hq, hh, hv⟩ := feed_term_comma hs hp hcheck (hplain address (by simp))
    rw [htake] at hv
    have hnext : p.number + 1 = BitVec.ofNat 8 (0 + 1) := by rw [hnumber]; rfl
    obtain ⟨s₂, n, hq₂, hh₂, hv₂⟩ := feed_fields hh hv rfl hnext
      (by rw [List.length_cons] at hlen; omega) (fun v hv => hplain v (List.mem_cons_of_mem _ hv))
    refine ⟨s₂, n, ?_, hh₂, ?_⟩
    · rw [intercalate_cons_cons, List.append_assoc]
      exact hq.append hq₂
    · rw [hv₂, Parse.readFrom, List.drop_zero, intercalate_cons_cons]
      simp [Parse.add, Parse.next, hcheck, parityOf, BitVec.xor_assoc]

/-! ## Sentences -/

/-- A sentence with its checksum. -/
def sentence (address : Text) (fields : List Text) (sum : Text) : Text :=
  '$' :: ([','].intercalate (address :: fields) ++ '*' :: sum)

/-- What has been read at the end of a sentence. -/
def readSentence (r : Reading) (address : Text) (fields : List Text) : Reading :=
  readFields { r with good := false } (layout (addressOf (address.take 14))) fields

/-- A sentence and the character after it, from any state. -/
theorem feed_sentence (s : Gps) {address : Text} {fields : List Text} {hi lo : Char} {more : Text}
    {e : Char} (hplain : ∀ t ∈ address :: fields, ∀ c ∈ t, plain c) (hlen : fields.length ≤ 31)
    (hsum : ∀ c ∈ hi :: lo :: more, plain c) (he : e = '\r' ∨ e = '\n' ∨ e = '*') :
    ∃ s', feed s (sentence address fields (hi :: lo :: more) ++ [e]) =
        some (List.replicate (sentence address fields (hi :: lo :: more)).length false ++
          [decide (checksum hi lo = parityOf ([','].intercalate (address :: fields))) &&
            (readSentence s.reading address fields).good], s') ∧
      s'.published =
        if checksum hi lo = parityOf ([','].intercalate (address :: fields)) ∧
            (readSentence s.reading address fields).good then
          Fields.publish (addressOf (address.take 14)) (readSentence s.reading address fields).new
            s.published
        else s.published := by
  -- the `$`
  have hbegin : Quiet s ['$'] (beginSentence s.count) := .single (by simp [gpsEncode, encodeChar])
  obtain ⟨s₁, n, hq₁, hh₁, hv₁⟩ :=
    feed_body (s := beginSentence s.count) (holds_nil rfl) rfl rfl rfl
    hlen hplain
  obtain ⟨s₂, hq₂, hh₂, hv₂⟩ := feed_plain hh₁ hsum
  rw [hv₁] at hv₂
  have hquiet : Quiet s (sentence address fields (hi :: lo :: more)) s₂ := by
    simpa [sentence] using (hbegin.append hq₁).append hq₂
  have hcheck : s₂.count.isChecksumTerm = true := congrArg Parse.checking hv₂
  have hparity : s₂.count.parity = parityOf ([','].intercalate (address :: fields)) :=
    (congrArg Parse.parity hv₂).trans (BitVec.zero_xor ..)
  have htype : s₂.count.sentenceType = addressOf (address.take 14) := congrArg Parse.type hv₂
  have hreading : s₂.reading = readSentence s.reading address fields := congrArg Parse.reading hv₂
  have hgood : s₂.count.isGpsDataGood = (readSentence s.reading address fields).good :=
    congrArg Reading.good hreading
  have hnew : s₂.count.new = (readSentence s.reading address fields).new :=
    congrArg Reading.new hreading
  have hpublished : s₂.count.published = s.published := congrArg Parse.published hv₂
  obtain ⟨s₃, hs₃, hp₃⟩ := encodeChar_checksum hh₂.count hcheck he
  rw [hparity, hgood] at hs₃
  rw [hparity, hgood, htype, hnew, hpublished] at hp₃
  refine ⟨s₃, ?_, hp₃⟩
  rw [feed_append, hquiet, Option.bind_some, feed, gpsEncode, hs₃]
  rfl

/-! ## When a sentence is accepted -/

/-- The field with which the receiver says that its data are good. -/
def dataGood (type : SentenceType) (fields : List Text) : Bool :=
  match type with
  | .gprmc => (fields.getD 1 []).head? = some 'A'
  | .gpgga => (fields.getD 5 []).head?.any ('0' < ·)
  | .other => false

theorem readFields_cons (r : Reading) (i : Item) (items : List Item) (t : Text)
    (fields : List Text) :
    readFields r (i :: items) (t :: fields) =
      readFields (takeField r (t.take 14) (some i)) items fields := rfl

theorem readFields_append (r : Reading) (a b : List Item) (fields : List Text) :
    readFields r (a ++ b) fields = readFields (readFields r a fields) b (fields.drop a.length) := by
  induction a generalizing r fields with
  | nil => rfl
  | cons i a ih =>
    cases fields with
    | nil => simp [readFields]
    | cons t fields =>
      rw [List.cons_append, readFields_cons, readFields_cons, ih, List.length_cons,
        List.drop_succ_cons]

theorem takeField_good {i : Item} (hi : i ≠ .validity ∧ i ≠ .fixData) (r : Reading) (t : Text) :
    (takeField r t (some i)).good = r.good := by
  rw [takeField]
  split_ifs
  · rfl
  · cases i with
    | validity => exact absurd rfl hi.1
    | fixData => exact absurd rfl hi.2
    | northSouth | eastWest => rw [takeItem]; split_ifs <;> rfl
    | _ => rfl

/-- Only two uses of a field decide whether the data are good. -/
theorem readFields_good {items : List Item} (hi : ∀ i ∈ items, i ≠ .validity ∧ i ≠ .fixData)
    (r : Reading) (fields : List Text) : (readFields r items fields).good = r.good := by
  induction items generalizing r fields with
  | nil => rfl
  | cons i items ih =>
    cases fields with
    | nil => rfl
    | cons t fields =>
      rw [readFields_cons, ih fun j hj => hi j (List.mem_cons_of_mem _ hj),
        takeField_good (hi i List.mem_cons_self)]

/-- The deciding field stands behind and before fields that do not decide. -/
theorem readFields_good_of_split {a b : List Item} {i : Item}
    (ha : ∀ j ∈ a, j ≠ .validity ∧ j ≠ .fixData) (hb : ∀ j ∈ b, j ≠ .validity ∧ j ≠ .fixData)
    (r : Reading) (fields : List Text) :
    ∃ r' : Reading, r'.good = r.good ∧
      (readFields r (a ++ i :: b) fields).good =
        (takeField r' ((fields.getD a.length []).take 14) (some i)).good := by
  refine ⟨readFields r a fields, readFields_good ha r fields, ?_⟩
  rw [readFields_append]
  by_cases h : a.length < fields.length
  · rw [List.drop_eq_getElem_cons h, readFields_cons, readFields_good hb, List.getD_eq_getElem]
  · rw [List.drop_of_length_le (by omega), List.getD_eq_default _ _ (by omega)]
    rfl

/-- A field that is read as `f` where it is not empty, and says no where it is. -/
theorem takeField_good_of_flag {i : Item} {f : Text → Bool} (hnil : f [] = false)
    (hf : ∀ (r : Reading) (t : Text), (takeItem r t i).good = f t)
    (hcut : ∀ t : Text, f (t.take 14) = f t) {r : Reading} (hr : r.good = false) (t : Text) :
    (takeField r (t.take 14) (some i)).good = f t := by
  rw [takeField]
  split_ifs with h
  · rw [hr, ← hcut t, h, hnil]
  · rw [hf, hcut]

theorem head?_take_fourteen (t : Text) : (t.take 14).head? = t.head? := by
  cases t <;> rfl

theorem readSentence_good (r : Reading) (address : Text) (fields : List Text) :
    (readSentence r address fields).good = dataGood (addressOf (address.take 14)) fields := by
  unfold readSentence
  cases addressOf (address.take 14) with
  | gprmc =>
    obtain ⟨r', hr', h⟩ := readFields_good_of_split (a := [.time]) (i := .validity)
      (b := [.latitude, .northSouth, .longitude, .eastWest, .speed, .course, .date])
      (by decide) (by decide) { r with good := false } fields
    refine h.trans (takeField_good_of_flag (f := fun t => t.head? = some 'A') rfl (fun _ _ => rfl)
      (fun t => ?_) hr' _)
    rw [head?_take_fourteen]
  | gpgga =>
    obtain ⟨r', hr', h⟩ := readFields_good_of_split (i := .fixData)
      (a := [.time, .latitude, .northSouth, .longitude, .eastWest])
      (b := [.satellites, .hdop, .altitude])
      (by decide) (by decide) { r with good := false } fields
    refine h.trans (takeField_good_of_flag (f := fun t => t.head?.any ('0' < ·)) rfl
      (fun _ _ => rfl) (fun t => ?_) hr' _)
    rw [head?_take_fourteen]
  | other => rfl

end RpEcosystem.TinyGps
