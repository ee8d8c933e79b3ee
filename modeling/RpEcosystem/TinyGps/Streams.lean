import RpEcosystem.TinyGps.Terms

/-!
# Streams of characters

* `feed_isSome`, `buffer_never_left`: no stream makes the reader leave its buffer;
* `feed_accounted`: what the statistics count, and when the values that a caller sees change.
-/

namespace RpEcosystem.TinyGps

open CLib

/-! ## Every stream -/

/-- There is room for a NUL after what has been collected. -/
def Gps.Bounded (s : Gps) : Prop := s.termOffset.toNat ≤ 14

theorem store_eq {s : Gps} {i : Nat} (h : i < 15) (c : Char) :
    s.store i c = some { s with term := s.term.set i c h } := dif_pos h

theorem toList_store {s : Gps} {i : Nat} (h : i < 15) (c : Char) :
    (s.term.set i c h).toList = s.term.toList.take i ++ c :: s.term.toList.drop (i + 1) := by
  rw [Vector.toList_set, List.set_eq_take_append_cons_drop, if_pos (by simpa using h)]

/-- The buffer once the term is terminated. -/
def Gps.terminate (s : Gps) (h : s.Bounded) : Gps :=
  { s with term := s.term.set s.termOffset.toNat '\x00' (Nat.lt_succ_of_le h) }

theorem endTerm_eq {s : Gps} (h : s.Bounded) (c : Char) :
    endTerm c s = (gpsTermComplete (s.terminate h)).map fun r => (r.1, nextTerm c r.2) := by
  have hlt : s.termOffset < 15 := BitVec.lt_def.mpr (Nat.lt_succ_of_le h)
  rw [endTerm, if_pos hlt, store_eq (Nat.lt_succ_of_le h), Option.bind_some, Gps.terminate]

theorem mem_terminate {s : Gps} (h : s.Bounded) : '\x00' ∈ (s.terminate h).term.toList := by
  rw [Gps.terminate, toList_store]
  exact List.mem_append_right _ List.mem_cons_self

theorem gpsTermComplete_isSome {s : Gps} (h : '\x00' ∈ s.term.toList) :
    ∃ b s', gpsTermComplete s = some (b, s') := by
  cases hcheck : s.isChecksumTerm with
  | true => exact ⟨_, _, by rw [gpsTermComplete, if_pos hcheck]⟩
  | false =>
    obtain ⟨t, junk, hterm, ht⟩ := List.eq_append_cons_of_mem h
    exact ⟨_, _, gpsTermComplete_string ht hterm hcheck⟩

theorem endTerm_isSome {s : Gps} (h : s.Bounded) (c : Char) :
    ∃ b s', endTerm c s = some (b, s') ∧ s'.Bounded := by
  obtain ⟨b, s', hs'⟩ := gpsTermComplete_isSome (mem_terminate h)
  exact ⟨b, nextTerm c s', by rw [endTerm_eq h, hs']; rfl, Nat.zero_le 14⟩

/-- A character that goes into the buffer, where there is room for it. -/
def Gps.append (s : Gps) (c : Char) : Gps :=
  if h : s.termOffset.toNat < 14 then
    { s with
      term := s.term.set s.termOffset.toNat c (by omega), termOffset := s.termOffset + 1 }
  else s

theorem collect_eq (s : Gps) (c : Char) : collect c s = some (addParity c (s.append c)) := by
  unfold collect Gps.append
  by_cases h : s.termOffset.toNat < 14
  · rw [if_pos (BitVec.lt_def.mpr h), store_eq (by omega), dif_pos h, Option.map_some,
      Option.map_some]
  · rw [if_neg (mt BitVec.lt_def.mp h), dif_neg h, Option.map_some]

theorem append_bounded {s : Gps} (h : s.Bounded) (c : Char) : (s.append c).Bounded := by
  unfold Gps.append
  split_ifs with hlt
  · have : (s.termOffset + 1).toNat = s.termOffset.toNat + 1 := by
      rw [BitVec.toNat_add]
      exact Nat.mod_eq_of_lt (by change s.termOffset.toNat + 1 < 256; omega)
    change (s.termOffset + 1).toNat ≤ 14
    omega
  · exact h

theorem addParity_bounded {s : Gps} (h : s.Bounded) (c : Char) : (addParity c s).Bounded := by
  unfold addParity
  split_ifs <;> exact h

theorem encodeChar_isSome {s : Gps} (h : s.Bounded) (c : Char) :
    ∃ b s', encodeChar s c = some (b, s') ∧ s'.Bounded := by
  unfold encodeChar
  split_ifs
  · exact endTerm_isSome (s := { s with parity := s.parity ^^^ byte c }) h c
  · exact endTerm_isSome h c
  · exact ⟨false, _, rfl, Nat.zero_le 14⟩
  · exact ⟨false, _, by rw [collect_eq]; rfl, addParity_bounded (append_bounded h c) c⟩

/-- No stream makes the reader leave its buffer, and it answers every character. -/
theorem feed_isSome (stream : Text) {s : Gps} (h : s.Bounded) :
    ∃ answers s', feed s stream = some (answers, s') ∧ s'.Bounded ∧
      answers.length = stream.length := by
  induction stream generalizing s with
  | nil => exact ⟨[], s, rfl, h, rfl⟩
  | cons c stream ih =>
    obtain ⟨b, s₁, hs₁, h₁⟩ := encodeChar_isSome (s := s.count) h c
    obtain ⟨answers, s₂, hs₂, h₂, hlen⟩ := ih h₁
    refine ⟨b :: answers, s₂, ?_, h₂, by simp [hlen]⟩
    rw [feed, gpsEncode, hs₁]
    simp [hs₂]

/-- From its first character on, the reader stays inside its buffer, whatever it is sent. -/
theorem buffer_never_left (clock : Nat → BitVec 32) (stream : Text) :
    ∃ answers s, feed (initial clock) stream = some (answers, s) ∧
      answers.length = stream.length ∧ s.termOffset.toNat ≤ 14 := by
  obtain ⟨answers, s, hs, hbounded, hlen⟩ :=
    feed_isSome stream (s := initial clock) (Nat.zero_le 14)
  exact ⟨answers, s, hs, hlen, hbounded⟩

/-! ## What a caller sees -/

/-- What has happened between two states, when the answer was `b`. -/
structure Accounted (b : Bool) (s s' : Gps) : Prop where
  good : s'.goodSentences = s.goodSentences + BitVec.ofNat 16 b.toNat
  characters : s'.encodedCharacters = s.encodedCharacters
  published : b = false → s'.published = s.published

theorem Accounted.of_eq {s s' : Gps} (hg : s'.goodSentences = s.goodSentences)
    (hc : s'.encodedCharacters = s.encodedCharacters) (hp : s'.published = s.published) :
    Accounted false s s' :=
  ⟨by simp [hg], hc, fun _ => hp⟩

theorem accounted_readItem {s s' : Gps} {term : Text} {i : Item}
    (h : readItem s term i = some s') : Accounted false s s' := by
  cases i <;>
    simp only [readItem, Gps.uptime, Option.bind_eq_bind, Option.bind_eq_some_iff,
      Option.pure_def, Option.some.injEq] at h <;>
    obtain ⟨_, _, rfl⟩ := h
  case northSouth => split_ifs <;> exact .of_eq rfl rfl rfl
  case eastWest => split_ifs <;> exact .of_eq rfl rfl rfl
  all_goals exact .of_eq rfl rfl rfl

theorem accounted_checkSum (s : Gps) : Accounted (checkSum s).1 s (checkSum s).2 := by
  unfold checkSum
  split_ifs
  · exact ⟨rfl, rfl, fun h => Bool.noConfusion h⟩
  · exact .of_eq rfl rfl rfl
  · exact .of_eq rfl rfl rfl

theorem accounted_termComplete {s s' : Gps} {b : Bool}
    (h : gpsTermComplete s = some (b, s')) : Accounted b s s' := by
  unfold gpsTermComplete at h
  split_ifs at h
  · have hcheck := accounted_checkSum s
    rw [Option.some.inj h] at hcheck
    exact hcheck
  · obtain ⟨type, -, heq⟩ := Option.map_eq_some_iff.mp h
    cases heq
    exact .of_eq rfl rfl rfl
  · split at h
    next => cases h; exact .of_eq rfl rfl rfl
    next i _ =>
      obtain ⟨s₁, hs₁, heq⟩ := Option.map_eq_some_iff.mp h
      cases heq
      exact accounted_readItem hs₁
  · cases h
    exact .of_eq rfl rfl rfl

theorem accounted_endTerm {s s' : Gps} {b : Bool} {c : Char} (h : endTerm c s = some (b, s')) :
    Accounted b s s' := by
  obtain ⟨⟨b₁, s₁⟩, hs₁, heq⟩ := Option.map_eq_some_iff.mp h
  cases heq
  split_ifs at hs₁
  · obtain ⟨s₀, hs₀, hcomplete⟩ := Option.bind_eq_some_iff.mp hs₁
    unfold Gps.store at hs₀
    split_ifs at hs₀
    cases hs₀
    have h₁ := accounted_termComplete hcomplete
    exact ⟨h₁.good, h₁.characters, h₁.published⟩
  · cases hs₁
    exact .of_eq rfl rfl rfl

theorem accounted_collect {s s' : Gps} {c : Char} (h : collect c s = some s') :
    Accounted false s s' := by
  rw [collect_eq] at h
  cases h
  unfold addParity Gps.append
  split_ifs <;> exact .of_eq rfl rfl rfl

theorem accounted_encodeChar {s s' : Gps} {b : Bool} {c : Char}
    (h : encodeChar s c = some (b, s')) : Accounted b s s' := by
  unfold encodeChar at h
  split_ifs at h
  · have h₁ := accounted_endTerm h
    exact ⟨h₁.good, h₁.characters, h₁.published⟩
  · exact accounted_endTerm h
  · cases h
    exact .of_eq rfl rfl rfl
  · obtain ⟨s₁, hs₁, heq⟩ := Option.map_eq_some_iff.mp h
    cases heq
    exact accounted_collect hs₁

/-- The statistics count the characters and the accepted sentences, and nothing is published
between two sentences that are accepted. -/
theorem feed_accounted {s s' : Gps} {stream : Text} {answers : List Bool}
    (h : feed s stream = some (answers, s')) :
    s'.encodedCharacters = s.encodedCharacters + BitVec.ofNat 32 stream.length ∧
      s'.goodSentences = s.goodSentences + BitVec.ofNat 16 (answers.count true) ∧
      (true ∉ answers → s'.published = s.published) := by
  induction stream generalizing s answers with
  | nil =>
    cases h
    simp
  | cons c stream ih =>
    obtain ⟨⟨b, s₁⟩, hs₁, hrest⟩ := Option.bind_eq_some_iff.mp h
    obtain ⟨⟨rest, s₂⟩, hs₂, heq⟩ := Option.bind_eq_some_iff.mp hrest
    cases heq
    have hstep := accounted_encodeChar hs₁
    obtain ⟨hchars, hgood, hpub⟩ := ih hs₂
    refine ⟨?_, ?_, ?_⟩
    · rw [hchars, hstep.characters, List.length_cons, Nat.add_comm, BitVec.ofNat_add,
        ← BitVec.add_assoc]
      rfl
    · rw [hgood, hstep.good, BitVec.add_assoc, ← BitVec.ofNat_add, List.count_cons, Nat.add_comm]
      cases b <;> rfl
    · intro hquiet
      rw [List.mem_cons, not_or] at hquiet
      have hb : b = false := by simpa using hquiet.1
      exact (hpub hquiet.2).trans (hstep.published hb)

/-- The beginning of a sentence: its characters are counted and nothing else. -/
theorem feed_accounted_header :
    ∃ answers s, feed (initial fun _ => 0) "$GPRMC,".toList = some (answers, s) ∧
      s.encodedCharacters = 7 := by
  obtain ⟨answers, s, hs, -, -⟩ :=
    feed_isSome "$GPRMC,".toList (s := initial fun _ => 0) (Nat.zero_le 14)
  refine ⟨answers, s, hs, ?_⟩
  rw [(feed_accounted hs).1]
  decide

end RpEcosystem.TinyGps
