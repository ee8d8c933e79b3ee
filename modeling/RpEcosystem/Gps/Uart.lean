import RpEcosystem.Gps.Location

/-!
# Reading lines from the serial port

`rp_UartReadln` stores what it receives until a newline comes. It has the length of the buffer and
does not use it.

* `uartReadln`: the loop, over what each `read` brings;
* `stored_le`, `uartReadln_eq_some`: how much is stored, and the line that is returned;
* `harmless_iff`: when a stream does no harm.
-/

namespace RpEcosystem.Gps

open CLib

/-- `rp_UartReadln` over the results of `read`, where `none` is one that brings nothing: the bytes
that are stored, and what is left of the stream once the function has returned. -/
def uartReadln (len : Nat) : List (Option Char) → Text × Option (List (Option Char))
  | [] => ([], none)
  | none :: stream => uartReadln len stream
  | some c :: stream =>
    if c = '\n' then (['\x00'], some stream)
    else
      let (stored, rest) := uartReadln len stream
      (c :: stored, rest)

/-- The bytes of a stream. -/
def received (stream : List (Option Char)) : Text := stream.filterMap id

/-- The line that a stream begins with. -/
def firstLine (stream : List (Option Char)) : Text := (received stream).takeWhile (· ≠ '\n')

/-- The stored bytes stay in the buffer, and a returned line is read to its end and no further. -/
def Harmless (len : Nat) (stream : List (Option Char)) : Prop :=
  (uartReadln len stream).1.length ≤ len ∧
    ∀ line rest, uartReadln len stream = (line ++ ['\x00'], some rest) →
      ∀ {ν : Type} (num : Doubles ν) (gpgga : Gpgga ν) (gprmc : Gprmc ν) (st : Collector ν),
        (turn num { line, gpgga, gprmc } st).isSome

/-! ## What is stored -/

@[simp] theorem received_nil : received [] = [] := rfl

@[simp] theorem received_none (stream : List (Option Char)) :
    received (none :: stream) = received stream := rfl

@[simp] theorem received_some (c : Char) (stream : List (Option Char)) :
    received (some c :: stream) = c :: received stream := rfl

theorem stored_le {len : Nat} {stream : List (Option Char)} (n : Nat) :
    (uartReadln len stream).1.length ≤ n ↔
      (received stream).length ≤ n ∨ '\n' ∈ (received stream).take n := by
  induction stream generalizing n with
  | nil => simp [uartReadln]
  | cons r stream ih =>
    cases r with
    | none => exact ih n
    | some c =>
      rw [uartReadln, received_some]
      cases n with
      | zero => split_ifs <;> simp
      | succ n =>
        split_ifs with hc
        · simp [hc]
        · simp [ih n, Ne.symm hc]

theorem firstLine_newline (stream : List (Option Char)) :
    firstLine (some '\n' :: stream) = [] := by
  rw [firstLine, received_some, List.takeWhile_cons_of_neg (by decide)]

theorem firstLine_some {c : Char} (hc : c ≠ '\n') (stream : List (Option Char)) :
    firstLine (some c :: stream) = c :: firstLine stream := by
  rw [firstLine, received_some, List.takeWhile_cons_of_pos (by simpa using hc), firstLine]

theorem uartReadln_some {c : Char} (hc : c ≠ '\n') (len : Nat) (stream : List (Option Char)) :
    uartReadln len (some c :: stream) =
      (c :: (uartReadln len stream).1, (uartReadln len stream).2) := by
  rw [uartReadln, if_neg hc]

/-- With a newline the line before it is returned. -/
theorem uartReadln_returns (len : Nat) {stream : List (Option Char)}
    (h : '\n' ∈ received stream) :
    ∃ rest, uartReadln len stream = (firstLine stream ++ ['\x00'], some rest) := by
  induction stream with
  | nil => cases h
  | cons r stream ih =>
    cases r with
    | none => exact ih h
    | some c =>
      by_cases hc : c = '\n'
      · subst hc
        exact ⟨stream, by rw [uartReadln, if_pos rfl, firstLine_newline, List.nil_append]⟩
      · rw [received_some, List.mem_cons, or_iff_right (Ne.symm hc)] at h
        obtain ⟨rest, hrest⟩ := ih h
        exact ⟨rest, by rw [uartReadln_some hc, hrest, firstLine_some hc, List.cons_append]⟩

/-- Without a newline the function goes on waiting. -/
theorem uartReadln_waits (len : Nat) {stream : List (Option Char)}
    (h : '\n' ∉ received stream) : (uartReadln len stream).2 = none := by
  induction stream with
  | nil => rfl
  | cons r stream ih =>
    cases r with
    | none => exact ih h
    | some c =>
      rw [received_some, List.mem_cons, not_or] at h
      rw [uartReadln_some (Ne.symm h.1), ih h.2]

/-! ## Streams that do no harm -/

/-- An accepted sentence: its checksum is right and it has one of the two addresses. -/
def Accepted (line : Text) : Prop :=
  validChecksum line = some true ∧
    ((strstr "$GPGGA".toList (cstr line)).isSome ∨ (strstr "$GPRMC".toList (cstr line)).isSome)

theorem accepted_iff {line : Text} :
    Accepted line ↔ getMessageType line = some .gpgga ∨ getMessageType line = some .gprmc := by
  rw [Accepted, getMessageType]
  generalize (strstr "$GPGGA".toList (cstr line)).isSome = gpgga
  generalize (strstr "$GPRMC".toList (cstr line)).isSome = gprmc
  cases validChecksum line with
  | none => simp
  | some valid =>
    revert valid gpgga gprmc
    decide

/-- What the loop needs of a stream. -/
theorem harmless_iff_readable (len : Nat) (stream : List (Option Char)) :
    Harmless len stream ↔
      ((received stream).length ≤ len ∨ '\n' ∈ (received stream).take len) ∧
        ('\n' ∈ received stream → Readable (firstLine stream)) := by
  rw [Harmless, stored_le]
  refine and_congr_right fun _ => ⟨?_, ?_⟩
  · intro h hnewline
    obtain ⟨rest, hreturns⟩ := uartReadln_returns len hnewline
    -- the numbers play no part in what is read
    let num : Doubles Unit := ⟨fun _ => (), fun _ => (), fun _ => 0, fun _ _ => (), fun _ _ => (),
      fun _ _ => (), fun _ _ => (), fun _ => ((), ()), fun _ => ()⟩
    exact (turn_isSome num _).mp (h _ rest hreturns num ⟨(), (), 'N', (), 'E', 0, 0, ()⟩
      ⟨(), (), 'N', (), 'E', (), (), ()⟩ ⟨0, (), (), (), (), (), (), (), ()⟩)
  · intro h line rest hreturns ν num gpgga gprmc st
    have hnewline : '\n' ∈ received stream := by
      by_contra hnot
      have hwaits := uartReadln_waits len hnot
      rw [hreturns] at hwaits
      cases hwaits
    obtain ⟨rest', hreturns'⟩ := uartReadln_returns len hnewline
    rw [hreturns, Prod.mk.injEq, List.append_left_inj] at hreturns'
    rw [turn_isSome, hreturns'.1]
    exact h hnewline

/-- The bytes up to the first newline fit into the buffer; the line has a `*` before any NUL and one
after its first character; and an accepted sentence has nine commas. -/
theorem harmless_iff (len : Nat) (stream : List (Option Char)) :
    Harmless len stream ↔
      ((received stream).length ≤ len ∨ '\n' ∈ (received stream).take len) ∧
        ('\n' ∈ received stream →
          '*' ∈ cstr (firstLine stream) ∧ '*' ∈ (firstLine stream).tail ∧
            (Accepted (firstLine stream) → 9 ≤ (cstr (firstLine stream)).count ',')) := by
  rw [harmless_iff_readable, Readable, accepted_iff]

/-- A line of noise has no checksum mark, an accepted sentence may be cut short, and noise without a
newline fills any buffer. -/
theorem noise_harms :
    ¬ Harmless 256 ("noise\n".toList.map some) ∧
      ¬ Harmless 256 ("$GPGGA,*7A\n".toList.map some) ∧
      ¬ Harmless 256 (List.replicate 257 (some 'U')) := by
  refine ⟨?_, ?_, ?_⟩
  · intro h
    have hread := ((harmless_iff_readable _ _).mp h).2 (by decide)
    exact absurd hread.1 (by decide)
  · intro h
    have hread := ((harmless_iff_readable _ _).mp h).2 (by decide)
    exact absurd (hread.2.2 (.inl (by decide))) (by decide)
  · intro h
    have hbytes : received (List.replicate 257 (some 'U')) = List.replicate 257 'U' :=
      List.filterMap_replicate_of_some rfl
    have hfits := ((harmless_iff_readable _ _).mp h).1
    rw [hbytes, List.length_replicate] at hfits
    rcases hfits with hlen | hnewline
    · omega
    · exact absurd (List.eq_of_mem_replicate (List.mem_of_mem_take hnewline)) (by decide)

end RpEcosystem.Gps
