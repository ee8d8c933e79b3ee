import RpEcosystem.Bitstream.Devcfg

/-!
# From bit files to bin files

`fpga-bit-to-bin` takes the configuration data out of a bit file: a fixed header, a design name,
any number of fields with a one-byte key, and the data behind the key `e`. It prints what it finds
and stops with an exception at a file that it does not understand.

* `bitToBin`: the script on the bytes of a file;
* `Bitfile`, `Bitfile.render`: the files it is made for;
* `bitToBin_render`, `exists_bitfile`: these files are read back, and only they are accepted;
* `bitToBin_ok_iff`: both together.
-/

namespace RpEcosystem.Bitstream

/-! ## The script -/

/-- The exceptions: those of the script, and `struct.error` where there are too few bytes. -/
inductive Failure
  | missingHeader (l : Nat)
  | missingA
  | unexpectedEof
  | structError
  deriving DecidableEq, Repr

def Failure.text : Failure → String
  | .missingHeader l =>
    "Missing <0009> header (0x" ++ String.ofList (Nat.toDigits 16 l) ++ "), not a bit file"
  | .missingA => "Missing <a> header, not a bit file"
  | .unexpectedEof => "unexpected EOF"
  | .structError => "struct.error"

/-- What is printed. -/
inductive Line
  | text (label : String) (d : List Byte)
  | number (label : String) (n : Nat)
  deriving DecidableEq, Repr

def readShort : List Byte → Option (Nat × List Byte)
  | a :: b :: f => some ((a ++ b).toNat, f)
  | _ => none

def readUlong : List Byte → Option (Nat × List Byte)
  | a :: b :: c :: d :: f => some ((a ++ b ++ c ++ d).toNat, f)
  | _ => none

/-- A length and as many bytes, or what there is of them. -/
def readField (f : List Byte) : Option (List Byte × List Byte) :=
  (readShort f).map fun (l, f) => (f.take l, f.drop l)

def packBig (v : BitVec 32) : List Byte :=
  [v.extractLsb' 24 8, v.extractLsb' 16 8, v.extractLsb' 8 8, v.extractLsb' 0 8]

def flip32 : List Byte → Except Failure (List Byte)
  | [] => .ok []
  | a :: b :: c :: d :: rest => (flip32 rest).map (packBig (loadWord a b c d) ++ ·)
  | _ => .error .structError

/-- `KEYNAMES` -/
def keyName (k : Byte) : Option String :=
  if k = 0x62 then some "Partname" else if k = 0x63 then some "Date"
  else if k = 0x64 then some "Time" else none

theorem readShort_length {f f' : List Byte} {l : Nat} (h : readShort f = some (l, f')) :
    f'.length < f.length := by
  unfold readShort at h
  split at h
  · cases h
    simp only [List.length_cons]
    omega
  · cases h

theorem readField_length {f d f' : List Byte} (h : readField f = some (d, f')) :
    f'.length < f.length := by
  obtain ⟨⟨l, f₁⟩, hshort, heq⟩ := Option.map_eq_some_iff.mp h
  cases heq
  have := readShort_length hshort
  rw [List.length_drop]
  omega

/-- `while 1:` -/
def readKeys (flip : Bool) : List Byte → List Line × Except Failure (List Byte)
  | [] => ([], .error .unexpectedEof)
  | k :: f =>
    if k = 0x65 then
      match readUlong f with
      | none => ([], .error .structError)
      | some (l, f) =>
        ([.number "found binary data:" l], if flip then flip32 (f.take l) else .ok (f.take l))
    else
      match h : readField f with
      | none =>
        (if (keyName k).isSome then [] else [.text "Unexpected key: " [k]], .error .structError)
      | some (d, f') =>
        have : f'.length < f.length := readField_length h
        let rest := readKeys flip f'
        ((match keyName k with
          | some name => .text name d
          | none => .text "Unexpected key: " [k]) :: rest.1, rest.2)
  termination_by f => f.length

def bitToBin (flip : Bool) (f : List Byte) : List Line × Except Failure (List Byte) :=
  match readShort f with
  | none => ([], .error .structError)
  | some (l, f) =>
    if l ≠ 9 then ([], .error (.missingHeader l))
    else
      match readField (f.drop l) with
      | none => ([], .error .structError)
      | some (d, f) =>
        if d ≠ [0x61] then ([], .error .missingA)
        else
          match readField f with
          | none => ([], .error .structError)
          | some (d, f) =>
            (.text "Design name:" d :: (readKeys flip f).1, (readKeys flip f).2)

/-! ## Files -/

def short (n : Nat) : List Byte := [BitVec.ofNat 8 (n / 256), BitVec.ofNat 8 n]

def ulong (n : Nat) : List Byte := short (n / 65536) ++ short n

/-- A bit file; `rest` is what is behind the length of its data. -/
structure Bitfile where
  preamble : List Byte
  design : List Byte
  keys : List (Byte × List Byte)
  length : Nat
  rest : List Byte
  preamble_length : preamble.length = 9
  design_lt : design.length < 2 ^ 16
  keys_ok : ∀ p ∈ keys, p.1 ≠ 0x65 ∧ p.2.length < 2 ^ 16
  length_lt : length < 2 ^ 32

namespace Bitfile

variable (b : Bitfile)

def renderKeys (keys : List (Byte × List Byte)) : List Byte :=
  keys.flatMap fun p => p.1 :: (short p.2.length ++ p.2)

/-- Everything before the data. -/
def head : List Byte :=
  short 9 ++ b.preamble ++ short 1 ++ [0x61] ++ short b.design.length ++ b.design ++
    renderKeys b.keys ++ 0x65 :: ulong b.length

def render : List Byte := b.head ++ b.rest

/-- The data, or what there is of them. -/
def payload : List Byte := b.rest.take b.length

def keyLine (p : Byte × List Byte) : Line :=
  match keyName p.1 with
  | some name => .text name p.2
  | none => .text "Unexpected key: " [p.1]

def lines : List Line :=
  .text "Design name:" b.design :: b.keys.map keyLine ++ [.number "found binary data:" b.length]

end Bitfile

/-! ## Numbers -/

theorem toNat_push {n : Nat} (x : BitVec n) (b : Byte) :
    (x ++ b).toNat = x.toNat * 256 + b.toNat := by
  rw [BitVec.toNat_append, ← Nat.shiftLeft_add_eq_or_of_lt b.isLt, Nat.shiftLeft_eq]

theorem readShort_short {n : Nat} (h : n < 2 ^ 16) (f : List Byte) :
    readShort (short n ++ f) = some (n, f) := by
  have hvalue : (BitVec.ofNat 8 (n / 256) ++ BitVec.ofNat 8 n).toNat = n := by
    rw [toNat_push, BitVec.toNat_ofNat, BitVec.toNat_ofNat]
    omega
  change some ((BitVec.ofNat 8 (n / 256) ++ BitVec.ofNat 8 n).toNat, f) = some (n, f)
  rw [hvalue]

theorem short_toNat (a b : Byte) : short (a ++ b).toNat = [a, b] := by
  have ha : a.toNat < 256 := a.isLt
  have hb : b.toNat < 256 := b.isLt
  have hhigh : BitVec.ofNat 8 ((a ++ b).toNat / 256) = a := by
    apply BitVec.eq_of_toNat_eq
    rw [BitVec.toNat_ofNat, toNat_push]
    omega
  have hlow : BitVec.ofNat 8 (a ++ b).toNat = b := by
    apply BitVec.eq_of_toNat_eq
    rw [BitVec.toNat_ofNat, toNat_push]
    omega
  rw [short, hhigh, hlow]

theorem readUlong_ulong {n : Nat} (h : n < 2 ^ 32) (f : List Byte) :
    readUlong (ulong n ++ f) = some (n, f) := by
  have hvalue : (BitVec.ofNat 8 (n / 65536 / 256) ++ BitVec.ofNat 8 (n / 65536) ++
      BitVec.ofNat 8 (n / 256) ++ BitVec.ofNat 8 n).toNat = n := by
    rw [toNat_push, toNat_push, toNat_push]
    simp only [BitVec.toNat_ofNat]
    omega
  change some ((BitVec.ofNat 8 (n / 65536 / 256) ++ BitVec.ofNat 8 (n / 65536) ++
    BitVec.ofNat 8 (n / 256) ++ BitVec.ofNat 8 n).toNat, f) = some (n, f)
  rw [hvalue]

theorem ulong_toNat (a b c d : Byte) : ulong (a ++ b ++ c ++ d).toNat = [a, b, c, d] := by
  have hb : b.toNat < 256 := b.isLt
  have hc : c.toNat < 256 := c.isLt
  have hd : d.toNat < 256 := d.isLt
  have hhigh : (a ++ b ++ c ++ d).toNat / 65536 = (a ++ b).toNat := by
    rw [toNat_push, toNat_push]
    omega
  have hlow : short (a ++ b ++ c ++ d).toNat = [c, d] := by
    have hmod : short (a ++ b ++ c ++ d).toNat = short (c ++ d).toNat := by
      have hsum : (a ++ b ++ c ++ d).toNat = (a ++ b).toNat * 65536 + (c ++ d).toNat := by
        rw [toNat_push, toNat_push, toNat_push c]
        omega
      rw [short, short, hsum]
      congr 1
      · apply BitVec.eq_of_toNat_eq
        rw [BitVec.toNat_ofNat, BitVec.toNat_ofNat]
        omega
      · congr 1
        apply BitVec.eq_of_toNat_eq
        rw [BitVec.toNat_ofNat, BitVec.toNat_ofNat]
        omega
    rw [hmod, short_toNat]
  rw [ulong, hhigh, hlow, short_toNat]
  rfl

theorem readShort_some {f f' : List Byte} {l : Nat} (h : readShort f = some (l, f')) :
    f = short l ++ f' ∧ l < 2 ^ 16 := by
  unfold readShort at h
  split at h
  next a b f₁ =>
    cases h
    exact ⟨by rw [short_toNat]; rfl, (a ++ b).isLt⟩
  next => cases h

theorem readUlong_some {f f' : List Byte} {l : Nat} (h : readUlong f = some (l, f')) :
    f = ulong l ++ f' ∧ l < 2 ^ 32 := by
  unfold readUlong at h
  split at h
  next a b c d f₁ =>
    cases h
    exact ⟨by rw [ulong_toNat]; rfl, (a ++ b ++ c ++ d).isLt⟩
  next => cases h

/-! ## Fields -/

theorem readField_render {d : List Byte} (h : d.length < 2 ^ 16) (f : List Byte) :
    readField (short d.length ++ (d ++ f)) = some (d, f) := by
  rw [readField, readShort_short h, Option.map_some]
  simp only [List.take_left, List.drop_left]

/-- A field with something behind it is a whole one. -/
theorem readField_some {f d f' : List Byte} (h : readField f = some (d, f')) (hne : f' ≠ []) :
    f = short d.length ++ (d ++ f') ∧ d.length < 2 ^ 16 := by
  obtain ⟨⟨l, f₁⟩, hshort, heq⟩ := Option.map_eq_some_iff.mp h
  obtain ⟨hf, hl⟩ := readShort_some hshort
  cases heq
  have hlt : l < f₁.length := by
    by_contra hge
    exact hne (List.drop_eq_nil_of_le (by omega))
  have hlen : (f₁.take l).length = l := by
    rw [List.length_take]
    omega
  refine ⟨?_, by omega⟩
  rw [hlen, List.take_append_drop]
  exact hf

/-! ## Flipped words -/

theorem packBig_loadWord (a b c d : Byte) : packBig (loadWord a b c d) = [d, c, b, a] := by
  obtain ⟨h0, h1, h2, h3⟩ := loadWord_bytes a b c d
  rw [packBig, h0, h1, h2, h3]

/-- The script turns words round as the driver does, and stops at a part of a word. -/
theorem flip32_eq (l : List Byte) :
    flip32 l = if 4 ∣ l.length then .ok (swabWords l) else .error .structError := by
  induction l using flip32.induct with
  | case1 => rfl
  | case2 a b c d rest ih =>
    have hlen : 4 ∣ (a :: b :: c :: d :: rest).length ↔ 4 ∣ rest.length := by
      simp only [List.length_cons]
      omega
    rw [flip32, ih, packBig_loadWord, swabWords_cons]
    by_cases h : 4 ∣ rest.length
    · rw [if_pos h, if_pos (hlen.mpr h)]
      rfl
    · rw [if_neg h, if_neg (mt hlen.mp h)]
      rfl
  | case3 l hnil hcons =>
    have hno : ¬ 4 ∣ l.length := by
      rcases l with - | ⟨w, - | ⟨x, - | ⟨y, - | ⟨z, rest⟩⟩⟩⟩
      · exact absurd rfl hnil
      · exact fun h => absurd (Nat.le_of_dvd (Nat.zero_lt_succ _) h) (by simp)
      · exact fun h => absurd (Nat.le_of_dvd (Nat.zero_lt_succ _) h) (by simp)
      · exact fun h => absurd (Nat.le_of_dvd (Nat.zero_lt_succ _) h) (by simp)
      · exact absurd rfl (hcons w x y z rest)
    rw [if_neg hno, flip32]
    · exact hnil
    · exact hcons

/-! ## Keys -/

theorem readKeys_key {k : Byte} (hk : k ≠ 0x65) {f d f' : List Byte}
    (h : readField f = some (d, f')) (flip : Bool) :
    readKeys flip (k :: f) =
      (Bitfile.keyLine (k, d) :: (readKeys flip f').1, (readKeys flip f').2) := by
  rw [readKeys, if_neg hk]
  split
  next hnone => simp [h] at hnone
  next d₁ f₁ hsome =>
    rw [h] at hsome
    cases hsome
    rfl

theorem readKeys_data {l : Nat} (hl : l < 2 ^ 32) (rest : List Byte) (flip : Bool) :
    readKeys flip (0x65 :: (ulong l ++ rest)) =
      ([.number "found binary data:" l],
        if flip then flip32 (rest.take l) else .ok (rest.take l)) := by
  rw [readKeys, if_pos rfl, readUlong_ulong hl]

theorem readKeys_render {keys : List (Byte × List Byte)}
    (hkeys : ∀ p ∈ keys, p.1 ≠ 0x65 ∧ p.2.length < 2 ^ 16) {l : Nat} (hl : l < 2 ^ 32)
    (rest : List Byte) (flip : Bool) :
    readKeys flip (Bitfile.renderKeys keys ++ 0x65 :: (ulong l ++ rest)) =
      (keys.map Bitfile.keyLine ++ [.number "found binary data:" l],
        if flip then flip32 (rest.take l) else .ok (rest.take l)) := by
  induction keys with
  | nil => exact readKeys_data hl rest flip
  | cons p keys ih =>
    obtain ⟨hk, hlen⟩ := hkeys p List.mem_cons_self
    have htail := ih fun q hq => hkeys q (List.mem_cons_of_mem p hq)
    have hsplit : Bitfile.renderKeys (p :: keys) ++ 0x65 :: (ulong l ++ rest) =
        p.1 :: (short p.2.length ++
          (p.2 ++ (Bitfile.renderKeys keys ++ 0x65 :: (ulong l ++ rest)))) := by
      simp [Bitfile.renderKeys]
    rw [hsplit, readKeys_key hk (readField_render hlen _), htail]
    rfl

/-- What is accepted has keys and data. -/
theorem readKeys_some {flip : Bool} {f : List Byte} {ls : List Line} {d : List Byte}
    (h : readKeys flip f = (ls, .ok d)) :
    ∃ keys l rest, (∀ p ∈ keys, p.1 ≠ 0x65 ∧ p.2.length < 2 ^ 16) ∧ l < 2 ^ 32 ∧
      f = Bitfile.renderKeys keys ++ 0x65 :: (ulong l ++ rest) := by
  induction hn : f.length using Nat.strongRecOn generalizing f ls with
  | ind n ih =>
    cases f with
    | nil =>
      rw [readKeys] at h
      cases h
    | cons k f =>
      by_cases hk : k = 0x65
      · subst hk
        cases hread : readUlong f with
        | none =>
          rw [readKeys, if_pos rfl, hread] at h
          cases h
        | some q =>
          obtain ⟨l, rest⟩ := q
          obtain ⟨hf, hl⟩ := readUlong_some hread
          exact ⟨[], l, rest, by simp, hl, by rw [hf]; rfl⟩
      · cases hread : readField f with
        | none =>
          rw [readKeys, if_neg hk] at h
          split at h
          next => cases h
          next hsome => simp [hread] at hsome
        | some q =>
          obtain ⟨d₁, f₁⟩ := q
          have hkey := readKeys_key hk hread flip
          rw [h] at hkey
          have hrest : readKeys flip f₁ = ((readKeys flip f₁).1, .ok d) :=
            Prod.ext rfl (congrArg Prod.snd hkey).symm
          have hne : f₁ ≠ [] := by
            intro hnil
            rw [hnil, readKeys] at hrest
            cases hrest
          obtain ⟨hf, hlen⟩ := readField_some hread hne
          have hlt : f₁.length < n := by
            have := readField_length hread
            rw [List.length_cons] at hn
            omega
          obtain ⟨keys, l, rest, hkeys, hl, hf₁⟩ := ih f₁.length hlt hrest rfl
          refine ⟨(k, d₁) :: keys, l, rest, ?_, hl, ?_⟩
          · exact List.forall_mem_cons.mpr ⟨⟨hk, hlen⟩, hkeys⟩
          · rw [hf, hf₁]
            simp [Bitfile.renderKeys]

/-! ## Whole files -/

theorem bitToBin_render (b : Bitfile) (flip : Bool) :
    bitToBin flip b.render =
      (b.lines, if flip then flip32 b.payload else .ok b.payload) := by
  have hsplit : b.render = short 9 ++ (b.preamble ++ (short [(0x61 : Byte)].length ++ ([0x61] ++
      (short b.design.length ++ (b.design ++
        (Bitfile.renderKeys b.keys ++ 0x65 :: (ulong b.length ++ b.rest))))))) := by
    simp [Bitfile.render, Bitfile.head]
  have hdrop : ∀ f, (b.preamble ++ f).drop 9 = f := fun f => by
    rw [← b.preamble_length, List.drop_left]
  rw [hsplit, bitToBin, readShort_short (by decide)]
  simp only [ne_eq, not_true_eq_false, if_false, hdrop]
  rw [readField_render (by decide)]
  simp only [not_true_eq_false, if_false]
  rw [readField_render b.design_lt]
  simp only [readKeys_render b.keys_ok b.length_lt]
  rfl

/-- What is accepted is a bit file. -/
theorem exists_bitfile {flip : Bool} {f : List Byte} {ls : List Line} {d : List Byte}
    (h : bitToBin flip f = (ls, .ok d)) : ∃ b : Bitfile, f = b.render := by
  unfold bitToBin at h
  split at h
  next => cases h
  next l f₁ hnine =>
    split_ifs at h with hl
    next => cases h
    have hl : l = 9 := by simpa using hl
    subst hl
    obtain ⟨hf, -⟩ := readShort_some hnine
    split at h
    next => cases h
    next a f₂ ha =>
      split_ifs at h with hkey
      next => cases h
      have hkey : a = [0x61] := by simpa using hkey
      split at h
      next => cases h
      next design f₃ hdesign =>
        have hkeys : readKeys flip f₃ = ((readKeys flip f₃).1, .ok d) :=
          Prod.ext rfl (Prod.mk.inj h).2
        obtain ⟨keys, l, rest, hok, hl, hf₃⟩ := readKeys_some hkeys
        have hne₃ : f₃ ≠ [] := by
          rw [hf₃]
          simp
        have hne₂ : f₂ ≠ [] := by
          intro hnil
          rw [hnil] at hdesign
          cases hdesign
        obtain ⟨hf₂, hlen⟩ := readField_some hdesign hne₃
        obtain ⟨hf₁, -⟩ := readField_some ha hne₂
        have hlong : 9 ≤ f₁.length := by
          by_contra hshort
          rw [List.drop_eq_nil_of_le (by omega)] at hf₁
          simp [short] at hf₁
        have htake : (f₁.take 9).length = 9 := by
          rw [List.length_take]
          omega
        refine ⟨⟨f₁.take 9, design, keys, l, rest, htake, hlen, hok, hl⟩, ?_⟩
        conv_lhs => rw [hf, ← List.take_append_drop 9 f₁, hf₁, hf₂, hf₃, hkey]
        simp [Bitfile.render, Bitfile.head]

/-- A file is accepted exactly if it is a bit file and, where its words are to be flipped, its data
are whole words. Then its fields are printed in their order and the data are those of the file. -/
theorem bitToBin_ok_iff (flip : Bool) (f : List Byte) (ls : List Line) (d : List Byte) :
    bitToBin flip f = (ls, .ok d) ↔
      ∃ b : Bitfile, f = b.render ∧ ls = b.lines ∧ (flip = true → 4 ∣ b.payload.length) ∧
        d = fixup flip b.payload := by
  have hflip : ∀ b : Bitfile, (if flip then flip32 b.payload else .ok b.payload) = .ok d ↔
      (flip = true → 4 ∣ b.payload.length) ∧ d = fixup flip b.payload := by
    intro b
    cases flip with
    | false =>
      simp only [Bool.false_eq_true, if_false, false_implies, true_and, fixup, cond_false,
        Except.ok.injEq]
      exact eq_comm
    | true =>
      rw [if_pos rfl, flip32_eq, fixup, cond_true]
      by_cases hwhole : 4 ∣ b.payload.length
      · rw [if_pos hwhole, Except.ok.injEq]
        exact ⟨fun h => ⟨fun _ => hwhole, h.symm⟩, fun h => h.2.symm⟩
      · rw [if_neg hwhole]
        constructor
        · intro h
          cases h
        · intro h
          exact absurd (h.1 rfl) hwhole
  constructor
  · intro h
    obtain ⟨b, rfl⟩ := exists_bitfile h
    rw [bitToBin_render] at h
    exact ⟨b, rfl, (congrArg Prod.fst h).symm, (hflip b).mp (congrArg Prod.snd h)⟩
  · rintro ⟨b, rfl, rfl, hdata⟩
    rw [bitToBin_render, (hflip b).mpr hdata]

end RpEcosystem.Bitstream
