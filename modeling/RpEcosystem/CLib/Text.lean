import Mathlib.Data.List.Basic

/-!
# Strings of C

A string is the list of its characters before the terminating NUL; a pointer into it is the suffix
that starts there. The functions of `string.h` and `stdlib.h` that programs use on such pointers,
with `long` a 32-bit integer:

* `strchr`, `strstr`: searches;
* `strtol`, `strtoul`, `atoi`: numbers, read as far as they go and clamped to their type;
* `fromField`, `strchr_fromField`: the fields between separators, reached by `strchr`.
-/

namespace CLib

abbrev Text := List Char

/-- The string from the first `c` on. -/
def strchr (c : Char) : Text → Option Text
  | [] => none
  | a :: s => if a = c then some (a :: s) else strchr c s

/-- The string from the first occurrence of `needle` on. -/
def strstr (needle : Text) : Text → Option Text
  | [] => if needle = [] then some [] else none
  | a :: s => if needle <+: a :: s then some (a :: s) else strstr needle s

/-! ## Numbers -/

def isspace (c : Char) : Bool := c = ' ' || ('\t' ≤ c && c ≤ '\r')

/-- The value of a digit or letter. -/
def digit (c : Char) : Option Nat :=
  if '0' ≤ c ∧ c ≤ '9' then some (c.toNat - '0'.toNat)
  else if 'a' ≤ c ∧ c ≤ 'z' then some (c.toNat - 'a'.toNat + 10)
  else if 'A' ≤ c ∧ c ≤ 'Z' then some (c.toNat - 'A'.toNat + 10)
  else none

/-- The digits at the start of a string, after those that make `acc`. -/
def digits (base acc : Nat) : Text → Nat
  | [] => acc
  | c :: s =>
    match digit c with
    | some d => if d < base then digits base (acc * base + d) s else acc
    | none => acc

def skipSign : Text → Bool × Text
  | '-' :: s => (true, s)
  | '+' :: s => (false, s)
  | s => (false, s)

/-- A `0x` in front of a hexadecimal digit. -/
def skipRadix (base : Nat) : Text → Text
  | '0' :: x :: d :: s =>
    if base = 16 ∧ (x = 'x' ∨ x = 'X') ∧ (digit d).any (· < 16) then d :: s else '0' :: x :: d :: s
  | s => s

/-- The sign and the magnitude of the number at the start of a string. -/
def magnitude (base : Nat) (s : Text) : Bool × Nat :=
  let (neg, s) := skipSign (s.dropWhile isspace)
  (neg, digits base 0 (skipRadix base s))

def strtol (base : Nat) (s : Text) : Int :=
  let (neg, m) := magnitude base s
  if neg then if m ≤ 0x80000000 then -m else -0x80000000
  else if m ≤ 0x7FFFFFFF then m else 0x7FFFFFFF

def strtoul (base : Nat) (s : Text) : BitVec 32 :=
  let (neg, m) := magnitude base s
  if 0xFFFFFFFF < m then BitVec.allOnes 32
  else if neg then -BitVec.ofNat 32 m else BitVec.ofNat 32 m

def atoi (s : Text) : Int := strtol 10 s

/-! ## Fields -/

/-- The text from the start of field `k` on, when `c` separates the fields. -/
def fromField (c : Char) (k : Nat) (s : Text) : Text := [c].intercalate ((s.splitOn c).drop k)

/-- Field `k`. -/
def field (c : Char) (k : Nat) (s : Text) : Text := (s.splitOn c).getD k []

@[simp] theorem fromField_zero (c : Char) (s : Text) : fromField c 0 s = s := by
  simp [fromField]

theorem fromField_succ {c : Char} {pre : Text} (h : c ∉ pre) (k : Nat) (rest : Text) :
    fromField c (k + 1) (pre ++ c :: rest) = fromField c k rest := by
  rw [fromField, List.splitOn_append_cons_self_of_not_mem h, List.drop_succ_cons, fromField]

theorem strchr_append {c : Char} {pre : Text} (h : c ∉ pre) (rest : Text) :
    strchr c (pre ++ c :: rest) = some (c :: rest) := by
  induction pre with
  | nil => simp [strchr]
  | cons a pre ih =>
    rw [List.mem_cons, not_or] at h
    rw [List.cons_append, strchr, if_neg (Ne.symm h.1), ih h.2]

theorem strchr_eq_none {c : Char} {s : Text} : strchr c s = none ↔ c ∉ s := by
  induction s with
  | nil => simp [strchr]
  | cons a s ih =>
    rw [strchr, List.mem_cons, not_or]
    split
    next h => simp [h]
    next h => rw [ih]; exact ⟨fun hs => ⟨Ne.symm h, hs⟩, fun hs => hs.2⟩

/-- A search from the start of a field ends at the separator before the next one. -/
theorem strchr_fromField {c : Char} {k : Nat} {s : Text} (h : k < s.count c) :
    strchr c (fromField c k s) = some (c :: fromField c (k + 1) s) := by
  induction k generalizing s with
  | zero =>
    obtain ⟨pre, rest, rfl, hpre⟩ := List.eq_append_cons_of_mem (List.count_pos_iff.mp h)
    rw [fromField_zero, strchr_append hpre, fromField_succ hpre, fromField_zero]
  | succ k ih =>
    obtain ⟨pre, rest, rfl, hpre⟩ :=
      List.eq_append_cons_of_mem (List.count_pos_iff.mp (Nat.zero_lt_of_lt h))
    rw [List.count_append, List.count_eq_zero.mpr hpre, List.count_cons_self] at h
    rw [fromField_succ hpre, fromField_succ hpre, ih (by omega)]

/-- A search steps over one separator. -/
theorem count_of_strchr {c : Char} {s rest : Text} (h : strchr c s = some rest) :
    s.count c = rest.tail.count c + 1 := by
  induction s with
  | nil => cases h
  | cons a s ih =>
    rw [strchr] at h
    split at h
    next ha =>
      cases h
      rw [ha, List.count_cons_self, List.tail_cons]
    next ha => rw [List.count_cons_of_ne ha, ih h]

theorem field_succ {c : Char} {pre : Text} (h : c ∉ pre) (k : Nat) (rest : Text) :
    field c (k + 1) (pre ++ c :: rest) = field c k rest := by
  rw [field, List.splitOn_append_cons_self_of_not_mem h, List.getD_cons_succ, field]

/-- A field that is not the last one ends with a separator. -/
theorem fromField_eq {c : Char} {k : Nat} {s : Text} (h : k < s.count c) :
    fromField c k s = field c k s ++ c :: fromField c (k + 1) s := by
  induction k generalizing s with
  | zero =>
    obtain ⟨pre, rest, rfl, hpre⟩ := List.eq_append_cons_of_mem (List.count_pos_iff.mp h)
    rw [fromField_zero, fromField_succ hpre, fromField_zero, field,
      List.splitOn_append_cons_self_of_not_mem hpre, List.getD_cons_zero]
  | succ k ih =>
    obtain ⟨pre, rest, rfl, hpre⟩ :=
      List.eq_append_cons_of_mem (List.count_pos_iff.mp (Nat.zero_lt_of_lt h))
    rw [List.count_append, List.count_eq_zero.mpr hpre, List.count_cons_self] at h
    rw [fromField_succ hpre, fromField_succ hpre, field_succ hpre, ih (by omega)]

end CLib
