import Mathlib.Data.List.Basic
import Mathlib.Data.List.TakeWhile
import Mathlib.Order.Nat

/-!
# The ring reader of the acquisition loop

`read_buffer` keeps a cursor `current` into a ring of `limit` words. A call with the position
`pos` of the writer reads the words from `current + 2` up to `pos`, or up to the end of the
ring when `pos` is behind, and leaves `current` at the last index read. What the body of the
loop does with a word is a parameter here (`decode`), as is what a call does before the loop
(`enter`): neither touches the cursor.

* `readBuffer_eq`: a call decodes the words at the indices `visited`;
* `ring_reading_iff`: the indices decoded over all calls are consecutive if and only if only
  one call decodes anything. The cursor of the first call is `-2`, which makes it start at
  index 0; in every later call `current + 2` leaves out the index after the last one read;
* `decoded_stuck`: once a call has read up to the end of the ring, no later call reads a word.
-/

namespace RpEcosystem.Daq

/-- The static cursor, and everything that decoding a word may change. -/
structure Reader (σ : Type) where
  current : Int
  out : σ

variable {α σ : Type}

/-- The body of the loop for the `n` indices from `i` on. -/
def readWords (mem : Nat → α) (decode : σ → α → σ) : Nat → Nat → Reader σ → Reader σ
  | 0, _, r => r
  | n + 1, i, r => readWords mem decode n (i + 1) { current := i, out := decode r.out (mem i) }

/-- `if (current==limit-2) current=-2;` -/
def wrapCurrent (limit current : Int) : Int := if current = limit - 2 then -2 else current

/-- `readinit` and `readend`. -/
def readBounds (limit current pos : Int) : Int × Int :=
  if current < pos + 2 then (current + 2, pos)
  else if current > pos then (current + 2, limit)
  else (0, limit)

def readBuffer (limit : Int) (mem : Nat → α) (decode : σ → α → σ) (enter : σ → σ) (pos : Int)
    (r : Reader σ) : Reader σ :=
  let current := wrapCurrent limit r.current
  let bounds := readBounds limit current pos
  let r := { current := current, out := enter r.out }
  if current ≠ pos then
    readWords mem decode (bounds.2 - bounds.1).toNat bounds.1.toNat r
  else r

/-- A call: the position of the writer and the memory at that time. -/
structure Call (α : Type) where
  pos : Nat
  mem : Nat → α

/-- The acquisition loop of `main`, one call of `read_buffer` after another. -/
def daqLoop (limit : Int) (decode : σ → α → σ) (enter : σ → σ) (calls : List (Call α))
    (r : Reader σ) : Reader σ :=
  calls.foldl (fun r c => readBuffer limit c.mem decode enter c.pos r) r

/-! ## The indices of a call -/

/-- The indices read by a call, in order. -/
def visited (limit current pos : Int) : List Nat :=
  if wrapCurrent limit current ≠ pos then
    let bounds := readBounds limit (wrapCurrent limit current) pos
    List.range' bounds.1.toNat (bounds.2 - bounds.1).toNat
  else []

/-- The cursor after a call: the last index read. -/
def cursorNext (limit current pos : Int) : Int :=
  ((visited limit current pos).map Int.ofNat).getLastD (wrapCurrent limit current)

theorem readWords_eq (mem : Nat → α) (decode : σ → α → σ) (n i : Nat) (r : Reader σ) :
    readWords mem decode n i r =
      { current := ((List.range' i n).map Int.ofNat).getLastD r.current
        out := ((List.range' i n).map mem).foldl decode r.out } := by
  induction n generalizing i r with
  | zero => rfl
  | succ n ih =>
    rw [readWords, ih, List.range'_succ, List.map_cons, List.map_cons, List.getLastD_cons,
      List.foldl_cons]
    rfl

theorem readBuffer_eq (limit : Int) (mem : Nat → α) (decode : σ → α → σ) (enter : σ → σ)
    (pos : Int) (r : Reader σ) :
    readBuffer limit mem decode enter pos r =
      { current := cursorNext limit r.current pos
        out := ((visited limit r.current pos).map mem).foldl decode (enter r.out) } := by
  unfold readBuffer cursorNext visited
  simp only
  split_ifs with h
  · rw [readWords_eq]
  · rfl

/-- The indices decoded by a sequence of calls from the cursor `current`. -/
def decoded (limit : Int) : Int → List Nat → List Nat
  | _, [] => []
  | current, p :: ps => visited limit current p ++ decoded limit (cursorNext limit current p) ps

/-- The indices decoded in the acquisition loop, as recorded by a memory that returns its own
addresses and a body that appends them. -/
def daqIndices (limit : Int) (ps : List Nat) : List Nat :=
  (daqLoop limit (fun l i => l ++ [i]) id (ps.map fun p => ⟨p, id⟩) ⟨-2, []⟩).out

theorem daqIndices_eq (limit : Int) (ps : List Nat) :
    daqIndices limit ps = decoded limit (-2) ps := by
  have hrecord : ∀ l l' : List Nat, l.foldl (fun l i => l ++ [i]) l' = l' ++ l := by
    intro l
    induction l with
    | nil => simp
    | cons i l ih => simp [ih]
  have hloop : ∀ (ps : List Nat) (r : Reader (List Nat)),
      (daqLoop limit (fun l i => l ++ [i]) id (ps.map fun p => ⟨p, id⟩) r).out =
        r.out ++ decoded limit r.current ps := by
    intro ps
    induction ps with
    | nil => simp [daqLoop, decoded]
    | cons p ps ih =>
      intro r
      simp only [List.map_cons, daqLoop, List.foldl_cons]
      rw [← daqLoop, ih, readBuffer_eq]
      simp [decoded, hrecord]
  exact hloop ps ⟨-2, []⟩

/-! ## Consecutive indices -/

/-- The indices `0, 1, 2, ...` of a ring of `limit` words, in order. -/
def Consecutive (limit : Nat) (l : List Nat) : Prop := l = (List.range l.length).map (· % limit)

instance (limit : Nat) (l : List Nat) : Decidable (Consecutive limit l) :=
  inferInstanceAs (Decidable (l = (List.range l.length).map (· % limit)))

theorem consecutive_range {limit a : Nat} (h : a ≤ limit) : Consecutive limit (List.range a) := by
  unfold Consecutive
  rw [List.length_range]
  conv_lhs => rw [← List.map_id (List.range a)]
  apply List.map_congr_left
  intro i hi
  have := List.mem_range.mp hi
  exact (Nat.mod_eq_of_lt (show i < limit by omega)).symm

/-- After the first `a` indices only index `a` is consecutive. -/
theorem Consecutive.head_eq {limit a i : Nat} {l : List Nat}
    (h : Consecutive limit (List.range a ++ i :: l)) : i = a % limit := by
  have hget : (List.range a ++ i :: l)[a]? = some i := by simp
  rw [h, List.getElem?_map, List.getElem?_range (by simp)] at hget
  exact (Option.some.inj hget).symm

/-! ## Which position sequences are read consecutively -/

variable {limit : Nat}

/-- The condition on the positions: zeros, then a position `a`, and afterwards no position
that makes the reader decode again. -/
def OneRead (limit : Nat) (ps : List Nat) : Prop :=
  match ps.dropWhile (· == 0) with
  | [] => True
  | a :: rest => ∀ p ∈ rest, if a = limit - 1 then p = 0 else a ≤ p + 2 ∧ p ≤ a + 1

theorem dropZeros_head {ps rest : List Nat} {b : Nat} (h : ps.dropWhile (· == 0) = b :: rest) :
    b ≠ 0 := by
  have hhead := List.head?_dropWhile_not (· == 0) ps
  rw [h] at hhead
  simpa using hhead

theorem wrapCurrent_start : wrapCurrent limit (-2) = -2 := by
  simp [wrapCurrent]

theorem visited_start {c : Int} (hc : wrapCurrent limit c = -2) (p : Nat) :
    visited limit c p = List.range p := by
  have hlt : (-2 : Int) < p + 2 := by omega
  have hne : (-2 : Int) ≠ p := by omega
  simp [visited, hc, readBounds, hlt, hne, List.range_eq_range']

theorem cursorNext_start {c : Int} (hc : wrapCurrent limit c = -2) (p : Nat) :
    cursorNext limit c p = if p = 0 then -2 else (p : Int) - 1 := by
  rw [cursorNext, visited_start hc, hc]
  cases p with
  | zero => rfl
  | succ p => simp [List.range_succ]

/-- From a cursor that wraps to `-2` the first position other than 0 is read from index 0. -/
theorem decoded_start {c : Int} (hc : wrapCurrent limit c = -2) (ps : List Nat) :
    decoded limit c ps = match ps.dropWhile (· == 0) with
      | [] => []
      | a :: rest => List.range a ++ decoded limit ((a : Int) - 1) rest := by
  induction ps generalizing c with
  | nil => rfl
  | cons p ps ih =>
    rw [decoded, visited_start hc, cursorNext_start hc]
    by_cases hp : p = 0
    · subst hp
      simpa using ih wrapCurrent_start
    · simp [hp]

/-- After a read up to `a` a position near `a` is not read. -/
theorem visited_near {a p : Nat} (ha : a + 1 < limit) (h : a ≤ p + 2 ∧ p ≤ a + 1) :
    visited limit ((a : Int) - 1) p = [] ∧ cursorNext limit ((a : Int) - 1) p = (a : Int) - 1 := by
  have hwrap : wrapCurrent limit ((a : Int) - 1) = (a : Int) - 1 := if_neg (by omega)
  have hlt : (a : Int) - 1 < p + 2 := by omega
  have hnone : visited limit ((a : Int) - 1) p = [] := by
    have hcount : ((p : Int) - ((a : Int) - 1 + 2)).toNat = 0 := by omega
    simp [visited, hwrap, readBounds, hlt, hcount]
  exact ⟨hnone, by rw [cursorNext, hnone, hwrap]; rfl⟩

/-- Every other position is read from index `a + 1` on. -/
theorem visited_far {a p : Nat} (ha : a + 1 < limit) (h : ¬ (a ≤ p + 2 ∧ p ≤ a + 1)) :
    ∃ l, visited limit ((a : Int) - 1) p = (a + 1) :: l := by
  have hwrap : wrapCurrent limit ((a : Int) - 1) = (a : Int) - 1 := if_neg (by omega)
  have hne : (a : Int) - 1 ≠ p := by omega
  have hinit : ((a : Int) - 1 + 2).toNat = a + 1 := by omega
  have hmany : ∀ e : Int, (a : Int) + 1 < e → ∃ l, List.range' (a + 1)
      (e - ((a : Int) - 1 + 2)).toNat = (a + 1) :: l := by
    intro e he
    obtain ⟨n, hn⟩ : ∃ n, (e - ((a : Int) - 1 + 2)).toNat = n + 1 :=
      ⟨(e - ((a : Int) - 1 + 2)).toNat - 1, by omega⟩
    exact ⟨_, by rw [hn, List.range'_succ]⟩
  by_cases hlt : (a : Int) - 1 < p + 2
  · simpa [visited, hwrap, hne, readBounds, hlt, hinit] using hmany p (by omega)
  · have hgt : (a : Int) - 1 > p := by omega
    simpa [visited, hwrap, hne, readBounds, hlt, hgt, hinit] using hmany limit (by omega)

theorem decoded_near {a : Nat} (ha : a + 1 < limit) {ps : List Nat}
    (h : ∀ p ∈ ps, a ≤ p + 2 ∧ p ≤ a + 1) : decoded limit ((a : Int) - 1) ps = [] := by
  induction ps with
  | nil => rfl
  | cons p ps ih =>
    obtain ⟨hnone, hcursor⟩ := visited_near ha (h p List.mem_cons_self)
    rw [decoded, hnone, hcursor, ih fun q hq => h q (List.mem_cons_of_mem p hq)]
    rfl

theorem decoded_far {a : Nat} (ha : a + 1 < limit) {ps : List Nat}
    (h : ¬ ∀ p ∈ ps, a ≤ p + 2 ∧ p ≤ a + 1) :
    ∃ l, decoded limit ((a : Int) - 1) ps = (a + 1) :: l := by
  induction ps with
  | nil => simp at h
  | cons p ps ih =>
    by_cases hp : a ≤ p + 2 ∧ p ≤ a + 1
    · obtain ⟨hnone, hcursor⟩ := visited_near ha hp
      obtain ⟨l, hl⟩ := ih fun hps => h (by simpa [hp] using hps)
      exact ⟨l, by rw [decoded, hnone, hcursor, hl]; rfl⟩
    · obtain ⟨l, hl⟩ := visited_far ha hp
      exact ⟨_, by rw [decoded, hl]; rfl⟩

/-- A first read up to the last index is followed by a read from index 0. -/
theorem decoded_last (hlimit : 0 < limit) (ps : List Nat) :
    decoded limit (((limit - 1 : Nat) : Int) - 1) ps = [] ∧ (∀ p ∈ ps, p = 0) ∨
      (∃ l, decoded limit (((limit - 1 : Nat) : Int) - 1) ps = 0 :: l) ∧ ¬ ∀ p ∈ ps, p = 0 := by
  have hwrap : wrapCurrent limit (((limit - 1 : Nat) : Int) - 1) = -2 := if_pos (by omega)
  rw [decoded_start hwrap]
  have hzeros : (∀ p ∈ ps, p = 0) ↔ ps.dropWhile (· == 0) = [] := by
    rw [List.dropWhile_eq_nil_iff]
    simp
  rw [hzeros]
  cases hdrop : ps.dropWhile (· == 0) with
  | nil => exact Or.inl ⟨rfl, rfl⟩
  | cons b rest =>
    obtain ⟨n, rfl⟩ := Nat.exists_eq_succ_of_ne_zero (dropZeros_head hdrop)
    refine Or.inr ⟨?_, by simp⟩
    simp only [Nat.succ_eq_add_one, List.range_succ_eq_map, List.cons_append]
    exact ⟨_, rfl⟩

theorem consecutive_decoded_iff {ps : List Nat} (hps : ∀ p ∈ ps, p < limit) :
    Consecutive limit (decoded limit (-2) ps) ↔ OneRead limit ps := by
  rw [decoded_start wrapCurrent_start]
  unfold OneRead
  cases hdrop : ps.dropWhile (· == 0) with
  | nil => simp [Consecutive]
  | cons a rest =>
    have hmem : a ∈ ps := (List.dropWhile_sublist _).mem (hdrop ▸ List.mem_cons_self)
    have halt : a < limit := hps a hmem
    have hpos : 0 < limit := by omega
    have hne : a ≠ 0 := dropZeros_head hdrop
    simp only
    by_cases hlast : a = limit - 1
    · subst hlast
      simp only [if_true]
      rcases decoded_last hpos rest with ⟨hnil, hzeros⟩ | ⟨⟨l, hl⟩, hsome⟩
      · rw [hnil, List.append_nil]
        exact ⟨fun _ => hzeros, fun _ => consecutive_range (by omega)⟩
      · rw [hl]
        refine ⟨fun h => ?_, fun h => absurd h hsome⟩
        have := h.head_eq
        rw [Nat.mod_eq_of_lt halt] at this
        omega
    · have hlt : a + 1 < limit := by omega
      simp only [hlast, if_false]
      by_cases hnear : ∀ p ∈ rest, a ≤ p + 2 ∧ p ≤ a + 1
      · rw [decoded_near hlt hnear, List.append_nil]
        exact ⟨fun _ => hnear, fun _ => consecutive_range (by omega)⟩
      · obtain ⟨l, hl⟩ := decoded_far hlt hnear
        rw [hl]
        refine ⟨fun h => ?_, fun h => absurd h hnear⟩
        have := h.head_eq
        rw [Nat.mod_eq_of_lt halt] at this
        omega

/-- `limit = 1024*1024; // whole memory` -/
def ringLimit : Nat := 1024 * 1024

/-- Once the end of the ring has been read no call decodes anything. -/
theorem decoded_stuck (ps : List Nat) (hps : ∀ p ∈ ps, p < limit) :
    decoded limit ((limit : Int) - 1) ps = [] := by
  induction ps with
  | nil => rfl
  | cons p ps ih =>
    have hp := hps p List.mem_cons_self
    have hwrap : wrapCurrent limit ((limit : Int) - 1) = (limit : Int) - 1 := if_neg (by omega)
    have hnone : visited limit ((limit : Int) - 1) p = [] := by
      unfold visited readBounds
      rw [hwrap]
      split_ifs
      · simp
        omega
      · simp
        omega
      · omega
      · rfl
    rw [decoded, hnone, cursorNext, hnone, hwrap]
    exact ih fun q hq => hps q (List.mem_cons_of_mem p hq)

end RpEcosystem.Daq
