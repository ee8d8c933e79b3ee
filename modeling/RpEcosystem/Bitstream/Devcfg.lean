import Mathlib.Data.List.Basic
import Mathlib.Data.List.Induction
import Mathlib.Algebra.Ring.Nat
import Mathlib.Tactic.SplitIfs

/-!
# The driver that configures the device

A bit stream is written to `xdevcfg` in pieces of any size. The driver looks for the sync word in
the first piece, drops what is before it, puts the bytes of a word in the order that the sync word
asks for, and keeps the bytes that do not fill a word for the next call. What it does to the device
is kept as a list of effects.

* `State`, `xdevcfgOpen`, `xdevcfgWrite`, `xdevcfgRelease`: the driver, with the answers of the
  kernel and the DMA as inputs;
* `Streamed`, `streamed_write`: what one call does to the stream;
* `writes_streamed`: the words that any series of calls gives to the device.
-/

namespace RpEcosystem.Bitstream

abbrev Byte := BitVec 8

/-! ## Words in memory -/

/-- Four bytes of memory as a little-endian word. -/
def loadWord (a b c d : Byte) : BitVec 32 := d ++ c ++ b ++ a

def swab32 (v : BitVec 32) : BitVec 32 :=
  v.extractLsb' 0 8 ++ v.extractLsb' 8 8 ++ v.extractLsb' 16 8 ++ v.extractLsb' 24 8

def storeWord (v : BitVec 32) : List Byte :=
  [v.extractLsb' 0 8, v.extractLsb' 8 8, v.extractLsb' 16 8, v.extractLsb' 24 8]

/-- `for (i = 0; i < count; i += 4) *p = swab32(*p);` -/
def swabWords : List Byte → List Byte
  | a :: b :: c :: d :: rest => storeWord (swab32 (loadWord a b c d)) ++ swabWords rest
  | rest => rest

theorem loadWord_bytes (a b c d : Byte) :
    (loadWord a b c d).extractLsb' 0 8 = a ∧ (loadWord a b c d).extractLsb' 8 8 = b ∧
      (loadWord a b c d).extractLsb' 16 8 = c ∧ (loadWord a b c d).extractLsb' 24 8 = d := by
  unfold loadWord
  refine ⟨?_, ?_, ?_, ?_⟩
  · exact BitVec.extractLsb'_append_eq_right
  · rw [BitVec.extractLsb'_append_eq_of_le (by omega)]
    exact BitVec.extractLsb'_append_eq_right
  · rw [BitVec.extractLsb'_append_eq_of_le (by omega),
      BitVec.extractLsb'_append_eq_of_le (by omega)]
    exact BitVec.extractLsb'_append_eq_right
  · rw [BitVec.extractLsb'_append_eq_of_le (by omega),
      BitVec.extractLsb'_append_eq_of_le (by omega), BitVec.extractLsb'_append_eq_of_le (by omega)]
    exact BitVec.extractLsb'_eq_self

theorem swabWords_cons (a b c d : Byte) (rest : List Byte) :
    swabWords (a :: b :: c :: d :: rest) = d :: c :: b :: a :: swabWords rest := by
  obtain ⟨h0, h1, h2, h3⟩ := loadWord_bytes a b c d
  have hswap : swab32 (loadWord a b c d) = loadWord d c b a := by
    rw [swab32, h0, h1, h2, h3]
    rfl
  obtain ⟨h0', h1', h2', h3'⟩ := loadWord_bytes d c b a
  rw [swabWords, hswap, storeWord, h0', h1', h2', h3']
  rfl

/-! ## The driver -/

/-- What the driver does to the device. -/
inductive Effect
  | enablePartial
  | disablePartial
  | preload
  | postload
  | resetPl
  | clearDone
  /-- a DMA transfer of the bytes, with the mark of a short one -/
  | dma (short : Bool) (bytes : List Byte)
  deriving DecidableEq, Repr

structure State where
  isOpen : Bool
  isPartialBitstream : Bool
  ep107 : Bool
  endianSwap : Bool
  /-- the first `residue_len` bytes of `residue_buf` -/
  residue : List Byte
  residue_le : residue.length ≤ 3
  /-- the position of the open file -/
  ppos : Nat
  effects : List Effect

/-- The driver before it is used. -/
def State.initial : State := ⟨false, false, false, false, [], Nat.zero_le 3, 0, []⟩

/-- The answers to one call: of the clock, the mutex, the allocation, the copy from the user, and
the DMA. -/
structure Answers where
  clkEnable : Int
  mutexLock : Int
  allocated : Bool
  copied : Bool
  dmaDone : Bool
  errorStatus : Bool

def EBUSY : Int := 16

def ENOMEM : Int := 12

def EFAULT : Int := 14

def ETIMEDOUT : Int := 110

def xdevcfgOpen (e : Answers) (s : State) : Int × State :=
  if e.clkEnable ≠ 0 then (e.clkEnable, s)
  else if e.mutexLock ≠ 0 then (e.mutexLock, s)
  else if s.isOpen then (-EBUSY, s)
  else
    (0, { s with
      isOpen := true
      endianSwap := false
      residue := []
      residue_le := Nat.zero_le 3
      ppos := 0
      effects := s.effects ++ [if s.isPartialBitstream then .enablePartial else .preload] ++
        (if !s.ep107 && !s.isPartialBitstream then [.resetPl] else []) ++ [.clearDone] })

/-- The sync word in the order of the device, and swapped. -/
def syncNormal : List Byte := [0x66, 0x55, 0x99, 0xAA]

def syncSwapped : List Byte := [0xAA, 0x99, 0x55, 0x66]

/-- The search of the first block, from index `i` on: where the sync word is, and whether it is
swapped. The last place in the block is not looked at. -/
def lookForSync (i : Nat) : List Byte → Option (Nat × Bool)
  | [] => none
  | b :: rest =>
    if (b :: rest).length ≤ 4 then none
    else if (b :: rest).take 4 = syncNormal then some (i, false)
    else if (b :: rest).take 4 = syncSwapped then some (i, true)
    else lookForSync (i + 1) rest

/-- The data without a header, and whether the words are to be swapped. -/
def align (ppos : Nat) (swap : Bool) (kbuf : List Byte) : List Byte × Bool :=
  if ppos = 0 ∧ 4 < kbuf.length then
    match lookForSync 0 kbuf with
    | some (i, swap) => (kbuf.drop i, swap)
    | none => (kbuf, swap)
  else (kbuf, swap)

/-- The whole words of some data. -/
def wholeWords (l : List Byte) : List Byte := l.take (l.length - l.length % 4)

/-- The bytes after the last whole word. -/
def stragglers (l : List Byte) : List Byte := l.drop (l.length - l.length % 4)

def fixup (swap : Bool) (l : List Byte) : List Byte := bif swap then swabWords l else l

theorem length_stragglers (l : List Byte) : (stragglers l).length = l.length % 4 := by
  have := Nat.mod_le l.length 4
  rw [stragglers, List.length_drop]
  omega

/-- The data of one call are taken up to the start of the DMA. -/
def State.accept (buf : List Byte) (s : State) : State :=
  let (data, swap) := align s.ppos s.endianSwap (s.residue ++ buf)
  { s with
    endianSwap := swap
    residue := stragglers data
    residue_le := by
      have := Nat.mod_lt data.length (show 0 < 4 by decide)
      rw [length_stragglers]
      omega
    effects := s.effects ++
      [.dma (decide ((wholeWords data).length < 0x1000)) (fixup swap (wholeWords data))] }

def xdevcfgWrite (e : Answers) (buf : List Byte) (s : State) : Int × State :=
  if e.clkEnable ≠ 0 then (e.clkEnable, s)
  else if e.mutexLock ≠ 0 then (e.mutexLock, s)
  else if !e.allocated then (-ENOMEM, s)
  else if !e.copied then (-EFAULT, s)
  else if !e.dmaDone then (-ETIMEDOUT, s.accept buf)
  else if e.errorStatus then (-EFAULT, s.accept buf)
  else (buf.length, { s.accept buf with ppos := s.ppos + buf.length })

def xdevcfgRelease (s : State) : State :=
  { s with
    isOpen := false
    effects := s.effects ++ [if s.isPartialBitstream then .disablePartial else .postload] }

/-! ## Words and stragglers -/

theorem length_wholeWords (l : List Byte) : (wholeWords l).length = 4 * (l.length / 4) := by
  rw [wholeWords, List.length_take]
  omega

theorem wholeWords_append_stragglers (l : List Byte) : wholeWords l ++ stragglers l = l :=
  List.take_append_drop _ l

/-- Whole words can be split off from the front of the data. -/
theorem wholeWords_append {a : List Byte} (ha : 4 ∣ a.length) (b : List Byte) :
    wholeWords (a ++ b) = a ++ wholeWords b := by
  have hlen : (a ++ b).length - (a ++ b).length % 4 = a.length + (b.length - b.length % 4) := by
    rw [List.length_append]
    omega
  rw [wholeWords, hlen, List.take_length_add_append, wholeWords]

theorem stragglers_append {a : List Byte} (ha : 4 ∣ a.length) (b : List Byte) :
    stragglers (a ++ b) = stragglers b := by
  have hlen : (a ++ b).length - (a ++ b).length % 4 = a.length + (b.length - b.length % 4) := by
    rw [List.length_append]
    omega
  rw [stragglers, hlen, List.drop_length_add_append, stragglers]

theorem swabWords_append {a : List Byte} (ha : 4 ∣ a.length) (b : List Byte) :
    swabWords (a ++ b) = swabWords a ++ swabWords b := by
  induction a using swabWords.induct with
  | case1 w x y z rest ih =>
    have hrest : 4 ∣ rest.length := by
      simp only [List.length_cons] at ha
      omega
    simp only [List.cons_append, swabWords_cons, ih hrest]
  | case2 a hshort =>
    -- fewer than four bytes are none
    have hlt : a.length < 4 := by
      rcases a with - | ⟨w, - | ⟨x, - | ⟨y, - | ⟨z, rest⟩⟩⟩⟩
      · exact Nat.zero_lt_succ 3
      · exact Nat.le_of_ble_eq_true rfl
      · exact Nat.le_of_ble_eq_true rfl
      · exact Nat.le_of_ble_eq_true rfl
      · exact absurd rfl (hshort w x y z rest)
    rw [List.length_eq_zero_iff.mp (Nat.eq_zero_of_dvd_of_lt ha hlt)]
    rfl

theorem fixup_append (swap : Bool) {a : List Byte} (ha : 4 ∣ a.length) (b : List Byte) :
    fixup swap (a ++ b) = fixup swap a ++ fixup swap b := by
  cases swap with
  | false => rfl
  | true => exact swabWords_append ha b

/-! ## One call -/

namespace Answers

variable (e : Answers)

/-- The call comes to the DMA. -/
def taken : Bool := e.clkEnable = 0 && e.mutexLock = 0 && e.allocated && e.copied

/-- The DMA comes to its end in time and without an error. -/
def done : Bool := e.dmaDone && !e.errorStatus

end Answers

theorem write_of_not_taken {e : Answers} (h : e.taken = false) (buf : List Byte) (s : State) :
    (xdevcfgWrite e buf s).2 = s := by
  simp only [Answers.taken, Bool.and_eq_false_iff, decide_eq_false_iff_not] at h
  unfold xdevcfgWrite
  split_ifs with h1 h2 h3 h4 h5 h6
  all_goals simp_all

theorem write_of_done {e : Answers} (h : e.taken = true) (hdone : e.done = true)
    (buf : List Byte) (s : State) :
    xdevcfgWrite e buf s =
      ((buf.length : Int), { s.accept buf with ppos := s.ppos + buf.length }) := by
  simp only [Answers.taken, Answers.done, Bool.and_eq_true, decide_eq_true_eq,
    Bool.not_eq_true'] at h hdone
  simp [xdevcfgWrite, h, hdone]

/-- All bytes that have been given to the DMA. -/
def dmaBytes (effects : List Effect) : List Byte :=
  effects.flatMap fun | .dma _ bytes => bytes | _ => []

/-- The header of the first block, and whether the stream is swapped. -/
def headerOf (block : List Byte) : Nat × Bool :=
  if 4 < block.length then (lookForSync 0 block).getD (0, false) else (0, false)

theorem lookForSync_lt {i k : Nat} {swap : Bool} {l : List Byte}
    (h : lookForSync i l = some (k, swap)) : k + 4 < i + l.length := by
  induction l generalizing i with
  | nil => cases h
  | cons b rest ih =>
    rw [lookForSync] at h
    split_ifs at h with hshort hnormal hswapped
    · cases h
      omega
    · cases h
      omega
    · have := ih h
      rw [List.length_cons]
      omega

theorem headerOf_le (block : List Byte) : (headerOf block).1 ≤ block.length := by
  unfold headerOf
  split_ifs with hlong
  · cases h : lookForSync 0 block with
    | none => exact Nat.zero_le _
    | some p =>
      have := lookForSync_lt h
      simp only [Option.getD_some]
      omega
  · exact Nat.zero_le _

/-- The header of the first block is dropped. -/
theorem align_first (block : List Byte) :
    align 0 false block = (block.drop (headerOf block).1, (headerOf block).2) := by
  unfold align headerOf
  by_cases hlong : 4 < block.length
  · rw [if_pos ⟨rfl, hlong⟩, if_pos hlong]
    cases lookForSync 0 block <;> rfl
  · rw [if_neg fun h => hlong h.2, if_neg hlong]
    rfl

theorem align_later {ppos : Nat} (h : ppos ≠ 0) (swap : Bool) (kbuf : List Byte) :
    align ppos swap kbuf = (kbuf, swap) :=
  if_neg fun hfirst => h hfirst.1

/-- The bytes `data` have been written, of which the first `k` are a header: what has been given to
the DMA after the bytes `before`, and what waits for the next call. -/
structure Streamed (before : List Byte) (k : Nat) (swap : Bool) (data : List Byte) (s : State) :
    Prop where
  le : k ≤ data.length
  endianSwap : s.endianSwap = swap
  residue : s.residue = stragglers (data.drop k)
  sent : dmaBytes s.effects = before ++ fixup swap (wholeWords (data.drop k))
  ppos : s.ppos = data.length

theorem accept_sent {s : State} {buf data : List Byte} {swap : Bool}
    (h : align s.ppos s.endianSwap (s.residue ++ buf) = (data, swap)) :
    (s.accept buf).endianSwap = swap ∧ (s.accept buf).residue = stragglers data ∧
      dmaBytes (s.accept buf).effects =
        dmaBytes s.effects ++ fixup swap (wholeWords data) := by
  simp [State.accept, h, dmaBytes]

/-- The first call that writes something. -/
theorem streamed_first {before : List Byte} {s : State} (h : Streamed before 0 false [] s)
    (block : List Byte) :
    Streamed before (headerOf block).1 (headerOf block).2 block
      { s.accept block with ppos := s.ppos + block.length } := by
  have halign : align s.ppos s.endianSwap (s.residue ++ block) =
      (block.drop (headerOf block).1, (headerOf block).2) := by
    rw [h.ppos, h.endianSwap, h.residue]
    exact align_first block
  obtain ⟨hswap, hresidue, hsent⟩ := accept_sent halign
  refine ⟨headerOf_le block, hswap, hresidue, ?_, ?_⟩
  · rw [hsent, h.sent]
    simp [fixup, wholeWords, swabWords]
  · simp [h.ppos]

/-- A later call: the stragglers come before its bytes. -/
theorem streamed_later {before : List Byte} {k : Nat} {swap : Bool} {data : List Byte} {s : State}
    (h : Streamed before k swap data s) (hdata : data ≠ []) (buf : List Byte) :
    Streamed before k swap (data ++ buf)
      { s.accept buf with ppos := s.ppos + buf.length } := by
  have hpos : s.ppos ≠ 0 := by
    rw [h.ppos]
    exact mt List.length_eq_zero_iff.mp hdata
  obtain ⟨hswap, hresidue, hsent⟩ := accept_sent (align_later hpos s.endianSwap (s.residue ++ buf))
  have hdrop : (data ++ buf).drop k = wholeWords (data.drop k) ++ (s.residue ++ buf) := by
    rw [List.drop_append_of_le_length h.le, h.residue, ← List.append_assoc,
      wholeWords_append_stragglers]
  have hdvd : 4 ∣ (wholeWords (data.drop k)).length := by
    rw [length_wholeWords]
    exact Nat.dvd_mul_right 4 _
  refine ⟨?_, hswap.trans h.endianSwap, ?_, ?_, ?_⟩
  · rw [List.length_append]
    exact Nat.le_add_right_of_le h.le
  · rw [hdrop, stragglers_append hdvd]
    exact hresidue
  · rw [hdrop, wholeWords_append hdvd, fixup_append swap hdvd, hsent, h.sent, h.endianSwap,
      List.append_assoc]
  · rw [List.length_append, ← h.ppos]

/-! ## Series of calls -/

/-- A series of calls of `write` with the answers to them. -/
def writes (calls : List (Answers × List Byte)) (s : State) : State :=
  calls.foldl (fun s c => (xdevcfgWrite c.1 c.2 s).2) s

/-- The blocks that are taken. -/
def blocks (calls : List (Answers × List Byte)) : List (List Byte) :=
  (calls.filter fun c => c.1.taken).map Prod.snd

/-- The first block that is not empty. -/
def firstBlock (bs : List (List Byte)) : List Byte := (bs.find? (· ≠ [])).getD []

theorem firstBlock_concat (bs : List (List Byte)) (b : List Byte) :
    firstBlock (bs ++ [b]) = if bs.flatten = [] then b else firstBlock bs := by
  rw [firstBlock, List.find?_append]
  cases hfind : bs.find? (· ≠ []) with
  | none =>
    have hnil : bs.flatten = [] := by
      rw [List.flatten_eq_nil_iff]
      intro c hc
      simpa using List.find?_eq_none.mp hfind c hc
    rw [if_pos hnil, Option.none_or]
    by_cases hb : b = []
    · simp [hb]
    · simp [hb]
  | some c =>
    have hc : c ≠ [] := by simpa using List.find?_some hfind
    have hne : bs.flatten ≠ [] := fun hnil =>
      hc (List.flatten_eq_nil_iff.mp hnil c (List.mem_of_find?_eq_some hfind))
    rw [if_neg hne, firstBlock, hfind]
    rfl

/-- No call fails after its DMA has been started. -/
def Clean (calls : List (Answers × List Byte)) : Prop :=
  ∀ c ∈ calls, c.1.taken = true → c.1.done = true

theorem writes_streamed {calls : List (Answers × List Byte)} (hclean : Clean calls)
    {before : List Byte} {s : State} (h : Streamed before 0 false [] s) :
    Streamed before (headerOf (firstBlock (blocks calls))).1
      (headerOf (firstBlock (blocks calls))).2 (blocks calls).flatten (writes calls s) := by
  induction calls using List.reverseRecOn with
  | nil => exact h
  | append_singleton calls c ih =>
    have hbefore := ih fun d hd => hclean d (List.mem_append_left _ hd)
    have hwrites : writes (calls ++ [c]) s = (xdevcfgWrite c.1 c.2 (writes calls s)).2 := by
      simp [writes]
    rw [hwrites]
    cases htaken : c.1.taken with
    | false =>
      have hblocks : blocks (calls ++ [c]) = blocks calls := by simp [blocks, htaken]
      rw [hblocks, write_of_not_taken htaken]
      exact hbefore
    | true =>
      have hblocks : blocks (calls ++ [c]) = blocks calls ++ [c.2] := by simp [blocks, htaken]
      rw [hblocks, write_of_done htaken (hclean c (by simp) htaken), firstBlock_concat,
        List.flatten_append, List.flatten_singleton]
      by_cases hempty : (blocks calls).flatten = []
      · -- nothing has been written so far
        have hnone : firstBlock (blocks calls) = [] := by
          cases hfind : (blocks calls).find? (· ≠ []) with
          | none => rw [firstBlock, hfind]; rfl
          | some b =>
            rw [firstBlock, hfind]
            exact List.flatten_eq_nil_iff.mp hempty b (List.mem_of_find?_eq_some hfind)
        rw [hnone, hempty] at hbefore
        rw [if_pos hempty, hempty, List.nil_append]
        exact streamed_first hbefore c.2
      · rw [if_neg hempty]
        exact streamed_later hbefore hempty c.2

end RpEcosystem.Bitstream
