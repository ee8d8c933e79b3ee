import RpEcosystem.Clocked.Events
import RpEcosystem.Clocked.Gray

/-!
# The asynchronous FIFO controller `fifo_async_ctrl`

Two clock domains, each with a pointer of `DEPTH + 1` bits in Gray code that counts its
accepted operations, and a copy of the other side's pointer that is two edges old (both
registers of `sync_w_ptr` run on `clkw` and both of `sync_r_ptr` on `clkr`). An event is an
edge of one clock or of both; every register samples the values before the edge.

* `Ctrl`, `next`, `machine`: the registers of the controller and what an event does;
* `addrAll_ptrAt`, `emptyFlag_iff`, `fullFlag_iff`: addresses and flags in terms of counts;
* `Tracks`: the invariant, over the counts behind all six registers;
* `is_fifo`: the controller is a FIFO.
-/

namespace RpEcosystem.Fifo

open Clocked

/-- `DEPTH`, the number of address bits. -/
structure Generics where
  depth : Nat
  two_le : 2 ≤ depth

/-- An event: which clocks have an edge, and the requests. -/
structure Event where
  clkw : Bool
  clkr : Bool
  wr : Bool
  rd : Bool

/-- A pointer register: one bit more than an address. -/
abbrev Ptr (g : Generics) := BitVec (g.depth + 1)

/-- The two registers of `n_sync`. -/
structure NSync (n : Nat) where
  metaReg : BitVec n
  syncReg : BitVec n

def NSync.next {n : Nat} (inAsync : BitVec n) (s : NSync n) : NSync n where
  metaReg := inAsync
  syncReg := s.metaReg

def NSync.outSync {n : Nat} (s : NSync n) : BitVec n := s.syncReg

structure Ctrl (g : Generics) where
  rPtrReg : Ptr g
  wPtrReg : Ptr g
  syncWPtr : NSync (g.depth + 1)
  syncRPtr : NSync (g.depth + 1)

/-! ## Pointers

`fifo_read_ctrl` and `fifo_write_ctrl` share the Gray counter and the address logic. -/

section Pointers

variable {g : Generics} (ptr : Ptr g)

/-- `bin`: the wire that solves `bin <= ptr xor ('0' & bin(N downto 1))`. -/
def bin : Ptr g := ungray ptr

/-- `gray1`: the pointer after one more operation. -/
def gray1 : Ptr g := gray (bin ptr + 1)

/-- `raddr_msb`, `waddr_msb`: the exclusive or of the two highest bits. -/
def addrMsb : Bool := ptr.getLsbD g.depth ^^ ptr.getLsbD (g.depth - 1)

/-- `raddr_all`, `waddr_all`. -/
def addrAll : BitVec g.depth :=
  (BitVec.ofBool (addrMsb ptr) ++ ptr.extractLsb' 0 (g.depth - 1)).cast (by
    have := g.two_le
    omega)

end Pointers

namespace Ctrl

variable {g : Generics} (r : Ctrl g)

/-- `w_ptr_in`, the write pointer as the read side sees it. -/
def wPtrIn : Ptr g := r.syncWPtr.outSync

/-- `r_ptr_in`, the read pointer as the write side sees it. -/
def rPtrIn : Ptr g := r.syncRPtr.outSync

def emptyFlag : Bool :=
  r.wPtrIn.getLsbD g.depth == r.rPtrReg.getLsbD g.depth &&
    r.wPtrIn.extractLsb' 0 (g.depth - 1) == r.rPtrReg.extractLsb' 0 (g.depth - 1) &&
    addrMsb r.rPtrReg == addrMsb r.wPtrIn

def fullFlag : Bool :=
  r.rPtrIn.getLsbD g.depth != r.wPtrReg.getLsbD g.depth &&
    r.rPtrIn.extractLsb' 0 (g.depth - 1) == r.wPtrReg.extractLsb' 0 (g.depth - 1) &&
    addrMsb r.rPtrIn == addrMsb r.wPtrReg

def rAddr : BitVec g.depth := addrAll r.rPtrReg

def wAddr : BitVec g.depth := addrAll r.wPtrReg

def rPtrNext (rd : Bool) : Ptr g := if rd && !r.emptyFlag then gray1 r.rPtrReg else r.rPtrReg

def wPtrNext (wr : Bool) : Ptr g := if wr && !r.fullFlag then gray1 r.wPtrReg else r.wPtrReg

end Ctrl

/-! ## The controller -/

variable {g : Generics}

def next (e : Event) (r : Ctrl g) : Ctrl g where
  rPtrReg := if e.clkr then r.rPtrNext e.rd else r.rPtrReg
  wPtrReg := if e.clkw then r.wPtrNext e.wr else r.wPtrReg
  syncWPtr := if e.clkw then r.syncWPtr.next r.wPtrReg else r.syncWPtr
  syncRPtr := if e.clkr then r.syncRPtr.next r.rPtrReg else r.syncRPtr

/-- The controller from the reset of both sides on. -/
def machine (g : Generics) : Machine Event (Ctrl g) where
  reset := ⟨0, 0, ⟨0, 0⟩, ⟨0, 0⟩⟩
  next := next

def run (g : Generics) (x : Nat → Event) (t : Nat) : Ctrl g := (machine g).run x t

theorem run_succ (x : Nat → Event) (t : Nat) : run g x (t + 1) = next (x t) (run g x t) := rfl

/-- The event accepts a write. -/
def Ctrl.writes (r : Ctrl g) (e : Event) : Bool := e.clkw && e.wr && !r.fullFlag

/-- The event accepts a read. -/
def Ctrl.reads (r : Ctrl g) (e : Event) : Bool := e.clkr && e.rd && !r.emptyFlag

def write (g : Generics) (x : Nat → Event) (t : Nat) : Bool := (run g x t).writes (x t)

def read (g : Generics) (x : Nat → Event) (t : Nat) : Bool := (run g x t).reads (x t)

/-- The writes accepted before event `t`. -/
def writeCount (g : Generics) (x : Nat → Event) (t : Nat) : Nat := events (write g x) 0 t

/-- The reads accepted before event `t`. -/
def readCount (g : Generics) (x : Nat → Event) (t : Nat) : Nat := events (read g x) 0 t

/-! ## Counts -/

theorem bin_eq (ptr : Ptr g) : bin ptr = ptr ^^^ (bin ptr >>> 1) := ungray_eq ptr

/-- The pointer after `k` operations. -/
def ptrAt (g : Generics) (k : Nat) : Ptr g := gray (BitVec.ofNat _ k)

theorem gray1_ptrAt (k : Nat) : gray1 (ptrAt g k) = ptrAt g (k + 1) := by
  rw [gray1, bin, ptrAt, ungray_gray, ptrAt, BitVec.ofNat_add]
  rfl

/-- The two highest bits of the Gray code fold into the highest bit of the shorter code. -/
theorem addrAll_gray (x : Ptr g) : addrAll (gray x) = gray (x.setWidth g.depth) := by
  have h2 := g.two_le
  apply BitVec.eq_of_getLsbD_eq
  intro i hi
  rw [getLsbD_gray, addrAll, BitVec.getLsbD_cast, BitVec.getLsbD_append]
  rcases (by omega : i < g.depth - 1 ∨ i = g.depth - 1) with h | rfl
  · have h1 : i + 1 < g.depth := by omega
    simp only [h, hi, h1, BitVec.getLsbD_extractLsb', BitVec.getLsbD_setWidth, getLsbD_gray,
      Nat.zero_add, decide_true, Bool.true_and, if_true]
  · have h1 : g.depth - 1 + 1 = g.depth := by omega
    have htop : x.getLsbD (g.depth + 1) = false := BitVec.getLsbD_of_ge _ _ le_rfl
    simp only [addrMsb, hi, h1, htop, BitVec.getLsbD_setWidth, BitVec.getLsbD_ofBool,
      getLsbD_gray, lt_self_iff_false, Nat.sub_self, decide_true, decide_false, Bool.true_and,
      Bool.false_and, if_false, Bool.xor_false]
    cases x.getLsbD g.depth <;> cases x.getLsbD (g.depth - 1) <;> rfl

theorem addrAll_ptrAt (k : Nat) : addrAll (ptrAt g k) = gray (BitVec.ofNat g.depth k) := by
  rw [ptrAt, addrAll_gray, BitVec.setWidth_ofNat_of_le (Nat.le_succ _)]

/-- Two operations use one slot when their numbers agree modulo the size. -/
theorem addrAll_ptrAt_inj {j k : Nat} :
    addrAll (ptrAt g j) = addrAll (ptrAt g k) ↔ j % 2 ^ g.depth = k % 2 ^ g.depth := by
  rw [addrAll_ptrAt, addrAll_ptrAt, gray_inj, ← BitVec.toNat_inj, BitVec.toNat_ofNat,
    BitVec.toNat_ofNat]

/-- The highest bit tells the laps apart. -/
theorem ptrAt_top (k : Nat) :
    (ptrAt g k).getLsbD g.depth = decide (k / 2 ^ g.depth % 2 = 1) := by
  have htop : (BitVec.ofNat (g.depth + 1) k).getLsbD (g.depth + 1) = false :=
    BitVec.getLsbD_of_ge _ _ le_rfl
  rw [ptrAt, getLsbD_gray, htop, Bool.xor_false, BitVec.getLsbD_ofNat,
    decide_eq_true (Nat.lt_succ_self _), Bool.true_and, Nat.testBit_eq_decide_div_mod_eq]

theorem addrAll_eq_iff (p q : Ptr g) : addrAll p = addrAll q ↔
    p.extractLsb' 0 (g.depth - 1) = q.extractLsb' 0 (g.depth - 1) ∧ addrMsb p = addrMsb q := by
  constructor
  · intro h
    have happ : BitVec.ofBool (addrMsb p) ++ p.extractLsb' 0 (g.depth - 1) =
        BitVec.ofBool (addrMsb q) ++ q.extractLsb' 0 (g.depth - 1) := by
      apply BitVec.eq_of_toNat_eq
      simpa only [addrAll, BitVec.toNat_cast] using congrArg BitVec.toNat h
    have hlow := congrArg (BitVec.extractLsb' 0 (g.depth - 1)) happ
    have hmsb := congrArg (BitVec.extractLsb' (g.depth - 1) 1) happ
    rw [BitVec.extractLsb'_append_eq_right, BitVec.extractLsb'_append_eq_right] at hlow
    rw [BitVec.extractLsb'_append_eq_left, BitVec.extractLsb'_append_eq_left] at hmsb
    exact ⟨hlow, BitVec.ofBool_eq_iff_eq.mp hmsb⟩
  · rintro ⟨hlow, hmsb⟩
    rw [addrAll, addrAll, hlow, hmsb]

/-- Counts at most one lap apart use one slot when they are equal or a lap apart. -/
theorem sameSlot_iff {j k : Nat} (hjk : j ≤ k) (hk : k ≤ j + 2 ^ g.depth) :
    addrAll (ptrAt g j) = addrAll (ptrAt g k) ↔ k = j ∨ k = j + 2 ^ g.depth := by
  rw [addrAll_ptrAt_inj]
  constructor
  · intro h
    obtain ⟨c, hc⟩ := Nat.dvd_of_mod_eq_zero (Nat.sub_mod_eq_zero_of_mod_eq h.symm)
    have hpos : 0 < 2 ^ g.depth := Nat.two_pow_pos _
    rcases c with _ | _ | c
    · omega
    · omega
    · rw [Nat.mul_succ, Nat.mul_succ] at hc
      omega
  · rintro (rfl | rfl)
    · rfl
    · rw [Nat.add_mod_right]

/-- The top bits tell the laps apart. -/
theorem sameTop_ptrAt {j k : Nat} :
    (ptrAt g j).getLsbD g.depth = (ptrAt g k).getLsbD g.depth ↔
      j / 2 ^ g.depth % 2 = k / 2 ^ g.depth % 2 := by
  rw [ptrAt_top, ptrAt_top, decide_eq_decide]
  omega

theorem sameTop_iff {j k : Nat} (h : k = j ∨ k = j + 2 ^ g.depth) :
    (ptrAt g j).getLsbD g.depth = (ptrAt g k).getLsbD g.depth ↔ k = j := by
  have hpos : 0 < 2 ^ g.depth := Nat.two_pow_pos _
  rw [sameTop_ptrAt]
  rcases h with rfl | rfl
  · simp
  · rw [Nat.add_div_right _ hpos]
    omega

/-- The empty comparison: the same slot in the same lap. -/
theorem Ctrl.emptyFlag_iff_same (r : Ctrl g) : r.emptyFlag = true ↔
    r.rPtrReg.getLsbD g.depth = r.wPtrIn.getLsbD g.depth ∧
      addrAll r.rPtrReg = addrAll r.wPtrIn := by
  rw [addrAll_eq_iff]
  simp only [Ctrl.emptyFlag, Bool.and_eq_true, beq_iff_eq]
  constructor
  · rintro ⟨⟨htop, hlow⟩, hmsb⟩
    exact ⟨htop.symm, hlow.symm, hmsb⟩
  · rintro ⟨htop, hlow, hmsb⟩
    exact ⟨⟨htop.symm, hlow.symm⟩, hmsb⟩

/-- The full comparison: the same slot in another lap. -/
theorem Ctrl.fullFlag_iff_same (r : Ctrl g) : r.fullFlag = true ↔
    ¬ r.rPtrIn.getLsbD g.depth = r.wPtrReg.getLsbD g.depth ∧
      addrAll r.rPtrIn = addrAll r.wPtrReg := by
  rw [addrAll_eq_iff]
  simp only [Ctrl.fullFlag, Bool.and_eq_true, beq_iff_eq, bne_iff_ne, and_assoc]

/-- The read side compares its pointer with an old write pointer. -/
theorem emptyFlag_iff {r : Ctrl g} {j k : Nat} (hr : r.rPtrReg = ptrAt g j)
    (hw : r.wPtrIn = ptrAt g k) (hjk : j ≤ k) (hk : k ≤ j + 2 ^ g.depth) :
    r.emptyFlag = true ↔ k = j := by
  rw [r.emptyFlag_iff_same, hr, hw, sameSlot_iff hjk hk]
  constructor
  · rintro ⟨htop, hslot⟩
    exact (sameTop_iff hslot).mp htop
  · intro h
    exact ⟨(sameTop_iff (Or.inl h)).mpr h, Or.inl h⟩

/-- The write side compares its pointer with an old read pointer. -/
theorem fullFlag_iff {r : Ctrl g} {j k : Nat} (hw : r.wPtrReg = ptrAt g k)
    (hr : r.rPtrIn = ptrAt g j) (hjk : j ≤ k) (hk : k ≤ j + 2 ^ g.depth) :
    r.fullFlag = true ↔ k = j + 2 ^ g.depth := by
  have hpos : 0 < 2 ^ g.depth := Nat.two_pow_pos _
  rw [r.fullFlag_iff_same, hr, hw, sameSlot_iff hjk hk]
  constructor
  · rintro ⟨htop, hslot⟩
    rw [sameTop_iff hslot] at htop
    exact hslot.resolve_left htop
  · intro h
    refine ⟨?_, Or.inr h⟩
    rw [sameTop_iff (Or.inr h)]
    omega

/-! ## The invariant -/

/-- The counts behind the registers: `w` writes and `r` reads so far, `wm` and `ws` writes when
the two synchroniser registers of the write pointer were loaded, `rm` and `rs` likewise. Old
counts are too small, so each side underestimates the progress of the other. -/
structure Tracks (c : Ctrl g) (w wm ws r rm rs : Nat) : Prop where
  wPtr : c.wPtrReg = ptrAt g w
  wMeta : c.syncWPtr.metaReg = ptrAt g wm
  wSync : c.wPtrIn = ptrAt g ws
  rPtr : c.rPtrReg = ptrAt g r
  rMeta : c.syncRPtr.metaReg = ptrAt g rm
  rSync : c.rPtrIn = ptrAt g rs
  reads : rs ≤ rm ∧ rm ≤ r
  behind : r ≤ ws
  writes : ws ≤ wm ∧ wm ≤ w
  room : w ≤ rs + 2 ^ g.depth

namespace Tracks

variable {c : Ctrl g} {w wm ws r rm rs : Nat}

theorem empty_iff (h : Tracks c w wm ws r rm rs) : c.emptyFlag = true ↔ ws = r := by
  obtain ⟨-, -, hws, hr, -, -, ⟨hrs, hrm⟩, hbehind, ⟨hwm, hw⟩, hroom⟩ := h
  exact emptyFlag_iff hr hws hbehind (by omega)

theorem full_iff (h : Tracks c w wm ws r rm rs) :
    c.fullFlag = true ↔ w = rs + 2 ^ g.depth := by
  obtain ⟨hw, -, -, -, -, hrs, ⟨hrm, hr⟩, hbehind, ⟨hws, hwm⟩, hroom⟩ := h
  exact fullFlag_iff hw hrs (by omega) hroom

/-- There is room when the full flag is low, also by the reads the write side knows of. -/
theorem free (h : Tracks c w wm ws r rm rs) (hfull : c.fullFlag = false) :
    w < rs + 2 ^ g.depth := by
  have hne : w ≠ rs + 2 ^ g.depth := by
    intro heq
    rw [h.full_iff.mpr heq] at hfull
    cases hfull
  exact lt_of_le_of_ne h.room hne

/-- There is a word when the empty flag is low, also by the writes the read side knows of. -/
theorem unread (h : Tracks c w wm ws r rm rs) (hempty : c.emptyFlag = false) : r < ws := by
  have hne : r ≠ ws := by
    intro heq
    rw [h.empty_iff.mpr heq.symm] at hempty
    cases hempty
  exact lt_of_le_of_ne h.behind hne

theorem free_of_writes (h : Tracks c w wm ws r rm rs) {e : Event} (hwr : c.writes e = true) :
    w < rs + 2 ^ g.depth := by
  simp only [Ctrl.writes, Bool.and_eq_true, Bool.not_eq_true'] at hwr
  exact h.free hwr.2

theorem unread_of_reads (h : Tracks c w wm ws r rm rs) {e : Event} (hrd : c.reads e = true) :
    r < ws := by
  simp only [Ctrl.reads, Bool.and_eq_true, Bool.not_eq_true'] at hrd
  exact h.unread hrd.2

theorem next_wPtr (h : Tracks c w wm ws r rm rs) (e : Event) :
    (next e c).wPtrReg = ptrAt g (w + if c.writes e then 1 else 0) := by
  obtain ⟨clkw, clkr, wr, rd⟩ := e
  cases clkw <;> cases wr <;> cases hfull : c.fullFlag <;>
    simp [next, Ctrl.wPtrNext, Ctrl.writes, hfull, h.wPtr, gray1_ptrAt]

theorem next_rPtr (h : Tracks c w wm ws r rm rs) (e : Event) :
    (next e c).rPtrReg = ptrAt g (r + if c.reads e then 1 else 0) := by
  obtain ⟨clkw, clkr, wr, rd⟩ := e
  cases clkr <;> cases rd <;> cases hempty : c.emptyFlag <;>
    simp [next, Ctrl.rPtrNext, Ctrl.reads, hempty, h.rPtr, gray1_ptrAt]

/-- What every event preserves. -/
theorem next (h : Tracks c w wm ws r rm rs) (e : Event) :
    Tracks (next e c) (w + if c.writes e then 1 else 0) (if e.clkw then w else wm)
      (if e.clkw then wm else ws) (r + if c.reads e then 1 else 0) (if e.clkr then r else rm)
      (if e.clkr then rm else rs) := by
  have hreads := h.reads
  have hwrites := h.writes
  have hbehind := h.behind
  have hroom := h.room
  have hwr : c.writes e = true → w < rs + 2 ^ g.depth := h.free_of_writes
  have hrd : c.reads e = true → r < ws := h.unread_of_reads
  have hclkr : c.reads e = true → e.clkr = true := by
    intro hread
    simp only [Ctrl.reads, Bool.and_eq_true] at hread
    exact hread.1.1
  refine ⟨h.next_wPtr e, ?_, ?_, h.next_rPtr e, ?_, ?_, ?_, ?_, ?_, ?_⟩
  · simp only [Fifo.next, apply_ite NSync.metaReg, NSync.next, h.wPtr, h.wMeta, apply_ite (ptrAt g)]
  · have hsync := h.wSync
    simp only [Ctrl.wPtrIn, NSync.outSync] at hsync
    simp only [Ctrl.wPtrIn, NSync.outSync, Fifo.next, apply_ite NSync.syncReg, NSync.next, h.wMeta,
      hsync, apply_ite (ptrAt g)]
  · simp only [Fifo.next, apply_ite NSync.metaReg, NSync.next, h.rPtr, h.rMeta, apply_ite (ptrAt g)]
  · have hsync := h.rSync
    simp only [Ctrl.rPtrIn, NSync.outSync] at hsync
    simp only [Ctrl.rPtrIn, NSync.outSync, Fifo.next, apply_ite NSync.syncReg, NSync.next, h.rMeta,
      hsync, apply_ite (ptrAt g)]
  · split_ifs <;> omega
  · split_ifs <;> simp_all <;> omega
  · split_ifs <;> omega
  · split_ifs <;> simp_all <;> omega

end Tracks

/-- A count as it was at the last edge of a clock. -/
def sampled (clk : Nat → Bool) (count : Nat → Nat) : Nat → Nat
  | 0 => 0
  | t + 1 => if clk t then count t else sampled clk count t

/-- The writes behind the first register of `sync_w_ptr`. -/
def metaWrites (g : Generics) (x : Nat → Event) : Nat → Nat :=
  sampled (fun t => (x t).clkw) (writeCount g x)

/-- The writes that the read side knows of. -/
def syncWrites (g : Generics) (x : Nat → Event) : Nat → Nat :=
  sampled (fun t => (x t).clkw) (metaWrites g x)

/-- The reads behind the first register of `sync_r_ptr`. -/
def metaReads (g : Generics) (x : Nat → Event) : Nat → Nat :=
  sampled (fun t => (x t).clkr) (readCount g x)

/-- The reads that the write side knows of. -/
def syncReads (g : Generics) (x : Nat → Event) : Nat → Nat :=
  sampled (fun t => (x t).clkr) (metaReads g x)

theorem run_tracks (g : Generics) (x : Nat → Event) (t : Nat) :
    Tracks (run g x t) (writeCount g x t) (metaWrites g x t) (syncWrites g x t)
      (readCount g x t) (metaReads g x t) (syncReads g x t) := by
  induction t with
  | zero =>
    have h0 : (0 : Ptr g) = ptrAt g 0 := by simp [ptrAt, gray]
    exact ⟨h0, h0, h0, h0, h0, h0, ⟨le_rfl, le_rfl⟩, le_rfl, ⟨le_rfl, le_rfl⟩, Nat.zero_le _⟩
  | succ t ih =>
    rw [run_succ, writeCount, readCount, events_succ _ (Nat.zero_le t),
      events_succ _ (Nat.zero_le t)]
    exact ih.next (x t)

/-- **The controller is a FIFO.** For every interleaving of the two clocks and every request
pattern: between 0 and `2 ^ DEPTH` words are unread at any time; the flags are low only when
there is room, or an unread word; the `k`-th write and the `k`-th read use one address; and a
write into a slot comes after the read of the word that an earlier write left there. -/
theorem is_fifo (g : Generics) (x : Nat → Event) (t : Nat) :
    (readCount g x t ≤ writeCount g x t ∧
        writeCount g x t ≤ readCount g x t + 2 ^ g.depth) ∧
      ((run g x t).fullFlag = false → writeCount g x t < readCount g x t + 2 ^ g.depth) ∧
      ((run g x t).emptyFlag = false → readCount g x t < writeCount g x t) ∧
      (∀ u, write g x t = true → read g x u = true → writeCount g x t = readCount g x u →
        (run g x t).wAddr = (run g x u).rAddr) ∧
      ∀ u, u < t → write g x u = true → write g x t = true →
        (run g x u).wAddr = (run g x t).wAddr →
          ∃ v, v < t ∧ read g x v = true ∧ readCount g x v = writeCount g x u := by
  have h := run_tracks g x t
  have hreads := h.reads
  have hbehind := h.behind
  have hwrites := h.writes
  have hroom := h.room
  refine ⟨⟨by omega, by omega⟩, ?_, ?_, ?_, ?_⟩
  · intro hfull
    have hfree := h.free hfull
    omega
  · intro hempty
    have hunread := h.unread hempty
    omega
  · intro u _ _ hcount
    rw [Ctrl.wAddr, Ctrl.rAddr, h.wPtr, (run_tracks g x u).rPtr, hcount]
  · intro u hut hu ht hslot
    have hlt : writeCount g x u < writeCount g x t := events_lt _ (Nat.zero_le u) hut hu
    have hfree := h.free_of_writes ht
    rw [Ctrl.wAddr, Ctrl.wAddr, h.wPtr, (run_tracks g x u).wPtr] at hslot
    -- a lap or more lies between the two writes, and less than a lap is unread
    have hread : writeCount g x u < readCount g x t := by
      by_contra hge
      have hslot' := (sameSlot_iff hlt.le (by omega)).mp hslot
      omega
    obtain ⟨v, -, hv, hrd, hnum⟩ := exists_event (read g x) hread
    exact ⟨v, hv, hrd, hnum⟩

end RpEcosystem.Fifo
