import RpEcosystem.Clocked.Machine
import RpEcosystem.Clocked.Events
import Mathlib.Logic.Function.Basic

/-!
# The histogram `axis_histogram`

The core counts the samples of a stream in a block RAM, one word for each value of the lower
address bits. After a sweep that clears the memory a sample takes four cycles: its word is read
through a port with two registers, incremented unless it is at its maximum, and written back. In
the first of these cycles the address of the port is the sample on the stream itself.

* `Bram`: the memory with its read port;
* `Regs`, `System`: the core and the memory; the state machine of both versions of the core, which
  differ in a further condition for taking a sample;
* `Counts`, `Counts.step`: what memory and registers hold in each state;
* `bins_exact`: the counts of the first version.
-/

namespace RpEcosystem.Histogram

open Clocked

variable {tw aw dw : Nat}

/-! ## The memory -/

/-- A block RAM whose port has an output register: `rddata` is what was read two cycles ago. -/
structure Bram (aw dw : Nat) where
  cells : BitVec aw → BitVec dw
  latch : BitVec dw
  rddata : BitVec dw

/-- One clock edge of the memory. What a port shows for a cycle that writes is a setting of the
device: the old word, the new one or what it showed before. -/
def Bram.edge (onWrite : BitVec dw → BitVec dw → BitVec dw → BitVec dw) (we : Bool)
    (addr : BitVec aw) (wrdata : BitVec dw) (m : Bram aw dw) : Bram aw dw where
  cells := if we then Function.update m.cells addr wrdata else m.cells
  latch := if we then onWrite (m.cells addr) wrdata m.latch else m.cells addr
  rddata := m.latch

/-! ## The core -/

inductive State
  | idle
  | writeZeros
  | readAddr
  | delay1
  | incData
  | delay2
  deriving DecidableEq, Repr

structure Input (tw : Nat) where
  sAxisTvalid : Bool
  sAxisTdata : BitVec tw

/-- The address bits of a sample. -/
def Input.bin (i : Input tw) (aw : Nat) : BitVec aw := i.sAxisTdata.setWidth aw

structure Regs (aw dw : Nat) where
  state : State
  addr : BitVec aw
  data : BitVec dw
  tready : Bool
  wren : Bool

namespace Regs

def bramPortaAddr (r : Regs aw dw) (i : Input tw) : BitVec aw :=
  if r.wren then r.addr else i.bin aw

/-- The word that was read is at its maximum. -/
def wrenS (bramPortaRddata : BitVec dw) : Bool := decide (bramPortaRddata = BitVec.allOnes dw)

def reset : Regs aw dw where
  state := .idle
  addr := 0
  data := 0
  tready := false
  wren := false

/-- The next-state process; `gate` is the further condition for taking a sample. -/
def next (gate : Bool) (i : Input tw) (bramPortaRddata : BitVec dw) (r : Regs aw dw) :
    Regs aw dw :=
  match r.state with
  | .idle =>
    { r with
      addr := 0
      data := 0
      wren := true
      state := .writeZeros }
  | .writeZeros =>
    if r.addr = BitVec.allOnes aw then
      { r with
        addr := r.addr + 1
        tready := true
        wren := false
        state := .readAddr }
    else { r with addr := r.addr + 1 }
  | .readAddr =>
    if i.sAxisTvalid && gate then
      { r with
        addr := i.bin aw
        tready := false
        state := .delay1 }
    else r
  | .delay1 => { r with state := .incData }
  | .incData =>
    { r with
      data := bramPortaRddata + 1
      wren := !wrenS bramPortaRddata
      state := .delay2 }
  | .delay2 =>
    { r with
      tready := true
      wren := false
      state := .readAddr }

end Regs

/-- The core with its memory. -/
structure System (aw dw : Nat) where
  regs : Regs aw dw
  bram : Bram aw dw

namespace System

variable (onWrite : BitVec dw → BitVec dw → BitVec dw → BitVec dw) (gate : Bool) (i : Input tw)
  (s : System aw dw)

def step : System aw dw where
  regs := s.regs.next gate i s.bram.rddata
  bram := s.bram.edge onWrite s.regs.wren (s.regs.bramPortaAddr i) s.regs.data

/-- The state machine takes the sample: it goes from `ST_READ_ADDR` to `ST_DELAY1`. -/
def takes : Bool := decide (s.regs.state = .readAddr) && i.sAxisTvalid && gate

/-- The state after reset, with any contents of the memory. -/
def start (bram : Bram aw dw) : System aw dw := { regs := .reset, bram := bram }

end System

/-! ## What the memory holds -/

section Cells

variable {n : BitVec aw → Nat} {cells : BitVec aw → BitVec dw} {a : BitVec aw}

/-- Every word is the count of its bin, up to the maximum. -/
def Holds (n : BitVec aw → Nat) (cells : BitVec aw → BitVec dw) : Prop :=
  ∀ a, (cells a).toNat = min (n a) (2 ^ dw - 1)

/-- The counts with one sample more in bin `a`. -/
def bump (n : BitVec aw → Nat) (a b : BitVec aw) : Nat := n b + if a = b then 1 else 0

/-- A word that is not at its maximum is incremented, another one is kept. -/
theorem Holds.bump_of_lt (h : Holds n cells) (hlt : cells a ≠ BitVec.allOnes dw) :
    Holds (bump n a) (Function.update cells a (cells a + 1)) := by
  have hsucc := toNat_add_one_of_ne hlt
  have hword := (cells a + 1).isLt
  have ha := h a
  intro b
  by_cases hb : a = b
  · subst hb
    rw [Function.update_self, hsucc, bump, if_pos rfl]
    omega
  · rw [Function.update_of_ne (Ne.symm hb), bump, if_neg hb]
    exact h b

theorem Holds.bump_of_full (h : Holds n cells) (hfull : cells a = BitVec.allOnes dw) :
    Holds (bump n a) cells := by
  intro b
  by_cases hb : a = b
  · subst hb
    have ha := h a
    rw [hfull, BitVec.toNat_allOnes] at ha
    rw [hfull, BitVec.toNat_allOnes, bump, if_pos rfl]
    omega
  · rw [bump, if_neg hb]
    exact h b

end Cells

/-- The registers and the memory after `n a` samples in each bin `a`: while a sample is on its way
the memory is one behind in its bin. -/
def Counts (n : BitVec aw → Nat) (s : System aw dw) : Prop :=
  match s.regs.state with
  | .idle => s.regs.tready = false ∧ ∀ a, n a = 0
  | .writeZeros => s.regs.tready = false ∧ s.regs.wren = true ∧ s.regs.data = 0 ∧
      (∀ a, a.toNat < s.regs.addr.toNat → s.bram.cells a = 0) ∧ ∀ a, n a = 0
  | .readAddr => s.regs.tready = true ∧ s.regs.wren = false ∧ Holds n s.bram.cells
  | .delay1 => s.regs.tready = false ∧ s.regs.wren = false ∧
      s.bram.latch = s.bram.cells s.regs.addr ∧
      ∃ m, n = bump m s.regs.addr ∧ Holds m s.bram.cells
  | .incData => s.regs.tready = false ∧ s.regs.wren = false ∧
      s.bram.rddata = s.bram.cells s.regs.addr ∧
      ∃ m, n = bump m s.regs.addr ∧ Holds m s.bram.cells
  | .delay2 => s.regs.tready = false ∧ s.regs.data = s.bram.cells s.regs.addr + 1 ∧
      s.regs.wren = !Regs.wrenS (s.bram.cells s.regs.addr) ∧
      ∃ m, n = bump m s.regs.addr ∧ Holds m s.bram.cells

section Step

variable {onWrite : BitVec dw → BitVec dw → BitVec dw → BitVec dw} {gate : Bool} {i : Input tw}
  {n : BitVec aw → Nat} {s : System aw dw}

theorem takes_of_ne (h : s.regs.state ≠ .readAddr) : s.takes gate i = false := by
  simp [System.takes, h]

theorem Counts.tready_eq (h : Counts n s) : s.regs.tready = decide (s.regs.state = .readAddr) := by
  unfold Counts at h
  cases hstate : s.regs.state <;> rw [hstate] at h <;> exact h.1

/-- The sweep writes a zero into one word after the other. -/
theorem Counts.step_writeZeros (h : Counts n s) (hstate : s.regs.state = .writeZeros) :
    Counts n (s.step onWrite gate i) := by
  simp only [Counts, hstate] at h
  obtain ⟨htready, hwren, hdata, hclear, hn⟩ := h
  have hcells : (s.step onWrite gate i).bram.cells =
      Function.update s.bram.cells s.regs.addr 0 := by
    simp [System.step, Bram.edge, Regs.bramPortaAddr, hwren, hdata]
  have hzero : ∀ a, a.toNat ≤ s.regs.addr.toNat →
      (s.step onWrite gate i).bram.cells a = 0 := by
    intro a ha
    rw [hcells, Function.update_apply]
    split
    next => rfl
    next hne =>
      have hne' : a.toNat ≠ s.regs.addr.toNat := fun heq => hne (BitVec.eq_of_toNat_eq heq)
      exact hclear a (by omega)
  by_cases hlast : s.regs.addr = BitVec.allOnes aw
  · have hregs : (s.step onWrite gate i).regs = { s.regs with
        addr := s.regs.addr + 1, tready := true, wren := false, state := .readAddr } := by
      simp [System.step, Regs.next, hstate, hlast]
    simp only [Counts, hregs]
    refine ⟨trivial, trivial, fun a => ?_⟩
    have ha := a.isLt
    rw [hzero a (by rw [hlast, BitVec.toNat_allOnes]; omega), hn a]
    simp
  · have hregs : (s.step onWrite gate i).regs = { s.regs with addr := s.regs.addr + 1 } := by
      simp [System.step, Regs.next, hstate, hlast]
    simp only [Counts, hregs, hstate]
    refine ⟨htready, hwren, hdata, fun a ha => hzero a ?_, hn⟩
    rw [toNat_add_one_of_ne hlast] at ha
    omega

/-- A sample that is taken is on its way, and its word is being read. -/
theorem Counts.step_readAddr (h : Counts n s) (hstate : s.regs.state = .readAddr) :
    Counts (if s.takes gate i then bump n (i.bin aw) else n) (s.step onWrite gate i) := by
  simp only [Counts, hstate] at h
  obtain ⟨htready, hwren, hholds⟩ := h
  have htakes : s.takes gate i = (i.sAxisTvalid && gate) := by simp [System.takes, hstate]
  have hbram : (s.step onWrite gate i).bram =
      { cells := s.bram.cells, latch := s.bram.cells (i.bin aw), rddata := s.bram.latch } := by
    simp [System.step, Bram.edge, Regs.bramPortaAddr, hwren]
  rw [htakes]
  cases htaken : i.sAxisTvalid && gate with
  | false =>
    have hregs : (s.step onWrite gate i).regs = s.regs := by
      simp [System.step, Regs.next, hstate, htaken]
    simp only [Counts, hregs, hstate, hbram]
    exact ⟨htready, hwren, hholds⟩
  | true =>
    have hregs : (s.step onWrite gate i).regs =
        { s.regs with addr := i.bin aw, tready := false, state := .delay1 } := by
      simp [System.step, Regs.next, hstate, htaken]
    simp only [Counts, hregs, hbram]
    exact ⟨trivial, hwren, trivial, n, rfl, hholds⟩

theorem Counts.step_delay1 (h : Counts n s) (hstate : s.regs.state = .delay1) :
    Counts n (s.step onWrite gate i) := by
  simp only [Counts, hstate] at h
  obtain ⟨htready, hwren, hlatch, hpending⟩ := h
  have hregs : (s.step onWrite gate i).regs = { s.regs with state := .incData } := by
    simp [System.step, Regs.next, hstate]
  have hcells : (s.step onWrite gate i).bram.cells = s.bram.cells := by
    simp [System.step, Bram.edge, hwren]
  simp only [Counts, hregs, hcells]
  exact ⟨htready, hwren, hlatch, hpending⟩

theorem Counts.step_incData (h : Counts n s) (hstate : s.regs.state = .incData) :
    Counts n (s.step onWrite gate i) := by
  simp only [Counts, hstate] at h
  obtain ⟨htready, hwren, hrddata, hpending⟩ := h
  have hregs : (s.step onWrite gate i).regs = { s.regs with
      data := s.bram.rddata + 1, wren := !Regs.wrenS s.bram.rddata, state := .delay2 } := by
    simp [System.step, Regs.next, hstate]
  have hcells : (s.step onWrite gate i).bram.cells = s.bram.cells := by
    simp [System.step, Bram.edge, hwren]
  simp only [Counts, hregs, hcells, hrddata]
  exact ⟨htready, trivial, trivial, hpending⟩

/-- The word is written back, and the memory has caught up. -/
theorem Counts.step_delay2 (h : Counts n s) (hstate : s.regs.state = .delay2) :
    Counts n (s.step onWrite gate i) := by
  simp only [Counts, hstate] at h
  obtain ⟨htready, hdata, hwren, m, rfl, hholds⟩ := h
  have hregs : (s.step onWrite gate i).regs = { s.regs with
      tready := true, wren := false, state := .readAddr } := by
    simp [System.step, Regs.next, hstate]
  simp only [Counts, hregs]
  refine ⟨trivial, trivial, ?_⟩
  by_cases hfull : s.bram.cells s.regs.addr = BitVec.allOnes dw
  · have hcells : (s.step onWrite gate i).bram.cells = s.bram.cells := by
      simp [System.step, Bram.edge, hwren, Regs.wrenS, hfull]
    rw [hcells]
    exact hholds.bump_of_full hfull
  · have hcells : (s.step onWrite gate i).bram.cells =
        Function.update s.bram.cells s.regs.addr (s.bram.cells s.regs.addr + 1) := by
      simp [System.step, Bram.edge, Regs.bramPortaAddr, hwren, Regs.wrenS, hfull, hdata]
    rw [hcells]
    exact hholds.bump_of_lt hfull

/-- One edge adds the sample that is taken to the counts. -/
theorem Counts.step (h : Counts n s) :
    Counts (if s.takes gate i then bump n (i.bin aw) else n) (s.step onWrite gate i) := by
  by_cases hread : s.regs.state = .readAddr
  · exact h.step_readAddr hread
  · rw [takes_of_ne hread, if_neg Bool.false_ne_true]
    cases hstate : s.regs.state with
    | idle =>
      simp only [Counts, hstate] at h
      have hregs : (s.step onWrite gate i).regs = { s.regs with
          addr := 0, data := 0, wren := true, state := .writeZeros } := by
        simp [System.step, Regs.next, hstate]
      simp only [Counts, hregs]
      exact ⟨h.1, trivial, trivial, fun a ha => absurd ha (by simp), h.2⟩
    | writeZeros => exact h.step_writeZeros hstate
    | readAddr => exact absurd hstate hread
    | delay1 => exact h.step_delay1 hstate
    | incData => exact h.step_incData hstate
    | delay2 => exact h.step_delay2 hstate

end Step

/-! ## Runs -/

/-- The samples of bin `a` that are taken before cycle `t`. -/
def hits (s : Nat → System aw dw) (gate : Nat → Bool) (x : Nat → Input tw) (a : BitVec aw)
    (t : Nat) : Nat :=
  events (fun u => (s u).takes (gate u) (x u) && decide ((x u).bin aw = a)) 0 t

theorem counts_hits {onWrite : BitVec dw → BitVec dw → BitVec dw → BitVec dw}
    {s : Nat → System aw dw} {gate : Nat → Bool} {x : Nat → Input tw} {bram : Bram aw dw}
    (h0 : s 0 = .start bram) (hstep : ∀ t, s (t + 1) = (s t).step onWrite (gate t) (x t))
    (t : Nat) : Counts (fun a => hits s gate x a t) (s t) := by
  induction t with
  | zero =>
    rw [h0]
    exact ⟨rfl, fun _ => rfl⟩
  | succ t ih =>
    have hsucc : (fun a => hits s gate x a (t + 1)) = if (s t).takes (gate t) (x t)
        then bump (fun a => hits s gate x a t) ((x t).bin aw)
        else fun a => hits s gate x a t := by
      funext a
      rw [hits, events_succ _ (Nat.zero_le t)]
      cases (s t).takes (gate t) (x t) <;> simp [bump, hits]
    rw [hsucc, hstep]
    exact ih.step

/-! ## The first version -/

section First

/-- `axis_histogram` of version 1.0 takes every sample. -/
def machine (onWrite : BitVec dw → BitVec dw → BitVec dw → BitVec dw) (bram : Bram aw dw) :
    Machine (Input tw) (System aw dw) where
  reset := .start bram
  next i s := s.step onWrite true i

variable (onWrite : BitVec dw → BitVec dw → BitVec dw → BitVec dw) (bram : Bram aw dw)
  (x : Nat → Input tw)

def run (t : Nat) : System aw dw := (machine onWrite bram).run x t

/-- A sample is transferred on `s_axis`. -/
def accepted (t : Nat) : Bool := (x t).sAxisTvalid && (run onWrite bram x t).regs.tready

/-- The samples of bin `a` accepted before cycle `t`. -/
def samples (a : BitVec aw) (t : Nat) : Nat :=
  events (fun u => accepted onWrite bram x u && decide ((x u).bin aw = a)) 0 t

/-- Whenever the core waits for a sample, every bin holds its number of samples, or the maximum. -/
theorem bins_exact (t : Nat) (ht : (run onWrite bram x t).regs.state = .readAddr)
    (a : BitVec aw) : ((run onWrite bram x t).bram.cells a).toNat =
      min (samples onWrite bram x a t) (2 ^ dw - 1) := by
  have hcounts : ∀ t, Counts (fun a => hits (run onWrite bram x) (fun _ => true) x a t)
      (run onWrite bram x t) := fun t => counts_hits rfl (fun _ => rfl) t
  have htakes : ∀ u, (run onWrite bram x u).takes true (x u) = accepted onWrite bram x u := by
    intro u
    rw [accepted, (hcounts u).tready_eq, System.takes, Bool.and_true, Bool.and_comm]
  have hend := hcounts t
  simp only [Counts, ht] at hend
  rw [hend.2.2 a]
  simp only [hits, samples, htakes]

/-- Words of two bits with a memory full of ones, and a stream of the value `1`. -/
def onesBram : Bram 1 2 := ⟨fun _ => 3, 3, 3⟩

def steady (_ : Nat) : Input 1 := ⟨true, 1⟩

/-- The fifth sample finds the word at its maximum. -/
theorem bins_exact_steady : (run (fun old _ _ => old) onesBram steady 23).regs.state = .readAddr ∧
    samples (fun old _ _ => old) onesBram steady 1 23 = 5 ∧
    ((run (fun old _ _ => old) onesBram steady 23).bram.cells 1).toNat = 3 := by
  have hstate : (run (fun old _ _ => old) onesBram steady 23).regs.state = .readAddr := by decide
  have hfive : samples (fun old _ _ => old) onesBram steady 1 23 = 5 := by decide
  refine ⟨hstate, hfive, ?_⟩
  rw [bins_exact _ _ _ 23 hstate 1, hfive]
  rfl

end First

end RpEcosystem.Histogram
