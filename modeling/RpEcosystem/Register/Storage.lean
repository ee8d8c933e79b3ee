import RpEcosystem.Clocked.Stream
import RpEcosystem.Register.Core

/-!
# The configuration register as a byte-addressable memory

`Memory` is what software believes it writes: words of four bytes, of which a write replaces
those its strobe selects. Every edge of the circuit with `reset_s` low is at most one write
of that memory (`byte_next`), so the output bits are the writes accepted since reset, in order
(`stored`). The one-bit flip-flops and the enables appear in `byte_next` only.

`cfg_is_memory` is the refinement for every power of two of words from 2 on, together with the
word that a read captures.
-/

namespace RpEcosystem.Register

open Clocked

/-! ## The memory -/

/-- The byte `b` of the word `j`. -/
abbrev Memory : Type := Nat → Nat → BitVec 8

/-- An accepted write. -/
structure Write where
  word : Nat
  data : BitVec 32
  strb : BitVec 4
  deriving DecidableEq, Repr

namespace Memory

def zero : Memory := fun _ _ => 0

/-- The bytes selected by the strobe are replaced in one word. -/
def write (m : Memory) (w : Write) : Memory := fun j b =>
  if j = w.word ∧ w.strb.getLsbD b = true then w.data.extractLsb' (8 * b) 8 else m j b

/-- The memory agrees with a register file on its words. -/
def Shows (g : Generics) (m : Memory) (data : BitVec g.dataWidth) : Prop :=
  ∀ j b, j < g.size → b < 4 → data.extractLsb' (32 * j + 8 * b) 8 = m j b

end Memory

namespace Cfg

variable {g : Generics}

/-! ## One edge -/

theorem getLsbD_next {i : Input} {r : Regs g} {p : Nat} (hp : p < g.dataWidth) :
    (next i r).cfgData.getLsbD p = fdre (tmpS1 g i (p / 32) (p % 32)) r.resetS
      (i.wdata.getLsbD (p % 32)) (r.cfgData.getLsbD p) :=
  getLsbD_generate _ hp

theorem cfgData_reset (i : Input) {r : Regs g} (h : r.resetS = true) :
    (next i r).cfgData = 0 := by
  apply BitVec.eq_of_getLsbD_eq
  intro p hp
  rw [getLsbD_next hp, fdre, h]
  simp

/-- With the reset released a byte is kept, or replaced by the byte written to it. -/
theorem byte_next (i : Input) {r : Regs g} (h : r.resetS = false) {j b : Nat}
    (hj : j < g.size) (hb : b < 4) :
    (next i r).cfgData.extractLsb' (32 * j + 8 * b) 8 =
      if i.intWvalidWire = true ∧ j = g.index i.awaddr ∧ i.wstrb.getLsbD b = true then
        i.wdata.extractLsb' (8 * b) 8
      else r.cfgData.extractLsb' (32 * j + 8 * b) 8 := by
  have hw := g.dataWidth_eq
  apply BitVec.eq_of_getLsbD_eq
  intro k hk
  have hword : (32 * j + 8 * b + k) / 32 = j := by omega
  have hbit : (32 * j + 8 * b + k) % 32 = 8 * b + k := by omega
  have hbyte : (8 * b + k) / 8 = b := by omega
  have hce : tmpS1 g i j (8 * b + k) = true ↔
      i.intWvalidWire = true ∧ j = g.index i.awaddr ∧ i.wstrb.getLsbD b = true := by
    rw [tmpS1, intCeWire, hbyte, Bool.and_eq_true, Bool.and_eq_true, decide_eq_true_eq, and_assoc,
      @eq_comm _ j]
  rw [BitVec.getLsbD_extractLsb', getLsbD_next (by omega), hword, hbit, h, fdre]
  simp only [Bool.false_eq_true, if_false, hce, hk, decide_true, Bool.true_and]
  split <;> simp [hk]

/-! ## A run -/

/-- The write accepted in a cycle. -/
def accepted (g : Generics) (x : Nat → Input) (t : Nat) : Option Write :=
  if (x t).awvalid && (x t).wvalid then
    some ⟨(x t).awaddr.toNat / 4 % g.size, (x t).wdata, (x t).wstrb⟩
  else none

variable {r : Regs g} {x : Nat → Input} {t₀ : Nat}

theorem resetS_after (hrel : ∀ t, t₀ ≤ t → (x t).aresetn = true) {t : Nat} (ht : t₀ < t) :
    (runFrom r x t).resetS = false := by
  obtain ⟨u, rfl⟩ : ∃ u, t = u + 1 := ⟨t - 1, by omega⟩
  rw [runFrom_succ]
  exact congrArg Bool.not (hrel u (by omega))

/-- One edge is at most one write of the memory. -/
theorem shows_next {m : Nat} (hm : 1 ≤ m) (hsize : g.size = 2 ^ m) {t : Nat} {mem : Memory}
    (hreset : (runFrom r x t).resetS = false) (h : mem.Shows g (runFrom r x t).cfgData) :
    ((accepted g x t).toList.foldl Memory.write mem).Shows g (runFrom r x (t + 1)).cfgData := by
  have hindex : g.index (x t).awaddr = (x t).awaddr.toNat / 4 % g.size := by
    rw [g.index_eq, g.pow_width_of_pow hm hsize, hsize]
  intro j b hj hb
  rw [runFrom_succ, byte_next (x t) hreset hj hb, hindex, h j b hj hb, accepted,
    Input.intWvalidWire]
  by_cases hacc : ((x t).awvalid && (x t).wvalid) = true
  · simp only [hacc, true_and, if_true, Option.toList_some, List.foldl_cons, List.foldl_nil,
      Memory.write]
  · rw [if_neg fun hsel => hacc hsel.1, if_neg hacc]
    rfl

/-- After reset the output bits are the accepted writes, folded into a memory of zeros. -/
theorem stored {m : Nat} (hm : 1 ≤ m) (hsize : g.size = 2 ^ m)
    (h0 : (runFrom r x t₀).resetS = true) (hrel : ∀ t, t₀ ≤ t → (x t).aresetn = true) {t : Nat}
    (ht : t₀ < t) :
    ((transfers (accepted g x) (t₀ + 1) t).foldl Memory.write Memory.zero).Shows g
      (runFrom r x t).cfgData := by
  induction t, ht using Nat.le_induction with
  | base =>
    intro j b _ _
    rw [runFrom_succ, cfgData_reset (x t₀) h0, transfers_self]
    simp [Memory.zero]
  | succ t ht ih =>
    rw [transfers_succ _ ht, List.foldl_append]
    exact shows_next hm hsize (resetS_after hrel ht) ih

/-- From the cycle on in which `reset_s` is low, the output is the byte-addressable memory after
the writes accepted so far, and a read captures the word of that output its address names. -/
theorem cfg_is_memory (g : Generics) (m : Nat) (hm : 1 ≤ m) (hsize : g.size = 2 ^ m)
    (r : Regs g) (x : Nat → Input) (t₀ : Nat) (h0 : (runFrom r x t₀).resetS = true)
    (hrel : ∀ t, t₀ ≤ t → (x t).aresetn = true) (t : Nat) (ht : t₀ < t) :
    ((transfers (accepted g x) (t₀ + 1) t).foldl Memory.write Memory.zero).Shows g
        (runFrom r x t).cfgData ∧
      ((x t).arvalid = true → (runFrom r x (t + 1)).rdata =
        g.word (runFrom r x t).cfgData ((x t).araddr.toNat / 4 % g.size)) := by
  refine ⟨stored hm hsize h0 hrel ht, fun hread => ?_⟩
  have hindex : g.index (x t).araddr = (x t).araddr.toNat / 4 % g.size := by
    rw [g.index_eq, g.pow_width_of_pow hm hsize, hsize]
  have hin : (x t).araddr.toNat / 4 % g.size < g.size := Nat.mod_lt _ g.size_pos
  rw [runFrom_succ, Regs.rdata, next, if_pos (hrel t ht.le), if_pos hread, hindex,
    Generics.readMux, if_pos hin]
  rfl

/-- A write of two bytes to word 33, which is word 1 of 32, and a read of it two cycles later;
the other cycles are quiet. The first cycle is the last one in reset. -/
def Input.twoBytes (t : Nat) : Input where
  aresetn := decide (1 ≤ t)
  awaddr := 132#32
  awvalid := decide (t = 3)
  wdata := 0xAABBCCDD#32
  wstrb := 0b0101#4
  wvalid := decide (t = 3)
  bready := true
  araddr := 4#32
  arvalid := decide (t = 5)
  rready := true

theorem cfg_is_memory_twoBytes :
    ((runFrom ((machine .standard).reset) Input.twoBytes 5).cfgData.extractLsb' 48 8 = 0xBB#8) ∧
      (runFrom ((machine .standard).reset) Input.twoBytes 6).rdata =
        Generics.standard.word
          (runFrom ((machine .standard).reset) Input.twoBytes 5).cfgData 1 := by
  obtain ⟨hmem, hread⟩ := cfg_is_memory .standard 5 (by decide) rfl ((machine .standard).reset)
    Input.twoBytes 1 rfl (fun t ht => decide_eq_true ht) 5 (by decide)
  exact ⟨(hmem 1 2 (by decide) (by decide)).trans (by decide), hread rfl⟩

end Cfg

end RpEcosystem.Register
