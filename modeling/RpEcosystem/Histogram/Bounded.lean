import RpEcosystem.Clocked.Modulo
import RpEcosystem.Histogram.Core

/-!
# The bounded histogram: `axis_histogram` of version 1.1

This version has a counter on `sts_data` and stops when it has reached `cfg_data - 1`. The state
machine takes a sample if the stream has one and the stop flag is not set, but the counter does
not look at the stream: it goes up in every cycle in which the core is ready.

* `Input`, `Regs`, `machine`: the circuit;
* `Exact`: the counter is the number of samples taken, and the last one closes the histogram;
* `Waits`: the registers when the core is ready and the counter is right;
* `bounded_exact_iff`: the streams for which the counter stays right.
-/

namespace RpEcosystem.Histogram.Bounded

open Clocked

variable {tw aw dw cw : Nat}

structure Input (tw cw : Nat) extends Histogram.Input tw where
  cfgData : BitVec cw

structure Regs (aw dw cw : Nat) where
  system : System aw dw
  compReg : Bool
  cntrReg : BitVec cw

namespace Regs

variable (r : Regs aw dw cw) (i : Input tw cw)

def compNext : Bool := decide (r.cntrReg ≠ i.cfgData - 1)

def cntrNext : BitVec cw :=
  if r.compReg && r.system.regs.tready then r.cntrReg + 1 else r.cntrReg

def stsData : BitVec cw := r.cntrReg

/-- The state machine takes the sample. -/
def takes : Bool := r.system.takes r.compReg i.toInput

end Regs

def machine (onWrite : BitVec dw → BitVec dw → BitVec dw → BitVec dw) (bram : Bram aw dw)
    (tw cw : Nat) : Machine (Input tw cw) (Regs aw dw cw) where
  reset := { system := .start bram, compReg := false, cntrReg := 0 }
  next i r :=
    { system := r.system.step onWrite r.compReg i.toInput
      compReg := r.compNext i
      cntrReg := r.cntrNext }

section Run

variable (onWrite : BitVec dw → BitVec dw → BitVec dw → BitVec dw) (bram : Bram aw dw)
  (x : Nat → Input tw cw)

def run (t : Nat) : Regs aw dw cw := (machine onWrite bram tw cw).run x t

def takenAt (t : Nat) : Bool := (run onWrite bram x t).takes (x t)

/-- The samples taken before cycle `t`. -/
def taken (t : Nat) : Nat := events (takenAt onWrite bram x) 0 t

/-- The samples of bin `a` taken before cycle `t`. -/
def binTaken (a : BitVec aw) (t : Nat) : Nat :=
  events (fun u => takenAt onWrite bram x u && decide ((x u).bin aw = a)) 0 t

/-- After the sweep the counter is the number of samples taken. From the cycle in which it is
`n - 1` on no bin gets another sample, and each holds what was counted until then. -/
def Exact (n : Nat) : Prop :=
  ∀ t, 2 ^ aw + 1 ≤ t →
    (run onWrite bram x t).stsData.toNat = taken onWrite bram x t ∧
      ((run onWrite bram x t).stsData.toNat = n - 1 → ∀ u, t ≤ u → ∀ a,
        binTaken onWrite bram x a u = binTaken onWrite bram x a t ∧
          ((run onWrite bram x u).system.regs.state = .readAddr →
            ((run onWrite bram x u).system.bram.cells a).toNat =
              min (binTaken onWrite bram x a t) (2 ^ dw - 1)))

theorem run_succ (t : Nat) : run onWrite bram x (t + 1) =
    { system := (run onWrite bram x t).system.step onWrite (run onWrite bram x t).compReg
        (x t).toInput
      compReg := (run onWrite bram x t).compNext (x t)
      cntrReg := (run onWrite bram x t).cntrNext } := rfl

theorem counts_binTaken (t : Nat) :
    Counts (fun a => binTaken onWrite bram x a t) (run onWrite bram x t).system :=
  counts_hits rfl (fun _ => rfl) t

variable {onWrite bram x}

theorem tready_eq (t : Nat) : (run onWrite bram x t).system.regs.tready =
    decide ((run onWrite bram x t).system.regs.state = .readAddr) :=
  (counts_binTaken onWrite bram x t).tready_eq

/-! ## One cycle -/

/-- The counter is `k`, and so is the number of samples taken. -/
structure Counted (onWrite : BitVec dw → BitVec dw → BitVec dw → BitVec dw) (bram : Bram aw dw)
    (x : Nat → Input tw cw) (k t : Nat) : Prop where
  cntr : (run onWrite bram x t).cntrReg.toNat = k
  taken : taken onWrite bram x t = k

theorem taken_succ (t : Nat) : taken onWrite bram x (t + 1) =
    taken onWrite bram x t + if takenAt onWrite bram x t then 1 else 0 :=
  events_succ _ (Nat.zero_le t)

/-- Nothing is counted while the core is not ready. -/
theorem Counted.busy {k t : Nat} (h : Counted onWrite bram x k t)
    (hbusy : (run onWrite bram x t).system.regs.state ≠ .readAddr) :
    Counted onWrite bram x k (t + 1) := by
  have htready : (run onWrite bram x t).system.regs.tready = false := by
    rw [tready_eq, decide_eq_false hbusy]
  constructor
  · rw [run_succ, Regs.cntrNext, htready, Bool.and_false]
    exact h.cntr
  · rw [taken_succ, takenAt, Regs.takes, takes_of_ne hbusy]
    exact h.taken

section Limit

variable {n : Nat} (hn : 2 ≤ n) (hx : ∀ t, (x t).cfgData.toNat = n)

include hn hx

theorem compReg_succ {k t : Nat} (h : Counted onWrite bram x k t) :
    (run onWrite bram x (t + 1)).compReg = decide (k ≠ n - 1) := by
  rw [run_succ, Regs.compNext, ← h.cntr]
  exact decide_eq_decide.2 (not_congr (eq_sub_one_iff (hx t) (by omega)))

/-! ## The sweep -/

omit hn hx in
/-- The sweep ends in cycle `2 ^ aw`, and nothing is counted in it. -/
theorem sweep {t : Nat} (ht : t < 2 ^ aw) :
    (run onWrite bram x (t + 1)).system.regs.state = .writeZeros ∧
      (run onWrite bram x (t + 1)).system.regs.addr.toNat = t ∧
      Counted onWrite bram x 0 (t + 1) := by
  induction t with
  | zero => exact ⟨rfl, rfl, rfl, rfl⟩
  | succ t ih =>
    obtain ⟨hstate, haddr, hcounted⟩ := ih (by omega)
    have hlast : (run onWrite bram x (t + 1)).system.regs.addr ≠ BitVec.allOnes aw := by
      intro htop
      rw [htop, BitVec.toNat_allOnes] at haddr
      omega
    refine ⟨?_, ?_, hcounted.busy (by rw [hstate]; decide)⟩
    · rw [run_succ]
      simp [System.step, Histogram.Regs.next, hstate, hlast]
    · rw [run_succ]
      simp only [System.step, Histogram.Regs.next, hstate, hlast, if_false]
      rw [toNat_add_one_of_ne hlast, haddr]

/-! ## Samples -/

/-- The core is ready for a sample, `k` have been taken, and the flag is up to date. -/
structure Waits (onWrite : BitVec dw → BitVec dw → BitVec dw → BitVec dw) (bram : Bram aw dw)
    (x : Nat → Input tw cw) (n k t : Nat) : Prop where
  counted : Counted onWrite bram x k t
  ready : (run onWrite bram x t).system.regs.state = .readAddr
  comp : (run onWrite bram x t).compReg = decide (k ≠ n - 1)

theorem waits_start : Waits onWrite bram x n 0 (2 ^ aw + 1) := by
  have hpos : 0 < 2 ^ aw := Nat.two_pow_pos aw
  obtain ⟨hstate, haddr, hcounted⟩ :=
    @sweep tw aw dw cw onWrite bram x (2 ^ aw - 1) (by omega)
  rw [Nat.sub_add_cancel hpos] at hstate haddr hcounted
  have hlast : (run onWrite bram x (2 ^ aw)).system.regs.addr = BitVec.allOnes aw :=
    BitVec.eq_of_toNat_eq (by rw [haddr, BitVec.toNat_allOnes])
  refine ⟨hcounted.busy (by rw [hstate]; decide), ?_, compReg_succ hn hx hcounted⟩
  rw [run_succ]
  simp [System.step, Histogram.Regs.next, hstate, hlast]

namespace Waits

variable {k t : Nat} (h : Waits onWrite bram x n k t)

include h

omit hn hx in
theorem takenAt_eq : takenAt onWrite bram x t = ((x t).sAxisTvalid && decide (k ≠ n - 1)) := by
  rw [takenAt, Regs.takes, System.takes, h.ready, h.comp]
  simp

omit hn in
/-- The counter goes up whether there is a sample or not. -/
theorem cntr_succ (hk : k < n - 1) : (run onWrite bram x (t + 1)).cntrReg.toNat = k + 1 := by
  have hfits := (x t).cfgData.isLt
  rw [hx t] at hfits
  rw [run_succ, Regs.cntrNext, tready_eq, h.ready, h.comp,
    decide_eq_true (by omega : k ≠ n - 1)]
  simp only [decide_true, Bool.and_self, if_true]
  rw [toNat_add_one_of_lt (by rw [h.counted.cntr]; omega), h.counted.cntr]

/-- A sample is counted, and the core is ready for the next one after four cycles. -/
theorem take (hk : k < n - 1) (hvalid : (x t).sAxisTvalid = true) :
    (∀ j, j < 3 → Counted onWrite bram x (k + 1) (t + 1 + j)) ∧
      Waits onWrite bram x n (k + 1) (t + 4) := by
  have htaken : takenAt onWrite bram x t = true := by
    rw [h.takenAt_eq, hvalid, decide_eq_true (by omega : k ≠ n - 1)]
    rfl
  have hcomp : (run onWrite bram x t).compReg = true := by
    rw [h.comp, decide_eq_true (by omega : k ≠ n - 1)]
  have hfirst : (run onWrite bram x (t + 1)).system.regs.state = .delay1 := by
    rw [run_succ]
    simp [System.step, Histogram.Regs.next, h.ready, hvalid, hcomp]
  have hsecond : (run onWrite bram x (t + 2)).system.regs.state = .incData := by
    rw [run_succ]
    simp [System.step, Histogram.Regs.next, hfirst]
  have hthird : (run onWrite bram x (t + 3)).system.regs.state = .delay2 := by
    rw [run_succ]
    simp [System.step, Histogram.Regs.next, hsecond]
  have hcounted : Counted onWrite bram x (k + 1) (t + 1) := by
    refine ⟨h.cntr_succ hx hk, ?_⟩
    rw [taken_succ, h.counted.taken, htaken]
    rfl
  have hcounted2 := hcounted.busy (by rw [hfirst]; decide)
  have hcounted3 := hcounted2.busy (by rw [hsecond]; decide)
  refine ⟨?_, hcounted3.busy (by rw [hthird]; decide), ?_, compReg_succ hn hx hcounted3⟩
  · intro j hj
    obtain rfl | rfl | rfl : j = 0 ∨ j = 1 ∨ j = 2 := by omega
    · exact hcounted
    · exact hcounted2
    · exact hcounted3
  · rw [run_succ]
    simp [System.step, Histogram.Regs.next, hthird]

omit hn in
/-- Without a sample the counter is one ahead. -/
theorem miss (hk : k < n - 1) (hnone : (x t).sAxisTvalid = false) :
    (run onWrite bram x (t + 1)).cntrReg.toNat = k + 1 ∧ taken onWrite bram x (t + 1) = k := by
  refine ⟨h.cntr_succ hx hk, ?_⟩
  rw [taken_succ, h.takenAt_eq, hnone, h.counted.taken]
  rfl

end Waits

/-- When enough samples are taken nothing changes any more. -/
theorem waits_stop {t : Nat} (h : Waits onWrite bram x n (n - 1) t) :
    Waits onWrite bram x n (n - 1) (t + 1) := by
  have hcomp : (run onWrite bram x t).compReg = false := by
    rw [h.comp]
    simp
  refine ⟨⟨?_, ?_⟩, ?_, compReg_succ hn hx h.counted⟩
  · rw [run_succ, Regs.cntrNext, hcomp]
    exact h.counted.cntr
  · rw [taken_succ, h.takenAt_eq, h.counted.taken]
    simp
  · rw [run_succ]
    simp [System.step, Histogram.Regs.next, h.ready, hcomp]

theorem waits_last {t u : Nat} (h : Waits onWrite bram x n (n - 1) t) (htu : t ≤ u) :
    Waits onWrite bram x n (n - 1) u := by
  induction u, htu using Nat.le_induction with
  | base => exact h
  | succ u _ ih => exact waits_stop hn hx ih

/-- The samples that are there in time are counted. -/
theorem waits_poll {k : Nat} (hk : k ≤ n - 1)
    (hvalid : ∀ j, j < k → (x (2 ^ aw + 1 + 4 * j)).sAxisTvalid = true) :
    Waits onWrite bram x n k (2 ^ aw + 1 + 4 * k) := by
  induction k with
  | zero => exact waits_start hn hx
  | succ k ih =>
    have hwaits := ih (by omega) fun j hj => hvalid j (by omega)
    exact (hwaits.take hn hx (by omega) (hvalid k (by omega))).2

/-- If all samples are there in time, the counter is right in every cycle. -/
theorem counted_of_valid
    (hvalid : ∀ j, j < n - 1 → (x (2 ^ aw + 1 + 4 * j)).sAxisTvalid = true) {t : Nat}
    (ht : 2 ^ aw + 1 ≤ t) : ∃ k ≤ n - 1, Counted onWrite bram x k t := by
  obtain ⟨d, rfl⟩ : ∃ d, t = 2 ^ aw + 1 + d := ⟨t - (2 ^ aw + 1), by omega⟩
  by_cases hd : d < 4 * (n - 1)
  · -- a sample of number `d / 4` is waited for or on its way
    have hlt : d / 4 < n - 1 := by omega
    have hwaits : Waits onWrite bram x n (d / 4) (2 ^ aw + 1 + 4 * (d / 4)) :=
      waits_poll hn hx hlt.le fun j hj => hvalid j (by omega)
    by_cases hmod : d % 4 = 0
    · refine ⟨d / 4, hlt.le, ?_⟩
      have hcounted := hwaits.counted
      rwa [show 4 * (d / 4) = d by omega] at hcounted
    · refine ⟨d / 4 + 1, by omega, ?_⟩
      have hcounted := (hwaits.take hn hx hlt (hvalid _ hlt)).1 (d % 4 - 1) (by omega)
      rwa [show 2 ^ aw + 1 + 4 * (d / 4) + 1 + (d % 4 - 1) = 2 ^ aw + 1 + d by omega] at hcounted
  · have hwaits : Waits onWrite bram x n (n - 1) (2 ^ aw + 1 + 4 * (n - 1)) :=
      waits_poll hn hx le_rfl hvalid
    exact ⟨n - 1, le_rfl, (waits_last hn hx hwaits (by omega)).counted⟩

end Limit

/-- No sample is taken between two cycles with the same count. -/
theorem binTaken_eq {t u : Nat} (htu : t ≤ u)
    (hsame : taken onWrite bram x u ≤ taken onWrite bram x t) (a : BitVec aw) :
    binTaken onWrite bram x a u = binTaken onWrite bram x a t := by
  apply events_quiet (Nat.zero_le t) htu
  intro v htv hvu
  cases hv : takenAt onWrite bram x v with
  | false => rfl
  | true =>
    have hmono : taken onWrite bram x t ≤ taken onWrite bram x v :=
      events_mono _ (Nat.zero_le t) htv
    have hlt : taken onWrite bram x v < taken onWrite bram x u :=
      events_lt _ (Nat.zero_le v) hvu hv
    omega

end Run

/-- The counter is right for as long as every sample up to the last one is there in the cycle in
which the core is ready for it. -/
theorem bounded_exact_iff (onWrite : BitVec dw → BitVec dw → BitVec dw → BitVec dw)
    (bram : Bram aw dw) (x : Nat → Input tw cw) {n : BitVec cw} (hn : 2 ≤ n.toNat)
    (hx : ∀ t, (x t).cfgData = n) :
    Exact onWrite bram x n.toNat ↔
      ∀ k, k < n.toNat - 1 → (x (2 ^ aw + 1 + 4 * k)).sAxisTvalid = true := by
  have hx' : ∀ t, (x t).cfgData.toNat = n.toNat := fun t => congrArg BitVec.toNat (hx t)
  constructor
  · intro hexact k
    induction k using Nat.strong_induction_on with
    | h k ih =>
      intro hk
      have hwaits : Waits onWrite bram x n.toNat k (2 ^ aw + 1 + 4 * k) :=
        waits_poll hn hx' hk.le fun j hj => ih j hj (by omega)
      by_contra hnone
      -- the counter goes up, the number of samples does not
      obtain ⟨hcntr, htaken⟩ := hwaits.miss hx' hk (Bool.eq_false_of_not_eq_true hnone)
      have heq := (hexact (2 ^ aw + 1 + 4 * k + 1) (by omega)).1
      rw [Regs.stsData, hcntr, htaken] at heq
      omega
  · intro hvalid t ht
    obtain ⟨k, -, hcounted⟩ := @counted_of_valid _ _ _ _ onWrite bram x _ hn hx' hvalid t ht
    refine ⟨hcounted.cntr.trans hcounted.taken.symm, ?_⟩
    intro hend u htu a
    obtain ⟨k', hk', hlater⟩ :=
      @counted_of_valid _ _ _ _ onWrite bram x _ hn hx' hvalid u (by omega)
    have hfull : taken onWrite bram x u ≤ taken onWrite bram x t := by
      rw [hlater.taken, hcounted.taken, ← hcounted.cntr]
      exact hk'.trans hend.ge
    have hsame := binTaken_eq htu hfull a
    refine ⟨hsame, ?_⟩
    intro hstate
    have hcounts := counts_binTaken onWrite bram x u
    simp only [Counts, hstate] at hcounts
    rw [← hsame]
    exact hcounts.2.2 a

/-- A stream with a sample in every cycle but the first one in which the core is ready. -/
def late (t : Nat) : Input 1 4 := ⟨⟨decide (t ≠ 3), 0⟩, 3⟩

def zeroBram : Bram 1 2 := ⟨fun _ => 0, 0, 0⟩

/-- The counter shows one sample when none has been taken. -/
theorem counter_ahead : ¬ Exact (fun old _ _ => old) zeroBram late 3 := by
  intro hexact
  have heq := (hexact 4 (by decide)).1
  exact absurd heq (by decide)

/-- A stream with a sample in every cycle. -/
def prompt (_ : Nat) : Input 1 4 := ⟨⟨true, 0⟩, 3⟩

theorem exact_prompt : Exact (fun old _ _ => old) zeroBram prompt 3 :=
  (bounded_exact_iff (fun old _ _ => old) zeroBram prompt (n := 3) (by decide) fun _ => rfl).2
    fun _ _ => rfl

end RpEcosystem.Histogram.Bounded
