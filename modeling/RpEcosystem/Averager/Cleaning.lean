import RpEcosystem.Averager.Scope

/-!
# Averaging from zero

The words of the accumulation memory are set to zero after a run, up to the number of samples that
is configured then. A reset ends a run without that.

* `zeroed`: how far the zeroing has come;
* `Covered`: a return to `ST_IDLE` behind all beats of the run;
* `Left`, `left_step`: what the memory may still hold in any state, with resets and configurations
  of any kind;
* `starts_clean`: a run whose returns are all covered starts from zero every time.
-/

namespace RpEcosystem.Averager.Scope

open Clocked

variable {aw : Nat}

/-- The words that the zeroing under way has gone through. -/
def zeroed (aw : Nat) (x : Nat → Input) : Nat → Nat
  | 0 => 0
  | t + 1 => if (run aw x t).state = .wrZeros then zeroed aw x t + 1 else 0

/-- Whenever a run is started, the words it will read are zero. -/
def StartsClean (aw : Nat) (x : Nat → Input) : Prop :=
  ∀ t, (run aw x t).state = .idle → (run aw x (t + 1)).state = .waitTrig →
    ∀ k, k.toNat < (x t).nsamplesI.toNat / 8 → (run aw x t).ram k = 0

/-- An edge that brings the circuit back to `ST_IDLE`, by the reset or at the end of the zeroing,
comes after as many words were set to zero as the longest sweep of the run has beats. -/
def Covered (aw : Nat) (x : Nat → Input) (t : Nat) : Prop :=
  (run aw x t).state ≠ .idle → (run aw x (t + 1)).state = .idle →
    ∀ sweep ∈ sweepLog aw x (t + 1), min sweep.length (2 ^ aw) ≤ zeroed aw x (t + 1)

instance (x : Nat → Input) (t : Nat) : Decidable (Covered aw x t) :=
  inferInstanceAs (Decidable (_ → _ → ∀ sweep ∈ sweepLog aw x (t + 1), _ ≤ _))

/-! ## What is left in the memory -/

/-- A word that is not zero has been reached by a sweep and not yet by the zeroing. -/
def Left (log : List (List (BitVec 128))) (z : Nat) (s : Regs aw) : Prop :=
  ∀ k, s.ram k ≠ 0 → z ≤ k.toNat ∧ ∃ sweep ∈ log, k.toNat < sweep.length

/-- Where the next word is written. -/
def Pointer (log : List (List (BitVec 128))) (z : Nat) (s : Regs aw) : Prop :=
  match s.state with
  | .idle => True
  | .waitTrig => s.tdpAddra = 0
  | .enTdpb => s.tdpAddra = 0 ∧ ∃ closed, log = closed ++ [[]]
  | .avgScope =>
    ∃ closed current, log = closed ++ [current] ∧ s.tdpAddra = BitVec.ofNat aw current.length
  | .finish => s.tdpAddra = 0
  | .wrZeros => s.tdpAddra = BitVec.ofNat aw z

section Step

variable {i : Input} {s : Regs aw} {log : List (List (BitVec 128))} {z : Nat}

/-- The zeroing after one more edge. -/
def zeroedNext (s : Regs aw) (z : Nat) : Nat := if s.state = .wrZeros then z + 1 else 0

theorem zeroedNext_of_ne (h : s.state ≠ .wrZeros) : zeroedNext s z = 0 := if_neg h

theorem left_beat {closed : List (List (BitVec 128))} {current : List (BitVec 128)}
    (hleft : Left (closed ++ [current]) z s) (haddra : s.tdpAddra = BitVec.ofNat aw current.length)
    (dia b : BitVec 128) {k : BitVec aw} (hk : writeA true s.tdpAddra dia s.ram k ≠ 0) :
    ∃ sweep ∈ closed ++ [current ++ [b]], k.toNat < sweep.length := by
  rw [writeA_apply] at hk
  split at hk
  next heq =>
    refine ⟨current ++ [b], by simp, ?_⟩
    rw [heq.2, haddra, BitVec.toNat_ofNat, List.length_append, List.length_singleton]
    exact Nat.lt_succ_of_le (Nat.mod_le _ _)
  next =>
    obtain ⟨-, sweep, hsweep, hlt⟩ := hleft k hk
    rcases List.mem_append.mp hsweep with hin | hin
    · exact ⟨sweep, List.mem_append_left _ hin, hlt⟩
    · rw [List.mem_singleton.mp hin] at hlt
      exact ⟨current ++ [b], by simp, by rw [List.length_append]; omega⟩

theorem left_zero (hleft : Left log z s) (haddra : s.tdpAddra = BitVec.ofNat aw z)
    {k : BitVec aw} (hk : writeA true s.tdpAddra 0 s.ram k ≠ 0) :
    z + 1 ≤ k.toNat ∧ ∃ sweep ∈ log, k.toNat < sweep.length := by
  rw [writeA_apply] at hk
  split at hk
  next => exact absurd rfl hk
  next hne =>
    obtain ⟨hz, hsweep⟩ := hleft k hk
    refine ⟨Nat.lt_of_le_of_ne hz fun heq => hne ⟨rfl, ?_⟩, hsweep⟩
    rw [haddra, heq, BitVec.ofNat_toNat, BitVec.setWidth_eq]

theorem wea_idle (h : s.state = .idle) : (wires i s).tdpWea = false := by simp [wires, h]

theorem step_ram_quiet (h : (wires i s).tdpWea = false) : (step i s).ram = s.ram := by
  rw [step_ram, h, writeA, cond_false]

/-- Without a write the memory is kept and no less is recorded. -/
theorem Left.quiet (hleft : Left log z s) (hwea : (wires i s).tdpWea = false)
    {log' : List (List (BitVec 128))} (hlog : ∀ sweep ∈ log, sweep ∈ log') :
    Left log' 0 (step i s) := by
  intro k hk
  rw [step_ram_quiet hwea] at hk
  obtain ⟨-, sweep, hsweep, hlt⟩ := hleft k hk
  exact ⟨Nat.zero_le _, sweep, hlog sweep hsweep, hlt⟩

theorem left_step (hleft : Left log z s) (hpointer : Pointer log z s)
    (hidle : s.state = .idle → ∀ k, s.ram k = 0) :
    Left ((marks i s).record log) (zeroedNext s z) (step i s) := by
  rw [Pointer] at hpointer
  cases hstate : s.state with
  | idle =>
    intro k hk
    rw [step_ram_quiet (wea_idle hstate)] at hk
    exact absurd (hidle hstate k) hk
  | waitTrig =>
    rw [record_waitTrig hstate, zeroedNext_of_ne (by simp [hstate])]
    refine hleft.quiet (by simp [wires, hstate]) fun sweep hsweep => ?_
    split
    next => exact List.mem_append_left _ hsweep
    next => exact hsweep
  | enTdpb =>
    rw [record_other (by simp [hstate]) (by simp [hstate]) (by simp [hstate]),
      zeroedNext_of_ne (by simp [hstate])]
    refine hleft.quiet ?_ fun _ => id
    simp only [wires, hstate]
    split <;> rfl
  | avgScope =>
    rw [zeroedNext_of_ne (by simp [hstate])]
    rw [hstate] at hpointer
    obtain ⟨closed, current, rfl, haddra⟩ := hpointer
    cases hvalid : i.sAxisTvalid with
    | true =>
      have hwea : (wires i s).tdpWea = true := by
        simp only [wires, hstate, hvalid, if_true]
        split <;> rfl
      rw [record_avgScope hstate hvalid]
      intro k hk
      rw [step_ram, hwea] at hk
      exact ⟨Nat.zero_le _, left_beat hleft haddra _ _ hk⟩
    | false =>
      rw [record_other (by simp [hstate]) (by simp [hstate]) (fun _ => hvalid)]
      exact hleft.quiet (by simp [wires, hstate, hvalid]) fun _ => id
  | finish =>
    rw [record_other (by simp [hstate]) (by simp [hstate]) (by simp [hstate]),
      zeroedNext_of_ne (by simp [hstate])]
    exact hleft.quiet (by simp [wires, hstate]) fun _ => id
  | wrZeros =>
    rw [record_other (by simp [hstate]) (by simp [hstate]) (by simp [hstate]), zeroedNext,
      if_pos hstate]
    rw [hstate] at hpointer
    intro k hk
    rw [step_ram, show (wires i s).tdpWea = true by simp [wires, hstate],
      show (wires i s).tdpDia = 0 by simp [wires, hstate]] at hk
    exact left_zero hleft hpointer hk

theorem pointer_waitTrig (hresetn : i.sAxisAresetn = true) (hstate : s.state = .waitTrig)
    (hpointer : Pointer log z s) :
    Pointer ((marks i s).record log) (zeroedNext s z) (step i s) := by
  rw [Pointer, hstate] at hpointer
  rw [record_waitTrig hstate]
  cases htrig : i.trigI with
  | true =>
    simp only [Pointer, step, wires, hstate, hresetn, htrig, cond_true, if_true]
    exact ⟨hpointer, log, rfl⟩
  | false =>
    simp only [Pointer, step, wires, hstate, hresetn, htrig, cond_true, Bool.false_eq_true,
      if_false]
    exact hpointer

theorem pointer_enTdpb (hresetn : i.sAxisAresetn = true) (hstate : s.state = .enTdpb)
    (hpointer : Pointer log z s) :
    Pointer ((marks i s).record log) (zeroedNext s z) (step i s) := by
  rw [Pointer, hstate] at hpointer
  obtain ⟨haddra, closed, hlog⟩ := hpointer
  rw [record_other (by simp [hstate]) (by simp [hstate]) (by simp [hstate])]
  cases hvalid : i.sAxisTvalid with
  | true =>
    simp only [Pointer, step, wires, hstate, hresetn, hvalid, cond_true, if_true]
    exact ⟨closed, [], hlog, haddra⟩
  | false =>
    simp only [Pointer, step, wires, hstate, hresetn, hvalid, cond_true, Bool.false_eq_true,
      if_false]
    exact ⟨haddra, closed, hlog⟩

/-- A beat moves the pointer on, unless it is the last one of the sweep. -/
theorem pointer_avgScope (hresetn : i.sAxisAresetn = true) (hstate : s.state = .avgScope)
    (hpointer : Pointer log z s) :
    Pointer ((marks i s).record log) (zeroedNext s z) (step i s) := by
  rw [Pointer, hstate] at hpointer
  obtain ⟨closed, current, rfl, haddra⟩ := hpointer
  cases hvalid : i.sAxisTvalid with
  | true =>
    rw [record_avgScope hstate hvalid]
    by_cases hlast : lastWord i s
    · simp only [Pointer, step, wires, hstate, hresetn, hvalid, cond_true, if_true,
        if_pos hlast]
      split_ifs <;> trivial
    · simp only [Pointer, step, wires, hstate, hresetn, hvalid, cond_true, if_true,
        if_neg hlast]
      refine ⟨closed, current ++ [i.sAxisTdata], rfl, ?_⟩
      rw [haddra, List.length_append, List.length_singleton, BitVec.ofNat_add]
      rfl
  | false =>
    rw [record_other (by simp [hstate]) (by simp [hstate]) (fun _ => hvalid)]
    simp only [Pointer, step, wires, hstate, hresetn, hvalid, cond_true, Bool.false_eq_true,
      if_false]
    exact ⟨closed, current, rfl, haddra⟩

theorem pointer_wrZeros (hresetn : i.sAxisAresetn = true) (hstate : s.state = .wrZeros)
    (hpointer : Pointer log z s) :
    Pointer ((marks i s).record log) (zeroedNext s z) (step i s) := by
  rw [Pointer, hstate] at hpointer
  rw [Pointer]
  simp only [step, wires, hstate, hresetn, cond_true, zeroedNext, if_true]
  by_cases hlast : lastWord i s
  · rw [if_pos hlast]
    trivial
  · rw [if_neg hlast]
    show s.tdpAddra + 1 = _
    rw [hpointer, BitVec.ofNat_add]
    rfl

theorem pointer_step (hpointer : Pointer log z s) :
    Pointer ((marks i s).record log) (zeroedNext s z) (step i s) := by
  cases hresetn : i.sAxisAresetn with
  | false => simp [Pointer, step, hresetn]
  | true =>
    cases hstate : s.state with
    | idle =>
      rw [Pointer]
      simp only [step, wires, hstate, hresetn, cond_true]
      split_ifs <;> trivial
    | waitTrig => exact pointer_waitTrig hresetn hstate hpointer
    | enTdpb => exact pointer_enTdpb hresetn hstate hpointer
    | avgScope => exact pointer_avgScope hresetn hstate hpointer
    | finish =>
      rw [Pointer, hstate] at hpointer
      rw [Pointer]
      simp only [step, wires, hstate, hresetn, cond_true, zeroedNext]
      cases hrestart : i.restartOs with
      | true => exact hpointer
      | false => exact hpointer
    | wrZeros => exact pointer_wrZeros hresetn hstate hpointer

end Step

/-! ## Whole runs -/

/-- What is left, where it is written, and that nothing is left in `ST_IDLE`. -/
structure Clean (log : List (List (BitVec 128))) (z : Nat) (s : Regs aw) : Prop where
  left : Left log z s
  pointer : Pointer log z s
  idle : s.state = .idle → ∀ k, s.ram k = 0

theorem clean_run {x : Nat → Input} (hcovered : ∀ t, Covered aw x t) (t : Nat) :
    Clean (sweepLog aw x t) (zeroed aw x t) (run aw x t) := by
  induction t with
  | zero => exact ⟨fun k hk => absurd rfl hk, trivial, fun _ _ => rfl⟩
  | succ t ih =>
    have hleft : Left (sweepLog aw x (t + 1)) (zeroed aw x (t + 1)) (run aw x (t + 1)) :=
      left_step ih.left ih.pointer ih.idle
    refine ⟨hleft, pointer_step ih.pointer, fun hidle k => ?_⟩
    by_cases hbefore : (run aw x t).state = .idle
    · rw [run_succ, step_ram_quiet (wea_idle hbefore)]
      exact ih.idle hbefore k
    · by_contra hk
      obtain ⟨hz, sweep, hsweep, hlt⟩ := hleft k hk
      have hcov := hcovered t hbefore hidle sweep hsweep
      have hk' := k.isLt
      omega

/-- A history whose returns to `ST_IDLE` are all covered starts every run from zero. -/
theorem starts_clean {x : Nat → Input} (hcovered : ∀ t, Covered aw x t) : StartsClean aw x := by
  intro t hidle _ k _
  exact (clean_run hcovered t).idle hidle k

/-- A run of two sweeps with its zeroing, and a second start after which no trigger comes. -/
def secondStart (t : Nat) : Input :=
  { busy 0x8000 with restartOs := true, trigI := decide (t < 10) }

theorem secondStart_waits (t : Nat) : (run 7 secondStart (10 + t)).state = .waitTrig := by
  induction t with
  | zero => decide
  | succ t ih =>
    have htrig : (secondStart (10 + t)).trigI = false := by simp [secondStart]
    rw [← Nat.add_assoc, run_succ]
    simp only [step, wires, ih, htrig, Bool.false_eq_true, if_false]
    rfl

theorem starts_clean_secondStart :
    (run 7 secondStart 9).state = .idle ∧ (run 7 secondStart 10).state = .waitTrig ∧
      StartsClean 7 secondStart := by
  have hrun : ∀ t < 10, Covered 7 secondStart t := by decide
  refine ⟨by decide, by decide, starts_clean fun t => ?_⟩
  by_cases ht : t < 10
  · exact hrun t ht
  · intro _ hidle
    obtain ⟨u, rfl⟩ : ∃ u, t = 10 + u := ⟨t - 10, by omega⟩
    rw [Nat.add_assoc, secondStart_waits] at hidle
    cases hidle

/-- A reset with the first beat of a sweep, and a start right after it. -/
def resetInSweep (t : Nat) : Input :=
  { busy 0x8000 with sAxisAresetn := decide (t ≠ 3), nsamplesI := 16 }

/-- A run of 16 samples whose zeroing is done for 8, and a start with 16 again. -/
def shortZeroing (t : Nat) : Input :=
  { busy 0x8000 with restartOs := true, naveragesI := 1, nsamplesI := if t = 6 then 8 else 16 }

theorem dirty_start : ¬ StartsClean 7 resetInSweep ∧ ¬ StartsClean 7 shortZeroing := by
  constructor
  · intro h
    exact absurd (h 4 (by decide) (by decide) 0 (by decide)) (by decide)
  · intro h
    exact absurd (h 7 (by decide) (by decide) 1 (by decide)) (by decide)

end RpEcosystem.Averager.Scope
