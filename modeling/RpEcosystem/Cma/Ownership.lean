import RpEcosystem.Clocked.Machine
import Mathlib.Logic.Function.Basic

/-!
# Who owns the DMA target

Every invocation of `lago` opens `/dev/cma`, asks the driver for a buffer, maps it and writes
`dev_size` to the address register of the RAM writer before it looks at its own action. The
driver has one buffer for all its files: `CMA_ALLOC` frees the buffer of whoever came before,
and so does the release of any file. The writer has one address register.

Invocations are numbered and take their steps in any order; `acq` is the acquisition
(`-f`, `-o`), the others do anything else.

* `Driver`, `Invocation`, `System`, `step`: the driver, `main` and their interleavings;
* `Owned`: the writer's target is the acquisition's own buffer, and still allocated;
* `owned_run_iff`: the steps after which it no longer is.
-/

namespace RpEcosystem.Cma

open Clocked

/-! ## The driver -/

/-- A coherent allocation. The physical address may be handed out again after a free, so the
serial number tells allocations apart. -/
structure Buffer where
  serial : Nat
  dmaAddr : BitVec 32
  deriving DecidableEq, Repr

/-- `cpu_addr` and `dma_addr`, with the number of allocations made so far. -/
structure Driver where
  cpuAddr : Option Buffer
  allocations : Nat

namespace Driver

variable (d : Driver)

def cmaFree : Driver := { d with cpuAddr := none }

/-- `CMA_ALLOC`, with the result of `dma_alloc_coherent`. -/
def cmaIoctl : Option (BitVec 32) → Driver
  | none => d.cmaFree
  | some dmaAddr => ⟨some ⟨d.allocations, dmaAddr⟩, d.allocations + 1⟩

/-- `cma_mmap` maps whatever buffer the driver holds. -/
def cmaMmap (ok : Bool) : Option Buffer := if ok then d.cpuAddr else none

def cmaRelease : Driver := d.cmaFree

end Driver

/-! ## Invocations -/

/-- Where an invocation stands in `main`. -/
inductive Phase
  /-- before `cma_init` -/
  | start
  /-- `/dev/cma` is open -/
  | opened
  /-- `CMA_ALLOC` has succeeded -/
  | allocated
  /-- `cma_init` has returned, with or without a mapping; its result is not looked at -/
  | initialised
  /-- the address register is written -/
  | acting
  | exited
  deriving DecidableEq, Repr

structure Invocation where
  phase : Phase
  /-- `cma_fd` is open -/
  file : Bool
  devSize : BitVec 32
  /-- the buffer mapped at `cma_ptr` -/
  cmaPtr : Option Buffer

structure System where
  driver : Driver
  /-- `CFG_WR_ADDR` -/
  wrAddr : BitVec 32
  invocation : Nat → Invocation

/-- A step of invocation `p`, with the results of its system calls. -/
inductive Step
  | open (p : Nat) (ok : Bool)
  /-- `dev_size = 1024*sysconf(_SC_PAGESIZE)` and the `ioctl` -/
  | alloc (p : Nat) (pageSize : Nat) (dmaAddr : Option (BitVec 32))
  | mmap (p : Nat) (ok : Bool)
  /-- `wr_reg_value(1, CFG_WR_ADDR_OFFSET, dev_size, 0)` -/
  | setAddr (p : Nat)
  /-- the action; `-w` may write the address register -/
  | act (p : Nat) (wrAddr : Option (BitVec 32))
  /-- the end of the process, at any time, with the release of its file -/
  | exit (p : Nat)

namespace System

variable (s : System)

def set (p : Nat) (i : Invocation) : System :=
  { s with invocation := Function.update s.invocation p i }

/-- A step is skipped by an invocation that is not at that place. The acquisition does not
write the address register again. -/
def step (acq : Nat) : Step → System
  | .open p ok =>
    let i := s.invocation p
    if i.phase = .start then
      s.set p { i with phase := if ok then .opened else .initialised, file := ok }
    else s
  | .alloc p pageSize dmaAddr =>
    let i := s.invocation p
    if i.phase = .opened then
      { s.set p { i with
          phase := if dmaAddr.isSome then .allocated else .initialised
          devSize := dmaAddr.getD (BitVec.ofNat 32 (1024 * pageSize)) } with
        driver := s.driver.cmaIoctl dmaAddr }
    else s
  | .mmap p ok =>
    let i := s.invocation p
    if i.phase = .allocated then
      s.set p { i with phase := .initialised, cmaPtr := s.driver.cmaMmap ok }
    else s
  | .setAddr p =>
    let i := s.invocation p
    if i.phase = .initialised then
      { s.set p { i with phase := .acting } with wrAddr := i.devSize }
    else s
  | .act p wrAddr =>
    if (s.invocation p).phase = .acting ∧ p ≠ acq then
      { s with wrAddr := wrAddr.getD s.wrAddr }
    else s
  | .exit p =>
    let i := s.invocation p
    { s.set p { i with phase := .exited, file := false, cmaPtr := none } with
      driver := if i.file then s.driver.cmaRelease else s.driver }

end System

/-- A freshly loaded driver and invocations that have not begun. `dev_size` is set by the
initialisation of the other devices, and the register may hold anything. -/
def system (acq : Nat) (devSize : Nat → BitVec 32) (wrAddr : BitVec 32) : Machine Step System where
  reset :=
    { driver := ⟨none, 0⟩
      wrAddr := wrAddr
      invocation := fun p => ⟨.start, false, devSize p, none⟩ }
  next := fun e s => s.step acq e

/-! ## Ownership -/

/-- The buffer that the acquisition has mapped is allocated, and from its write of the address
register on that register holds the buffer's address. -/
structure Owned (acq : Nat) (s : System) : Prop where
  allocated : ∀ b, (s.invocation acq).cmaPtr = some b → s.driver.cpuAddr = some b
  target : (s.invocation acq).phase = .acting →
    ∃ b, (s.invocation acq).cmaPtr = some b ∧ s.wrAddr = b.dmaAddr

/-- What must hold before a step for the target to stay with the acquisition. -/
def Allowed (acq : Nat) (s : System) : Step → Prop
  | .open _ _ => True
  -- nobody else allocates while the acquisition has its buffer
  | .alloc p _ _ => (s.invocation p).phase = .opened → p ≠ acq → (s.invocation acq).cmaPtr = none
  | .mmap _ _ => True
  -- the acquisition writes the address of the buffer it has mapped, and nobody else another one
  | .setAddr p => (s.invocation p).phase = .initialised →
      p = acq ∨ (s.invocation acq).phase = .acting →
        ∃ b, (s.invocation acq).cmaPtr = some b ∧ (s.invocation p).devSize = b.dmaAddr
  | .act p wrAddr => (s.invocation p).phase = .acting → p ≠ acq →
      (s.invocation acq).phase = .acting → ∀ v, wrAddr = some v →
        ∃ b, (s.invocation acq).cmaPtr = some b ∧ v = b.dmaAddr
  -- nobody else with the device open exits while the acquisition has its buffer
  | .exit p => (s.invocation p).file = true → p ≠ acq → (s.invocation acq).cmaPtr = none

/-- Allocations are numbered, and the acquisition maps a buffer only after its `CMA_ALLOC`. -/
structure Numbered (acq : Nat) (s : System) : Prop where
  cpuAddr : ∀ b, s.driver.cpuAddr = some b → b.serial < s.driver.allocations
  cmaPtr : ∀ b, (s.invocation acq).cmaPtr = some b → b.serial < s.driver.allocations ∧
    ((s.invocation acq).phase = .initialised ∨ (s.invocation acq).phase = .acting)

variable {acq : Nat} {s : System}

@[simp] theorem set_same (p : Nat) (i : Invocation) : (s.set p i).invocation p = i := by
  simp [System.set]

@[simp] theorem set_other {p q : Nat} (h : q ≠ p) (i : Invocation) :
    (s.set p i).invocation q = s.invocation q := by
  simp [System.set, h]

@[simp] theorem set_driver (p : Nat) (i : Invocation) : (s.set p i).driver = s.driver := rfl

@[simp] theorem set_wrAddr (p : Nat) (i : Invocation) : (s.set p i).wrAddr = s.wrAddr := rfl

/-! ## Single steps -/

theorem Numbered.unmapped (h : Numbered acq s)
    (hphase : (s.invocation acq).phase ≠ .initialised ∧ (s.invocation acq).phase ≠ .acting) :
    (s.invocation acq).cmaPtr = none := by
  cases hptr : (s.invocation acq).cmaPtr with
  | none => rfl
  | some b =>
    rcases (h.cmaPtr b hptr).2 with h' | h'
    · exact absurd h' hphase.1
    · exact absurd h' hphase.2

/-- An acquisition without a buffer that is not acting owns nothing. -/
theorem owned_of_unmapped (hptr : (s.invocation acq).cmaPtr = none)
    (hphase : (s.invocation acq).phase ≠ .acting) : Owned acq s := by
  refine ⟨fun b hb => ?_, fun h => absurd h hphase⟩
  rw [hptr] at hb
  cases hb

/-- Ownership is about the acquisition, `cpu_addr` and the address register only. -/
theorem Owned.congr {s' : System} (h : Owned acq s)
    (hinv : s'.invocation acq = s.invocation acq) (hdriver : s'.driver = s.driver)
    (haddr : s'.wrAddr = s.wrAddr) : Owned acq s' := by
  refine ⟨?_, ?_⟩
  · rw [hinv, hdriver]
    exact h.allocated
  · rw [hinv, haddr]
    exact h.target

/-- Another invocation frees the buffer. -/
theorem Owned.freed_iff {s' : System} (h : Owned acq s)
    (hinv : s'.invocation acq = s.invocation acq) (haddr : s'.wrAddr = s.wrAddr)
    (hfree : ∀ b, (s.invocation acq).cmaPtr = some b → s'.driver.cpuAddr ≠ some b) :
    Owned acq s' ↔ (s.invocation acq).cmaPtr = none := by
  constructor
  · intro h'
    cases hptr : (s.invocation acq).cmaPtr with
    | none => rfl
    | some b => exact absurd (h'.allocated b (by rw [hinv, hptr])) (hfree b hptr)
  · intro hptr
    refine ⟨fun b hb => ?_, ?_⟩
    · rw [hinv, hptr] at hb
      cases hb
    · rw [hinv, haddr]
      exact h.target

/-- Another invocation writes the address register. -/
theorem Owned.written_iff {s' : System} {v : BitVec 32} (h : Owned acq s)
    (hinv : s'.invocation acq = s.invocation acq) (hdriver : s'.driver = s.driver)
    (haddr : s'.wrAddr = v) :
    Owned acq s' ↔ ((s.invocation acq).phase = .acting →
      ∃ b, (s.invocation acq).cmaPtr = some b ∧ v = b.dmaAddr) := by
  constructor
  · intro h'
    have htarget := h'.target
    rwa [hinv, haddr] at htarget
  · intro htarget
    refine ⟨?_, ?_⟩
    · rw [hinv, hdriver]
      exact h.allocated
    · rw [hinv, haddr]
      exact htarget

section Steps

variable (ho : Owned acq s)
include ho

theorem owned_open (hn : Numbered acq s) (p : Nat) (ok : Bool) :
    Owned acq (s.step acq (.open p ok)) := by
  simp only [System.step]
  by_cases hphase : (s.invocation p).phase = .start
  · rw [if_pos hphase]
    by_cases hp : p = acq
    · subst hp
      have hptr := hn.unmapped (by simp [hphase])
      apply owned_of_unmapped
      · rw [set_same]
        exact hptr
      · rw [set_same]
        cases ok <;> simp
    · exact ho.congr (set_other (Ne.symm hp) _) rfl rfl
  · rw [if_neg hphase]
    exact ho

/-- A new buffer is not the one that the acquisition has mapped. -/
theorem owned_alloc_iff (hn : Numbered acq s) (p pageSize : Nat) (dmaAddr : Option (BitVec 32)) :
    Owned acq (s.step acq (.alloc p pageSize dmaAddr)) ↔
      Allowed acq s (.alloc p pageSize dmaAddr) := by
  simp only [System.step, Allowed]
  by_cases hphase : (s.invocation p).phase = .opened
  · rw [if_pos hphase]
    by_cases hp : p = acq
    · subst hp
      have hptr := hn.unmapped (by simp [hphase])
      refine iff_of_true ?_ fun _ h => absurd rfl h
      apply owned_of_unmapped
      · exact (congrArg Invocation.cmaPtr (set_same _ _)).trans hptr
      · rw [set_same]
        cases dmaAddr <;> simp
    · simp only [hphase, hp, ne_eq, not_false_eq_true, true_imp_iff]
      refine ho.freed_iff (set_other (Ne.symm hp) _) rfl ?_
      intro b hb
      have hserial := (hn.cmaPtr b hb).1
      cases dmaAddr with
      | none => simp [Driver.cmaIoctl, Driver.cmaFree]
      | some a =>
        simp only [Driver.cmaIoctl, ne_eq, Option.some.injEq]
        rintro rfl
        exact absurd hserial (lt_irrefl _)
  · rw [if_neg hphase]
    exact iff_of_true ho fun h => absurd h hphase

theorem owned_mmap (p : Nat) (ok : Bool) : Owned acq (s.step acq (.mmap p ok)) := by
  simp only [System.step]
  by_cases hphase : (s.invocation p).phase = .allocated
  · rw [if_pos hphase]
    by_cases hp : p = acq
    · subst hp
      refine ⟨?_, ?_⟩
      · intro b hb
        rw [set_same] at hb
        cases ok with
        | false => cases hb
        | true => exact hb
      · rw [set_same]
        intro hacting
        cases hacting
    · exact ho.congr (set_other (Ne.symm hp) _) rfl rfl
  · rw [if_neg hphase]
    exact ho

theorem owned_setAddr_iff (p : Nat) :
    Owned acq (s.step acq (.setAddr p)) ↔ Allowed acq s (.setAddr p) := by
  simp only [System.step, Allowed]
  by_cases hphase : (s.invocation p).phase = .initialised
  · rw [if_pos hphase]
    by_cases hp : p = acq
    · subst hp
      simp only [hphase, true_imp_iff, true_or]
      constructor
      · intro h
        have htarget := h.target
        simp only [set_same, true_imp_iff] at htarget
        exact htarget
      · rintro ⟨b, hptr, haddr⟩
        refine ⟨?_, ?_⟩
        · simp only [set_same]
          exact ho.allocated
        · simp only [set_same, true_imp_iff]
          exact ⟨b, hptr, haddr⟩
    · simp only [hphase, hp, true_imp_iff, false_or]
      exact ho.written_iff (set_other (Ne.symm hp) _) rfl rfl
  · rw [if_neg hphase]
    exact iff_of_true ho fun h => absurd h hphase

theorem owned_act_iff (p : Nat) (wrAddr : Option (BitVec 32)) :
    Owned acq (s.step acq (.act p wrAddr)) ↔ Allowed acq s (.act p wrAddr) := by
  simp only [System.step, Allowed]
  by_cases hact : (s.invocation p).phase = .acting ∧ p ≠ acq
  · rw [if_pos hact]
    simp only [hact.1, hact.2, ne_eq, not_false_eq_true, true_imp_iff]
    cases wrAddr with
    | none => exact iff_of_true (ho.congr rfl rfl rfl) fun _ v hv => by cases hv
    | some v =>
      have hwritten : Owned acq { s with wrAddr := v } ↔ _ := ho.written_iff rfl rfl rfl
      refine hwritten.trans ?_
      simp
  · rw [if_neg hact]
    exact iff_of_true ho fun h1 h2 => absurd ⟨h1, h2⟩ hact

theorem owned_exit_iff (p : Nat) :
    Owned acq (s.step acq (.exit p)) ↔ Allowed acq s (.exit p) := by
  simp only [System.step, Allowed]
  by_cases hp : p = acq
  · subst hp
    refine iff_of_true ?_ fun _ h => absurd rfl h
    apply owned_of_unmapped
    · simp only [set_same]
    · simp only [set_same]
      decide
  · cases hfile : (s.invocation p).file with
    | false =>
      exact iff_of_true (ho.congr (set_other (Ne.symm hp) _) rfl rfl) fun h => by cases h
    | true =>
      simp only [hp, ne_eq, not_false_eq_true, true_imp_iff]
      refine ho.freed_iff (set_other (Ne.symm hp) _) rfl ?_
      intro b _
      simp [Driver.cmaRelease, Driver.cmaFree]

/-- After a step the target is still the acquisition's own if and only if the step was
allowed. -/
theorem owned_step_iff (hn : Numbered acq s) (e : Step) :
    Owned acq (s.step acq e) ↔ Allowed acq s e := by
  cases e with
  | «open» p ok => exact iff_of_true (owned_open ho hn p ok) trivial
  | alloc p pageSize dmaAddr => exact owned_alloc_iff ho hn p pageSize dmaAddr
  | mmap p ok => exact iff_of_true (owned_mmap ho p ok) trivial
  | setAddr p => exact owned_setAddr_iff ho p
  | act p wrAddr => exact owned_act_iff ho p wrAddr
  | exit p => exact owned_exit_iff ho p

end Steps

/-! ## Runs -/

/-- The driver after a step: as before, freed, or with a new buffer. -/
theorem step_driver (acq : Nat) (s : System) (e : Step) : (s.step acq e).driver = s.driver ∨
    (s.step acq e).driver = s.driver.cmaFree ∨
    ∃ dmaAddr, (s.step acq e).driver = s.driver.cmaIoctl (some dmaAddr) := by
  cases e with
  | «open» p ok => exact Or.inl (by simp only [System.step]; split <;> rfl)
  | alloc p pageSize dmaAddr =>
    simp only [System.step]
    split
    · cases dmaAddr with
      | none => exact Or.inr (Or.inl rfl)
      | some a => exact Or.inr (Or.inr ⟨a, rfl⟩)
    · exact Or.inl rfl
  | mmap p ok => exact Or.inl (by simp only [System.step]; split <;> rfl)
  | setAddr p => exact Or.inl (by simp only [System.step]; split <;> rfl)
  | act p wrAddr => exact Or.inl (by simp only [System.step]; split <;> rfl)
  | exit p =>
    cases hfile : (s.invocation p).file with
    | false => exact Or.inl (by simp [System.step, hfile])
    | true => exact Or.inr (Or.inl (by simp [System.step, hfile, Driver.cmaRelease]))

/-- The invocation that makes a step. -/
def Step.process : Step → Nat
  | .open p _ => p
  | .alloc p _ _ => p
  | .mmap p _ => p
  | .setAddr p => p
  | .act p _ => p
  | .exit p => p

/-- A step of another invocation leaves the acquisition as it is. -/
theorem step_other {e : Step} (he : acq ≠ e.process) :
    (s.step acq e).invocation acq = s.invocation acq := by
  cases e with
  | act p wrAddr =>
    simp only [System.step]
    split <;> rfl
  | exit p => exact set_other he _
  | _ =>
    simp only [System.step]
    split
    · exact set_other he _
    · rfl

/-- A buffer mapped after a step was mapped before or is the one of the driver. -/
theorem step_cmaPtr (hn : Numbered acq s) (e : Step) {b : Buffer}
    (hb : ((s.step acq e).invocation acq).cmaPtr = some b) :
    ((s.invocation acq).cmaPtr = some b ∨ s.driver.cpuAddr = some b) ∧
      (((s.step acq e).invocation acq).phase = .initialised ∨
        ((s.step acq e).invocation acq).phase = .acting) := by
  by_cases hsame : (s.step acq e).invocation acq = s.invocation acq
  · rw [hsame] at hb ⊢
    exact ⟨Or.inl hb, (hn.cmaPtr b hb).2⟩
  have hacq : acq = e.process := by
    by_contra he
    exact hsame (step_other he)
  subst hacq
  have hunmapped := hn.unmapped
  cases e with
  | «open» p ok =>
    simp only [System.step, Step.process] at hb hsame hunmapped ⊢
    by_cases hphase : (s.invocation p).phase = .start
    · simp only [hphase, if_true, set_same] at hb
      rw [hunmapped (by simp [hphase])] at hb
      cases hb
    · exact absurd (by rw [if_neg hphase]) hsame
  | alloc p pageSize dmaAddr =>
    simp only [System.step, Step.process] at hb hsame hunmapped ⊢
    by_cases hphase : (s.invocation p).phase = .opened
    · simp only [hphase, if_true, set_same] at hb
      rw [hunmapped (by simp [hphase])] at hb
      cases hb
    · exact absurd (by rw [if_neg hphase]) hsame
  | mmap p ok =>
    simp only [System.step, Step.process] at hb hsame ⊢
    by_cases hphase : (s.invocation p).phase = .allocated
    · simp only [hphase, if_true, set_same] at hb ⊢
      cases ok with
      | false => cases hb
      | true => exact ⟨Or.inr hb, Or.inl trivial⟩
    · exact absurd (by rw [if_neg hphase]) hsame
  | setAddr p =>
    simp only [System.step, Step.process] at hb hsame ⊢
    by_cases hphase : (s.invocation p).phase = .initialised
    · simp only [hphase, if_true, set_same] at hb ⊢
      exact ⟨Or.inl hb, Or.inr trivial⟩
    · exact absurd (by rw [if_neg hphase]) hsame
  | act p wrAddr =>
    simp only [System.step, Step.process, ne_eq, not_true_eq_false, and_false, if_false] at hsame
  | exit p =>
    simp only [System.step, Step.process, set_same] at hb
    cases hb

theorem step_allocations (acq : Nat) (s : System) (e : Step) :
    s.driver.allocations ≤ (s.step acq e).driver.allocations := by
  obtain hd | hd | ⟨a, hd⟩ := step_driver acq s e
  · rw [hd]
  · rw [hd]
    exact le_rfl
  · rw [hd]
    exact Nat.le_succ _

theorem Numbered.step (h : Numbered acq s) (e : Step) : Numbered acq (s.step acq e) := by
  refine ⟨?_, ?_⟩
  · intro b hb
    obtain hd | hd | ⟨a, hd⟩ := step_driver acq s e
    · rw [hd] at hb ⊢
      exact h.cpuAddr b hb
    · rw [hd] at hb
      cases hb
    · rw [hd] at hb ⊢
      cases hb
      exact Nat.lt_succ_self _
  · intro b hb
    obtain ⟨hold, hphase⟩ := step_cmaPtr h e hb
    refine ⟨lt_of_lt_of_le ?_ (step_allocations acq s e), hphase⟩
    obtain hptr | hcpu := hold
    · exact (h.cmaPtr b hptr).1
    · exact h.cpuAddr b hcpu

variable {devSize : Nat → BitVec 32} {wrAddr : BitVec 32}

theorem numbered_run (x : Nat → Step) (t : Nat) :
    Numbered acq ((system acq devSize wrAddr).run x t) := by
  refine (system acq devSize wrAddr).run_invariant x ?_ (fun t s h => h.step (x t)) t
  refine ⟨?_, ?_⟩
  · intro b hb
    cases hb
  · intro b hb
    cases hb

/-- **The DMA target.** In every interleaving of an acquisition with any number of other
invocations, the target stays with the acquisition up to any point of the run if and only if
every step up to there is allowed in the state before it. -/
theorem owned_run_iff (acq : Nat) (devSize : Nat → BitVec 32) (wrAddr : BitVec 32)
    (x : Nat → Step) (n : Nat) :
    (∀ t, t ≤ n → Owned acq ((system acq devSize wrAddr).run x t)) ↔
      ∀ t, t < n → Allowed acq ((system acq devSize wrAddr).run x t) (x t) := by
  constructor
  · intro h t ht
    exact (owned_step_iff (h t (by omega)) (numbered_run x t) (x t)).mp (h (t + 1) (by omega))
  · intro h t ht
    induction t with
    | zero => exact owned_of_unmapped rfl (by intro hacting; cases hacting)
    | succ t ih =>
      exact (owned_step_iff (ih (by omega)) (numbered_run x t) (x t)).mpr (h t (by omega))

/-! ## A status query during an acquisition -/

/-- The acquisition is invocation 0. Invocation 1 comes while it acts. -/
def query : Nat → Step
  | 0 => .open 0 true
  | 1 => .alloc 0 4096 (some 0x1E000000#32)
  | 2 => .mmap 0 true
  | 3 => .setAddr 0
  | 4 => .open 1 true
  | 5 => .alloc 1 4096 (some 0x1E000000#32)
  | 6 => .mmap 1 true
  | 7 => .setAddr 1
  | 8 => .act 1 none
  | _ => .exit 1

/-- The query gets the memory of the acquisition for its own buffer and frees it when it ends,
while the acquisition goes on and the register still points there. -/
theorem query_frees :
    (((system 0 (fun _ => 0) 0).run query 4).invocation 0).phase = .acting ∧
      Owned 0 ((system 0 (fun _ => 0) 0).run query 4) ∧
      (((system 0 (fun _ => 0) 0).run query 10).invocation 0).phase = .acting ∧
      ((system 0 (fun _ => 0) 0).run query 10).driver.cpuAddr = none ∧
      ¬ Owned 0 ((system 0 (fun _ => 0) 0).run query 10) := by
  have hcpu4 : ((system 0 (fun _ => 0) 0).run query 4).driver.cpuAddr =
      (((system 0 (fun _ => 0) 0).run query 4).invocation 0).cmaPtr := by decide +kernel
  have hcpu : ((system 0 (fun _ => 0) 0).run query 10).driver.cpuAddr = none := by decide +kernel
  have hptr : (((system 0 (fun _ => 0) 0).run query 10).invocation 0).cmaPtr =
      some ⟨0, 0x1E000000#32⟩ := by decide +kernel
  refine ⟨by decide +kernel, ⟨?_, ?_⟩, by decide +kernel, hcpu, ?_⟩
  · intro b hb
    rw [hcpu4, hb]
  · intro _
    exact ⟨⟨0, 0x1E000000#32⟩, by decide +kernel, by decide +kernel⟩
  · intro h
    have hlive := h.allocated _ hptr
    rw [hcpu] at hlive
    cases hlive

end RpEcosystem.Cma
