import RpEcosystem.Trigger.Core

/-!
# One step of the FSM

What an edge does to the registers of the FSM, in the form the later modules use. In every
state but `ST_IDLE` the FSM offers a word: `sendWord` is the word it loads when
`m_axis_tready` is high. The three states that send an array share one description
(`fsm_array`): word counter `k` leads to `k + 1` until the last word, which leads to the
next state.
-/

namespace RpEcosystem.Trigger

variable {g : Generics}

/-- Word `k` of what a state sends. -/
def State.word (r : Regs g) (k : Nat) : State → Word
  | .stIdle => r.fsm.dataToFifoReg
  | .stAttTr => r.sampleWord
  | .stSendTrStatus => r.trStatusReg
  | .stSendCntStatus => r.cntStatusReg
  | .stAttSubtr => readArray r.arrayScalersReg k
  | .stAttPps => readArray r.arrayPpsReg k

/-- The word that a busy FSM loads when the output is ready. -/
def Regs.sendWord (r : Regs g) : Word := r.fsm.stateReg.word r r.fsm.wrCountReg.toNat

/-- The words a state sends before it leaves, and the state that follows. -/
def State.array (g : Generics) : State → Option (Nat × State)
  | .stAttTr => some (g.dataArrayLength, .stSendTrStatus)
  | .stAttSubtr => some (subtrigArrayLength, .stIdle)
  | .stAttPps => some (metadataArrayLength, .stIdle)
  | _ => none

/-- In cycle `t` the FSM is in state `s` with no word sent yet. -/
def Starts (g : Generics) (x : Nat → Input) (s : State) (t : Nat) : Prop :=
  (run g x t).fsm.stateReg = s ∧ (run g x t).fsm.wrCountReg = 0

theorem axisTvalid_next (i : Input) (r : Regs g) :
    (next i r).fsm.axisTvalidReg = decide (r.fsm.stateReg ≠ .stIdle) := by
  cases h : r.fsm.stateReg <;> simp [next, fsmNext, h, sendArray, sendReg] <;> split <;> rfl

theorem axisTready_next (i : Input) (r : Regs g) :
    (next i r).fsm.axisTreadyReg = decide (r.fsm.stateReg = .stIdle) := by
  cases h : r.fsm.stateReg <;> simp [next, fsmNext, h, sendArray, sendReg] <;> split <;> rfl

theorem dataToFifo_next_ready {i : Input} {r : Regs g} (hready : i.mAxisTready = true) :
    (next i r).fsm.dataToFifoReg = r.sendWord := by
  cases h : r.fsm.stateReg <;>
    simp [next, fsmNext, h, sendArray, sendReg, hready, Regs.sendWord, State.word]

/-- A stall keeps the state and the offered word and clears the word counter. -/
theorem fsm_stall {i : Input} {r : Regs g} (hstall : i.mAxisTready = false) :
    (next i r).fsm.stateReg = r.fsm.stateReg ∧
      (next i r).fsm.dataToFifoReg = r.fsm.dataToFifoReg ∧ (next i r).fsm.wrCountReg = 0 := by
  cases h : r.fsm.stateReg <;> simp [next, fsmNext, h, sendArray, sendReg, hstall]

theorem fsm_idle {i : Input} {r : Regs g} (h : r.fsm.stateReg = .stIdle)
    (hready : i.mAxisTready = true) :
    (next i r).fsm.stateReg = idleNext (r.trS i) (r.subtrS i) i.ppsI ∧
      (next i r).fsm.wrCountReg = 0 := by
  simp [next, fsmNext, h, hready]

/-- Sending an array: the last word leaves the state, every other word advances the word
counter. -/
theorem fsm_array {i : Input} {r : Regs g} {n : Nat} {done : State}
    (h : r.fsm.stateReg.array g = some (n, done)) (hready : i.mAxisTready = true) :
    (next i r).fsm.stateReg = (if r.fsm.wrCountReg.toNat = n - 1 then done else r.fsm.stateReg) ∧
      (next i r).fsm.wrCountReg = r.fsm.wrCountReg + 1 := by
  cases hs : r.fsm.stateReg <;> rw [hs] at h <;> simp only [State.array, Option.some.injEq,
    Prod.mk.injEq, reduceCtorEq] at h <;> obtain ⟨rfl, rfl⟩ := h <;>
    simp [next, fsmNext, hs, sendArray, hready]

theorem fsm_sendTrStatus {i : Input} {r : Regs g} (h : r.fsm.stateReg = .stSendTrStatus)
    (hready : i.mAxisTready = true) : (next i r).fsm.stateReg = .stSendCntStatus := by
  simp [next, fsmNext, h, sendReg, hready]

theorem fsm_sendCntStatus {i : Input} {r : Regs g} (h : r.fsm.stateReg = .stSendCntStatus)
    (hready : i.mAxisTready = true) : (next i r).fsm.stateReg = .stIdle := by
  simp [next, fsmNext, h, sendReg, hready]

/-! ## The states of a trigger packet -/

/-- The FSM is sending a trigger packet. -/
def State.inTrigger : State → Bool
  | .stAttTr | .stSendTrStatus | .stSendCntStatus => true
  | _ => false

/-- A trigger packet is opened only by a tick in `ST_IDLE`. -/
theorem inTrigger_next {i : Input} {r : Regs g}
    (h : (next i r).fsm.stateReg.inTrigger = true) :
    r.fsm.stateReg.inTrigger = true ∨ (r.fsm.stateReg = .stIdle ∧ r.trS i = true) := by
  cases hs : r.fsm.stateReg with
  | stIdle =>
    refine Or.inr ⟨rfl, ?_⟩
    by_contra htr
    simp only [Bool.not_eq_true] at htr
    simp only [next, fsmNext, hs, idleNext, htr] at h
    revert h
    cases i.mAxisTready <;> cases i.ppsI <;> cases r.subtrS i <;> simp [State.inTrigger]
  | stAttTr => exact Or.inl rfl
  | stSendTrStatus => exact Or.inl rfl
  | stSendCntStatus => exact Or.inl rfl
  | stAttSubtr | stAttPps =>
    simp only [next, fsmNext, hs, sendArray, apply_ite Fsm.stateReg] at h
    split_ifs at h <;> exact absurd h (by decide)

end RpEcosystem.Trigger
