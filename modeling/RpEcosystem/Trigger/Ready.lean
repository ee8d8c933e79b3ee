import RpEcosystem.Clocked.Events
import RpEcosystem.Trigger.Fsm

/-!
# Runs whose output is always ready

With `m_axis_tready` held high the FSM never waits: the word loaded in a cycle is
transferred in the next one (`output_succ`), a state that sends an array of `n` words holds
for exactly `n` cycles (`array_run`, `array_done`), and a trigger packet takes the cycles of
the window followed by one cycle for each of its two closing words (`Opens.closes`).
-/

namespace RpEcosystem.Trigger

open Clocked

/-- `m_axis_tready` is held high. -/
def AlwaysReady (x : Nat → Input) : Prop := ∀ t, (x t).mAxisTready = true

variable {g : Generics} {x : Nat → Input}

theorem output_succ (hready : AlwaysReady x) (t : Nat) :
    output g x (t + 1) =
      if (run g x t).fsm.stateReg = .stIdle then none else some (run g x t).sendWord := by
  unfold output
  rw [run_succ, axisTvalid_next, dataToFifo_next_ready (hready t), hready (t + 1)]
  by_cases h : (run g x t).fsm.stateReg = .stIdle <;> simp [h]

/-- While an array is sent, the word counter is the number of cycles spent in the state,
modulo its eight bits. -/
theorem array_count (hready : AlwaysReady x) {s done : State} {n t₀ : Nat}
    (hs : s.array g = some (n, done)) (start : Starts g x s t₀) {k : Nat}
    (hin : ∀ j, j ≤ k → (run g x (t₀ + j)).fsm.stateReg = s) :
    (run g x (t₀ + k)).fsm.wrCountReg = BitVec.ofNat 8 k := by
  induction k with
  | zero => exact start.2
  | succ k ih =>
    have hstate := hin k (by omega)
    have hstep := (fsm_array (by rw [hstate]; exact hs) (hready (t₀ + k))).2
    rw [← Nat.add_assoc, run_succ, hstep, ih fun j hj => hin j (by omega)]
    exact (BitVec.ofNat_add k 1).symm

/-- The state holds until the last word. -/
theorem array_run (hready : AlwaysReady x) {s done : State} {n t₀ : Nat}
    (hs : s.array g = some (n, done)) (hn : n ≤ 256) (start : Starts g x s t₀) (k : Nat)
    (hk : k < n) : (run g x (t₀ + k)).fsm.stateReg = s ∧
      (run g x (t₀ + k)).fsm.wrCountReg.toNat = k := by
  induction k with
  | zero => exact ⟨start.1, by simp [start.2]⟩
  | succ k ih =>
    obtain ⟨hstate, hcount⟩ := ih (by omega)
    obtain ⟨hstate', hcount'⟩ := fsm_array (by rw [hstate]; exact hs) (hready (t₀ + k))
    rw [← Nat.add_assoc, run_succ]
    refine ⟨by rw [hstate', if_neg (by omega), hstate], ?_⟩
    rw [hcount', BitVec.toNat_add, hcount]
    exact Nat.mod_eq_of_lt (by simp; omega)

theorem array_done (hready : AlwaysReady x) {s done : State} {n t₀ : Nat}
    (hs : s.array g = some (n, done)) (hn : n ≤ 256) (hpos : 0 < n) (start : Starts g x s t₀) :
    (run g x (t₀ + n)).fsm.stateReg = done := by
  obtain ⟨hstate, hcount⟩ := array_run hready hs hn start (n - 1) (by omega)
  have hstep := (fsm_array (by rw [hstate]; exact hs) (hready (t₀ + (n - 1)))).1
  rw [← run_succ, hcount, if_pos rfl] at hstep
  rwa [show t₀ + n = t₀ + (n - 1) + 1 by omega]

/-! ## Trigger packets -/

/-- In cycle `t` a tick moves the FSM out of `ST_IDLE` to open a trigger packet. -/
def Opens (g : Generics) (x : Nat → Input) (t : Nat) : Prop :=
  (run g x t).fsm.stateReg = .stIdle ∧ (run g x (t + 1)).fsm.stateReg = .stAttTr

/-- The packet opened in cycle `t` has its status word loaded in cycle `c`. -/
structure Closes (g : Generics) (x : Nat → Input) (t c : Nat) : Prop where
  opens : Opens g x t
  lt : t < c
  window : ∀ u, t < u → u < c → (run g x u).fsm.stateReg = .stAttTr
  status : (run g x c).fsm.stateReg = .stSendTrStatus

theorem Opens.tick {t : Nat} (h : Opens g x t) : (run g x t).trS (x t) = true := by
  have hin : (next (x t) (run g x t)).fsm.stateReg.inTrigger = true := by
    rw [← run_succ, h.2]
    rfl
  rcases inTrigger_next hin with hbusy | ⟨-, htick⟩
  · rw [h.1] at hbusy
    cases hbusy
  · exact htick

theorem Opens.starts (hready : AlwaysReady x) {t : Nat} (h : Opens g x t) :
    Starts g x .stAttTr (t + 1) :=
  ⟨h.2, (fsm_idle h.1 (hready t)).2⟩

/-- With at most 256 entries in the window every packet closes, after all of them. -/
theorem Opens.closes (hready : AlwaysReady x) (hD : g.dataArrayLength ≤ 256) {t : Nat}
    (h : Opens g x t) : Closes g x t (t + 1 + g.dataArrayLength) := by
  have hwindow := g.window
  refine ⟨h, by omega, ?_, array_done hready rfl hD (by omega) (h.starts hready)⟩
  intro u hu huc
  have hrun := (array_run hready rfl hD (h.starts hready) (u - (t + 1)) (by omega)).1
  rwa [show t + 1 + (u - (t + 1)) = u by omega] at hrun

/-- The eight-bit word counter leaves the window after at most 256 words. -/
theorem Closes.le (hready : AlwaysReady x) {t c : Nat} (h : Closes g x t c) : c ≤ t + 257 := by
  have hlt := h.lt
  have hin : ∀ j, t + 1 + j < c → (run g x (t + 1 + j)).fsm.stateReg = .stAttTr :=
    fun j hj => h.window _ (by omega) hj
  -- the cycle after the `j`-th one is in `ST_SEND_TR_STATUS` exactly when the counter, `j`
  -- modulo 256, is at the last word
  have hstep : ∀ j, t + 1 + j < c → ((run g x (t + 1 + j + 1)).fsm.stateReg = .stSendTrStatus ↔
      j % 256 = g.dataArrayLength - 1) := by
    intro j hj
    have hcount := array_count hready rfl (h.opens.starts hready) (k := j)
      fun i hi => hin i (by omega)
    have hnext := (fsm_array (by rw [hin j hj]; rfl) (hready (t + 1 + j))).1
    rw [← run_succ, hcount, hin j hj, BitVec.toNat_ofNat] at hnext
    rw [hnext]
    split_ifs with hlast <;> simpa using hlast
  have hne : c ≠ t + 1 := by
    rintro rfl
    have := h.opens.2.symm.trans h.status
    cases this
  have hlast := (hstep (c - t - 2) (by omega)).mp
    (by rw [show t + 1 + (c - t - 2) + 1 = c by omega]; exact h.status)
  by_contra hgt
  have hearly := (hstep ((c - t - 2) % 256) (by omega)).mpr (by omega)
  have hwindow := hin ((c - t - 2) % 256 + 1) (by omega)
  rw [← Nat.add_assoc, hearly] at hwindow
  cases hwindow

theorem Closes.outputs (hready : AlwaysReady x) {t c : Nat} (h : Closes g x t c) :
    output g x (c + 1) = some (run g x c).trStatusReg ∧
      output g x (c + 2) = some (run g x (c + 1)).cntStatusReg := by
  have hnext := fsm_sendTrStatus h.status (hready c)
  rw [← run_succ] at hnext
  constructor
  · rw [output_succ hready, h.status]
    simp [Regs.sendWord, h.status, State.word]
  · rw [output_succ hready, hnext]
    simp [Regs.sendWord, hnext, State.word]

end RpEcosystem.Trigger
