import RpEcosystem.Averager.Reader
import RpEcosystem.Clocked.Sweeps

/-!
# The handshake of an accumulation and its reader

The sweeps are added up on one clock and sent on another. Two signals connect the sides: `done_s`
tells the reader that there is a result, and the pulse `restart_s` of the reader goes through an
`edge_det` and makes the other side begin again. The pulse is on its way for some edges, while
`done_s` is still high: a reader that is started again in this time sends a memory that the other
side is about to change. With one start for each result nothing of this can happen, whatever the two
clocks do.

* `Side`: an accumulation as the reader sees it; `avg_scope` and `avg_ntoone` have one each;
* `EdgeDet`, `Event`, `Regs`, `next`: both sides, on any order of clock edges;
* `starts`, `asked`: the starts of the reader, and whether the present result has had one;
* `Coupled`, `coupled_step`: what the two sides can be in at the same time;
* `Episode`, `Episode.sent_eq`: the stream from a start to the restart pulse.
-/

namespace RpEcosystem.Averager.Delivery

open Clocked

/-- The state register of `edge_det`. -/
inductive EdgeDet
  | zero
  | edge
  | one
  deriving DecidableEq, Repr

def EdgeDet.next (sigI : Bool) : EdgeDet → EdgeDet
  | .zero => if sigI then .edge else .zero
  | .edge => if sigI then .one else .zero
  | .one => if sigI then .one else .zero

def EdgeDet.sigO (s : EdgeDet) : Bool := s = .edge

/-- An event: which clocks have an edge, and the inputs of both sides. -/
structure Event where
  sAxisAclk : Bool
  mAxisAclk : Bool
  sAxisAresetn : Bool
  mAxisAresetn : Bool
  startI : Bool
  enI : Bool
  trigI : Bool
  sendI : Bool
  naveragesI : BitVec 16
  nsamplesI : BitVec 16
  sAxisTvalid : Bool
  sAxisTdata : BitVec 128
  mAxisTready : Bool

/-- An accumulation: its registers, `done_s`, the memory behind the read port, and the port
`cfg_data_i` of its reader. A result stays as it is until the restart pulse comes. -/
structure Side (aw : Nat) where
  Regs : Type
  reset : Regs
  step : Input → Regs → Regs
  done : Input → Regs → Bool
  memory : Regs → Ram aw 16
  cfgDataI : Event → BitVec 16
  marks : Input → Regs → Marks (BitVec 128)
  finished : Regs → Bool
  done_eq : ∀ i s, done i s = finished s
  waits : ∀ i s, i.sAxisAresetn = true → i.restartOs = false → finished s = true →
    finished (step i s) = true ∧ memory (step i s) = memory s

/-- A side, its `edge_det` and `reader_i`. -/
structure Regs {aw : Nat} (P : Side aw) where
  side : P.Regs
  osRestart : EdgeDet
  reader : Reader.Regs aw 16

variable {aw : Nat} {P : Side aw}

def sideInput (e : Event) (s : Regs P) : Input where
  sAxisAresetn := e.sAxisAresetn
  startI := e.startI
  enI := e.enI
  trigI := e.trigI
  restartOs := s.osRestart.sigO
  naveragesI := e.naveragesI
  nsamplesI := e.nsamplesI
  sAxisTvalid := e.sAxisTvalid
  sAxisTdata := e.sAxisTdata

def doneS (e : Event) (s : Regs P) : Bool := P.done (sideInput e s) s.side

def readerInput (e : Event) (s : Regs P) : Reader.Input 16 where
  aresetn := e.mAxisAresetn
  cfgDataI := P.cfgDataI e
  doneI := doneS e s
  sendI := e.sendI
  mAxisTready := e.mAxisTready

def restartS (e : Event) (s : Regs P) : Bool := (Reader.wires (readerInput e s) s.reader).restart

/-- Every register samples the values before the edge of its clock. -/
def next (e : Event) (s : Regs P) : Regs P where
  side := if e.sAxisAclk then P.step (sideInput e s) s.side else s.side
  osRestart :=
    if e.sAxisAclk then bif e.sAxisAresetn then s.osRestart.next (restartS e s) else .zero
    else s.osRestart
  reader :=
    if e.mAxisAclk then Reader.step (P.memory s.side) (readerInput e s) s.reader else s.reader

def machine (P : Side aw) : Machine Event (Regs P) where
  reset :=
    { side := P.reset
      osRestart := .zero
      reader := (Reader.machine fun _ => 0).reset }
  next := next

def run (P : Side aw) (x : Nat → Event) (t : Nat) : Regs P := (machine P).run x t

theorem run_succ (x : Nat → Event) (t : Nat) : run P x (t + 1) = next (x t) (run P x t) := rfl

/-- The reader is started. -/
def starts (e : Event) (s : Regs P) : Bool :=
  e.mAxisAclk && e.mAxisAresetn && s.reader.state = .idle && doneS e s && e.sendI

def askedNext (e : Event) (s : Regs P) (asked : Bool) : Bool :=
  P.finished (next e s).side && (asked || starts e s)

/-- The reader has been started for the result that is there before event `t`. -/
def asked (P : Side aw) (x : Nat → Event) : Nat → Bool
  | 0 => false
  | t + 1 => askedNext (x t) (run P x t) (asked P x t)

/-- The word transferred on `m_axis` with its `tlast`. -/
def transfer (e : Event) (s : Regs P) : Option (BitVec 16 × Bool) :=
  if e.mAxisAclk then Reader.transfer (readerInput e s) s.reader else none

/-- The words transferred in the events `[a, b)`. -/
def sent (P : Side aw) (x : Nat → Event) (a b : Nat) : List (BitVec 16 × Bool) :=
  transfers (fun t => transfer (x t) (run P x t)) a b

/-- What an event means for the sweeps. -/
def marks (e : Event) (s : Regs P) : Marks (BitVec 128) :=
  if e.sAxisAclk then P.marks (sideInput e s) s.side else ⟨false, false, none⟩

/-- The sweeps of the run under way before event `t`. -/
def sweepLog (P : Side aw) (x : Nat → Event) (t : Nat) : List (List (BitVec 128)) :=
  sweeps (fun u => marks (x u) (run P x u)) t

/-! ## The two sides -/

/-- The reader is between its start and the restart pulse. -/
def Active (s : Regs P) : Prop := s.reader.state ≠ .idle ∧ s.reader.state ≠ .finish

instance (s : Regs P) : Decidable (Active s) := inferInstanceAs (Decidable (_ ∧ _))

/-- While words are sent the other side has its result and no pulse is on its way. A pulse on its
way belongs to the present result. -/
structure Coupled (asked : Bool) (s : Regs P) : Prop where
  active : Active s → P.finished s.side = true ∧ asked = true ∧ s.osRestart ≠ .edge
  last : s.reader.state = .finish →
    s.osRestart = .one ∨ P.finished s.side = true ∧ asked = true
  pulse : s.osRestart = .edge → P.finished s.side = true ∧ asked = true

section Step

variable {e : Event} {s : Regs P}

theorem restartS_iff : restartS e s = true ↔ s.reader.state = .finish := Reader.restart_iff

theorem doneS_iff : doneS e s = true ↔ P.finished s.side = true := by rw [doneS, P.done_eq]

/-- Without a pulse a result stays as it is. -/
theorem side_waits (hresetn : e.sAxisAresetn = true) (hfinished : P.finished s.side = true)
    (hpulse : s.osRestart ≠ .edge) :
    P.finished (next e s).side = true ∧ P.memory (next e s).side = P.memory s.side := by
  cases hclk : e.sAxisAclk with
  | false =>
    simp only [next, hclk, Bool.false_eq_true, if_false]
    exact ⟨hfinished, trivial⟩
  | true =>
    have hquiet : (sideInput e s).restartOs = false := by simp [sideInput, EdgeDet.sigO, hpulse]
    simp only [next, hclk, if_true]
    exact P.waits _ _ hresetn hquiet hfinished

/-- Only the reader's last state makes a pulse. -/
theorem no_pulse (hresetn : e.sAxisAresetn = true) (hreader : s.reader.state ≠ .finish)
    (hpulse : s.osRestart ≠ .edge) : (next e s).osRestart ≠ .edge := by
  have hlow : restartS e s = false := Bool.eq_false_of_not_eq_true (mt restartS_iff.mp hreader)
  cases hclk : e.sAxisAclk with
  | false => simpa only [next, hclk, Bool.false_eq_true, if_false] using hpulse
  | true =>
    simp only [next, hclk, hresetn, hlow, if_true, cond_true]
    cases s.osRestart <;> simp [EdgeDet.next]

theorem askedNext_of_asked {asked : Bool} (hfinish : P.finished (next e s).side = true)
    (hasked : asked = true) : askedNext e s asked = true := by
  simp [askedNext, hfinish, hasked]

theorem askedNext_of_starts {asked : Bool} (hfinish : P.finished (next e s).side = true)
    (hstarts : starts e s = true) : askedNext e s asked = true := by
  simp [askedNext, hfinish, hstarts]

/-- A reader that leaves `ST_IDLE` was started. -/
theorem starts_of_idle (hidle : s.reader.state = .idle) (hnext : (next e s).reader.state ≠ .idle) :
    starts e s = true := by
  cases hclk : e.mAxisAclk with
  | false =>
    simp only [next, hclk, Bool.false_eq_true, if_false] at hnext
    exact absurd hidle hnext
  | true =>
    cases hresetn : e.mAxisAresetn with
    | false => simp [next, hclk, Reader.step, readerInput, hresetn] at hnext
    | true =>
      simp only [next, hclk, if_true, Reader.step, Reader.wires, readerInput, hresetn, hidle,
        cond_true] at hnext
      split at hnext
      next hsend =>
        obtain ⟨hdone, hsend⟩ := Bool.and_eq_true_iff.mp hsend
        simp [starts, hclk, hresetn, hidle, hdone, hsend]
      next => exact absurd rfl hnext

theorem starts_iff :
    starts e s = true ↔ e.mAxisAclk = true ∧ e.mAxisAresetn = true ∧ s.reader.state = .idle ∧
      P.finished s.side = true ∧ e.sendI = true := by
  rw [← @doneS_iff _ P e]
  simp [starts, and_assoc]

/-- The restart pulse is followed by `ST_IDLE`. -/
theorem not_active_of_finish (hfinish : s.reader.state = .finish) : ¬ Active (next e s) := by
  rintro ⟨hidle, hne⟩
  cases hclk : e.mAxisAclk with
  | false =>
    simp only [next, hclk, Bool.false_eq_true, if_false] at hne
    exact hne hfinish
  | true =>
    simp only [next, hclk, if_true, Reader.step, Reader.wires, hfinish] at hidle
    cases hresetn : (readerInput e s).aresetn <;> simp [hresetn] at hidle

variable {asked : Bool}

/-- What holds before a word is offered. -/
theorem Coupled.before_active (h : Coupled asked s) (hone : starts e s = true → asked = false)
    (hactive : Active (next e s)) :
    P.finished s.side = true ∧ (asked = true ∨ starts e s = true) ∧ s.osRestart ≠ .edge ∧
      s.reader.state ≠ .finish := by
  have hfinish : s.reader.state ≠ .finish := fun hfinish => not_active_of_finish hfinish hactive
  by_cases hidle : s.reader.state = .idle
  · have hstarts := starts_of_idle hidle hactive.1
    refine ⟨(starts_iff.mp hstarts).2.2.2.1, .inr hstarts, fun hedge => ?_, hfinish⟩
    -- a pulse on its way belongs to an earlier start for the same result
    rw [hone hstarts] at h
    exact absurd (h.pulse hedge).2 Bool.false_ne_true
  · obtain ⟨hside, hasked, hpulse⟩ := h.active ⟨hidle, hfinish⟩
    exact ⟨hside, .inl hasked, hpulse, hfinish⟩

theorem Coupled.next_last (hresetn : e.sAxisAresetn = true) (h : Coupled asked s)
    (hlast : (next e s).reader.state = .finish) :
    (next e s).osRestart = .one ∨
      P.finished (next e s).side = true ∧ askedNext e s asked = true := by
  cases hclk : e.mAxisAclk with
  | true =>
    simp only [next, hclk, if_true] at hlast
    have htlast := Reader.before_finish hlast
    obtain ⟨hside, hasked, hpulse⟩ := h.active ⟨by simp [htlast], by simp [htlast]⟩
    have hwaits := (side_waits hresetn hside hpulse).1
    exact .inr ⟨hwaits, askedNext_of_asked hwaits hasked⟩
  | false =>
    simp only [next, hclk, Bool.false_eq_true, if_false] at hlast
    have hrestart : restartS e s = true := restartS_iff.mpr hlast
    by_cases hzero : s.osRestart = .zero
    · obtain ⟨hside, hasked⟩ := (h.last hlast).resolve_left (by simp [hzero])
      have hwaits := (side_waits hresetn hside (by simp [hzero])).1
      exact .inr ⟨hwaits, askedNext_of_asked hwaits hasked⟩
    · cases hsclk : e.sAxisAclk with
      | true =>
        left
        simp only [next, hsclk, hresetn, hrestart, if_true, cond_true]
        cases hedge : s.osRestart with
        | zero => exact absurd hedge hzero
        | edge => rfl
        | one => rfl
      | false =>
        have hsame : (next e s).osRestart = s.osRestart ∧ (next e s).side = s.side := by
          simp [next, hsclk]
        rw [hsame.1]
        refine (h.last hlast).imp_right fun ⟨hside, hasked⟩ => ?_
        have hside' : P.finished (next e s).side = true := by rw [hsame.2, hside]
        exact ⟨hside', askedNext_of_asked hside' hasked⟩

theorem Coupled.next_pulse (hresetn : e.sAxisAresetn = true) (h : Coupled asked s)
    (hpulse : (next e s).osRestart = .edge) :
    P.finished (next e s).side = true ∧ askedNext e s asked = true := by
  cases hclk : e.sAxisAclk with
  | false =>
    have hsame : (next e s).osRestart = s.osRestart ∧ (next e s).side = s.side := by
      simp [next, hclk]
    rw [hsame.1] at hpulse
    obtain ⟨hside, hasked⟩ := h.pulse hpulse
    have hside' : P.finished (next e s).side = true := by rw [hsame.2, hside]
    exact ⟨hside', askedNext_of_asked hside' hasked⟩
  | true =>
    simp only [next, hclk, hresetn, if_true, cond_true] at hpulse
    have hzero : s.osRestart = .zero ∧ restartS e s = true := by
      cases hedge : s.osRestart <;> cases hrestart : restartS e s <;>
        simp [EdgeDet.next, hedge, hrestart] at hpulse ⊢
    obtain ⟨hside, hasked⟩ :=
      (h.last (restartS_iff.mp hzero.2)).resolve_left (by simp [hzero.1])
    have hwaits := (side_waits hresetn hside (by simp [hzero.1])).1
    exact ⟨hwaits, askedNext_of_asked hwaits hasked⟩

theorem coupled_step (hresetn : e.sAxisAresetn = true) (h : Coupled asked s)
    (hone : starts e s = true → asked = false) : Coupled (askedNext e s asked) (next e s) where
  active := by
    intro hactive
    obtain ⟨hside, hasked, hpulse, hreader⟩ := h.before_active hone hactive
    have hwaits := (side_waits hresetn hside hpulse).1
    exact ⟨hwaits, hasked.elim (askedNext_of_asked hwaits) (askedNext_of_starts hwaits),
      no_pulse hresetn hreader hpulse⟩
  last := h.next_last hresetn
  pulse := h.next_pulse hresetn

end Step

/-! ## Runs -/

section Runs

variable {x : Nat → Event}

theorem coupled_run (hresetn : ∀ t, (x t).sAxisAresetn = true)
    (hone : ∀ t, starts (x t) (run P x t) = true → asked P x t = false) (t : Nat) :
    Coupled (asked P x t) (run P x t) := by
  induction t with
  | zero => exact ⟨fun h => absurd rfl h.1, nofun, nofun⟩
  | succ t ih => exact coupled_step (hresetn t) ih (hone t)

/-- What holds of the sweeps and the accumulation, on the edges of its clock. -/
theorem side_run {I : List (List (BitVec 128)) → P.Regs → Prop} (hreset : I [] P.reset)
    (hstep : ∀ t log, I log (run P x t).side →
      I ((P.marks (sideInput (x t) (run P x t)) (run P x t).side).record log)
        (P.step (sideInput (x t) (run P x t)) (run P x t).side)) (t : Nat) :
    I (sweepLog P x t) (run P x t).side := by
  induction t with
  | zero => exact hreset
  | succ t ih =>
    rw [sweepLog, sweeps, marks, run_succ, next]
    cases (x t).sAxisAclk with
    | true => exact hstep t _ ih
    | false => exact ih

end Runs

theorem sent_succ (x : Nat → Event) {a b : Nat} (h : a ≤ b) :
    sent P x a (b + 1) = sent P x a b ++ (transfer (x b) (run P x b)).toList :=
  transfers_succ _ h

/-- The reader is started in event `a` and raises `restart_s` before event `b`. -/
structure Episode (P : Side aw) (x : Nat → Event) (a b : Nat) : Prop where
  start : starts (x a) (run P x a) = true
  lt : a < b
  restart : restartS (x b) (run P x b) = true
  between : ∀ u, a < u → u < b → Active (run P x u)

namespace Episode

variable {x : Nat → Event} {a b : Nat}

theorem first (h : Episode P x a b) :
    a + 1 < b ∧ (run P x (a + 1)).reader.state = .enBram ∧ (run P x (a + 1)).reader.addr = 0 := by
  obtain ⟨hclk, hresetn, hidle, hside, hsend⟩ := starts_iff.mp h.start
  have hdone : doneS (x a) (run P x a) = true := doneS_iff.mpr hside
  have hen : (run P x (a + 1)).reader.state = .enBram ∧
      (run P x (a + 1)).reader.addr = 0 := by
    simp [run_succ, next, hclk, Reader.step, Reader.wires, readerInput, hresetn, hidle, hdone,
      hsend]
  refine ⟨Nat.lt_of_le_of_ne h.lt ?_, hen⟩
  rintro rfl
  rw [restartS_iff.mp h.restart] at hen
  exact absurd hen.1 (by decide)

variable (hresetn : ∀ t, (x t).sAxisAresetn = true)
  (hone : ∀ t, starts (x t) (run P x t) = true → asked P x t = false)

include hresetn hone

theorem waits (h : Episode P x a b) {u : Nat} (hau : a ≤ u) (hub : u < b) :
    P.finished (run P x u).side = true ∧ (run P x u).osRestart ≠ .edge := by
  have hcoupled := coupled_run hresetn hone u
  rcases Nat.eq_or_lt_of_le hau with rfl | hlt
  · refine ⟨(starts_iff.mp h.start).2.2.2.1, fun hedge => ?_⟩
    have hasked := (hcoupled.pulse hedge).2
    rw [hone _ h.start] at hasked
    exact absurd hasked Bool.false_ne_true
  · obtain ⟨hside, -, hpulse⟩ := hcoupled.active (h.between u hlt hub)
    exact ⟨hside, hpulse⟩

/-- The memory does not change while it is sent. -/
theorem memory_eq (h : Episode P x a b) {u : Nat} (hau : a ≤ u) (hub : u ≤ b) :
    P.memory (run P x u).side = P.memory (run P x a).side := by
  induction u, hau using Nat.le_induction with
  | base => rfl
  | succ u hau ih =>
    obtain ⟨hside, hpulse⟩ := h.waits hresetn hone hau hub
    rw [run_succ, (side_waits (hresetn u) hside hpulse).2, ih (by omega)]

theorem progress (h : Episode P x a b) {n : Nat} (hn : ∀ t, (P.cfgDataI (x t)).toNat = n)
    (hmax : n ≤ 2 ^ aw) {u : Nat} (hau : a + 1 ≤ u) (hub : u < b) :
    Reader.Progress (P.memory (run P x a).side) n (sent P x (a + 1) u) (run P x u).reader := by
  induction u, hau using Nat.le_induction with
  | base =>
    obtain ⟨-, hstate, haddr⟩ := h.first
    rw [Reader.Progress, hstate]
    exact ⟨transfers_self _ _, haddr⟩
  | succ u hau ih =>
    have hram := h.memory_eq hresetn hone (u := u) (by omega) (by omega)
    have hnext := (h.between (u + 1) (by omega) hub).1
    rw [sent_succ x hau]
    rw [run_succ, next, hram] at hnext ⊢
    cases hclk : (x u).mAxisAclk with
    | false =>
      simp only [transfer, hclk, Bool.false_eq_true, if_false, Option.toList_none,
        List.append_nil]
      exact ih (by omega)
    | true =>
      simp only [hclk, if_true] at hnext
      simp only [transfer, hclk, if_true]
      exact Reader.progress_step (hn u) hmax (ih (by omega)) (h.between u (by omega) (by omega)).1
        hnext

/-- The words of the memory at the start, the last one if it is taken at once. -/
theorem sent_eq (h : Episode P x a b) {n : Nat} (hn : ∀ t, (P.cfgDataI (x t)).toNat = n)
    (htwo : 2 ≤ n) (hmax : n ≤ 2 ^ aw) :
    sent P x (a + 1) b =
      if (x (b - 1)).mAxisTready then Reader.result (P.memory (run P x a).side) n
      else (Reader.result (P.memory (run P x a).side) n).dropLast := by
  obtain ⟨hlt, -⟩ := h.first
  obtain ⟨u, rfl⟩ : ∃ u, b = u + 1 := ⟨b - 1, by omega⟩
  have hactive := h.between u (by omega) (by omega)
  have hfinish := restartS_iff.mp h.restart
  have hclk : (x u).mAxisAclk = true := by
    by_contra hlow
    rw [run_succ, next, if_neg hlow] at hfinish
    exact hactive.2 hfinish
  rw [run_succ, next, if_pos hclk] at hfinish
  have hstate := Reader.before_finish hfinish
  have hprogress := h.progress hresetn hone hn hmax (u := u) (by omega) (by omega)
  rw [Reader.Progress, hstate] at hprogress
  obtain ⟨c, hsent, hdata, hc⟩ := hprogress
  rw [sent_succ x (by omega), hsent, Nat.add_sub_cancel, ← hc htwo, Reader.result_eq,
    List.dropLast_concat]
  cases hready : (x u).mAxisTready with
  | false => simp [transfer, Reader.transfer, readerInput, hready]
  | true => simp [transfer, hclk, Reader.transfer, Reader.wires, readerInput, hstate, hready, hdata]

end Episode

end RpEcosystem.Averager.Delivery
