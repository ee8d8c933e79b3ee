import RpEcosystem.Averager.Scope
import RpEcosystem.Averager.NtoOne
import RpEcosystem.Averager.Handshake

/-!
# From the sweeps to the stream: `avg_scope` and `avg_ntoone` with their readers

Both accumulations are sent by the same reader over the same handshake. `avg_scope` clears its
memory after the restart pulse, `avg_ntoone` only writes it again in the next run.

* `scope`, `ntoone`: the two sides;
* `summed`, `delivers_sums`: the sums of the samples over the sweeps;
* `totals`, `delivers_totals`: the sum of every sweep.
-/

namespace RpEcosystem.Averager.Delivery

open Clocked

variable {aw : Nat}

/-! ## The two accumulations -/

theorem scope_done_eq (i : Input) (s : Scope.Regs aw) :
    (Scope.wires i s).done = decide (s.state = .finish) := by
  cases hstate : s.state with
  | idle => simp [Scope.wires, hstate]
  | waitTrig => simp [Scope.wires, hstate]
  | enTdpb =>
    simp only [Scope.wires, hstate]
    split <;> simp
  | avgScope =>
    simp only [Scope.wires, hstate]
    split
    next => split <;> simp
    next => simp
  | finish => simp [Scope.wires, hstate]
  | wrZeros => simp [Scope.wires, hstate]

theorem scope_waits (i : Input) (s : Scope.Regs aw) (hresetn : i.sAxisAresetn = true)
    (hquiet : i.restartOs = false) (hfinish : decide (s.state = .finish) = true) :
    decide ((Scope.step i s).state = .finish) = true ∧ (Scope.step i s).myRam = s.myRam := by
  have hstate := of_decide_eq_true hfinish
  simp [Scope.step, Scope.wires, hstate, hquiet, hresetn, asymWrite]

/-- `avg_scope` -/
def scope (aw : Nat) : Side (aw + 3) where
  Regs := Scope.Regs aw
  reset := (Scope.machine aw).reset
  step := Scope.step
  done i s := (Scope.wires i s).done
  memory := Scope.Regs.myRam
  cfgDataI := Event.nsamplesI
  marks := Scope.marks
  finished s := s.state = .finish
  done_eq := scope_done_eq
  waits := scope_waits

theorem ntoone_done_eq (i : Input) (s : NtoOne.Regs aw) :
    (NtoOne.wires i s).done = decide (s.state = .finish) := by
  cases hstate : s.state with
  | idle => simp [NtoOne.wires, hstate]
  | waitTrig => simp [NtoOne.wires, hstate]
  | avgN1 =>
    simp only [NtoOne.wires, hstate]
    split
    next => split <;> simp
    next => simp
  | writeAvg => simp [NtoOne.wires, hstate]
  | finish => simp [NtoOne.wires, hstate]

theorem ntoone_waits (i : Input) (s : NtoOne.Regs aw) (hresetn : i.sAxisAresetn = true)
    (hquiet : i.restartOs = false) (hfinish : decide (s.state = .finish) = true) :
    decide ((NtoOne.step i s).state = .finish) = true ∧ (NtoOne.step i s).ram = s.ram := by
  have hstate := of_decide_eq_true hfinish
  simp [NtoOne.step, NtoOne.wires, hstate, hquiet, hresetn, writeA]

/-- `avg_ntoone`; its reader sends one word for each sweep. -/
def ntoone (aw : Nat) : Side aw where
  Regs := NtoOne.Regs aw
  reset := (NtoOne.machine aw).reset
  step := NtoOne.step
  done i s := (NtoOne.wires i s).done
  memory := NtoOne.Regs.ram
  cfgDataI := Event.naveragesI
  marks := NtoOne.marks
  finished s := s.state = .finish
  done_eq := ntoone_done_eq
  waits := ntoone_waits

/-! ## Sums over the sweeps -/

/-- The invariant of the accumulation, on the edges of its clock. -/
theorem inv_run {x : Nat → Event} {n a : Nat}
    (hc : ∀ t, Scope.Configured aw n a (sideInput (x t) (run (scope aw) x t))) (t : Nat) :
    Scope.Inv n a (sweepLog (scope aw) x t) (run (scope aw) x t).side := by
  have hreset : Scope.Inv n a [] (Scope.machine aw).reset := by
    refine ⟨fun _ => rfl, fun _ _ => rfl, fun k i _ => ?_⟩
    exact (lane_zero 16 i).symm
  exact side_run hreset (fun t _ ih => Scope.inv_step (hc t) ih) t

/-- The sums of `n` samples over the sweeps, with `tlast` on the last one. -/
def summed (log : List (List (BitVec 128))) (n : Nat) : List (BitVec 16 × Bool) :=
  (List.range n).map fun j =>
    (BitVec.ofInt 16 (columnSum (sample (j % 8)) (j / 8) log), decide (j + 1 = n))

/-- The output memory at the end of a run. -/
theorem result_eq_summed {n a : Nat} {log : List (List (BitVec 128))} {s : Scope.Regs aw}
    (h : Scope.Inv n a log s) (hmax : n ≤ 2 ^ aw) (hfinish : s.state = .finish) :
    log.length = a ∧ (∀ sweep ∈ log, sweep.length = n) ∧
      Reader.result s.myRam (8 * n) = summed log (8 * n) := by
  have hphase := h.phase
  rw [Scope.Phase, hfinish] at hphase
  obtain ⟨-, hlength, hlengths, hsums⟩ := hphase
  refine ⟨hlength, hlengths, List.map_congr_left fun j hj => ?_⟩
  rw [List.mem_range] at hj
  have hlane : j % 8 < 8 := Nat.mod_lt j (by decide)
  have hword : j / 8 < 2 ^ aw := by omega
  have haddr : j < 2 ^ (aw + 3) := by
    rw [Nat.pow_add]
    omega
  have hsum := hsums (BitVec.ofNat aw (j / 8)) (j % 8) hlane
  rw [BitVec.toNat_ofNat, Nat.mod_eq_of_lt hword] at hsum
  rw [ofNat_eq_append haddr, ← hsum]
  exact congrArg (·, _) (h.mirrors _ _ hlane)

/-- Two sweeps of one beat, both clocks with an edge in every event, and one request. -/
def asking (t : Nat) : Event where
  sAxisAclk := true
  mAxisAclk := true
  sAxisAresetn := true
  mAxisAresetn := true
  startI := true
  enI := true
  trigI := true
  sendI := t = 7
  naveragesI := 2
  nsamplesI := 8
  sAxisTvalid := true
  sAxisTdata := 0x00308000
  mAxisTready := true

theorem episode_asking : Episode (scope 0) asking 7 17 where
  start := by decide
  lt := by decide
  restart := by decide
  between u hlo hhi :=
    (by decide : ∀ u < 17, 7 < u → Active (run (scope 0) asking u)) u hhi hlo

def askingTwice (t : Nat) : Event := { asking t with sendI := t = 7 || t = 18 }

/-- A second request while the restart pulse is on its way: the memory is cleared under the
reader. -/
example : starts (askingTwice 18) (run (scope 0) askingTwice 18) = true ∧
    (sent (scope 0) askingTwice 19 28).length = 8 ∧
    sent (scope 0) askingTwice 19 28 ≠ summed (sweepLog (scope 0) askingTwice 18) 8 := by
  decide

/-! ## Sums of the sweeps -/

theorem phase_run {x : Nat → Event} {n a : Nat}
    (hc : ∀ t, NtoOne.Configured aw n a (sideInput (x t) (run (ntoone aw) x t))) (t : Nat) :
    NtoOne.Phase n a (sweepLog (ntoone aw) x t) (run (ntoone aw) x t).side :=
  side_run (P := ntoone aw) trivial (fun t _ ih => NtoOne.phase_step (hc t) ih) t

/-- The sum of every sweep, with `tlast` on the last one. -/
def totals (log : List (List (BitVec 128))) : List (BitVec 16 × Bool) :=
  (List.range log.length).map fun k =>
    (BitVec.ofInt 16 (NtoOne.total (log.getD k [])), decide (k + 1 = log.length))

theorem result_eq_totals {n a : Nat} {log : List (List (BitVec 128))} {s : NtoOne.Regs aw}
    (h : NtoOne.Phase n a log s) (hfinish : s.state = .finish) :
    log.length = a ∧ (∀ sweep ∈ log, sweep.length = n) ∧ Reader.result s.ram a = totals log := by
  rw [NtoOne.Phase, hfinish] at h
  obtain ⟨rfl, hlengths, hstored⟩ := h
  refine ⟨rfl, hlengths, List.map_congr_left fun k hk => ?_⟩
  have hin := List.mem_range.mp hk
  rw [hstored k _ (List.getElem?_eq_getElem hin), List.getD_eq_getElem?_getD,
    List.getElem?_eq_getElem hin, Option.getD_some]

theorem episode_asking_ntoone : Episode (ntoone 1) asking 7 11 where
  start := by decide
  lt := by decide
  restart := by decide
  between u hlo hhi :=
    (by decide : ∀ u < 11, 7 < u → Active (run (ntoone 1) asking u)) u hhi hlo

end RpEcosystem.Averager.Delivery
