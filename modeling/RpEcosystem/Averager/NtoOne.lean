import RpEcosystem.Clocked.Machine
import RpEcosystem.Clocked.Modulo
import RpEcosystem.Averager.Core

/-!
# Averaging a sweep to one value: `avg_ntoone`

The beats of a sweep are added up in eight lanes; the lanes are then added to each other and the
sum is written to the word of the sweep.

* `Regs`, `wires`, `step`: the circuit;
* `total`, `foldLanes_eq`: the sum of a sweep, from the lanes;
* `Phase`, `phase_step`: what has been stored in every state;
* `ntoone_sums`: what is stored at the end of a run.
-/

namespace RpEcosystem.Averager.NtoOne

open Clocked

inductive State
  | idle
  | waitTrig
  | avgN1
  | writeAvg
  | finish
  deriving DecidableEq, Repr

/-- The registers and the memory, with `MEM_AWIDTH = aw`. -/
structure Regs (aw : Nat) where
  state : State
  tdpAddra : BitVec aw
  data : BitVec 128
  samples : BitVec 16
  avg : BitVec 16
  ram : Ram aw 16

/-- The signals of the next-state process. -/
structure Wires (aw : Nat) where
  stateNext : State
  tdpWea : Bool
  tdpAddraNext : BitVec aw
  dataNext : BitVec 128
  samplesNext : BitVec 16
  tdpDia : BitVec 16
  tready : Bool
  avgNext : BitVec 16
  done : Bool

variable {aw : Nat}

/-- The loop `ASSIGN_AVG1`, from the most significant lane on. -/
def foldLanes (data : BitVec 128) : BitVec 16 :=
  (List.range 8).foldl (fun dinbv k => dinbv + lane 16 (7 - k) data) 0

def wires (i : Input) (s : Regs aw) : Wires aw :=
  let w : Wires aw :=
    { stateNext := s.state
      tdpWea := false
      tdpAddraNext := s.tdpAddra
      dataNext := s.data
      samplesNext := s.samples
      tdpDia := 0
      tready := false
      avgNext := s.avg
      done := false }
  match s.state with
  | .idle =>
    { w with
      samplesNext := 0
      tdpAddraNext := 0
      avgNext := 0
      dataNext := 0
      stateNext := if i.enI && i.startI then .waitTrig else .idle }
  | .waitTrig => { w with stateNext := if i.trigI then .avgN1 else .waitTrig }
  | .avgN1 =>
    if i.sAxisTvalid then
      let w :=
        { w with
          tready := true
          samplesNext := s.samples + 1
          dataNext := addLanes s.data i.sAxisTdata }
      if s.samples = i.nsamplesI / 8 - 1 then
        { w with
          samplesNext := 0
          stateNext := .writeAvg }
      else w
    else w
  | .writeAvg =>
    { w with
      tdpDia := foldLanes s.data
      tdpWea := true
      dataNext := 0
      tdpAddraNext := s.tdpAddra + 1
      avgNext := s.avg + 1
      stateNext := if s.avg = i.naveragesI - 1 then .finish else .waitTrig }
  | .finish =>
    { w with
      done := true
      stateNext := if i.restartOs then .idle else .finish }

/-- One clock edge. The memory does not see the reset. -/
def step (i : Input) (s : Regs aw) : Regs aw :=
  let w := wires i s
  { state := bif i.sAxisAresetn then w.stateNext else .idle
    tdpAddra := bif i.sAxisAresetn then w.tdpAddraNext else 0
    data := bif i.sAxisAresetn then w.dataNext else 0
    samples := bif i.sAxisAresetn then w.samplesNext else 0
    avg := bif i.sAxisAresetn then w.avgNext else 0
    ram := writeA w.tdpWea s.tdpAddra w.tdpDia s.ram }

def machine (aw : Nat) : Machine Input (Regs aw) where
  reset :=
    { state := .idle
      tdpAddra := 0
      data := 0
      samples := 0
      avg := 0
      ram := fun _ => 0 }
  next := step

def run (aw : Nat) (x : Nat → Input) (t : Nat) : Regs aw := (machine aw).run x t

/-- A start forgets the sweeps, a trigger opens one, and accepted beats go into it. -/
def marks (i : Input) (s : Regs aw) : Marks (BitVec 128) where
  clear := s.state = .idle
  opens := s.state = .waitTrig && i.trigI
  beat := if (wires i s).tready && i.sAxisTvalid then some i.sAxisTdata else none

/-- The sweeps of the run under way in cycle `t`. -/
def sweepLog (aw : Nat) (x : Nat → Input) (t : Nat) : List (List (BitVec 128)) :=
  sweeps (fun u => marks (x u) (run aw x u)) t

/-! ## The sum of a sweep -/

/-- The sum of all samples of a sweep. -/
def total (sweep : List (BitVec 128)) : Int :=
  (sweep.map fun beat => ((List.range 8).map fun i => sample i beat).sum).sum

/-- The sum of the samples in one lane. -/
def laneTotal (i : Nat) (sweep : List (BitVec 128)) : Int := (sweep.map (sample i)).sum

/-- The lanes hold the sums of the beats taken so far. -/
def LaneSums (data : BitVec 128) (current : List (BitVec 128)) : Prop :=
  ∀ i, i < 8 → lane 16 i data = BitVec.ofInt 16 (laneTotal i current)

theorem laneSums_nil : LaneSums 0 [] := by
  intro i _
  rw [lane_zero]
  rfl

theorem LaneSums.beat {data : BitVec 128} {current : List (BitVec 128)}
    (h : LaneSums data current) (b : BitVec 128) : LaneSums (addLanes data b) (current ++ [b]) := by
  intro i hi
  rw [lane_addLanes hi (h i hi), laneTotal, laneTotal, List.map_append, List.sum_append]
  simp

theorem sum_laneTotal (sweep : List (BitVec 128)) :
    ((List.range 8).map fun i => laneTotal i sweep).sum = total sweep := by
  induction sweep with
  | nil => rfl
  | cons beat sweep ih =>
    have hcons : ∀ i, laneTotal i (beat :: sweep) = sample i beat + laneTotal i sweep :=
      fun i => by rw [laneTotal, List.map_cons, List.sum_cons, laneTotal]
    simp only [hcons]
    rw [List.sum_map_add, ih, total, total, List.map_cons, List.sum_cons]

theorem LaneSums.foldLanes_eq {data : BitVec 128} {sweep : List (BitVec 128)}
    (h : LaneSums data sweep) : foldLanes data = BitVec.ofInt 16 (total sweep) := by
  -- after `m` turns of the loop the upper `m` lanes are in the sum
  have hloop : ∀ m, m ≤ 8 → (List.range m).foldl (fun dinbv k => dinbv + lane 16 (7 - k) data) 0 =
      BitVec.ofInt 16 ((List.range m).map fun k => laneTotal (7 - k) sweep).sum := by
    intro m hm
    induction m with
    | zero => rfl
    | succ m ih =>
      rw [List.range_succ, List.foldl_append, List.foldl_cons, List.foldl_nil, ih (by omega),
        h (7 - m) (by omega), ← BitVec.ofInt_add, List.map_append, List.sum_append]
      simp
  have hreverse : ((List.range 8).map fun k => laneTotal (7 - k) sweep).sum =
      ((List.range 8).map fun k => laneTotal k sweep).sum := by
    have hrange : (List.range 8).map (fun k => 7 - k) = (List.range 8).reverse := by decide
    rw [← List.sum_reverse ((List.range 8).map fun k => laneTotal k sweep), ← List.map_reverse,
      ← hrange, List.map_map]
    rfl
  rw [foldLanes, hloop 8 le_rfl, hreverse, sum_laneTotal]

/-! ## A run -/

/-- The sums of the sweeps are stored in order. -/
def Stored (ram : Ram aw 16) (closed : List (List (BitVec 128))) : Prop :=
  ∀ k sweep, closed[k]? = some sweep → ram (BitVec.ofNat aw k) = BitVec.ofInt 16 (total sweep)

theorem Stored.concat {ram : Ram aw 16} {closed : List (List (BitVec 128))}
    (h : Stored ram closed) (hfits : closed.length < 2 ^ aw) {sweep : List (BitVec 128)}
    {dia : BitVec 16} (hdia : dia = BitVec.ofInt 16 (total sweep)) :
    Stored (writeA true (BitVec.ofNat aw closed.length) dia ram) (closed ++ [sweep]) := by
  intro k sweep' hk
  rcases Nat.lt_trichotomy k closed.length with hlt | rfl | hgt
  · rw [List.getElem?_append_left hlt] at hk
    rw [writeA_apply, if_neg, h k sweep' hk]
    rintro ⟨-, heq⟩
    have heq := congrArg BitVec.toNat heq
    rw [BitVec.toNat_ofNat, BitVec.toNat_ofNat, Nat.mod_eq_of_lt (by omega),
      Nat.mod_eq_of_lt hfits] at heq
    omega
  · rw [List.getElem?_concat_length] at hk
    cases hk
    rw [writeA_apply, if_pos ⟨rfl, rfl⟩, hdia]
  · rw [List.getElem?_eq_none (by rw [List.length_append, List.length_singleton]; omega)] at hk
    cases hk

/-- What holds in each state of a run of `a` sweeps of `n` beats. -/
def Phase (n a : Nat) (log : List (List (BitVec 128))) (s : Regs aw) : Prop :=
  match s.state with
  | .idle => True
  | .waitTrig =>
    s.data = 0 ∧ s.samples = 0 ∧ s.avg.toNat < a ∧ s.tdpAddra = BitVec.ofNat aw log.length ∧
      Complete n s.avg log ∧ Stored s.ram log
  | .avgN1 =>
    s.samples.toNat < n ∧ s.avg.toNat < a ∧
      ∃ closed current, log = closed ++ [current] ∧ current.length = s.samples.toNat ∧
        s.tdpAddra = BitVec.ofNat aw closed.length ∧ Complete n s.avg closed ∧
        Stored s.ram closed ∧ LaneSums s.data current
  | .writeAvg =>
    s.samples = 0 ∧ s.avg.toNat < a ∧
      ∃ closed current, log = closed ++ [current] ∧ current.length = n ∧
        s.tdpAddra = BitVec.ofNat aw closed.length ∧ Complete n s.avg closed ∧
        Stored s.ram closed ∧ LaneSums s.data current
  | .finish => log.length = a ∧ (∀ sweep ∈ log, sweep.length = n) ∧ Stored s.ram log

/-- The configuration: `a` sweeps of `n` beats, with a word for every sweep. -/
structure Configured (aw n a : Nat) (i : Input) : Prop where
  nsamples : i.nsamplesI.toNat = 8 * n
  naverages : i.naveragesI.toNat = a
  pos : 0 < n
  once : 0 < a
  fits : a ≤ 2 ^ aw

section Step

variable {n a : Nat} {i : Input} {s : Regs aw} {log : List (List (BitVec 128))}

theorem Configured.lastBeat_iff (hc : Configured aw n a i) :
    s.samples = i.nsamplesI / 8 - 1 ↔ s.samples.toNat = n - 1 :=
  eq_sub_one_iff (toNat_beats hc.nsamples) hc.pos

theorem Configured.lastSweep_iff (hc : Configured aw n a i) :
    s.avg = i.naveragesI - 1 ↔ s.avg.toNat = a - 1 :=
  eq_sub_one_iff hc.naverages hc.once

theorem phase_idle (hc : Configured aw n a i) (hresetn : i.sAxisAresetn = true)
    (hstate : s.state = .idle) : Phase n a [] (step i s) := by
  by_cases hstart : (i.enI && i.startI) = true
  · simp only [Phase, step, wires, hstate, hresetn, cond_true, if_pos hstart]
    exact ⟨trivial, trivial, hc.once, rfl, ⟨rfl, nofun⟩, nofun⟩
  · simp only [Phase, step, wires, hstate, hresetn, cond_true, if_neg hstart]

theorem phase_waitTrig (hc : Configured aw n a i) (hresetn : i.sAxisAresetn = true)
    (hstate : s.state = .waitTrig) (h : Phase n a log s) :
    Phase n a (if i.trigI then log ++ [[]] else log) (step i s) := by
  rw [Phase, hstate] at h
  obtain ⟨hdata, hsamples, havg, haddra, hcomplete, hstored⟩ := h
  cases htrig : i.trigI with
  | true =>
    simp only [Phase, step, wires, hstate, hresetn, htrig, cond_true, if_true]
    refine ⟨?_, havg, log, [], rfl, ?_, haddra, hcomplete, hstored, ?_⟩
    · rw [hsamples]
      exact hc.pos
    · rw [hsamples]
      rfl
    · rw [hdata]
      exact laneSums_nil
  | false =>
    simp only [Phase, step, wires, hstate, hresetn, htrig, cond_true, Bool.false_eq_true,
      if_false]
    exact ⟨hdata, hsamples, havg, haddra, hcomplete, hstored⟩

theorem phase_beat (hc : Configured aw n a i) (hresetn : i.sAxisAresetn = true)
    (hstate : s.state = .avgN1) (hvalid : i.sAxisTvalid = true)
    {closed : List (List (BitVec 128))} {current : List (BitVec 128)}
    (h : Phase n a (closed ++ [current]) s) :
    Phase n a (closed ++ [current ++ [i.sAxisTdata]]) (step i s) := by
  rw [Phase, hstate] at h
  obtain ⟨hsamples, havg, closed', current', hlog, hlength, haddra, hcomplete, hstored, hlanes⟩ := h
  obtain ⟨rfl, hcurrent⟩ := List.append_inj' hlog rfl
  cases hcurrent
  have hlength' : (current ++ [i.sAxisTdata]).length = s.samples.toNat + 1 := by
    rw [List.length_append, List.length_singleton, hlength]
  by_cases hlast : s.samples = i.nsamplesI / 8 - 1
  · have hlast' := hc.lastBeat_iff.mp hlast
    simp only [Phase, step, wires, hstate, hresetn, hvalid, cond_true, if_true, if_pos hlast]
    exact ⟨trivial, havg, closed, _, rfl, by omega, haddra, hcomplete, hstored, hlanes.beat _⟩
  · have hlast' := mt hc.lastBeat_iff.mpr hlast
    have hn := i.nsamplesI.isLt
    rw [hc.nsamples] at hn
    have hnext : (s.samples + 1).toNat = s.samples.toNat + 1 := toNat_add_one_of_lt (by omega)
    simp only [Phase, step, wires, hstate, hresetn, hvalid, cond_true, if_true, if_neg hlast]
    exact ⟨by omega, havg, closed, _, rfl, by omega, haddra, hcomplete, hstored, hlanes.beat _⟩

theorem phase_stalled (hresetn : i.sAxisAresetn = true) (hstate : s.state = .avgN1)
    (hvalid : i.sAxisTvalid = false) (h : Phase n a log s) : Phase n a log (step i s) := by
  rw [Phase, hstate] at h
  simp only [Phase, step, wires, hstate, hresetn, hvalid, cond_true, Bool.false_eq_true, if_false]
  exact h

/-- The sum of the sweep is stored behind those of the sweeps before it. -/
theorem phase_writeAvg (hc : Configured aw n a i) (hresetn : i.sAxisAresetn = true)
    (hstate : s.state = .writeAvg) (h : Phase n a log s) : Phase n a log (step i s) := by
  rw [Phase, hstate] at h
  obtain ⟨hsamples, havg, closed, current, rfl, hlength, haddra, hcomplete, hstored, hlanes⟩ := h
  have ha := i.naveragesI.isLt
  rw [hc.naverages] at ha
  have hfits := hc.fits
  have hcount : (s.avg + 1).toNat = s.avg.toNat + 1 := toNat_add_one_of_lt (by omega)
  have hcomplete' := hcomplete.concat hcount hlength
  have hclosed := hcomplete.1
  have hstored' := hstored.concat (by omega) hlanes.foldLanes_eq
  rw [← haddra] at hstored'
  by_cases hend : s.avg = i.naveragesI - 1
  · have hend' := hc.lastSweep_iff.mp hend
    simp only [Phase, step, wires, hstate, hresetn, cond_true, if_pos hend]
    exact ⟨by rw [hcomplete'.1]; omega, hcomplete'.2, hstored'⟩
  · have hend' := mt hc.lastSweep_iff.mpr hend
    simp only [Phase, step, wires, hstate, hresetn, cond_true, if_neg hend]
    refine ⟨trivial, hsamples, by omega, ?_, hcomplete', hstored'⟩
    rw [haddra, List.length_append, List.length_singleton, BitVec.ofNat_add]
    rfl

theorem phase_finish (hresetn : i.sAxisAresetn = true) (hstate : s.state = .finish)
    (h : Phase n a log s) : Phase n a log (step i s) := by
  rw [Phase, hstate] at h
  cases hrestart : i.restartOs with
  | true => simp only [Phase, step, wires, hstate, hresetn, hrestart, cond_true, if_true]
  | false =>
    simp only [Phase, step, wires, hstate, hresetn, hrestart, cond_true, Bool.false_eq_true,
      if_false]
    exact h

theorem phase_step (hc : Configured aw n a i) (h : Phase n a log s) :
    Phase n a ((marks i s).record log) (step i s) := by
  cases hresetn : i.sAxisAresetn with
  | false => simp [Phase, step, hresetn]
  | true =>
    cases hstate : s.state with
    | idle =>
      rw [record_clear (by simp [marks, hstate])]
      exact phase_idle hc hresetn hstate
    | waitTrig =>
      have hrecord : (marks i s).record log = if i.trigI then log ++ [[]] else log := by
        cases htrig : i.trigI with
        | true => exact record_opens (by simp [marks, hstate]) (by simp [marks, hstate, htrig]) log
        | false =>
          exact record_quiet (by simp [marks, hstate]) (by simp [marks, htrig])
            (by simp [marks, wires, hstate]) log
      rw [hrecord]
      exact phase_waitTrig hc hresetn hstate h
    | avgN1 =>
      cases hvalid : i.sAxisTvalid with
      | true =>
        have hbeat : (marks i s).beat = some i.sAxisTdata := by
          have htready : (wires i s).tready = true := by
            simp only [wires, hstate, hvalid, if_true]
            split <;> rfl
          simp [marks, htready, hvalid]
        have h' := h
        rw [Phase, hstate] at h'
        obtain ⟨-, -, closed, current, rfl, -⟩ := h'
        rw [record_beat (by simp [marks, hstate]) (by simp [marks, hstate]) hbeat]
        exact phase_beat hc hresetn hstate hvalid h
      | false =>
        rw [record_quiet (by simp [marks, hstate]) (by simp [marks, hstate])
          (by simp [marks, hvalid])]
        exact phase_stalled hresetn hstate hvalid h
    | writeAvg =>
      rw [record_quiet (by simp [marks, hstate]) (by simp [marks, hstate])
        (by simp [marks, wires, hstate])]
      exact phase_writeAvg hc hresetn hstate h
    | finish =>
      rw [record_quiet (by simp [marks, hstate]) (by simp [marks, hstate])
        (by simp [marks, wires, hstate])]
      exact phase_finish hresetn hstate h

end Step

theorem phase_run {n a : Nat} {x : Nat → Input} (hc : ∀ t, Configured aw n a (x t)) (t : Nat) :
    Phase n a (sweepLog aw x t) (run aw x t) := by
  induction t with
  | zero => trivial
  | succ t ih => exact phase_step (hc t) ih

/-- At the end of a run word `k` is the sum of all samples of sweep `k`. -/
theorem ntoone_sums {nsamples naverages : BitVec 16} (hmultiple : nsamples.toNat % 8 = 0)
    (hmin : 8 ≤ nsamples.toNat) (honce : 1 ≤ naverages.toNat) (hmax : naverages.toNat ≤ 2 ^ aw)
    {x : Nat → Input}
    (hx : ∀ t, (x t).nsamplesI = nsamples ∧ (x t).naveragesI = naverages) {t : Nat}
    (hfinish : (run aw x t).state = .finish) :
    (sweepLog aw x t).length = naverages.toNat ∧
      (∀ sweep ∈ sweepLog aw x t, sweep.length = nsamples.toNat / 8) ∧
      ∀ k, k < naverages.toNat →
        (run aw x t).ram (BitVec.ofNat aw k) =
          BitVec.ofInt 16 (total ((sweepLog aw x t).getD k [])) := by
  have hc : ∀ t, Configured aw (nsamples.toNat / 8) naverages.toNat (x t) := by
    intro t
    obtain ⟨hnsamples, hnaverages⟩ := hx t
    exact ⟨by rw [hnsamples]; omega, by rw [hnaverages], by omega, honce, hmax⟩
  have hphase := phase_run hc t
  rw [Phase, hfinish] at hphase
  obtain ⟨hlength, hlengths, hstored⟩ := hphase
  refine ⟨hlength, hlengths, fun k hk => ?_⟩
  have hin : k < (sweepLog aw x t).length := by omega
  rw [hstored k _ (List.getElem?_eq_getElem hin), List.getD_eq_getElem?_getD,
    List.getElem?_eq_getElem hin, Option.getD_some]

theorem ntoone_sums_busy :
    (run 10 (fun _ => busy 0x8000) 7).state = .finish ∧
      (run 10 (fun _ => busy 0x8000) 7).ram (BitVec.ofNat 10 1) =
        BitVec.ofInt 16 (total ((sweepLog 10 (fun _ => busy 0x8000) 7).getD 1 [])) :=
  ⟨by decide, (@ntoone_sums 10 8 2 (by decide) (by decide) (by decide) (by decide)
    (fun _ => busy 0x8000) (fun _ => ⟨rfl, rfl⟩) 7 (by decide)).2.2 1 (by decide)⟩

end RpEcosystem.Averager.NtoOne
