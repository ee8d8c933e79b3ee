import RpEcosystem.Clocked.Machine
import RpEcosystem.Clocked.Modulo
import RpEcosystem.Averager.Core

/-!
# Averaging sweep by sweep: `avg_scope`

Every beat of a sweep is added, lane by lane, to the word of an accumulation memory with the index
of the beat. The read address runs one ahead of the write address, and the sum is written to a
second memory at the same time, from which it is sent. After a run the words are set to zero.

* `Regs`, `wires`, `step`: the circuit;
* `marks`, `sweepLog`: the sweeps of the run under way;
* `Sums`, `Inv`, `inv_step`: what the memory holds in every state;
* `scope_sums`: what it holds at the end of a run.
-/

namespace RpEcosystem.Averager.Scope

open Clocked

inductive State
  | idle
  | waitTrig
  | enTdpb
  | avgScope
  | finish
  | wrZeros
  deriving DecidableEq, Repr

/-- The registers and the two memories, with `2 ^ aw` wide words. -/
structure Regs (aw : Nat) where
  state : State
  tdpAddra : BitVec aw
  tdpAddrb : BitVec aw
  avg : BitVec 16
  ram : Ram aw 128
  bReg : BitVec 128
  myRam : Ram (aw + 3) 16

variable {aw : Nat}

/-- The signals of the next-state process. -/
structure Wires (aw : Nat) where
  stateNext : State
  rstb : Bool
  tdpWea : Bool
  tdpAddraNext : BitVec aw
  tdpDia : BitVec 128
  tdpEnb : Bool
  tdpAddrbNext : BitVec aw
  tready : Bool
  avgNext : BitVec 16
  done : Bool

def lastWord (i : Input) (s : Regs aw) : Prop :=
  s.tdpAddra.toNat = (i.nsamplesI / 8 - 1).toNat

instance (i : Input) (s : Regs aw) : Decidable (lastWord i s) :=
  inferInstanceAs (Decidable (_ = _))

def wires (i : Input) (s : Regs aw) : Wires aw :=
  let w : Wires aw :=
    { stateNext := s.state
      rstb := false
      tdpWea := false
      tdpAddraNext := s.tdpAddra
      tdpDia := 0
      tdpEnb := false
      tdpAddrbNext := s.tdpAddrb
      tready := false
      avgNext := s.avg
      done := false }
  match s.state with
  | .idle =>
    { w with
      rstb := true
      tdpAddraNext := 0
      tdpAddrbNext := 0
      avgNext := 0
      stateNext := if i.enI && i.startI then .waitTrig else .idle }
  | .waitTrig => { w with stateNext := if i.trigI then .enTdpb else .waitTrig }
  | .enTdpb =>
    if i.sAxisTvalid then
      { w with
        tdpEnb := true
        tdpAddrbNext := s.tdpAddrb + 1
        stateNext := .avgScope }
    else w
  | .avgScope =>
    if i.sAxisTvalid then
      let w :=
        { w with
          tready := true
          tdpEnb := true
          tdpWea := true
          tdpAddraNext := s.tdpAddra + 1
          tdpAddrbNext := s.tdpAddrb + 1
          tdpDia := addLanes s.bReg i.sAxisTdata }
      if lastWord i s then
        { w with
          tdpAddraNext := 0
          tdpAddrbNext := 0
          avgNext := s.avg + 1
          stateNext := if s.avg = i.naveragesI - 1 then .finish else .waitTrig }
      else w
    else { w with stateNext := .avgScope }
  | .finish =>
    { w with
      done := true
      stateNext := if i.restartOs then .wrZeros else .finish }
  | .wrZeros =>
    { w with
      tdpWea := true
      tdpAddraNext := s.tdpAddra + 1
      stateNext := if lastWord i s then .idle else .wrZeros }

/-- One clock edge. The memories do not see the reset. -/
def step (i : Input) (s : Regs aw) : Regs aw :=
  let w := wires i s
  { state := bif i.sAxisAresetn then w.stateNext else .idle
    tdpAddra := bif i.sAxisAresetn then w.tdpAddraNext else 0
    tdpAddrb := bif i.sAxisAresetn then w.tdpAddrbNext else 0
    avg := bif i.sAxisAresetn then w.avgNext else 0
    ram := writeA w.tdpWea s.tdpAddra w.tdpDia s.ram
    bReg := readB w.rstb w.tdpEnb s.tdpAddrb s.ram s.bReg
    myRam := asymWrite w.tdpWea s.tdpAddra w.tdpDia s.myRam }

@[simp] theorem step_ram (i : Input) (s : Regs aw) :
    (step i s).ram = writeA (wires i s).tdpWea s.tdpAddra (wires i s).tdpDia s.ram := rfl

/-- The circuit after power-up and the first reset. -/
def machine (aw : Nat) : Machine Input (Regs aw) where
  reset :=
    { state := .idle
      tdpAddra := 0
      tdpAddrb := 0
      avg := 0
      ram := fun _ => 0
      bReg := 0
      myRam := fun _ => 0 }
  next := step

def run (aw : Nat) (x : Nat → Input) (t : Nat) : Regs aw := (machine aw).run x t

theorem run_succ (x : Nat → Input) (t : Nat) : run aw x (t + 1) = step (x t) (run aw x t) := rfl

/-- A start forgets the sweeps, a trigger opens one, and accepted beats go into it. -/
def marks (i : Input) (s : Regs aw) : Marks (BitVec 128) where
  clear := s.state = .idle
  opens := s.state = .waitTrig && i.trigI
  beat := if (wires i s).tready && i.sAxisTvalid then some i.sAxisTdata else none

/-- The sweeps of the run under way in cycle `t`. -/
def sweepLog (aw : Nat) (x : Nat → Input) (t : Nat) : List (List (BitVec 128)) :=
  sweeps (fun u => marks (x u) (run aw x u)) t

/-- The memory holds the sum of the sweeps, word by word and lane by lane. -/
def Sums (ram : Ram aw 128) (log : List (List (BitVec 128))) : Prop :=
  ∀ k i, i < 8 → lane 16 i (ram k) = BitVec.ofInt 16 (columnSum (sample i) k.toNat log)

theorem sums_nil {ram : Ram aw 128} (h : ∀ k, ram k = 0) : Sums ram [] := by
  intro k i _
  rw [h k, lane_zero, columnSum_nil]
  rfl

theorem Sums.opened {ram : Ram aw 128} {log : List (List (BitVec 128))} (h : Sums ram log) :
    Sums ram (log ++ [[]]) := by
  intro k i hi
  rw [h k i hi, columnSum_open]

/-- One beat is added to the word of its index. -/
theorem Sums.beat {ram : Ram aw 128} {closed : List (List (BitVec 128))}
    {current : List (BitVec 128)} (h : Sums ram (closed ++ [current])) {addr : BitVec aw}
    (haddr : addr.toNat = current.length) (b : BitVec 128) :
    Sums (writeA true addr (addLanes (ram addr) b) ram) (closed ++ [current ++ [b]]) := by
  intro k i hi
  rw [writeA_apply, columnSum_beat]
  by_cases hk : k = addr
  · rw [if_pos ⟨rfl, hk⟩, if_pos (by rw [hk, haddr]), ← hk, lane_addLanes hi (h k i hi)]
  · rw [if_neg (by simp [hk]), h k i hi, if_neg, add_zero]
    intro heq
    exact hk (BitVec.eq_of_toNat_eq (by rw [heq, haddr]))

/-! ## A run -/

/-- What holds in each state of a run of `a` sweeps of `n` beats. -/
def Phase (n a : Nat) (log : List (List (BitVec 128))) (s : Regs aw) : Prop :=
  match s.state with
  | .idle => ∀ k, s.ram k = 0
  | .waitTrig =>
    s.tdpAddra = 0 ∧ s.tdpAddrb = 0 ∧ s.avg.toNat < a ∧ Complete n s.avg log ∧ Sums s.ram log
  | .enTdpb =>
    s.tdpAddra = 0 ∧ s.tdpAddrb = 0 ∧ s.avg.toNat < a ∧
      ∃ closed, log = closed ++ [[]] ∧ Complete n s.avg closed ∧ Sums s.ram log
  | .avgScope =>
    s.tdpAddra.toNat < n ∧ s.tdpAddrb = s.tdpAddra + 1 ∧ s.bReg = s.ram s.tdpAddra ∧
      s.avg.toNat < a ∧
      ∃ closed current, log = closed ++ [current] ∧ current.length = s.tdpAddra.toNat ∧
        Complete n s.avg closed ∧ Sums s.ram log
  | .finish =>
    s.tdpAddra = 0 ∧ log.length = a ∧ (∀ sweep ∈ log, sweep.length = n) ∧ Sums s.ram log
  | .wrZeros => s.tdpAddra.toNat < n ∧ ∀ k, k.toNat < s.tdpAddra.toNat → s.ram k = 0

/-- The invariant: the phase, nothing above the words in use, and the two memories in step. -/
structure Inv (n a : Nat) (log : List (List (BitVec 128))) (s : Regs aw) : Prop where
  phase : Phase n a log s
  above : ∀ k, n ≤ k.toNat → s.ram k = 0
  mirrors : Mirrors s.ram s.myRam

/-- The configuration of the run: `a` sweeps of `n` beats that fit the memory. -/
structure Configured (aw n a : Nat) (i : Input) : Prop where
  resetn : i.sAxisAresetn = true
  nsamples : i.nsamplesI.toNat = 8 * n
  naverages : i.naveragesI.toNat = a
  pos : 0 < n
  fits : n ≤ 2 ^ aw
  once : 0 < a

section Step

variable {n a : Nat} {i : Input} {s : Regs aw} {log : List (List (BitVec 128))}

theorem Configured.lastWord_iff (hc : Configured aw n a i) :
    lastWord i s ↔ s.tdpAddra.toNat = n - 1 := by
  have hbeats : (i.nsamplesI / 8).toNat = n := toNat_beats hc.nsamples
  have hpos := hc.pos
  rw [lastWord, toNat_sub_one_of_pos (by omega), hbeats]

theorem Configured.lastSweep_iff (hc : Configured aw n a i) :
    s.avg = i.naveragesI - 1 ↔ s.avg.toNat = a - 1 :=
  eq_sub_one_iff hc.naverages hc.once

theorem phase_idle (hc : Configured aw n a i) (hstate : s.state = .idle)
    (h : Phase n a log s) : Phase n a [] (step i s) := by
  rw [Phase, hstate] at h
  have hpos := hc.once
  by_cases hstart : (i.enI && i.startI) = true
  · simp only [Phase, step, wires, hstate, hc.resetn, cond_true, if_pos hstart]
    exact ⟨trivial, trivial, hpos, ⟨rfl, nofun⟩, sums_nil h⟩
  · simp only [Phase, step, wires, hstate, hc.resetn, cond_true, if_neg hstart]
    exact h

theorem phase_waitTrig (hc : Configured aw n a i) (hstate : s.state = .waitTrig)
    (h : Phase n a log s) :
    Phase n a (if i.trigI then log ++ [[]] else log) (step i s) := by
  rw [Phase, hstate] at h
  obtain ⟨haddra, haddrb, havg, hcomplete, hsums⟩ := h
  cases htrig : i.trigI with
  | true =>
    simp only [Phase, step, wires, hstate, hc.resetn, htrig, cond_true, if_true]
    exact ⟨haddra, haddrb, havg, log, rfl, hcomplete, hsums.opened⟩
  | false =>
    simp only [Phase, step, wires, hstate, hc.resetn, htrig, cond_true, Bool.false_eq_true,
      if_false]
    exact ⟨haddra, haddrb, havg, hcomplete, hsums⟩

/-- The first word is fetched while the first beat waits. -/
theorem phase_enTdpb (hc : Configured aw n a i) (hstate : s.state = .enTdpb)
    (h : Phase n a log s) : Phase n a log (step i s) := by
  rw [Phase, hstate] at h
  obtain ⟨haddra, haddrb, havg, closed, hlog, hcomplete, hsums⟩ := h
  cases hvalid : i.sAxisTvalid with
  | true =>
    simp only [Phase, step, wires, hstate, hc.resetn, hvalid, cond_true, if_true]
    refine ⟨?_, ?_, ?_, havg, closed, [], hlog, ?_, hcomplete, hsums⟩
    · rw [haddra]
      exact hc.pos
    · rw [haddra, haddrb]
    · rw [haddra, haddrb]
      rfl
    · rw [haddra]
      rfl
  | false =>
    simp only [Phase, step, wires, hstate, hc.resetn, hvalid, cond_true, Bool.false_eq_true,
      if_false]
    exact ⟨haddra, haddrb, havg, closed, hlog, hcomplete, hsums⟩

/-- A beat that is not the last of its sweep: the next word is fetched from behind the write. -/
theorem phase_beat (hc : Configured aw n a i) (hstate : s.state = .avgScope)
    (hvalid : i.sAxisTvalid = true) (hlast : ¬ lastWord i s)
    {closed : List (List (BitVec 128))} {current : List (BitVec 128)}
    (h : Phase n a (closed ++ [current]) s) :
    Phase n a (closed ++ [current ++ [i.sAxisTdata]]) (step i s) := by
  rw [Phase, hstate] at h
  obtain ⟨haddra, haddrb, hbReg, havg, closed', current', hlog, hlength, hcomplete, hsums⟩ := h
  obtain ⟨rfl, hcurrent⟩ := List.append_inj' hlog rfl
  cases hcurrent
  rw [hc.lastWord_iff] at hlast
  have hfits := hc.fits
  have hnext : (s.tdpAddra + 1).toNat = s.tdpAddra.toNat + 1 := toNat_add_one_of_lt (by omega)
  simp only [Phase, step, wires, hstate, hc.resetn, hvalid, cond_true, if_true, hc.lastWord_iff,
    if_neg hlast]
  refine ⟨by omega, by rw [haddrb], ?_, havg, closed, current ++ [i.sAxisTdata], rfl, ?_,
    hcomplete, ?_⟩
  · rw [haddrb, readB, cond_false, cond_true, writeA_apply, if_neg]
    rintro ⟨-, heq⟩
    rw [heq] at hnext
    omega
  · rw [List.length_append, List.length_singleton, hlength, hnext]
  · rw [hbReg]
    exact hsums.beat hlength.symm i.sAxisTdata

/-- The last beat of a sweep. -/
theorem phase_lastBeat (hc : Configured aw n a i) (hstate : s.state = .avgScope)
    (hvalid : i.sAxisTvalid = true) (hlast : lastWord i s)
    {closed : List (List (BitVec 128))} {current : List (BitVec 128)}
    (h : Phase n a (closed ++ [current]) s) :
    Phase n a (closed ++ [current ++ [i.sAxisTdata]]) (step i s) := by
  rw [Phase, hstate] at h
  obtain ⟨haddra, haddrb, hbReg, havg, closed', current', hlog, hlength, hcomplete, hsums⟩ := h
  obtain ⟨rfl, hcurrent⟩ := List.append_inj' hlog rfl
  cases hcurrent
  rw [hc.lastWord_iff] at hlast
  have ha := i.naveragesI.isLt
  rw [hc.naverages] at ha
  have hcount : (s.avg + 1).toNat = s.avg.toNat + 1 := toNat_add_one_of_lt (by omega)
  have hcomplete' : Complete n (s.avg + 1) (closed ++ [current ++ [i.sAxisTdata]]) :=
    hcomplete.concat hcount (by rw [List.length_append, List.length_singleton]; omega)
  have hsums' := hsums.beat hlength.symm i.sAxisTdata
  rw [← hbReg] at hsums'
  by_cases hend : s.avg = i.naveragesI - 1
  · have hend' := hc.lastSweep_iff.mp hend
    simp only [Phase, step, wires, hstate, hc.resetn, hvalid, cond_true, if_true, hc.lastWord_iff,
      if_pos hlast, if_pos hend]
    exact ⟨trivial, by rw [hcomplete'.1]; omega, hcomplete'.2, hsums'⟩
  · have hend' := mt hc.lastSweep_iff.mpr hend
    simp only [Phase, step, wires, hstate, hc.resetn, hvalid, cond_true, if_true, hc.lastWord_iff,
      if_pos hlast, if_neg hend]
    exact ⟨trivial, trivial, by omega, hcomplete', hsums'⟩

theorem phase_stalled (hc : Configured aw n a i) (hstate : s.state = .avgScope)
    (hvalid : i.sAxisTvalid = false) (h : Phase n a log s) : Phase n a log (step i s) := by
  rw [Phase, hstate] at h
  simp only [Phase, step, wires, hstate, hc.resetn, hvalid, cond_true, Bool.false_eq_true,
    if_false]
  exact h

theorem phase_finish (hc : Configured aw n a i) (hstate : s.state = .finish)
    (h : Phase n a log s) : Phase n a log (step i s) := by
  rw [Phase, hstate] at h
  cases hrestart : i.restartOs with
  | true =>
    simp only [Phase, step, wires, hstate, hc.resetn, hrestart, cond_true, if_true]
    rw [h.1]
    exact ⟨hc.pos, fun k hk => absurd hk (Nat.not_lt_zero _)⟩
  | false =>
    simp only [Phase, step, wires, hstate, hc.resetn, hrestart, cond_true, Bool.false_eq_true,
      if_false]
    exact h

/-- The words below the address are zero again. -/
theorem phase_wrZeros (hc : Configured aw n a i) (hstate : s.state = .wrZeros)
    (habove : ∀ k, n ≤ k.toNat → s.ram k = 0) (h : Phase n a log s) :
    Phase n a log (step i s) := by
  rw [Phase, hstate] at h
  obtain ⟨haddra, hzero⟩ := h
  have hwritten : ∀ k, k.toNat < s.tdpAddra.toNat + 1 → writeA true s.tdpAddra 0 s.ram k = 0 := by
    intro k hk
    rw [writeA_apply]
    split
    next => rfl
    next hne =>
      refine hzero k (Nat.lt_of_le_of_ne (Nat.le_of_lt_succ hk) fun heq => hne ⟨rfl, ?_⟩)
      exact BitVec.eq_of_toNat_eq heq
  by_cases hlast : lastWord i s
  · have hlast' := hc.lastWord_iff.mp hlast
    simp only [Phase, step, wires, hstate, hc.resetn, cond_true, if_pos hlast]
    intro k
    by_cases hk : k.toNat < s.tdpAddra.toNat + 1
    · exact hwritten k hk
    · rw [writeA_apply, habove k (by omega)]
      split <;> rfl
  · have hlast' := mt hc.lastWord_iff.mpr hlast
    have hfits := hc.fits
    have hnext : (s.tdpAddra + 1).toNat = s.tdpAddra.toNat + 1 := toNat_add_one_of_lt (by omega)
    simp only [Phase, step, wires, hstate, hc.resetn, cond_true, if_neg hlast]
    rw [hnext]
    exact ⟨by omega, hwritten⟩

/-- Words in use are all that is written. -/
theorem wea_below (h : Phase n a log s) (hwea : (wires i s).tdpWea = true) :
    s.tdpAddra.toNat < n := by
  rw [Phase] at h
  cases hstate : s.state with
  | idle => simp [wires, hstate] at hwea
  | waitTrig => simp [wires, hstate] at hwea
  | enTdpb =>
    simp only [wires, hstate] at hwea
    split at hwea <;> cases hwea
  | avgScope =>
    rw [hstate] at h
    exact h.1
  | finish => simp [wires, hstate] at hwea
  | wrZeros =>
    rw [hstate] at h
    exact h.1

end Step

/-! ## The sweeps -/

section Marks

variable {i : Input} {s : Regs aw} {log : List (List (BitVec 128))}

theorem record_idle (h : s.state = .idle) : (marks i s).record log = [] :=
  record_clear (by simp [marks, h]) log

theorem record_waitTrig (h : s.state = .waitTrig) :
    (marks i s).record log = if i.trigI then log ++ [[]] else log := by
  cases htrig : i.trigI with
  | true => exact record_opens (by simp [marks, h]) (by simp [marks, h, htrig]) log
  | false =>
    exact record_quiet (by simp [marks, h]) (by simp [marks, htrig]) (by simp [marks, wires, h]) log

theorem record_avgScope (h : s.state = .avgScope) (hvalid : i.sAxisTvalid = true)
    (closed : List (List (BitVec 128))) (current : List (BitVec 128)) :
    (marks i s).record (closed ++ [current]) = closed ++ [current ++ [i.sAxisTdata]] := by
  refine record_beat (by simp [marks, h]) (by simp [marks, h]) ?_ closed current
  have htready : (wires i s).tready = true := by
    simp only [wires, h, hvalid, if_true]
    split <;> rfl
  simp [marks, htready, hvalid]

/-- Without a beat nothing is recorded. -/
theorem record_other (hidle : s.state ≠ .idle) (htrig : s.state ≠ .waitTrig)
    (h : s.state = .avgScope → i.sAxisTvalid = false) : (marks i s).record log = log := by
  refine record_quiet (by simp [marks, hidle]) (by simp [marks, htrig]) ?_ log
  cases hstate : s.state with
  | idle => exact absurd hstate hidle
  | waitTrig => exact absurd hstate htrig
  | avgScope => simp [marks, h hstate]
  | enTdpb =>
    have htready : (wires i s).tready = false := by
      simp only [wires, hstate]
      split <;> rfl
    simp [marks, htready]
  | finish => simp [marks, wires, hstate]
  | wrZeros => simp [marks, wires, hstate]

end Marks

theorem inv_step {n a : Nat} {i : Input} {s : Regs aw} {log : List (List (BitVec 128))}
    (hc : Configured aw n a i) (h : Inv n a log s) :
    Inv n a ((marks i s).record log) (step i s) := by
  refine ⟨?_, ?_, h.mirrors.write _ _ _⟩
  · have hphase := h.phase
    cases hstate : s.state with
    | idle =>
      rw [record_idle hstate]
      exact phase_idle hc hstate hphase
    | waitTrig =>
      rw [record_waitTrig hstate]
      exact phase_waitTrig hc hstate hphase
    | enTdpb =>
      rw [record_other (by simp [hstate]) (by simp [hstate]) (by simp [hstate])]
      exact phase_enTdpb hc hstate hphase
    | avgScope =>
      cases hvalid : i.sAxisTvalid with
      | true =>
        obtain ⟨closed, current, rfl⟩ : ∃ closed current, log = closed ++ [current] := by
          rw [Phase, hstate] at hphase
          obtain ⟨-, -, -, -, closed, current, hlog, -⟩ := hphase
          exact ⟨closed, current, hlog⟩
        rw [record_avgScope hstate hvalid]
        by_cases hlast : lastWord i s
        · exact phase_lastBeat hc hstate hvalid hlast hphase
        · exact phase_beat hc hstate hvalid hlast hphase
      | false =>
        rw [record_other (by simp [hstate]) (by simp [hstate]) (fun _ => hvalid)]
        exact phase_stalled hc hstate hvalid hphase
    | finish =>
      rw [record_other (by simp [hstate]) (by simp [hstate]) (by simp [hstate])]
      exact phase_finish hc hstate hphase
    | wrZeros =>
      rw [record_other (by simp [hstate]) (by simp [hstate]) (by simp [hstate])]
      exact phase_wrZeros hc hstate h.above hphase
  · intro k hk
    rw [step_ram, writeA_apply, if_neg, h.above k hk]
    rintro ⟨hwea, rfl⟩
    exact absurd (wea_below h.phase hwea) (by omega)

theorem inv_run {n a : Nat} {x : Nat → Input} (hc : ∀ t, Configured aw n a (x t)) (t : Nat) :
    Inv n a (sweepLog aw x t) (run aw x t) := by
  induction t with
  | zero =>
    refine ⟨fun _ => rfl, fun _ _ => rfl, fun k i _ => ?_⟩
    exact (lane_zero 16 i).symm
  | succ t ih => exact inv_step (hc t) ih

/-- At the end of a run word `j` of the output memory is the sum, over the sweeps of this run, of
sample `j` of the sweep. -/
theorem scope_sums {nsamples naverages : BitVec 16} (hmultiple : nsamples.toNat % 8 = 0)
    (hmin : 8 ≤ nsamples.toNat) (hmax : nsamples.toNat ≤ 2 ^ (aw + 3))
    (honce : 1 ≤ naverages.toNat) {x : Nat → Input}
    (hx : ∀ t, (x t).sAxisAresetn = true ∧ (x t).nsamplesI = nsamples ∧
      (x t).naveragesI = naverages) {t : Nat} (hfinish : (run aw x t).state = .finish) :
    (sweepLog aw x t).length = naverages.toNat ∧
      (∀ sweep ∈ sweepLog aw x t, sweep.length = nsamples.toNat / 8) ∧
      ∀ j, j < nsamples.toNat →
        (run aw x t).myRam (BitVec.ofNat (aw + 3) j) =
          BitVec.ofInt 16 (columnSum (sample (j % 8)) (j / 8) (sweepLog aw x t)) := by
  rw [Nat.pow_add] at hmax
  have hc : ∀ t, Configured aw (nsamples.toNat / 8) naverages.toNat (x t) := by
    intro t
    obtain ⟨hresetn, hnsamples, hnaverages⟩ := hx t
    exact ⟨hresetn, by rw [hnsamples]; omega, by rw [hnaverages], by omega, by omega, honce⟩
  have hinv := inv_run hc t
  have hphase := hinv.phase
  rw [Phase, hfinish] at hphase
  obtain ⟨-, hlength, hlengths, hsums⟩ := hphase
  refine ⟨hlength, hlengths, ?_⟩
  intro j hj
  have hj8 : j / 8 < 2 ^ aw := by omega
  have hword : (BitVec.ofNat aw (j / 8)).toNat = j / 8 := by
    rw [BitVec.toNat_ofNat, Nat.mod_eq_of_lt hj8]
  have hlane := hsums (BitVec.ofNat aw (j / 8)) (j % 8) (Nat.mod_lt j (by decide))
  rw [hword] at hlane
  rw [ofNat_eq_append (l := 3) (by rw [Nat.pow_add]; omega),
    hinv.mirrors _ _ (Nat.mod_lt j (by decide))]
  exact hlane

theorem scope_sums_busy :
    (run 7 (fun _ => busy 0x8000) 7).state = .finish ∧
      (run 7 (fun _ => busy 0x8000) 7).myRam 0 =
        BitVec.ofInt 16 (columnSum (sample 0) 0 (sweepLog 7 (fun _ => busy 0x8000) 7)) :=
  ⟨by decide, (@scope_sums 7 8 2 (by decide) (by decide) (by decide) (by decide)
    (fun _ => busy 0x8000) (fun _ => ⟨rfl, rfl, rfl⟩) 7 (by decide)).2.2 0 (by decide)⟩

end RpEcosystem.Averager.Scope
