import RpEcosystem.Clocked.Machine
import RpEcosystem.Clocked.Modulo
import RpEcosystem.Averager.Core

/-!
# The first averager: `averager`

The address of a word goes to the read port first and to the write port one cycle later, and the sum
is registered in between. The output of the read port is registered too, so in scope mode the sum
for word `k + 1` is made with what the memory held in word `k`.

The state machine does not look at the data: `Ctrl` are its registers, `Path` the registers and the
memory that hold data.

* `Control`, `Ctrl`, `ctrlNext`, `Path`, `pathNext`: the circuit;
* `avgCycles`, `sweepLog`: the cycles of `ST_AVG_SCOPE` and the accepted beats, sweep by sweep;
* `Phase`, `phase_step`, `ram_skewed`: what scope mode adds up, for all data.
-/

namespace RpEcosystem.Averager.FirstGeneration

open Clocked

inductive State
  | idle
  | writeZeros
  | waitTrig
  | avgScope
  | avgN1
  | writeAvg
  | finish
  deriving DecidableEq, Repr

/-- The inputs that are not data. -/
structure Control where
  aresetn : Bool
  start : Bool
  restart : Bool
  mode : Bool
  trigI : Bool
  nsamples : BitVec 32
  naverages : BitVec 32
  sAxisTvalid : Bool

structure Ctrl (aw : Nat) where
  state : State
  addr : BitVec aw
  addrDly : BitVec aw
  tready : Bool
  averages : BitVec 32
  done : Bool
  wren : Bool
  wrenb : Bool

/-- The data registers, the memory and the register of its read port, with `r` lanes of `w` bits. -/
structure Path (aw w r : Nat) where
  data : BitVec (w * r)
  dinb : BitVec w
  ram : Ram aw (w * r)
  doutB : BitVec (w * r)

variable {aw w r : Nat}

/-- `unsigned(addr_reg) = unsigned(nsamples)/RATIO` -/
def atEnd (r : Nat) (c : Control) (s : Ctrl aw) : Prop := s.addr.toNat = c.nsamples.toNat / r

instance (c : Control) (s : Ctrl aw) : Decidable (atEnd r c s) :=
  inferInstanceAs (Decidable (_ = _))

def ctrlReset (aw : Nat) : Ctrl aw where
  state := .idle
  addr := 0
  addrDly := 0
  tready := false
  averages := 0
  done := false
  wren := false
  wrenb := false

/-- The next-state process without the data. -/
def ctrlNext (r : Nat) (c : Control) (s : Ctrl aw) : Ctrl aw :=
  let k : Ctrl aw := { s with addrDly := s.addr }
  match s.state with
  | .idle =>
    { k with
      addr := 0
      averages := 0
      wren := false
      wrenb := false
      tready := false
      done := false
      state := if c.start then .writeZeros else .idle }
  | .writeZeros =>
    let k := { k with wren := true, wrenb := true, addr := s.addr + 1 }
    if atEnd r c s then { k with wren := false, wrenb := false, addr := 0, state := .waitTrig }
    else k
  | .waitTrig =>
    if c.trigI && c.sAxisTvalid then
      { k with
        tready := true
        state := if c.mode then .avgN1 else .avgScope }
    else k
  | .avgScope =>
    let k := { k with wren := true, addr := s.addr + 1 }
    if atEnd r c s then
      { k with
        averages := s.averages + 1
        addr := 0
        tready := false
        wren := false
        state := if s.averages = c.naverages - 1 then .finish else .waitTrig }
    else k
  | .avgN1 =>
    let k := { k with wren := true, addr := s.addr + 1 }
    if atEnd r c s then
      { k with
        averages := s.averages + 1
        addr := 0
        tready := false
        wren := false
        wrenb := true
        state := if s.averages = c.naverages - 1 then .finish else .writeAvg }
    else k
  | .writeAvg => { k with wrenb := false, state := .waitTrig }
  | .finish =>
    { k with
      wrenb := false
      done := true
      state := if c.restart then .idle else .finish }

/-- The loops `ASSIGN_G` and `ASSIGN_N`. -/
def addWords (a b : BitVec (w * r)) : BitVec (w * r) :=
  ofLanes w (fun i => lane w i a + lane w i b) r

/-- The loop `ASSIGN_AVG`, from the most significant lane on. -/
def foldWord (data : BitVec (w * r)) : BitVec w :=
  (List.range r).foldl (fun dinbv k => dinbv + lane w (r - 1 - k) data) 0

/-- The data side of a clock edge. The read port sees the word before the write (`ports_apart`). -/
def pathNext (c : Control) (s : Ctrl aw) (tdata : BitVec (w * r)) (p : Path aw w r) :
    Path aw w r where
  data :=
    bif c.aresetn then
      match s.state with
      | .idle => 0
      | .avgScope => addWords p.doutB tdata
      | .avgN1 => addWords p.data tdata
      | .writeAvg => 0
      | _ => p.data
    else 0
  dinb :=
    bif c.aresetn then
      match s.state with
      | .idle => 0
      | .avgN1 => if atEnd r c s then foldWord p.data else p.dinb
      | _ => p.dinb
    else 0
  ram := writeA s.wren s.addrDly p.data p.ram
  doutB := p.ram s.addr

def machine (aw r : Nat) : Machine Control (Ctrl aw) where
  reset := ctrlReset aw
  next c s := bif c.aresetn then ctrlNext r c s else ctrlReset aw

/-- The registers of the state machine in cycle `t`. -/
def run (aw r : Nat) (c : Nat → Control) (t : Nat) : Ctrl aw := (machine aw r).run c t

/-- The data registers and the memory in cycle `t`, from any contents `p`. -/
def path (c : Nat → Control) (d : Nat → BitVec (w * r)) (p : Path aw w r) : Nat → Path aw w r
  | 0 => p
  | t + 1 => pathNext (c t) (run aw r c t) (d t) (path c d p t)

theorem run_succ (c : Nat → Control) (t : Nat) : run aw r c (t + 1) =
    bif (c t).aresetn then ctrlNext r (c t) (run aw r c t) else ctrlReset aw := rfl

/-! ## Sweeps -/

/-- A start forgets the sweeps and an accepted trigger opens one. -/
def marks {β : Type} (c : Control) (s : Ctrl aw) (beat : Option β) : Marks β where
  clear := s.state = .idle
  opens := s.state = .waitTrig && c.trigI && c.sAxisTvalid
  beat := beat

/-- The beats accepted in each sweep of the run under way. -/
def sweepLog (aw : Nat) (c : Nat → Control) (d : Nat → BitVec (w * r)) (t : Nat) :
    List (List (BitVec (w * r))) :=
  sweeps (fun u => marks (c u) (run aw r c u)
    (if (run aw r c u).tready && (c u).sAxisTvalid then some (d u) else none)) t

/-- The cycles of `ST_AVG_SCOPE` in each sweep of the run under way. -/
def avgCycles (aw r : Nat) (c : Nat → Control) (t : Nat) : List (List Nat) :=
  sweeps (fun u => marks (c u) (run aw r c u)
    (if (run aw r c u).state = .avgScope then some u else none)) t

/-! ## Scope mode -/

/-- The signed value in lane `i` of the word on `s_axis_tdata` in cycle `u`. -/
def value (d : Nat → BitVec (w * r)) (i u : Nat) : Int := (lane w i (d u)).toInt

/-- A word holds, lane by lane, the skewed sum in column `k`. -/
def Skewed (d : Nat → BitVec (w * r)) (word : BitVec (w * r)) (log : List (List Nat)) (k : Nat) :
    Prop :=
  ∀ i, i < r → lane w i word = BitVec.ofInt w (skewSum (value d i) log k)

/-- The write port is one word behind the read port and idle in front of the first word. -/
def Lagging (s : Ctrl aw) : Prop :=
  s.wren = decide (0 < s.addr.toNat) ∧ (0 < s.addr.toNat → s.addrDly.toNat + 1 = s.addr.toNat)

/-- What holds in each state of a run of `a` sweeps of `n` words. With more words than addresses the
zeroing does not end. -/
def Phase (d : Nat → BitVec (w * r)) (n a : Nat) (log : List (List Nat)) (s : Ctrl aw)
    (p : Path aw w r) : Prop :=
  match s.state with
  | .idle => s.tready = false
  | .writeZeros =>
    s.tready = false ∧ p.data = 0 ∧ s.averages = 0 ∧ log = [] ∧
      (n < 2 ^ aw → Lagging s ∧ s.addr.toNat ≤ n ∧ ∀ k, k.toNat + 1 < s.addr.toNat → p.ram k = 0)
  | .waitTrig =>
    s.tready = false ∧ s.addr = 0 ∧ s.wren = false ∧ n < 2 ^ aw ∧ s.averages.toNat < a ∧
      Complete (n + 1) s.averages log ∧ ∀ k, k.toNat < n → Skewed d (p.ram k) log k.toNat
  | .avgScope =>
    s.tready = true ∧ Lagging s ∧ s.addr.toNat ≤ n ∧ n < 2 ^ aw ∧ s.averages.toNat < a ∧
      ∃ closed current, log = closed ++ [current] ∧ current.length = s.addr.toNat ∧
        Complete (n + 1) s.averages closed ∧ Skewed d p.doutB closed (s.addr.toNat - 1) ∧
        (0 < s.addr.toNat → Skewed d p.data log (s.addr.toNat - 1)) ∧
        (∀ k, k.toNat + 1 < s.addr.toNat → Skewed d (p.ram k) log k.toNat) ∧
        (∀ k, s.addr.toNat ≤ k.toNat → k.toNat < n → Skewed d (p.ram k) closed k.toNat)
  | .avgN1 => False
  | .writeAvg => False
  | .finish =>
    s.tready = false ∧ s.wren = false ∧ n < 2 ^ aw ∧ log.length = a ∧
      (∀ sweep ∈ log, sweep.length = n + 1) ∧ ∀ k, k.toNat < n → Skewed d (p.ram k) log k.toNat

/-- The configuration: scope mode, `a` sweeps of `n` words. -/
structure Configured (r n a : Nat) (c : Control) : Prop where
  mode : c.mode = false
  nsamples : c.nsamples.toNat / r = n
  naverages : c.naverages.toNat = a
  pos : 0 < n
  once : 0 < a

theorem skewed_zero (d : Nat → BitVec (w * r)) (k : Nat) : Skewed d 0 [] k := by
  intro i _
  rw [lane_zero, skewSum_nil]
  rfl

/-- The word that is made in cycle `u`, for the column of its index in the sweep. -/
theorem Skewed.add {d : Nat → BitVec (w * r)} {word : BitVec (w * r)} {closed : List (List Nat)}
    {current : List Nat} (h : Skewed d word closed (current.length - 1)) (u : Nat) :
    Skewed d (addWords word (d u)) (closed ++ [current ++ [u]]) current.length := by
  intro i hi
  rw [addWords, lane_ofLanes _ hi, h i hi, ofInt_add_toInt, skewSum_concat, entry_concat, value]

/-- Later words of a sweep do not matter for the columns that are made. -/
theorem Skewed.later {d : Nat → BitVec (w * r)} {word : BitVec (w * r)} {closed : List (List Nat)}
    {current : List Nat} {k : Nat} (h : Skewed d word (closed ++ [current]) k)
    (hk : k < current.length) (u : Nat) : Skewed d word (closed ++ [current ++ [u]]) k := by
  intro i hi
  rw [h i hi, skewSum_concat, skewSum_concat, entry_append_left _ hk]

section Step

variable {d : Nat → BitVec (w * r)} {n a : Nat} {c : Control} {s : Ctrl aw} {p : Path aw w r}
  {log : List (List Nat)}

theorem Configured.atEnd_iff (hc : Configured r n a c) : atEnd r c s ↔ s.addr.toNat = n := by
  rw [atEnd, hc.nsamples]

theorem Configured.lastSweep_iff (hc : Configured r n a c) :
    s.averages = c.naverages - 1 ↔ s.averages.toNat = a - 1 :=
  eq_sub_one_iff hc.naverages hc.once

theorem phase_idle (hresetn : c.aresetn = true) (hstate : s.state = .idle)
    (tdata : BitVec (w * r)) : Phase d n a [] (ctrlNext r c s) (pathNext c s tdata p) := by
  cases hstart : c.start with
  | true =>
    simp only [Phase, ctrlNext, pathNext, hstate, hresetn, hstart, cond_true, if_true]
    exact ⟨trivial, trivial, trivial, trivial, fun _ => ⟨⟨rfl, fun h => absurd h (Nat.lt_irrefl 0)⟩,
      Nat.zero_le n, fun k hk => absurd hk (Nat.not_lt_zero _)⟩⟩
  | false =>
    simp only [Phase, ctrlNext, hstate, hstart, Bool.false_eq_true, if_false]

/-- After a write of 0 behind the address, one word more is 0. -/
theorem zero_written (hlag : Lagging s)
    (hzero : ∀ k, k.toNat + 1 < s.addr.toNat → p.ram k = 0) {k : BitVec aw}
    (hk : k.toNat < s.addr.toNat) : writeA s.wren s.addrDly 0 p.ram k = 0 := by
  rw [writeA_apply]
  split
  next => rfl
  next hne =>
    refine hzero k (Nat.lt_of_le_of_ne hk fun heq => hne ⟨?_, BitVec.eq_of_toNat_eq ?_⟩)
    · rw [hlag.1, decide_eq_true]
      omega
    · have hdly := hlag.2 (by omega)
      omega

theorem phase_writeZeros (hc : Configured r n a c) (hresetn : c.aresetn = true)
    (hstate : s.state = .writeZeros) (h : Phase d n a log s p) (tdata : BitVec (w * r)) :
    Phase d n a log (ctrlNext r c s) (pathNext c s tdata p) := by
  rw [Phase, hstate] at h
  obtain ⟨htready, hdata, haverages, rfl, hwords⟩ := h
  have hlt := s.addr.isLt
  by_cases hend : atEnd r c s
  · have hend' := hc.atEnd_iff.mp hend
    obtain ⟨hlag, -, hzero⟩ := hwords (by omega)
    simp only [Phase, ctrlNext, pathNext, hstate, hresetn, cond_true, if_pos hend]
    refine ⟨htready, trivial, trivial, by omega, ?_, ⟨?_, nofun⟩, ?_⟩
    · rw [haverages]
      exact hc.once
    · rw [haverages]
      rfl
    · intro k hk
      rw [hdata, zero_written hlag hzero (by omega)]
      exact skewed_zero d _
  · have hend' := mt hc.atEnd_iff.mpr hend
    simp only [Phase, ctrlNext, pathNext, hstate, hresetn, cond_true, if_neg hend]
    refine ⟨htready, hdata, haverages, trivial, fun hfits => ?_⟩
    obtain ⟨hlag, haddr, hzero⟩ := hwords hfits
    have hnext : (s.addr + 1).toNat = s.addr.toNat + 1 := toNat_add_one_of_lt (by omega)
    refine ⟨⟨?_, fun _ => hnext.symm⟩, by omega, fun k hk => ?_⟩
    · rw [hnext, decide_eq_true (Nat.succ_pos _)]
    · rw [hdata, zero_written hlag hzero (by omega)]

/-- The first word is read while the trigger is awaited. -/
theorem phase_waitTrig (hc : Configured r n a c) (hstate : s.state = .waitTrig)
    (h : Phase d n a log s p) (tdata : BitVec (w * r)) :
    Phase d n a (if c.trigI && c.sAxisTvalid then log ++ [[]] else log) (ctrlNext r c s)
      (pathNext c s tdata p) := by
  rw [Phase, hstate] at h
  obtain ⟨htready, haddr, hwren, hfits, havg, hcomplete, hwords⟩ := h
  have hram : writeA s.wren s.addrDly p.data p.ram = p.ram := by rw [hwren]; rfl
  by_cases htrig : (c.trigI && c.sAxisTvalid) = true
  · simp only [Phase, ctrlNext, pathNext, hstate, hc.mode, if_pos htrig, Bool.false_eq_true,
      if_false, hram, haddr]
    refine ⟨trivial, ⟨hwren, fun h => absurd h (Nat.lt_irrefl 0)⟩, Nat.zero_le n, hfits, havg, log,
      [], rfl, rfl, hcomplete, hwords 0 hc.pos, fun h => absurd h (Nat.lt_irrefl 0),
      fun k hk => absurd hk (Nat.not_lt_zero _), fun k _ hk => hwords k hk⟩
  · simp only [Phase, ctrlNext, pathNext, hstate, if_neg htrig, hram]
    exact ⟨htready, haddr, hwren, hfits, havg, hcomplete, hwords⟩

/-- After the pending write the columns below the address are made. -/
theorem made_written (hlag : Lagging s)
    (hdata : 0 < s.addr.toNat → Skewed d p.data log (s.addr.toNat - 1))
    (hmade : ∀ k, k.toNat + 1 < s.addr.toNat → Skewed d (p.ram k) log k.toNat) {k : BitVec aw}
    (hk : k.toNat < s.addr.toNat) :
    Skewed d (writeA s.wren s.addrDly p.data p.ram k) log k.toNat := by
  have hdly := hlag.2 (by omega)
  rw [writeA_apply]
  split
  next heq =>
    have hcolumn : k.toNat = s.addr.toNat - 1 := by
      rw [heq.2]
      omega
    rw [hcolumn]
    exact hdata (by omega)
  next hne =>
    refine hmade k (Nat.lt_of_le_of_ne hk fun heq => hne ⟨?_, BitVec.eq_of_toNat_eq (by omega)⟩)
    rw [hlag.1, decide_eq_true (by omega)]

/-- A word of the sweep. -/
theorem phase_word (hc : Configured r n a c) (hresetn : c.aresetn = true)
    (hstate : s.state = .avgScope) (hend : ¬ atEnd r c s) {closed : List (List Nat)}
    {current : List Nat} (h : Phase d n a (closed ++ [current]) s p) (u : Nat) :
    Phase d n a (closed ++ [current ++ [u]]) (ctrlNext r c s) (pathNext c s (d u) p) := by
  rw [Phase, hstate] at h
  obtain ⟨htready, hlag, haddr, hfits, havg, closed', current', hlog, hlength, hcomplete, hdout,
    hdata, hmade, hahead⟩ := h
  obtain ⟨rfl, hcurrent⟩ := List.append_inj' hlog rfl
  cases hcurrent
  have hend' := mt hc.atEnd_iff.mpr hend
  have hnext : (s.addr + 1).toNat = s.addr.toNat + 1 := toNat_add_one_of_lt (by omega)
  simp only [Phase, ctrlNext, pathNext, hstate, hresetn, cond_true, if_neg hend]
  refine ⟨htready, ⟨?_, fun _ => hnext.symm⟩, by omega, hfits, havg, closed, current ++ [u], rfl,
    ?_, hcomplete, ?_, ?_, ?_, ?_⟩
  · rw [hnext, decide_eq_true (Nat.succ_pos _)]
  · rw [List.length_append, List.length_singleton, hlength, hnext]
  · rw [hnext, Nat.add_sub_cancel]
    exact hahead s.addr le_rfl (by omega)
  · intro _
    rw [hnext, Nat.add_sub_cancel, ← hlength]
    rw [← hlength] at hdout
    exact hdout.add u
  · intro k hk
    rw [hnext] at hk
    exact (made_written hlag hdata hmade (by omega)).later (by omega) u
  · intro k hk hkn
    rw [hnext] at hk
    rw [writeA_apply, if_neg]
    · exact hahead k (by omega) hkn
    · rintro ⟨hwren, rfl⟩
      rw [hlag.1, decide_eq_true_iff] at hwren
      have hdly := hlag.2 hwren
      omega

/-- The cycle after the last word of the sweep. -/
theorem phase_lastWord (hc : Configured r n a c) (hstate : s.state = .avgScope)
    (hend : atEnd r c s) {closed : List (List Nat)} {current : List Nat}
    (h : Phase d n a (closed ++ [current]) s p) (tdata : BitVec (w * r)) (u : Nat) :
    Phase d n a (closed ++ [current ++ [u]]) (ctrlNext r c s) (pathNext c s tdata p) := by
  rw [Phase, hstate] at h
  obtain ⟨htready, hlag, haddr, hfits, havg, closed', current', hlog, hlength, hcomplete, hdout,
    hdata, hmade, hahead⟩ := h
  obtain ⟨rfl, hcurrent⟩ := List.append_inj' hlog rfl
  cases hcurrent
  have hend' := hc.atEnd_iff.mp hend
  have ha := c.naverages.isLt
  rw [hc.naverages] at ha
  have hcount : (s.averages + 1).toNat = s.averages.toNat + 1 := toNat_add_one_of_lt (by omega)
  have hcomplete' : Complete (n + 1) (s.averages + 1) (closed ++ [current ++ [u]]) :=
    hcomplete.concat hcount (by rw [List.length_append, List.length_singleton, hlength, hend'])
  have hwords : ∀ k : BitVec aw, k.toNat < n →
      Skewed d (writeA s.wren s.addrDly p.data p.ram k) (closed ++ [current ++ [u]]) k.toNat :=
    fun k hk => (made_written hlag hdata hmade (by omega)).later (by omega) u
  by_cases hsweep : s.averages = c.naverages - 1
  · have hsweep' := hc.lastSweep_iff.mp hsweep
    simp only [Phase, ctrlNext, pathNext, hstate, if_pos hend, if_pos hsweep]
    exact ⟨trivial, trivial, hfits, by rw [hcomplete'.1]; omega, hcomplete'.2, hwords⟩
  · have hsweep' := mt hc.lastSweep_iff.mpr hsweep
    simp only [Phase, ctrlNext, pathNext, hstate, if_pos hend, if_neg hsweep]
    exact ⟨trivial, trivial, trivial, hfits, by omega, hcomplete', hwords⟩

theorem phase_finish (hstate : s.state = .finish) (h : Phase d n a log s p)
    (tdata : BitVec (w * r)) : Phase d n a log (ctrlNext r c s) (pathNext c s tdata p) := by
  rw [Phase, hstate] at h
  obtain ⟨htready, hwren, hfits, hlength, hlengths, hwords⟩ := h
  have hram : writeA s.wren s.addrDly p.data p.ram = p.ram := by rw [hwren]; rfl
  cases hrestart : c.restart with
  | true =>
    simp only [Phase, ctrlNext, hstate, hrestart, if_true]
    exact htready
  | false =>
    simp only [Phase, ctrlNext, pathNext, hstate, hrestart, Bool.false_eq_true, if_false, hram]
    exact ⟨htready, hwren, hfits, hlength, hlengths, hwords⟩

end Step

/-! ## Whole runs -/

section Run

variable {n a : Nat} {c : Nat → Control}

theorem avgCycles_succ (t : Nat) : avgCycles aw r c (t + 1) =
    (marks (c t) (run aw r c t) (if (run aw r c t).state = .avgScope then some t else none)).record
      (avgCycles aw r c t) := rfl

theorem phase_step {d : Nat → BitVec (w * r)} {c : Control} {s : Ctrl aw} {p : Path aw w r}
    {log : List (List Nat)} (hc : Configured r n a c) (hresetn : c.aresetn = true)
    (h : Phase d n a log s p) (t : Nat) :
    Phase d n a ((marks c s (if s.state = .avgScope then some t else none)).record log)
      (ctrlNext r c s) (pathNext c s (d t) p) := by
  cases hstate : s.state with
  | idle =>
    rw [record_clear (by simp [marks, hstate])]
    exact phase_idle hresetn hstate (d t)
  | writeZeros =>
    rw [record_quiet (by simp [marks, hstate]) (by simp [marks, hstate]) (by simp [marks])]
    exact phase_writeZeros hc hresetn hstate h (d t)
  | waitTrig =>
    have hrecord : (marks c s (if s.state = .avgScope then some t else none)).record log =
        if c.trigI && c.sAxisTvalid then log ++ [[]] else log := by
      by_cases htrig : (c.trigI && c.sAxisTvalid) = true
      · rw [if_pos htrig]
        exact record_opens (by simp [marks, hstate]) (by simpa [marks, hstate] using htrig) log
      · rw [if_neg htrig]
        exact record_quiet (by simp [marks, hstate])
          (by rw [marks, Bool.and_assoc, Bool.eq_false_of_not_eq_true htrig, Bool.and_false])
          (by simp [marks, hstate]) log
    rw [hstate] at hrecord
    rw [hrecord]
    exact phase_waitTrig hc hstate h (d t)
  | avgScope =>
    have h' := h
    rw [Phase, hstate] at h'
    obtain ⟨-, -, -, -, -, closed, current, rfl, -⟩ := h'
    rw [record_beat (b := t) (by simp [marks, hstate]) (by simp [marks, hstate]) (by simp [marks])]
    by_cases hend : atEnd r c s
    · exact phase_lastWord hc hstate hend h (d t) t
    · exact phase_word hc hresetn hstate hend h t
  | avgN1 =>
    rw [Phase, hstate] at h
    exact h.elim
  | writeAvg =>
    rw [Phase, hstate] at h
    exact h.elim
  | finish =>
    rw [record_quiet (by simp [marks, hstate]) (by simp [marks, hstate]) (by simp [marks])]
    exact phase_finish hstate h (d t)

theorem phase_run (hc : ∀ t, Configured r n a (c t)) (d : Nat → BitVec (w * r))
    (p : Path aw w r) (t : Nat) :
    Phase d n a (avgCycles aw r c t) (run aw r c t) (path c d p t) := by
  induction t with
  | zero => rfl
  | succ t ih =>
    rw [run_succ, path, avgCycles_succ]
    cases hresetn : (c t).aresetn with
    | false => rfl
    | true => exact phase_step (hc t) hresetn ih t

/-- In scope mode beats are accepted in `ST_AVG_SCOPE` only. -/
theorem tready_eq (hc : ∀ t, Configured r n a (c t)) (t : Nat) :
    (run aw r c t).tready = decide ((run aw r c t).state = .avgScope) := by
  have hphase := phase_run hc (fun _ => (0 : BitVec (0 * r)))
    (⟨0, 0, fun _ => 0, 0⟩ : Path aw 0 r) t
  rw [Phase] at hphase
  cases hstate : (run aw r c t).state <;> rw [hstate] at hphase
  case idle => exact hphase
  case writeZeros => exact hphase.1
  case waitTrig => exact hphase.1
  case avgScope => exact hphase.1
  case avgN1 => exact hphase.elim
  case writeAvg => exact hphase.elim
  case finish => exact hphase.1

/-- While sums are made the two ports do not meet in one word, so it does not matter which of them
comes first. -/
theorem ports_apart (hc : ∀ t, Configured r n a (c t)) {t : Nat}
    (hstate : (run aw r c t).state = .waitTrig ∨ (run aw r c t).state = .avgScope)
    (hwren : (run aw r c t).wren = true) : (run aw r c t).addrDly ≠ (run aw r c t).addr := by
  have hphase := phase_run hc (fun _ => (0 : BitVec (0 * r)))
    (⟨0, 0, fun _ => 0, 0⟩ : Path aw 0 r) t
  rw [Phase] at hphase
  rcases hstate with hwait | havg
  · rw [hwait] at hphase
    rw [hphase.2.2.1] at hwren
    cases hwren
  · rw [havg] at hphase
    obtain ⟨-, hlag, -⟩ := hphase
    rw [hlag.1, decide_eq_true_iff] at hwren
    have hdly := hlag.2 hwren
    intro heq
    rw [heq] at hdly
    omega

/-- The accepted beats are the words of the cycles of `ST_AVG_SCOPE` with `s_axis_tvalid`. -/
theorem sweepLog_eq (hc : ∀ t, Configured r n a (c t)) (d : Nat → BitVec (w * r)) (t : Nat) :
    sweepLog aw c d t = (avgCycles aw r c t).map fun sweep =>
      (sweep.filter fun u => (c u).sAxisTvalid).map d := by
  have hbeat : ∀ u, (if (run aw r c u).tready && (c u).sAxisTvalid then some (d u) else none) =
      (if (run aw r c u).state = .avgScope then some u else none).bind
        fun u => if (c u).sAxisTvalid then some (d u) else none := by
    intro u
    rw [tready_eq hc]
    by_cases hstate : (run aw r c u).state = .avgScope <;> simp [hstate]
  have hwords : ∀ sweep : List Nat,
      sweep.filterMap (fun u => if (c u).sAxisTvalid then some (d u) else none) =
        (sweep.filter fun u => (c u).sAxisTvalid).map d := by
    intro sweep
    induction sweep with
    | nil => rfl
    | cons u sweep ih =>
      rw [List.filterMap_cons, List.filter_cons, ih]
      split_ifs <;> rfl
  have hlog : sweepLog aw c d t = (avgCycles aw r c t).map
      (List.filterMap fun u => if (c u).sAxisTvalid then some (d u) else none) := by
    refine sweeps_filterMap _ (fun u => ?_) (fun u => ?_) hbeat t
    · rfl
    · rfl
  rw [hlog]
  exact List.map_congr_left fun sweep _ => hwords sweep

theorem avgCycles_nodup (t : Nat) : (avgCycles aw r c t).flatten.Nodup := by
  refine (sweeps_nodup (fun u v hv => ?_) t).1
  dsimp only [marks] at hv
  split at hv
  next => exact (Option.some.inj hv).symm
  next => cases hv

/-- What scope mode leaves in the memory at the end of a run. -/
theorem ram_skewed (hc : ∀ t, Configured r n a (c t)) {t : Nat}
    (hfinish : (run aw r c t).state = .finish) (d : Nat → BitVec (w * r)) (p : Path aw w r) :
    (run aw r c t).wren = false ∧ n < 2 ^ aw ∧ (avgCycles aw r c t).length = a ∧
      (∀ sweep ∈ avgCycles aw r c t, sweep.length = n + 1) ∧
      ∀ k : BitVec aw, k.toNat < n →
        Skewed d ((path c d p t).ram k) (avgCycles aw r c t) k.toNat := by
  have hphase := phase_run hc d p t
  rw [Phase, hfinish] at hphase
  exact hphase.2

end Run

end RpEcosystem.Averager.FirstGeneration
