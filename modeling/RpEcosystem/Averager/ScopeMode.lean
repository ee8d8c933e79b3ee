import RpEcosystem.Averager.FirstGeneration

/-!
# Scope mode sample by sample

Scope mode of the first averager is to sum the beats of all sweeps word by word. It takes what is on
`s_axis_tdata` in each cycle of `ST_AVG_SCOPE`, whether it is valid or not, and every further sweep
moves the sums by one word. The sums are the right ones for all data exactly when neither matters.

* `DoneRaised`, `SumsUp`: the moment and the sums in question;
* `skewSum_eq_columnSum`: when nothing is moved;
* `scope_mode_iff`: when the sums are right.
-/

namespace RpEcosystem.Averager.FirstGeneration

open Clocked

variable {aw w r : Nat}

/-- `done` rises at the edge that ends cycle `t`. -/
def DoneRaised (aw r : Nat) (c : Nat → Control) (t : Nat) : Prop :=
  (run aw r c t).done = false ∧ (run aw r c (t + 1)).done = true

/-- For all data, the words are the sums over the sweeps of the accepted beats, lane by lane. -/
def SumsUp (aw w r n : Nat) (c : Nat → Control) (t : Nat) : Prop :=
  ∀ (d : Nat → BitVec (w * r)) (p : Path aw w r) (k i : Nat), k < n → i < r →
    lane w i ((path c d p t).ram (BitVec.ofNat aw k)) =
      BitVec.ofInt w (columnSum (fun beat => (lane w i beat).toInt) k (sweepLog aw c d t))

/-- The accepted cycles among those of each sweep. -/
def accepted (c : Nat → Control) (log : List (List Nat)) : List (List Nat) :=
  log.map fun sweep => sweep.filter fun u => (c u).sAxisTvalid

theorem DoneRaised.finish {c : Nat → Control} {t : Nat} (h : DoneRaised aw r c t) :
    (run aw r c t).state = .finish := by
  obtain ⟨hlow, hhigh⟩ := h
  rw [run_succ] at hhigh
  cases hresetn : (c t).aresetn with
  | false =>
    rw [hresetn] at hhigh
    cases hhigh
  | true =>
    rw [hresetn, cond_true] at hhigh
    cases hstate : (run aw r c t).state with
    | finish => rfl
    | idle => simp [ctrlNext, hstate] at hhigh
    | writeZeros =>
      simp only [ctrlNext, hstate] at hhigh
      split at hhigh <;> simp [hlow] at hhigh
    | waitTrig =>
      simp only [ctrlNext, hstate] at hhigh
      split at hhigh <;> simp [hlow] at hhigh
    | avgScope =>
      simp only [ctrlNext, hstate] at hhigh
      split at hhigh <;> simp [hlow] at hhigh
    | avgN1 =>
      simp only [ctrlNext, hstate] at hhigh
      split at hhigh <;> simp [hlow] at hhigh
    | writeAvg => simp [ctrlNext, hstate, hlow] at hhigh

/-- Nothing is recorded while the result waits. -/
theorem avgCycles_finish {c : Nat → Control} {t : Nat} (h : (run aw r c t).state = .finish) :
    avgCycles aw r c (t + 1) = avgCycles aw r c t := by
  rw [avgCycles_succ]
  exact record_quiet (by simp [marks, h]) (by simp [marks, h]) (by simp [marks, h]) _

section Done

variable {n a t : Nat} {c : Nat → Control}

/-- Right sums, in terms of the cycles. -/
theorem sumsUp_iff (hc : ∀ t, Configured r n a (c t)) (hdone : DoneRaised aw r c t) :
    SumsUp aw w r n c (t + 1) ↔ ∀ (d : Nat → BitVec (w * r)) (k i : Nat), k < n → i < r →
      BitVec.ofInt w (skewSum (value d i) (avgCycles aw r c (t + 1)) k) =
        BitVec.ofInt w (columnSum (value d i) k (accepted c (avgCycles aw r c (t + 1)))) := by
  have hfinish := hdone.finish
  have hsum : ∀ (d : Nat → BitVec (w * r)) (k i : Nat),
      columnSum (fun beat => (lane w i beat).toInt) k (sweepLog aw c d (t + 1)) =
        columnSum (value d i) k (accepted c (avgCycles aw r c (t + 1))) := by
    intro d k i
    rw [sweepLog_eq hc, columnSum, columnSum, accepted, List.map_map, List.map_map]
    refine congrArg List.sum (List.map_congr_left fun sweep _ => ?_)
    exact entry_map _ _ _ _
  have hword : ∀ (d : Nat → BitVec (w * r)) (p : Path aw w r) (k i : Nat), k < n → i < r →
      lane w i ((path c d p (t + 1)).ram (BitVec.ofNat aw k)) =
        BitVec.ofInt w (skewSum (value d i) (avgCycles aw r c (t + 1)) k) := by
    intro d p k i hk hi
    obtain ⟨hwren, hfits, -, -, hwords⟩ := ram_skewed hc hfinish d p
    have hkn : (BitVec.ofNat aw k).toNat = k := by
      rw [BitVec.toNat_ofNat, Nat.mod_eq_of_lt (by omega)]
    have hlane := hwords (BitVec.ofNat aw k) (by omega) i hi
    rw [hkn] at hlane
    rw [path, pathNext, hwren, avgCycles_finish hfinish, ← hlane]
    rfl
  constructor
  · intro h d k i hk hi
    have hp := h d ⟨0, 0, fun _ => 0, 0⟩ k i hk hi
    rwa [hword d _ k i hk hi, hsum] at hp
  · intro h d p k i hk hi
    rw [hword d p k i hk hi, hsum]
    exact h d k i hk hi

end Done

/-- With one sweep or one word nothing is moved. -/
theorem skewSum_eq_columnSum {n : Nat} {log : List (List Nat)} (h : log.length = 1 ∨ n = 1)
    (f : Nat → Int) {k : Nat} (hk : k < n) : skewSum f log k = columnSum f k log := by
  rcases h with hone | rfl
  · obtain ⟨sweep, rfl⟩ := List.length_eq_one_iff.mp hone
    exact skewSum_single f sweep k
  · rw [Nat.lt_one_iff.mp hk]
    exact skewSum_zero f log

/-! ## Data that show a difference -/

/-- A 1 in the first lane in cycle `u`, and nothing else. -/
def spike (w r u : Nat) (t : Nat) : BitVec (w * r) := if t = u then 1 else 0

theorem value_spike (hw : 0 < w) (hr : 0 < r) (u : Nat) :
    value (spike w r u) 0 = pulse u (1 : BitVec w).toInt := by
  have hwr : w ≤ w * r := Nat.le_mul_of_pos_right w hr
  have hpow : 1 < 2 ^ w := Nat.one_lt_two_pow (by omega)
  have hpow' : 2 ^ w ≤ 2 ^ (w * r) := Nat.pow_le_pow_right (by decide) hwr
  have hone : lane w 0 (1 : BitVec (w * r)) = 1 := by
    apply BitVec.eq_of_toNat_eq
    rw [lane, BitVec.extractLsb'_toNat, show (1 : BitVec (w * r)) = BitVec.ofNat _ 1 from rfl,
      show (1 : BitVec w) = BitVec.ofNat _ 1 from rfl, BitVec.toNat_ofNat, BitVec.toNat_ofNat,
      Nat.mod_eq_of_lt (by omega : 1 < 2 ^ (w * r)), Nat.mul_zero, Nat.shiftRight_zero]
  funext t
  rw [value, spike, pulse]
  split
  next => rw [hone]
  next =>
    rw [lane_zero]
    exact BitVec.toInt_zero

/-- The two sums of a spike that the one counts and the other does not are different. -/
theorem spike_differs (hw : 0 < w) {x y : Int} (hx : x = (1 : BitVec w).toInt) (hy : y = 0) :
    BitVec.ofInt w x ≠ BitVec.ofInt w y := by
  rw [hx, hy, BitVec.ofInt_toInt]
  intro h
  have h := congrArg BitVec.toNat h
  have hpow : 1 < 2 ^ w := Nat.one_lt_two_pow (by omega)
  rw [show (1 : BitVec w) = BitVec.ofNat _ 1 from rfl, BitVec.toNat_ofNat,
    Nat.mod_eq_of_lt hpow] at h
  simp at h

/-- With two sweeps of two words the first word of the first sweep is counted in the second word. -/
theorem moved_spike (c : Nat → Control) {log : List (List Nat)} (hnodup : log.flatten.Nodup)
    (hsweeps : 2 ≤ log.length) (hwords : ∀ sweep ∈ log, sweep ≠ []) (v : Int) :
    ∃ u, skewSum (pulse u v) log 1 = v ∧ columnSum (pulse u v) 1 (accepted c log) = 0 := by
  obtain ⟨closed, last, rfl⟩ : ∃ closed last, log = closed ++ [last] := by
    rcases List.eq_nil_or_concat log with rfl | ⟨closed, last, hlog⟩
    · cases hsweeps
    · exact ⟨closed, last, by rw [hlog, List.concat_eq_append]⟩
  cases closed with
  | nil => simp at hsweeps
  | cons first closed =>
    cases first with
    | nil => exact absurd rfl (hwords [] (by simp))
    | cons u rest =>
      rw [List.flatten_append, List.flatten_singleton, List.nodup_append] at hnodup
      obtain ⟨hclosed, -, hdisjoint⟩ := hnodup
      have hlast : u ∉ last := fun hu => hdisjoint u (by simp) u hu rfl
      refine ⟨u, ?_, ?_⟩
      · rw [skewSum_concat, Nat.sub_self, skewSum_zero, entry_pulse_absent hlast, add_zero]
        exact columnSum_pulse hclosed List.mem_cons_self rfl
      · rw [List.flatten_cons, List.nodup_append] at hclosed
        obtain ⟨hfirst, -, hrest⟩ := hclosed
        have hrest' : u ∉ rest := (List.nodup_cons.mp hfirst).1
        have hlater : u ∉ (accepted c (closed ++ [last])).flatten := by
          intro hu
          obtain ⟨kept, hkept, hu⟩ := List.mem_flatten.mp hu
          obtain ⟨sweep, hsweep, rfl⟩ := List.mem_map.mp hkept
          have hu := (List.mem_filter.mp hu).1
          rcases List.mem_append.mp hsweep with hin | hin
          · exact hrest u List.mem_cons_self u (List.mem_flatten.mpr ⟨sweep, hin, hu⟩) rfl
          · rw [List.mem_singleton.mp hin] at hu
            exact hlast hu
        have hzero := columnSum_pulse_absent (v := v) hlater 1
        rw [accepted, columnSum] at hzero
        rw [accepted, columnSum, List.cons_append, List.map_cons, List.map_cons, List.sum_cons,
          hzero, add_zero, List.filter_cons]
        have habsent : ∀ k, entry (pulse u v) k (rest.filter fun u => (c u).sAxisTvalid) = 0 :=
          entry_pulse_absent fun hu => hrest' (List.mem_filter.mp hu).1
        split
        next => exact habsent 0
        next => exact habsent 1

/-- A word that is taken without being valid is counted, and never accepted. -/
theorem taken_spike {c : Nat → Control} {log : List (List Nat)} (hnodup : log.flatten.Nodup)
    {n u : Nat} {sweep : List Nat} (hsweep : sweep ∈ log) (hu : u ∈ sweep.take n)
    (hvalid : (c u).sAxisTvalid = false) (v : Int) :
    ∃ k, k < n ∧ columnSum (pulse u v) k log = v ∧
      columnSum (pulse u v) k (accepted c log) = 0 := by
  obtain ⟨k, hk⟩ := List.getElem?_of_mem hu
  have hkn : k < n := by
    by_contra hle
    rw [List.getElem?_take, if_neg hle] at hk
    cases hk
  rw [List.getElem?_take_of_lt hkn] at hk
  refine ⟨k, hkn, columnSum_pulse hnodup hsweep hk, columnSum_pulse_absent ?_ k⟩
  intro hin
  obtain ⟨kept, hkept, hin⟩ := List.mem_flatten.mp hin
  obtain ⟨other, -, rfl⟩ := List.mem_map.mp hkept
  have hlow := (List.mem_filter.mp hin).2
  rw [hvalid] at hlow
  cases hlow

/-- In scope mode the sums are right for all data exactly when there is one sweep or one word, and
`s_axis_tvalid` is high in the cycles in which words are taken. -/
theorem scope_mode_iff (hw : 0 < w) (hr : 0 < r) {nsamples naverages : BitVec 32}
    (hmin : r ≤ nsamples.toNat) (honce : 1 ≤ naverages.toNat) {c : Nat → Control}
    (hx : ∀ t, (c t).mode = false ∧ (c t).nsamples = nsamples ∧ (c t).naverages = naverages)
    {t : Nat} (hdone : DoneRaised aw r c t) :
    SumsUp aw w r (nsamples.toNat / r) c (t + 1) ↔
      (naverages.toNat = 1 ∨ nsamples.toNat / r = 1) ∧
        ∀ sweep ∈ avgCycles aw r c (t + 1), ∀ u ∈ sweep.take (nsamples.toNat / r),
          (c u).sAxisTvalid = true := by
  have hpos : 0 < nsamples.toNat / r := Nat.div_pos hmin hr
  have hc : ∀ t, Configured r (nsamples.toNat / r) naverages.toNat (c t) := by
    intro t
    obtain ⟨hmode, hnsamples, hnaverages⟩ := hx t
    exact ⟨hmode, by rw [hnsamples], by rw [hnaverages], hpos, honce⟩
  generalize nsamples.toNat / r = n at hc hpos ⊢
  generalize naverages.toNat = a at hc honce ⊢
  rw [sumsUp_iff hc hdone]
  have hfinish := hdone.finish
  obtain ⟨-, -, hlength, hlengths, -⟩ :=
    ram_skewed hc hfinish (fun _ => (0 : BitVec (w * r))) ⟨0, 0, fun _ => 0, 0⟩
  rw [← avgCycles_finish hfinish] at hlength hlengths
  have hnodup := @avgCycles_nodup aw r c (t + 1)
  generalize avgCycles aw r c (t + 1) = log at hlength hlengths hnodup ⊢
  constructor
  · intro h
    have hvalue := fun u => value_spike (w := w) (r := r) hw hr u
    have hone : a = 1 ∨ n = 1 := by
      by_contra hnot
      rw [not_or] at hnot
      have hwords : ∀ sweep ∈ log, sweep ≠ [] := by
        rintro sweep hsweep rfl
        exact absurd (hlengths [] hsweep) (by simp)
      obtain ⟨u, hskew, hcolumn⟩ := moved_spike c hnodup (by omega) hwords (1 : BitVec w).toInt
      have heq := h (spike w r u) 1 0 (by omega) hr
      rw [hvalue] at heq
      exact spike_differs hw hskew hcolumn heq
    refine ⟨hone, fun sweep hsweep u hu => ?_⟩
    by_contra hlow
    obtain ⟨k, hk, hcounted, hcolumn⟩ := taken_spike hnodup hsweep hu
      (Bool.eq_false_of_not_eq_true hlow) (1 : BitVec w).toInt
    have heq := h (spike w r u) k 0 hk hr
    rw [hvalue, skewSum_eq_columnSum (by rwa [hlength]) _ hk] at heq
    exact spike_differs hw hcounted hcolumn heq
  · rintro ⟨hone, hvalid⟩ d k i hk _
    have hcolumn : columnSum (value d i) k (accepted c log) = columnSum (value d i) k log := by
      rw [columnSum, accepted, List.map_map, columnSum]
      refine congrArg List.sum (List.map_congr_left fun sweep hsweep => ?_)
      exact entry_filter _ (hvalid sweep hsweep) hk
    rw [skewSum_eq_columnSum (by rwa [hlength]) _ hk, hcolumn]

/-- Scope mode that is started and triggered as soon as it can be; `s_axis_tvalid` is low in cycle
`gap` only. -/
def scopeRun (nsamples naverages : BitVec 32) (gap t : Nat) : Control where
  aresetn := true
  start := true
  restart := false
  mode := false
  trigI := true
  nsamples := nsamples
  naverages := naverages
  sAxisTvalid := decide (t ≠ gap)

theorem scope_mode_one_word :
    DoneRaised 7 8 (scopeRun 8 2 0) 9 ∧ SumsUp 7 16 8 1 (scopeRun 8 2 0) 10 :=
  ⟨⟨by decide, by decide⟩, (@scope_mode_iff 7 16 8 (by decide) (by decide) 8 2 (by decide)
    (by decide) (scopeRun 8 2 0) (fun _ => ⟨rfl, rfl, rfl⟩) 9 ⟨by decide, by decide⟩).mpr
    ⟨.inr rfl, by decide⟩⟩

/-- Two sweeps of two words count the first word of the first sweep in the second word; a single
sweep counts a word that is not valid. -/
theorem wrong_sums :
    (DoneRaised 7 8 (scopeRun 16 2 0) 12 ∧ ¬ SumsUp 7 16 8 2 (scopeRun 16 2 0) 13) ∧
      DoneRaised 7 8 (scopeRun 16 1 6) 8 ∧ ¬ SumsUp 7 16 8 2 (scopeRun 16 1 6) 9 := by
  refine ⟨⟨⟨by decide, by decide⟩, ?_⟩, ⟨by decide, by decide⟩, ?_⟩
  · intro h
    have hword := h (spike 16 8 5) ⟨0, 0, fun _ => 0, 0⟩ 1 0 (by decide) (by decide)
    exact absurd hword (by decide)
  · intro h
    have hword := h (spike 16 8 6) ⟨0, 0, fun _ => 0, 0⟩ 1 0 (by decide) (by decide)
    exact absurd hword (by decide)

end RpEcosystem.Averager.FirstGeneration
