import Mathlib.Data.List.ModifyLast
import Mathlib.Data.List.Induction
import Mathlib.Algebra.BigOperators.Group.List.Basic
import Mathlib.Algebra.Ring.Int.Defs

/-!
# Sweeps of a stream

A circuit takes beats from a stream in sweeps: a trigger opens a sweep, accepted beats go to the
sweep that was opened last, and a start forgets all sweeps.

* `Marks`, `sweeps`: what happens in each cycle, and the sweeps since the last start;
* `columnSum`: the sum over all sweeps of the beats with one index;
* `skewSum`: the sum that results when each sweep is added one place further.
-/

namespace Clocked

/-- What a cycle means for the sweeps. -/
structure Marks (β : Type) where
  /-- all sweeps are forgotten -/
  clear : Bool
  /-- a new sweep is opened -/
  opens : Bool
  /-- a beat is accepted -/
  beat : Option β

variable {β : Type}

def Marks.record (m : Marks β) (log : List (List β)) : List (List β) :=
  if m.clear then []
  else if m.opens then log ++ [[]]
  else
    match m.beat with
    | some b => log.modifyLast (· ++ [b])
    | none => log

/-- The sweeps before cycle `t`. -/
def sweeps (marks : Nat → Marks β) : Nat → List (List β)
  | 0 => []
  | t + 1 => (marks t).record (sweeps marks t)

theorem record_clear {m : Marks β} (h : m.clear = true) (log : List (List β)) :
    m.record log = [] := by
  rw [Marks.record, if_pos h]

theorem record_opens {m : Marks β} (hclear : m.clear = false) (h : m.opens = true)
    (log : List (List β)) : m.record log = log ++ [[]] := by
  simp [Marks.record, hclear, h]

theorem record_beat {m : Marks β} {b : β} (hclear : m.clear = false) (hopens : m.opens = false)
    (h : m.beat = some b) (closed : List (List β)) (current : List β) :
    m.record (closed ++ [current]) = closed ++ [current ++ [b]] := by
  simp [Marks.record, hclear, hopens, h, List.modifyLast_concat]

theorem record_quiet {m : Marks β} (hclear : m.clear = false) (hopens : m.opens = false)
    (h : m.beat = none) (log : List (List β)) : m.record log = log := by
  simp [Marks.record, hclear, hopens, h]

/-- Sweeps of beats that are made from the beats of other sweeps. -/
theorem sweeps_filterMap {γ : Type} (g : β → Option γ) {marks : Nat → Marks β}
    {marks' : Nat → Marks γ} (hclear : ∀ t, (marks' t).clear = (marks t).clear)
    (hopens : ∀ t, (marks' t).opens = (marks t).opens)
    (hbeat : ∀ t, (marks' t).beat = (marks t).beat.bind g) (t : Nat) :
    sweeps marks' t = (sweeps marks t).map (List.filterMap g) := by
  induction t with
  | zero => rfl
  | succ t ih =>
    rw [sweeps, sweeps, ih, Marks.record, Marks.record, hclear, hopens, hbeat]
    split
    next => rfl
    split
    next => simp
    cases hb : (marks t).beat with
    | none => rfl
    | some b =>
      rcases List.eq_nil_or_concat (sweeps marks t) with hnil | ⟨closed, current, hlog⟩
      · rw [hnil]
        cases hg : g b with
        | none => simp [hg]; rfl
        | some c => simp [hg]; rfl
      · rw [hlog, List.concat_eq_append]
        simp only [Option.bind_some, List.modifyLast_concat, List.map_append, List.map_cons,
          List.map_nil, List.filterMap_append, List.filterMap_cons, List.filterMap_nil]
        cases g b with
        | none => simp
        | some c => simp

/-- Beats that are the numbers of their cycles are all different. -/
theorem sweeps_nodup {marks : Nat → Marks Nat} (h : ∀ t u, (marks t).beat = some u → u = t)
    (t : Nat) : (sweeps marks t).flatten.Nodup ∧ ∀ u ∈ (sweeps marks t).flatten, u < t := by
  induction t with
  | zero => exact ⟨List.nodup_nil, nofun⟩
  | succ t ih =>
    have hlate : ∀ u ∈ (sweeps marks t).flatten, u < t + 1 := fun u hu =>
      Nat.lt_succ_of_lt (ih.2 u hu)
    rw [sweeps, Marks.record]
    split
    next => exact ⟨List.nodup_nil, nofun⟩
    split
    next =>
      rw [List.flatten_append, List.flatten_singleton, List.append_nil]
      exact ⟨ih.1, hlate⟩
    cases hb : (marks t).beat with
    | none => exact ⟨ih.1, hlate⟩
    | some u =>
      cases h t u hb
      rcases List.eq_nil_or_concat (sweeps marks t) with hnil | ⟨closed, current, hlog⟩
      · rw [hnil]
        exact ⟨List.nodup_nil, nofun⟩
      · rw [List.concat_eq_append] at hlog
        rw [hlog, List.flatten_append, List.flatten_singleton] at ih
        have hflat : ((sweeps marks t).modifyLast (· ++ [t])).flatten =
            closed.flatten ++ current ++ [t] := by
          rw [hlog, List.modifyLast_concat, List.flatten_append, List.flatten_singleton,
            List.append_assoc]
        simp only [hflat]
        refine ⟨List.nodup_append.mpr ⟨ih.1, by simp, ?_⟩, ?_⟩
        · rintro u hu v hv rfl
          rw [List.mem_singleton.mp hv] at hu
          exact absurd (ih.2 _ hu) (lt_irrefl _)
        · intro u hu
          rcases List.mem_append.mp hu with hu | hu
          · exact Nat.lt_succ_of_lt (ih.2 u hu)
          · rw [List.mem_singleton.mp hu]
            exact Nat.lt_succ_self t

/-! ## Sums over the sweeps -/

/-- `f` of beat `k` of a sweep, if it has one. -/
def entry (f : β → Int) (k : Nat) (sweep : List β) : Int := (sweep[k]?.map f).getD 0

/-- The sum of `f` over beat `k` of every sweep that has one. -/
def columnSum (f : β → Int) (k : Nat) (log : List (List β)) : Int := (log.map (entry f k)).sum

theorem entry_append_left (f : β → Int) {k : Nat} {sweep : List β} (h : k < sweep.length)
    (rest : List β) : entry f k (sweep ++ rest) = entry f k sweep := by
  rw [entry, List.getElem?_append_left h, entry]

theorem entry_concat (f : β → Int) (sweep : List β) (b : β) :
    entry f sweep.length (sweep ++ [b]) = f b := by
  simp [entry]

theorem entry_of_length_le (f : β → Int) {k : Nat} {sweep : List β} (h : sweep.length ≤ k) :
    entry f k sweep = 0 := by
  rw [entry, List.getElem?_eq_none h]
  rfl

theorem entry_map {γ : Type} (f : γ → Int) (g : β → γ) (k : Nat) (sweep : List β) :
    entry f k (sweep.map g) = entry (fun b => f (g b)) k sweep := by
  rw [entry, List.getElem?_map, Option.map_map, entry]
  rfl

/-- Beats that are left out behind the first `n` do not matter for these. -/
theorem entry_filter (f : β → Int) {p : β → Bool} {n k : Nat} {sweep : List β}
    (h : ∀ b ∈ sweep.take n, p b = true) (hk : k < n) :
    entry f k (sweep.filter p) = entry f k sweep := by
  have hfilter : sweep.filter p = sweep.take n ++ (sweep.drop n).filter p := by
    rw [← List.filter_eq_self.mpr h, ← List.filter_append, List.take_append_drop]
  by_cases hlength : k < sweep.length
  · have htake : k < (sweep.take n).length := by
      rw [List.length_take]
      omega
    rw [hfilter, entry_append_left f htake, ← entry_append_left f htake (sweep.drop n),
      List.take_append_drop]
  · have hle := List.length_filter_le p sweep
    rw [entry_of_length_le f (by omega), entry_of_length_le f (by omega)]

@[simp] theorem columnSum_nil (f : β → Int) (k : Nat) : columnSum f k [] = 0 := rfl

theorem columnSum_concat (f : β → Int) (k : Nat) (log : List (List β)) (sweep : List β) :
    columnSum f k (log ++ [sweep]) = columnSum f k log + entry f k sweep := by
  simp [columnSum]

theorem columnSum_open (f : β → Int) (k : Nat) (log : List (List β)) :
    columnSum f k (log ++ [[]]) = columnSum f k log := by
  simp [columnSum_concat, entry]

/-- A beat counts in its own column only. -/
theorem columnSum_beat (f : β → Int) (k : Nat) (log : List (List β)) (current : List β) (b : β) :
    columnSum f k (log ++ [current ++ [b]]) =
      columnSum f k (log ++ [current]) + if k = current.length then f b else 0 := by
  rw [columnSum_concat, columnSum_concat, add_assoc]
  congr 1
  rcases Nat.lt_trichotomy k current.length with hlt | rfl | hgt
  · rw [entry_append_left f hlt, if_neg (by omega), add_zero]
  · rw [entry_concat, entry_of_length_le f le_rfl, if_pos rfl, zero_add]
  · rw [entry_of_length_le f (by rw [List.length_append, List.length_singleton]; omega),
      entry_of_length_le f (by omega), if_neg (by omega), add_zero]

/-! ## Skewed sums -/

/-- The sum in which every further sweep moves the sum so far by one column to the right, and keeps
its first column in place. -/
def skewSum (f : β → Int) (log : List (List β)) : Nat → Int :=
  log.foldl (fun total sweep k => total (k - 1) + entry f k sweep) fun _ => 0

theorem skewSum_nil (f : β → Int) (k : Nat) : skewSum f [] k = 0 := rfl

theorem skewSum_concat (f : β → Int) (log : List (List β)) (sweep : List β) (k : Nat) :
    skewSum f (log ++ [sweep]) k = skewSum f log (k - 1) + entry f k sweep := by
  rw [skewSum, List.foldl_append, List.foldl_cons, List.foldl_nil, skewSum]

/-- The first column is not moved. -/
theorem skewSum_zero (f : β → Int) (log : List (List β)) :
    skewSum f log 0 = columnSum f 0 log := by
  induction log using List.reverseRecOn with
  | nil => rfl
  | append_singleton log sweep ih => rw [skewSum_concat, columnSum_concat, Nat.zero_sub, ih]

/-- A single sweep is not moved. -/
theorem skewSum_single (f : β → Int) (sweep : List β) (k : Nat) :
    skewSum f [sweep] k = columnSum f k [sweep] := by
  rw [← List.nil_append [sweep], skewSum_concat, columnSum_concat, skewSum_nil, columnSum_nil]

section Pulse

variable [DecidableEq β] {b : β} {v : Int}

/-- `v` at one beat and 0 everywhere else. -/
def pulse (b : β) (v : Int) (c : β) : Int := if c = b then v else 0

theorem entry_pulse_absent {sweep : List β} (h : b ∉ sweep) (k : Nat) :
    entry (pulse b v) k sweep = 0 := by
  rw [entry]
  cases hk : sweep[k]? with
  | none => rfl
  | some c =>
    have hne : c ≠ b := fun heq => h (heq ▸ List.mem_of_getElem? hk)
    simp [pulse, hne]

theorem columnSum_pulse_absent {log : List (List β)} (h : b ∉ log.flatten) (k : Nat) :
    columnSum (pulse b v) k log = 0 := by
  induction log with
  | nil => rfl
  | cons sweep log ih =>
    rw [List.flatten_cons, List.mem_append, not_or] at h
    rw [columnSum, List.map_cons, List.sum_cons, entry_pulse_absent h.1, zero_add]
    exact ih h.2

/-- A beat that occurs once counts once. -/
theorem columnSum_pulse {log : List (List β)} (hnodup : log.flatten.Nodup) {sweep : List β}
    (hsweep : sweep ∈ log) {k : Nat} (hk : sweep[k]? = some b) :
    columnSum (pulse b v) k log = v := by
  induction log with
  | nil => cases hsweep
  | cons first log ih =>
    rw [List.flatten_cons, List.nodup_append] at hnodup
    obtain ⟨-, hlog, hdisjoint⟩ := hnodup
    rw [columnSum, List.map_cons, List.sum_cons]
    rcases List.mem_cons.mp hsweep with rfl | hin
    · have habsent : b ∉ log.flatten := fun hb =>
        hdisjoint b (List.mem_of_getElem? hk) b hb rfl
      have hrest := columnSum_pulse_absent (v := v) habsent k
      rw [columnSum] at hrest
      rw [hrest, entry, hk]
      simp [pulse]
    · have habsent : b ∉ first := fun hb =>
        hdisjoint b hb b (List.mem_flatten.mpr ⟨sweep, hin, List.mem_of_getElem? hk⟩) rfl
      rw [entry_pulse_absent habsent, zero_add]
      exact ih hlog hin

end Pulse

end Clocked
