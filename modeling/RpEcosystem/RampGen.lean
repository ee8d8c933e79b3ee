import RpEcosystem.Clocked.Machine
import RpEcosystem.Clocked.Modulo
import Mathlib.Tactic.Common

/-!
# The high-voltage ramp `ramp_gen`

The output follows the registered target by one count at every tick of a counter modulo
`COUNT_MOD`. The counter runs from reset on and does not look at the target, so the ticks
are the same for every target sequence and only the direction of a step depends on it.

* `Generics`, `Regs`, `next`, `machine`: the circuit;
* `outNext_cases`: what one edge does to the output;
* `distance_succ`: with the target held, a tick brings the output one count nearer;
* `ramp_safe`: rate limit, range and convergence for every target sequence.
-/

namespace RpEcosystem.RampGen

open Clocked

structure Generics where
  countNbits : Nat
  countMod : Nat
  dataBits : Nat
  pos : 1 ≤ countMod
  fits : countMod ≤ 2 ^ countNbits

variable {g : Generics}

structure Regs (g : Generics) where
  cntReg : BitVec g.countNbits
  inReg : BitVec g.dataBits
  outReg : BitVec g.dataBits
  rReg : BitVec g.dataBits
  buffReg : Bool
  deriving DecidableEq, Repr

namespace Regs

variable (r : Regs g)

def maxTick : Bool := decide (r.cntReg.toNat = g.countMod - 1)

def cntNext : BitVec g.countNbits :=
  if r.cntReg.toNat = g.countMod - 1 then 0 else r.cntReg + 1

def buffNext : Bool := decide (r.rReg.toNat < r.outReg.toNat)

def rNext : BitVec g.dataBits := r.rReg + 1

def outNext : BitVec g.dataBits :=
  if r.maxTick then
    if r.outReg.toNat < r.inReg.toNat then r.outReg + 1
    else if r.inReg.toNat < r.outReg.toNat then r.outReg - 1
    else r.outReg
  else r.outReg

def dataO : BitVec g.dataBits := r.outReg

def ledO : Bool := decide (r.outReg.toNat ≠ 0)

def pwmO : Bool := r.buffReg

end Regs

def Regs.reset (g : Generics) : Regs g := ⟨0, 0, 0, 0, false⟩

/-- The registers after an edge with `aresetn` high; the input is the port `data_i`. -/
def next (dataI : BitVec g.dataBits) (r : Regs g) : Regs g where
  cntReg := r.cntNext
  inReg := dataI
  outReg := r.outNext
  rReg := r.rNext
  buffReg := r.buffNext

def machine (g : Generics) : Machine (BitVec g.dataBits) (Regs g) where
  reset := Regs.reset g
  next := next

/-- The registers in cycle `t` of a run from reset. -/
def run (x : Nat → BitVec g.dataBits) (t : Nat) : Regs g := (machine g).run x t

/-! ## The ticks -/

theorem cntReg_counts (x : Nat → BitVec g.dataBits) :
    CountsModulo (fun t => (run x t).cntReg) g.countMod := fun _ => rfl

theorem maxTick_eq (x : Nat → BitVec g.dataBits) (t : Nat) :
    (run x t).maxTick = wraps (fun t => (run x t).cntReg) g.countMod t := rfl

/-- A tick falls into the last cycle of every period. -/
theorem maxTick_iff (x : Nat → BitVec g.dataBits) (t : Nat) :
    (run x t).maxTick = true ↔ t % g.countMod = g.countMod - 1 :=
  (cntReg_counts x).wraps_iff g.pos g.fits rfl t

/-- There is one tick in every `COUNT_MOD` cycles, wherever they start. -/
theorem events_maxTick (x : Nat → BitVec g.dataBits) (t : Nat) :
    events (fun u => (run x u).maxTick) t (t + g.countMod) = 1 := by
  have h := (cntReg_counts x).events_wraps g.pos g.fits rfl (Nat.le_add_right t g.countMod)
  rw [Nat.add_div_right t g.pos] at h
  have hsig : events (fun u => (run x u).maxTick) =
      events (wraps (fun t => (run x t).cntReg) g.countMod) :=
    congrArg events (funext (maxTick_eq x))
  rw [hsig]
  omega

/-! ## One edge of the output -/

/-- One edge leaves the output or, at a tick, moves it by one count towards the registered
target; neither step can wrap. -/
theorem Regs.outNext_cases (r : Regs g) :
    (r.outNext = r.outReg ∧ (r.maxTick = true → r.inReg.toNat = r.outReg.toNat)) ∨
      (r.maxTick = true ∧ r.outReg.toNat < r.inReg.toNat ∧
        r.outNext.toNat = r.outReg.toNat + 1) ∨
      (r.maxTick = true ∧ r.inReg.toNat < r.outReg.toNat ∧
        r.outNext.toNat + 1 = r.outReg.toNat) := by
  unfold Regs.outNext
  split_ifs with htick hup hdown
  · have hlt := r.inReg.isLt
    exact Or.inr (Or.inl ⟨htick, hup, toNat_add_one_of_lt (by omega)⟩)
  · refine Or.inr (Or.inr ⟨htick, hdown, ?_⟩)
    rw [toNat_sub_one_of_pos (by omega)]
    omega
  · exact Or.inl ⟨rfl, fun _ => by omega⟩
  · exact Or.inl ⟨rfl, fun h => absurd h htick⟩

section Run

variable (x : Nat → BitVec g.dataBits)

theorem dataO_succ (t : Nat) : (run x (t + 1)).dataO = (run x t).outNext := rfl

theorem dataO_changes {t : Nat} (h : (run x (t + 1)).dataO ≠ (run x t).dataO) :
    (run x t).maxTick = true := by
  rw [dataO_succ] at h
  rcases (run x t).outNext_cases with ⟨hstay, -⟩ | ⟨htick, -⟩ | ⟨htick, -⟩
  · exact absurd hstay h
  · exact htick
  · exact htick

theorem dataO_step (t : Nat) : (run x (t + 1)).dataO.toNat ≤ (run x t).dataO.toNat + 1 ∧
    (run x t).dataO.toNat ≤ (run x (t + 1)).dataO.toNat + 1 := by
  rw [dataO_succ, Regs.dataO]
  rcases (run x t).outNext_cases with ⟨hstay, -⟩ | ⟨-, -, hup⟩ | ⟨-, -, hdown⟩
  · rw [hstay]
    omega
  · omega
  · omega

/-- The largest target registered up to cycle `t`. -/
def largestTarget : Nat → Nat
  | 0 => (run x 0).inReg.toNat
  | t + 1 => Nat.max (largestTarget t) (run x (t + 1)).inReg.toNat

theorem largestTarget_le_succ (t : Nat) : largestTarget x t ≤ largestTarget x (t + 1) :=
  Nat.le_max_left _ _

theorem target_le_largest (t : Nat) : (run x t).inReg.toNat ≤ largestTarget x t := by
  cases t with
  | zero => exact Nat.le_refl _
  | succ t => exact Nat.le_max_right _ _

theorem dataO_le_largest (t : Nat) : (run x t).dataO.toNat ≤ largestTarget x t := by
  induction t with
  | zero => exact Nat.zero_le _
  | succ t ih =>
    have hmono := largestTarget_le_succ x t
    have htarget := target_le_largest x t
    unfold Regs.dataO at ih
    rw [dataO_succ]
    rcases (run x t).outNext_cases with ⟨hstay, -⟩ | ⟨-, hlt, hup⟩ | ⟨-, -, hdown⟩
    · rw [hstay]
      exact ih.trans hmono
    · omega
    · omega

/-! ## A held target -/

/-- How far the output is from `v` in cycle `t`. -/
def distance (v : BitVec g.dataBits) (t : Nat) : Nat :=
  (v.toNat - (run x t).dataO.toNat) + ((run x t).dataO.toNat - v.toNat)

variable {x} {v : BitVec g.dataBits}

theorem distance_eq_zero_iff {t : Nat} : distance x v t = 0 ↔ (run x t).dataO = v := by
  rw [← BitVec.toNat_inj, distance]
  omega

/-- Every tick brings the output one count nearer to the registered target. -/
theorem distance_succ {t : Nat} (h : (run x t).inReg = v) :
    distance x v (t + 1) = distance x v t - if (run x t).maxTick then 1 else 0 := by
  have hnow : (run x t).dataO = (run x t).outReg := rfl
  rw [distance, distance, dataO_succ, hnow, ← h]
  rcases (run x t).outNext_cases with ⟨hstay, hsame⟩ | ⟨htick, hlt, hup⟩ | ⟨htick, hlt, hdown⟩
  · rw [hstay]
    split_ifs with htick
    · have := hsame htick
      omega
    · omega
  · rw [if_pos htick]
    omega
  · rw [if_pos htick]
    omega

section Held

variable {T : Nat} (hv : ∀ t, T ≤ t → x t = v)

include hv

theorem inReg_held {t : Nat} (ht : T < t) : (run x t).inReg = v := by
  obtain ⟨u, rfl⟩ : ∃ u, t = u + 1 := ⟨t - 1, by omega⟩
  exact hv u (by omega)

theorem distance_held {t u : Nat} (ht : T < t) (hu : t ≤ u) :
    distance x v u = distance x v t - events (fun u => (run x u).maxTick) t u :=
  eq_sub_events (fun w hw => distance_succ (inReg_held hv (by omega))) hu

theorem distance_period {t : Nat} (ht : T < t) :
    distance x v (t + g.countMod) = distance x v t - 1 := by
  rw [distance_held hv ht (Nat.le_add_right _ _), events_maxTick]

theorem distance_periods {t : Nat} (ht : T < t) (n : Nat) :
    distance x v (t + n * g.countMod) = distance x v t - n := by
  induction n with
  | zero => simp
  | succ n ih =>
    rw [Nat.succ_mul, ← Nat.add_assoc, distance_period hv (by omega), ih, Nat.sub_sub]

theorem dataO_stays {t u : Nat} (ht : T < t) (hu : t ≤ u) (h : (run x t).dataO = v) :
    (run x u).dataO = v := by
  rw [← distance_eq_zero_iff] at h ⊢
  rw [distance_held hv ht hu, h, Nat.zero_sub]

end Held

end Run

/-- For every sequence of targets: the output moves by at most one count an edge and at most
once in `COUNT_MOD` cycles, and lies below the largest target registered so far. From the
cycle in which a target that is held has been registered, the distance to it falls by exactly
one count every `COUNT_MOD` cycles, never grows, and once it is 0 the output stays. -/
theorem ramp_safe (g : Generics) (x : Nat → BitVec g.dataBits) :
    (∀ t, (run x (t + 1)).dataO.toNat ≤ (run x t).dataO.toNat + 1 ∧
        (run x t).dataO.toNat ≤ (run x (t + 1)).dataO.toNat + 1) ∧
      (∀ s t, s < t → (run x (s + 1)).dataO ≠ (run x s).dataO →
        (run x (t + 1)).dataO ≠ (run x t).dataO → s + g.countMod ≤ t) ∧
      (∀ t, (run x t).dataO.toNat ≤ largestTarget x t) ∧
      (∀ (T : Nat) (v : BitVec g.dataBits), (∀ t, T ≤ t → x t = v) →
        (∀ t, T < t → distance x v (t + g.countMod) = distance x v t - 1 ∧
          distance x v (t + 1) ≤ distance x v t) ∧
        (∀ t u, T < t → t ≤ u → (run x t).dataO = v → (run x u).dataO = v) ∧
        ∃ N, ∀ u, N ≤ u → (run x u).dataO = v) := by
  refine ⟨dataO_step x, ?_, dataO_le_largest x, ?_⟩
  · intro s t hst hs ht
    have hs' := (maxTick_iff x s).1 (dataO_changes x hs)
    have ht' := (maxTick_iff x t).1 (dataO_changes x ht)
    exact add_le_of_mod_eq (hs'.trans ht'.symm) hst
  · intro T v hv
    refine ⟨?_, ?_, ?_⟩
    · intro t ht
      refine ⟨distance_period hv ht, ?_⟩
      rw [distance_succ (inReg_held hv ht)]
      exact Nat.sub_le _ _
    · intro t u ht hu h
      exact dataO_stays hv ht hu h
    · have hreach := distance_periods hv (Nat.lt_succ_self T) (distance x v (T + 1))
      rw [Nat.sub_self, distance_eq_zero_iff] at hreach
      refine ⟨_, fun u hu => dataO_stays hv ?_ hu hreach⟩
      omega

/-- The generators of the slow DAC channels. -/
def Generics.slowDac : Generics where
  countNbits := 20
  countMod := 5000
  dataBits := 16
  pos := by decide
  fits := by decide

theorem ramp_safe_full_scale :
    ∃ N, ∀ u, N ≤ u → (run (g := .slowDac) (fun _ => 65535#16) u).dataO = 65535#16 :=
  ((ramp_safe .slowDac (fun _ => 65535#16)).2.2.2 0 65535#16 (fun _ _ => rfl)).2.2

end RpEcosystem.RampGen
