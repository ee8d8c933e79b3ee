import Mathlib.Algebra.Ring.Nat
import Mathlib.Order.Basic

/-!
# Synchronous circuits

A circuit in one clock domain is a reset value of its registers and a function that
gives the registers after a clock edge from the inputs and the registers before it.
Cycle `t` of a run is the time between two edges: `run x t` are the registers in cycle
`t` and `x t` the inputs sampled by the edge that ends it.

* `run`, `runFrom`: the registers along an input sequence, from reset or from any state;
* `runFrom_invariant`, `run_invariant`: what every edge preserves holds in every cycle;
* `eq_run`: a circuit that is part of a larger one;
* `Reachable`: the states reached by any input sequence with any use of the reset.
-/

namespace Clocked

/-- A synchronous circuit with inputs `ι` and registers `σ`. -/
structure Machine (ι σ : Type) where
  /-- the registers after an edge with the reset asserted -/
  reset : σ
  /-- the registers after an edge with the reset released -/
  next : ι → σ → σ

namespace Machine

variable {ι σ : Type} (m : Machine ι σ)

/-- One clock edge with an active-low synchronous reset. -/
def edge (resetn : Bool) (i : ι) (s : σ) : σ :=
  bif resetn then m.next i s else m.reset

/-- The registers in cycle `t`, from `s` in cycle `0`, with the reset released. -/
def runFrom (s : σ) (x : Nat → ι) : Nat → σ
  | 0 => s
  | t + 1 => m.edge true (x t) (runFrom s x t)

/-- The registers in cycle `t` of a run from reset. -/
def run (x : Nat → ι) : Nat → σ := m.runFrom m.reset x

@[simp] theorem runFrom_zero (s : σ) (x : Nat → ι) : m.runFrom s x 0 = s := rfl

theorem runFrom_succ (s : σ) (x : Nat → ι) (t : Nat) :
    m.runFrom s x (t + 1) = m.next (x t) (m.runFrom s x t) := rfl

@[simp] theorem run_zero (x : Nat → ι) : m.run x 0 = m.reset := rfl

theorem run_succ (x : Nat → ι) (t : Nat) : m.run x (t + 1) = m.next (x t) (m.run x t) := rfl

/-- A property that every edge preserves holds in every cycle. -/
theorem runFrom_invariant {P : σ → Prop} {s : σ} (x : Nat → ι) (h0 : P s)
    (hstep : ∀ t s, P s → P (m.next (x t) s)) (t : Nat) : P (m.runFrom s x t) := by
  induction t with
  | zero => exact h0
  | succ t ih => exact hstep t _ ih

theorem run_invariant {P : σ → Prop} (x : Nat → ι) (h0 : P m.reset)
    (hstep : ∀ t s, P s → P (m.next (x t) s)) (t : Nat) : P (m.run x t) :=
  m.runFrom_invariant x h0 hstep t

/-- A run goes on from the registers in any of its cycles. -/
theorem runFrom_add (s : σ) (x : Nat → ι) (n t : Nat) :
    m.runFrom s x (n + t) = m.runFrom (m.runFrom s x n) (fun u => x (n + u)) t := by
  induction t with
  | zero => rfl
  | succ t ih => rw [← Nat.add_assoc, runFrom_succ, ih, runFrom_succ]

/-- A part of a larger circuit that starts in the reset value of `m` and makes its steps runs
as `m` does on the inputs the rest of the circuit gives it. -/
theorem eq_run (f : Nat → σ) (y : Nat → ι) (h0 : f 0 = m.reset)
    (hstep : ∀ t, f (t + 1) = m.next (y t) (f t)) (t : Nat) : f t = m.run y t := by
  induction t with
  | zero => exact h0
  | succ t ih => rw [hstep, ih, run_succ]

/-- The states that some input sequence reaches, the reset included at any edge. -/
inductive Reachable : σ → Prop
  | reset : Reachable m.reset
  | edge (resetn : Bool) (i : ι) {s : σ} : Reachable s → Reachable (m.edge resetn i s)

theorem reachable_run (x : Nat → ι) (t : Nat) : m.Reachable (m.run x t) := by
  induction t with
  | zero => exact .reset
  | succ t ih => exact .edge true (x t) ih

end Machine

end Clocked
