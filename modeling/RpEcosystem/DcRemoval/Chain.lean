import RpEcosystem.DcRemoval.Core
import RpEcosystem.Trigger.Snapshot

/-!
# From the ADC to the trigger

`axis_dc_removal` runs a filter on each channel of the ADC stream and feeds the trigger core;
both share one clock and one reset. The filters never wait, but the output register `d3_reg`
takes their outputs only in the cycles in which the trigger core is ready.

The filter subtracts a 14-bit baseline from a 14-bit sample and the trigger core keeps 14 bits
of the 16-bit difference: `stored_iff` says which differences survive that.
-/

namespace RpEcosystem.DcRemoval

open Clocked Trigger

/-! ## `axis_dc_removal` -/

/-- The input ports of `axis_dc_removal` in one clock cycle; `s_axis_tready` and
`m_axis_tvalid` are always high. -/
structure AxisInput where
  k1I : BitVec 16
  k2I : BitVec 16
  sAxisTdata : BitVec 32
  sAxisTvalid : Bool
  mAxisTready : Bool

structure AxisRegs where
  d1Reg : BitVec 16
  d2Reg : BitVec 16
  d3Reg : BitVec 32
  ch1Dcrm : Regs 16
  ch2Dcrm : Regs 16

def AxisRegs.reset : AxisRegs := ⟨0, 0, 0, Regs.reset 16, Regs.reset 16⟩

def axisNext (i : AxisInput) (r : AxisRegs) : AxisRegs where
  d1Reg := if i.sAxisTvalid then i.sAxisTdata.extractLsb' 0 16 else r.d1Reg
  d2Reg := if i.sAxisTvalid then i.sAxisTdata.extractLsb' 16 16 else r.d2Reg
  d3Reg := if i.mAxisTready then r.ch2Dcrm.dataO ++ r.ch1Dcrm.dataO else r.d3Reg
  ch1Dcrm := next ⟨i.k1I, r.d1Reg⟩ r.ch1Dcrm
  ch2Dcrm := next ⟨i.k2I, r.d2Reg⟩ r.ch2Dcrm

/-- The register that feeds the filter of a channel. -/
def AxisRegs.sample (r : AxisRegs) : Side → BitVec 16
  | .a => r.d1Reg
  | .b => r.d2Reg

/-- The filter of a channel. -/
def AxisRegs.filter (r : AxisRegs) : Side → Regs 16
  | .a => r.ch1Dcrm
  | .b => r.ch2Dcrm

/-! ## The chain of the design -/

/-- One clock cycle of the chain: the samples of the ADC, which its core sign-extends to 16
bits, and the ports of the trigger core (its own `s_axis` port is fed by the filter). -/
structure ChainInput where
  adc : Side → BitVec 14
  adcTvalid : Bool
  ports : Trigger.Input

structure ChainRegs (g : Generics) where
  dc : AxisRegs
  trigger : Trigger.Regs g

/-- `k1_i` and `k2_i` are wired to `const_2`, which is 1. -/
def ChainInput.toFilter {g : Generics} (i : ChainInput) (r : ChainRegs g) : AxisInput where
  k1I := 1
  k2I := 1
  sAxisTdata := pad (i.adc .b) ++ pad (i.adc .a)
  sAxisTvalid := i.adcTvalid
  mAxisTready := r.trigger.fsm.axisTreadyReg

def ChainInput.toTrigger {g : Generics} (i : ChainInput) (r : ChainRegs g) : Trigger.Input :=
  { i.ports with sAxisTdata := r.dc.d3Reg, sAxisTvalid := true }

def chain (g : Generics) : Machine ChainInput (ChainRegs g) where
  reset := ⟨AxisRegs.reset, Trigger.Regs.reset g⟩
  next := fun i r =>
    { dc := axisNext (i.toFilter r) r.dc
      trigger := Trigger.next (i.toTrigger r) r.trigger }

variable {g : Generics} {x : Nat → ChainInput}

/-- The trigger core takes the word of `d3_reg` at the edge that ends cycle `t`. -/
def Ready (g : Generics) (x : Nat → ChainInput) (t : Nat) : Prop :=
  ((chain g).run x t).trigger.fsm.axisTreadyReg = true

instance (g : Generics) (x : Nat → ChainInput) (t : Nat) : Decidable (Ready g x t) :=
  inferInstanceAs (Decidable (_ = true))

/-- The samples that enter the filter of a channel, cycle by cycle: the last valid one. -/
def entered (x : Nat → ChainInput) (s : Side) : Nat → BitVec 14
  | 0 => 0
  | t + 1 => if (x t).adcTvalid then (x t).adc s else entered x s t

/-- What the filter of a channel computes in cycle `t`, as an exact integer. -/
def removed (x : Nat → ChainInput) (s : Side) (t : Nat) : Int :=
  difference (fun n => (entered x s n).toInt) t

theorem sample_eq (s : Side) (t : Nat) :
    ((chain g).run x t).dc.sample s = pad (entered x s t) := by
  induction t with
  | zero => cases s <;> rfl
  | succ t ih =>
    have hlow : (pad ((x t).adc .b) ++ pad ((x t).adc .a)).extractLsb' 0 16 =
        pad ((x t).adc .a) := BitVec.extractLsb'_append_eq_right
    have hhigh : (pad ((x t).adc .b) ++ pad ((x t).adc .a)).extractLsb' 16 16 =
        pad ((x t).adc .b) := BitVec.extractLsb'_append_eq_left
    cases s with
    | a =>
      change (if (x t).adcTvalid then _ else ((chain g).run x t).dc.sample .a) = _
      rw [ih]
      simp only [entered, apply_ite pad, ChainInput.toFilter, hlow]
    | b =>
      change (if (x t).adcTvalid then _ else ((chain g).run x t).dc.sample .b) = _
      rw [ih]
      simp only [entered, apply_ite pad, ChainInput.toFilter, hhigh]

theorem filter_eq (s : Side) (t : Nat) :
    ((chain g).run x t).dc.filter s = run (fun n => ⟨1, pad (entered x s n)⟩) t := by
  refine (machine 16).eq_run (fun t => ((chain g).run x t).dc.filter s) _ ?_ (fun t => ?_) t
  · cases s <;> rfl
  · rw [← sample_eq (g := g)]
    cases s <;> rfl

theorem trigger_eq (t : Nat) : ((chain g).run x t).trigger =
    Trigger.run g (fun n => (x n).toTrigger ((chain g).run x n)) t :=
  (Trigger.machine g).eq_run (fun t => ((chain g).run x t).trigger) _ rfl (fun _ => rfl) t

theorem sample14_toInt (v : BitVec 14) : Sample14 v.toInt := by
  have hlo := v.le_toInt
  have hhi : v.toInt ≤ 2 ^ 13 - 1 := BitVec.toInt_le
  exact ⟨by omega, by omega⟩

/-- The filters output exact differences. -/
theorem filter_dataO (s : Side) (t : Nat) :
    (((chain g).run x (t + 1)).dc.filter s).dataO.toInt = removed x s t := by
  have hgain : UnitGain (fun n => ⟨1, pad (entered x s n)⟩) := by
    intro n
    refine ⟨rfl, ?_⟩
    simp only [toInt_pad]
    exact sample14_toInt _
  rw [filter_eq, dataO_eq hgain, removed]
  simp only [toInt_pad]

/-! ## Stored differences -/

/-- The difference computed in cycle `t` enters `d3_reg` with the edge that ends cycle
`t + 1`, waits there, and enters the trigger core with the edge that ends cycle `u`. -/
structure Stored (g : Generics) (x : Nat → ChainInput) (t u : Nat) : Prop where
  later : t + 2 ≤ u
  latched : Ready g x (t + 1)
  waits : ∀ v, t + 2 ≤ v → v < u → ¬ Ready g x v
  taken : Ready g x u

/-- The half of `d3_reg` that belongs to a channel. -/
def AxisRegs.half (r : AxisRegs) : Side → BitVec 16
  | .a => r.d3Reg.extractLsb' 0 16
  | .b => r.d3Reg.extractLsb' 16 16

theorem half_latched (s : Side) {t : Nat} (h : Ready g x t) :
    ((chain g).run x (t + 1)).dc.half s = (((chain g).run x t).dc.filter s).dataO := by
  have hd3 : ((chain g).run x (t + 1)).dc.d3Reg =
      (((chain g).run x t).dc.filter .b).dataO ++ (((chain g).run x t).dc.filter .a).dataO :=
    if_pos h
  cases s with
  | a =>
    rw [AxisRegs.half, hd3]
    exact BitVec.extractLsb'_append_eq_right
  | b =>
    rw [AxisRegs.half, hd3]
    exact BitVec.extractLsb'_append_eq_left

theorem half_waits (s : Side) {t : Nat} (h : ¬ Ready g x t) :
    ((chain g).run x (t + 1)).dc.half s = ((chain g).run x t).dc.half s := by
  have hd3 : ((chain g).run x (t + 1)).dc.d3Reg = ((chain g).run x t).dc.d3Reg := if_neg h
  cases s <;> rw [AxisRegs.half, AxisRegs.half, hd3]

theorem Stored.half (s : Side) {t u : Nat} (h : Stored g x t u) :
    (((chain g).run x u).dc.half s).toInt = removed x s t := by
  have hheld : ∀ v, t + 2 ≤ v → v ≤ u →
      ((chain g).run x v).dc.half s = ((chain g).run x (t + 2)).dc.half s := by
    intro v hv hle
    induction v, hv using Nat.le_induction with
    | base => rfl
    | succ v hv ih => rw [half_waits s (h.waits v hv (by omega)), ih (by omega)]
  rw [hheld u h.later le_rfl, half_latched s h.latched, filter_dataO]

theorem sample_half (i : ChainInput) (r : ChainRegs g) (s : Side) :
    (i.toTrigger r).sample s = (r.dc.half s).extractLsb' 0 14 := by
  apply BitVec.eq_of_getLsbD_eq
  intro k hk
  have hlt : k < 16 := by omega
  cases s <;> simp [Input.sample, ChainInput.toTrigger, AxisRegs.half, hk, hlt]

/-- Fourteen bits of a 16-bit number keep its value when it has only fourteen. -/
theorem toInt_low14_iff (v : BitVec 16) :
    (v.extractLsb' 0 14).toInt = v.toInt ↔ Sample14 v.toInt := by
  constructor
  · intro h
    rw [← h]
    exact sample14_toInt _
  · rintro ⟨hlo, hhi⟩
    have hlt := v.isLt
    rw [BitVec.toInt_eq_toNat_bmod] at hlo hhi
    rw [BitVec.toInt_extractLsb', BitVec.toInt_eq_toNat_bmod]
    simp only [Int.bmod_def, Nat.shiftRight_zero] at hlo hhi ⊢
    omega

theorem Stored.adcReg (s : Side) {t u : Nat} (h : Stored g x t u) :
    (((chain g).run x (u + 1)).trigger.chan s).adcReg =
      pad ((((chain g).run x u).dc.half s).extractLsb' 0 14) := by
  have htaken : ((chain g).run x u).trigger.fsm.axisTreadyReg = true := h.taken
  rw [Machine.run_succ]
  change ((Trigger.next _ _).chan s).adcReg = _
  rw [next_chan, ← sample_half (x u)]
  exact if_pos (by rw [htaken]; rfl)

/-- The difference of cycle `t` arrives unchanged in the input register of the trigger core,
and in the data word that the core sends when the window has carried it to its oldest
entry. -/
def Unchanged (g : Generics) (x : Nat → ChainInput) (s : Side) (t u : Nat) : Prop :=
  (((chain g).run x (u + 1)).trigger.chan s).adcReg.toInt = removed x s t ∧
    (((chain g).run x (u + 1 + g.dataArrayLength)).trigger.fsm.stateReg = .stAttTr →
      (x (u + 1 + g.dataArrayLength)).ports.mAxisTready = true →
      (sampleOf ((chain g).run x (u + 1 + g.dataArrayLength + 1)).trigger.fsm.dataToFifoReg
        s).toInt = removed x s t)

theorem sent_eq (s : Side) {v : Nat}
    (hstate : ((chain g).run x v).trigger.fsm.stateReg = .stAttTr)
    (hready : (x v).ports.mAxisTready = true) :
    sampleOf ((chain g).run x (v + 1)).trigger.fsm.dataToFifoReg s =
      (((chain g).run x (v - g.dataArrayLength)).trigger.chan s).adcReg := by
  have hfsm : ((chain g).run x (v + 1)).trigger.fsm =
      fsmNext ((x v).toTrigger ((chain g).run x v)) ((chain g).run x v).trigger := rfl
  have hword : ((chain g).run x (v + 1)).trigger.fsm.dataToFifoReg =
      ((chain g).run x v).trigger.sampleWord := by
    rw [hfsm, fsmNext, hstate]
    simp only [sendArray, ChainInput.toTrigger, hready, if_true]
  rw [hword, trigger_eq, sampleOf_sampleWord, ← trigger_eq]

/-- The filter's difference is exact in every cycle, and the trigger core stores and sends it
unchanged exactly when it is a 14-bit value. -/
theorem stored_iff (g : Generics) (x : Nat → ChainInput) (s : Side) {t u : Nat}
    (h : Stored g x t u) :
    (((chain g).run x (t + 1)).dc.filter s).dataO.toInt = removed x s t ∧
      (Unchanged g x s t u ↔ -8192 ≤ removed x s t ∧ removed x s t ≤ 8191) := by
  have hstored : (((chain g).run x (u + 1)).trigger.chan s).adcReg.toInt = removed x s t ↔
      Sample14 (removed x s t) := by
    rw [h.adcReg, toInt_pad, ← h.half s, toInt_low14_iff]
  refine ⟨filter_dataO s t, fun hu => hstored.mp hu.1, fun hr => ⟨hstored.mpr hr, ?_⟩⟩
  intro hstate hready
  rw [sent_eq s hstate hready, Nat.add_sub_cancel]
  exact hstored.mpr hr

/-- A step from the lowest to the highest sample on channel a, with levels that nothing
reaches. -/
def ChainInput.edge (t : Nat) : ChainInput where
  adc := fun s => if s = .a then (if t = 0 then -8192 else 8191) else 0
  adcTvalid := true
  ports := { Input.quiet 1 t with a := ⟨8191, 8191, 1⟩ }

/-- The step has pulled the baseline to -1 when the highest sample meets it. -/
theorem edge_stored : Stored .smallest ChainInput.edge 6 8 :=
  ⟨by decide, by decide +kernel, fun v hv hlt => absurd hlt (by omega), by decide +kernel⟩

theorem edge_overflows :
    Stored .smallest ChainInput.edge 6 8 ∧ removed ChainInput.edge .a 6 = 8192 ∧
      (((chain .smallest).run ChainInput.edge 9).trigger.chan .a).adcReg.toInt = -8192 ∧
      ¬ Unchanged .smallest ChainInput.edge .a 6 8 := by
  have hremoved : removed ChainInput.edge .a 6 = 8192 := by decide +kernel
  have hadc : (((chain .smallest).run ChainInput.edge 9).trigger.chan .a).adcReg.toInt
      = -8192 := by decide +kernel
  refine ⟨edge_stored, hremoved, hadc, ?_⟩
  rintro ⟨h, -⟩
  rw [hadc, hremoved] at h
  exact absurd h (by decide)

theorem stored_iff_edge :
    Stored .smallest ChainInput.edge 6 8 ∧ Unchanged .smallest ChainInput.edge .b 6 8 :=
  ⟨edge_stored, (stored_iff .smallest ChainInput.edge .b edge_stored).2.mpr
    (by decide +kernel)⟩

end RpEcosystem.DcRemoval
