import RpEcosystem.CLib.Text
import Mathlib.Order.Basic

/-!
# The command line

`parse_param` copies the operands of an action out of `argv` and sets the flags that `main` acts
on. Only the file name of `-f` is tested before it is used. The operands of `-r`, `-w` and `-s`
are handed to `StrcpyS` and `strtoul` in any case, after a look at the name before them.

* `parseParam`: the function, with the operand that is missing as its failure;
* `Sound`: no missing operand is used, and what is accepted is one action with its operands;
* `total_iff`: the command lines for which this holds.
-/

namespace RpEcosystem.Cli

open CLib

/-! ## The globals -/

/-- The globals that `parse_param` writes. -/
structure Params where
  fReadReg : Bool
  fWriteReg : Bool
  fGetCfgStatus : Bool
  fSetCfgReg : Bool
  fToFile : Bool
  fToStdout : Bool
  fGetPT : Bool
  fGetGPS : Bool
  fFile : Bool
  fCount : Bool
  fByte : Bool
  fData : Bool
  fRegValue : Bool
  fGetXADC : Bool
  fInitSystem : Bool
  fshowversion : Bool
  charAction : Text
  charReg : Text
  scRegister : Text
  charRegValue : Text
  charFile : Text
  charCount : Text
  scByte : Text
  nDev : Nat
  regOff : BitVec 32
  regVal : BitVec 32
  deriving DecidableEq, Inhabited

/-- The flags that are cleared first; `fInitSystem` and `fshowversion` are not among them. -/
def Params.clear (s : Params) : Params :=
  { s with
    fReadReg := false
    fWriteReg := false
    fGetCfgStatus := false
    fSetCfgReg := false
    fToFile := false
    fToStdout := false
    fGetPT := false
    fGetGPS := false
    fFile := false
    fCount := false
    fByte := false
    fData := false
    fRegValue := false
    fGetXADC := false }

/-- Why `parse_param` does not return. -/
inductive Failure
  /-- `argv[i]` with `i >= argc` is handed to a function of the library -/
  | missing (i : Nat)
  | exit (status : Nat)
  deriving DecidableEq

def maxchrlen : Nat := 1024

def maxfilenamelen : Nat := 255

/-- `StrcpyS(szDst, cchDst, szSrc)` -/
def strcpyS (szDst : Text) (cchDst : Nat) (szSrc : Text) : Text :=
  if 0 < cchDst then szSrc.take (cchDst - 1) else szDst

/-- An operand that is used without a test. -/
def operand (argv : List Text) (i : Nat) : Except Failure Text :=
  match argv[i]? with
  | some a => .ok a
  | none => .error (.missing i)

/-! ## Actions, devices and registers -/

inductive Action
  | readReg
  | writeReg
  | getCfgStatus
  | showVersion
  | setCfgReg
  | toFile
  | toStdout
  | getPT
  | getGPS
  | initSystem
  | getXADC
  | unrecognized
  deriving DecidableEq

def action (charAction : Text) : Action :=
  if charAction = "-r".toList then .readReg
  else if charAction = "-w".toList then .writeReg
  else if charAction = "-a".toList then .getCfgStatus
  else if charAction = "-v".toList then .showVersion
  else if charAction = "-s".toList then .setCfgReg
  else if charAction = "-f".toList then .toFile
  else if charAction = "-o".toList then .toStdout
  else if charAction = "-t".toList then .getPT
  else if charAction = "-g".toList then .getGPS
  else if charAction = "-i".toList then .initSystem
  else if charAction = "-x".toList then .getXADC
  else .unrecognized

/-- The flag of an action, and the value with which `parse_param` returns at once. -/
def chooseAction (s : Params) : Action → Params × Option Bool
  | .readReg => ({ s with fReadReg := true }, none)
  | .writeReg => ({ s with fWriteReg := true }, none)
  | .getCfgStatus => ({ s with fGetCfgStatus := true }, some true)
  | .showVersion => ({ s with fshowversion := true }, some false)
  | .setCfgReg => ({ s with fSetCfgReg := true }, none)
  | .toFile => ({ s with fToFile := true }, none)
  | .toStdout => ({ s with fToStdout := true }, some true)
  | .getPT => ({ s with fGetPT := true }, some true)
  | .getGPS => ({ s with fGetGPS := true }, some true)
  | .initSystem => ({ s with fInitSystem := true }, some true)
  | .getXADC => ({ s with fGetXADC := true }, some true)
  | .unrecognized => (s, some false)

/-- The number of a device, `n_dev`. -/
def device (charReg : Text) : Option Nat :=
  if charReg = "intc".toList then some 0
  else if charReg = "cfg".toList then some 1
  else if charReg = "sts".toList then some 2
  else if charReg = "xadc".toList then some 3
  else none

/-- The offset of a register. -/
def register (charReg : Text) : Option (BitVec 32) :=
  if charReg = "t1".toList then some 0x8
  else if charReg = "t2".toList then some 0xC
  else if charReg = "st1".toList then some 0x10
  else if charReg = "st2".toList then some 0x14
  else if charReg = "hv1".toList then some 0x4C
  else if charReg = "hv2".toList then some 0x48
  else if charReg = "ov1".toList then some 0x4C
  else if charReg = "ov2".toList then some 0x48
  else if charReg = "ov3".toList then some 0x40
  else if charReg = "ov4".toList then some 0x44
  else if charReg = "sc1".toList then some 0x38
  else if charReg = "sc2".toList then some 0x3C
  else none

/-- `strncmp(charReg, "hv", 2) == 0 || strncmp(charReg, "ov", 2) == 0` -/
def isVoltage (charReg : Text) : Bool :=
  charReg.take 2 = "hv".toList || charReg.take 2 = "ov".toList

/-! ## The operands of the actions -/

/-- `-r` and `-w`. -/
def accessArgs (argv : List Text) (s : Params) : Except Failure (Bool × Params) := do
  let a ← operand argv 2
  let s := { s with charReg := strcpyS s.charReg maxchrlen a }
  match device s.charReg with
  | none => return (false, s)
  | some n =>
    let s := { s with nDev := n }
    let off ← operand argv 3
    let s := { s with regOff := strtoul 16 off }
    if s.fWriteReg then
      let val ← operand argv 4
      return (true, { s with regVal := strtoul 16 val })
    else return (true, s)

/-- `-s`. -/
def setArgs (argv : List Text) (s : Params) : Except Failure (Bool × Params) := do
  let a ← operand argv 2
  let s := { s with charReg := strcpyS s.charReg maxchrlen a }
  match register s.charReg with
  | none => return (false, s)
  | some off =>
    let s := { s with regOff := off }
    let v ← operand argv 3
    let s := { s with charRegValue := strcpyS s.charRegValue 16 v }
    if isVoltage s.charReg then
      if 2500 < atoi s.charRegValue then .error (.exit 1)
      else return (true, { s with fRegValue := true })
    else return (true, s)

/-- `-f`. -/
def fileArgs (argv : List Text) (s : Params) : Bool × Params :=
  match argv[2]? with
  | some a => (true, { s with charFile := strcpyS s.charFile maxfilenamelen a, fFile := true })
  | none => (false, s)

/-- The loop over the options, and the checks after it. -/
def optionArgs : List Text → Params → Bool × Params
  | [], s => (!(s.fWriteReg && !s.fByte) && !(s.fToFile && !s.fFile), s)
  | [_], s => (false, s)
  | a :: v :: args, s =>
    if a = "-f".toList then
      optionArgs args { s with charFile := strcpyS s.charFile 16 v, fFile := true }
    else if a = "-c".toList then
      optionArgs args { s with charCount := strcpyS s.charCount 16 v, fCount := true }
    else if a = "-b".toList then
      optionArgs args { s with scByte := strcpyS s.scByte 16 v, fByte := true }
    else (false, s)

/-- The second part of `parse_param`, for the actions that take operands. -/
def actionArgs (argv : List Text) (s : Params) : Except Failure (Bool × Params) :=
  if s.fReadReg || s.fWriteReg then accessArgs argv s
  else if s.fSetCfgReg then setArgs argv s
  else if s.fToFile then return fileArgs argv s
  else do
    let r ← operand argv 2
    let s := { s with scRegister := strcpyS s.scRegister maxchrlen r }
    return optionArgs (argv.drop 3) s

/-- `parse_param`: the value it returns and the globals after it. -/
def parseParam (s : Params) (argv : List Text) : Except Failure (Bool × Params) :=
  let s := s.clear
  if argv.length < 2 then .ok (false, s)
  else do
    let a ← operand argv 1
    let s := { s with charAction := strcpyS s.charAction maxchrlen a }
    match chooseAction s (action s.charAction) with
    | (s, some v) => return (v, s)
    | (s, none) => actionArgs argv s

/-! ## What is asked of a command line -/

/-- The flags of which `main` takes the first that is set. -/
def Params.actions (p : Params) : List Bool :=
  [p.fReadReg, p.fWriteReg, p.fSetCfgReg, p.fGetCfgStatus, p.fGetPT, p.fGetGPS, p.fInitSystem,
    p.fGetXADC, p.fToFile, p.fToStdout]

/-- The length of `argv` that `main` relies on: the operands of the action are in front of it. -/
def Params.needs (p : Params) : Nat :=
  if p.fReadReg then 4
  else if p.fWriteReg then 5
  else if p.fSetCfgReg then 4
  else if p.fToFile then 3
  else 2

/-- No operand is used that is not there, and what is accepted is one action with its operands. -/
structure Sound (argc : Nat) (o : Except Failure (Bool × Params)) : Prop where
  present : ∀ i, o ≠ .error (.missing i)
  accepted : ∀ p, o = .ok (true, p) → p.actions.count true = 1 ∧ p.needs ≤ argc

/-- A name is there, and when `known` knows it so are `n` values after it. -/
def named (known : Text → Bool) (n : Nat) : List Text → Bool
  | [] => false
  | name :: values => !known (name.take 1023) || n ≤ values.length

/-- The operands after the program name are those that the action uses. -/
def complete : List Text → Bool
  | [] => true
  | a :: operands =>
    match action (a.take 1023) with
    | .readReg => named (fun r => (device r).isSome) 1 operands
    | .writeReg => named (fun r => (device r).isSome) 2 operands
    | .setCfgReg => named (fun r => (register r).isSome) 1 operands
    | _ => true

namespace Sound

variable {argc : Nat} {p : Params}

/-- Only the flags of the actions count. -/
theorem ok {s : Params} {n : Nat} (h : s.actions.count true = 1) (hneeds : s.needs = n)
    (hle : n ≤ argc) (hact : p.actions = s.actions) (hsame : p.needs = s.needs) (v : Bool) :
    Sound argc (.ok (v, p)) where
  present i hi := by cases hi
  accepted q hq := by
    obtain ⟨-, rfl⟩ := Prod.mk.inj (Except.ok.inj hq)
    rw [hact, hsame, hneeds]
    exact ⟨h, hle⟩

theorem rejected : Sound argc (.ok (false, p)) where
  present i hi := by cases hi
  accepted q hq := absurd (Prod.mk.inj (Except.ok.inj hq)).1 (by decide)

theorem exit (n : Nat) : Sound argc (.error (.exit n)) where
  present i hi := by cases hi
  accepted q hq := by cases hq

theorem not_missing (i : Nat) : ¬ Sound argc (.error (.missing i)) := fun h => h.present i rfl

end Sound

section Args

variable {prog a name : Text} {values : List Text} {s : Params}

theorem accessArgs_unknown (h : device (name.take 1023) = none) :
    accessArgs (prog :: a :: name :: values) s =
      .ok (false, { s with charReg := name.take 1023 }) := by
  unfold accessArgs
  simp only [operand, List.getElem?_cons_succ, List.getElem?_cons_zero]
  change (match device (name.take 1023) with | none => _ | some n => _) = _
  rw [h]
  rfl

theorem accessArgs_known {n : Nat} (h : device (name.take 1023) = some n) :
    accessArgs (prog :: a :: name :: values) s =
      match values with
      | [] => .error (.missing 3)
      | off :: values =>
        if s.fWriteReg then
          match values with
          | [] => .error (.missing 4)
          | val :: _ => .ok (true, { s with
              charReg := name.take 1023, nDev := n, regOff := strtoul 16 off,
              regVal := strtoul 16 val })
        else .ok (true, { s with
          charReg := name.take 1023, nDev := n, regOff := strtoul 16 off }) := by
  unfold accessArgs
  simp only [operand, List.getElem?_cons_succ, List.getElem?_cons_zero]
  change (match device (name.take 1023) with | none => _ | some n => _) = _
  rw [h]
  match values with
  | [] => rfl
  | [off] => rfl
  | off :: val :: rest => rfl

/-- `-r` and `-w`, with the flag of one of them. -/
theorem sound_accessArgs (operands : List Text) (hone : s.actions.count true = 1)
    (hneeds : s.needs = if s.fWriteReg then 5 else 4) :
    Sound (operands.length + 2) (accessArgs (prog :: a :: operands) s) ↔
      named (fun r => (device r).isSome) (if s.fWriteReg then 2 else 1) operands = true := by
  match operands with
  | [] => exact iff_of_false (Sound.not_missing 2) (by simp [named])
  | name :: values =>
    cases hdev : device (name.take 1023) with
    | none =>
      rw [accessArgs_unknown hdev]
      exact iff_of_true Sound.rejected (by simp [named, hdev])
    | some n =>
      rw [accessArgs_known hdev]
      match values with
      | [] => exact iff_of_false (Sound.not_missing 3) (by simp [named, hdev]; split <;> omega)
      | off :: values =>
        by_cases hw : s.fWriteReg = true
        · simp only [if_pos hw] at hneeds ⊢
          match values with
          | [] => exact iff_of_false (Sound.not_missing 4) (by simp [named, hdev])
          | val :: rest =>
            refine iff_of_true ?_ (by simp [named])
            have hlen : 5 ≤ (name :: off :: val :: rest).length + 2 := by
              simp only [List.length_cons]
              omega
            exact Sound.ok hone hneeds hlen (p := { s with
              charReg := name.take 1023, nDev := n, regOff := strtoul 16 off,
              regVal := strtoul 16 val }) rfl rfl true
        · simp only [if_neg hw] at hneeds ⊢
          refine iff_of_true ?_ (by simp [named])
          have hlen : 4 ≤ (name :: off :: values).length + 2 := by
            simp only [List.length_cons]
            omega
          refine Sound.ok hone hneeds hlen ?_ ?_ true
          · rfl
          · rfl

theorem accessArgs_accepts {operands : List Text} {p : Params}
    (h : accessArgs (prog :: a :: operands) s = .ok (true, p)) : device p.charReg ≠ none := by
  match operands with
  | [] => cases h
  | name :: values =>
    cases hdev : device (name.take 1023) with
    | none =>
      rw [accessArgs_unknown hdev] at h
      exact absurd (Prod.mk.inj (Except.ok.inj h)).1 (by decide)
    | some n =>
      have hreg : p.charReg = name.take 1023 := by
        rw [accessArgs_known hdev] at h
        split at h
        · cases h
        · split_ifs at h
          · split at h
            · cases h
            · obtain ⟨-, rfl⟩ := Prod.mk.inj (Except.ok.inj h)
              rfl
          · obtain ⟨-, rfl⟩ := Prod.mk.inj (Except.ok.inj h)
            rfl
      rw [hreg, hdev]
      exact Option.some_ne_none n

theorem setArgs_unknown (h : register (name.take 1023) = none) :
    setArgs (prog :: a :: name :: values) s =
      .ok (false, { s with charReg := name.take 1023 }) := by
  unfold setArgs
  simp only [operand, List.getElem?_cons_succ, List.getElem?_cons_zero]
  change (match register (name.take 1023) with | none => _ | some n => _) = _
  rw [h]
  rfl

theorem setArgs_known {off : BitVec 32} (h : register (name.take 1023) = some off) :
    setArgs (prog :: a :: name :: values) s =
      match values with
      | [] => .error (.missing 3)
      | v :: _ =>
        if isVoltage (name.take 1023) then
          if 2500 < atoi (v.take 15) then .error (.exit 1)
          else .ok (true, { s with
            charReg := name.take 1023, regOff := off, charRegValue := v.take 15,
            fRegValue := true })
        else .ok (true, { s with
          charReg := name.take 1023, regOff := off, charRegValue := v.take 15 }) := by
  unfold setArgs
  simp only [operand, List.getElem?_cons_succ, List.getElem?_cons_zero]
  change (match register (name.take 1023) with | none => _ | some n => _) = _
  rw [h]
  match values with
  | [] => rfl
  | v :: rest => rfl

theorem setArgs_accepts {operands : List Text} {p : Params}
    (h : setArgs (prog :: a :: operands) s = .ok (true, p)) (hvolt : isVoltage p.charReg = true) :
    atoi p.charRegValue ≤ 2500 := by
  match operands with
  | [] => cases h
  | name :: values =>
    cases hreg : register (name.take 1023) with
    | none =>
      rw [setArgs_unknown hreg] at h
      exact absurd (Prod.mk.inj (Except.ok.inj h)).1 (by decide)
    | some off =>
      rw [setArgs_known hreg] at h
      split at h
      · cases h
      · split_ifs at h with hname hmax
        · obtain ⟨-, rfl⟩ := Prod.mk.inj (Except.ok.inj h)
          exact Int.not_lt.mp hmax
        · obtain ⟨-, rfl⟩ := Prod.mk.inj (Except.ok.inj h)
          exact absurd hvolt hname

theorem sound_setArgs (operands : List Text) (hone : s.actions.count true = 1)
    (hneeds : s.needs = 4) :
    Sound (operands.length + 2) (setArgs (prog :: a :: operands) s) ↔
      named (fun r => (register r).isSome) 1 operands = true := by
  match operands with
  | [] => exact iff_of_false (Sound.not_missing 2) (by simp [named])
  | name :: values =>
    cases hreg : register (name.take 1023) with
    | none =>
      rw [setArgs_unknown hreg]
      exact iff_of_true Sound.rejected (by simp [named, hreg])
    | some off =>
      rw [setArgs_known hreg]
      match values with
      | [] => exact iff_of_false (Sound.not_missing 3) (by simp [named, hreg])
      | v :: values =>
        refine iff_of_true ?_ (by simp [named])
        have hlen : 4 ≤ (name :: v :: values).length + 2 := by
          simp only [List.length_cons]
          omega
        dsimp only
        split_ifs
        · exact Sound.exit 1
        · refine Sound.ok hone hneeds hlen ?_ ?_ true
          · rfl
          · rfl
        · refine Sound.ok hone hneeds hlen ?_ ?_ true
          · rfl
          · rfl

theorem sound_fileArgs (operands : List Text) (hone : s.actions.count true = 1)
    (hneeds : s.needs = 3) :
    Sound (operands.length + 2) (.ok (fileArgs (prog :: a :: operands) s)) := by
  match operands with
  | [] => exact Sound.rejected
  | name :: values =>
    have hlen : 3 ≤ (name :: values).length + 2 := by
      simp only [List.length_cons]
      omega
    refine Sound.ok hone hneeds hlen ?_ ?_ true
    · rfl
    · rfl

end Args

theorem parseParam_eq (prog a : Text) (operands : List Text) (s : Params) :
    parseParam s (prog :: a :: operands) =
      match chooseAction { s.clear with charAction := a.take 1023 } (action (a.take 1023)) with
      | (s, some v) => .ok (v, s)
      | (s, none) => actionArgs (prog :: a :: operands) s := by
  rw [parseParam, if_neg (by simp)]
  rfl

/-- The command lines that `parse_param` handles: an action with a name has it, and a known name
has its values. -/
theorem total_iff (prog : Text) (args : List Text) :
    Sound (args.length + 1) (parseParam default (prog :: args)) ↔ complete args = true := by
  match args with
  | [] => exact iff_of_true Sound.rejected rfl
  | a :: operands =>
    rw [parseParam_eq, complete]
    cases action (a.take 1023) with
    | readReg => exact sound_accessArgs operands rfl rfl
    | writeReg => exact sound_accessArgs operands rfl rfl
    | setCfgReg => exact sound_setArgs operands rfl rfl
    | toFile => exact iff_of_true (sound_fileArgs operands rfl rfl) rfl
    | showVersion => exact iff_of_true Sound.rejected rfl
    | unrecognized => exact iff_of_true Sound.rejected rfl
    | _ =>
      refine iff_of_true ?_ rfl
      exact Sound.ok (n := 2) rfl rfl (by simp) rfl rfl true

/-- A read without a device passes `argv[2]`, which is `NULL`, to `strncpy`. -/
theorem missing_device :
    parseParam default ["lago".toList, "-r".toList] = .error (.missing 2) ∧
      ¬ Sound 2 (parseParam default ["lago".toList, "-r".toList]) := by
  have hfails : parseParam default ["lago".toList, "-r".toList] = .error (.missing 2) := by
    decide +kernel
  refine ⟨hfails, ?_⟩
  rw [hfails]
  exact Sound.not_missing 2

end RpEcosystem.Cli
