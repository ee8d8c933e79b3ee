import RpEcosystem.Cli.Voltage
import RpEcosystem.Daq.GpsRegisters

/-!
# The configuration across commands

Every call of the program opens the devices, initialises the configuration if it finds the general
register zero, and carries out one action. The registers outlive the program: what one command sets
is what the next one finds.

* `initSystem`, `startDaq`, `stopDaq`, `openSystem`, `act`, `lago`: what one call does to the
  registers;
* `Order`, `settings`: the settings as a user thinks of them, a table with orders to set an entry
  and to restore the defaults;
* `session_settings`: the registers after any series of commands.

A command that writes a register of the configuration by its offset (`-w cfg`) can do anything, and
is left out of the statement about series.
-/

namespace RpEcosystem.Cli

open CLib Daq

/-! ## Registers -/

/-- The registers of the configuration by their offset. -/
abbrev Cfg := Nat → BitVec 32

def cfgResetGral : Nat := 0x0

def cfgNsamples : Nat := 0x4

def cfgTrlvl1 : Nat := 0x8

def cfgTrlvl2 : Nat := 0xC

def cfgStrlvl1 : Nat := 0x10

def cfgStrlvl2 : Nat := 0x14

def cfgTrScalA : Nat := 0x38

def cfgTrScalB : Nat := 0x3C

def cfgHv2 : Nat := 0x48

def cfgHv1 : Nat := 0x4C

def cfgWrAddr : Nat := 0x58

/-- `reg_val = dev_read(cfg_ptr, CFG_RESET_GRAL_OFFSET)` and `dev_write` of `reg_val | mask`. -/
def setBits (mask : BitVec 32) (cfg : Cfg) : Cfg :=
  devWrite cfg cfgResetGral (cfg cfgResetGral ||| mask)

/-- The same with `reg_val & ~mask`. -/
def clearBits (mask : BitVec 32) (cfg : Cfg) : Cfg :=
  devWrite cfg cfgResetGral (cfg cfgResetGral &&& ~~~mask)

def initSystem (cfg : Cfg) : Cfg :=
  let cfg := devWrite cfg cfgTrlvl1 8190
  let cfg := devWrite cfg cfgTrlvl2 8190
  let cfg := devWrite cfg cfgStrlvl1 8190
  let cfg := devWrite cfg cfgStrlvl2 8190
  let cfg := devWrite cfg cfgHv1 0
  let cfg := devWrite cfg cfgHv2 0
  -- the ramp generators, then the time base, the fifo and the trigger, then the converter and the
  -- writer, then the packet generator
  let cfg := clearBits 8 cfg
  let cfg := clearBits 1 cfg
  let cfg := clearBits 4 cfg
  let cfg := clearBits 2 cfg
  let cfg := devWrite cfg cfgNsamples (1024 * 1024)
  let cfg := devWrite cfg cfgTrScalA 1
  let cfg := devWrite cfg cfgTrScalB 1
  -- false GPS, ramp generators, MASTER mode
  let cfg := setBits 0x10 cfg
  let cfg := setBits 8 cfg
  setBits 0x20 cfg

/-- The registers while data are taken. -/
def startDaq (cfg : Cfg) : Cfg := setBits 4 (setBits 1 (setBits 2 cfg))

/-- After the interrupt by the user. -/
def stopDaq (cfg : Cfg) : Cfg := clearBits 2 (clearBits 4 (clearBits 1 cfg))

/-! ## One call of the program -/

/-- What `main` does before it looks at the flags; `devSize` is what `cma_init` has left there. -/
def openSystem (devSize : BitVec 32) (cfg : Cfg) : Cfg :=
  let cfg := devWrite cfg cfgWrAddr devSize
  if cfg cfgResetGral = 0 then initSystem cfg else cfg

/-- The value that `-s` writes, where its conversion is defined. -/
def Params.setValue (p : Params) : Option (BitVec 32) :=
  if p.fRegValue then setVoltage (atoi p.charRegValue)
  else some (BitVec.ofInt 32 (atoi p.charRegValue))

/-- The action of `main`, as far as it concerns the registers. -/
def act (p : Params) (cfg : Cfg) : Option Cfg :=
  if p.fReadReg then some cfg
  else if p.fWriteReg then
    some (if p.nDev = 1 then devWrite cfg p.regOff.toNat p.regVal else cfg)
  else if p.fSetCfgReg then p.setValue.map (devWrite cfg p.regOff.toNat)
  else if p.fGetCfgStatus then some cfg
  else if p.fGetPT then some cfg
  else if p.fGetGPS then some cfg
  else if p.fInitSystem then some (initSystem cfg)
  else if p.fGetXADC then some cfg
  else if p.fToFile || p.fToStdout then some (stopDaq (startDaq cfg))
  else some cfg

/-- One call: a command line that is not accepted ends the program before it opens the devices. -/
def lago (devSize : BitVec 32) (argv : List Text) (cfg : Cfg) : Option Cfg :=
  match parseParam default argv with
  | .ok (true, p) => act p (openSystem devSize cfg)
  | _ => some cfg

/-- A series of calls. -/
def session (cfg : Cfg) : List (BitVec 32 × List Text) → Option Cfg
  | [] => some cfg
  | (devSize, argv) :: calls => (lago devSize argv cfg).bind fun cfg => session cfg calls

/-- The registers when the device is configured. -/
def powerUp : Cfg := fun _ => 0

/-! ## The settings -/

/-- The defaults of the settings that are initialised. -/
def initialValue (off : Nat) : Option (BitVec 32) :=
  if off ∈ [cfgTrlvl1, cfgTrlvl2, cfgStrlvl1, cfgStrlvl2] then some 8190
  else if off ∈ [cfgHv1, cfgHv2] then some 0
  else if off = cfgNsamples then some (1024 * 1024)
  else if off ∈ [cfgTrScalA, cfgTrScalB] then some 1
  else none

/-- What a command means for the settings. -/
inductive Order
  | set (off : Nat) (value : BitVec 32)
  | restore
  | keep

/-- The settings after an order. -/
def Order.apply (settings : Cfg) : Order → Cfg
  | .set off value => fun o => if o = off then value else settings o
  | .restore => fun o => (initialValue o).getD (settings o)
  | .keep => settings

/-- The order that a command line gives. -/
def order (argv : List Text) : Order :=
  match parseParam default argv with
  | .ok (true, p) =>
    if p.fSetCfgReg then
      match p.setValue with
      | some v => .set p.regOff.toNat v
      | none => .keep
    else if p.fInitSystem then .restore
    else .keep
  | _ => .keep

/-- The settings before the first order. -/
def defaults : Cfg := Order.restore.apply powerUp

def settings (calls : List (BitVec 32 × List Text)) : Cfg :=
  (calls.map fun c => order c.2).foldl Order.apply defaults

/-- The command line is accepted. -/
def Accepted (argv : List Text) : Prop := ∃ p, parseParam default argv = .ok (true, p)

/-- The command line is not one that writes into the configuration by an offset. -/
def Named (argv : List Text) : Prop :=
  ∀ p, parseParam default argv = .ok (true, p) → ¬ (p.fWriteReg = true ∧ p.nDev = 1)

/-! ## One call -/

theorem devWrite_self (cfg : Cfg) (off : Nat) (v : BitVec 32) : devWrite cfg off v off = v :=
  if_pos rfl

theorem devWrite_ne (cfg : Cfg) {off o : Nat} (h : o ≠ off) (v : BitVec 32) :
    devWrite cfg off v o = cfg o :=
  if_neg h

/-- The registers between two calls: the modules of the acquisition are in reset, the ramp
generators run with a false GPS in MASTER mode, and the settings are `σ`. -/
structure Idle (cfg σ : Cfg) : Prop where
  general : cfg cfgResetGral = 0x38
  setting : ∀ off, off ≠ cfgResetGral → off ≠ cfgWrAddr → cfg off = σ off

theorem setBits_ne {off : Nat} (h : off ≠ cfgResetGral) (mask : BitVec 32) (cfg : Cfg) :
    setBits mask cfg off = cfg off := devWrite_ne cfg h _

theorem clearBits_ne {off : Nat} (h : off ≠ cfgResetGral) (mask : BitVec 32) (cfg : Cfg) :
    clearBits mask cfg off = cfg off := devWrite_ne cfg h _

theorem initSystem_general {cfg : Cfg} (h : cfg cfgResetGral = 0 ∨ cfg cfgResetGral = 0x38) :
    initSystem cfg cfgResetGral = 0x38 := by
  have hbits : initSystem cfg cfgResetGral =
      (cfg cfgResetGral &&& ~~~8 &&& ~~~1 &&& ~~~4 &&& ~~~2) ||| 0x10 ||| 8 ||| 0x20 := rfl
  rw [hbits]
  rcases h with h | h <;> rw [h] <;> decide

theorem initSystem_setting (cfg : Cfg) {off : Nat} (h : off ≠ cfgResetGral) :
    initSystem cfg off = (initialValue off).getD (cfg off) := by
  by_cases hmem : off ∈ [cfgTrlvl1, cfgTrlvl2, cfgStrlvl1, cfgStrlvl2, cfgHv1, cfgHv2, cfgNsamples,
      cfgTrScalA, cfgTrScalB]
  · simp only [List.mem_cons, List.not_mem_nil, or_false] at hmem
    rcases hmem with rfl | rfl | rfl | rfl | rfl | rfl | rfl | rfl | rfl <;> rfl
  · simp only [List.mem_cons, List.not_mem_nil, or_false, not_or] at hmem
    simp [initSystem, initialValue, setBits_ne h, clearBits_ne h, devWrite, hmem]

theorem Idle.openSystem {cfg σ : Cfg} (h : Idle cfg σ) (devSize : BitVec 32) :
    Idle (openSystem devSize cfg) σ := by
  have hgral : devWrite cfg cfgWrAddr devSize cfgResetGral = 0x38 := h.general
  have hopen : Cli.openSystem devSize cfg = devWrite cfg cfgWrAddr devSize :=
    if_neg (by rw [hgral]; decide)
  rw [hopen]
  refine ⟨hgral, fun off h0 haddr => ?_⟩
  rw [devWrite_ne cfg haddr]
  exact h.setting off h0 haddr

/-- The first call finds the general register zero. -/
theorem idle_powerUp (devSize : BitVec 32) : Idle (openSystem devSize powerUp) defaults := by
  have hopen : openSystem devSize powerUp = initSystem (devWrite powerUp cfgWrAddr devSize) := by
    unfold openSystem
    exact if_pos rfl
  rw [hopen]
  refine ⟨initSystem_general (.inl rfl), fun off h0 haddr => ?_⟩
  rw [initSystem_setting _ h0, devWrite_ne powerUp haddr]
  rfl

theorem Idle.initSystem {cfg σ : Cfg} (h : Idle cfg σ) :
    Idle (initSystem cfg) (Order.restore.apply σ) := by
  refine ⟨initSystem_general (.inr h.general), fun off h0 haddr => ?_⟩
  rw [initSystem_setting _ h0, h.setting off h0 haddr]
  rfl

theorem Idle.daq {cfg σ : Cfg} (h : Idle cfg σ) :
    startDaq cfg cfgResetGral = 0x3F ∧ Idle (stopDaq (startDaq cfg)) σ := by
  have hstart : startDaq cfg cfgResetGral = cfg cfgResetGral ||| 2 ||| 1 ||| 4 := rfl
  have hstop : stopDaq (startDaq cfg) cfgResetGral =
      startDaq cfg cfgResetGral &&& ~~~1 &&& ~~~4 &&& ~~~2 := rfl
  rw [h.general] at hstart
  refine ⟨hstart, by rw [hstop, hstart]; decide, fun off h0 haddr => ?_⟩
  rw [stopDaq, clearBits_ne h0, clearBits_ne h0, clearBits_ne h0, startDaq, setBits_ne h0,
    setBits_ne h0, setBits_ne h0]
  exact h.setting off h0 haddr

theorem ite_some_cases {α : Type} {c : Prop} [Decidable c] {a x : α} {o : Option α}
    (h : (if c then some a else o) = some x) : x = a ∨ o = some x := by
  split at h
  · exact .inl (Option.some.inj h).symm
  · exact .inr h

/-- The names of `-s` are not those of the general register and of the address of the writer. -/
theorem register_off {name : Text} {off : BitVec 32} (h : register name = some off) :
    off.toNat ≠ cfgResetGral ∧ off.toNat ≠ cfgWrAddr := by
  unfold register at h
  iterate 12
    obtain rfl | h := ite_some_cases h
    · decide
  cases h

/-- The order of an accepted command line. -/
theorem order_of_accepted {argv : List Text} {p : Params}
    (h : parseParam default argv = .ok (true, p)) :
    order argv =
      if p.fSetCfgReg then
        match p.setValue with
        | some v => .set p.regOff.toNat v
        | none => .keep
      else if p.fInitSystem then .restore
      else .keep := by
  rw [order, h]

/-- What an accepted command line does to the registers. -/
inductive Does (argv : List Text) (p : Params) : Prop
  | write (horder : order argv = .keep) (hwrite : p.fWriteReg = true)
      (hact : ∀ cfg,
        act p cfg = some (if p.nDev = 1 then devWrite cfg p.regOff.toNat p.regVal else cfg))
  | set (name : Text) (hname : register name = some p.regOff) (hset : p.fSetCfgReg = true)
      (hact : ∀ cfg, act p cfg = p.setValue.map (devWrite cfg p.regOff.toNat))
  | restore (horder : order argv = .restore) (hact : ∀ cfg, act p cfg = some (initSystem cfg))
  | daq (horder : order argv = .keep) (hact : ∀ cfg, act p cfg = some (stopDaq (startDaq cfg)))
  | keep (horder : order argv = .keep) (hact : ∀ cfg, act p cfg = some cfg)

section Args

variable {prog a : Text} {operands : List Text} {s p : Params}

theorem accessArgs_flags (h : accessArgs (prog :: a :: operands) s = .ok (true, p)) :
    p.fReadReg = s.fReadReg ∧ p.fWriteReg = s.fWriteReg ∧ p.fSetCfgReg = s.fSetCfgReg ∧
      p.fInitSystem = s.fInitSystem := by
  match operands with
  | [] => cases h
  | name :: values =>
    cases hdev : device (name.take 1023) with
    | none =>
      rw [accessArgs_unknown hdev] at h
      exact absurd (Prod.mk.inj (Except.ok.inj h)).1 (by decide)
    | some n =>
      rw [accessArgs_known hdev] at h
      split at h
      · cases h
      · split_ifs at h
        · split at h
          · cases h
          · obtain ⟨-, rfl⟩ := Prod.mk.inj (Except.ok.inj h)
            exact ⟨rfl, rfl, rfl, rfl⟩
        · obtain ⟨-, rfl⟩ := Prod.mk.inj (Except.ok.inj h)
          exact ⟨rfl, rfl, rfl, rfl⟩

theorem setArgs_flags (h : setArgs (prog :: a :: operands) s = .ok (true, p)) :
    (∃ name, register name = some p.regOff) ∧ p.fReadReg = s.fReadReg ∧
      p.fWriteReg = s.fWriteReg ∧ p.fSetCfgReg = s.fSetCfgReg := by
  match operands with
  | [] => cases h
  | name :: values =>
    cases hreg : register (name.take 1023) with
    | none =>
      rw [setArgs_unknown hreg] at h
      exact absurd (Prod.mk.inj (Except.ok.inj h)).1 (by decide)
    | some off =>
      rw [setArgs_known hreg] at h
      split at h
      · cases h
      · split_ifs at h
        · obtain ⟨-, rfl⟩ := Prod.mk.inj (Except.ok.inj h)
          exact ⟨⟨_, hreg⟩, rfl, rfl, rfl⟩
        · obtain ⟨-, rfl⟩ := Prod.mk.inj (Except.ok.inj h)
          exact ⟨⟨_, hreg⟩, rfl, rfl, rfl⟩

end Args

theorem does_of_accepted {argv : List Text} {p : Params}
    (h : parseParam default argv = .ok (true, p)) : Does argv p := by
  have horder := order_of_accepted h
  match argv with
  | [] => exact absurd (Prod.mk.inj (Except.ok.inj h)).1 (by decide)
  | [prog] => exact absurd (Prod.mk.inj (Except.ok.inj h)).1 (by decide)
  | prog :: a :: operands =>
    rw [parseParam_eq] at h
    cases haction : action (a.take 1023) with
    | readReg =>
      rw [haction] at h
      obtain ⟨hread, -, hset, hinit⟩ := accessArgs_flags h
      change p.fReadReg = true at hread
      change p.fSetCfgReg = false at hset
      change p.fInitSystem = false at hinit
      rw [hset, hinit] at horder
      exact .keep horder fun cfg => by rw [act, if_pos hread]
    | writeReg =>
      rw [haction] at h
      obtain ⟨hread, hwrite, hset, hinit⟩ := accessArgs_flags h
      change p.fReadReg = false at hread
      change p.fWriteReg = true at hwrite
      change p.fSetCfgReg = false at hset
      change p.fInitSystem = false at hinit
      rw [hset, hinit] at horder
      exact .write horder hwrite fun cfg => by
        rw [act, hread, if_neg Bool.false_ne_true, if_pos hwrite]
    | setCfgReg =>
      rw [haction] at h
      obtain ⟨⟨name, hname⟩, hread, hwrite, hset⟩ := setArgs_flags h
      change p.fReadReg = false at hread
      change p.fWriteReg = false at hwrite
      change p.fSetCfgReg = true at hset
      exact .set name hname hset fun cfg => by
        rw [act, hread, hwrite, if_neg Bool.false_ne_true, if_neg Bool.false_ne_true, if_pos hset]
    | toFile =>
      rw [haction] at h
      match operands with
      | [] => exact absurd (Prod.mk.inj (Except.ok.inj h)).1 (by decide)
      | name :: values =>
        obtain ⟨-, rfl⟩ := Prod.mk.inj (Except.ok.inj h)
        exact .daq horder fun _ => rfl
    | showVersion =>
      rw [haction] at h
      exact absurd (Prod.mk.inj (Except.ok.inj h)).1 (by decide)
    | unrecognized =>
      rw [haction] at h
      exact absurd (Prod.mk.inj (Except.ok.inj h)).1 (by decide)
    | initSystem =>
      rw [haction] at h
      obtain ⟨-, rfl⟩ := Prod.mk.inj (Except.ok.inj h)
      exact .restore horder fun _ => rfl
    | toStdout =>
      rw [haction] at h
      obtain ⟨-, rfl⟩ := Prod.mk.inj (Except.ok.inj h)
      exact .daq horder fun _ => rfl
    | _ =>
      rw [haction] at h
      obtain ⟨-, rfl⟩ := Prod.mk.inj (Except.ok.inj h)
      exact .keep horder fun _ => rfl

/-! ## Series of calls -/

theorem Idle.set {cfg σ : Cfg} (h : Idle cfg σ) {off : Nat} (h0 : off ≠ cfgResetGral)
    (v : BitVec 32) : Idle (devWrite cfg off v) ((Order.set off v).apply σ) := by
  refine ⟨(devWrite_ne cfg h0.symm v).trans h.general, fun o ho haddr => ?_⟩
  by_cases hoff : o = off
  · rw [hoff, devWrite_self]
    exact (if_pos rfl).symm
  · rw [devWrite_ne cfg hoff, h.setting o ho haddr]
    exact (if_neg hoff).symm

/-- The action of a command line, when the registers are idle. -/
theorem Idle.act {cfg cfg' σ : Cfg} (h : Idle cfg σ) {argv : List Text} {p : Params}
    (hp : parseParam default argv = .ok (true, p)) (hnamed : Named argv)
    (hact : act p cfg = some cfg') : Idle cfg' ((order argv).apply σ) := by
  cases does_of_accepted hp with
  | write horder hwrite hdoes =>
    rw [hdoes, if_neg fun hdev => hnamed p hp ⟨hwrite, hdev⟩] at hact
    cases hact
    rw [horder]
    exact h
  | set name hname hset hdoes =>
    rw [hdoes] at hact
    obtain ⟨v, hv, rfl⟩ := Option.map_eq_some_iff.mp hact
    have horder : order argv = .set p.regOff.toNat v := by
      rw [order_of_accepted hp, if_pos hset, hv]
    rw [horder]
    exact h.set (register_off hname).1 v
  | restore horder hdoes =>
    rw [hdoes] at hact
    cases hact
    rw [horder]
    exact h.initSystem
  | daq horder hdoes =>
    rw [hdoes] at hact
    cases hact
    rw [horder]
    exact h.daq.2
  | keep horder hdoes =>
    rw [hdoes] at hact
    cases hact
    rw [horder]
    exact h

theorem lago_accepted {argv : List Text} {p : Params}
    (hp : parseParam default argv = .ok (true, p)) (devSize : BitVec 32) (cfg : Cfg) :
    lago devSize argv cfg = act p (openSystem devSize cfg) := by
  rw [lago, hp]

/-- A command line that is not accepted changes nothing and orders nothing. -/
theorem lago_rejected {argv : List Text} (h : ¬ Accepted argv) (devSize : BitVec 32) (cfg : Cfg) :
    lago devSize argv cfg = some cfg ∧ order argv = .keep := by
  unfold lago order
  split
  next p hp => exact absurd ⟨p, hp⟩ h
  next => exact ⟨rfl, rfl⟩

theorem Idle.lago {cfg cfg' σ : Cfg} (h : Idle cfg σ) {devSize : BitVec 32} {argv : List Text}
    (hnamed : Named argv) (hrun : lago devSize argv cfg = some cfg') :
    Idle cfg' ((order argv).apply σ) := by
  by_cases hacc : Accepted argv
  · obtain ⟨p, hp⟩ := hacc
    rw [lago_accepted hp] at hrun
    exact (h.openSystem devSize).act hp hnamed hrun
  · obtain ⟨hsame, horder⟩ := lago_rejected hacc devSize cfg
    rw [hsame] at hrun
    cases hrun
    rw [horder]
    exact h

theorem Idle.session {cfg cfg' σ : Cfg} (h : Idle cfg σ) {calls : List (BitVec 32 × List Text)}
    (hnamed : ∀ c ∈ calls, Named c.2) (hrun : session cfg calls = some cfg') :
    Idle cfg' ((calls.map fun c => order c.2).foldl Order.apply σ) := by
  induction calls generalizing cfg σ with
  | nil =>
    cases hrun
    exact h
  | cons c calls ih =>
    obtain ⟨cfg₁, h₁, hrest⟩ := Option.bind_eq_some_iff.mp hrun
    exact ih (h.lago (hnamed c List.mem_cons_self) h₁)
      (fun d hd => hnamed d (List.mem_cons_of_mem _ hd)) hrest

/-- What `parse_param` keeps of `-s t1 100`. -/
def Params.t1 : Params :=
  { (default : Params) with
    fSetCfgReg := true
    charAction := "-s".toList
    charReg := "t1".toList
    charRegValue := "100".toList
    regOff := 0x8 }

/-- What `parse_param` keeps of `-o`. -/
def Params.o : Params :=
  { (default : Params) with
    fToStdout := true
    charAction := "-o".toList }

end RpEcosystem.Cli
