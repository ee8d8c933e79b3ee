import RpEcosystem.Clocked.Stream
import RpEcosystem.Fifo.Ctrl

/-!
# The stream FIFO `axis_fifo`

A RAM with a port in each clock domain, addressed by `fifo_async_ctrl`. The handshake signals
`s_axis_tready` and `m_axis_tvalid` are registered copies of the flags, but the write and read
enables use the flags themselves, so a transfer and the matching access to the RAM may fall on
different edges:

* on `s_axis` a word may be stored before it is transferred (`early`);
* on `m_axis` a word is popped by the edge that loads it into the output register, if
  `m_axis_tready` is high there, and transferred by a later one (`Shown`).

`prefix_of_steady`: nothing is lost or repeated in the runs in which every word is stored once
and popped once (`Steady`), whatever the clocks do.
-/

namespace RpEcosystem.Fifo

open Clocked

/-! ## Constants -/

/-- The loop of `log2c`. -/
def log2cLoop (n m p : Nat) (hp : 0 < p) : Nat :=
  if p < n then log2cLoop n (m + 1) (p * 2) (by omega) else m
termination_by n - p

def log2c (n : Nat) : Nat := log2cLoop n 0 1 (by decide)

theorem le_log2cLoop (n m p : Nat) (hp : 0 < p) : m ≤ log2cLoop n m p hp := by
  fun_induction log2cLoop n m p hp with
  | case1 m p hp hlt ih => omega
  | case2 m p hp hge => exact le_rfl

theorem two_le_log2c {n : Nat} (h : 4 ≤ n) : 2 ≤ log2c n := by
  rw [log2c, log2cLoop, if_pos (by omega), log2cLoop, if_pos (by omega)]
  exact le_log2cLoop _ _ _ _

structure AxisGenerics where
  axisTdataWidth : Nat
  fifoDepth : Nat
  four_le : 4 ≤ fifoDepth

/-- `AWIDTH`, which is the `DEPTH` of the controller. -/
def AxisGenerics.ctrl (g : AxisGenerics) : Generics :=
  ⟨log2c g.fifoDepth, two_le_log2c g.four_le⟩

/-! ## The core -/

/-- An event: which clocks have an edge, and the input ports. When both have one, the two
processes of the RAM run in either order. -/
structure AxisEvent (g : AxisGenerics) where
  sAxisAclk : Bool
  mAxisAclk : Bool
  sAxisTvalid : Bool
  sAxisTdata : BitVec g.axisTdataWidth
  mAxisTready : Bool
  portAFirst : Bool

structure AxisRegs (g : AxisGenerics) where
  sTreadyReg : Bool
  mTvalidReg : Bool
  ram : BitVec g.ctrl.depth → BitVec g.axisTdataWidth
  dob : BitVec g.axisTdataWidth
  fifoCtrl : Ctrl g.ctrl

namespace AxisRegs

variable {g : AxisGenerics} (r : AxisRegs g) (e : AxisEvent g)

def fullS : Bool := r.fifoCtrl.fullFlag

def emptyS : Bool := r.fifoCtrl.emptyFlag

def weS : Bool := !r.fullS && e.sAxisTvalid

def rdS : Bool := !r.emptyS && e.mAxisTready

def toCtrl : Event := ⟨e.sAxisAclk, e.mAxisAclk, r.weS e, r.rdS e⟩

/-- The RAM after the process of port a. -/
def ramNext : BitVec g.ctrl.depth → BitVec g.axisTdataWidth :=
  if e.sAxisAclk && r.weS e then Function.update r.ram r.fifoCtrl.wAddr e.sAxisTdata else r.ram

end AxisRegs

variable {g : AxisGenerics}

def axisNext (e : AxisEvent g) (r : AxisRegs g) : AxisRegs g where
  sTreadyReg := if e.sAxisAclk then !r.fullS else r.sTreadyReg
  mTvalidReg := if e.mAxisAclk then !r.emptyS else r.mTvalidReg
  ram := r.ramNext e
  dob :=
    if e.mAxisAclk then (if e.portAFirst then r.ramNext e else r.ram) r.fifoCtrl.rAddr
    else r.dob
  fifoCtrl := next (r.toCtrl e) r.fifoCtrl

def axisMachine (g : AxisGenerics) : Machine (AxisEvent g) (AxisRegs g) where
  reset :=
    { sTreadyReg := false
      mTvalidReg := false
      ram := fun _ => 0
      dob := 0
      fifoCtrl := (machine g.ctrl).reset }
  next := axisNext

def axisRun (g : AxisGenerics) (x : Nat → AxisEvent g) (t : Nat) : AxisRegs g :=
  (axisMachine g).run x t

theorem axisRun_succ (x : Nat → AxisEvent g) (t : Nat) :
    axisRun g x (t + 1) = axisNext (x t) (axisRun g x t) := rfl

/-- The word transferred on `s_axis` by event `t`. -/
def taken (g : AxisGenerics) (x : Nat → AxisEvent g) (t : Nat) :
    Option (BitVec g.axisTdataWidth) :=
  if (x t).sAxisAclk && (x t).sAxisTvalid && (axisRun g x t).sTreadyReg then
    some (x t).sAxisTdata
  else none

/-- The word transferred on `m_axis` by event `t`. -/
def given (g : AxisGenerics) (x : Nat → AxisEvent g) (t : Nat) :
    Option (BitVec g.axisTdataWidth) :=
  if (x t).mAxisAclk && (axisRun g x t).mTvalidReg && (x t).mAxisTready then
    some (axisRun g x t).dob
  else none

/-! ## The controller in the core -/

/-- The requests that the core makes to its controller. -/
def requests (g : AxisGenerics) (x : Nat → AxisEvent g) (t : Nat) : Event :=
  (axisRun g x t).toCtrl (x t)

variable {x : Nat → AxisEvent g}

theorem fifoCtrl_eq (t : Nat) : (axisRun g x t).fifoCtrl = run g.ctrl (requests g x) t :=
  (machine g.ctrl).eq_run (fun t => (axisRun g x t).fifoCtrl) _ rfl (fun _ => rfl) t

theorem write_eq (t : Nat) : write g.ctrl (requests g x) t =
    ((x t).sAxisAclk && (axisRun g x t).weS (x t)) := by
  rw [write, ← fifoCtrl_eq]
  simp only [Ctrl.writes, requests, AxisRegs.toCtrl, AxisRegs.weS, AxisRegs.fullS]
  cases (axisRun g x t).fifoCtrl.fullFlag <;> simp

theorem read_eq (t : Nat) : read g.ctrl (requests g x) t =
    ((x t).mAxisAclk && (axisRun g x t).rdS (x t)) := by
  rw [read, ← fifoCtrl_eq]
  simp only [Ctrl.reads, requests, AxisRegs.toCtrl, AxisRegs.rdS, AxisRegs.emptyS]
  cases (axisRun g x t).fifoCtrl.emptyFlag <;> simp

/-- The words stored before event `t`. -/
def stored (g : AxisGenerics) (x : Nat → AxisEvent g) (t : Nat) : Nat :=
  writeCount g.ctrl (requests g x) t

/-- The words popped before event `t`. -/
def popped (g : AxisGenerics) (x : Nat → AxisEvent g) (t : Nat) : Nat :=
  readCount g.ctrl (requests g x) t

theorem stored_succ (t : Nat) : stored g x (t + 1) =
    stored g x t + if (x t).sAxisAclk && (axisRun g x t).weS (x t) then 1 else 0 := by
  rw [← write_eq]
  exact events_succ _ (Nat.zero_le t)

theorem popped_succ (t : Nat) : popped g x (t + 1) =
    popped g x t + if (x t).mAxisAclk && (axisRun g x t).rdS (x t) then 1 else 0 := by
  rw [← read_eq]
  exact events_succ _ (Nat.zero_le t)

/-- What the controller guarantees to the core. -/
theorem ctrl_tracks (t : Nat) : Tracks (axisRun g x t).fifoCtrl (stored g x t)
    (metaWrites g.ctrl (requests g x) t) (syncWrites g.ctrl (requests g x) t) (popped g x t)
    (metaReads g.ctrl (requests g x) t) (syncReads g.ctrl (requests g x) t) := by
  rw [fifoCtrl_eq]
  exact run_tracks g.ctrl (requests g x) t

theorem popped_le (t : Nat) : popped g x t ≤ stored g x t := by
  have hbehind := (ctrl_tracks (x := x) t).behind
  have hwrites := (ctrl_tracks (x := x) t).writes
  omega

theorem stored_le (t : Nat) : stored g x t ≤ popped g x t + 2 ^ g.ctrl.depth := by
  have hreads := (ctrl_tracks (x := x) t).reads
  have hroom := (ctrl_tracks (x := x) t).room
  omega

/-- The empty flag stays low until a word is popped. -/
theorem emptyS_stays {t : Nat} (hempty : (axisRun g x t).emptyS = false)
    (hpop : popped g x (t + 1) = popped g x t) : (axisRun g x (t + 1)).emptyS = false := by
  have hunread := (ctrl_tracks (x := x) t).unread hempty
  have hwrites := (ctrl_tracks (x := x) t).writes
  have hsync : syncWrites g.ctrl (requests g x) (t + 1) =
      if (x t).sAxisAclk then metaWrites g.ctrl (requests g x) t
      else syncWrites g.ctrl (requests g x) t := rfl
  by_contra hfalse
  have heq := (ctrl_tracks (x := x) (t + 1)).empty_iff.mp (by simpa [AxisRegs.emptyS] using hfalse)
  rw [hpop, hsync] at heq
  split at heq <;> omega

/-! ## The two handshakes -/

/-- The word offered on `s_axis` has been stored and not transferred: it was offered while
`s_tready_reg` was still low and the full flag no longer high. -/
def early (g : AxisGenerics) (x : Nat → AxisEvent g) : Nat → Bool
  | 0 => false
  | t + 1 =>
    if (x t).sAxisAclk && (x t).sAxisTvalid then
      !(axisRun g x t).sTreadyReg && (!(axisRun g x t).fullS || early g x t)
    else early g x t

/-- What the output register shows while `m_tvalid_reg` is high. -/
inductive Shown
  /-- a word that is still in the FIFO -/
  | fresh
  /-- a word that has been popped and not transferred -/
  | owed
  /-- a word that has been popped and transferred -/
  | stale
  deriving DecidableEq, Repr

/-- An edge pops the word that it loads; if that word was already shown, the edge transfers
it as well. -/
def shown (g : AxisGenerics) (x : Nat → AxisEvent g) : Nat → Shown
  | 0 => .fresh
  | t + 1 =>
    if (x t).mAxisAclk then
      if (axisRun g x t).rdS (x t) then
        if (axisRun g x t).mTvalidReg && shown g x t == .fresh then .stale else .owed
      else .fresh
    else shown g x t

/-- No handshake of a run loses or repeats a word:
* a word offered under a high `s_axis_tready` is stored, unless it has been stored before;
* a word that has been stored is not stored again when it is transferred;
* a word that has been popped is taken, unless it has been transferred before;
* a word that has been transferred is not taken again. -/
structure Steady (g : AxisGenerics) (x : Nat → AxisEvent g) : Prop where
  stores : ∀ t, (x t).sAxisAclk = true → (x t).sAxisTvalid = true →
    (axisRun g x t).sTreadyReg = true → early g x t = false → (axisRun g x t).fullS = false
  storesOnce : ∀ t, (x t).sAxisAclk = true → early g x t = true → (axisRun g x t).fullS = true
  takes : ∀ t, (x t).mAxisAclk = true → shown g x t = .owed → (x t).mAxisTready = true
  takesOnce : ∀ t, (x t).mAxisAclk = true → shown g x t = .stale → (x t).mAxisTready = false

/-- The master of `s_axis` keeps offering a word until it is transferred. -/
def HoldsOffer (g : AxisGenerics) (x : Nat → AxisEvent g) : Prop :=
  ∀ t, (x t).sAxisTvalid = true → taken g x t = none →
    (x (t + 1)).sAxisTvalid = true ∧ (x (t + 1)).sAxisTdata = (x t).sAxisTdata

/-- The words transferred on `s_axis` before event `t`. -/
def input (g : AxisGenerics) (x : Nat → AxisEvent g) (t : Nat) :
    List (BitVec g.axisTdataWidth) := transfers (taken g x) 0 t

/-- The words transferred on `m_axis` before event `t`. -/
def output (g : AxisGenerics) (x : Nat → AxisEvent g) (t : Nat) :
    List (BitVec g.axisTdataWidth) := transfers (given g x) 0 t

/-- The words stored before event `t`. -/
def kept (g : AxisGenerics) (x : Nat → AxisEvent g) (t : Nat) : List (BitVec g.axisTdataWidth) :=
  input g x t ++ if early g x t then [(x t).sAxisTdata] else []

theorem input_succ (t : Nat) : input g x (t + 1) = input g x t ++ (taken g x t).toList :=
  transfers_succ _ (Nat.zero_le t)

theorem output_succ (t : Nat) : output g x (t + 1) = output g x t ++ (given g x t).toList :=
  transfers_succ _ (Nat.zero_le t)

/-! ## The input side -/

section Input

variable (hhold : HoldsOffer g x)
include hhold

/-- A word stored early is still offered, `s_axis_tready` is high for it, and the read side
cannot know of it before the next edge of `s_axis_aclk`. -/
theorem early_facts (t : Nat) (h : early g x t = true) :
    (x t).sAxisTvalid = true ∧ (axisRun g x t).sTreadyReg = true ∧
      metaWrites g.ctrl (requests g x) t < stored g x t := by
  induction t with
  | zero => cases h
  | succ t ih =>
    have htready : (axisRun g x (t + 1)).sTreadyReg =
        if (x t).sAxisAclk then !(axisRun g x t).fullS else (axisRun g x t).sTreadyReg := rfl
    have hmeta : metaWrites g.ctrl (requests g x) (t + 1) = if (x t).sAxisAclk then stored g x t
        else metaWrites g.ctrl (requests g x) t := rfl
    rw [htready, hmeta, stored_succ]
    rw [early] at h
    cases hclk : (x t).sAxisAclk with
    | false =>
      simp only [hclk, Bool.false_and, Bool.false_eq_true, if_false] at h ⊢
      obtain ⟨hvalid, hready, hlt⟩ := ih h
      have hnone : taken g x t = none := by simp [taken, hclk]
      exact ⟨(hhold t hvalid hnone).1, hready, by omega⟩
    | true =>
      cases hvalid : (x t).sAxisTvalid with
      | false =>
        simp only [hclk, hvalid, Bool.and_false, Bool.false_eq_true, if_false] at h
        rw [(ih h).1] at hvalid
        cases hvalid
      | true =>
        simp only [hclk, hvalid, Bool.and_self, if_true, Bool.and_eq_true, Bool.or_eq_true,
          Bool.not_eq_true'] at h
        obtain ⟨hready, hroom⟩ := h
        have hnone : taken g x t = none := by simp [taken, hready]
        have hfull : (axisRun g x t).fullS = false := by
          refine hroom.resolve_right fun hearly => ?_
          rw [(ih hearly).2.1] at hready
          cases hready
        refine ⟨(hhold t hvalid hnone).1, by simp [hfull], ?_⟩
        simp [AxisRegs.weS, hfull, hvalid]

variable (h : Steady g x)
include h

/-- The words stored grow by what the RAM stores. -/
theorem kept_succ (t : Nat) : kept g x (t + 1) = kept g x t ++
    if (x t).sAxisAclk && (axisRun g x t).weS (x t) then [(x t).sAxisTdata] else [] := by
  rw [kept, kept, input_succ, early, AxisRegs.weS, taken]
  cases hclk : (x t).sAxisAclk with
  | false =>
    have hnone : taken g x t = none := by simp [taken, hclk]
    cases hearly : early g x t with
    | false => simp
    | true =>
      have hdata := (hhold t (early_facts hhold t hearly).1 hnone).2
      simp [hdata]
  | true =>
    cases hvalid : (x t).sAxisTvalid with
    | false =>
      have hearly : early g x t = false := by
        by_contra hearly
        rw [(early_facts hhold t (by simpa using hearly)).1] at hvalid
        cases hvalid
      simp [hearly]
    | true =>
      cases hready : (axisRun g x t).sTreadyReg with
      | true =>
        cases hearly : early g x t with
        | true => simp [h.storesOnce t hclk hearly]
        | false => simp [h.stores t hclk hvalid hready hearly]
      | false =>
        have hearly : early g x t = false := by
          by_contra hearly
          rw [(early_facts hhold t (by simpa using hearly)).2.1] at hready
          cases hready
        have hnone : taken g x t = none := by simp [taken, hready]
        have hdata := (hhold t hvalid hnone).2
        cases hfull : (axisRun g x t).fullS <;> simp [hearly, hdata]

theorem length_kept (t : Nat) : (kept g x t).length = stored g x t := by
  induction t with
  | zero => rfl
  | succ t ih =>
    rw [kept_succ hhold h, List.length_append, ih, stored_succ]
    split <;> rfl

/-- A word stored early has not been popped. -/
theorem popped_le_input (t : Nat) : popped g x t ≤ (input g x t).length := by
  have hlen := length_kept hhold h t
  rw [kept, List.length_append] at hlen
  have hbehind := (ctrl_tracks (x := x) t).behind
  have hwrites := (ctrl_tracks (x := x) t).writes
  cases hearly : early g x t with
  | false =>
    simp only [hearly, Bool.false_eq_true, if_false, List.length_nil] at hlen
    omega
  | true =>
    have hmeta := (early_facts hhold t hearly).2.2
    simp only [hearly, if_true, List.length_cons, List.length_nil] at hlen
    omega

/-! ## The RAM -/

/-- The RAM holds the last lap of the words stored, each in its slot. -/
theorem ram_eq (t i : Nat) (hi : i < stored g x t) (hlap : stored g x t ≤ i + 2 ^ g.ctrl.depth) :
    (kept g x t)[i]? = some ((axisRun g x t).ram (addrAll (ptrAt g.ctrl i))) := by
  induction t with
  | zero => exact absurd hi (Nat.not_lt_zero i)
  | succ t ih =>
    have hlen := length_kept hhold h t
    have hw : (axisRun g x t).fifoCtrl.wAddr = addrAll (ptrAt g.ctrl (stored g x t)) :=
      congrArg addrAll (ctrl_tracks t).wPtr
    rw [stored_succ] at hi hlap
    rw [kept_succ hhold h, axisRun_succ]
    change _ = some ((axisRun g x t).ramNext (x t) _)
    unfold AxisRegs.ramNext
    cases hwrite : (x t).sAxisAclk && (axisRun g x t).weS (x t) with
    | false =>
      simp only [hwrite, Bool.false_eq_true, if_false, Nat.add_zero] at hi hlap ⊢
      rw [List.append_nil]
      exact ih hi hlap
    | true =>
      simp only [hwrite, if_true] at hi hlap ⊢
      rcases (by omega : i = stored g x t ∨ i < stored g x t) with rfl | hlt
      · rw [hw, Function.update_self, ← hlen, List.getElem?_concat_length]
      · -- the write goes to another slot: less than a lap lies between
        have hne : addrAll (ptrAt g.ctrl i) ≠ (axisRun g x t).fifoCtrl.wAddr := by
          rw [hw]
          intro hslot
          have := (sameSlot_iff hlt.le (by omega)).mp hslot
          omega
        rw [Function.update_of_ne hne, List.getElem?_append_left (by omega)]
        exact ih hlt (by omega)

/-- The word read from the RAM by an edge of `m_axis_aclk` with a word to read, in either order
of the two ports. -/
theorem dob_eq {t : Nat} (hclk : (x t).mAxisAclk = true)
    (hempty : (axisRun g x t).emptyS = false) :
    (kept g x (t + 1))[popped g x t]? = some (axisRun g x (t + 1)).dob := by
  have htracks := ctrl_tracks (x := x) t
  have hr : (axisRun g x t).fifoCtrl.rAddr = addrAll (ptrAt g.ctrl (popped g x t)) :=
    congrArg addrAll htracks.rPtr
  have hunread := htracks.unread hempty
  have hwrites := htracks.writes
  have hreads := htracks.reads
  have hlap := stored_le (x := x) t
  have hdob : (axisRun g x (t + 1)).dob =
      (if (x t).portAFirst then (axisRun g x t).ramNext (x t) else (axisRun g x t).ram)
        (axisRun g x t).fifoCtrl.rAddr := if_pos hclk
  rw [hdob, hr]
  cases (x t).portAFirst with
  | false =>
    have hlen := length_kept hhold h t
    rw [kept_succ hhold h, List.getElem?_append_left (by omega)]
    exact ram_eq hhold h t _ (by omega) hlap
  | true =>
    have hstored : popped g x t < stored g x (t + 1) ∧
        stored g x (t + 1) ≤ popped g x t + 2 ^ g.ctrl.depth := by
      rw [stored_succ]
      split
      next hwrite =>
        simp only [AxisRegs.weS, Bool.and_eq_true, Bool.not_eq_true'] at hwrite
        have := htracks.free hwrite.2.1
        omega
      next => omega
    exact ram_eq hhold h (t + 1) _ hstored.1 hstored.2

/-! ## The output side -/

/-- The words transferred are the words popped, up to the word in the output register. -/
def Accounted (g : AxisGenerics) (x : Nat → AxisEvent g) (t : Nat) : Prop :=
  match shown g x t with
  | .fresh => output g x t = (kept g x t).take (popped g x t) ∧
      ((axisRun g x t).mTvalidReg = true → (axisRun g x t).emptyS = false ∧
        (kept g x t)[popped g x t]? = some (axisRun g x t).dob)
  | .owed => (axisRun g x t).mTvalidReg = true ∧
      output g x t ++ [(axisRun g x t).dob] = (kept g x t).take (popped g x t)
  | .stale => output g x t = (kept g x t).take (popped g x t)

/-- The words popped stay the same while more are stored. -/
theorem kept_grows (t : Nat) :
    (kept g x (t + 1)).take (popped g x t) = (kept g x t).take (popped g x t) := by
  have hlen := length_kept hhold h t
  have hle := popped_le (x := x) t
  rw [kept_succ hhold h, List.take_append_of_le_length (by omega)]

/-- So does the next word to pop. -/
theorem kept_next {t : Nat} (hempty : (axisRun g x t).emptyS = false) :
    (kept g x (t + 1))[popped g x t]? = (kept g x t)[popped g x t]? := by
  have hlen := length_kept hhold h t
  have hunread := (ctrl_tracks (x := x) t).unread hempty
  have hwrites := (ctrl_tracks (x := x) t).writes
  rw [kept_succ hhold h, List.getElem?_append_left (by omega)]

/-- An event without an edge of `m_axis_aclk`. -/
theorem accounted_idle {t : Nat} (hacc : Accounted g x t) (hclk : (x t).mAxisAclk = false) :
    Accounted g x (t + 1) := by
  have hshown : shown g x (t + 1) = shown g x t := by simp [shown, hclk]
  have hout : output g x (t + 1) = output g x t := by simp [output_succ, given, hclk]
  have hpop : popped g x (t + 1) = popped g x t := by simp [popped_succ, hclk]
  have hdob : (axisRun g x (t + 1)).dob = (axisRun g x t).dob := by
    simp [axisRun_succ, axisNext, hclk]
  have hvalid : (axisRun g x (t + 1)).mTvalidReg = (axisRun g x t).mTvalidReg := by
    simp [axisRun_succ, axisNext, hclk]
  have hgrow := kept_grows hhold h t
  unfold Accounted at hacc ⊢
  rw [hshown, hout, hpop, hdob, hvalid, hgrow]
  cases hs : shown g x t with
  | fresh =>
    rw [hs] at hacc
    refine ⟨hacc.1, fun hv => ?_⟩
    obtain ⟨hempty, hword⟩ := hacc.2 hv
    exact ⟨emptyS_stays hempty hpop, (kept_next hhold h hempty).trans hword⟩
  | owed =>
    rw [hs] at hacc
    exact hacc
  | stale =>
    rw [hs] at hacc
    exact hacc

/-- An edge of `m_axis_aclk` that pops no word. -/
theorem accounted_load {t : Nat} (hacc : Accounted g x t) (hclk : (x t).mAxisAclk = true)
    (hrd : (axisRun g x t).rdS (x t) = false) : Accounted g x (t + 1) := by
  have hshown : shown g x (t + 1) = .fresh := by simp [shown, hclk, hrd]
  have hpop : popped g x (t + 1) = popped g x t := by simp [popped_succ, hrd]
  have hvalid : (axisRun g x (t + 1)).mTvalidReg = !(axisRun g x t).emptyS := if_pos hclk
  have hout : output g x (t + 1) = (kept g x t).take (popped g x t) := by
    unfold Accounted at hacc
    rw [output_succ, given, hclk]
    cases hs : shown g x t with
    | fresh =>
      rw [hs] at hacc
      cases hv : (axisRun g x t).mTvalidReg with
      | false => simpa using hacc.1
      | true =>
        have hready : (x t).mAxisTready = false := by
          simpa [AxisRegs.rdS, (hacc.2 hv).1] using hrd
        simpa [hready] using hacc.1
    | owed =>
      rw [hs] at hacc
      simpa [hacc.1, h.takes t hclk hs] using hacc.2
    | stale =>
      rw [hs] at hacc
      simpa [h.takesOnce t hclk hs] using hacc
  unfold Accounted
  rw [hshown, hpop, hout, kept_grows hhold h]
  refine ⟨rfl, fun hv => ?_⟩
  have hempty : (axisRun g x t).emptyS = false := by
    rw [hvalid] at hv
    simpa using hv
  exact ⟨emptyS_stays hempty hpop, dob_eq hhold h hclk hempty⟩

/-- An edge of `m_axis_aclk` that pops the word it loads. -/
theorem accounted_pop {t : Nat} (hacc : Accounted g x t) (hclk : (x t).mAxisAclk = true)
    (hrd : (axisRun g x t).rdS (x t) = true) : Accounted g x (t + 1) := by
  have hrd' := hrd
  simp only [AxisRegs.rdS, Bool.and_eq_true, Bool.not_eq_true'] at hrd'
  obtain ⟨hempty, hready⟩ := hrd'
  have hpop : popped g x (t + 1) = popped g x t + 1 := by simp [popped_succ, hclk, hrd]
  have hvalid : (axisRun g x (t + 1)).mTvalidReg = true := by
    simp [axisRun_succ, axisNext, hclk, hempty]
  have hdob := dob_eq hhold h hclk hempty
  have htake : (kept g x (t + 1)).take (popped g x t + 1) =
      (kept g x t).take (popped g x t) ++ [(axisRun g x (t + 1)).dob] := by
    rw [List.take_add_one, kept_grows hhold h, hdob]
    rfl
  have hgiven : (given g x t).toList =
      if (axisRun g x t).mTvalidReg then [(axisRun g x t).dob] else [] := by
    rw [given, hclk, hready]
    cases (axisRun g x t).mTvalidReg <;> rfl
  unfold Accounted at hacc ⊢
  rw [output_succ, hgiven, hpop, htake]
  cases hs : shown g x t with
  | fresh =>
    rw [hs] at hacc
    cases hv : (axisRun g x t).mTvalidReg with
    | false =>
      have hshown : shown g x (t + 1) = .owed := by simp [shown, hclk, hrd, hv]
      rw [hshown]
      simp [hvalid, hacc.1]
    | true =>
      have hshown : shown g x (t + 1) = .stale := by simp [shown, hclk, hrd, hv, hs]
      have hsame : some (axisRun g x t).dob = some (axisRun g x (t + 1)).dob := by
        rw [← (hacc.2 hv).2, ← hdob, kept_next hhold h hempty]
      rw [hshown]
      simp [hacc.1, Option.some.inj hsame]
  | owed =>
    rw [hs] at hacc
    have hshown : shown g x (t + 1) = .owed := by simp [shown, hclk, hrd, hs]
    rw [hshown]
    simp [hvalid, hacc.1, ← hacc.2]
  | stale =>
    rw [h.takesOnce t hclk hs] at hready
    cases hready

theorem accounted (t : Nat) : Accounted g x t := by
  induction t with
  | zero => exact ⟨rfl, fun hvalid => by cases hvalid⟩
  | succ t ih =>
    cases hclk : (x t).mAxisAclk with
    | false => exact accounted_idle hhold h ih hclk
    | true =>
      cases hrd : (axisRun g x t).rdS (x t) with
      | false => exact accounted_load hhold h ih hclk hrd
      | true => exact accounted_pop hhold h ih hclk hrd

end Input

/-- **The stream through the FIFO.** In every run, for every interleaving of the clocks and
every order of the RAM ports, whose handshakes neither lose nor repeat a word, the words
transferred on `m_axis` are at every moment the first words transferred on `s_axis`. -/
theorem prefix_of_steady (g : AxisGenerics) (x : Nat → AxisEvent g) (hhold : HoldsOffer g x)
    (h : Steady g x) (t : Nat) : output g x t <+: input g x t := by
  have hpopped : (kept g x t).take (popped g x t) <+: input g x t := by
    rw [kept, List.take_append_of_le_length (popped_le_input hhold h t)]
    exact List.take_prefix _ _
  have hacc := accounted hhold h t
  unfold Accounted at hacc
  cases hshown : shown g x t with
  | fresh =>
    rw [hshown] at hacc
    exact hacc.1 ▸ hpopped
  | owed =>
    rw [hshown] at hacc
    exact (List.prefix_append _ _).trans (hacc.2 ▸ hpopped)
  | stale =>
    rw [hshown] at hacc
    exact hacc ▸ hpopped

/-! ## Runs with one word -/

/-- The smallest FIFO, for bytes. -/
abbrev AxisGenerics.smallest : AxisGenerics := ⟨8, 4, le_rfl⟩

/-- Both clocks have an edge in every event and the output is always ready; a word is offered
from event `start` to event 1. -/
def oneWord (start t : Nat) : AxisEvent .smallest where
  sAxisAclk := true
  mAxisAclk := true
  sAxisTvalid := decide (start ≤ t ∧ t ≤ 1)
  sAxisTdata := 0xA5#8
  mAxisTready := true
  portAFirst := false

theorem oneWord_offers {t : Nat} (h : (oneWord 1 t).sAxisTvalid = true) : t = 1 := by
  have hrange : 1 ≤ t ∧ t ≤ 1 := of_decide_eq_true h
  omega

theorem oneWord_early (t : Nat) : early .smallest (oneWord 1) t = false := by
  induction t with
  | zero => rfl
  | succ t ih =>
    rw [early, ih]
    split
    next hoffer =>
      simp only [Bool.and_eq_true] at hoffer
      obtain rfl := oneWord_offers hoffer.2
      decide +kernel
    next => rfl

/-- An output that is always ready never shows a word twice. -/
theorem oneWord_shown (t : Nat) : shown .smallest (oneWord 1) t ≠ .stale ∧
    (shown .smallest (oneWord 1) t = .fresh →
      (axisRun .smallest (oneWord 1) t).mTvalidReg = false) := by
  induction t with
  | zero => exact ⟨by decide, fun _ => rfl⟩
  | succ t ih =>
    have hvalid : (axisRun .smallest (oneWord 1) (t + 1)).mTvalidReg =
        (axisRun .smallest (oneWord 1) t).rdS (oneWord 1 t) := (Bool.and_true _).symm
    have hshown : shown .smallest (oneWord 1) (t + 1) =
        if (axisRun .smallest (oneWord 1) t).rdS (oneWord 1 t) then
          if (axisRun .smallest (oneWord 1) t).mTvalidReg &&
            shown .smallest (oneWord 1) t == .fresh then .stale else .owed
        else .fresh := rfl
    rw [hshown, hvalid]
    cases (axisRun .smallest (oneWord 1) t).rdS (oneWord 1 t) with
    | false => simp
    | true =>
      cases hs : shown .smallest (oneWord 1) t with
      | fresh => simp [ih.2 hs]
      | owed => simp
      | stale => exact absurd hs ih.1

/-- Offered when `s_axis_tready` is already high, the word passes once. -/
theorem oneWord_steady : HoldsOffer .smallest (oneWord 1) ∧ Steady .smallest (oneWord 1) := by
  refine ⟨?_, ?_, ?_, ?_, ?_⟩
  · intro t hvalid hnone
    obtain rfl := oneWord_offers hvalid
    exact absurd hnone (by decide +kernel)
  · intro t _ hvalid _ _
    obtain rfl := oneWord_offers hvalid
    decide +kernel
  · intro t _ hearly
    rw [oneWord_early] at hearly
    cases hearly
  · intro t _ _
    rfl
  · intro t _ hstale
    exact absurd hstale (oneWord_shown t).1

theorem prefix_oneWord : HoldsOffer .smallest (oneWord 1) ∧ Steady .smallest (oneWord 1) ∧
    output .smallest (oneWord 1) 8 <+: input .smallest (oneWord 1) 8 :=
  ⟨oneWord_steady.1, oneWord_steady.2,
    prefix_of_steady .smallest (oneWord 1) oneWord_steady.1 oneWord_steady.2 8⟩

/-- Offered right after reset and held as the protocol asks, the word is stored twice. -/
theorem oneWord_duplicated : HoldsOffer .smallest (oneWord 0) ∧
    input .smallest (oneWord 0) 8 = [0xA5#8] ∧
    output .smallest (oneWord 0) 8 = [0xA5#8, 0xA5#8] ∧
    ¬ output .smallest (oneWord 0) 8 <+: input .smallest (oneWord 0) 8 := by
  have hin : input .smallest (oneWord 0) 8 = [0xA5#8] := by decide +kernel
  have hout : output .smallest (oneWord 0) 8 = [0xA5#8, 0xA5#8] := by decide +kernel
  refine ⟨?_, hin, hout, ?_⟩
  · intro t hvalid hnone
    have hrange : 0 ≤ t ∧ t ≤ 1 := of_decide_eq_true hvalid
    rcases (by omega : t = 0 ∨ t = 1) with rfl | rfl
    · exact ⟨rfl, rfl⟩
    · exact absurd hnone (by decide +kernel)
  · rw [hin, hout]
    intro hprefix
    exact absurd hprefix.length_le (by decide)

end RpEcosystem.Fifo
