import RpEcosystem.Clocked.Machine
import RpEcosystem.Clocked.Stream
import RpEcosystem.Clocked.Modulo
import RpEcosystem.Averager.Core

/-!
# Sending the result: `bram_reader`

The reader walks through a memory whose output follows one enabled cycle behind the address. It
compares the address, which is one ahead of the word on the output, with the number of words less
one, and passes through the state of the last word in a single cycle.

* `Input`, `Regs`, `step`: the circuit and the output register of its memory;
* `Episode`: the cycles from a start to the pulse `restart_o`;
* `Progress`, `progress_step`: what has been sent in each state;
* `sends_iff`: when the words are sent once.
-/

namespace RpEcosystem.Averager.Reader

open Clocked

inductive State
  | idle
  | enBram
  | sendData
  | tlast
  | finish
  deriving DecidableEq, Repr

structure Input (dw : Nat) where
  aresetn : Bool
  cfgDataI : BitVec dw
  doneI : Bool
  sendI : Bool
  mAxisTready : Bool

/-- The registers, with the output register of the memory. -/
structure Regs (aw dw : Nat) where
  state : State
  addr : BitVec aw
  bramRddata : BitVec dw

/-- The signals of the next-state process. -/
structure Wires (aw : Nat) where
  stateNext : State
  addrNext : BitVec aw
  tvalid : Bool
  tlast : Bool
  restart : Bool
  en : Bool
  rst : Bool

variable {aw dw : Nat}

def wires (i : Input dw) (s : Regs aw dw) : Wires aw :=
  let w : Wires aw :=
    { stateNext := s.state
      addrNext := s.addr
      tvalid := false
      tlast := false
      restart := false
      en := false
      rst := false }
  match s.state with
  | .idle =>
    { w with
      rst := true
      addrNext := 0
      stateNext := if i.doneI && i.sendI then .enBram else .idle }
  | .enBram =>
    if i.mAxisTready then
      { w with
        en := true
        addrNext := s.addr + 1
        stateNext := .sendData }
    else { w with stateNext := .enBram }
  | .sendData =>
    let w := { w with tvalid := true }
    if i.mAxisTready then
      { w with
        en := true
        addrNext := s.addr + 1
        stateNext := if s.addr.toNat = (i.cfgDataI - 1).toNat then .tlast else .sendData }
    else { w with stateNext := .sendData }
  | .tlast =>
    { w with
      tvalid := true
      tlast := true
      stateNext := .finish }
  | .finish =>
    { w with
      restart := true
      stateNext := .idle }

/-- One clock edge of the reader and of the read port. -/
def step (ram : Ram aw dw) (i : Input dw) (s : Regs aw dw) : Regs aw dw :=
  let w := wires i s
  { state := bif i.aresetn then w.stateNext else .idle
    addr := bif i.aresetn then w.addrNext else 0
    bramRddata := readB w.rst w.en s.addr ram s.bramRddata }

def machine (ram : Ram aw dw) : Machine (Input dw) (Regs aw dw) where
  reset := { state := .idle, addr := 0, bramRddata := 0 }
  next := step ram

def run (ram : Ram aw dw) (x : Nat → Input dw) (t : Nat) : Regs aw dw := (machine ram).run x t

theorem run_succ (ram : Ram aw dw) (x : Nat → Input dw) (t : Nat) :
    run ram x (t + 1) = step ram (x t) (run ram x t) := rfl

/-- The word transferred on `m_axis` with its `tlast`. -/
def transfer (i : Input dw) (s : Regs aw dw) : Option (BitVec dw × Bool) :=
  if (wires i s).tvalid && i.mAxisTready then some (s.bramRddata, (wires i s).tlast) else none

/-- The words transferred in the cycles `[a, b)`. -/
def sent (ram : Ram aw dw) (x : Nat → Input dw) (a b : Nat) : List (BitVec dw × Bool) :=
  transfers (fun t => transfer (x t) (run ram x t)) a b

/-- The circuit leaves `ST_IDLE` after cycle `a` and raises `restart_o` in cycle `b`. -/
structure Episode (ram : Ram aw dw) (x : Nat → Input dw) (a b : Nat) : Prop where
  start : (run ram x a).state = .idle
  lt : a < b
  restart : (wires (x b) (run ram x b)).restart = true
  between : ∀ u, a < u → u < b →
    (run ram x u).state ≠ .idle ∧ (wires (x u) (run ram x u)).restart = false

/-- The result: the first `n` words in order, with `tlast` on the last one. -/
def result (ram : Ram aw dw) (n : Nat) : List (BitVec dw × Bool) :=
  (List.range n).map fun k => (ram (BitVec.ofNat aw k), decide (k + 1 = n))

/-! ## One edge -/

/-- The first `c` words without `tlast`. -/
def begun (ram : Ram aw dw) (c : Nat) : List (BitVec dw × Bool) :=
  (List.range c).map fun k => (ram (BitVec.ofNat aw k), false)

theorem begun_succ (ram : Ram aw dw) (c : Nat) :
    begun ram (c + 1) = begun ram c ++ [(ram (BitVec.ofNat aw c), false)] := by
  rw [begun, List.range_succ, List.map_append, begun]
  rfl

/-- What has been sent in each state, when `n` words are asked for. With `n = 1` the address is
past its end from the first word on. -/
def Progress (ram : Ram aw dw) (n : Nat) (l : List (BitVec dw × Bool)) (s : Regs aw dw) : Prop :=
  match s.state with
  | .idle => True
  | .enBram => l = [] ∧ s.addr = 0
  | .sendData =>
    ∃ c, l = begun ram c ∧ s.addr = BitVec.ofNat aw (c + 1) ∧
      s.bramRddata = ram (BitVec.ofNat aw c) ∧ (2 ≤ n → c + 1 < n)
  | .tlast =>
    ∃ c, l = begun ram (c + 1) ∧ s.bramRddata = ram (BitVec.ofNat aw (c + 1)) ∧
      (2 ≤ n → c + 2 = n)
  | .finish => True

section Step

variable {ram : Ram aw dw} {n : Nat} {i : Input dw} {s : Regs aw dw} {l : List (BitVec dw × Bool)}

/-- The first word is read when the other side is ready. -/
theorem progress_enBram (hresetn : i.aresetn = true) (hstate : s.state = .enBram)
    (h : Progress ram n l s) : Progress ram n (l ++ (transfer i s).toList) (step ram i s) := by
  rw [Progress, hstate] at h
  obtain ⟨rfl, haddr⟩ := h
  cases hready : i.mAxisTready with
  | false =>
    simp only [Progress, transfer, step, wires, hstate, hresetn, hready, cond_true,
      Bool.false_eq_true, if_false, Bool.and_false]
    exact ⟨rfl, haddr⟩
  | true =>
    simp only [Progress, transfer, step, wires, hstate, hresetn, hready, cond_true, if_true]
    refine ⟨0, rfl, ?_, ?_, fun hn => hn⟩
    · rw [haddr]
      exact BitVec.zero_add 1
    · rw [haddr]
      rfl

/-- A word is sent and the next one is read, up to the word before the last. -/
theorem progress_sendData (hresetn : i.aresetn = true) (hn : i.cfgDataI.toNat = n)
    (hmax : n ≤ 2 ^ aw) (hstate : s.state = .sendData) (h : Progress ram n l s) :
    Progress ram n (l ++ (transfer i s).toList) (step ram i s) := by
  rw [Progress, hstate] at h
  obtain ⟨c, rfl, haddr, hdata, hc⟩ := h
  have hlast : 2 ≤ n → (s.addr.toNat = (i.cfgDataI - 1).toNat ↔ c + 2 = n) := by
    intro hn2
    have hc := hc hn2
    rw [haddr, BitVec.toNat_ofNat, Nat.mod_eq_of_lt (by omega), toNat_sub_one_of_pos (by omega)]
    omega
  cases hready : i.mAxisTready with
  | false =>
    simp only [Progress, transfer, step, wires, hstate, hresetn, hready, cond_true,
      Bool.false_eq_true, if_false, Bool.and_false]
    exact ⟨c, by simp, haddr, hdata, hc⟩
  | true =>
    by_cases hend : s.addr.toNat = (i.cfgDataI - 1).toNat
    · simp only [Progress, transfer, step, wires, hstate, hresetn, hready, cond_true, if_true,
        if_pos hend, Bool.and_self]
      refine ⟨c, ?_, ?_, ?_⟩
      · rw [begun_succ, hdata]
        rfl
      · rw [haddr]
        rfl
      · exact fun hn2 => (hlast hn2).mp hend
    · simp only [Progress, transfer, step, wires, hstate, hresetn, hready, cond_true, if_true,
        if_neg hend, Bool.and_self]
      refine ⟨c + 1, ?_, ?_, ?_, ?_⟩
      · rw [begun_succ, hdata]
        rfl
      · rw [haddr, BitVec.ofNat_add (c + 1)]
        rfl
      · rw [haddr]
        rfl
      · intro hn2
        have hc := hc hn2
        have hnot := mt (hlast hn2).mpr hend
        omega

theorem progress_step (hn : i.cfgDataI.toNat = n) (hmax : n ≤ 2 ^ aw) (h : Progress ram n l s)
    (hidle : s.state ≠ .idle) (hnext : (step ram i s).state ≠ .idle) :
    Progress ram n (l ++ (transfer i s).toList) (step ram i s) := by
  have hresetn : i.aresetn = true := by
    by_contra hlow
    rw [step, Bool.eq_false_of_not_eq_true hlow] at hnext
    exact hnext rfl
  cases hstate : s.state with
  | idle => exact absurd hstate hidle
  | enBram => exact progress_enBram hresetn hstate h
  | sendData => exact progress_sendData hresetn hn hmax hstate h
  | tlast => simp [Progress, step, wires, hstate, hresetn]
  | finish => simp [step, wires, hstate] at hnext

end Step

/-! ## Episodes -/

theorem restart_iff {i : Input dw} {s : Regs aw dw} :
    (wires i s).restart = true ↔ s.state = .finish := by
  cases hstate : s.state with
  | idle => simp [wires, hstate]
  | enBram =>
    simp only [wires, hstate]
    split <;> simp
  | sendData =>
    simp only [wires, hstate]
    split <;> simp
  | tlast => simp [wires, hstate]
  | finish => simp [wires, hstate]

/-- Only the state of the last word leads to the restart pulse. -/
theorem before_finish {ram : Ram aw dw} {i : Input dw} {s : Regs aw dw}
    (h : (step ram i s).state = .finish) : s.state = .tlast := by
  rw [step] at h
  cases hresetn : i.aresetn with
  | false => simp [hresetn] at h
  | true =>
    simp only [hresetn, cond_true] at h
    cases hstate : s.state with
    | tlast => rfl
    | idle =>
      simp only [wires, hstate] at h
      split at h <;> cases h
    | enBram =>
      simp only [wires, hstate] at h
      split at h <;> cases h
    | sendData =>
      simp only [wires, hstate] at h
      split at h
      next =>
        dsimp only at h
        split at h <;> cases h
      next => cases h
    | finish => simp [wires, hstate] at h

section Episode

variable {ram : Ram aw dw} {x : Nat → Input dw} {n a b : Nat}

theorem sent_succ (ram : Ram aw dw) (x : Nat → Input dw) {a b : Nat} (h : a ≤ b) :
    sent ram x a (b + 1) = sent ram x a b ++ (transfer (x b) (run ram x b)).toList :=
  transfers_succ _ h

/-- The episode begins with the memory being enabled. -/
theorem Episode.first (h : Episode ram x a b) :
    a + 1 < b ∧ (run ram x (a + 1)).state = .enBram ∧ (run ram x (a + 1)).addr = 0 := by
  have hfirst : (run ram x (a + 1)).state = .idle ∨
      (run ram x (a + 1)).state = .enBram ∧ (run ram x (a + 1)).addr = 0 := by
    rw [run_succ, step]
    cases (x a).aresetn with
    | false => exact .inl rfl
    | true =>
      simp only [wires, h.start, cond_true]
      split
      next => exact .inr ⟨rfl, trivial⟩
      next => exact .inl rfl
  have hne : a + 1 ≠ b := by
    rintro rfl
    have hfinish := restart_iff.mp h.restart
    rcases hfirst with hidle | ⟨hen, -⟩
    · rw [hfinish] at hidle
      cases hidle
    · rw [hfinish] at hen
      cases hen
  have hlt : a + 1 < b := Nat.lt_of_le_of_ne h.lt hne
  exact ⟨hlt, hfirst.resolve_left (h.between (a + 1) (by omega) hlt).1⟩

theorem Episode.progress (h : Episode ram x a b) (hx : ∀ t, (x t).cfgDataI.toNat = n)
    (hmax : n ≤ 2 ^ aw) {u : Nat} (hau : a + 1 ≤ u) (hub : u < b) :
    Progress ram n (sent ram x (a + 1) u) (run ram x u) := by
  induction u, hau using Nat.le_induction with
  | base =>
    obtain ⟨-, hstate, haddr⟩ := h.first
    rw [Progress, hstate]
    exact ⟨transfers_self _ _, haddr⟩
  | succ u hau ih =>
    rw [sent_succ ram x hau]
    exact progress_step (hx u) hmax (ih (by omega)) (h.between u (by omega) (by omega)).1
      (h.between (u + 1) (by omega) hub).1

/-- The words of an episode: all but the last, and that one if it is taken at once. -/
theorem Episode.sent_eq (h : Episode ram x a b) (hx : ∀ t, (x t).cfgDataI.toNat = n)
    (hmax : n ≤ 2 ^ aw) :
    ∃ c, (2 ≤ n → c + 2 = n) ∧ sent ram x (a + 1) b = begun ram (c + 1) ++
      if (x (b - 1)).mAxisTready then [(ram (BitVec.ofNat aw (c + 1)), true)] else [] := by
  obtain ⟨hlt, -⟩ := h.first
  obtain ⟨u, rfl⟩ : ∃ u, b = u + 1 := ⟨b - 1, by omega⟩
  have hfinish := restart_iff.mp h.restart
  rw [run_succ] at hfinish
  have hstate := before_finish hfinish
  have hprogress := h.progress hx hmax (u := u) (by omega) (by omega)
  rw [Progress, hstate] at hprogress
  obtain ⟨c, hsent, hdata, hc⟩ := hprogress
  refine ⟨c, hc, ?_⟩
  rw [sent_succ ram x (by omega), hsent, Nat.add_sub_cancel]
  congr 1
  cases hready : (x u).mAxisTready with
  | false => simp [transfer, hready]
  | true => simp [transfer, wires, hstate, hready, hdata]

end Episode

theorem result_eq (ram : Ram aw dw) (c : Nat) :
    result ram (c + 1) = begun ram c ++ [(ram (BitVec.ofNat aw c), true)] := by
  rw [result, List.range_succ, List.map_append, begun]
  congr 1
  · refine List.map_congr_left fun k hk => ?_
    rw [List.mem_range] at hk
    simp
    omega
  · simp

/-- The words are sent once exactly when there are at least two of them and the last one is taken
in the only cycle in which it is offered, the one before the restart pulse. -/
theorem sends_iff {ram : Ram aw dw} {x : Nat → Input dw} {n : BitVec dw} (hmin : 1 ≤ n.toNat)
    (hmax : n.toNat ≤ 2 ^ aw) (hx : ∀ t, (x t).cfgDataI = n) {a b : Nat}
    (h : Episode ram x a b) :
    sent ram x (a + 1) b = result ram n.toNat ↔
      2 ≤ n.toNat ∧ (x (b - 1)).mAxisTready = true := by
  obtain ⟨c, hc, hsent⟩ := h.sent_eq (fun t => congrArg BitVec.toNat (hx t)) hmax
  rw [hsent]
  constructor
  · intro heq
    have hn : 2 ≤ n.toNat := by
      by_contra hlt
      -- a single word carries `tlast`, but the first word sent never does
      have hone : n.toNat = 0 + 1 := by omega
      rw [hone, result_eq, begun, List.range_succ_eq_map] at heq
      simp [begun] at heq
    refine ⟨hn, ?_⟩
    by_contra hlow
    have hlength := congrArg List.length heq
    rw [if_neg hlow, ← hc hn] at hlength
    simp [result, begun] at hlength
  · rintro ⟨hn, hready⟩
    rw [if_pos hready, ← hc hn, result_eq]

/-- A result of `n` words that is sent at once; the receiver is ready except in cycle `stall`. -/
def sending (n : BitVec 16) (stall t : Nat) : Input 16 where
  aresetn := true
  cfgDataI := n
  doneI := true
  sendI := true
  mAxisTready := decide (t ≠ stall)

/-- A memory that holds the successors of its addresses. -/
def counting (k : BitVec 2) : BitVec 16 := k.setWidth 16 + 1

theorem episode_sending : Episode counting (sending 2 1) 0 5 where
  start := by decide
  lt := by decide
  restart := by decide
  between u hlo hhi :=
    (by decide : ∀ u < 5, 0 < u → (run counting (sending 2 1) u).state ≠ .idle ∧
      (wires (sending 2 1 u) (run counting (sending 2 1) u)).restart = false) u hhi hlo

theorem sends_iff_sending :
    sent counting (sending 2 1) 1 5 = result counting 2 :=
  (@sends_iff 2 16 counting (sending 2 1) 2 (by decide) (by decide) (fun _ => rfl) 0 5
    episode_sending).mpr ⟨by decide, by decide⟩

/-- The last word is not taken in its only cycle, and a single word is followed by the rest of the
memory. -/
theorem not_sent_once :
    (Episode counting (sending 2 3) 0 4 ∧ sent counting (sending 2 3) 1 4 ≠ result counting 2) ∧
      Episode counting (sending 1 0) 0 7 ∧ sent counting (sending 1 0) 1 7 ≠ result counting 1 := by
  have hstalled : ∀ u < 4, 0 < u → (run counting (sending 2 3) u).state ≠ .idle ∧
      (wires (sending 2 3 u) (run counting (sending 2 3) u)).restart = false := by decide
  have hsingle : ∀ u < 7, 0 < u → (run counting (sending 1 0) u).state ≠ .idle ∧
      (wires (sending 1 0 u) (run counting (sending 1 0) u)).restart = false := by decide
  refine ⟨⟨⟨by decide, by decide, by decide, fun u hlo hhi => hstalled u hhi hlo⟩, by decide⟩,
    ⟨by decide, by decide, by decide, fun u hlo hhi => hsingle u hhi hlo⟩, by decide⟩

end RpEcosystem.Averager.Reader
