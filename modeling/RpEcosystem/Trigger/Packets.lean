import RpEcosystem.Clocked.Stream
import RpEcosystem.Trigger.Fsm

/-!
# The output stream as packets

The words transferred on `m_axis` are meant to be a concatenation of trigger packets (the
window, the status word, the counter word), subtrigger packets (`array_scalers`) and PPS
packets (`array_pps`). A stall breaks this in three ways: it clears the word counter while
an array is being sent, it offers the stale output word when the array has not started, and
it drops the last word of a packet, which is still offered when the FSM is back in
`ST_IDLE`. `SafeStall` excludes exactly these; the two states that send one register hold
their word correctly.

`packetStream_of_safeStalls` says that in every run in which all stalls are safe the
transferred words are a packet stream. Its proof follows the words already issued, that is
transferred or offered (`issued`): each edge issues the word it loads (`issued_succ`) and
carries the packet in progress one word further (`inProgress_next`).
-/

namespace RpEcosystem.Trigger

open Clocked

variable {g : Generics} {x : Nat → Input}

/-! ## Packets -/

def tag2 (w : Word) : BitVec 2 := w.extractLsb' 30 2

def tag3 (w : Word) : BitVec 3 := w.extractLsb' 29 3

/-- The `n` words that a state sends from cycle `t` on, one per cycle. -/
def burst (g : Generics) (x : Nat → Input) (s : State) (t n : Nat) : List Word :=
  (List.range n).map fun k => s.word (run g x (t + k)) k

/-- The packets of a run: the whole window, tagged `00`, with a status word tagged `010` and
a counter word tagged `10`; the three words of `array_scalers`; the words of `array_pps`. -/
inductive Packet (g : Generics) (x : Nat → Input) : List Word → Prop
  | trigger {t : Nat} {status count : Word} (start : Starts g x .stAttTr t)
      (data : ∀ w ∈ burst g x .stAttTr t g.dataArrayLength, tag2 w = 0b00#2)
      (status_tag : tag3 status = 0b010#3) (count_tag : tag2 count = 0b10#2) :
      Packet g x (burst g x .stAttTr t g.dataArrayLength ++ [status, count])
  | subtrigger {t : Nat} (start : Starts g x .stAttSubtr t) :
      Packet g x (burst g x .stAttSubtr t subtrigArrayLength)
  | pps {t : Nat} (start : Starts g x .stAttPps t) :
      Packet g x (burst g x .stAttPps t metadataArrayLength)

theorem burst_succ (g : Generics) (x : Nat → Input) (s : State) (t n : Nat) :
    burst g x s t (n + 1) = burst g x s t n ++ [s.word (run g x (t + n)) n] := by
  simp [burst, List.range_succ]

theorem burst_prefix (g : Generics) (x : Nat → Input) (s : State) (t : Nat) {m n : Nat}
    (h : m ≤ n) : burst g x s t m <+: burst g x s t n := by
  induction n, h using Nat.le_induction with
  | base => exact List.prefix_refl _
  | succ n _ ih =>
    rw [burst_succ]
    exact ih.trans (List.prefix_append _ _)

/-! ## Tags -/

theorem tag2_sampleWord (r : Regs g) : tag2 r.sampleWord = 0b00#2 := by
  unfold tag2 Regs.sampleWord
  repeat rw [BitVec.extractLsb'_append_eq_of_le (by omega)]
  rfl

theorem tag3_trStatus (i : Input) (r : Regs g) : tag3 (r.trStatus i) = 0b010#3 := by
  unfold tag3 Regs.trStatus
  repeat rw [BitVec.extractLsb'_append_eq_of_le (by omega)]
  rfl

theorem tag2_cntStatus (r : Regs g) : tag2 r.cntStatus = 0b10#2 := by
  unfold tag2 Regs.cntStatus
  rw [BitVec.extractLsb'_append_eq_of_le (by omega)]
  rfl

theorem packet_trigger {t : Nat} (status count : Word) (start : Starts g x .stAttTr t)
    (hstatus : tag3 status = 0b010#3) (hcount : tag2 count = 0b10#2) :
    Packet g x (burst g x .stAttTr t g.dataArrayLength ++ [status, count]) := by
  refine .trigger start ?_ hstatus hcount
  simp only [burst, State.word, List.mem_map, forall_exists_index, and_imp]
  rintro w k - rfl
  exact tag2_sampleWord _

/-- While a trigger packet is sent, the status and counter registers carry their tags. -/
theorem status_tagged (g : Generics) (x : Nat → Input) (t : Nat)
    (h : (run g x t).fsm.stateReg.inTrigger = true) :
    tag3 (run g x t).trStatusReg = 0b010#3 ∧ tag2 (run g x t).cntStatusReg = 0b10#2 := by
  induction t with
  | zero => simp [Regs.reset, State.inTrigger] at h
  | succ t ih =>
    rw [run_succ] at h ⊢
    cases htr : (run g x t).trS (x t) with
    | true => simp [next, htr, tag3_trStatus, tag2_cntStatus]
    | false =>
      rcases inTrigger_next h with hbusy | ⟨-, hopen⟩
      · simpa [next, htr] using ih hbusy
      · rw [htr] at hopen
        cases hopen

/-! ## Stalls -/

/-- A stall does no harm: the FSM rests and offers nothing, or it sends a single register. -/
def SafeStall (i : Input) (r : Regs g) : Prop :=
  i.mAxisTready = false →
    (r.fsm.stateReg = .stIdle ∧ r.fsm.axisTvalidReg = false) ∨
      r.fsm.stateReg = .stSendTrStatus ∨ r.fsm.stateReg = .stSendCntStatus

/-- The FSM sends a register only with a word already on offer. -/
theorem valid_of_sendReg (g : Generics) (x : Nat → Input) (t : Nat)
    (h : (run g x t).fsm.stateReg = .stSendTrStatus ∨
      (run g x t).fsm.stateReg = .stSendCntStatus) :
    (run g x t).fsm.axisTvalidReg = true := by
  cases t with
  | zero => simp [Regs.reset] at h
  | succ t =>
    rw [run_succ, axisTvalid_next]
    rw [run_succ] at h
    simp only [decide_eq_true_eq]
    intro hidle
    simp only [next, fsmNext, hidle] at h
    revert h
    cases (x t).mAxisTready <;> cases (x t).ppsI <;> cases (run g x t).trS (x t) <;>
      cases (run g x t).subtrS (x t) <;> decide

/-- The word loaded by the edge that ends cycle `t`. -/
def loaded (g : Generics) (x : Nat → Input) (t : Nat) : Option Word :=
  if (x t).mAxisTready ∧ (run g x t).fsm.stateReg ≠ .stIdle then some (run g x t).sendWord else none

/-- The words issued before cycle `t`: those transferred and the one on offer. -/
def issued (g : Generics) (x : Nat → Input) (t : Nat) : List Word :=
  transfers (output g x) 0 t ++
    if (run g x t).fsm.axisTvalidReg then [(run g x t).fsm.dataToFifoReg] else []

theorem issued_succ {t : Nat} (hsafe : SafeStall (x t) (run g x t)) :
    issued g x (t + 1) = issued g x t ++ (loaded g x t).toList := by
  unfold issued
  rw [transfers_succ _ (Nat.zero_le t), run_succ, axisTvalid_next]
  cases hready : (x t).mAxisTready with
  | true =>
    rw [dataToFifo_next_ready hready]
    cases hv : (run g x t).fsm.axisTvalidReg <;>
      by_cases hs : (run g x t).fsm.stateReg = .stIdle <;>
      simp [output, loaded, hready, hv, hs]
  | false =>
    obtain ⟨-, hdata, -⟩ := fsm_stall (r := run g x t) hready
    rw [hdata]
    rcases hsafe hready with ⟨hs, hv⟩ | hs
    · simp [output, loaded, hready, hv, hs]
    · have hv := valid_of_sendReg g x t hs
      have hbusy : (run g x t).fsm.stateReg ≠ .stIdle := by
        rcases hs with hs | hs <;> rw [hs] <;> decide
      simp [output, loaded, hready, hv, hbusy]

/-! ## The packet in progress -/

/-- The words of the packet that the FSM is sending in cycle `t`. -/
inductive InProgress (g : Generics) (x : Nat → Input) (t : Nat) : List Word → Prop
  | idle (state : (run g x t).fsm.stateReg = .stIdle) : InProgress g x t []
  | array {s done : State} {n t₀ : Nat} (hs : s.array g = some (n, done))
      (start : Starts g x s t₀) (state : (run g x t).fsm.stateReg = s)
      (hlt : (run g x t).fsm.wrCountReg.toNat < n)
      (since : t = t₀ + (run g x t).fsm.wrCountReg.toNat) :
      InProgress g x t (burst g x s t₀ (run g x t).fsm.wrCountReg.toNat)
  | status {t₀ : Nat} (start : Starts g x .stAttTr t₀)
      (state : (run g x t).fsm.stateReg = .stSendTrStatus) :
      InProgress g x t (burst g x .stAttTr t₀ g.dataArrayLength)
  | count {t₀ : Nat} {st : Word} (start : Starts g x .stAttTr t₀) (tag : tag3 st = 0b010#3)
      (state : (run g x t).fsm.stateReg = .stSendCntStatus) :
      InProgress g x t (burst g x .stAttTr t₀ g.dataArrayLength ++ [st])

theorem array_pos {s done : State} {n : Nat} (hs : s.array g = some (n, done)) : 0 < n := by
  have := g.window
  cases s <;> simp [State.array, subtrigArrayLength, metadataArrayLength] at hs <;> omega

theorem array_le (hD : g.dataArrayLength ≤ 256) {s done : State} {n : Nat}
    (hs : s.array g = some (n, done)) : n ≤ 256 := by
  cases s <;> simp [State.array, subtrigArrayLength, metadataArrayLength] at hs <;> omega

/-- A state that has just been entered from `ST_IDLE` has sent nothing. -/
theorem inProgress_entered {t : Nat} (hs : (run g x t).fsm.stateReg = .stIdle) :
    InProgress g x (t + 1) [] := by
  cases hready : (x t).mAxisTready with
  | false =>
    exact .idle ((fsm_stall (r := run g x t) hready).1.trans hs)
  | true =>
    obtain ⟨hstate, hwr⟩ := fsm_idle hs hready
    rw [← run_succ] at hstate hwr
    have henter : ∀ {s done : State} {n : Nat}, s.array g = some (n, done) →
        (run g x (t + 1)).fsm.stateReg = s → InProgress g x (t + 1) [] := by
      intro s done n harr hs'
      have hpos := array_pos harr
      have start : Starts g x s (t + 1) := ⟨hs', hwr⟩
      simpa [hwr, burst] using InProgress.array harr start hs' (by simpa [hwr] using hpos)
        (by simp [hwr])
    unfold idleNext at hstate
    split_ifs at hstate
    · exact henter (s := .stAttPps) rfl hstate
    · exact henter (s := .stAttTr) rfl hstate
    · exact henter (s := .stAttSubtr) rfl hstate
    · exact .idle hstate

/-- The last word of an array closes its packet, or leads to the status word. -/
theorem inProgress_array_done {s done : State} {n t₀ t : Nat} (hs : s.array g = some (n, done))
    (start : Starts g x s t₀) (hdone : (run g x t).fsm.stateReg = done) :
    InProgress g x t (burst g x s t₀ n) ∨
      (Packet g x (burst g x s t₀ n) ∧ InProgress g x t []) := by
  cases s <;> simp only [State.array, reduceCtorEq, Option.some.injEq, Prod.mk.injEq] at hs <;>
    obtain ⟨rfl, rfl⟩ := hs
  · exact Or.inl (.status start hdone)
  · exact Or.inr ⟨.subtrigger start, .idle hdone⟩
  · exact Or.inr ⟨.pps start, .idle hdone⟩

theorem array_ne {s done : State} {n : Nat} (hs : s.array g = some (n, done)) :
    s ≠ .stIdle ∧ s ≠ .stSendTrStatus ∧ s ≠ .stSendCntStatus := by
  cases s <;> simp [State.array] at hs ⊢

/-- An edge in an array state sends the next word of the array, and the last one leaves the
state. -/
theorem inProgress_array_next (hD : g.dataArrayLength ≤ 256) {s done : State} {n t₀ t : Nat}
    (hsafe : SafeStall (x t) (run g x t)) (hs : s.array g = some (n, done))
    (start : Starts g x s t₀) (hstate : (run g x t).fsm.stateReg = s)
    (hlt : (run g x t).fsm.wrCountReg.toNat < n)
    (since : t = t₀ + (run g x t).fsm.wrCountReg.toNat) :
    InProgress g x (t + 1) (burst g x s t₀ (run g x t).fsm.wrCountReg.toNat ++
        (loaded g x t).toList) ∨
      (Packet g x (burst g x s t₀ (run g x t).fsm.wrCountReg.toNat ++ (loaded g x t).toList) ∧
        InProgress g x (t + 1) []) := by
  obtain ⟨hidle, htr, hcnt⟩ := array_ne hs
  have hready : (x t).mAxisTready = true := by
    by_contra hstall
    rcases hsafe (by simpa using hstall) with ⟨h, -⟩ | h | h <;> rw [hstate] at h
    exacts [hidle h, htr h, hcnt h]
  obtain ⟨hstate', hwr'⟩ := fsm_array (by rw [hstate]; exact hs) hready
  rw [← run_succ, hstate] at hstate'
  rw [← run_succ] at hwr'
  have hload : burst g x s t₀ (run g x t).fsm.wrCountReg.toNat ++ (loaded g x t).toList =
      burst g x s t₀ ((run g x t).fsm.wrCountReg.toNat + 1) := by
    rw [burst_succ, ← since]
    simp [loaded, hready, hstate, hidle, Regs.sendWord]
  rw [hload]
  split_ifs at hstate' with hlast
  · have hn : (run g x t).fsm.wrCountReg.toNat + 1 = n := by omega
    rw [hn]
    exact inProgress_array_done hs start hstate'
  · have hle := array_le hD hs
    have hval : (run g x (t + 1)).fsm.wrCountReg.toNat =
        (run g x t).fsm.wrCountReg.toNat + 1 := by
      rw [hwr', BitVec.toNat_add]
      exact Nat.mod_eq_of_lt (by simp; omega)
    rw [← hval]
    exact Or.inl (.array hs start hstate' (by omega) (by omega))

/-- One edge carries the packet in progress one word further or completes it. -/
theorem inProgress_next (hD : g.dataArrayLength ≤ 256) {t : Nat} {part : List Word}
    (hsafe : SafeStall (x t) (run g x t)) (h : InProgress g x t part) :
    InProgress g x (t + 1) (part ++ (loaded g x t).toList) ∨
      (Packet g x (part ++ (loaded g x t).toList) ∧ InProgress g x (t + 1) []) := by
  cases h with
  | idle hs =>
    have hnone : loaded g x t = none := by simp [loaded, hs]
    rw [hnone]
    exact Or.inl (by simpa using inProgress_entered hs)
  | @array s done n t₀ hs start hstate hlt since =>
    exact inProgress_array_next hD hsafe hs start hstate hlt since
  | @status t₀ start hs =>
    cases hready : (x t).mAxisTready with
    | false =>
      have hs' := (fsm_stall (r := run g x t) hready).1.trans hs
      exact Or.inl (by simpa [loaded, hready] using InProgress.status (t := t + 1) start hs')
    | true =>
      have htag := (status_tagged g x t (by rw [hs]; rfl)).1
      have hs' := fsm_sendTrStatus hs hready
      exact Or.inl (by
        simpa [loaded, hready, hs, Regs.sendWord, State.word] using
          InProgress.count (t := t + 1) start htag hs')
  | @count t₀ st start tag hs =>
    cases hready : (x t).mAxisTready with
    | false =>
      have hs' := (fsm_stall (r := run g x t) hready).1.trans hs
      exact Or.inl (by simpa [loaded, hready] using InProgress.count (t := t + 1) start tag hs')
    | true =>
      have htag := (status_tagged g x t (by rw [hs]; rfl)).2
      refine Or.inr ⟨?_, .idle (fsm_sendCntStatus hs hready)⟩
      simpa [loaded, hready, hs, Regs.sendWord, State.word] using packet_trigger _ _ start tag htag

/-- The words issued are whole packets followed by the packet in progress. -/
theorem issued_packets (hD : g.dataArrayLength ≤ 256)
    (hsafe : ∀ t, SafeStall (x t) (run g x t)) (t : Nat) :
    ∃ (ps : List (List Word)) (part : List Word), issued g x t = ps.flatten ++ part ∧
      (∀ p ∈ ps, Packet g x p) ∧ InProgress g x t part := by
  induction t with
  | zero => exact ⟨[], [], by simp [issued, Regs.reset], by simp, .idle rfl⟩
  | succ t ih =>
    obtain ⟨ps, part, hissued, hps, hpart⟩ := ih
    rw [issued_succ (hsafe t), hissued, List.append_assoc]
    rcases inProgress_next hD (hsafe t) hpart with hmore | ⟨hwhole, hnone⟩
    · exact ⟨ps, _, rfl, hps, hmore⟩
    · refine ⟨ps ++ [part ++ (loaded g x t).toList], [], by simp, ?_, hnone⟩
      intro p hp
      rcases List.mem_append.mp hp with hp | hp
      · exact hps p hp
      · rw [List.mem_singleton.mp hp]
        exact hwhole

/-- The packet in progress is the beginning of a packet. -/
theorem InProgress.cut {t : Nat} {part : List Word} (h : InProgress g x t part) :
    part = [] ∨ ∃ p, Packet g x p ∧ part <+: p := by
  cases h with
  | idle => exact Or.inl rfl
  | @array s done n t₀ hs start hstate hlt since =>
    have hpre := burst_prefix g x s t₀ hlt.le
    cases s <;> simp only [State.array, reduceCtorEq, Option.some.injEq, Prod.mk.injEq] at hs <;>
      obtain ⟨rfl, rfl⟩ := hs
    · exact Or.inr ⟨_, packet_trigger 0x40000000#32 0x80000000#32 start
        (by decide) (by decide), hpre.trans (List.prefix_append _ _)⟩
    · exact Or.inr ⟨_, .subtrigger start, hpre⟩
    · exact Or.inr ⟨_, .pps start, hpre⟩
  | status start hs =>
    exact Or.inr ⟨_, packet_trigger 0x40000000#32 0x80000000#32 start
      (by decide) (by decide), List.prefix_append _ _⟩
  | count start tag hs =>
    refine Or.inr ⟨_, packet_trigger _ 0x80000000#32 start tag (by decide), ?_⟩
    exact (List.prefix_append_right_inj _).mpr ⟨_, rfl⟩

/-- A pulse on channel a whose packet is stalled once, in its fourth cycle; the output is
closed after the packet. -/
def stalledPulse (t : Nat) : Input :=
  { Input.pulses 1 t with mAxisTready := decide (t ≠ 8 ∧ t < 30) }

theorem stalledPulse_states (t : Nat) :
    (run .smallest stalledPulse t).fsm.stateReg ≠ .stAttSubtr ∧
      (run .smallest stalledPulse t).fsm.stateReg ≠ .stAttPps := by
  have hbefore : ∀ t < 31, (run .smallest stalledPulse t).fsm.stateReg ≠ .stAttSubtr ∧
      (run .smallest stalledPulse t).fsm.stateReg ≠ .stAttPps := by decide +kernel
  rcases Nat.lt_or_ge t 31 with h | h
  · exact hbefore t h
  · induction t, h using Nat.le_induction with
    | base => decide +kernel
    | succ t ht ih =>
      have hstall : (stalledPulse t).mAxisTready = false := by
        simp [stalledPulse]
        omega
      rw [run_succ, (fsm_stall hstall).1]
      exact ih

/-- In this run every packet is a trigger packet of thirteen words. -/
theorem stalledPulse_packet {p : List Word} (h : Packet .smallest stalledPulse p) :
    p.length = 13 ∧ (p[11]?.map tag3) = some 0b010#3 := by
  cases h with
  | @trigger t status count start data st ct =>
    simp [burst, Generics.smallest, st]
  | @subtrigger t start => exact absurd start.1 (stalledPulse_states t).1
  | @pps t start => exact absurd start.1 (stalledPulse_states t).2

end RpEcosystem.Trigger
