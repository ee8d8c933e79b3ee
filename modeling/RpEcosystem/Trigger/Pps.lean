import RpEcosystem.Trigger.Packets
import RpEcosystem.Trigger.Ready

/-!
# Pulses and their packets

A pulse of `pps_i` latches the twelve words of `array_pps` in every state, but only
`ST_IDLE` looks at `pps_i` to send them: a pulse that meets a busy FSM is not remembered.
`pulse_reported_iff`: with the output always ready and pulses further apart than
`DATA_ARRAY_LENGTH + 20` cycles, a pulse is followed by exactly one complete PPS packet before
the next pulse if and only if it meets the FSM in `ST_IDLE`.

PPS words are recognised by their tag `11`: no other state sends such a word
(`sendWord_tag`), and the FSM is in `ST_ATT_PPS` only for the twelve cycles after a pulse
(`attPps_pulse`).
-/

namespace RpEcosystem.Trigger

open Clocked

variable {g : Generics} {x : Nat → Input}

/-! ## The words of the other packets -/

theorem ppsWords_tag (r : Regs g) (i : Input) (k : Fin metadataArrayLength) :
    tag2 (r.ppsWords i k) = 0b11#2 := by
  have hhead : ∀ (h : BitVec 5) (m : BitVec 3) (l : BitVec 24),
      tag2 (h ++ m ++ l) = h.extractLsb' 3 2 := by
    intro h m l
    unfold tag2
    rw [BitVec.extractLsb'_append_eq_of_le (by omega),
      BitVec.extractLsb'_append_eq_of_le (by omega)]
  change Fin 12 at k
  match k with
  | 0 | 1 | 2 | 3 | 4 | 5 | 6 | 7 | 8 | 9 => exact hhead _ _ _
  | 10 => exact BitVec.extractLsb'_append_eq_of_le (by omega)
  | 11 => exact (by decide : tag2 0xFFFFFFFF#32 = 0b11#2)

theorem tag2_clock (v w : BitVec 1) (c : BitVec 27) : tag2 (0b010#3 ++ v ++ w ++ c) = 0b01#2 := by
  unfold tag2
  repeat rw [BitVec.extractLsb'_append_eq_of_le (by omega)]
  rfl

theorem scalerWords_tag (r : Regs g) (i : Input) (k : Fin subtrigArrayLength) :
    tag2 (r.scalerWords i k) ≠ 0b11#2 := by
  have hhead : ∀ v w : BitVec 14, tag2 (0b0000#4 ++ v ++ w) = 0b00#2 := by
    intro v w
    unfold tag2
    rw [BitVec.extractLsb'_append_eq_of_le (by omega),
      BitVec.extractLsb'_append_eq_of_le (by omega)]
    rfl
  change Fin 3 at k
  match k with
  | 0 | 1 => exact ne_of_eq_of_ne (hhead _ _) (by decide)
  | 2 => exact ne_of_eq_of_ne (tag2_clock _ _ _) (by decide)

/-- No register sent outside `ST_ATT_PPS` holds a word tagged `11`. -/
def Regs.OtherTags (r : Regs g) : Prop :=
  tag2 r.trStatusReg ≠ 0b11#2 ∧ tag2 r.cntStatusReg ≠ 0b11#2 ∧
    ∀ k, tag2 (r.arrayScalersReg k) ≠ 0b11#2

theorem otherTags_next (i : Input) {r : Regs g} (h : r.OtherTags) : (next i r).OtherTags := by
  obtain ⟨hstatus, hcount, hscalers⟩ := h
  refine ⟨?_, ?_, fun k => ?_⟩
  · simp only [next]
    split_ifs
    · exact ne_of_eq_of_ne (tag2_clock _ _ _) (by decide)
    · exact hstatus
  · simp only [next]
    split_ifs
    · exact ne_of_eq_of_ne (tag2_cntStatus _) (by decide)
    · exact hcount
  · simp only [next, Regs.arrayScalersNext]
    split_ifs
    · exact scalerWords_tag _ _ k
    · exact hscalers k

theorem otherTags_run (g : Generics) (x : Nat → Input) (t : Nat) : (run g x t).OtherTags := by
  apply (machine g).run_invariant x
  · simp only [machine, Regs.reset, Regs.OtherTags]
    decide
  · intro t r h
    exact otherTags_next (x t) h

theorem sendWord_tag {t : Nat} (hidle : (run g x t).fsm.stateReg ≠ .stIdle)
    (hpps : (run g x t).fsm.stateReg ≠ .stAttPps) : tag2 (run g x t).sendWord ≠ 0b11#2 := by
  obtain ⟨hstatus, hcount, hscalers⟩ := otherTags_run g x t
  unfold Regs.sendWord
  cases hs : (run g x t).fsm.stateReg with
  | stIdle => exact absurd hs hidle
  | stAttTr => exact ne_of_eq_of_ne (tag2_sampleWord _) (by decide)
  | stSendTrStatus => exact hstatus
  | stSendCntStatus => exact hcount
  | stAttSubtr =>
    simp only [State.word, readArray]
    split_ifs
    · exact hscalers _
    · decide
  | stAttPps => exact absurd hs hpps

/-- Without `ST_ATT_PPS` no PPS word is transferred. -/
theorem transfers_tag (hready : AlwaysReady x) {a b : Nat}
    (h : ∀ u, a ≤ u → u + 1 < b → (run g x u).fsm.stateReg ≠ .stAttPps) :
    ∀ w ∈ transfers (output g x) (a + 1) b, tag2 w ≠ 0b11#2 := by
  intro w hw
  obtain ⟨v, hav, hvb, hout⟩ := mem_transfers.mp hw
  obtain ⟨u, rfl⟩ := Nat.exists_eq_add_of_le' (show 1 ≤ v by omega)
  rw [output_succ hready] at hout
  split_ifs at hout with hidle
  obtain rfl := Option.some.inj hout
  exact sendWord_tag hidle (h u (by omega) hvb)

/-! ## The state `ST_ATT_PPS` -/

theorem attPps_next {i : Input} {r : Regs g} (hready : i.mAxisTready = true)
    (h : (next i r).fsm.stateReg = .stAttPps) :
    (r.fsm.stateReg = .stAttPps ∧ r.fsm.wrCountReg.toNat ≠ metadataArrayLength - 1) ∨
      (r.fsm.stateReg = .stIdle ∧ i.ppsI = true) := by
  cases hs : r.fsm.stateReg with
  | stIdle =>
    refine Or.inr ⟨rfl, ?_⟩
    rw [(fsm_idle hs hready).1, idleNext] at h
    split_ifs at h with hpps
    exact hpps
  | stAttPps =>
    refine Or.inl ⟨rfl, ?_⟩
    intro hlast
    rw [(fsm_array (by rw [hs]; rfl) hready).1, if_pos hlast] at h
    cases h
  | stSendTrStatus =>
    rw [fsm_sendTrStatus hs hready] at h
    cases h
  | stSendCntStatus =>
    rw [fsm_sendCntStatus hs hready] at h
    cases h
  | stAttTr | stAttSubtr =>
    rw [(fsm_array (by rw [hs]; rfl) hready).1, hs] at h
    split_ifs at h

/-- The FSM is in `ST_ATT_PPS` only within twelve cycles after a pulse. -/
theorem attPps_pulse (hready : AlwaysReady x) {u : Nat}
    (h : (run g x u).fsm.stateReg = .stAttPps) :
    (run g x u).fsm.wrCountReg.toNat < metadataArrayLength ∧
      ∃ p, u = p + 1 + (run g x u).fsm.wrCountReg.toNat ∧ (x p).ppsI = true := by
  induction u with
  | zero => simp [Regs.reset] at h
  | succ u ih =>
    rw [run_succ] at h ⊢
    rcases attPps_next (hready u) h with ⟨hs, hlast⟩ | ⟨hs, hpulse⟩
    · obtain ⟨hlt, p, hp, hpulse⟩ := ih hs
      have hcount := (fsm_array (by rw [hs]; rfl) (hready u)).2
      have hsucc : (next (x u) (run g x u)).fsm.wrCountReg.toNat =
          (run g x u).fsm.wrCountReg.toNat + 1 := by
        rw [hcount, BitVec.toNat_add]
        simp only [metadataArrayLength] at hlt
        exact Nat.mod_eq_of_lt (by simp; omega)
      rw [hsucc]
      exact ⟨by omega, p, by omega, hpulse⟩
    · rw [(fsm_idle hs (hready u)).2]
      exact ⟨by decide, u, rfl, hpulse⟩

/-- Without a pulse the FSM does not come to `ST_ATT_PPS`. -/
theorem attPps_absent (hready : AlwaysReady x) {a b : Nat}
    (hstart : (run g x a).fsm.stateReg ≠ .stAttPps)
    (hquiet : ∀ u, a ≤ u → u < b → (x u).ppsI = false) :
    ∀ u, a ≤ u → u ≤ b → (run g x u).fsm.stateReg ≠ .stAttPps := by
  intro u hu
  induction u, hu using Nat.le_induction with
  | base => exact fun _ => hstart
  | succ u hu ih =>
    intro hub hs
    rcases attPps_next (hready u) hs with ⟨hs', -⟩ | ⟨-, hpulse⟩
    · exact ih (by omega) hs'
    · rw [hquiet u hu (by omega)] at hpulse
      cases hpulse

theorem arrayPps_kept {t u : Nat} (hpulse : (x t).ppsI = true) (htu : t + 1 ≤ u)
    (hquiet : ∀ v, t < v → v < u → (x v).ppsI = false) :
    (run g x u).arrayPpsReg = (run g x t).ppsWords (x t) := by
  induction u, htu using Nat.le_induction with
  | base =>
    rw [run_succ]
    simp [next, Regs.arrayPpsNext, hpulse]
  | succ u hu ih =>
    rw [run_succ]
    simpa [next, Regs.arrayPpsNext, hquiet u hu (by omega)] using
      ih fun v h1 h2 => hquiet v h1 (by omega)

/-! ## Every pulse and its packet -/

/-- Pulses are more than `DATA_ARRAY_LENGTH + 20` cycles apart. -/
def PulsesSpaced (g : Generics) (x : Nat → Input) : Prop :=
  ∀ t u, t < u → (x t).ppsI = true → (x u).ppsI = true → t + g.dataArrayLength + 20 < u

/-- The words transferred in the cycles `t + 1 .. b - 1` contain the twelve words latched by
the pulse in cycle `t`, complete and once, and no other PPS word. -/
def ReportedOnce (g : Generics) (x : Nat → Input) (t b : Nat) : Prop :=
  ∃ pre post, transfers (output g x) (t + 1) b =
      pre ++ List.ofFn ((run g x t).ppsWords (x t)) ++ post ∧
    (∀ w ∈ pre, tag2 w ≠ 0b11#2) ∧ ∀ w ∈ post, tag2 w ≠ 0b11#2

/-- A pulse that meets a busy FSM is lost: no PPS word follows it. -/
theorem transfers_tag_of_busy (hready : AlwaysReady x) (hspaced : PulsesSpaced g x) {t b : Nat}
    (hpulse : (x t).ppsI = true) (hquiet : ∀ u, t < u → u < b → (x u).ppsI = false)
    (hbusy : (run g x t).fsm.stateReg ≠ .stIdle) :
    ∀ w ∈ transfers (output g x) (t + 1) b, tag2 w ≠ 0b11#2 := by
  have hbefore : (run g x t).fsm.stateReg ≠ .stAttPps := by
    intro hs
    obtain ⟨hlt, p, hp, hpulse'⟩ := attPps_pulse hready hs
    have := hspaced p t (by omega) hpulse' hpulse
    simp only [metadataArrayLength] at hlt
    omega
  have hafter : (run g x (t + 1)).fsm.stateReg ≠ .stAttPps := by
    intro hs
    rcases attPps_next (hready t) hs with ⟨hs', -⟩ | ⟨hs', -⟩
    · exact hbefore hs'
    · exact hbusy hs'
  apply transfers_tag hready
  intro u hu hub
  rcases (by omega : u = t ∨ t + 1 ≤ u) with rfl | htu
  · exact hbefore
  · exact attPps_absent hready hafter (fun v h1 h2 => hquiet v h1 (by omega)) u htu le_rfl

theorem not_reportedOnce_of_tag {t b : Nat}
    (h : ∀ w ∈ transfers (output g x) (t + 1) b, tag2 w ≠ 0b11#2) : ¬ ReportedOnce g x t b := by
  rintro ⟨pre, post, hwords, -, -⟩
  have hmem : (run g x t).ppsWords (x t) ⟨0, by decide⟩ ∈ transfers (output g x) (t + 1) b := by
    rw [hwords]
    simp [List.mem_ofFn]
  exact h _ hmem (ppsWords_tag _ _ _)

theorem map_readArray {n : Nat} (array : Fin n → Word) :
    (List.range n).map (readArray array) = List.ofFn array := by
  apply List.ext_getElem
  · simp
  · intro k h1 h2
    have hk : k < n := by simpa using h1
    simp [readArray, hk]

/-- A pulse that meets the FSM in `ST_IDLE` is reported. -/
theorem reportedOnce_of_idle (hready : AlwaysReady x) {t b : Nat} (hb : t + 14 ≤ b)
    (hpulse : (x t).ppsI = true) (hquiet : ∀ u, t < u → u < b → (x u).ppsI = false)
    (hidle : (run g x t).fsm.stateReg = .stIdle) : ReportedOnce g x t b := by
  have hstart : Starts g x .stAttPps (t + 1) := by
    obtain ⟨hs, hcount⟩ := fsm_idle hidle (hready t)
    refine ⟨?_, hcount⟩
    rw [run_succ, hs, hpulse]
    rfl
  have hdone : (run g x (t + 1 + 12)).fsm.stateReg = .stIdle :=
    array_done hready rfl (by decide) (by decide) hstart
  have hpacket : transfers (output g x) (t + 2) (t + 14) =
      List.ofFn ((run g x t).ppsWords (x t)) := by
    rw [← map_readArray]
    refine transfers_some 12 fun k hk => ?_
    obtain ⟨hs, hcount⟩ := array_run hready rfl (by decide) hstart k hk
    rw [show t + 2 + k = t + 1 + k + 1 by omega, output_succ hready, hs]
    simp only [reduceCtorEq, if_false, Regs.sendWord, hs, State.word, hcount]
    rw [arrayPps_kept hpulse (by omega) fun v h1 h2 => hquiet v h1 (by omega)]
  refine ⟨[], transfers (output g x) (t + 14) b, ?_, by simp, ?_⟩
  · have hfirst : transfers (output g x) (t + 1) (t + 2) = [] := by
      rw [transfers_succ _ le_rfl, output_succ hready, if_pos hidle]
      simp
    rw [transfers_append _ (show t + 1 ≤ t + 2 by omega) (show t + 2 ≤ b by omega), hfirst,
      transfers_append _ (show t + 2 ≤ t + 14 by omega) hb, hpacket, List.append_assoc]
  · refine transfers_tag hready fun u hu hub => ?_
    exact attPps_absent hready (by rw [hdone]; decide)
      (fun v h1 h2 => hquiet v (by omega) (by omega)) u hu le_rfl

/-- **Pulses and packets.** With the output always ready and the pulses spaced, for all
interleavings with the ticks of both channels: let `b` be the cycle of the next pulse, or any
later horizon if there is none. The pulse in cycle `t` is followed before `b` by exactly one
complete PPS packet if and only if it meets the FSM in `ST_IDLE`. -/
theorem pulse_reported_iff (hready : AlwaysReady x) (hspaced : PulsesSpaced g x) {t b : Nat}
    (hpulse : (x t).ppsI = true) (hb : t + g.dataArrayLength + 20 < b)
    (hquiet : ∀ u, t < u → u < b → (x u).ppsI = false) :
    ReportedOnce g x t b ↔ (run g x t).fsm.stateReg = .stIdle := by
  constructor
  · intro h
    by_contra hbusy
    exact not_reportedOnce_of_tag (transfers_tag_of_busy hready hspaced hpulse hquiet hbusy) h
  · exact reportedOnce_of_idle hready (by omega) hpulse hquiet

/-- One trigger of channel a, whose packet is sent in the cycles 5 to 17, and one pulse in
cycle `p`. -/
def onePulse (p t : Nat) : Input :=
  { Input.quiet 1 t with
    sAxisTdata := if t = 1 then 1 else 0
    ppsI := decide (t = p) }

theorem onePulse_spaced (p : Nat) : PulsesSpaced .smallest (onePulse p) := by
  intro t u htu ht hu
  simp only [onePulse, decide_eq_true_eq] at ht hu
  omega

theorem pulse_reported_afterTrigger :
    ReportedOnce .smallest (onePulse 20) 20 60 ↔
      (run .smallest (onePulse 20) 20).fsm.stateReg = .stIdle := by
  refine pulse_reported_iff (fun _ => rfl) (onePulse_spaced 20) (by decide) (by decide) ?_
  intro u hu _
  simp only [onePulse, decide_eq_false_iff_not]
  omega

/-- The pulse in cycle 8 meets the FSM in `ST_ATT_TR`: no PPS word follows it, however long
the run goes on. -/
theorem pulse_duringTrigger_lost :
    AlwaysReady (onePulse 8) ∧ PulsesSpaced .smallest (onePulse 8) ∧ (onePulse 8 8).ppsI = true ∧
      ∀ b, (∀ w ∈ transfers (output .smallest (onePulse 8)) 9 b, tag2 w ≠ 0b11#2) ∧
        ¬ ReportedOnce .smallest (onePulse 8) 8 b := by
  refine ⟨fun _ => rfl, onePulse_spaced 8, rfl, fun b => ?_⟩
  have hquiet : ∀ u, 8 < u → u < b → (onePulse 8 u).ppsI = false := by
    intro u hu _
    simp only [onePulse, decide_eq_false_iff_not]
    omega
  have hlost := transfers_tag_of_busy (fun _ => rfl) (onePulse_spaced 8) rfl hquiet
    (by decide +kernel)
  exact ⟨hlost, not_reportedOnce_of_tag hlost⟩

end RpEcosystem.Trigger
