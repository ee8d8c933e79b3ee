import RpEcosystem.Writer.Bounds

/-!
# The AXI write protocol of the writer

The address channel and the data channel of a burst are offered together and progress
independently, but the address offered is computed from the counter of data beats.

* `Phase`: where a run stands, in terms of the addresses and the beats accepted so far;
* `Protocol`: what a master of the write channels promises;
* `protocol_of_safe`: it holds in every run in which no beat is accepted while the address of
  its burst waits, and only there.
-/

namespace RpEcosystem.Writer

open Clocked

variable {g : Generics} {F : Fifo} {x : Nat → Input}

/-- The beats accepted before cycle `t`. -/
def beats (g : Generics) (F : Fifo) (x : Nat → Input) (t : Nat) : Nat := events (beat g F x) 0 t

/-- The burst addresses accepted before cycle `t`. -/
def addresses (g : Generics) (F : Fifo) (x : Nat → Input) (t : Nat) : Nat :=
  events (addressAccepted g F x) 0 t

theorem beats_succ (t : Nat) :
    beats g F x (t + 1) = beats g F x t + if beat g F x t then 1 else 0 :=
  events_succ _ (Nat.zero_le t)

theorem addresses_succ (t : Nat) : addresses g F x (t + 1) =
    addresses g F x t + if addressAccepted g F x t then 1 else 0 :=
  events_succ _ (Nat.zero_le t)

/-- The ring holds whole bursts, so the counter shows the place in the burst. -/
theorem toNat_mod_16 {r : Regs g F} {n : Nat} (h : r.intAddrReg = BitVec.ofNat _ n) :
    r.intAddrReg.toNat % 16 = n % 16 := by
  rw [h, BitVec.toNat_ofNat]
  exact Nat.mod_mod_of_dvd n (Nat.pow_dvd_pow 2 g.four_le)

theorem intWlastWire_beats {r : Regs g F} {n : Nat} (h : r.intAddrReg = BitVec.ofNat _ n) :
    r.intWlastWire = decide (n % 16 = 15) := by
  rw [Regs.intWlastWire_eq, toNat_mod_16 h]

/-! ## Bursts -/

/-- The three phases of a burst, with `a` addresses and `b` beats accepted so far. -/
inductive Phase (a b : Nat) (r : Regs g F) : Prop
  /-- no burst is under way -/
  | idle (aw : r.intAwvalidReg = false) (w : r.intWvalidReg = false) (h : b = 16 * a)
  /-- the address of the burst waits, and none of its beats has been accepted -/
  | offered (aw : r.intAwvalidReg = true) (w : r.intWvalidReg = true) (h : b = 16 * a)
  /-- the address has been accepted and the last beat has not -/
  | running (aw : r.intAwvalidReg = false) (w : r.intWvalidReg = true) (h : b / 16 + 1 = a)

namespace Phase

variable {a b : Nat} {r : Regs g F}

/-- Between two bursts: the next one is offered at once if the FIFO holds it. -/
theorem boundary {i : Input} (aw : r.intAwvalidReg = false) (hb : b = 16 * a)
    (hend : r.intWvalidReg = false ∧ r.intWlastWire = false ∨
      r.intWvalidReg = true ∧ i.mAxiWready = true ∧ r.intWlastWire = true) :
    Phase a b (Writer.next i r) := by
  obtain ⟨w, hl⟩ | ⟨w, hready, hl⟩ := hend
  all_goals
    cases hempty : r.intEmptyWire with
    | true =>
      apply Phase.idle _ _ hb
      · simp [Writer.next, Regs.intAwvalidNext, Regs.starts, hempty, aw]
      · simp [Writer.next, Regs.intWvalidNext, Regs.starts, *]
    | false =>
      apply Phase.offered _ _ hb
      · simp [Writer.next, Regs.intAwvalidNext, Regs.starts, *]
      · simp [Writer.next, Regs.intWvalidNext, Regs.starts, *]

theorem next_offered {i : Input} (aw : r.intAwvalidReg = true) (w : r.intWvalidReg = true)
    (hl : r.intWlastWire = false) (hb : b = 16 * a)
    (hsafe : i.mAxiAwready = false → r.intRdenWire i = false) :
    Phase (a + if i.mAxiAwready then 1 else 0) (b + if r.intRdenWire i then 1 else 0)
      (Writer.next i r) := by
  have hw : (Writer.next i r).intWvalidReg = true := by
    simp [Writer.next, Regs.intWvalidNext, Regs.starts, aw, hl, w]
  cases hready : i.mAxiAwready with
  | false =>
    rw [hsafe hready]
    apply Phase.offered _ hw hb
    simp [Writer.next, Regs.intAwvalidNext, Regs.starts, hl, hready, aw]
  | true =>
    apply Phase.running _ hw
    · simp only [if_true]
      split <;> omega
    · simp [Writer.next, Regs.intAwvalidNext, Regs.starts, hl, hready, aw, w]

theorem next_running {i : Input} (aw : r.intAwvalidReg = false) (w : r.intWvalidReg = true)
    (hlast : r.intWlastWire = decide (b % 16 = 15)) (hb : b / 16 + 1 = a) :
    Phase a (b + if r.intRdenWire i then 1 else 0) (Writer.next i r) := by
  by_cases hend : i.mAxiWready = true ∧ b % 16 = 15
  · obtain ⟨hready, hmod⟩ := hend
    apply boundary aw
    · rw [Regs.intRdenWire, hready, w]
      simp only [Bool.and_self, if_true]
      omega
    · exact Or.inr ⟨w, hready, hlast.trans (decide_eq_true hmod)⟩
  · have hl : (i.mAxiWready && r.intWlastWire) = false := by
      rw [hlast, Bool.and_eq_false_iff]
      by_cases hready : i.mAxiWready = true
      · exact Or.inr (decide_eq_false fun hmod => hend ⟨hready, hmod⟩)
      · exact Or.inl (Bool.eq_false_iff.mpr hready)
    apply Phase.running
    · simp [Writer.next, Regs.intAwvalidNext, Regs.starts, aw, w, hl]
    · simp [Writer.next, Regs.intWvalidNext, Regs.starts, w, hl]
    · rw [Regs.intRdenWire, w, Bool.and_true]
      split
      · have hmod : ¬ b % 16 = 15 := fun hmod => hend ⟨‹_›, hmod⟩
        omega
      · exact hb

/-- A clock edge at which no beat overtakes its address. -/
theorem next (h : Phase a b r) {i : Input} (haddr : r.intAddrReg = BitVec.ofNat _ b)
    (hsafe : r.intAwvalidReg = true → i.mAxiAwready = false → r.intRdenWire i = false) :
    Phase (a + if r.intAwvalidReg && i.mAxiAwready then 1 else 0)
      (b + if r.intRdenWire i then 1 else 0) (next i r) := by
  have hlast := intWlastWire_beats haddr
  have hfirst : b = 16 * a → r.intWlastWire = false := by
    intro hb
    rw [hlast]
    exact decide_eq_false (by omega)
  cases h with
  | idle aw w h =>
    simp only [aw, Regs.intRdenWire, w, Bool.and_false, Bool.false_and, Bool.false_eq_true,
      if_false, Nat.add_zero]
    exact boundary aw h (Or.inl ⟨w, hfirst h⟩)
  | offered aw w h =>
    rw [aw, Bool.true_and]
    exact next_offered aw w (hfirst h) h (hsafe aw)
  | running aw w h =>
    simp only [aw, Bool.false_and, Bool.false_eq_true, if_false, Nat.add_zero]
    exact next_running aw w hlast h

/-- While the address waits the counter stands at the beginning of its burst. -/
theorem address (h : Phase a b r) (haw : r.intAwvalidReg = true) :
    r.intWvalidReg = true ∧ b = 16 * a := by
  cases h with
  | idle aw w h => simp [aw] at haw
  | offered aw w h => exact ⟨w, h⟩
  | running aw w h => simp [aw] at haw

/-- No beat is offered outside a burst. -/
theorem valid (h : Phase a b r) (hw : r.intWvalidReg = true) :
    r.intAwvalidReg = true ∧ b = 16 * a ∨ r.intAwvalidReg = false ∧ b / 16 + 1 = a := by
  cases h with
  | idle aw w h => simp [w] at hw
  | offered aw w h => exact Or.inl ⟨aw, h⟩
  | running aw w h => exact Or.inr ⟨aw, h⟩

theorem idle_mod (h : Phase a b r) (hw : r.intWvalidReg = false) : b % 16 = 0 := by
  cases h with
  | idle aw w h => omega
  | offered aw w h => simp [w] at hw
  | running aw w h => simp [w] at hw

end Phase

/-- A beat is accepted in cycle `t` while a burst address waits. -/
def overtakes (g : Generics) (F : Fifo) (x : Nat → Input) (t : Nat) : Bool :=
  (run g F x t).intAwvalidReg && !(x t).mAxiAwready && beat g F x t

theorem phase_run (t : Nat) (hsafe : ∀ u, u < t → overtakes g F x u = false) :
    Phase (addresses g F x t) (beats g F x t) (run g F x t) := by
  induction t with
  | zero => exact .idle rfl rfl rfl
  | succ t ih =>
    rw [beats_succ, addresses_succ]
    refine (ih fun u hu => hsafe u (by omega)).next (intAddrReg_eq_beats x t) ?_
    intro haw hready
    have := hsafe t (by omega)
    simpa [overtakes, haw, hready, beat] using this

/-! ## The protocol -/

/-- What the writer promises to a memory controller in a run. -/
structure Protocol (g : Generics) (F : Fifo) (x : Nat → Input) : Prop where
  /-- an address that waits stays as it is -/
  stable : ∀ t, (run g F x t).intAwvalidReg = true → (x t).mAxiAwready = false →
    (run g F x (t + 1)).intAwvalidReg = true ∧
      (run g F x (t + 1)).mAxiAwaddr (x (t + 1)) = (run g F x t).mAxiAwaddr (x t) ∧
      (run g F x (t + 1)).mAxiAwid = (run g F x t).mAxiAwid
  /-- the addresses are those of consecutive bursts of the ring -/
  address : ∀ t, addressAccepted g F x t = true → (run g F x t).mAxiAwaddr (x t) =
    (x t).cfgData + BitVec.ofNat 32 (16 * 8 * addresses g F x t % 2 ^ (g.addrWidth + 3))
  /-- a beat of group `k` comes after the addresses of the groups `0 .. k` and before any
  other -/
  group : ∀ t, beat g F x t = true → addresses g F x (t + 1) = beats g F x t / 16 + 1
  wlast : ∀ t, beat g F x t = true →
    ((run g F x t).intWlastWire = true ↔ beats g F x t % 16 = 15)

/-- Throughout a run no beat is accepted while a burst address waits, and `cfg_data` does not
change under an address that waits. -/
def Safe (g : Generics) (F : Fifo) (x : Nat → Input) : Prop :=
  ∀ t, (run g F x t).intAwvalidReg = true → (x t).mAxiAwready = false →
    beat g F x t = false ∧ (x (t + 1)).cfgData = (x t).cfgData

theorem Safe.overtakes (h : Safe g F x) (t : Nat) : overtakes g F x t = false := by
  unfold Writer.overtakes
  cases haw : (run g F x t).intAwvalidReg with
  | false => rfl
  | true =>
    cases hready : (x t).mAxiAwready with
    | true => rfl
    | false => rw [(h t haw hready).1]; rfl

/-- The address of the burst that begins at beat `16 * a`. -/
theorem mAxiAwaddr_burst {r : Regs g F} {a : Nat} (i : Input)
    (h : r.intAddrReg = BitVec.ofNat _ (16 * a)) : r.mAxiAwaddr i =
      i.cfgData + BitVec.ofNat 32 (16 * 8 * a % 2 ^ (g.addrWidth + 3)) := by
  rw [Regs.mAxiAwaddr_eq, h, BitVec.toNat_ofNat, ← Nat.mul_mod_mul_left, Nat.pow_add,
    Nat.mul_comm (2 ^ g.addrWidth)]
  congr 3
  omega

/-- An address that waits with no beat accepted. -/
theorem stalled_next {r : Regs g F} {i : Input} (haw : r.intAwvalidReg = true)
    (hw : r.intWvalidReg = true) (hready : i.mAxiAwready = false)
    (hbeat : r.intRdenWire i = false) :
    (next i r).intAwvalidReg = true ∧ (next i r).intAddrReg = r.intAddrReg ∧
      (next i r).intWidReg = r.intWidReg := by
  have hwready : i.mAxiWready = false := by simpa [Regs.intRdenWire, hw] using hbeat
  refine ⟨?_, ?_, ?_⟩
  · simp [next, Regs.intAwvalidNext, haw, hready]
  · simp [next, Regs.intAddrNext, hbeat]
  · simp [next, Regs.intWidNext, hwready]

theorem protocol_of_safe (h : Safe g F x) : Protocol g F x := by
  have hphase : ∀ t, Phase (addresses g F x t) (beats g F x t) (run g F x t) :=
    fun t => phase_run t fun u _ => h.overtakes u
  refine ⟨?_, ?_, ?_, ?_⟩
  · intro t haw hready
    obtain ⟨hbeat, hcfg⟩ := h t haw hready
    obtain ⟨hw, -⟩ := (hphase t).address haw
    obtain ⟨haw', haddr, hwid⟩ := stalled_next haw hw hready hbeat
    rw [run_succ]
    refine ⟨haw', ?_, hwid⟩
    rw [Regs.mAxiAwaddr_eq, Regs.mAxiAwaddr_eq, haddr, hcfg]
  · intro t ht
    simp only [addressAccepted, Bool.and_eq_true] at ht
    have hcount := ((hphase t).address ht.1).2
    apply mAxiAwaddr_burst
    rw [← hcount]
    exact intAddrReg_eq_beats x t
  · intro t ht
    have hw : (run g F x t).intWvalidReg = true := by
      simp only [beat, Regs.intRdenWire, Bool.and_eq_true] at ht
      exact ht.2
    rw [addresses_succ]
    rcases (hphase t).valid hw with ⟨haw, hcount⟩ | ⟨haw, hcount⟩
    · have hready : (x t).mAxiAwready = true := by
        by_contra hready
        rw [(h t haw (by simpa using hready)).1] at ht
        cases ht
      rw [addressAccepted, haw, hready]
      simp only [Bool.and_self, if_true]
      omega
    · rw [addressAccepted, haw]
      simp only [Bool.false_and, Bool.false_eq_true, if_false]
      omega
  · intro t _
    rw [intWlastWire_beats (intAddrReg_eq_beats x t), decide_eq_true_iff]
    rfl

/-- The counter moves with every beat, and different counts give different addresses. -/
theorem mAxiAwaddr_beat {r : Regs g F} {i j : Input} (hbeat : r.intRdenWire i = true)
    (hcfg : j.cfgData = i.cfgData) : (next i r).mAxiAwaddr j ≠ r.mAxiAwaddr i := by
  have hpow : 2 ^ 4 ≤ 2 ^ g.addrWidth := Nat.pow_le_pow_right (by decide) g.four_le
  have hpow' : 2 ^ g.addrWidth ≤ 2 ^ 29 := Nat.pow_le_pow_right (by decide) g.le_29
  have hlt := r.intAddrReg.isLt
  have hlt' := (next i r).intAddrReg.isLt
  have hstep : (next i r).intAddrReg.toNat = (r.intAddrReg.toNat + 1) % 2 ^ g.addrWidth := by
    simp only [next, Regs.intAddrNext, hbeat, if_true]
    rw [BitVec.toNat_add, show (1 : BitVec g.addrWidth) = BitVec.ofNat _ 1 from rfl,
      BitVec.toNat_ofNat, Nat.add_mod_mod]
  intro h
  rw [Regs.mAxiAwaddr_eq, Regs.mAxiAwaddr_eq, hcfg, BitVec.add_right_inj] at h
  have hval := congrArg BitVec.toNat h
  rw [BitVec.toNat_ofNat, BitVec.toNat_ofNat, Nat.mod_eq_of_lt (by omega),
    Nat.mod_eq_of_lt (by omega), hstep] at hval
  rcases Nat.lt_or_ge (r.intAddrReg.toNat + 1) (2 ^ g.addrWidth) with hin | hwrap
  · rw [Nat.mod_eq_of_lt hin] at hval
    omega
  · rw [show r.intAddrReg.toNat + 1 = 2 ^ g.addrWidth by omega, Nat.mod_self] at hval
    omega

/-- With a constant `cfg_data`, a beat accepted while an address waits moves the address. -/
theorem Protocol.safe (h : Protocol g F x) (hcfg : ∀ t, (x (t + 1)).cfgData = (x t).cfgData) :
    Safe g F x := by
  intro t haw hready
  obtain ⟨-, haddr, -⟩ := h.stable t haw hready
  refine ⟨?_, hcfg t⟩
  by_contra hbeat
  rw [run_succ] at haddr
  exact mAxiAwaddr_beat (by simpa [beat] using hbeat) (hcfg t) haddr

/-- **The AXI write protocol.** For every FIFO, input stream and ready pattern: a run in which
no beat overtakes the address of its burst follows the protocol, and with a constant
`cfg_data` no other run does. -/
theorem protocol_iff_safe (g : Generics) (F : Fifo) (x : Nat → Input) :
    (Safe g F x → Protocol g F x) ∧
      ((∀ t, (x (t + 1)).cfgData = (x t).cfgData) → (Protocol g F x ↔ Safe g F x)) :=
  ⟨protocol_of_safe, fun hcfg => ⟨fun h => h.safe hcfg, protocol_of_safe⟩⟩

theorem protocol_streaming :
    Safe .lago queue (streaming 0) ∧ Protocol .lago queue (streaming 0) := by
  have hsafe : Safe .lago queue (streaming 0) := by
    intro t _ hready
    cases hready
  exact ⟨hsafe, (protocol_iff_safe .lago queue (streaming 0)).1 hsafe⟩

/-- A stream with a word in every cycle and memory that accepts data before addresses. -/
def dataFirst (base : BitVec 32) (t : Nat) : Input :=
  { streaming base t with mAxiAwready := false }

/-- The address moves in the first cycle in which it waits. -/
theorem dataFirst_moves :
    (run .lago queue (dataFirst 0) 18).intAwvalidReg = true ∧
      (dataFirst 0 18).mAxiAwready = false ∧
      (run .lago queue (dataFirst 0) 18).mAxiAwaddr (dataFirst 0 18) = 0 ∧
      (run .lago queue (dataFirst 0) 19).mAxiAwaddr (dataFirst 0 19) = 8 ∧
      ¬ Protocol .lago queue (dataFirst 0) := by
  have haw : (run .lago queue (dataFirst 0) 18).intAwvalidReg = true := by decide +kernel
  have h18 : (run .lago queue (dataFirst 0) 18).mAxiAwaddr (dataFirst 0 18) = 0 := by
    decide +kernel
  have h19 : (run .lago queue (dataFirst 0) 19).mAxiAwaddr (dataFirst 0 19) = 8 := by
    decide +kernel
  refine ⟨haw, rfl, h18, h19, ?_⟩
  intro h
  have hmove := (h.stable 18 haw rfl).2.1
  rw [h18, h19] at hmove
  exact absurd hmove (by decide)

end RpEcosystem.Writer
