import RpEcosystem.Averager.Core
import RpEcosystem.Clocked.Events
import RpEcosystem.Clocked.Machine
import RpEcosystem.Clocked.Modulo
import RpEcosystem.Clocked.Stream

/-!
# Streams into and out of a block memory

`axis_bram_writer` stores the words of a stream at consecutive addresses and wraps around.
`axis_bram_reader` sends the words from address `0` to address `cfg_data` over and over. It compares
the address of the word on its output one cycle too late for a consumer that stops it at the end:
the flag of the last word comes early when the word before it has to wait, and the last word is
withdrawn when it has to wait itself.

* `Writer.stored_run`, `Writer.ring_holds_last`: the memory holds the last words that were taken;
* `Reader.Progress`, `Reader.progress_step`: what has been sent in each state;
* `Reader.sent_packets`: the packets, for every consumer and for one that does not stop at the end;
* `read_back`: what one core has stored the other one sends.
-/

namespace RpEcosystem.Axis

open Clocked Averager

/-! ## The writer -/

namespace Writer

variable {aw dw : Nat}

structure Input (dw : Nat) where
  sAxisTvalid : Bool
  sAxisTdata : BitVec dw

/-- The registers, with the memory behind the port. -/
structure Regs (aw dw : Nat) where
  addr : BitVec aw
  enbl : Bool
  mem : Ram aw dw

/-- A word is written, and the stream moves on. -/
def we (i : Input dw) (s : Regs aw dw) : Bool := i.sAxisTvalid && s.enbl

def next (i : Input dw) (s : Regs aw dw) : Regs aw dw where
  addr := if we i s then s.addr + 1 else s.addr
  enbl := true
  mem := writeA (we i s) s.addr i.sAxisTdata s.mem

/-- The circuit with what the memory holds at the reset. -/
def machine (mem : Ram aw dw) : Machine (Input dw) (Regs aw dw) where
  reset := ⟨0, false, mem⟩
  next := next

def run (mem : Ram aw dw) (x : Nat → Input dw) (t : Nat) : Regs aw dw := (machine mem).run x t

def stsData (s : Regs aw dw) : BitVec aw := s.addr

/-- The word that is taken in a cycle. -/
def taken (mem : Ram aw dw) (x : Nat → Input dw) (t : Nat) : Option (BitVec dw) :=
  if we (x t) (run mem x t) then some (x t).sAxisTdata else none

/-- The words that are taken in the first `t` cycles. -/
def words (mem : Ram aw dw) (x : Nat → Input dw) (t : Nat) : List (BitVec dw) :=
  transfers (taken mem x) 0 t

/-- The memory after the words `ws`, when it held `mem` before. -/
structure Stored (mem : Ram aw dw) (ws : List (BitVec dw)) (s : Regs aw dw) : Prop where
  addr : s.addr = BitVec.ofNat aw ws.length
  recent : ∀ k (hk : k < ws.length), ws.length ≤ k + 2 ^ aw → s.mem (BitVec.ofNat aw k) = ws[k]
  untouched : ∀ a : BitVec aw, ws.length ≤ a.toNat → s.mem a = mem a

theorem ofNat_ne_of_lt {k n : Nat} (hk : k < n) (hn : n < k + 2 ^ aw) :
    BitVec.ofNat aw k ≠ BitVec.ofNat aw n := by
  intro h
  have hmod : k % 2 ^ aw = n % 2 ^ aw := by
    have := congrArg BitVec.toNat h
    rwa [BitVec.toNat_ofNat, BitVec.toNat_ofNat] at this
  have := add_le_of_mod_eq hmod hk
  omega

theorem Stored.concat {mem : Ram aw dw} {ws : List (BitVec dw)} {s : Regs aw dw}
    (h : Stored mem ws s) (w : BitVec dw) :
    Stored mem (ws ++ [w])
      { s with addr := s.addr + 1, mem := Function.update s.mem s.addr w } := by
  have hlen : (ws ++ [w]).length = ws.length + 1 := by simp
  constructor
  · rw [hlen, BitVec.ofNat_add, ← h.addr]
    rfl
  · intro k hk hrecent
    rw [hlen] at hk hrecent
    by_cases hlast : k = ws.length
    · subst hlast
      simp [h.addr]
    · have hlt : k < ws.length := by omega
      rw [List.getElem_append_left hlt]
      change Function.update s.mem s.addr w (BitVec.ofNat aw k) = ws[k]
      rw [Function.update_of_ne (h.addr ▸ ofNat_ne_of_lt hlt (by omega)), h.recent k hlt (by omega)]
  · intro a ha
    rw [hlen] at ha
    have hne : a ≠ s.addr := by
      rintro rfl
      rw [h.addr, BitVec.toNat_ofNat] at ha
      have := Nat.mod_le ws.length (2 ^ aw)
      omega
    change Function.update s.mem s.addr w a = mem a
    rw [Function.update_of_ne hne, h.untouched a (by omega)]

/-- The memory holds the last words that were taken, at their numbers modulo its size. -/
theorem stored_run (mem : Ram aw dw) (x : Nat → Input dw) (t : Nat) :
    Stored mem (words mem x t) (run mem x t) := by
  induction t with
  | zero => exact ⟨rfl, fun k hk => absurd hk (by simp [words]), fun a _ => rfl⟩
  | succ t ih =>
    have hwords : words mem x (t + 1) = words mem x t ++ (taken mem x t).toList :=
      transfers_succ _ (Nat.zero_le t)
    have hrun : run mem x (t + 1) = next (x t) (run mem x t) := rfl
    rw [hwords, hrun, taken, next]
    cases hwe : we (x t) (run mem x t) with
    | true =>
      obtain ⟨haddr, hrecent, huntouched⟩ := ih.concat (x t).sAxisTdata
      exact ⟨haddr, hrecent, huntouched⟩
    | false =>
      simp only [Bool.false_eq_true, if_false, Option.toList_none, List.append_nil]
      exact ⟨ih.addr, ih.recent, ih.untouched⟩

/-- Once the stream has gone round the memory, what is read from the next address on, around the
memory, are the last words that were taken, the oldest first. -/
theorem ring_holds_last (mem : Ram aw dw) (x : Nat → Input dw) (t : Nat)
    (hround : 2 ^ aw ≤ (words mem x t).length) :
    (List.range (2 ^ aw)).map (fun k => (run mem x t).mem
        (stsData (run mem x t) + BitVec.ofNat aw k)) =
      (words mem x t).drop ((words mem x t).length - 2 ^ aw) := by
  have h := stored_run mem x t
  apply List.ext_getElem
  · rw [List.length_map, List.length_range, List.length_drop, Nat.sub_sub_self hround]
  · intro k hk _
    rw [List.length_map, List.length_range] at hk
    rw [List.getElem_map, List.getElem_range, List.getElem_drop]
    -- the address of a word is its number modulo the size
    have haddr : stsData (run mem x t) + BitVec.ofNat aw k =
        BitVec.ofNat aw ((words mem x t).length - 2 ^ aw + k) := by
      have hlen : (words mem x t).length = 2 ^ aw + ((words mem x t).length - 2 ^ aw) := by omega
      rw [stsData, h.addr, ← BitVec.ofNat_add]
      apply BitVec.eq_of_toNat_eq
      rw [BitVec.toNat_ofNat, BitVec.toNat_ofNat]
      generalize (words mem x t).length - 2 ^ aw = m at hlen
      rw [hlen, Nat.add_assoc, Nat.add_mod_left]
    rw [haddr]
    exact h.recent _ (by omega) (by omega)

/-- Ten words in a memory of eight. -/
theorem ring_holds_last_eight :
    (List.range 8).map (fun k =>
        (run (fun _ => 0 : Ram 3 8) (fun t => ⟨true, BitVec.ofNat 8 t⟩) 11).mem
          (stsData (run (fun _ => 0 : Ram 3 8) (fun t => ⟨true, BitVec.ofNat 8 t⟩) 11) +
            BitVec.ofNat 3 k)) =
      [3, 4, 5, 6, 7, 8, 9, 10] := by
  have hwords : words (fun _ => 0 : Ram 3 8) (fun t => ⟨true, BitVec.ofNat 8 t⟩) 11 =
      [1, 2, 3, 4, 5, 6, 7, 8, 9, 10] := by decide
  have h := ring_holds_last (fun _ => 0 : Ram 3 8) (fun t => ⟨true, BitVec.ofNat 8 t⟩) 11
    (by rw [hwords]; decide)
  rw [hwords] at h
  exact h

end Writer

/-! ## The reader -/

namespace Reader

variable {aw dw : Nat}

/-- The registers, with the output register of the memory. -/
structure Regs (aw dw : Nat) where
  addr : BitVec aw
  addrDly : BitVec aw
  tlast : Bool
  comp : Bool
  bramRddata : BitVec dw

def addrNext (tready : Bool) (s : Regs aw dw) : BitVec aw :=
  if tready && s.comp then s.addr + 1 else if !s.comp then 0 else s.addr

def next (cfgData : BitVec aw) (mem : Ram aw dw) (tready : Bool) (s : Regs aw dw) :
    Regs aw dw where
  addr := addrNext tready s
  addrDly := s.addr
  tlast := s.addr = cfgData - 1
  comp := !decide (s.addr = cfgData)
  bramRddata := mem (addrNext tready s)

def machine (cfgData : BitVec aw) (mem : Ram aw dw) : Machine Bool (Regs aw dw) where
  reset := ⟨0, 0, false, false, 0⟩
  next := next cfgData mem

/-- The registers in cycle `t`; `x` is `m_axis_tready`. -/
def run (cfgData : BitVec aw) (mem : Ram aw dw) (x : Nat → Bool) (t : Nat) : Regs aw dw :=
  (machine cfgData mem).run x t

def stsData (s : Regs aw dw) : BitVec aw := s.addrDly

/-- The word transferred on `m_axis` with its `tlast`; `comp_reg` is `m_axis_tvalid`. -/
def transfer (tready : Bool) (s : Regs aw dw) : Option (BitVec dw × Bool) :=
  if s.comp && tready then some (s.bramRddata, s.tlast) else none

def sent (cfgData : BitVec aw) (mem : Ram aw dw) (x : Nat → Bool) (t : Nat) :
    List (BitVec dw × Bool) :=
  transfers (fun u => transfer (x u) (run cfgData mem x u)) 0 t

/-! ### Packets -/

/-- The first `n` words, without a flag. -/
def body (mem : Ram aw dw) (n : Nat) : List (BitVec dw × Bool) :=
  (List.range n).map fun k => (mem (BitVec.ofNat aw k), false)

/-- The words up to address `n`, with the flag on the last one. -/
def packet (mem : Ram aw dw) (n : Nat) : List (BitVec dw × Bool) :=
  body mem n ++ [(mem (BitVec.ofNat aw n), true)]

/-- What is sent at a time: the words up to address `n`, where the flag of the last but one is
`early`, and the last one is there or not. -/
inductive Burst (mem : Ram aw dw) (n : Nat) : List (BitVec dw × Bool) → Prop
  | whole (early : Bool) :
    Burst mem n (body mem (n - 1) ++
      [(mem (BitVec.ofNat aw (n - 1)), early), (mem (BitVec.ofNat aw n), true)])
  | cut (early : Bool) : Burst mem n (body mem (n - 1) ++ [(mem (BitVec.ofNat aw (n - 1)), early)])

/-- The consumer takes the last two words when they are offered. -/
def Prompt (cfgData : BitVec aw) (mem : Ram aw dw) (x : Nat → Bool) : Prop :=
  ∀ t, (run cfgData mem x t).comp = true → cfgData.toNat ≤ (run cfgData mem x t).addr.toNat + 1 →
    x t = true

theorem body_succ (mem : Ram aw dw) (n : Nat) :
    body mem (n + 1) = body mem n ++ [(mem (BitVec.ofNat aw n), false)] := by
  rw [body, List.range_succ, List.map_append, body]
  rfl

/-! ### One edge -/

/-- What has been sent of the current packet; `prompt` says that the consumer is. -/
inductive Progress (prompt : Prop) (cfgData : BitVec aw) (mem : Ram aw dw) (s : Regs aw dw) :
    List (BitVec dw × Bool) → Prop
  | idle (hcomp : s.comp = false) (haddr : s.addr ≠ cfgData - 1) : Progress prompt cfgData mem s []
  | busy (hcomp : s.comp = true) (hdata : s.bramRddata = mem s.addr)
      (haddr : s.addr.toNat + 1 < cfgData.toNat) (htlast : s.tlast = false) :
    Progress prompt cfgData mem s (body mem s.addr.toNat)
  | lastButOne (hcomp : s.comp = true) (hdata : s.bramRddata = mem s.addr)
      (haddr : s.addr.toNat + 1 = cfgData.toNat) (htlast : prompt → s.tlast = false) :
    Progress prompt cfgData mem s (body mem s.addr.toNat)
  | last (early : Bool) (hcomp : s.comp = true) (hdata : s.bramRddata = mem s.addr)
      (haddr : s.addr = cfgData) (htlast : s.tlast = true) (hearly : prompt → early = false) :
    Progress prompt cfgData mem s (body mem (cfgData.toNat - 1) ++
      [(mem (BitVec.ofNat aw (cfgData.toNat - 1)), early)])

/-- A burst, which is a whole packet for a prompt consumer. -/
def Sends (prompt : Prop) (cfgData : BitVec aw) (mem : Ram aw dw) (p : List (BitVec dw × Bool)) :
    Prop :=
  Burst mem cfgData.toNat p ∧ (prompt → p = packet mem cfgData.toNat)

theorem sends_whole (prompt : Prop) (cfgData : BitVec aw) (hcfg : 2 ≤ cfgData.toNat)
    (mem : Ram aw dw) {early : Bool} (hearly : prompt → early = false) :
    Sends prompt cfgData mem (body mem (cfgData.toNat - 1) ++
      [(mem (BitVec.ofNat aw (cfgData.toNat - 1)), early),
        (mem (BitVec.ofNat aw cfgData.toNat), true)]) := by
  refine ⟨.whole early, fun hp => ?_⟩
  have hbody := body_succ mem (cfgData.toNat - 1)
  rw [show cfgData.toNat - 1 + 1 = cfgData.toNat by omega] at hbody
  rw [packet, hbody, hearly hp, List.append_assoc]
  rfl

section Step

variable {prompt : Prop} {cfgData : BitVec aw} {mem : Ram aw dw} {s : Regs aw dw}
  {cur : List (BitVec dw × Bool)}

theorem eq_sub_one_iff' (h : 2 ≤ cfgData.toNat) (a : BitVec aw) :
    a = cfgData - 1 ↔ a.toNat + 1 = cfgData.toNat := by
  rw [eq_sub_one_iff rfl (by omega)]
  omega

variable (mem) in
theorem next_comp_of_ne (h : s.addr ≠ cfgData) (tready : Bool) :
    (next cfgData mem tready s).comp = true := by
  simp [next, h]

variable (cfgData mem) in
theorem next_busy (hcomp : s.comp = true) (tready : Bool) :
    (next cfgData mem tready s).addr = if tready then s.addr + 1 else s.addr := by
  cases tready <;> simp [next, addrNext, hcomp]

/-- One edge: a burst may end, and the rest belongs to the next one. -/
theorem progress_step (hcfg : 2 ≤ cfgData.toNat) (h : Progress prompt cfgData mem s cur)
    (tready : Bool)
    (hprompt : prompt → s.comp = true → cfgData.toNat ≤ s.addr.toNat + 1 → tready = true) :
    ∃ done cur', Progress prompt cfgData mem (next cfgData mem tready s) cur' ∧
      cur ++ (transfer tready s).toList = done ++ cur' ∧
      (done = [] ∨ Sends prompt cfgData mem done) := by
  have hlt := cfgData.isLt
  have hread : (next cfgData mem tready s).bramRddata =
      mem (next cfgData mem tready s).addr := rfl
  have htlast : (next cfgData mem tready s).tlast = decide (s.addr = cfgData - 1) := rfl
  cases h with
  | idle hcomp haddr =>
    have haddr' : (next cfgData mem tready s).addr = 0 := by simp [next, addrNext, hcomp]
    have hsent : transfer tready s = none := by simp [transfer, hcomp]
    rw [hsent]
    by_cases hcfgaddr : s.addr = cfgData
    · refine ⟨[], [], .idle (by simp [next, hcfgaddr]) ?_, rfl, .inl rfl⟩
      rw [haddr', Ne, eq_sub_one_iff' hcfg]
      simp
      omega
    · have hzero : (next cfgData mem tready s).addr.toNat = 0 := by rw [haddr']; rfl
      have hbusy : Progress prompt cfgData mem (next cfgData mem tready s)
          (body mem (next cfgData mem tready s).addr.toNat) :=
        .busy (next_comp_of_ne mem hcfgaddr tready) hread (by omega)
          (by rw [htlast]; simpa using haddr)
      rw [hzero] at hbusy
      exact ⟨[], _, hbusy, rfl, .inl rfl⟩
  | busy hcomp hdata haddr hflag =>
    have hne : s.addr ≠ cfgData := fun he => by rw [he] at haddr; omega
    have htlast' : (next cfgData mem tready s).tlast = false := by
      rw [htlast, decide_eq_false_iff_not, eq_sub_one_iff' hcfg]
      omega
    have hcomp' := next_comp_of_ne mem hne tready
    have haddr' := next_busy cfgData mem hcomp tready
    cases tready with
    | false =>
      have hstay : (next cfgData mem false s).addr = s.addr := haddr'
      have hbusy : Progress prompt cfgData mem (next cfgData mem false s)
          (body mem (next cfgData mem false s).addr.toNat) :=
        .busy hcomp' hread (by rw [hstay]; exact haddr) htlast'
      rw [hstay] at hbusy
      exact ⟨[], _, hbusy, by simp [transfer], .inl rfl⟩
    | true =>
      have hsucc : (next cfgData mem true s).addr.toNat = s.addr.toNat + 1 := by
        rw [haddr', if_pos rfl]
        exact toNat_add_one_of_lt (by omega)
      have hbody : body mem (next cfgData mem true s).addr.toNat =
          body mem s.addr.toNat ++ [(mem s.addr, false)] := by
        rw [hsucc, body_succ, BitVec.ofNat_toNat, BitVec.setWidth_eq]
      have hsent : (transfer true s).toList = [(mem s.addr, false)] := by
        simp [transfer, hcomp, hdata, hflag]
      refine ⟨[], body mem (next cfgData mem true s).addr.toNat, ?_, by rw [hsent, hbody]; rfl,
        .inl rfl⟩
      rcases Nat.lt_or_ge (s.addr.toNat + 2) cfgData.toNat with hmore | hlast
      · exact .busy hcomp' hread (by omega) htlast'
      · exact .lastButOne hcomp' hread (by omega) fun _ => htlast'
  | lastButOne hcomp hdata haddr hflag =>
    have hne : s.addr ≠ cfgData := fun he => by rw [he] at haddr; omega
    have htlast' : (next cfgData mem tready s).tlast = true := by
      rw [htlast, decide_eq_true_eq, eq_sub_one_iff' hcfg]
      exact haddr
    have hcomp' := next_comp_of_ne mem hne tready
    have haddr' := next_busy cfgData mem hcomp tready
    cases tready with
    | false =>
      -- the flag comes although the word stays
      have hslow : ¬ prompt := fun hp => Bool.noConfusion (hprompt hp hcomp (by omega))
      have hstay : (next cfgData mem false s).addr = s.addr := haddr'
      have hagain : Progress prompt cfgData mem (next cfgData mem false s)
          (body mem (next cfgData mem false s).addr.toNat) :=
        .lastButOne hcomp' hread (by rw [hstay]; exact haddr) fun hp => absurd hp hslow
      rw [hstay] at hagain
      exact ⟨[], _, hagain, by simp [transfer], .inl rfl⟩
    | true =>
      have hsucc : (next cfgData mem true s).addr = cfgData := by
        apply BitVec.eq_of_toNat_eq
        rw [haddr', if_pos rfl, toNat_add_one_of_lt (by omega), haddr]
      have hpre : cfgData.toNat - 1 = s.addr.toNat := by omega
      have hsent : (transfer true s).toList = [(mem (BitVec.ofNat aw s.addr.toNat), s.tlast)] := by
        simp [transfer, hcomp, hdata]
      have hlast : Progress prompt cfgData mem (next cfgData mem true s) _ :=
        .last s.tlast hcomp' hread hsucc htlast' hflag
      rw [hpre] at hlast
      exact ⟨[], _, hlast, by rw [hsent]; rfl, .inl rfl⟩
  | last early hcomp hdata haddr hflag hearly =>
    have hcomp' : (next cfgData mem tready s).comp = false := by simp [next, haddr]
    have haddr' := next_busy cfgData mem hcomp tready
    cases tready with
    | false =>
      -- the word is withdrawn
      have hslow : ¬ prompt := fun hp =>
        Bool.noConfusion (hprompt hp hcomp (by rw [haddr]; omega))
      refine ⟨_, [], .idle hcomp' ?_, by simp [transfer],
        .inr ⟨.cut early, fun hp => absurd hp hslow⟩⟩
      rw [haddr', if_neg Bool.false_ne_true, haddr, Ne, eq_sub_one_iff' hcfg]
      omega
    | true =>
      have hsent : (transfer true s).toList = [(mem (BitVec.ofNat aw cfgData.toNat), true)] := by
        simp [transfer, hcomp, hdata, hflag, haddr]
      have hsends := sends_whole prompt cfgData hcfg mem hearly
      refine ⟨_, [], .idle hcomp' ?_, by rw [hsent, List.append_nil, List.append_assoc]; rfl,
        .inr hsends⟩
      rw [haddr', if_pos rfl, haddr, Ne, eq_sub_one_iff' hcfg]
      rcases Nat.lt_or_ge (cfgData.toNat + 1) (2 ^ aw) with hroom | hfull
      · rw [toNat_add_one_of_lt hroom]
        omega
      · have hwrap : (cfgData + 1).toNat = 0 := by
          rw [BitVec.toNat_add, show (1 : BitVec aw) = BitVec.ofNat aw 1 from rfl,
            BitVec.toNat_ofNat, Nat.add_mod_mod, show cfgData.toNat + 1 = 2 ^ aw by omega,
            Nat.mod_self]
        omega

end Step

/-! ### Whole runs -/

theorem body_prefix_body (mem : Ram aw dw) {a n : Nat} (h : a ≤ n) : body mem a <+: body mem n := by
  have htake : (body mem n).take a = body mem a := by
    rw [body, ← List.map_take, List.take_range, Nat.min_eq_left h, body]
  exact htake ▸ List.take_prefix a _

/-- What has been sent of a packet is the beginning of one. -/
theorem Progress.exists_sends {prompt : Prop} {cfgData : BitVec aw} {mem : Ram aw dw}
    {s : Regs aw dw} {cur : List (BitVec dw × Bool)} (hcfg : 2 ≤ cfgData.toNat)
    (h : Progress prompt cfgData mem s cur) :
    ∃ p, Sends prompt cfgData mem p ∧ cur <+: p := by
  have hwhole := sends_whole prompt cfgData hcfg mem (fun _ => rfl : prompt → false = false)
  cases h with
  | idle => exact ⟨_, hwhole, List.nil_prefix⟩
  | busy _ _ haddr _ =>
    exact ⟨_, hwhole, (body_prefix_body mem (by omega)).trans (List.prefix_append _ _)⟩
  | lastButOne _ _ haddr _ =>
    exact ⟨_, hwhole, (body_prefix_body mem (by omega)).trans (List.prefix_append _ _)⟩
  | last early _ _ _ _ hearly =>
    refine ⟨_, sends_whole prompt cfgData hcfg mem hearly, ?_⟩
    exact ⟨[(mem (BitVec.ofNat aw cfgData.toNat), true)], by rw [List.append_assoc]; rfl⟩

theorem sent_stream {cfgData : BitVec aw} (hcfg : 2 ≤ cfgData.toNat) (mem : Ram aw dw)
    (x : Nat → Bool) (t : Nat) :
    PacketStream (Sends (Prompt cfgData mem x) cfgData mem) (sent cfgData mem x t) := by
  suffices h : ∃ (ps : List (List (BitVec dw × Bool))) (cur : List (BitVec dw × Bool)),
      sent cfgData mem x t = ps.flatten ++ cur ∧
      (∀ p ∈ ps, Sends (Prompt cfgData mem x) cfgData mem p) ∧
      Progress (Prompt cfgData mem x) cfgData mem (run cfgData mem x t) cur by
    obtain ⟨ps, cur, hsent, hps, hcur⟩ := h
    exact ⟨ps, cur, hsent, hps, .inr (hcur.exists_sends hcfg)⟩
  induction t with
  | zero =>
    refine ⟨[], [], rfl, by simp, .idle rfl ?_⟩
    change (0 : BitVec aw) ≠ _
    rw [Ne, eq_sub_one_iff' hcfg]
    simp
    omega
  | succ t ih =>
    obtain ⟨ps, cur, hsent, hps, hcur⟩ := ih
    obtain ⟨done, cur', hcur', hsplit, hdone⟩ :=
      progress_step hcfg hcur (x t) fun hp => hp t
    have hnext : sent cfgData mem x (t + 1) =
        sent cfgData mem x t ++ (transfer (x t) (run cfgData mem x t)).toList :=
      transfers_succ _ (Nat.zero_le t)
    rw [hnext, hsent, List.append_assoc, hsplit, ← List.append_assoc]
    rcases hdone with rfl | hdone
    · exact ⟨ps, cur', by simp, hps, hcur'⟩
    · refine ⟨ps ++ [done], cur', by simp, fun p hp => ?_, hcur'⟩
      rcases List.mem_append.mp hp with hp | hp
      · exact hps p hp
      · rw [List.mem_singleton.mp hp]
        exact hdone

end Reader

/-! ## Round trip -/

variable {aw dw : Nat}

namespace Reader

theorem packet_fst (mem : Ram aw dw) (n : Nat) :
    (packet mem n).map Prod.fst = (List.range (n + 1)).map fun k => mem (BitVec.ofNat aw k) := by
  rw [packet, body, List.map_append, List.map_map, List.range_succ, List.map_append]
  rfl

theorem packet_snd (mem : Ram aw dw) (n : Nat) :
    (packet mem n).map Prod.snd = List.replicate n false ++ [true] := by
  rw [packet, body, List.map_append, List.map_map]
  congr 1
  apply List.ext_getElem
  · simp
  · simp

end Reader

/-- As long as the stream has not gone round the memory, its numbers are addresses. -/
theorem Writer.Stored.range_map {mem : Ram aw dw} {ws : List (BitVec dw)} {s : Writer.Regs aw dw}
    (h : Writer.Stored mem ws s) (hfit : ws.length ≤ 2 ^ aw) {n : Nat} (hn : n ≤ ws.length) :
    (List.range n).map (fun k => s.mem (BitVec.ofNat aw k)) = ws.take n := by
  apply List.ext_getElem
  · simp [hn]
  · intro k hk _
    rw [List.length_map, List.length_range] at hk
    rw [List.getElem_map, List.getElem_range, List.getElem_take]
    exact h.recent k (by omega) (by omega)

end RpEcosystem.Axis
