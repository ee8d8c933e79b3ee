import RpEcosystem.Clocked.Machine
import RpEcosystem.Clocked.Modulo
import RpEcosystem.Clocked.Stream

/-!
# Packets by their length: `axis_tlast_gen`

The core passes a stream through and marks the word that finds the counter at `pkt_length - 1`. The
length is compared while the word passes, so it may change at any time: a packet ends with the first
word whose number is the length that is set when it passes, modulo the size of the counter. A packet
under one length has that many words, and `2 ^ PKT_CNTR_BITS` of them if the length is zero.

* `Input`, `Regs`, `machine`: the circuit;
* `Word`, `sent`: the words on `m_axis` with the length they met;
* `Open`, `Packet`: a packet under way, and a whole one;
* `packets_by_length`: the stream is made of packets.
-/

namespace RpEcosystem.TlastGen

open Clocked

structure Input (tw cw : Nat) where
  pktLength : BitVec cw
  sAxisTvalid : Bool
  sAxisTdata : BitVec tw
  mAxisTready : Bool

structure Regs (cw : Nat) where
  cnt : BitVec cw

variable {tw cw : Nat}

namespace Regs

variable (r : Regs cw) (i : Input tw cw)

def axisTlast : Bool := r.cnt = i.pktLength - 1

def sAxisTready : Bool := i.mAxisTready

def mAxisTvalid : Bool := i.sAxisTvalid

def newSample : Bool := i.sAxisTvalid && sAxisTready i

def next : Regs cw where
  cnt :=
    if r.axisTlast i && newSample i then 0
    else if newSample i then r.cnt + 1
    else r.cnt

end Regs

def machine (tw cw : Nat) : Machine (Input tw cw) (Regs cw) where
  reset := ⟨0⟩
  next := fun i r => r.next i

def run (x : Nat → Input tw cw) (t : Nat) : Regs cw := (machine tw cw).run x t

/-- A word transferred on `m_axis`, with the length that was set. -/
structure Word (tw cw : Nat) where
  tdata : BitVec tw
  pktLength : BitVec cw
  tlast : Bool
  deriving DecidableEq, Repr

def transfer (i : Input tw cw) (r : Regs cw) : Option (Word tw cw) :=
  if Regs.mAxisTvalid i && i.mAxisTready then some ⟨i.sAxisTdata, i.pktLength, r.axisTlast i⟩
  else none

/-- The words transferred before cycle `t`. -/
def sent (x : Nat → Input tw cw) (t : Nat) : List (Word tw cw) :=
  transfers (fun u => transfer (x u) (run x u)) 0 t

/-! ## Packets -/

/-- No word is marked, and none met its own number as the length. -/
def Open (p : List (Word tw cw)) : Prop :=
  ∀ k w, p[k]? = some w → w.tlast = false ∧ w.pktLength ≠ BitVec.ofNat cw (k + 1)

/-- The last word is marked and met its own number as the length. -/
def Packet (p : List (Word tw cw)) : Prop :=
  ∃ front w, p = front ++ [w] ∧ Open front ∧ w.tlast = true ∧
    w.pktLength = BitVec.ofNat cw p.length

theorem Open.concat {p : List (Word tw cw)} (h : Open p) {w : Word tw cw}
    (hlast : w.tlast = false) (hlength : w.pktLength ≠ BitVec.ofNat cw (p.length + 1)) :
    Open (p ++ [w]) := by
  intro k v hk
  rcases Nat.lt_or_ge k p.length with hlt | hge
  · rw [List.getElem?_append_left hlt] at hk
    exact h k v hk
  · rw [List.getElem?_append_right hge] at hk
    obtain ⟨hzero, rfl⟩ : k - p.length = 0 ∧ w = v := by
      cases hsub : k - p.length with
      | zero => simpa [hsub] using hk
      | succ d => simp [hsub] at hk
    rw [show k = p.length by omega]
    exact ⟨hlast, hlength⟩

theorem Open.closed {p : List (Word tw cw)} (h : Open p) {w : Word tw cw}
    (hlast : w.tlast = true) (hlength : w.pktLength = BitVec.ofNat cw (p.length + 1)) :
    Packet (p ++ [w]) :=
  ⟨p, w, rfl, h, hlast, by rw [hlength, List.length_append, List.length_singleton]⟩

/-- An open packet can be closed by one more word. -/
theorem Open.cut {p : List (Word tw cw)} (h : Open p) : ∃ q, Packet q ∧ p <+: q :=
  ⟨p ++ [⟨0, BitVec.ofNat cw (p.length + 1), true⟩], h.closed rfl rfl, List.prefix_append _ _⟩

/-- A packet whose words met one length. -/
theorem Packet.length_eq {p : List (Word tw cw)} (hp : Packet p) {n : BitVec cw}
    (hn : ∀ w ∈ p, w.pktLength = n) :
    p.length = if n = 0 then 2 ^ cw else n.toNat := by
  obtain ⟨front, w, rfl, hopen, -, hlength⟩ := hp
  have hlen : (front ++ [w]).length = front.length + 1 := List.length_append
  rw [hn w (by simp), hlen] at hlength
  -- no earlier word of the packet has the length as its number
  have hfirst : ∀ k, k < front.length → n ≠ BitVec.ofNat cw (k + 1) := by
    intro k hk
    obtain ⟨v, hv⟩ : ∃ v, front[k]? = some v := ⟨front[k], List.getElem?_eq_getElem hk⟩
    rw [← hn v (List.mem_append_left _ (List.mem_of_getElem? hv))]
    exact (hopen k v hv).2
  have hpos : 0 < 2 ^ cw := Nat.two_pow_pos cw
  have hmod : n.toNat = (front.length + 1) % 2 ^ cw := by rw [hlength, BitVec.toNat_ofNat]
  have hle : front.length + 1 ≤ 2 ^ cw := by
    by_contra hgt
    -- the word one round of the counter earlier has the same number
    refine hfirst (front.length - 2 ^ cw) (by omega) ?_
    apply BitVec.eq_of_toNat_eq
    rw [hmod, BitVec.toNat_ofNat, ← Nat.add_mod_right (front.length - 2 ^ cw + 1)]
    congr 1
    omega
  rw [hlen]
  by_cases hzero : n = 0
  · rw [if_pos hzero]
    rw [hzero] at hmod
    by_contra hne
    rw [Nat.mod_eq_of_lt (by omega)] at hmod
    exact absurd hmod (by simp)
  · rw [if_neg hzero, hmod]
    have hne : front.length + 1 ≠ 2 ^ cw := by
      intro heq
      rw [heq, Nat.mod_self] at hmod
      exact hzero (BitVec.eq_of_toNat_eq (by simpa using hmod))
    exact (Nat.mod_eq_of_lt (by omega)).symm

/-! ## Runs -/

section Step

variable {i : Input tw cw} {r : Regs cw} {n : Nat}

theorem axisTlast_iff (hcnt : r.cnt = BitVec.ofNat cw n) :
    r.axisTlast i = true ↔ i.pktLength = BitVec.ofNat cw (n + 1) := by
  rw [Regs.axisTlast, decide_eq_true_eq, hcnt, BitVec.ofNat_add]
  constructor
  · intro h
    rw [h]
    exact (BitVec.sub_add_cancel _ _).symm
  · intro h
    rw [h]
    exact (BitVec.add_sub_cancel _ _).symm

theorem newSample_eq : Regs.newSample i = (Regs.mAxisTvalid i && i.mAxisTready) := rfl

end Step

/-- The words sent are whole packets and an open one, which the counter counts. -/
theorem sent_run (x : Nat → Input tw cw) (t : Nat) :
    ∃ (ps : List (List (Word tw cw))) (front : List (Word tw cw)),
      sent x t = ps.flatten ++ front ∧ (∀ p ∈ ps, Packet p) ∧ Open front ∧
        (run x t).cnt = BitVec.ofNat cw front.length := by
  induction t with
  | zero => exact ⟨[], [], rfl, nofun, fun k w h => by simp at h, rfl⟩
  | succ t ih =>
    obtain ⟨ps, front, hsent, hps, hopen, hcnt⟩ := ih
    have hlast := axisTlast_iff (i := x t) hcnt
    have hrun : run x (t + 1) = (run x t).next (x t) := rfl
    rw [sent] at hsent
    rw [sent, transfers_succ _ (Nat.zero_le t), hsent, hrun, Regs.next, transfer, newSample_eq]
    cases hpass : Regs.mAxisTvalid (x t) && (x t).mAxisTready with
    | false => exact ⟨ps, front, by simp, hps, hopen, by simpa using hcnt⟩
    | true =>
      cases htlast : (run x t).axisTlast (x t) with
      | false =>
        refine ⟨ps, front ++ [⟨(x t).sAxisTdata, (x t).pktLength, false⟩], by simp, hps, ?_, ?_⟩
        · refine hopen.concat rfl fun hlength => ?_
          rw [hlast.mpr hlength] at htlast
          exact absurd htlast (by decide)
        · simp [hcnt, BitVec.ofNat_add]
      | true =>
        refine ⟨ps ++ [front ++ [⟨(x t).sAxisTdata, (x t).pktLength, true⟩]], [], by simp, ?_,
          fun k w h => by simp at h, by simp⟩
        exact List.forall_mem_append.mpr
          ⟨hps, List.forall_mem_singleton.mpr (hopen.closed rfl (hlast.mp htlast))⟩

/-- **Packets.** Whatever the two sides and the length do, the stream is cut into packets that end
with the first word whose number is the length it meets; a packet that meets one length has that
many words. -/
theorem packets_by_length (x : Nat → Input tw cw) (t : Nat) :
    PacketStream (fun p => Packet p ∧ ∀ n, (∀ w ∈ p, w.pktLength = n) →
      p.length = if n = 0 then 2 ^ cw else n.toNat) (sent x t) := by
  obtain ⟨ps, front, hsent, hps, hopen, -⟩ := sent_run x t
  refine PacketStream.imp (fun p hp => ⟨hp, fun n => hp.length_eq⟩) ?_
  exact ⟨ps, front, hsent, hps, .inr hopen.cut⟩

end RpEcosystem.TlastGen
