import RpEcosystem.Clocked.Stream
import RpEcosystem.Writer.Axi
import RpEcosystem.Writer.Bounds

/-!
# The send loop of `adc-test-server`

The RAM writer of `adc_test` fills a ring of `2 ^ 16` beats of eight bytes. The server reads its
position and sends one half of the ring when the writer has gone over to the other one. It knows
the half it waits for by `limit` alone.

* `Turn`, `Server`, `loop`: one client session of the server;
* `sends`: the buffers passed to `send`, with the number of beats in memory at that time;
* `GapFree`: the halves of the ring one after the other, each one complete;
* `Tracks`: `limit` and the number of beats agree on the half that comes next;
* `gap_free`: the sessions of every writer that is not faster than the polls.
-/

namespace RpEcosystem.AdcTest

open Clocked

/-- The writer of the `adc_test` design. -/
def writer : Writer.Generics := ⟨16, 3, by decide, by decide⟩

/-- What the server meets in one turn of its loop. -/
structure Turn where
  interrupted : Bool
  rxCntr : BitVec 32
  sendFails : Bool

/-- The server while a client is connected. -/
structure Server where
  limit : Int
  /-- the loop has not been left -/
  running : Bool

namespace Server

variable (s : Server) (e : Turn)

def position : Int := e.rxCntr.toInt

def ready : Bool :=
  (decide (0 < s.limit) && decide (s.limit < position e)) ||
    (decide (s.limit = 0) && decide (position e < 32 * 1024))

/-- The turn goes into the body of the loop. -/
def polls : Bool := s.running && !e.interrupted

def offset : Int := if 0 < s.limit then 0 else 256 * 1024

def nextLimit : Int := if 0 < s.limit then 0 else 32 * 1024

/-- The offset that is passed to `send` in this turn, if it is called. -/
def send : Option Int := if s.polls e && s.ready e then some s.offset else none

/-- The server after a turn; a failed `send` breaks the loop. -/
def next : Server where
  limit := if s.polls e && s.ready e then s.nextLimit else s.limit
  running := s.polls e && !(s.ready e && e.sendFails)

end Server

def loop : Machine Turn Server where
  reset := { limit := 32 * 1024, running := true }
  next e s := s.next e

/-- The server before turn `k`. -/
def session (e : Nat → Turn) (k : Nat) : Server := loop.run e k

/-! ## Halves of the ring -/

/-- The halves in turn, as offsets in bytes. -/
def halfOffset (i : Nat) : Int := if i % 2 = 0 then 0 else 256 * 1024

/-- A half that is sent while the writer has written a number of beats: all its bytes of lap `l`
are written, and none of the next lap. -/
def Complete (l : Nat) (q : Int × Nat) : Prop :=
  512 * 1024 * l + q.1 + 256 * 1024 ≤ 8 * q.2 ∧ 8 * q.2 ≤ 512 * 1024 * (l + 1) + q.1

/-- Call `i` sends half `b` of lap `l`. -/
def SentAt (sends : List (Int × Nat)) (l b i : Nat) : Prop :=
  ∃ q, sends[i]? = some q ∧ q.1 = halfOffset b ∧ Complete l q

/-- Low, high, low, high, and so on, each one complete for its lap. -/
structure GapFree (sends : List (Int × Nat)) : Prop where
  alternate : ∀ i q, sends[i]? = some q → q.1 = halfOffset i
  complete : ∀ i q, sends[i]? = some q → Complete (i / 2) q

theorem halfOffset_inj {i j : Nat} (h : halfOffset i = halfOffset j) : i % 2 = j % 2 := by
  unfold halfOffset at h
  split at h <;> split at h <;> omega

theorem Complete.lap_eq {l l' : Nat} {q : Int × Nat} (h : Complete l q) (h' : Complete l' q) :
    l = l' := by
  obtain ⟨hlow, hhigh⟩ := h
  obtain ⟨hlow', hhigh'⟩ := h'
  omega

namespace GapFree

variable {sends : List (Int × Nat)}

theorem nil : GapFree [] := ⟨by simp, by simp⟩

theorem concat (h : GapFree sends) {q : Int × Nat} (hoffset : q.1 = halfOffset sends.length)
    (hcomplete : Complete (sends.length / 2) q) : GapFree (sends ++ [q]) := by
  have hcases : ∀ i q', (sends ++ [q])[i]? = some q' →
      sends[i]? = some q' ∨ i = sends.length ∧ q' = q := by
    intro i q' hi
    rcases Nat.lt_or_ge i sends.length with hlt | hge
    · exact .inl (by rwa [List.getElem?_append_left hlt] at hi)
    · rw [List.getElem?_append_right hge, List.getElem?_singleton] at hi
      split at hi
      next hzero => exact .inr ⟨by omega, (Option.some.inj hi).symm⟩
      next => cases hi
  constructor
  · intro i q' hi
    rcases hcases i q' hi with hold | ⟨rfl, rfl⟩
    · exact h.alternate i q' hold
    · exact hoffset
  · intro i q' hi
    rcases hcases i q' hi with hold | ⟨rfl, rfl⟩
    · exact h.complete i q' hold
    · exact hcomplete

/-- A half of a lap has its number in the series. -/
theorem index_eq (h : GapFree sends) {i l b : Nat} (hsent : SentAt sends l b i) (hb : b < 2) :
    i = 2 * l + b := by
  obtain ⟨q, hi, hoffset, hlap⟩ := hsent
  have hl := (h.complete i q hi).lap_eq hlap
  have hparity := halfOffset_inj ((h.alternate i q hi).symm.trans hoffset)
  omega

theorem sentAt (h : GapFree sends) {l b : Nat} (hb : b < 2) (hlt : 2 * l + b < sends.length) :
    SentAt sends l b (2 * l + b) := by
  have hget := List.getElem?_eq_getElem hlt
  have hoffset := h.alternate _ _ hget
  have hlap := h.complete _ _ hget
  have hparity : (2 * l + b) % 2 = b % 2 := by omega
  have hdiv : (2 * l + b) / 2 = l := by omega
  rw [halfOffset, hparity] at hoffset
  rw [hdiv] at hlap
  exact ⟨_, hget, hoffset, hlap⟩

end GapFree

/-! ## One turn -/

section Step

variable {s : Server} {e : Turn} {m p p' : Nat}

/-- After `m` halves and `p` beats the server waits for half `m`, and the writer is in it or has
just finished it. -/
structure Tracks (m p : Nat) (s : Server) : Prop where
  limit : s.limit = if m % 2 = 0 then 32 * 1024 else 0
  low : 32768 * m ≤ p
  high : p ≤ 32768 * (m + 1)
  /-- the high half is taken at its last beat -/
  odd : m % 2 = 1 → p < 32768 * (m + 1)

/-- The server sees the number of beats modulo the ring. -/
theorem position_eq (hpos : e.rxCntr.toNat = p' % 2 ^ 16) :
    Server.position e = ((p' % 2 ^ 16 : Nat) : Int) := by
  have hlt : p' % 2 ^ 16 < 2 ^ 16 := Nat.mod_lt _ (by decide)
  rw [Server.position, BitVec.toInt_eq_toNat_of_lt (by omega), hpos]

/-- The half is ready if its end has been reached, for the low half if it has been passed. -/
theorem Tracks.ready_iff (h : Tracks m p s) (hpos : e.rxCntr.toNat = p' % 2 ^ 16) (hle : p ≤ p')
    (hgap : p' < 32768 * m + 65536) :
    s.ready e = true ↔ 32768 * (m + 1) + (if m % 2 = 0 then 1 else 0) ≤ p' := by
  have hlow := h.low
  simp only [Server.ready, position_eq hpos, h.limit, Bool.or_eq_true, Bool.and_eq_true,
    decide_eq_true_eq]
  split <;> omega

theorem Tracks.offset_eq (h : Tracks m p s) : s.offset = halfOffset m := by
  rw [Server.offset, halfOffset, h.limit]
  split <;> rfl

theorem Tracks.sent (h : Tracks m p s) (hpos : e.rxCntr.toNat = p' % 2 ^ 16) (hle : p ≤ p')
    (hgap : p' < 32768 * m + 65536) (hready : s.ready e = true) (hpolls : s.polls e = true) :
    Complete (m / 2) (s.offset, p') ∧ Tracks (m + 1) p' (s.next e) := by
  have hend := (h.ready_iff hpos hle hgap).1 hready
  have hlimit : (s.next e).limit = s.nextLimit := by simp [Server.next, hpolls, hready]
  rw [Complete, h.offset_eq, halfOffset]
  refine ⟨?_, ?_, ?_, ?_, ?_⟩
  · simp only
    split <;> omega
  · rw [hlimit, Server.nextLimit, h.limit]
    split <;> split <;> omega
  · omega
  · omega
  · omega

theorem Tracks.kept (h : Tracks m p s) (hpos : e.rxCntr.toNat = p' % 2 ^ 16) (hle : p ≤ p')
    (hgap : p' < 32768 * m + 65536) (hready : s.ready e = false) : Tracks m p' (s.next e) := by
  have hend := (h.ready_iff hpos hle hgap).not.1 (by simp [hready])
  have hlimit : (s.next e).limit = s.limit := by simp [Server.next, hready]
  have hlow := h.low
  refine ⟨?_, ?_, ?_, ?_⟩
  · rw [hlimit, h.limit]
  · omega
  · split at hend <;> omega
  · intro hodd
    rw [if_neg (by omega)] at hend
    omega

end Step

/-! ## Sessions -/

section Session

/-- Turn `k` of the server reads the writer in its cycle `c k`. The ring is not full before the
first turn, and at most `32767` beats are written between two turns. -/
structure Polling (F : Writer.Fifo) (x : Nat → Writer.Input) (c : Nat → Nat) (e : Nat → Turn) :
    Prop where
  reads : ∀ k, (e k).rxCntr = (Writer.run writer F x (c k)).stsData.setWidth 32
  order : ∀ k, c k ≤ c (k + 1)
  first : Writer.beats writer F x (c 0) < 2 ^ 16
  gap : ∀ k, Writer.beats writer F x (c (k + 1)) ≤ Writer.beats writer F x (c k) + 32767

variable (F : Writer.Fifo) (x : Nat → Writer.Input) (c : Nat → Nat) (e : Nat → Turn)

/-- The calls of `send` before turn `k`: the offset, and the beats written when it is called. -/
def sends (k : Nat) : List (Int × Nat) :=
  transfers (fun j => ((session e j).send (e j)).map fun offset =>
    (offset, Writer.beats writer F x (c j))) 0 k

/-- The beats at the last turn before turn `k`. -/
def lastBeats (k : Nat) : Nat := if k = 0 then 0 else Writer.beats writer F x (c (k - 1))

theorem session_succ (k : Nat) : session e (k + 1) = (session e k).next (e k) := rfl

variable {F x c e}

theorem sends_succ_of_send {k : Nat} (hpolls : (session e k).polls (e k) = true)
    (hready : (session e k).ready (e k) = true) : sends F x c e (k + 1) =
      sends F x c e k ++ [((session e k).offset, Writer.beats writer F x (c k))] := by
  rw [sends, transfers_succ _ (Nat.zero_le k), sends]
  simp [Server.send, hpolls, hready]

theorem sends_succ_of_not {k : Nat}
    (hnone : ((session e k).polls (e k) && (session e k).ready (e k)) = false) :
    sends F x c e (k + 1) = sends F x c e k := by
  rw [sends, transfers_succ _ (Nat.zero_le k), sends]
  simp [Server.send, hnone]

namespace Polling

variable (h : Polling F x c e)

include h

theorem rxCntr_eq (k : Nat) :
    (e k).rxCntr.toNat = Writer.beats writer F x (c k) % 2 ^ 16 := by
  have hlt : Writer.beats writer F x (c k) % 2 ^ 16 < 2 ^ 16 := Nat.mod_lt _ (by decide)
  rw [h.reads, Writer.Regs.stsData, Writer.intAddrReg_eq_beats, BitVec.toNat_setWidth,
    BitVec.toNat_ofNat]
  exact Nat.mod_eq_of_lt (by change _ % 2 ^ 16 < _; omega)

theorem lastBeats_le (k : Nat) : lastBeats F x c k ≤ Writer.beats writer F x (c k) := by
  cases k with
  | zero => exact Nat.zero_le _
  | succ k => exact events_mono _ (Nat.zero_le _) (h.order k)

theorem beats_lt {m k : Nat} {s : Server} (htracks : Tracks m (lastBeats F x c k) s) :
    Writer.beats writer F x (c k) < 32768 * m + 65536 := by
  cases k with
  | zero =>
    have hfirst := h.first
    omega
  | succ k =>
    have hgap := h.gap k
    have hhigh : Writer.beats writer F x (c k) ≤ 32768 * (m + 1) := htracks.high
    omega

/-- The halves sent so far, and where the writer is as long as the loop goes on. -/
theorem invariant (k : Nat) : GapFree (sends F x c e k) ∧ ((session e k).running = true →
    Tracks (sends F x c e k).length (lastBeats F x c k) (session e k)) := by
  induction k with
  | zero =>
    have hnone : sends F x c e 0 = [] := rfl
    rw [hnone]
    exact ⟨.nil, fun _ => ⟨rfl, Nat.zero_le _, Nat.zero_le _, by simp⟩⟩
  | succ k ih =>
    obtain ⟨hfree, htracks⟩ := ih
    cases hpolls : (session e k).polls (e k) with
    | false =>
      rw [sends_succ_of_not (by simp [hpolls])]
      refine ⟨hfree, fun hrun => absurd hrun ?_⟩
      simp [session_succ, Server.next, hpolls]
    | true =>
      have hrunning : (session e k).running = true := by
        simp only [Server.polls, Bool.and_eq_true] at hpolls
        exact hpolls.1
      have hwait := htracks hrunning
      cases hready : (session e k).ready (e k) with
      | false =>
        rw [sends_succ_of_not (by simp [hready])]
        exact ⟨hfree, fun _ => hwait.kept (h.rxCntr_eq k) (h.lastBeats_le k) (h.beats_lt hwait)
          hready⟩
      | true =>
        obtain ⟨hcomplete, hnext⟩ :=
          hwait.sent (h.rxCntr_eq k) (h.lastBeats_le k) (h.beats_lt hwait) hready hpolls
        rw [sends_succ_of_send hpolls hready]
        refine ⟨hfree.concat hwait.offset_eq hcomplete, fun _ => ?_⟩
        rw [List.length_append]
        exact hnext

end Polling

end Session

/-- The halves are sent in turn and each one when all its beats of the lap are written. No half of
a lap is sent twice, and at the first turn that finds the writer beyond it, it has been sent. -/
theorem gap_free {F : Writer.Fifo} {x : Nat → Writer.Input} {c : Nat → Nat} {e : Nat → Turn}
    (h : Polling F x c e) (k : Nat) :
    GapFree (sends F x c e k) ∧
      (∀ l b, b < 2 → ∀ i j, SentAt (sends F x c e k) l b i → SentAt (sends F x c e k) l b j →
        i = j) ∧
      ((session e (k + 1)).running = true → ∀ l b, b < 2 →
        2 ^ 16 * l + 32768 * (b + 1) < Writer.beats writer F x (c k) →
        ∃ i, SentAt (sends F x c e (k + 1)) l b i) := by
  have hfree := (h.invariant k).1
  refine ⟨hfree, ?_, ?_⟩
  · intro l b hb i j hi hj
    rw [hfree.index_eq hi hb, hfree.index_eq hj hb]
  · intro hrun l b hb hbeats
    obtain ⟨hfree', htracks⟩ := h.invariant (k + 1)
    have hhigh : Writer.beats writer F x (c k) ≤ 32768 * ((sends F x c e (k + 1)).length + 1) :=
      (htracks hrun).high
    exact ⟨2 * l + b, hfree'.sentAt hb (by omega)⟩

/-- A writer at full speed, polled every `32767` beats. -/
def steadyCycle (k : Nat) : Nat := 18 + 32767 * k

def steadyTurn (k : Nat) : Turn where
  interrupted := false
  rxCntr :=
    (Writer.run writer Writer.queue (Writer.streaming 0) (steadyCycle k)).stsData.setWidth 32
  sendFails := false

theorem steady_running (k : Nat) : (session steadyTurn k).running = true := by
  induction k with
  | zero => rfl
  | succ k ih => simp [session_succ, Server.next, Server.polls, ih, steadyTurn]

theorem steady_beats (k : Nat) :
    Writer.beats writer Writer.queue (Writer.streaming 0) (steadyCycle k) = 32767 * k :=
  Writer.streaming_beats 0 (32767 * k)

theorem steady_polling : Polling Writer.queue (Writer.streaming 0) steadyCycle steadyTurn where
  reads _ := rfl
  order k := by
    unfold steadyCycle
    omega
  first := by
    rw [steady_beats]
    decide
  gap k := by
    rw [steady_beats, steady_beats]
    omega

/-- After four turns the high half of the first lap has been sent too. -/
theorem gap_free_steady : Polling Writer.queue (Writer.streaming 0) steadyCycle steadyTurn ∧
    ∃ i, SentAt (sends Writer.queue (Writer.streaming 0) steadyCycle steadyTurn 4) 0 1 i := by
  refine ⟨steady_polling, (gap_free steady_polling 3).2.2 (steady_running 4) 0 1 (by decide) ?_⟩
  rw [steady_beats]
  decide

end RpEcosystem.AdcTest
