import RpEcosystem.Clocked.Response
import RpEcosystem.Register.Core

/-!
# One answer for every access

The write response and the read data of both cores are channels with one register in the sense
of `Clocked.Channel`, and their ready outputs do not look at that register: `s_axi_awready` is
the request itself and `s_axi_arready` is tied high. A request that meets an answer the master
has not taken is accepted and replaces that answer.

* `Cfg.writeChannel`, `Cfg.readChannel`, `Sts.readChannel`: the three channels of a run;
* `answered_iff`: a run without such overruns answers every access in order; and whenever
  no answer waits, the counts agree exactly if there was none so far.
-/

namespace RpEcosystem.Register

open Clocked

/-- Out of reset, a valid bit and a data register that follow the accepted requests are a channel
with one register. -/
theorem registered_of_next {α : Type} {c : Channel α} {aresetn req : Nat → Bool} (zero : α)
    (haresetn : ∀ t, aresetn t = true) (hreq : ∀ t, c.request t = req t)
    (hempty : c.valid 0 = false)
    (hvalid : ∀ t, c.valid (t + 1) = (aresetn t && validNext (req t) (c.ready t) (c.valid t)))
    (hdata : ∀ t, c.data (t + 1) =
      if aresetn t then if req t then c.selected t else c.data t else zero) :
    c.Registered where
  empty := hempty
  valid_succ t := by rw [hvalid, haresetn, hreq, Bool.true_and, validNext]
  data_succ t := by rw [hdata, hreq, if_pos (haresetn t)]

namespace Cfg

variable {g : Generics} (r : Regs g) (x : Nat → Input)

/-- The accepted writes and the write responses, which carry no data. -/
def writeChannel : Channel Unit where
  request t := (x t).awvalid && (x t).awready && ((x t).wvalid && (x t).wready)
  selected _ := ()
  ready t := (x t).bready
  valid t := (runFrom r x t).bvalid
  data _ := ()

/-- The accepted reads and the read data. -/
def readChannel : Channel (BitVec 32) where
  request t := (x t).arvalid && arready
  selected t := g.readMux (runFrom r x t).cfgData (g.index (x t).araddr)
  ready t := (x t).rready
  valid t := (runFrom r x t).rvalid
  data t := (runFrom r x t).rdata

/-- A master that keeps an address or data it offers until it is accepted. The read address is
accepted in the cycle in which it is offered. -/
def Legal : Prop := ∀ t,
  ((x t).awvalid = true → (x t).awready = false →
    (x (t + 1)).awvalid = true ∧ (x (t + 1)).awaddr = (x t).awaddr) ∧
  ((x t).wvalid = true → (x t).wready = false →
    (x (t + 1)).wvalid = true ∧ (x (t + 1)).wdata = (x t).wdata ∧
      (x (t + 1)).wstrb = (x t).wstrb)

theorem accepts_eq (i : Input) :
    (i.awvalid && i.awready && (i.wvalid && i.wready)) = i.intWvalidWire := by
  rw [Input.awready, Input.wready, Input.intWvalidWire]
  cases i.awvalid <;> cases i.wvalid <;> rfl

variable {r x}

theorem writeChannel_registered (hb : r.bvalid = false) (haresetn : ∀ t, (x t).aresetn = true) :
    (writeChannel r x).Registered :=
  registered_of_next () haresetn (fun t => accepts_eq (x t)) hb (fun _ => rfl) (fun _ => rfl)

theorem readChannel_registered (hr : r.rvalid = false) (haresetn : ∀ t, (x t).aresetn = true) :
    (readChannel r x).Registered :=
  registered_of_next 0 haresetn (fun _ => Bool.and_true _) hr (fun _ => rfl) (fun _ => rfl)

end Cfg

namespace Sts

variable {g : Generics} (r : Regs) (x : Nat → Input g)

def readChannel : Channel (BitVec 32) where
  request t := (x t).arvalid && arready
  selected t := g.readMux (x t).stsData (g.index (x t).araddr)
  ready t := (x t).rready
  valid t := (runFrom r x t).rvalid
  data t := (runFrom r x t).rdata

variable {r x}

theorem readChannel_registered (hr : r.rvalid = false) (haresetn : ∀ t, (x t).aresetn = true) :
    (readChannel r x).Registered :=
  registered_of_next 0 haresetn (fun _ => Bool.and_true _) hr (fun _ => rfl) (fun _ => rfl)

end Sts

/-- For every behaviour of the master, and on each of the three channels: when no request meets
an answer that waits and is not taken, every request gets its own answer. Conversely, in a cycle
without a waiting answer the counts agree only if there was no such request so far. -/
theorem answered_iff (g : Generics) :
    (∀ (r : Cfg.Regs g) (x : Nat → Cfg.Input), r.bvalid = false → r.rvalid = false →
      (∀ t, (x t).aresetn = true) →
        ((Cfg.writeChannel r x).NoOverrun → (Cfg.writeChannel r x).Answers) ∧
        ((Cfg.readChannel r x).NoOverrun → (Cfg.readChannel r x).Answers) ∧
        (∀ t, (Cfg.runFrom r x t).bvalid = false →
          (events (Cfg.writeChannel r x).taken 0 t = events (Cfg.writeChannel r x).request 0 t ↔
            ∀ u, u < t → (Cfg.writeChannel r x).overrun u = false)) ∧
        (∀ t, (Cfg.runFrom r x t).rvalid = false →
          (events (Cfg.readChannel r x).taken 0 t = events (Cfg.readChannel r x).request 0 t ↔
            ∀ u, u < t → (Cfg.readChannel r x).overrun u = false))) ∧
      (∀ (r : Sts.Regs) (x : Nat → Sts.Input g), r.rvalid = false →
        (∀ t, (x t).aresetn = true) →
          ((Sts.readChannel r x).NoOverrun → (Sts.readChannel r x).Answers) ∧
          (∀ t, (Sts.runFrom r x t).rvalid = false →
            (events (Sts.readChannel r x).taken 0 t = events (Sts.readChannel r x).request 0 t ↔
              ∀ u, u < t → (Sts.readChannel r x).overrun u = false))) := by
  refine ⟨?_, ?_⟩
  · intro r x hb hr haresetn
    have hwrite := Cfg.writeChannel_registered hb haresetn
    have hread := Cfg.readChannel_registered hr haresetn
    exact ⟨hwrite.answers, hread.answers, fun t ht => hwrite.events_eq_iff ht,
      fun t ht => hread.events_eq_iff ht⟩
  · intro r x hr haresetn
    have hread := Sts.readChannel_registered hr haresetn
    exact ⟨hread.answers, fun t ht => hread.events_eq_iff ht⟩

/-- Two writes and two reads in adjacent cycles; the master takes answers in cycle 2 only. -/
def Cfg.Input.impatient (t : Nat) : Cfg.Input where
  aresetn := true
  awaddr := 0
  awvalid := decide (t < 2)
  wdata := 0
  wstrb := 0b1111#4
  wvalid := decide (t < 2)
  bready := decide (t = 2)
  araddr := 0
  arvalid := decide (t < 2)
  rready := decide (t = 2)

/-- The second request replaces the first answer on both channels. -/
theorem answers_lost :
    Cfg.Legal Cfg.Input.impatient ∧
      ¬ (Cfg.writeChannel (Cfg.machine .standard).reset Cfg.Input.impatient).Answers ∧
      ¬ (Cfg.readChannel (Cfg.machine .standard).reset Cfg.Input.impatient).Answers := by
  refine ⟨?_, ?_, ?_⟩
  · intro t
    simp [Cfg.Input.awready, Cfg.Input.wready, Cfg.Input.intWvalidWire, Cfg.Input.impatient]
    omega
  · intro h
    have hthree := h.counted 3 (by decide +kernel)
    revert hthree
    decide +kernel
  · intro h
    have hthree := h.counted 3 (by decide +kernel)
    revert hthree
    decide +kernel

/-- A master that is always ready never overruns. -/
def Cfg.Input.eager (t : Nat) : Cfg.Input :=
  { Cfg.Input.impatient t with bready := true, rready := true }

theorem answered_eager :
    (Cfg.writeChannel (Cfg.machine .standard).reset Cfg.Input.eager).Answers ∧
      (Cfg.readChannel (Cfg.machine .standard).reset Cfg.Input.eager).Answers := by
  obtain ⟨hwrite, hread, -⟩ := (answered_iff .standard).1 (Cfg.machine .standard).reset
    Cfg.Input.eager rfl rfl (fun _ => rfl)
  refine ⟨hwrite fun t => ?_, hread fun t => ?_⟩
  · simp [Channel.overrun, Cfg.writeChannel, Cfg.Input.eager]
  · simp [Channel.overrun, Cfg.readChannel, Cfg.Input.eager]

end RpEcosystem.Register
