import RpEcosystem.Writer.Axi
import RpEcosystem.Clocked.Stream

/-!
# The memory image is the stream

With a memory that takes the address of a burst no later than its first beat, and a FIFO that
holds a burst whenever it says so, the words accepted on `s_axis` are the beats written, in
order, at consecutive addresses of the ring.

* `FirstWordFallThrough`, `HoldsBurst`, `AddressFirst`: what is assumed of the FIFO and of
  the memory;
* `burst_supplied`: a burst under way finds all its words in the FIFO;
* `memory_image`: the image.
-/

namespace RpEcosystem.Writer

open Clocked

/-- A first-word-fall-through FIFO: a state holds a list of words, the oldest first. Nothing
is said about a read from an empty FIFO or a write into a full one. -/
structure FirstWordFallThrough (F : Fifo) where
  contents : F.State → List (BitVec 64)
  contents_reset : contents F.reset = []
  dout_eq : ∀ q w l, contents q = w :: l → F.dout q = w
  contents_edge : ∀ q rden wren di, (rden = true → contents q ≠ []) →
    (wren = true → F.full q = false) → contents (F.edge rden wren di q) =
      (if rden then (contents q).tail else contents q) ++ (if wren then [di] else [])

variable {g : Generics} {F : Fifo} {x : Nat → Input}

/-- `ALMOSTEMPTY` low at an edge leaves a burst in the FIFO after the read at that edge. -/
def HoldsBurst (g : Generics) (F : Fifo) (S : FirstWordFallThrough F) (x : Nat → Input) : Prop :=
  ∀ t, (run g F x t).intEmptyWire = false →
    16 + (if beat g F x t then 1 else 0) ≤ (S.contents (run g F x t).fifo).length

/-- The memory does not accept the first beat of a burst before the address of the burst. -/
def AddressFirst (g : Generics) (F : Fifo) (x : Nat → Input) : Prop :=
  ∀ t, beat g F x t = true → beats g F x t % 16 = 0 →
    beats g F x t / 16 < addresses g F x (t + 1)

/-- The word accepted on `s_axis` at the edge that ends cycle `t`. -/
def accepted (g : Generics) (F : Fifo) (x : Nat → Input) (t : Nat) : Option (BitVec 64) :=
  if (run g F x t).intTreadyWire && (x t).sAxisTvalid then some (x t).sAxisTdata else none

/-- The word written at the edge that ends cycle `t`. -/
def written (g : Generics) (F : Fifo) (x : Nat → Input) (t : Nat) : Option (BitVec 64) :=
  if beat g F x t then some (run g F x t).mAxiWdata else none

/-! ## Bursts -/

/-- The address channel never waits behind its own burst. -/
theorem AddressFirst.overtakes (h : AddressFirst g F x) (t : Nat) :
    overtakes g F x t = false := by
  induction t using Nat.strong_induction_on with
  | _ t ih =>
    have hphase := phase_run t ih
    by_contra hover
    simp only [Writer.overtakes, Bool.not_eq_false, Bool.and_eq_true, Bool.not_eq_true'] at hover
    obtain ⟨⟨haw, hready⟩, hbeat⟩ := hover
    obtain ⟨-, hcount⟩ := hphase.address haw
    have hfirst := h t hbeat (by omega)
    rw [addresses_succ, addressAccepted, haw, hready] at hfirst
    simp only [Bool.and_false, Bool.false_eq_true, if_false] at hfirst
    omega

theorem AddressFirst.phase (h : AddressFirst g F x) (t : Nat) :
    Phase (addresses g F x t) (beats g F x t) (run g F x t) :=
  phase_run t fun u _ => h.overtakes u

/-- The address of the burst of a beat has been accepted. -/
theorem AddressFirst.group (h : AddressFirst g F x) {t : Nat} (ht : beat g F x t = true) :
    beats g F x t / 16 < addresses g F x (t + 1) := by
  have hw : (run g F x t).intWvalidReg = true := by
    simp only [beat, Regs.intRdenWire, Bool.and_eq_true] at ht
    exact ht.2
  rcases (h.phase t).valid hw with ⟨haw, hcount⟩ | ⟨haw, hcount⟩
  · exact h t ht (by omega)
  · have := events_le_succ (addressAccepted g F x) (Nat.zero_le t)
    unfold addresses at hcount ⊢
    omega

/-! ## The FIFO -/

section Image

variable {S : FirstWordFallThrough F}

theorem contents_next (t : Nat)
    (hread : beat g F x t = true → S.contents (run g F x t).fifo ≠ []) :
    S.contents (run g F x (t + 1)).fifo =
      (if beat g F x t then (S.contents (run g F x t).fifo).tail
        else S.contents (run g F x t).fifo) ++ (accepted g F x t).toList := by
  have hwrite : ((run g F x t).intTreadyWire && (x t).sAxisTvalid) = true →
      F.full (run g F x t).fifo = false := by
    intro h
    simp only [Regs.intTreadyWire, Regs.intFullWire, Bool.and_eq_true, Bool.not_eq_true'] at h
    exact h.1
  rw [run_succ]
  change S.contents (F.edge (beat g F x t) _ _ _) = _
  rw [S.contents_edge _ _ _ _ hread hwrite, accepted]
  congr 1
  split <;> rfl

/-- The data channel is valid because a burst starts, or because one goes on. -/
theorem wvalid_cases {r : Regs g F} {i : Input} (h : (next i r).intWvalidReg = true) :
    r.intWvalidReg = false ∧ r.intEmptyWire = false ∨
      r.intWvalidReg = true ∧
        (i.mAxiWready = true → r.intWlastWire = true → r.intEmptyWire = false) := by
  change r.intWvalidNext i = true at h
  unfold Regs.intWvalidNext at h
  split at h
  next hstarts =>
    simp only [Regs.starts, Bool.and_eq_true, Bool.not_eq_true'] at hstarts
    exact Or.inl ⟨hstarts.2, hstarts.1.1⟩
  next =>
    split at h
    next => cases h
    next hgoes =>
      refine Or.inr ⟨h, fun hready hlast => ?_⟩
      simpa [hready, hlast] using hgoes

/-- A burst under way finds the rest of its words in the FIFO. -/
def Supplied (g : Generics) (F : Fifo) (S : FirstWordFallThrough F) (x : Nat → Input) (t : Nat) :
    Prop :=
  (run g F x t).intWvalidReg = true →
    16 ≤ beats g F x t % 16 + (S.contents (run g F x t).fifo).length

theorem Supplied.nonempty {t : Nat} (h : Supplied g F S x t) (ht : beat g F x t = true) :
    S.contents (run g F x t).fifo ≠ [] := by
  intro hnil
  simp only [beat, Regs.intRdenWire, Bool.and_eq_true] at ht
  have hlen := h ht.2
  rw [hnil] at hlen
  simp only [List.length_nil] at hlen
  omega

/-- A burst starts, or follows another, only when the FIFO holds all of it. -/
theorem burst_supplied (haddr : AddressFirst g F x) (hburst : HoldsBurst g F S x) (t : Nat) :
    Supplied g F S x t := by
  induction t with
  | zero =>
    intro h
    cases h
  | succ t ih =>
    intro hw'
    have hlen := congrArg List.length (contents_next t ih.nonempty)
    rw [List.length_append] at hlen
    rw [beats_succ]
    rw [run_succ] at hw'
    rcases wvalid_cases hw' with ⟨hw, hempty⟩ | ⟨hw, hgoes⟩
    · -- a burst starts: the counter stands at a multiple of 16 and nothing is read
      have hbeat : beat g F x t = false := by rw [beat, Regs.intRdenWire, hw, Bool.and_false]
      have hholds := hburst t hempty
      have hmod := (haddr.phase t).idle_mod hw
      simp only [hbeat, Bool.false_eq_true, if_false] at hlen hholds ⊢
      omega
    · have hrest := ih hw
      cases hbeat : beat g F x t with
      | false =>
        simp only [hbeat, Bool.false_eq_true, if_false] at hlen ⊢
        omega
      | true =>
        simp only [hbeat, if_true, List.length_tail] at hlen ⊢
        by_cases hend : beats g F x t % 16 = 15
        · -- the last beat: the next burst is in the FIFO as well
          have hready : (x t).mAxiWready = true := by
            simp only [beat, Regs.intRdenWire, Bool.and_eq_true] at hbeat
            exact hbeat.1
          have hlast : (run g F x t).intWlastWire = true := by
            rw [intWlastWire_beats (intAddrReg_eq_beats x t)]
            exact decide_eq_true hend
          have hholds := hburst t (hgoes hready hlast)
          rw [if_pos hbeat] at hholds
          omega
        · omega

/-- Every word accepted has been written or is in the FIFO. -/
theorem accepted_eq (haddr : AddressFirst g F x) (hburst : HoldsBurst g F S x) (t : Nat) :
    transfers (accepted g F x) 0 t =
      transfers (written g F x) 0 t ++ S.contents (run g F x t).fifo := by
  induction t with
  | zero => exact (S.contents_reset).symm
  | succ t ih =>
    have hread := (burst_supplied haddr hburst t).nonempty
    rw [transfers_succ _ (Nat.zero_le t), transfers_succ _ (Nat.zero_le t), ih,
      contents_next t hread]
    cases hbeat : beat g F x t with
    | false => simp [written, hbeat]
    | true =>
      obtain ⟨w, l, hwl⟩ := List.exists_cons_of_ne_nil (hread hbeat)
      have hdata : (run g F x t).mAxiWdata = w := S.dout_eq _ _ _ hwl
      simp [written, hbeat, hwl, hdata]

/-- The beats written are counted by the list of words written. -/
theorem length_written (t : Nat) : (transfers (written g F x) 0 t).length = beats g F x t := by
  induction t with
  | zero => rfl
  | succ t ih =>
    rw [transfers_succ _ (Nat.zero_le t), List.length_append, ih, beats_succ, written]
    split <;> rfl

end Image

/-- The byte address at which the beat accepted in cycle `t` is written: in an incrementing
burst of 8-byte beats, beat `j` goes to the address of the burst plus `8 * j`. The burst of
beat `i` is the one whose address was accepted as number `i / 16`. -/
def WrittenAt (g : Generics) (F : Fifo) (x : Nat → Input) (t : Nat) (b : BitVec 32) : Prop :=
  ∃ u, u ≤ t ∧ addressAccepted g F x u = true ∧ addresses g F x u = beats g F x t / 16 ∧
    b = (run g F x u).mAxiAwaddr (x u) +
      BitVec.ofNat 32 (beats g F x t % 16 * 2 ^ mAxiAwsize.toNat)

theorem AddressFirst.writtenAt (h : AddressFirst g F x) {base : BitVec 32}
    (hcfg : ∀ t, (x t).cfgData = base) {t : Nat} (ht : beat g F x t = true) :
    WrittenAt g F x t (base + BitVec.ofNat 32 (8 * (beats g F x t % 2 ^ g.addrWidth))) := by
  obtain ⟨u, -, hu, hacc, hnum⟩ := exists_event (addressAccepted g F x) (h.group ht)
  have haw : (run g F x u).intAwvalidReg = true := by
    simp only [addressAccepted, Bool.and_eq_true] at hacc
    exact hacc.1
  have hcount := ((h.phase u).address haw).2
  have haddr : (run g F x u).intAddrReg = BitVec.ofNat _ (16 * (beats g F x t / 16)) := by
    rw [← hnum]
    change _ = BitVec.ofNat _ (16 * addresses g F x u)
    rw [← hcount]
    exact intAddrReg_eq_beats x u
  refine ⟨u, by omega, hacc, hnum, ?_⟩
  -- a burst does not cross the end of the ring, which holds whole bursts
  have hring : beats g F x t % 2 ^ g.addrWidth =
      16 * (beats g F x t / 16) % 2 ^ g.addrWidth + beats g F x t % 16 := by
    obtain ⟨m, hm⟩ : 2 ^ 4 ∣ 2 ^ g.addrWidth := Nat.pow_dvd_pow 2 g.four_le
    rw [hm, Nat.mod_mul, Nat.mul_mod_mul_left]
    exact Nat.add_comm _ _
  rw [Regs.mAxiAwaddr_eq, hcfg, haddr, BitVec.toNat_ofNat, BitVec.add_assoc, ← BitVec.ofNat_add,
    hring]
  congr 2
  simp [mAxiAwsize]
  omega

/-- **The memory image is the stream.** For every `ADDR_WIDTH`, every input stream and every
ready pattern: the words written are the first words accepted, in order; beat `i` is written at
`cfg_data + 8 * (i mod 2 ^ ADDR_WIDTH)`; the FIFO is never read while it is empty; the data
channel pauses only between bursts; and `sts_data` counts the beats. -/
theorem memory_image (g : Generics) (F : Fifo) (S : FirstWordFallThrough F) (x : Nat → Input)
    (base : BitVec 32) (hcfg : ∀ t, (x t).cfgData = base) (haddr : AddressFirst g F x)
    (hburst : HoldsBurst g F S x) (t : Nat) :
    transfers (written g F x) 0 t <+: transfers (accepted g F x) 0 t ∧
      (beat g F x t = true →
        (transfers (accepted g F x) 0 t)[beats g F x t]? = some (run g F x t).mAxiWdata ∧
        WrittenAt g F x t (base + BitVec.ofNat 32 (8 * (beats g F x t % 2 ^ g.addrWidth))) ∧
        S.contents (run g F x t).fifo ≠ []) ∧
      ((run g F x t).intWvalidReg = false → (run g F x t).intAddrReg.toNat % 16 = 0) ∧
      (run g F x t).stsData.toNat = beats g F x t % 2 ^ g.addrWidth := by
  have hacc := accepted_eq haddr hburst t
  have hcount := intAddrReg_eq_beats (g := g) (F := F) x t
  refine ⟨?_, ?_, ?_, ?_⟩
  · rw [hacc]
    exact List.prefix_append _ _
  · intro hbeat
    have hread := (burst_supplied haddr hburst t).nonempty hbeat
    obtain ⟨w, l, hwl⟩ := List.exists_cons_of_ne_nil hread
    have hdata : (run g F x t).mAxiWdata = w := S.dout_eq _ _ _ hwl
    refine ⟨?_, haddr.writtenAt hcfg hbeat, hread⟩
    rw [hacc, hwl, hdata, ← length_written, List.getElem?_append_right le_rfl, Nat.sub_self]
    rfl
  · intro hw
    rw [toNat_mod_16 hcount]
    exact (haddr.phase t).idle_mod hw
  · rw [Regs.stsData, hcount, BitVec.toNat_ofNat]
    rfl

/-! ## A run at full speed -/

/-- The queue is a first-word-fall-through FIFO. -/
def queueContents : FirstWordFallThrough queue where
  contents := fun q => q
  contents_reset := rfl
  dout_eq := by
    intro q w l h
    simp only [queue, h, List.headD_cons]
  contents_edge := fun _ _ _ _ _ _ => rfl

theorem queue_holdsBurst (x : Nat → Input) : HoldsBurst g queue queueContents x := by
  intro t h
  have hlen : ¬ (run g queue x t).fifo.length ≤ 16 := of_decide_eq_false h
  change 16 + _ ≤ (run g queue x t).fifo.length
  split <;> omega

theorem streaming_addressFirst (base : BitVec 32) : AddressFirst .lago queue (streaming base) := by
  have hsafe : Safe .lago queue (streaming base) := by
    intro t _ hready
    cases hready
  intro t ht _
  have hgroup := (protocol_of_safe hsafe).group t ht
  omega

theorem memory_image_streaming :
    AddressFirst .lago queue (streaming 0) ∧
      (run .lago queue (streaming 0) 40).stsData.toNat =
        beats .lago queue (streaming 0) 40 % 2 ^ 20 :=
  ⟨streaming_addressFirst 0,
    (memory_image .lago queue queueContents (streaming 0) 0 (fun _ => rfl)
      (streaming_addressFirst 0) (queue_holdsBurst _) 40).2.2.2⟩

end RpEcosystem.Writer
