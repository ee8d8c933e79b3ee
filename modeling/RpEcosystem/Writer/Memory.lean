import RpEcosystem.Writer.Image
import Mathlib.Logic.Function.Basic

/-!
# The memory behind the writer

A width converter packs two words of 32 bits into a beat, and the memory stores every beat at its
address in the burst. In the first lap of the ring beat `k` goes to cell `k` of the buffer, so a
program that reads words behind the writer finds the words of the stream.

* `pack`, `getElem?_pack`: the converter;
* `Memory`, `wordAt`, `Stores`: the memory, and what is assumed of it;
* `Stores.cell_eq`, `Stores.outside_eq`: what is written, and what is not;
* `Stores.getElem?_words`: a word that is read behind the writer.
-/

namespace RpEcosystem.Writer

open Clocked

/-! ## The converter -/

/-- Two words in a beat, the first one low. -/
def pack : List (BitVec 32) → List (BitVec 64)
  | low :: high :: words => (high ++ low) :: pack words
  | _ => []

theorem getElem?_pack {words : List (BitVec 32)} {k : Nat} {cell : BitVec 64}
    (h : (pack words)[k]? = some cell) :
    ∃ low high, words[2 * k]? = some low ∧ words[2 * k + 1]? = some high ∧ cell = high ++ low := by
  induction words using pack.induct generalizing k with
  | case1 low high words ih =>
    rw [pack] at h
    cases k with
    | zero => exact ⟨low, high, rfl, rfl, (Option.some.inj h).symm⟩
    | succ k => exact ih h
  | case2 words hshort =>
    rw [pack] at h
    · cases h
    · exact hshort

theorem length_pack (words : List (BitVec 32)) : (pack words).length = words.length / 2 := by
  induction words using pack.induct with
  | case1 low high words ih =>
    rw [pack, List.length_cons, ih, List.length_cons, List.length_cons]
    omega
  | case2 words hshort =>
    rcases words with _ | ⟨low, _ | ⟨high, words⟩⟩
    · rfl
    · simp [pack]
    · exact absurd rfl (hshort low high words)

theorem pack_mono {l l' : List (BitVec 32)} (h : l <+: l') : pack l <+: pack l' := by
  obtain ⟨rest, rfl⟩ := h
  induction l using pack.induct with
  | case1 low high l ih =>
    rw [pack, List.cons_append, List.cons_append, pack]
    exact List.cons_prefix_cons.mpr ⟨rfl, ih⟩
  | case2 l hshort =>
    rw [pack]
    · exact List.nil_prefix
    · exact hshort

/-! ## The memory -/

/-- Cells of eight bytes by the address of the first one. -/
abbrev Memory : Type := BitVec 32 → BitVec 64

/-- Word `i` of the buffer at `base`. -/
def wordAt (m : Memory) (base : BitVec 32) (i : Nat) : BitVec 32 :=
  (m (base + BitVec.ofNat 32 (8 * (i / 2)))).extractLsb' (32 * (i % 2)) 32

/-- A memory that takes the address of a burst no later than its first beat, and stores every beat
at its address in the burst. -/
structure Stores (g : Generics) (F : Fifo) (x : Nat → Input) (base : BitVec 32)
    (ram : Nat → Memory) : Prop where
  address : ∀ t, (x t).cfgData = base
  addressFirst : AddressFirst g F x
  stores : ∀ t, beat g F x t = true →
    ∃ b, WrittenAt g F x t b ∧ ram (t + 1) = Function.update (ram t) b (run g F x t).mAxiWdata
  keeps : ∀ t, beat g F x t = false → ram (t + 1) = ram t

variable {g : Generics} {F : Fifo} {x : Nat → Input} {base : BitVec 32} {ram : Nat → Memory}

/-- A beat goes to the place of its number in the ring. -/
theorem AddressFirst.writtenAt_eq (h : AddressFirst g F x) (hcfg : ∀ t, (x t).cfgData = base)
    {t : Nat} {b : BitVec 32} (hb : WrittenAt g F x t b) :
    b = base + BitVec.ofNat 32 (8 * (beats g F x t % 2 ^ g.addrWidth)) := by
  obtain ⟨u, -, hacc, hnum, rfl⟩ := hb
  have haw : (run g F x u).intAwvalidReg = true := by
    simp only [addressAccepted, Bool.and_eq_true] at hacc
    exact hacc.1
  have hcount := ((h.phase u).address haw).2
  have haddr : (run g F x u).intAddrReg.toNat =
      16 * (beats g F x t / 16) % 2 ^ g.addrWidth := by
    rw [intAddrReg_eq_beats, BitVec.toNat_ofNat, ← hnum, ← hcount]
    rfl
  -- the ring holds whole bursts
  have hring : beats g F x t % 2 ^ g.addrWidth =
      16 * (beats g F x t / 16) % 2 ^ g.addrWidth + beats g F x t % 16 := by
    obtain ⟨m, hm⟩ : 2 ^ 4 ∣ 2 ^ g.addrWidth := Nat.pow_dvd_pow 2 g.four_le
    rw [hm, Nat.mod_mul, Nat.mul_mod_mul_left]
    exact Nat.add_comm _ _
  have hsize : 2 ^ mAxiAwsize.toNat = 8 := by simp [mAxiAwsize]
  rw [Regs.mAxiAwaddr_eq, hcfg, haddr, BitVec.add_assoc, ← BitVec.ofNat_add, hring, hsize]
  congr 2
  omega

theorem cell_inj {k l : Nat} (hk : k < 2 ^ 29) (hl : l < 2 ^ 29)
    (heq : base + BitVec.ofNat 32 (8 * k) = base + BitVec.ofNat 32 (8 * l)) : k = l := by
  have hnat := congrArg BitVec.toNat ((BitVec.add_right_inj _).mp heq)
  simp only [BitVec.toNat_ofNat] at hnat
  omega

theorem pow_addrWidth_le (g : Generics) : 2 ^ g.addrWidth ≤ 2 ^ 29 :=
  Nat.pow_le_pow_right (by decide) g.le_29

namespace Stores

variable (h : Stores g F x base ram)

include h

theorem stored_at {t : Nat} (ht : beat g F x t = true) (hlap : beats g F x t < 2 ^ g.addrWidth) :
    ram (t + 1) = Function.update (ram t) (base + BitVec.ofNat 32 (8 * beats g F x t))
      (run g F x t).mAxiWdata := by
  obtain ⟨b, hb, hram⟩ := h.stores t ht
  rw [hram, h.addressFirst.writtenAt_eq h.address hb, Nat.mod_eq_of_lt hlap]

/-- In the first lap the cells hold the words written. -/
theorem cell_eq {t : Nat} (hlap : beats g F x t ≤ 2 ^ g.addrWidth) {k : Nat} {cell : BitVec 64}
    (hk : (transfers (written g F x) 0 t)[k]? = some cell) :
    ram t (base + BitVec.ofNat 32 (8 * k)) = cell := by
  have hfits := pow_addrWidth_le g
  induction t with
  | zero => simp at hk
  | succ t ih =>
    rw [beats_succ] at hlap
    rw [transfers_succ _ (Nat.zero_le t), written] at hk
    cases hbeat : beat g F x t with
    | false =>
      rw [hbeat] at hk hlap
      rw [h.keeps t hbeat]
      exact ih (by simpa using hlap) (by simpa using hk)
    | true =>
      rw [hbeat] at hk hlap
      simp only [if_true, Option.toList_some] at hk hlap
      rw [h.stored_at hbeat (by omega)]
      rcases Nat.lt_or_ge k (beats g F x t) with hlt | hge
      · rw [List.getElem?_append_left (by rwa [length_written])] at hk
        rw [Function.update_of_ne, ih (by omega) hk]
        intro heq
        exact absurd (cell_inj (by omega) (by omega) heq) (by omega)
      · rw [List.getElem?_append_right (by rwa [length_written]), length_written] at hk
        obtain ⟨hlast, hdata⟩ := List.getElem?_eq_some_iff.mp hk
        rw [List.length_singleton] at hlast
        obtain rfl : k = beats g F x t := by omega
        rw [Function.update_self, ← hdata]
        simp

/-- No other cell is written. -/
theorem outside_eq {t : Nat} (hlap : beats g F x t ≤ 2 ^ g.addrWidth) {b : BitVec 32}
    (hb : ∀ k, k < beats g F x t → b ≠ base + BitVec.ofNat 32 (8 * k)) : ram t b = ram 0 b := by
  induction t with
  | zero => rfl
  | succ t ih =>
    rw [beats_succ] at hlap hb
    have hbefore : ram t b = ram 0 b := ih (by omega) fun k hk => hb k (by omega)
    cases hbeat : beat g F x t with
    | false => rw [h.keeps t hbeat, hbefore]
    | true =>
      rw [hbeat, if_pos rfl] at hlap hb
      rw [h.stored_at hbeat (by omega), Function.update_of_ne (hb _ (by omega)), hbefore]

/-- A word that is read behind the writer is the one of the stream. -/
theorem getElem?_words {t : Nat} (hlap : beats g F x t ≤ 2 ^ g.addrWidth)
    {words : List (BitVec 32)} (hwords : transfers (written g F x) 0 t <+: pack words) {i : Nat}
    (hi : i < 2 * beats g F x t) : words[i]? = some (wordAt (ram t) base i) := by
  have hlt : i / 2 < (transfers (written g F x) 0 t).length := by
    rw [length_written]
    omega
  obtain ⟨cell, hcell⟩ : ∃ cell, (transfers (written g F x) 0 t)[i / 2]? = some cell :=
    ⟨_, List.getElem?_eq_getElem hlt⟩
  have hpacked : (pack words)[i / 2]? = some cell := by
    obtain ⟨rest, hrest⟩ := hwords
    rw [← hrest, List.getElem?_append_left hlt, hcell]
  obtain ⟨low, high, hlow, hhigh, hpair⟩ := getElem?_pack hpacked
  rw [wordAt, h.cell_eq hlap hcell, hpair]
  rcases Nat.mod_two_eq_zero_or_one i with heven | hodd
  · have hword : words[i]? = some low := by rwa [show i = 2 * (i / 2) by omega]
    rw [hword, heven]
    exact congrArg some BitVec.extractLsb'_append_eq_right.symm
  · have hword : words[i]? = some high := by rwa [show i = 2 * (i / 2) + 1 by omega]
    rw [hword, hodd]
    exact congrArg some BitVec.extractLsb'_append_eq_left.symm

end Stores

/-! ## A memory that stores -/

/-- The memory, when every beat goes to its place in the ring. -/
def storing (g : Generics) (F : Fifo) (x : Nat → Input) (base : BitVec 32) : Nat → Memory
  | 0 => fun _ => 0
  | t + 1 =>
    if beat g F x t then
      Function.update (storing g F x base t)
        (base + BitVec.ofNat 32 (8 * (beats g F x t % 2 ^ g.addrWidth))) (run g F x t).mAxiWdata
    else storing g F x base t

theorem stores_storing (hcfg : ∀ t, (x t).cfgData = base) (haddr : AddressFirst g F x) :
    Stores g F x base (storing g F x base) where
  address := hcfg
  addressFirst := haddr
  stores t ht := ⟨_, haddr.writtenAt hcfg ht, by rw [storing, if_pos ht]⟩
  keeps t ht := by rw [storing, if_neg (by simp [ht])]

/-- With an address channel that is always ready no beat overtakes its address. -/
theorem addressFirst_of_awready (h : ∀ t, (x t).mAxiAwready = true) : AddressFirst g F x := by
  have hphase : ∀ t, overtakes g F x t = false := by
    intro t
    simp [overtakes, h t]
  intro t ht hfirst
  have hrun := phase_run (g := g) (F := F) t fun u _ => hphase u
  have hw : (run g F x t).intWvalidReg = true := by
    simp only [beat, Regs.intRdenWire, Bool.and_eq_true] at ht
    exact ht.2
  rw [addresses_succ, addressAccepted, h t, Bool.and_true]
  rcases hrun.valid hw with ⟨haw, hcount⟩ | ⟨-, hcount⟩
  · rw [if_pos haw]
    omega
  · omega

end RpEcosystem.Writer
