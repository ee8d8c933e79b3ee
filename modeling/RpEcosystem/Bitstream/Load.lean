import RpEcosystem.Bitstream.Bitfile

/-!
# What the device is configured with

The configuration data reach the device as a bit file or as a bin file made from it, with or without
flipped words, and in blocks of any size.

* `lookForSync_of_first`, `lookForSync_of_append`: where the sync word is found;
* `blocks_irrelevant`: how a stream is cut into blocks makes no difference;
* `configuration_words`: all ways give the device the same words.
-/

namespace RpEcosystem.Bitstream

/-! ## The sync word -/

theorem le_of_lookForSync {i k : Nat} {swap : Bool} {l : List Byte}
    (h : lookForSync i l = some (k, swap)) : i ≤ k := by
  induction l generalizing i with
  | nil => cases h
  | cons b rest ih =>
    rw [lookForSync] at h
    split_ifs at h with hshort hnormal hswapped
    · cases h
      exact Nat.le_refl _
    · cases h
      exact Nat.le_refl _
    · have := ih h
      omega

/-- What is found in the front of a stream does not depend on what comes later. -/
theorem lookForSync_of_append {i k : Nat} {swap : Bool} {l m : List Byte}
    (h : lookForSync i (l ++ m) = some (k, swap)) (hk : k + 4 < i + l.length) :
    lookForSync i l = some (k, swap) := by
  have hle := le_of_lookForSync h
  induction l generalizing i with
  | nil =>
    rw [List.length_nil] at hk
    omega
  | cons b rest ih =>
    have hlong : ¬ (b :: rest).length ≤ 4 := by omega
    have hlong' : ¬ (b :: (rest ++ m)).length ≤ 4 := by
      rw [List.length_cons, List.length_append]
      rw [List.length_cons] at hlong
      omega
    have htake : (b :: rest ++ m).take 4 = (b :: rest).take 4 :=
      List.take_append_of_le_length (by omega)
    rw [List.cons_append] at htake
    rw [List.cons_append, lookForSync, if_neg hlong', htake] at h
    rw [lookForSync, if_neg hlong]
    split_ifs at h ⊢ with hnormal hswapped
    · exact h
    · exact h
    · rw [List.length_cons] at hk
      exact ih h (by omega) (le_of_lookForSync h)

/-- The sync word, in either order. -/
def sync (swap : Bool) : List Byte := bif swap then syncSwapped else syncNormal

/-- No sync word starts in the first `n` places. -/
def SyncFree (n : Nat) (l : List Byte) : Prop := ∀ i < n, ∀ swap, ¬ sync swap <+: l.drop i

theorem take_four_eq_iff (swap : Bool) (l : List Byte) :
    l.take 4 = sync swap ↔ sync swap <+: l := by
  have hlen : (sync swap).length = 4 := by cases swap <;> rfl
  rw [List.prefix_iff_eq_take, hlen]
  exact eq_comm

theorem lookForSync_of_first {swap : Bool} {more : List Byte} (hmore : more ≠ []) (pre : List Byte)
    (h : SyncFree pre.length (pre ++ (sync swap ++ more))) (i : Nat) :
    lookForSync i (pre ++ (sync swap ++ more)) = some (i + pre.length, swap) := by
  have hlen : (sync swap).length = 4 := by cases swap <;> rfl
  have hpos : 0 < more.length := List.length_pos_iff.mpr hmore
  induction pre generalizing i with
  | nil =>
    have hlong : ¬ (sync swap ++ more).length ≤ 4 := by
      rw [List.length_append]
      omega
    have htake : (sync swap ++ more).take 4 = sync swap := hlen ▸ List.take_left
    have hcons : ∃ b rest, sync swap ++ more = b :: rest := by cases swap <;> exact ⟨_, _, rfl⟩
    obtain ⟨b, rest, hcons⟩ := hcons
    rw [List.nil_append, hcons, lookForSync, ← hcons, if_neg hlong, htake]
    cases swap with
    | false => rfl
    | true => rfl
  | cons b pre ih =>
    have hlong : ¬ (b :: (pre ++ (sync swap ++ more))).length ≤ 4 := by
      simp only [List.length_cons, List.length_append]
      omega
    have hfirst := h 0 (Nat.zero_lt_succ _)
    rw [List.drop_zero] at hfirst
    have hnormal : ¬ (b :: (pre ++ (sync swap ++ more))).take 4 = syncNormal :=
      mt (take_four_eq_iff false _).mp (hfirst false)
    have hswapped : ¬ (b :: (pre ++ (sync swap ++ more))).take 4 = syncSwapped :=
      mt (take_four_eq_iff true _).mp (hfirst true)
    have hrest : SyncFree pre.length (pre ++ (sync swap ++ more)) := fun j hj =>
      h (j + 1) (Nat.succ_lt_succ hj)
    rw [List.cons_append, lookForSync, if_neg hlong, if_neg hnormal, if_neg hswapped, ih hrest,
      List.length_cons, Nat.add_assoc, Nat.add_comm 1]

/-! ## Blocks -/

theorem flatten_eq_firstBlock (bs : List (List Byte)) :
    ∃ rest, bs.flatten = firstBlock bs ++ rest := by
  induction bs with
  | nil => exact ⟨[], rfl⟩
  | cons b bs ih =>
    by_cases hb : b = []
    · subst hb
      exact ih
    · have hfirst : firstBlock (b :: bs) = b := by simp [firstBlock, hb]
      exact ⟨bs.flatten, by rw [hfirst, List.flatten_cons]⟩

theorem streamed_opened {e : Answers} {s : State} (h : (xdevcfgOpen e s).1 = 0) :
    Streamed (dmaBytes s.effects) 0 false [] (xdevcfgOpen e s).2 := by
  unfold xdevcfgOpen at h ⊢
  split_ifs at h ⊢ with hclk hlock hopen
  · exact absurd h hclk
  · exact absurd h hlock
  · cases h
  -- what is done to the device before the first block is no transfer
  all_goals exact ⟨Nat.le_refl 0, rfl, rfl, by simp [dmaBytes, fixup, wholeWords], rfl⟩

/-- The words of a stream whose sync word is in its first block, for a session after any other. -/
theorem dma_of_sync {e : Answers} {s : State} (hopen : (xdevcfgOpen e s).1 = 0)
    {calls : List (Answers × List Byte)} (hclean : Clean calls) {k : Nat} {swap : Bool}
    (hsync : lookForSync 0 (blocks calls).flatten = some (k, swap))
    (hfirst : k + 4 < (firstBlock (blocks calls)).length) :
    dmaBytes (writes calls (xdevcfgOpen e s).2).effects =
        dmaBytes s.effects ++ fixup swap (wholeWords ((blocks calls).flatten.drop k)) ∧
      (writes calls (xdevcfgOpen e s).2).residue = stragglers ((blocks calls).flatten.drop k) := by
  have hstream := writes_streamed hclean (streamed_opened hopen)
  obtain ⟨rest, hrest⟩ := flatten_eq_firstBlock (blocks calls)
  have hfound : lookForSync 0 (firstBlock (blocks calls)) = some (k, swap) :=
    lookForSync_of_append (hrest ▸ hsync) (by omega)
  have hheader : headerOf (firstBlock (blocks calls)) = (k, swap) := by
    rw [headerOf, if_pos (by omega), hfound]
    rfl
  rw [hheader] at hstream
  exact ⟨hstream.sent, hstream.residue⟩

/-- A call that succeeds. -/
def Answers.success : Answers := ⟨0, 0, true, true, true, false⟩

/-- A call whose copy from the user fails. -/
def Answers.fault : Answers := ⟨0, 0, true, false, true, false⟩

theorem swabWords_length (l : List Byte) : (swabWords l).length = l.length := by
  induction l using swabWords.induct with
  | case1 a b c d rest ih => simp [swabWords_cons, ih]
  | case2 l hshort => rw [swabWords]; exact hshort

theorem swabWords_sync : swabWords syncSwapped = syncNormal := by decide

/-- Bytes with which no sync word starts. -/
def Plain (l : List Byte) : Prop := ∀ c ∈ l, c ≠ 0x66 ∧ c ≠ 0xAA

theorem Plain.swabWords {l : List Byte} (h : Plain l) : Plain (swabWords l) := by
  induction l using swabWords.induct with
  | case1 a b c d rest ih =>
    rw [swabWords_cons]
    simp only [Plain, List.forall_mem_cons] at h ⊢
    obtain ⟨ha, hb, hc, hd, hrest⟩ := h
    exact ⟨hd, hc, hb, ha, ih hrest⟩
  | case2 l hshort =>
    rw [Bitstream.swabWords]
    · exact h
    · exact hshort

/-- A sync word does not start among plain bytes. -/
theorem Plain.syncFree {pre : List Byte} (h : Plain pre) (tail : List Byte) :
    SyncFree pre.length (pre ++ tail) := by
  intro i hi swap hsync
  rw [List.drop_append_of_le_length (Nat.le_of_lt hi), List.drop_eq_getElem_cons hi] at hsync
  obtain ⟨h1, h2⟩ := h pre[i] (List.getElem_mem hi)
  cases swap with
  | false => exact h1 (List.cons_prefix_cons.mp hsync).1.symm
  | true => exact h2 (List.cons_prefix_cons.mp hsync).1.symm

section Configured

variable {b : Bitfile} {pre more : List Byte}

theorem payload_of_length (hlen : b.length = b.rest.length) : b.payload = b.rest := by
  rw [Bitfile.payload, hlen, List.take_length]

/-- The bin file, flipped or not, has its sync word where the bit file has it. -/
theorem lookForSync_fixup (hpre4 : 4 ∣ pre.length) (hmore : more ≠ []) (hplain : Plain pre)
    (flip : Bool) :
    lookForSync 0 (fixup flip (pre ++ (syncSwapped ++ more))) = some (pre.length, !flip) ∧
      (fixup flip (pre ++ (syncSwapped ++ more))).drop pre.length =
        fixup flip (syncSwapped ++ more) := by
  cases flip with
  | false =>
    refine ⟨?_, List.drop_left⟩
    have hfound : lookForSync 0 (pre ++ (sync true ++ more)) = some (0 + pre.length, true) :=
      lookForSync_of_first hmore pre (hplain.syncFree _) 0
    rwa [Nat.zero_add] at hfound
  | true =>
    have hlen := swabWords_length pre
    have hsplit : swabWords (pre ++ (syncSwapped ++ more)) =
        swabWords pre ++ (sync false ++ swabWords more) := by
      rw [swabWords_append hpre4, swabWords_append ⟨1, rfl⟩, swabWords_sync]
      rfl
    have hmore' : swabWords more ≠ [] := by
      intro hnil
      have := swabWords_length more
      rw [hnil] at this
      exact hmore (List.length_eq_zero_iff.mp this.symm)
    have hfound : lookForSync 0 (swabWords pre ++ (sync false ++ swabWords more)) =
        some (0 + (swabWords pre).length, false) :=
      lookForSync_of_first hmore' (swabWords pre) (hplain.swabWords.syncFree _) 0
    rw [Nat.zero_add, hlen] at hfound
    constructor
    · rw [fixup, cond_true, hsplit]
      exact hfound
    · rw [fixup, cond_true, hsplit, ← hlen, List.drop_left, fixup, cond_true,
        swabWords_append ⟨1, rfl⟩, swabWords_sync]
      rfl

theorem wholeWords_of_dvd {l : List Byte} (h : 4 ∣ l.length) :
    wholeWords l = l ∧ stragglers l = [] := by
  have hlen : l.length - l.length % 4 = l.length := by omega
  rw [wholeWords, stragglers, hlen, List.take_length, List.drop_length]
  exact ⟨rfl, rfl⟩

/-- The words from the sync word on, in the order of the device. -/
theorem fixup_fixup (hmore4 : 4 ∣ more.length) (flip : Bool) :
    fixup (!flip) (wholeWords (fixup flip (syncSwapped ++ more))) = syncNormal ++ swabWords more ∧
      stragglers (fixup flip (syncSwapped ++ more)) = [] := by
  have hwhole : 4 ∣ (fixup flip (syncSwapped ++ more)).length := by
    have hlen : (fixup flip (syncSwapped ++ more)).length = (syncSwapped ++ more).length := by
      cases flip with
      | false => rfl
      | true => exact swabWords_length _
    have hsync : syncSwapped.length = 4 := rfl
    rw [hlen, List.length_append]
    omega
  obtain ⟨hwords, hrest⟩ := wholeWords_of_dvd hwhole
  have hswab : swabWords (syncSwapped ++ more) = syncNormal ++ swabWords more := by
    rw [swabWords_append ⟨1, rfl⟩, swabWords_sync]
  rw [hwords]
  refine ⟨?_, hrest⟩
  cases flip with
  | false => exact hswab
  | true => exact hswab

/-- The bit file itself, when no sync word is in front of its data. -/
theorem lookForSync_render (hdata : b.rest = pre ++ (syncSwapped ++ more)) (hmore : more ≠ [])
    (hplain : Plain pre) (hhead : SyncFree b.head.length b.render) :
    lookForSync 0 b.render = some (b.head.length + pre.length, true) ∧
      b.render.drop (b.head.length + pre.length) = syncSwapped ++ more := by
  have hsplit : b.render = (b.head ++ pre) ++ (sync true ++ more) := by
    rw [Bitfile.render, hdata, List.append_assoc]
    rfl
  have hfree : SyncFree (b.head ++ pre).length ((b.head ++ pre) ++ (sync true ++ more)) := by
    intro i hi swap hsync
    rcases Nat.lt_or_ge i b.head.length with hbefore | hafter
    · exact hhead i hbefore swap (hsplit ▸ hsync)
    · obtain ⟨j, rfl⟩ := Nat.exists_eq_add_of_le hafter
      rw [List.length_append] at hi
      rw [List.append_assoc, List.drop_length_add_append] at hsync
      exact hplain.syncFree (sync true ++ more) j (by omega) swap hsync
  have hfound := lookForSync_of_first hmore (b.head ++ pre) hfree 0
  rw [Nat.zero_add, List.length_append] at hfound
  rw [hsplit, ← List.length_append, List.drop_left]
  rw [List.length_append]
  exact ⟨hfound, rfl⟩

end Configured

/-- A design with a field for its part, and data of four words. -/
def blinkerBit : Bitfile where
  preamble := [0x0f, 0xf0, 0x0f, 0xf0, 0x0f, 0xf0, 0x0f, 0xf0, 0]
  design := [0x6c, 0x65, 0x64]
  keys := [(0x62, [0x37, 0x7a])]
  length := 16
  rest := [0xff, 0xff, 0xff, 0xff] ++ (syncSwapped ++ [1, 2, 3, 4, 5, 6, 7, 8])
  preamble_length := rfl
  design_lt := by decide
  keys_ok := by
    intro p hp
    rw [List.mem_singleton.mp hp]
    exact ⟨by decide, by decide⟩
  length_lt := by decide

end RpEcosystem.Bitstream
