import RpEcosystem.Clocked.Lanes
import RpEcosystem.Clocked.Sweeps
import Mathlib.Logic.Function.Basic

/-!
# What the averagers share

* `Input`: what the two averagers with 16-bit lanes see;
* `upper`, `sample`, `addLanes`: the samples in a beat of 128 bits and their addition to the lanes
  of a word;
* `writeA`, `readB`: the two ports of `tdp_ram_pip`, whose read port has a register that follows
  one enabled cycle behind;
* `asymWrite`: the wide port of `asym_ram_sdp_write_wider`;
* `Mirrors`, `Mirrors.write`: both memories hold the same lanes when they are written in lock step.
-/

namespace RpEcosystem.Averager

open Clocked

/-! ## Inputs -/

/-- The ports of `avg_scope` and `avg_ntoone`, and the pulse `restart_os` of their reader, which
runs on another clock. -/
structure Input where
  sAxisAresetn : Bool
  startI : Bool
  enI : Bool
  trigI : Bool
  restartOs : Bool
  naveragesI : BitVec 16
  nsamplesI : BitVec 16
  sAxisTvalid : Bool
  sAxisTdata : BitVec 128

/-- Sweeps of one beat after another, never sent. -/
def busy (tdata : BitVec 128) : Input where
  sAxisAresetn := true
  startI := true
  enI := true
  trigI := true
  restartOs := false
  naveragesI := 2
  nsamplesI := 8
  sAxisTvalid := true
  sAxisTdata := tdata

/-- The number of beats for a number of samples. -/
theorem toNat_beats {nsamples : BitVec 16} {n : Nat} (h : nsamples.toNat = 8 * n) :
    (nsamples / 8).toNat = n := by
  rw [BitVec.toNat_udiv, h]
  exact Nat.mul_div_cancel_left n (by decide)

/-! ## Beats -/

/-- The upper 12 bits of a lane. -/
def upper (i : Nat) (beat : BitVec 128) : BitVec 12 := beat.extractLsb' (16 * i + 4) 12

/-- The signed 12-bit value in lane `i` of a beat. -/
def sample (i : Nat) (beat : BitVec 128) : Int := (upper i beat).toInt

/-- The loops `ASSIGN_G1` and `ASSIGN_N`: the samples of a beat are added to the lanes of a word. -/
def addLanes (word tdata : BitVec 128) : BitVec 128 :=
  ofLanes 16 (fun i => lane 16 i word + (upper i tdata).signExtend 16) 8

theorem lane_addLanes {word : BitVec 128} {i : Nat} (hi : i < 8) {total : Int}
    (h : lane 16 i word = BitVec.ofInt 16 total) (tdata : BitVec 128) :
    lane 16 i (addLanes word tdata) = BitVec.ofInt 16 (total + sample i tdata) := by
  rw [addLanes, lane_ofLanes _ hi, h, ofInt_add_signExtend, sample]

/-- `closed` are complete sweeps of `n` beats, as many as `count` says. -/
def Complete {β : Type} {m : Nat} (n : Nat) (count : BitVec m) (closed : List (List β)) : Prop :=
  closed.length = count.toNat ∧ ∀ sweep ∈ closed, sweep.length = n

/-- One more complete sweep. -/
theorem Complete.concat {β : Type} {m n : Nat} {count : BitVec m} {closed : List (List β)}
    (h : Complete n count closed) (hcount : (count + 1).toNat = count.toNat + 1)
    {sweep : List β} (hsweep : sweep.length = n) :
    Complete n (count + 1) (closed ++ [sweep]) := by
  refine ⟨by rw [List.length_append, List.length_singleton, h.1, hcount], fun sweep' hin => ?_⟩
  rcases List.mem_append.mp hin with hin | hin
  · exact h.2 sweep' hin
  · rw [List.mem_singleton.mp hin, hsweep]

/-! ## Memories -/

abbrev Ram (aw dw : Nat) := BitVec aw → BitVec dw

section Ports

variable {aw dw : Nat}

/-- Port A of `tdp_ram_pip`. -/
def writeA (wea : Bool) (addra : BitVec aw) (dia : BitVec dw) (ram : Ram aw dw) : Ram aw dw :=
  bif wea then Function.update ram addra dia else ram

/-- The output register of port B of `tdp_ram_pip`. -/
def readB (rstb enb : Bool) (addrb : BitVec aw) (ram : Ram aw dw) (bReg : BitVec dw) :
    BitVec dw :=
  bif rstb then 0 else bif enb then ram addrb else bReg

theorem writeA_apply (wea : Bool) (addra : BitVec aw) (dia : BitVec dw) (ram : Ram aw dw)
    (k : BitVec aw) :
    writeA wea addra dia ram k = if wea = true ∧ k = addra then dia else ram k := by
  cases wea with
  | false => simp [writeA]
  | true => simp [writeA, Function.update_apply]

end Ports

/-! ## Writing wider than reading -/

section Asym

variable {aw n w l : Nat}

/-- The write process of `asym_ram_sdp_write_wider`: `2 ^ l` words of `w` bits for one wide word. -/
def asymWrite (weB : Bool) (addrB : BitVec aw) (diB : BitVec n) (myRam : Ram (aw + l) w) :
    Ram (aw + l) w :=
  bif weB then
    (List.range (2 ^ l)).foldl
      (fun ram i => Function.update ram (addrB ++ BitVec.ofNat l i) (lane w i diB)) myRam
  else myRam

theorem append_ofNat_inj {k k' : BitVec aw} {i j : Nat} (hi : i < 2 ^ l) (hj : j < 2 ^ l) :
    k ++ BitVec.ofNat l i = k' ++ BitVec.ofNat l j ↔ k = k' ∧ i = j := by
  constructor
  · intro h
    have h := congrArg BitVec.toNat h
    rw [BitVec.toNat_append, BitVec.toNat_append, BitVec.toNat_ofNat, BitVec.toNat_ofNat,
      Nat.mod_eq_of_lt hi, Nat.mod_eq_of_lt hj, ← Nat.shiftLeft_add_eq_or_of_lt hi,
      ← Nat.shiftLeft_add_eq_or_of_lt hj, Nat.shiftLeft_eq, Nat.shiftLeft_eq] at h
    have hij : i = j := by
      have h := congrArg (· % 2 ^ l) h
      simpa [Nat.mod_eq_of_lt hi, Nat.mod_eq_of_lt hj] using h
    subst hij
    refine ⟨BitVec.eq_of_toNat_eq ?_, rfl⟩
    exact Nat.eq_of_mul_eq_mul_right (Nat.two_pow_pos l) (by omega)
  · rintro ⟨rfl, rfl⟩
    rfl

theorem asymWrite_apply (weB : Bool) (addrB : BitVec aw) (diB : BitVec n)
    (myRam : Ram (aw + l) w) (k : BitVec aw) {i : Nat} (hi : i < 2 ^ l) :
    asymWrite weB addrB diB myRam (k ++ BitVec.ofNat l i) =
      if weB = true ∧ k = addrB then lane w i diB else myRam (k ++ BitVec.ofNat l i) := by
  cases weB with
  | false => simp [asymWrite]
  | true =>
    -- after `m` turns of the loop the first `m` words are written
    have hloop : ∀ m, m ≤ 2 ^ l → (List.range m).foldl
        (fun ram i => Function.update ram (addrB ++ BitVec.ofNat l i) (lane w i diB)) myRam
          (k ++ BitVec.ofNat l i) =
        if k = addrB ∧ i < m then lane w i diB else myRam (k ++ BitVec.ofNat l i) := by
      intro m hm
      induction m with
      | zero => simp
      | succ m ih =>
        rw [List.range_succ, List.foldl_append, List.foldl_cons, List.foldl_nil,
          Function.update_apply, ih (by omega)]
        simp only [append_ofNat_inj hi (show m < 2 ^ l by omega)]
        by_cases hk : k = addrB
        · rcases Nat.lt_trichotomy i m with hlt | rfl | hgt
          · rw [if_neg (by omega), if_pos ⟨hk, hlt⟩, if_pos ⟨hk, by omega⟩]
          · rw [if_pos ⟨hk, rfl⟩, if_pos ⟨hk, by omega⟩]
          · rw [if_neg (by omega), if_neg (by omega), if_neg (by omega)]
        · simp [hk]
    rw [asymWrite, cond_true, hloop _ le_rfl]
    simp [hi]

/-- The narrow memory holds the lanes of the wide one. -/
def Mirrors (ram : Ram aw n) (myRam : Ram (aw + l) w) : Prop :=
  ∀ k i, i < 2 ^ l → myRam (k ++ BitVec.ofNat l i) = lane w i (ram k)

theorem Mirrors.write {ram : Ram aw n} {myRam : Ram (aw + l) w} (h : Mirrors ram myRam)
    (we : Bool) (addr : BitVec aw) (di : BitVec n) :
    Mirrors (writeA we addr di ram) (asymWrite we addr di myRam) := by
  intro k i hi
  rw [asymWrite_apply we addr di myRam k hi, writeA_apply]
  split
  next => rfl
  next => exact h k i hi

/-- A flat address of the narrow memory is a word and a lane. -/
theorem ofNat_eq_append {j : Nat} (hj : j < 2 ^ (aw + l)) :
    BitVec.ofNat (aw + l) j = BitVec.ofNat aw (j / 2 ^ l) ++ BitVec.ofNat l (j % 2 ^ l) := by
  have hmod : j % 2 ^ l < 2 ^ l := Nat.mod_lt j (Nat.two_pow_pos l)
  have hdiv : j / 2 ^ l < 2 ^ aw := Nat.div_lt_of_lt_mul (by rwa [← Nat.pow_add, Nat.add_comm l])
  apply BitVec.eq_of_toNat_eq
  rw [BitVec.toNat_append, BitVec.toNat_ofNat, BitVec.toNat_ofNat, BitVec.toNat_ofNat,
    Nat.mod_eq_of_lt hj, Nat.mod_eq_of_lt hdiv, Nat.mod_eq_of_lt hmod,
    ← Nat.shiftLeft_add_eq_or_of_lt hmod, Nat.shiftLeft_eq, Nat.mul_comm, Nat.div_add_mod]

end Asym

end RpEcosystem.Averager
