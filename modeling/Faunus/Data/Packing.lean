import Faunus.Data.KVBlock

/-! What a slot word keeps of its four components.

Two of the masks of `setAddr` are a hexadecimal digit short: bits 60 to 63 are cleared,
which are the upper bits of the fingerprint, and bits 48 to 51 of the old word stay, which
are the upper bits of the address.
-/

set_option autoImplicit false

namespace Faunus

namespace KVBlock

/-- The getters return exactly these components. -/
structure Decodes (b : KVBlock) (fp : Fingerprint) (index : BitVec 8) (off : BitVec 64) (free locked : Bool) : Prop where
  fingerprint : b.getFingerprint = fp
  serverIndex : b.getAddr.serverIndex = index
  offset : b.getAddr.offset = off
  isFree : b.isFree = free
  isLocked : b.isLocked = locked

/-- Each setter leaves the other three components of the block as they are. -/
structure SetsOnly (b : KVBlock) : Prop where
  fingerprint : ∀ fp, (b.setFingerprint fp).getAddr = b.getAddr ∧ (b.setFingerprint fp).isFree = b.isFree ∧
    (b.setFingerprint fp).isLocked = b.isLocked
  addr : ∀ ptr, (b.setAddr ptr).getFingerprint = b.getFingerprint ∧ (b.setAddr ptr).isFree = b.isFree ∧
    (b.setAddr ptr).isLocked = b.isLocked
  free : ∀ free, (b.setFree free).getFingerprint = b.getFingerprint ∧ (b.setFree free).getAddr = b.getAddr ∧
    (b.setFree free).isLocked = b.isLocked
  locked : ∀ locked, (b.setLocked locked).getFingerprint = b.getFingerprint ∧ (b.setLocked locked).getAddr = b.getAddr ∧
    (b.setLocked locked).isFree = b.isFree

end KVBlock

/-! ## Addresses -/

namespace GlobalAddress

theorem offset_mask (i : ℕ) : (0x0003FFFFFFFFFF#64).getLsbD i = decide (i < 42) :=
  KVBlock.mask_bit _ (fun i => decide (i < 42)) (by decide) (by intro i h; simp; omega) i

theorem ofParts_bit (index : BitVec 8) (off : BitVec 64) (i : ℕ) :
    (ofParts index off).raw.getLsbD i = if i < 42 then off.getLsbD i else decide (i < 50) && index.getLsbD (i - 42) := by
  simp only [ofParts, ofAddress, BitVec.getLsbD_setWidth, BitVec.getLsbD_or, BitVec.getLsbD_shiftLeft, BitVec.getLsbD_and,
    offset_mask]
  grind

theorem serverIndex_bit (a : GlobalAddress) (i : ℕ) : a.serverIndex.getLsbD i = (decide (i < 8) && a.raw.getLsbD (42 + i)) := by
  simp only [serverIndex, BitVec.getLsbD_setWidth, BitVec.getLsbD_ushiftRight]

theorem offset_bit (a : GlobalAddress) (i : ℕ) : a.offset.getLsbD i = (decide (i < 42) && a.raw.getLsbD i) := by
  simp only [offset, BitVec.getLsbD_and, BitVec.getLsbD_setWidth, offset_mask]
  grind

end GlobalAddress

/-! ## The words of the constructor and of the setters -/

theorem lt_two_pow_iff {w : ℕ} (x : BitVec w) (n : ℕ) : x.toNat < 2 ^ n ↔ ∀ i, n ≤ i → x.getLsbD i = false := by
  constructor
  · intro less i above
    exact Nat.testBit_lt_two_pow (lt_of_lt_of_le less (Nat.pow_le_pow_right (by decide) above))
  · exact Nat.lt_pow_two_of_testBit _

namespace KVBlock

section
variable (fp : Fingerprint) (ptr : GlobalAddress) (free locked : Bool) (b : KVBlock)

theorem make_fingerprint_bit (i : ℕ) :
    (make fp ptr free locked).getFingerprint.value.getLsbD i = (decide (i < 8) && fp.value.getLsbD i) := by
  simp only [make, getFingerprint_bit, setLocked_bit, setFree_bit, setAddr_bit, setFingerprint_bit]
  grind

theorem make_addr_bit (i : ℕ) : (make fp ptr free locked).getAddr.raw.getLsbD i = (decide (i < 46) && ptr.raw.getLsbD i) := by
  simp only [make, getAddr_bit, setLocked_bit, setFree_bit, setAddr_bit, setFingerprint_bit]
  grind

theorem setAddr_fingerprint_bit (i : ℕ) :
    (b.setAddr ptr).getFingerprint.value.getLsbD i = (decide (i < 8) && b.getFingerprint.value.getLsbD i) := by
  simp only [getFingerprint_bit, setAddr_bit]
  grind

/-- The constructor keeps 8 bits of the fingerprint and 4 bits of the server index. -/
theorem make_decodes_iff (index : BitVec 8) {off : BitVec 64} (inside : off.toNat < 2 ^ 42) :
    (make fp (.ofParts index off) free locked).Decodes fp index off free locked ↔ fp.Byte ∧ index.toNat < 2 ^ 4 := by
  rw [Fingerprint.Byte, lt_two_pow_iff, lt_two_pow_iff]
  rw [lt_two_pow_iff] at inside
  constructor
  · intro decodes
    constructor
    · intro i above
      rw [← decodes.fingerprint, make_fingerprint_bit]
      simp [above.not_gt]
    · intro i above
      rw [← decodes.serverIndex, GlobalAddress.serverIndex_bit, make_addr_bit]
      simp
      omega
  · rintro ⟨byte, low⟩
    refine ⟨?_, ?_, ?_, isFree_make _ _, isLocked_make _ _⟩
    · refine fingerprint_ext fun i _ => ?_
      rw [make_fingerprint_bit]
      have := byte i
      grind
    · refine BitVec.eq_of_getLsbD_eq fun i bound => ?_
      rw [GlobalAddress.serverIndex_bit, make_addr_bit, GlobalAddress.ofParts_bit]
      have := low i
      grind
    · refine BitVec.eq_of_getLsbD_eq fun i bound => ?_
      rw [GlobalAddress.offset_bit, make_addr_bit, GlobalAddress.ofParts_bit]
      have := inside i
      grind

/-- `setAddr` clears the upper bits of the fingerprint; the other setters leave everything else alone. -/
theorem setsOnly_iff : b.SetsOnly ↔ b.getFingerprint.Byte := by
  rw [Fingerprint.Byte, lt_two_pow_iff]
  constructor
  · intro only i above
    rw [← (only.addr (.ofAddress 0)).1, setAddr_fingerprint_bit]
    simp [above.not_gt]
  · intro byte
    refine ⟨fun fp => ⟨?_, ?_, ?_⟩, fun ptr => ⟨?_, ?_, ?_⟩, fun free => ⟨?_, ?_, isLocked_setFree b free⟩, fun locked =>
      ⟨?_, ?_, ?_⟩⟩
    · exact addr_ext fun i _ => by simp only [getAddr_bit, setFingerprint_bit]; grind
    · rw [isFree_eq, isFree_eq, setFingerprint_bit, if_pos (by decide)]
    · rw [isLocked_eq, isLocked_eq, setFingerprint_bit, if_pos (by decide)]
    · refine fingerprint_ext fun i _ => ?_
      rw [setAddr_fingerprint_bit]
      have := byte i
      grind
    · rw [isFree_eq, isFree_eq, setAddr_bit, if_neg (by decide), decide_eq_true (by decide), Bool.true_and]
    · rw [isLocked_eq, isLocked_eq, setAddr_bit, if_neg (by decide), decide_eq_true (by decide), Bool.true_and]
    · exact fingerprint_ext fun i _ => by simp [getFingerprint_bit, setFree_bit]
    · exact addr_ext fun i _ => by simp [getAddr_bit, setFree_bit]
    · exact getFingerprint_setLocked b locked
    · exact getAddr_setLocked b locked
    · exact isFree_setLocked b locked

end

/-- A block packs its components faithfully, and the setters keep to their own component, if and only if the
fingerprints have 8 bits and the server index has 4. -/
theorem packing_faithful (fp : Fingerprint) (index : BitVec 8) {off : BitVec 64} (inside : off.toNat < 2 ^ 42) (free locked : Bool)
    (b : KVBlock) :
    (make fp (.ofParts index off) free locked).Decodes fp index off free locked ∧ b.SetsOnly ↔
      fp.Byte ∧ index.toNat < 2 ^ 4 ∧ b.getFingerprint.Byte := by
  rw [make_decodes_iff fp free locked index inside, setsOnly_iff, and_assoc]

theorem packing_faithful_lastServer :
    (make (.ofBits 7) (.ofParts 15 4096) false true).Decodes (.ofBits 7) 15 4096 false true ∧
    (make (.ofBits 7) (.ofParts 15 4096) false true).SetsOnly :=
  (packing_faithful (.ofBits 7) 15 (by decide) false true _).2
    ⟨by unfold Fingerprint.Byte; decide, by decide, by unfold Fingerprint.Byte; decide⟩

/-- Server 16 at offset 0 packs to the null address, and `setAddr` turns the fingerprint 256 into 0. -/
theorem packing_fails_short : ¬ ∀ (fp : Fingerprint) (index : BitVec 8) (off : BitVec 64) (free locked : Bool) (b : KVBlock),
    off.toNat < 2 ^ 42 → (make fp (.ofParts index off) free locked).Decodes fp index off free locked ∧ b.SetsOnly := by
  intro claimed
  have decoded := (claimed (.ofBits 0) 16 0 false false ⟨0⟩ (by decide)).1.serverIndex
  exact absurd decoded (by decide)

/-! ## Random components -/

/-- `Fingerprint(util::thread_rand64() & 0x0FFF)`. -/
def randomFingerprint (draw : BitVec 64) : Fingerprint := .ofBits ((draw &&& 0x0FFF#64).setWidth 16)

/-- `GlobalAddress(util::thread_rand64() & 0x0003FFFFFFFFFFULL)`. -/
def randomAddress (draw : BitVec 64) : GlobalAddress := .ofAddress (draw &&& 0x0003FFFFFFFFFF#64)

/-- Draw until the candidate differs from the old component; the candidate and the draws that are left. -/
def drawOther {C : Type} [DecidableEq C] (candidate : BitVec 64 → C) (old : C) : List (BitVec 64) → Option (C × List (BitVec 64))
  | [] => none
  | draw :: rest => if candidate draw = old then drawOther candidate old rest else some (candidate draw, rest)

/-- Nothing is returned while a loop still waits for a draw. -/
def setDifferentRandomFpAddr (b : KVBlock) (draws : List (BitVec 64)) : Option KVBlock :=
  match drawOther randomFingerprint b.getFingerprint draws with
  | none => none
  | some (fp, rest) =>
    let b := b.setFingerprint fp
    match drawOther randomAddress b.getAddr rest with
    | none => none
    | some (addr, _) => some (b.setAddr addr)

/-- The flags stay and the other two components change. -/
structure Retagged (b b' : KVBlock) : Prop where
  isFree : b'.isFree = b.isFree
  isLocked : b'.isLocked = b.isLocked
  fingerprint : b'.getFingerprint ≠ b.getFingerprint
  addr : b'.getAddr ≠ b.getAddr

/-- The draws that end the loops differ from the old components in the bits that the setters store. -/
def Distinguishes (b : KVBlock) (draws : List (BitVec 64)) : Prop :=
  ∀ fp rest addr rest', drawOther randomFingerprint b.getFingerprint draws = some (fp, rest) →
    drawOther randomAddress b.getAddr rest = some (addr, rest') →
    fp.value.toNat % 2 ^ 8 ≠ b.getFingerprint.value.toNat ∧ addr.raw.toNat ≠ b.getAddr.raw.toNat % 2 ^ 46

theorem toNat_eq_mod_iff {w w' : ℕ} (x : BitVec w) (y : BitVec w') (n : ℕ) :
    x.toNat = y.toNat % 2 ^ n ↔ ∀ i, x.getLsbD i = (decide (i < n) && y.getLsbD i) := by
  constructor
  · intro same i
    rw [← BitVec.testBit_toNat, same, Nat.testBit_mod_two_pow, BitVec.testBit_toNat]
  · intro bits
    refine Nat.eq_of_testBit_eq fun i => ?_
    rw [Nat.testBit_mod_two_pow, BitVec.testBit_toNat, BitVec.testBit_toNat, bits]

section
variable (b : KVBlock) (fp : Fingerprint) (addr : GlobalAddress)

theorem getAddr_setFingerprint : (b.setFingerprint fp).getAddr = b.getAddr :=
  addr_ext fun i _ => by simp only [getAddr_bit, setFingerprint_bit]; grind

theorem getFingerprint_setFingerprint : (b.setFingerprint fp).getFingerprint = fp :=
  fingerprint_ext fun i _ => by simp only [getFingerprint_bit, setFingerprint_bit]; grind

theorem setAddr_addr_bit (i : ℕ) :
    (b.setAddr addr).getAddr.raw.getLsbD i = if i < 46 then addr.raw.getLsbD i else b.getAddr.raw.getLsbD i := by
  simp only [getAddr_bit, setAddr_bit]
  grind

theorem retag_fingerprint_iff : ((b.setFingerprint fp).setAddr addr).getFingerprint = b.getFingerprint ↔
    fp.value.toNat % 2 ^ 8 = b.getFingerprint.value.toNat := by
  rw [eq_comm (a := fp.value.toNat % 2 ^ 8), toNat_eq_mod_iff (n := 8)]
  constructor
  · intro same i
    rw [← same, setAddr_fingerprint_bit, getFingerprint_setFingerprint]
  · intro bits
    refine fingerprint_ext fun i _ => ?_
    rw [setAddr_fingerprint_bit, getFingerprint_setFingerprint, bits]

theorem retag_addr_iff (small : addr.raw.toNat < 2 ^ 46) : ((b.setFingerprint fp).setAddr addr).getAddr = b.getAddr ↔
    addr.raw.toNat = b.getAddr.raw.toNat % 2 ^ 46 := by
  rw [lt_two_pow_iff] at small
  rw [toNat_eq_mod_iff (n := 46)]
  constructor
  · intro same i
    have bit := setAddr_addr_bit (b.setFingerprint fp) addr i
    rw [same] at bit
    have := small i
    grind
  · intro bits
    refine addr_ext fun i _ => ?_
    rw [setAddr_addr_bit, getAddr_setFingerprint, bits]
    grind

end

theorem drawOther_candidate {C : Type} [DecidableEq C] {candidate : BitVec 64 → C} {old c : C} {draws rest : List (BitVec 64)}
    (drawn : drawOther candidate old draws = some (c, rest)) : ∃ draw, c = candidate draw := by
  induction draws with
  | nil => cases drawn
  | cons draw more ih =>
    unfold drawOther at drawn
    split at drawn
    · exact ih drawn
    · cases drawn
      exact ⟨draw, rfl⟩

theorem randomAddress_lt (draw : BitVec 64) : (randomAddress draw).raw.toNat < 2 ^ 46 := by
  rw [lt_two_pow_iff]
  intro i above
  simp only [randomAddress, GlobalAddress.ofAddress, BitVec.getLsbD_setWidth, BitVec.getLsbD_and, GlobalAddress.offset_mask]
  grind

theorem setDifferentRandomFpAddr_eq_some {b b' : KVBlock} {draws : List (BitVec 64)}
    (ended : b.setDifferentRandomFpAddr draws = some b') :
    ∃ fp rest addr rest', drawOther randomFingerprint b.getFingerprint draws = some (fp, rest) ∧
      drawOther randomAddress b.getAddr rest = some (addr, rest') ∧ b' = (b.setFingerprint fp).setAddr addr := by
  unfold setDifferentRandomFpAddr at ended
  split at ended
  · cases ended
  · rename_i fp rest first
    dsimp only at ended
    rw [getAddr_setFingerprint] at ended
    split at ended
    · cases ended
    · rename_i addr rest' second
      exact ⟨fp, rest, addr, rest', first, second, (Option.some.inj ended).symm⟩

/-- A block is re-tagged if and only if the draws differ from it in the bits that are stored. -/
theorem retagged_iff {b b' : KVBlock} {draws : List (BitVec 64)} (ended : b.setDifferentRandomFpAddr draws = some b') :
    b.Retagged b' ↔ b.Distinguishes draws := by
  obtain ⟨fp, rest, addr, rest', first, second, rfl⟩ := setDifferentRandomFpAddr_eq_some ended
  have small : addr.raw.toNat < 2 ^ 46 := by
    obtain ⟨draw, rfl⟩ := drawOther_candidate second
    exact randomAddress_lt draw
  constructor
  · intro retagged fp' more addr' more' first' second'
    cases first.symm.trans first'
    cases second.symm.trans second'
    constructor
    · intro same
      exact retagged.fingerprint ((retag_fingerprint_iff b fp addr).2 same)
    · intro same
      exact retagged.addr ((retag_addr_iff b fp addr small).2 same)
  · intro distinguishes
    obtain ⟨fingerprint, address⟩ := distinguishes fp rest addr rest' first second
    refine ⟨?_, ?_, fun same => fingerprint ((retag_fingerprint_iff b fp addr).1 same), fun same =>
      address ((retag_addr_iff b fp addr small).1 same)⟩
    · rw [isFree_eq, isFree_eq, setAddr_bit, setFingerprint_bit]
      simp
    · rw [isLocked_eq, isLocked_eq, setAddr_bit, setFingerprint_bit]
      simp

theorem retagged_iff_emptySlot : (⟨0⟩ : KVBlock).setDifferentRandomFpAddr [0, 7, 0, 9] = some ⟨7 * 2 ^ 52 + 9 * 4⟩ ∧
    (⟨0⟩ : KVBlock).Retagged ⟨7 * 2 ^ 52 + 9 * 4⟩ := by
  have ended : (⟨0⟩ : KVBlock).setDifferentRandomFpAddr [0, 7, 0, 9] = some ⟨7 * 2 ^ 52 + 9 * 4⟩ := by decide
  refine ⟨ended, (retagged_iff ended).2 ?_⟩
  intro fp rest addr rest' first second
  have first' : drawOther randomFingerprint (⟨0⟩ : KVBlock).getFingerprint [0, 7, 0, 9] = some (.ofBits 7, [0, 9]) := by decide
  cases first'.symm.trans first
  have second' : drawOther randomAddress (⟨0⟩ : KVBlock).getAddr [0, 9] = some (.ofAddress 9, []) := by decide
  cases second'.symm.trans second
  decide

/-- The fingerprint 256 differs from 0 and is stored as 0. -/
theorem retag_keeps_fingerprint : ¬ ∀ (b b' : KVBlock) (draws : List (BitVec 64)),
    b.setDifferentRandomFpAddr draws = some b' → b.Retagged b' := by
  intro claimed
  have ended : (⟨0⟩ : KVBlock).setDifferentRandomFpAddr [256, 9] = some ⟨9 * 4⟩ := by decide
  exact absurd (by decide) (claimed _ _ _ ended).fingerprint

end KVBlock

end Faunus
