import Mathlib.Data.BitVec

/-! Packed slot words of a Faunus leaf.

A `KVBlock` is one 64-bit word: a fingerprint, the global address of a `KVItem`,
a free bit and a lock bit. Writers change it by compare-and-swap, splits by
fetch-and-add on the lock bit. The masks are the source's own, short digits
included: `setAddr` keeps bits 48 to 59 of the old word and stores 46 address bits.
-/

set_option autoImplicit false

namespace Faunus

/-- The bytes of a key, most significant first. -/
class KeyBytes (Key : Type) where
  bytes : Key → List (BitVec 8)

/-- Keys of one byte. -/
instance : KeyBytes (Fin 256) := ⟨fun key => [BitVec.ofFin key]⟩

/-- 50 bits: a server index above a 42-bit offset. -/
@[ext] structure GlobalAddress where
  raw : BitVec 50
  deriving DecidableEq, Repr

namespace GlobalAddress

def ofAddress (address : BitVec 64) : GlobalAddress := ⟨address.setWidth 50⟩

def ofParts (index : BitVec 8) (off : BitVec 64) : GlobalAddress :=
  ofAddress ((index.setWidth 64 <<< 42) ||| (off &&& 0x0003FFFFFFFFFF#64))

def serverIndex (a : GlobalAddress) : BitVec 8 := (a.raw >>> 42).setWidth 8

def offset (a : GlobalAddress) : BitVec 64 := a.raw.setWidth 64 &&& 0x0003FFFFFFFFFF#64

/-- The address survives a round trip through a block. -/
def Fits (a : GlobalAddress) : Prop := a.raw.toNat < 2 ^ 46

instance (a : GlobalAddress) : Decidable a.Fits := inferInstanceAs (Decidable (_ < _))

end GlobalAddress

@[ext] structure Fingerprint where
  value : BitVec 12
  deriving DecidableEq, Repr

namespace Fingerprint

def ofBits (v : BitVec 16) : Fingerprint := ⟨(v &&& 0x0FFF#16).setWidth 12⟩

/-- XOR of the key's bytes; the 12 bits of the field never all come into use. -/
def ofKey {Key : Type} [KeyBytes Key] (key : Key) : Fingerprint :=
  ofBits ((KeyBytes.bytes key).foldl (fun hash b => hash ^^^ b.setWidth 16) 0)

def Byte (fp : Fingerprint) : Prop := fp.value.toNat < 2 ^ 8

theorem byte_ofKey {Key : Type} [KeyBytes Key] (key : Key) : (ofKey key).Byte := by
  have small : ∀ (l : List (BitVec 8)) (h : BitVec 16), h.toNat < 2 ^ 8 →
      (l.foldl (fun hash b => hash ^^^ b.setWidth 16) h).toNat < 2 ^ 8 := by
    intro l
    induction l with
    | nil => exact fun h bound => bound
    | cons b rest ih =>
      intro h bound
      refine ih _ ?_
      rw [BitVec.toNat_xor]
      refine Nat.xor_lt_two_pow bound ?_
      rw [BitVec.toNat_setWidth]
      exact lt_of_le_of_lt (Nat.mod_le _ _) b.isLt
  have hash := small (KeyBytes.bytes key) 0 (by decide)
  unfold Byte ofKey ofBits
  rw [BitVec.toNat_setWidth, BitVec.toNat_and]
  exact lt_of_le_of_lt (Nat.mod_le _ _) (lt_of_le_of_lt Nat.and_le_left hash)

end Fingerprint

@[ext] structure KVBlock where
  raw : BitVec 64
  deriving DecidableEq, Repr

namespace KVBlock

def getFingerprint (b : KVBlock) : Fingerprint := .ofBits ((b.raw >>> 52).setWidth 16)

def getAddr (b : KVBlock) : GlobalAddress := .ofAddress ((b.raw &&& 0x000FFFFFFFFFFFFF#64) >>> 2)

def isFree (b : KVBlock) : Bool := (b.raw &&& 0x2#64) >>> 1 != 0

def isLocked (b : KVBlock) : Bool := b.raw &&& 0x1#64 != 0

def setFingerprint (b : KVBlock) (fp : Fingerprint) : KVBlock :=
  ⟨(b.raw &&& 0x000FFFFFFFFFFFFF#64) ||| (fp.value.setWidth 64 <<< 52)⟩

def setAddr (b : KVBlock) (ptr : GlobalAddress) : KVBlock :=
  ⟨(b.raw &&& 0xFFF000000000003#64) ||| ((ptr.raw.setWidth 64 <<< 2) &&& 0x000FFFFFFFFFFFC#64)⟩

def setFree (b : KVBlock) (free : Bool) : KVBlock :=
  ⟨(b.raw &&& 0xFFFFFFFFFFFFFFFD#64) ||| ((BitVec.ofBool free).setWidth 64 <<< 1)⟩

def setLocked (b : KVBlock) (locked : Bool) : KVBlock :=
  ⟨(b.raw &&& 0xFFFFFFFFFFFFFFFE#64) ||| (BitVec.ofBool locked).setWidth 64⟩

def make (fp : Fingerprint) (ptr : GlobalAddress) (free locked : Bool) : KVBlock :=
  ((((⟨0⟩ : KVBlock).setFingerprint fp).setAddr ptr).setFree free).setLocked locked

/-- What an empty leaf is filled with. -/
def empty : KVBlock := make (.ofBits 0) (.ofAddress 0) true false

/-- A fetch-and-add on the word. -/
def add (b : KVBlock) (increment : BitVec 64) : KVBlock := ⟨b.raw + increment⟩

/-! ## The words bit by bit -/

theorem mask_bit (mask : BitVec 64) (inside : ℕ → Bool)
    (bits : ∀ i : Fin 64, mask.getLsbD i = inside i) (outside : ∀ i, 64 ≤ i → inside i = false) (i : ℕ) :
    mask.getLsbD i = inside i := by
  by_cases h : i < 64
  · exact bits ⟨i, h⟩
  · rw [BitVec.getLsbD_of_ge _ _ (by omega), outside i (by omega)]

theorem bit_ne_zero (x : BitVec 64) : (x &&& 1#64 != 0) = x.getLsbD 0 := by
  rw [BitVec.and_one_eq_setWidth_ofBool_getLsbD]
  cases x.getLsbD 0 <;> decide

theorem isLocked_eq (b : KVBlock) : b.isLocked = b.raw.getLsbD 0 := bit_ne_zero b.raw

theorem isFree_eq (b : KVBlock) : b.isFree = b.raw.getLsbD 1 := by
  have shifted : (b.raw &&& 0x2#64) >>> 1 = (b.raw >>> 1) &&& 1#64 := by
    rw [BitVec.ushiftRight_and_distrib]
    rfl
  unfold isFree
  rw [shifted, bit_ne_zero, BitVec.getLsbD_ushiftRight]

theorem getAddr_bit (b : KVBlock) (i : ℕ) :
    b.getAddr.raw.getLsbD i = (decide (i < 50) && b.raw.getLsbD (i + 2)) := by
  have mask := mask_bit 0x000FFFFFFFFFFFFF#64 (fun i => decide (i < 52))
    (by decide) (by intro i h; simp; omega)
  simp only [getAddr, GlobalAddress.ofAddress, BitVec.getLsbD_setWidth, BitVec.getLsbD_ushiftRight,
    BitVec.getLsbD_and, mask]
  grind

theorem getFingerprint_bit (b : KVBlock) (i : ℕ) :
    b.getFingerprint.value.getLsbD i = (decide (i < 12) && b.raw.getLsbD (i + 52)) := by
  have mask : ∀ i : ℕ, (0x0FFF#16).getLsbD i = decide (i < 12) := by
    intro i
    by_cases h : i < 16
    · exact (by decide : ∀ i : Fin 16, (0x0FFF#16).getLsbD i = decide (i.val < 12)) ⟨i, h⟩
    · rw [BitVec.getLsbD_of_ge _ _ (by omega)]
      simp; omega
  simp only [getFingerprint, Fingerprint.ofBits, BitVec.getLsbD_setWidth, BitVec.getLsbD_ushiftRight,
    BitVec.getLsbD_and, mask]
  grind

theorem setFingerprint_bit (b : KVBlock) (fp : Fingerprint) (i : ℕ) :
    (b.setFingerprint fp).raw.getLsbD i =
      if i < 52 then b.raw.getLsbD i else fp.value.getLsbD (i - 52) := by
  have mask := mask_bit 0x000FFFFFFFFFFFFF#64 (fun i => decide (i < 52))
    (by decide) (by intro i h; simp; omega)
  simp only [setFingerprint, BitVec.getLsbD_or, BitVec.getLsbD_and, BitVec.getLsbD_shiftLeft,
    BitVec.getLsbD_setWidth, mask]
  have := fp.value.getLsbD_of_ge (i - 52)
  grind

theorem setAddr_bit (b : KVBlock) (ptr : GlobalAddress) (i : ℕ) :
    (b.setAddr ptr).raw.getLsbD i =
      if 2 ≤ i ∧ i < 48 then ptr.raw.getLsbD (i - 2) else decide (i < 60) && b.raw.getLsbD i := by
  have kept := mask_bit 0xFFF000000000003#64
    (fun i => decide (i < 2 ∨ (48 ≤ i ∧ i < 60))) (by decide) (by intro i h; simp; omega)
  have stored := mask_bit 0x000FFFFFFFFFFFC#64
    (fun i => decide (2 ≤ i ∧ i < 48)) (by decide) (by intro i h; simp; omega)
  simp only [setAddr, BitVec.getLsbD_or, BitVec.getLsbD_and, BitVec.getLsbD_shiftLeft,
    BitVec.getLsbD_setWidth, kept, stored]
  grind

theorem setFree_bit (b : KVBlock) (free : Bool) (i : ℕ) :
    (b.setFree free).raw.getLsbD i = if i = 1 then free else b.raw.getLsbD i := by
  have kept := mask_bit 0xFFFFFFFFFFFFFFFD#64
    (fun i => decide (i ≠ 1 ∧ i < 64)) (by decide) (by intro i h; simp; omega)
  simp only [setFree, BitVec.getLsbD_or, BitVec.getLsbD_and, BitVec.getLsbD_shiftLeft,
    BitVec.getLsbD_setWidth, kept, BitVec.getLsbD_ofBool]
  have := b.raw.getLsbD_of_ge i
  grind

theorem setLocked_bit (b : KVBlock) (locked : Bool) (i : ℕ) :
    (b.setLocked locked).raw.getLsbD i = if i = 0 then locked else b.raw.getLsbD i := by
  have kept := mask_bit 0xFFFFFFFFFFFFFFFE#64
    (fun i => decide (i ≠ 0 ∧ i < 64)) (by decide) (by intro i h; simp; omega)
  simp only [setLocked, BitVec.getLsbD_or, BitVec.getLsbD_and, 
    BitVec.getLsbD_setWidth, kept, BitVec.getLsbD_ofBool]
  have := b.raw.getLsbD_of_ge i
  grind

/-! ## What each setter leaves alone -/

theorem raw_ext {b b' : KVBlock} (bits : ∀ i, b.raw.getLsbD i = b'.raw.getLsbD i) : b = b' :=
  KVBlock.ext (BitVec.eq_of_getLsbD_eq fun i _ => bits i)

theorem addr_ext {a a' : GlobalAddress} (bits : ∀ i < 50, a.raw.getLsbD i = a'.raw.getLsbD i) : a = a' :=
  GlobalAddress.ext (BitVec.eq_of_getLsbD_eq bits)

theorem fingerprint_ext {fp fp' : Fingerprint}
    (bits : ∀ i < 12, fp.value.getLsbD i = fp'.value.getLsbD i) : fp = fp' :=
  Fingerprint.ext (BitVec.eq_of_getLsbD_eq bits)

section SetLocked
variable (b : KVBlock) (locked : Bool)

@[simp] theorem isLocked_setLocked : (b.setLocked locked).isLocked = locked := by
  rw [isLocked_eq, setLocked_bit, if_pos rfl]

@[simp] theorem isFree_setLocked : (b.setLocked locked).isFree = b.isFree := by
  rw [isFree_eq, isFree_eq, setLocked_bit, if_neg one_ne_zero]

@[simp] theorem getAddr_setLocked : (b.setLocked locked).getAddr = b.getAddr :=
  addr_ext fun i _ => by simp [getAddr_bit, setLocked_bit]

@[simp] theorem getFingerprint_setLocked : (b.setLocked locked).getFingerprint = b.getFingerprint :=
  fingerprint_ext fun i _ => by simp [getFingerprint_bit, setLocked_bit]

@[simp] theorem setLocked_setLocked (again : Bool) : (b.setLocked locked).setLocked again = b.setLocked again :=
  raw_ext fun i => by
    simp only [setLocked_bit]
    split <;> rfl

end SetLocked

theorem setLocked_isLocked (b : KVBlock) : b.setLocked b.isLocked = b :=
  raw_ext fun i => by
    rw [setLocked_bit, isLocked_eq]
    split
    · subst_vars; rfl
    · rfl

section SetFree
variable (b : KVBlock) (free : Bool)

@[simp] theorem isFree_setFree : (b.setFree free).isFree = free := by
  rw [isFree_eq, setFree_bit, if_pos rfl]

@[simp] theorem isLocked_setFree : (b.setFree free).isLocked = b.isLocked := by
  rw [isLocked_eq, isLocked_eq, setFree_bit, if_neg zero_ne_one]

end SetFree

section Make
variable {fp : Fingerprint} {ptr : GlobalAddress} (free locked : Bool)

@[simp] theorem isLocked_make : (make fp ptr free locked).isLocked = locked := by
  simp [make]

@[simp] theorem isFree_make : (make fp ptr free locked).isFree = free := by
  simp [make]

theorem getAddr_make (fits : ptr.Fits) : (make fp ptr free locked).getAddr = ptr := by
  refine addr_ext fun i bound => ?_
  have high : ∀ j, 46 ≤ j → ptr.raw.getLsbD j = false := fun j above =>
    Nat.testBit_lt_two_pow (lt_of_lt_of_le fits (Nat.pow_le_pow_right (by decide) above))
  simp only [make, getAddr_bit, setLocked_bit, setFree_bit, setAddr_bit, setFingerprint_bit]
  have := high i
  grind

theorem getFingerprint_make (byte : fp.Byte) : (make fp ptr free locked).getFingerprint = fp := by
  refine fingerprint_ext fun i bound => ?_
  have high : ∀ j, 8 ≤ j → fp.value.getLsbD j = false := fun j above =>
    Nat.testBit_lt_two_pow (lt_of_lt_of_le byte (Nat.pow_le_pow_right (by decide) above))
  simp only [make, getFingerprint_bit, setLocked_bit, setFree_bit, setAddr_bit, setFingerprint_bit]
  have := high i
  grind

end Make

/-! ## Locking by arithmetic -/

/-- Adding one to an unlocked word sets its lock bit and carries nowhere. -/
theorem add_one {b : KVBlock} (unlocked : b.isLocked = false) : b.add 1 = b.setLocked true := by
  have low : b.raw &&& 1#64 = 0 := by
    simpa [isLocked] using unlocked
  refine KVBlock.ext ?_
  change b.raw + 1#64 = _
  rw [BitVec.add_eq_or_of_and_eq_zero _ _ low]
  refine BitVec.eq_of_getLsbD_eq fun i _ => ?_
  rw [setLocked_bit, BitVec.getLsbD_or, BitVec.getLsbD_one]
  split
  · simp_all
  · simp_all

/-- Subtracting one from a locked word clears its lock bit and borrows nowhere. -/
theorem add_minus_one {b : KVBlock} (locked : b.isLocked = true) : b.add (-1) = b.setLocked false := by
  have back : (b.setLocked false).add 1 = b := by
    rw [add_one (isLocked_setLocked b false), setLocked_setLocked, ← locked, setLocked_isLocked]
  have raw : (b.setLocked false).raw + 1#64 = b.raw := congrArg KVBlock.raw back
  refine KVBlock.ext ?_
  change b.raw + -1#64 = _
  rw [← raw, BitVec.add_assoc, BitVec.add_right_neg, BitVec.add_zero]

end KVBlock

end Faunus
