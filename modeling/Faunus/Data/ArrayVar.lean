import Faunus.Data.KVBlock
import Mathlib.Data.Int.ModEq
import Mathlib.Data.Nat.Digits.Lemmas

/-! Keys and values: `ArrayVar<N>`.

N bytes, the most significant first. Arithmetic runs from the last byte to the first and
takes the 64 bits of its operand one byte at a time, while it lasts.
-/

set_option autoImplicit false

namespace Faunus

@[ext] structure ArrayVar (N : ℕ) where
  data : List (BitVec 8)
  size : data.length = N
  deriving DecidableEq

/-- `static_cast<uint8_t>(v & 0xFFu)`. -/
def lowByte (v : BitVec 64) : BitVec 8 := (v &&& 0xFF#64).setWidth 8

/-! ## Loops

The loops see the bytes from the last one on; `i` counts them and 8 is `sizeof(v)`. -/

/-- The constructor from an integer, for the given number of bytes. -/
def fillLoop : ℕ → ℕ → BitVec 64 → List (BitVec 8)
  | 0, _, _ => []
  | n + 1, i, v =>
    if i < 8 then lowByte v :: fillLoop n (i + 1) (v >>> 8)
    else 0 :: fillLoop n (i + 1) v

/-- `operator+=`, with a 16-bit carry. -/
def addLoop : List (BitVec 8) → ℕ → BitVec 64 → BitVec 16 → List (BitVec 8)
  | [], _, _, _ => []
  | b :: rest, i, v, carry =>
    let add := if i < 8 then carry + (lowByte v).setWidth 16 else carry
    let sum := b.setWidth 16 + add
    (sum &&& 0xFF#16).setWidth 8 :: addLoop rest (i + 1) (if i < 8 then v >>> 8 else v) (if 0xFF#16 < sum then 1 else 0)

/-- `operator-=`, with a borrow of type `int`. -/
def subLoop : List (BitVec 8) → ℕ → BitVec 64 → ℤ → List (BitVec 8)
  | [], _, _, _ => []
  | b :: rest, i, v, borrow =>
    let sub := if i < 8 then borrow + (lowByte v).toNat else borrow
    let res := (b.toNat : ℤ) - sub
    if res < 0 then BitVec.ofInt 8 (res + 256) :: subLoop rest (i + 1) (if i < 8 then v >>> 8 else v) 1
    else BitVec.ofInt 8 res :: subLoop rest (i + 1) (if i < 8 then v >>> 8 else v) 0

@[simp] theorem length_fillLoop (n i : ℕ) (v : BitVec 64) : (fillLoop n i v).length = n := by
  induction n generalizing i v with
  | zero => rfl
  | succ n ih =>
    unfold fillLoop
    split <;> simp [ih]

@[simp] theorem length_addLoop (l : List (BitVec 8)) (i : ℕ) (v : BitVec 64) (carry : BitVec 16) :
    (addLoop l i v carry).length = l.length := by
  induction l generalizing i v carry with
  | nil => rfl
  | cons b rest ih => simp [addLoop, ih]

@[simp] theorem length_subLoop (l : List (BitVec 8)) (i : ℕ) (v : BitVec 64) (borrow : ℤ) :
    (subLoop l i v borrow).length = l.length := by
  induction l generalizing i v borrow with
  | nil => rfl
  | cons b rest ih =>
    rw [subLoop]
    by_cases negative : (b.toNat : ℤ) - (if i < 8 then borrow + (lowByte v).toNat else borrow) < 0
    · rw [if_pos negative, List.length_cons, List.length_cons, ih]
    · rw [if_neg negative, List.length_cons, List.length_cons, ih]

/-- The order of `std::memcmp` on blocks of one size. -/
def memcmp : List (BitVec 8) → List (BitVec 8) → Ordering
  | a :: as, b :: bs => if a < b then .lt else if b < a then .gt else memcmp as bs
  | _, _ => .eq

namespace ArrayVar

variable {N : ℕ}

def ofUInt64 (N : ℕ) (v : BitVec 64) : ArrayVar N := ⟨(fillLoop N 0 v).reverse, by simp⟩

def add (x : ArrayVar N) (v : BitVec 64) : ArrayVar N := ⟨(addLoop x.data.reverse 0 v 0).reverse, by simp [x.size]⟩

def sub (x : ArrayVar N) (v : BitVec 64) : ArrayVar N := ⟨(subLoop x.data.reverse 0 v 0).reverse, by simp [x.size]⟩

def min (N : ℕ) : ArrayVar N := ⟨List.replicate N 0, by simp⟩

def max (N : ℕ) : ArrayVar N := ⟨List.replicate N 0xFF, by simp⟩

def compare (x y : ArrayVar N) : Ordering := memcmp x.data y.data

def eq (x y : ArrayVar N) : Bool := x.compare y == .eq

def ne (x y : ArrayVar N) : Bool := x.compare y != .eq

def lt (x y : ArrayVar N) : Bool := x.compare y == .lt

def le (x y : ArrayVar N) : Bool := x.compare y != .gt

def gt (x y : ArrayVar N) : Bool := x.compare y == .gt

def ge (x y : ArrayVar N) : Bool := x.compare y != .lt

end ArrayVar

/-! ## Values -/

/-- The number with the given bytes, the least significant first. -/
def byteValue (l : List (BitVec 8)) : ℕ := Nat.ofDigits 256 (l.map BitVec.toNat)

@[simp] theorem byteValue_nil : byteValue [] = 0 := rfl

@[simp] theorem byteValue_cons (b : BitVec 8) (rest : List (BitVec 8)) : byteValue (b :: rest) = b.toNat + 256 * byteValue rest := by
  simp [byteValue, Nat.ofDigits_cons]

theorem byteValue_append (l l' : List (BitVec 8)) : byteValue (l ++ l') = byteValue l + 256 ^ l.length * byteValue l' := by
  simp [byteValue, Nat.ofDigits_append]

theorem byteValue_lt (l : List (BitVec 8)) : byteValue l < 256 ^ l.length := by
  have digits : ∀ d ∈ l.map BitVec.toNat, d < 256 := by
    intro d inside
    obtain ⟨b, -, rfl⟩ := List.mem_map.1 inside
    exact b.isLt
  simpa [byteValue] using Nat.ofDigits_lt_base_pow_length (by decide) digits

/-- What is left of the operand after `i` bytes. -/
def leftOver (i : ℕ) (v : BitVec 64) : ℕ := v.toNat % 256 ^ (8 - i)

theorem lowByte_toNat (v : BitVec 64) : (lowByte v).toNat = v.toNat % 256 := by
  have mask : v.toNat &&& 255 = v.toNat % 256 := Nat.and_two_pow_sub_one_eq_mod v.toNat 8
  rw [lowByte, BitVec.toNat_setWidth, BitVec.toNat_and]
  exact (congrArg (· % 256) mask).trans (Nat.mod_mod _ _)

theorem leftOver_step {i : ℕ} (more : i < 8) (v : BitVec 64) : leftOver i v = (lowByte v).toNat + 256 * leftOver (i + 1)
    (v >>> 8) := by
  have bytes : 8 - i = 8 - (i + 1) + 1 := by omega
  rw [leftOver, leftOver, lowByte_toNat, bytes, pow_succ', Nat.mod_mul, BitVec.toNat_ushiftRight, Nat.shiftRight_eq_div_pow]

theorem leftOver_done {i : ℕ} (done : ¬ i < 8) (v : BitVec 64) : leftOver i v = 0 := by
  rw [leftOver, Nat.sub_eq_zero_of_le (by omega), pow_zero, Nat.mod_one]

/-- The byte of the operand that the `i`-th step of a loop takes. -/
def operandByte (i : ℕ) (v : BitVec 64) : ℕ := if i < 8 then (lowByte v).toNat else 0

theorem leftOver_next (i : ℕ) (v : BitVec 64) : leftOver i v = operandByte i v + 256 * leftOver (i + 1)
    (if i < 8 then v >>> 8 else v) := by
  by_cases more : i < 8
  · rw [operandByte, if_pos more, if_pos more, leftOver_step more]
  · rw [operandByte, if_neg more, if_neg more, leftOver_done more, leftOver_done (by omega)]

theorem operandByte_lt (i : ℕ) (v : BitVec 64) : operandByte i v < 256 := by
  unfold operandByte
  split
  · exact (lowByte v).isLt
  · decide

theorem byteValue_fillLoop (n i : ℕ) (v : BitVec 64) : byteValue (fillLoop n i v) = leftOver i v % 256 ^ n := by
  induction n generalizing i v with
  | zero => simp [fillLoop, Nat.mod_one]
  | succ n ih =>
    by_cases more : i < 8
    · rw [fillLoop, if_pos more, byteValue_cons, ih, leftOver_step more, pow_succ', Nat.mod_mul]
      have low := (lowByte v).isLt
      congr 1
      · omega
      · congr 2
        omega
    · rw [fillLoop, if_neg more, byteValue_cons, ih, leftOver_done more, leftOver_done (by omega)]
      simp

/-- One step of the addition: the byte and the carry are the digits of the sum. -/
theorem add_step {b : BitVec 8} {i : ℕ} {v : BitVec 64} {carry : BitVec 16} (small : carry.toNat ≤ 1) :
    let sum := b.setWidth 16 + (if i < 8 then carry + (lowByte v).setWidth 16 else carry)
    ((sum &&& 0xFF#16).setWidth 8).toNat + 256 * (if 0xFF#16 < sum then (1 : BitVec 16) else 0).toNat = b.toNat + operandByte
      i v + carry.toNat ∧
      (if 0xFF#16 < sum then (1 : BitVec 16) else 0).toNat ≤ 1 := by
  intro sum
  have total : sum.toNat = b.toNat + operandByte i v + carry.toNat := by
    have one := b.isLt
    have two := (lowByte v).isLt
    unfold operandByte
    split_ifs with more
    · simp only [sum, if_pos more, BitVec.toNat_add, BitVec.toNat_setWidth]
      omega
    · simp only [sum, if_neg more, BitVec.toNat_add, BitVec.toNat_setWidth]
      omega
  have byte : ((sum &&& 0xFF#16).setWidth 8).toNat = sum.toNat % 256 := by
    have mask : sum.toNat &&& 255 = sum.toNat % 256 := Nat.and_two_pow_sub_one_eq_mod sum.toNat 8
    rw [BitVec.toNat_setWidth, BitVec.toNat_and]
    exact (congrArg (· % 256) mask).trans (Nat.mod_mod _ _)
  have bound := operandByte_lt i v
  have low := b.isLt
  rw [byte, ← total]
  split_ifs with carried
  · have carried : 255 < sum.toNat := carried
    exact ⟨by simp; omega, le_refl 1⟩
  · have carried : ¬ 255 < sum.toNat := carried
    exact ⟨by simp; omega, Nat.zero_le 1⟩

theorem byteValue_addLoop (l : List (BitVec 8)) (i : ℕ) (v : BitVec 64) (carry : BitVec 16) (small : carry.toNat ≤ 1) :
    byteValue (addLoop l i v carry) ≡ byteValue l + leftOver i v + carry.toNat [MOD 256 ^ l.length] := by
  induction l generalizing i v carry with
  | nil => exact Nat.modEq_one
  | cons b rest ih =>
    obtain ⟨digits, small'⟩ := add_step (b := b) (i := i) (v := v) small
    have later := (ih (i + 1) (if i < 8 then v >>> 8 else v) _ small').mul_left' 256
    have operand := leftOver_next i v
    rw [addLoop, byteValue_cons, byteValue_cons, List.length_cons, pow_succ']
    convert later.add_left _ using 1
    omega

/-- One step of the subtraction: the byte less the new borrow is the difference. -/
theorem sub_step {b : BitVec 8} {i : ℕ} {v : BitVec 64} {borrow : ℤ} (small : 0 ≤ borrow ∧ borrow ≤ 1) {res : ℤ}
    (difference : res = (b.toNat : ℤ) - (if i < 8 then borrow + (lowByte v).toNat else borrow)) :
    res = (b.toNat : ℤ) - operandByte i v - borrow ∧ (res < 0 → ((BitVec.ofInt 8 (res + 256)).toNat : ℤ) = res + 256) ∧
      (¬ res < 0 → ((BitVec.ofInt 8 res).toNat : ℤ) = res) := by
  have eq : res = (b.toNat : ℤ) - operandByte i v - borrow := by
    rw [difference, operandByte]
    split_ifs with more
    · omega
    · omega
  have byte := b.isLt
  have operand := operandByte_lt i v
  refine ⟨eq, fun negative => ?_, fun negative => ?_⟩
  · rw [BitVec.toNat_ofInt]
    omega
  · rw [BitVec.toNat_ofInt]
    omega

theorem byteValue_subLoop (l : List (BitVec 8)) (i : ℕ) (v : BitVec 64) (borrow : ℤ) (small : 0 ≤ borrow ∧ borrow ≤ 1) :
    (byteValue (subLoop l i v borrow) : ℤ) ≡ byteValue l - leftOver i v - borrow [ZMOD 256 ^ l.length] := by
  induction l generalizing i v borrow with
  | nil => exact Int.modEq_one
  | cons b rest ih =>
    obtain ⟨res, difference⟩ : ∃ res : ℤ, res = (b.toNat : ℤ) - (if i < 8 then borrow + (lowByte v).toNat else borrow) := ⟨_, rfl⟩
    obtain ⟨eq, below, above⟩ := sub_step small difference
    have operand := leftOver_next i v
    rw [subLoop, ← difference, List.length_cons, pow_succ', byteValue_cons]
    by_cases negative : res < 0
    · have later := (ih (i + 1) (if i < 8 then v >>> 8 else v) 1 (by decide)).mul_left' (c := 256)
      have byte := below negative
      rw [if_pos negative, byteValue_cons]
      push_cast
      convert later.add_left _ using 1
      omega
    · have later := (ih (i + 1) (if i < 8 then v >>> 8 else v) 0 (by decide)).mul_left' (c := 256)
      have byte := above negative
      rw [if_neg negative, byteValue_cons]
      push_cast
      convert later.add_left _ using 1
      omega

/-! ## Comparison -/

theorem byteValue_reverse_cons (b : BitVec 8) (rest : List (BitVec 8)) :
    byteValue (b :: rest).reverse = byteValue rest.reverse + 256 ^ rest.length * b.toNat := by
  rw [List.reverse_cons, byteValue_append, List.length_reverse, byteValue_cons, byteValue_nil, Nat.mul_zero, Nat.add_zero]

theorem byteValue_lt_of_first {a b : BitVec 8} {as bs : List (BitVec 8)} (same : as.length = bs.length) (less : a < b) :
    byteValue (a :: as).reverse < byteValue (b :: bs).reverse := by
  have low := byteValue_lt as.reverse
  have step : 256 ^ as.length * (a.toNat + 1) ≤ 256 ^ as.length * b.toNat := Nat.mul_le_mul_left _ (BitVec.lt_def.1 less)
  rw [List.length_reverse] at low
  rw [byteValue_reverse_cons, byteValue_reverse_cons, ← same]
  rw [Nat.mul_add, Nat.mul_one] at step
  omega

theorem memcmp_eq {l l' : List (BitVec 8)} (same : l.length = l'.length) : memcmp l l' = compare (byteValue l.reverse)
    (byteValue l'.reverse) := by
  -- comparing bytes from the first on is comparing numbers
  induction l generalizing l' with
  | nil =>
    obtain rfl := List.length_eq_zero_iff.1 same.symm
    rfl
  | cons a as ih =>
    cases l' with
    | nil => cases same
    | cons b bs =>
      have rest : as.length = bs.length := Nat.succ.inj same
      rw [memcmp]
      split_ifs with less more
      · exact (compare_lt_iff_lt.2 (byteValue_lt_of_first rest less)).symm
      · exact (compare_gt_iff_gt.2 (byteValue_lt_of_first rest.symm more)).symm
      · rw [BitVec.lt_def] at less more
        obtain rfl : a = b := BitVec.eq_of_toNat_eq (by omega)
        rw [ih rest, byteValue_reverse_cons, byteValue_reverse_cons, rest]
        simp only [compare, compareOfLessAndEq, Nat.add_lt_add_iff_right, Nat.add_right_cancel_iff]

theorem byteValue_injective {l l' : List (BitVec 8)} (same : l.length = l'.length) (eq : byteValue l = byteValue l') : l = l' := by
  induction l generalizing l' with
  | nil => exact (List.length_eq_zero_iff.1 same.symm).symm
  | cons a as ih =>
    cases l' with
    | nil => cases same
    | cons b bs =>
      rw [byteValue_cons, byteValue_cons] at eq
      have one := a.isLt
      have two := b.isLt
      have first : a = b := BitVec.eq_of_toNat_eq (by omega)
      rw [first, ih (Nat.succ.inj same) (by omega)]

namespace ArrayVar

variable {N : ℕ}

/-- The number with the bytes, the most significant first. -/
def val (x : ArrayVar N) : ℕ := byteValue x.data.reverse

theorem val_lt (x : ArrayVar N) : x.val < 256 ^ N := by
  have bound := byteValue_lt x.data.reverse
  rwa [List.length_reverse, x.size] at bound

theorem val_injective : Function.Injective (val : ArrayVar N → ℕ) := by
  intro x y same
  apply ArrayVar.ext
  apply List.reverse_injective
  exact byteValue_injective (by simp [x.size, y.size]) same

theorem val_ofUInt64 (v : BitVec 64) : (ofUInt64 N v).val = v.toNat % 256 ^ N := by
  have whole : leftOver 0 v = v.toNat := Nat.mod_eq_of_lt v.isLt
  rw [val, ofUInt64, List.reverse_reverse, byteValue_fillLoop, whole]

theorem val_add (x : ArrayVar N) (v : BitVec 64) : (x.add v).val = (x.val + v.toNat) % 256 ^ N := by
  have whole : leftOver 0 v = v.toNat := Nat.mod_eq_of_lt v.isLt
  have loop := byteValue_addLoop x.data.reverse 0 v 0 (by decide)
  rw [List.length_reverse, x.size, whole] at loop
  have same : (x.add v).val ≡ x.val + v.toNat [MOD 256 ^ N] := by
    rw [val, add, List.reverse_reverse]
    exact loop
  exact (Nat.mod_eq_of_lt (x.add v).val_lt).symm.trans same

theorem val_sub (x : ArrayVar N) (v : BitVec 64) : ((x.sub v).val : ℤ) = ((x.val : ℤ) - v.toNat) % 256 ^ N := by
  have whole : leftOver 0 v = v.toNat := Nat.mod_eq_of_lt v.isLt
  have loop := byteValue_subLoop x.data.reverse 0 v 0 (by decide)
  rw [List.length_reverse, x.size, whole, sub_zero] at loop
  have same : ((x.sub v).val : ℤ) ≡ (x.val : ℤ) - v.toNat [ZMOD 256 ^ N] := by
    rw [val, sub, List.reverse_reverse]
    exact loop
  have bound : ((x.sub v).val : ℤ) < 256 ^ N := by exact_mod_cast (x.sub v).val_lt
  exact (Int.emod_eq_of_lt (Int.natCast_nonneg _) bound).symm.trans same

theorem sub_add (x : ArrayVar N) (v : BitVec 64) : (x.add v).sub v = x := by
  apply val_injective
  have bound : (x.val : ℤ) < 256 ^ N := by exact_mod_cast x.val_lt
  have back : (((x.add v).sub v).val : ℤ) = x.val := by
    rw [val_sub, val_add]
    push_cast
    rw [Int.emod_sub_emod, add_sub_cancel_right, Int.emod_eq_of_lt (Int.natCast_nonneg _) bound]
  exact_mod_cast back

theorem compare_eq (x y : ArrayVar N) : x.compare y = Ord.compare x.val y.val :=
  memcmp_eq (x.size.trans y.size.symm)

theorem val_min : (min N).val = 0 := by
  rw [val, min, List.reverse_replicate]
  induction N with
  | zero => rfl
  | succ n ih =>
    rw [List.replicate_succ, byteValue_cons, ih]
    rfl

theorem val_max : (max N).val + 1 = 256 ^ N := by
  rw [val, max, List.reverse_replicate]
  induction N with
  | zero => rfl
  | succ n ih =>
    rw [List.replicate_succ, byteValue_cons, pow_succ', ← ih]
    simp
    omega

theorem val_min_le (x : ArrayVar N) : (min N).val ≤ x.val := by
  rw [val_min]
  exact Nat.zero_le _

theorem val_le_max (x : ArrayVar N) : x.val ≤ (max N).val := by
  have top := val_max (N := N)
  have bound := x.val_lt
  omega

theorem operators (x y : ArrayVar N) :
    x.eq y = decide (x.val = y.val) ∧ x.ne y = decide (x.val ≠ y.val) ∧ x.lt y = decide (x.val < y.val) ∧
      x.le y = decide (x.val ≤ y.val) ∧ x.gt y = decide (x.val > y.val) ∧ x.ge y = decide (x.val ≥ y.val) := by
  unfold eq ne lt le gt ge
  rw [compare_eq]
  rcases Nat.lt_trichotomy x.val y.val with less | same | more
  · rw [compare_lt_iff_lt.2 less]
    simp [less, less.le, less.ne, less.not_gt, less.not_ge]
  · rw [compare_eq_iff_eq.2 same, same]
    simp
  · rw [compare_gt_iff_gt.2 more]
    simp [more, more.le, more.ne', more.not_gt, more.not_ge]

theorem eq_iff (x y : ArrayVar N) : x.eq y = true ↔ x = y := by
  rw [(x.operators y).1, decide_eq_true_iff, val_injective.eq_iff]

/-- Arithmetic modulo `256 ^ N` with the numeric order. -/
theorem numeric (x y : ArrayVar N) (v : BitVec 64) :
    (ofUInt64 N v).val = v.toNat % 256 ^ N ∧ (x.add v).val = (x.val + v.toNat) % 256 ^ N ∧
      ((x.sub v).val : ℤ) = ((x.val : ℤ) - v.toNat) % 256 ^ N ∧ (x.add v).sub v = x ∧
      (x.eq y = decide (x.val = y.val) ∧ x.ne y = decide (x.val ≠ y.val) ∧ x.lt y = decide (x.val < y.val) ∧
        x.le y = decide (x.val ≤ y.val) ∧ x.gt y = decide (x.val > y.val) ∧ x.ge y = decide (x.val ≥ y.val)) ∧
      (min N).val ≤ x.val ∧ x.val ≤ (max N).val :=
  ⟨val_ofUInt64 v, x.val_add v, x.val_sub v, x.sub_add v, x.operators y, x.val_min_le, x.val_le_max⟩

end ArrayVar

/-! ## The keys of the indexes -/

section
variable {N : ℕ}

instance arrayVarOrder : LinearOrder (ArrayVar N) := LinearOrder.lift' ArrayVar.val ArrayVar.val_injective

instance arrayVarBounds : BoundedOrder (ArrayVar N) where
  bot := .min N
  top := .max N
  bot_le x := x.val_min_le
  le_top x := x.val_le_max

instance arrayVarBytes : KeyBytes (ArrayVar N) := ⟨ArrayVar.data⟩

end

end Faunus
