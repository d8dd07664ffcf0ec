import Faunus.Data.ArrayVar
import Mathlib.Logic.Function.Iterate

/-! The keys of the benchmark.

A key index is multiplied by an odd constant modulo `2 ^ 64`, and the bytes of the
product are written into the key, round and round for a key of more than 8 bytes. The
keys with only zero bytes and with only one bits are drawn again.
-/

set_option autoImplicit false

namespace Faunus.Workload

/-- `(raw >> 8) | (raw << 56)`. -/
def rotate (raw : BitVec 64) : BitVec 64 := (raw >>> 8) ||| (raw <<< 56)

def keyBytes : ℕ → BitVec 64 → List (BitVec 8)
  | 0, _ => []
  | n + 1, raw => lowByte raw :: keyBytes n (rotate raw)

@[simp] theorem length_keyBytes (n : ℕ) (raw : BitVec 64) : (keyBytes n raw).length = n := by
  induction n generalizing raw with
  | zero => rfl
  | succ n ih => simp [keyBytes, ih]

def multiplier : BitVec 64 := 0x517CC1B727220A95

def encodeKey (N : ℕ) (index : BitVec 64) : ArrayVar N := ⟨keyBytes N (index * multiplier), length_keyBytes ..⟩

/-- The test at the end of the loop lets the key pass. -/
def accepted {N : ℕ} (key : ArrayVar N) : Bool := !(key.eq (.min N) || key.eq (.max N))

/-- The index that a draw of the sampler stands for. -/
def keyIndex (keySpace draw : BitVec 64) : BitVec 64 := if keySpace ≤ draw then draw % keySpace else draw

/-- The key and the draws that are left; nothing is returned while the loop waits for a draw. -/
def sampleKeyFromGlobalSpace (N : ℕ) (keySpace : BitVec 64) : List (BitVec 64) → Option (ArrayVar N × List (BitVec 64))
  | [] => none
  | draw :: rest =>
    let key := encodeKey N (keyIndex keySpace draw)
    if accepted key then some (key, rest) else sampleKeyFromGlobalSpace N keySpace rest

/-! ## The bytes determine the product -/

theorem rotate_bit (raw : BitVec 64) {j : ℕ} (low : j < 56) : (rotate raw).getLsbD j = raw.getLsbD (j + 8) := by
  simp only [rotate, BitVec.getLsbD_or, BitVec.getLsbD_ushiftRight, BitVec.getLsbD_shiftLeft]
  simp [low, Nat.add_comm]

theorem rotate_iterate_bit (raw : BitVec 64) {i j : ℕ} (low : j + 8 * i < 64) :
    (rotate^[i] raw).getLsbD j = raw.getLsbD (j + 8 * i) := by
  induction i generalizing j with
  | zero => rfl
  | succ i ih =>
    rw [Function.iterate_succ_apply', rotate_bit _ (by omega), ih (by omega)]
    congr 1
    omega

theorem keyBytes_getElem? {n i : ℕ} (raw : BitVec 64) (inside : i < n) : (keyBytes n raw)[i]? = some (lowByte (rotate^[i] raw)) := by
  induction n generalizing i raw with
  | zero => omega
  | succ n ih =>
    cases i with
    | zero => rfl
    | succ i => exact ih (rotate raw) (by omega)

theorem lowByte_bit (v : BitVec 64) {j : ℕ} (low : j < 8) : (lowByte v).getLsbD j = v.getLsbD j := by
  have mask : (0xFF#64).getLsbD j = true := (by decide : ∀ j : Fin 8, (0xFF#64).getLsbD j = true) ⟨j, low⟩
  rw [lowByte, BitVec.getLsbD_setWidth, BitVec.getLsbD_and, mask]
  simp [low]

theorem keyBytes_injective {n : ℕ} (wide : 8 ≤ n) {raw raw' : BitVec 64} (same : keyBytes n raw = keyBytes n raw') : raw = raw' := by
  refine BitVec.eq_of_getLsbD_eq fun b bound => ?_
  have split : b = b % 8 + 8 * (b / 8) := by omega
  have inside : b / 8 < n := by omega
  have bytes : some (lowByte (rotate^[b / 8] raw)) = some (lowByte (rotate^[b / 8] raw')) := by
    rw [← keyBytes_getElem? raw inside, ← keyBytes_getElem? raw' inside, same]
  have bit : (lowByte (rotate^[b / 8] raw)).getLsbD (b % 8) = (lowByte (rotate^[b / 8] raw')).getLsbD (b % 8) := by
    rw [Option.some.inj bytes]
  rw [lowByte_bit _ (Nat.mod_lt b (by decide)), lowByte_bit _ (Nat.mod_lt b (by decide)), rotate_iterate_bit _ (by omega),
    rotate_iterate_bit _ (by omega), ← split] at bit
  exact bit

theorem keyBytes_fixed {n : ℕ} {raw : BitVec 64} {b : BitVec 8} (fixed : rotate raw = raw) (byte : lowByte raw = b) :
    keyBytes n raw = List.replicate n b := by
  induction n with
  | zero => rfl
  | succ n ih => rw [keyBytes, fixed, ih, byte, List.replicate_succ]

/-! ## The multiplier is odd -/

def inverse : BitVec 64 := 0x2040003D780970BD

theorem multiplier_inverse : multiplier * inverse = 1 := by decide

theorem product_injective : Function.Injective fun index : BitVec 64 => index * multiplier := by
  intro x y same
  have cancelled := congrArg (· * inverse) same
  simpa [BitVec.mul_assoc, multiplier_inverse] using cancelled

def lastIndex : BitVec 64 := 0xDFBFFFC287F68F43

theorem encodeKey_zero (N : ℕ) : encodeKey N 0 = .min N := ArrayVar.ext (keyBytes_fixed (by decide) (by decide))

theorem encodeKey_lastIndex (N : ℕ) : encodeKey N lastIndex = .max N := ArrayVar.ext (keyBytes_fixed (by decide) (by decide))

section
variable {N : ℕ} (wide : 8 ≤ N)
include wide

theorem encodeKey_injective : Function.Injective (encodeKey N) := by
  intro x y same
  apply product_injective
  exact keyBytes_injective wide (congrArg ArrayVar.data same)

theorem encodeKey_eq_min_iff (index : BitVec 64) : encodeKey N index = .min N ↔ index = 0 := by
  rw [← encodeKey_zero, (encodeKey_injective wide).eq_iff]

theorem encodeKey_eq_max_iff (index : BitVec 64) : encodeKey N index = .max N ↔ index = lastIndex := by
  rw [← encodeKey_lastIndex, (encodeKey_injective wide).eq_iff]

theorem accepted_encodeKey_iff (index : BitVec 64) : accepted (encodeKey N index) = true ↔ index ≠ 0 ∧ index ≠ lastIndex := by
  rw [accepted, Bool.not_eq_true', Bool.or_eq_false_iff, ← Bool.not_eq_true, ← Bool.not_eq_true, ArrayVar.eq_iff, ArrayVar.eq_iff,
    encodeKey_eq_min_iff wide, encodeKey_eq_max_iff wide]

end

/-- The key of an index is that of no other index, passes the test, and is returned after the draw that stands for the index. -/
structure Encodes (N : ℕ) (keySpace index : BitVec 64) : Prop where
  unique : ∀ other < keySpace, encodeKey N other = encodeKey N index → other = index
  passes : accepted (encodeKey N index) = true
  atOnce : ∀ draw rest, keyIndex keySpace draw = index →
    sampleKeyFromGlobalSpace N keySpace (draw :: rest) = some (encodeKey N index, rest)

/-- Two indices are not accepted: that of `Key::min` and that of `Key::max`. -/
theorem encodes_iff {N : ℕ} (wide : 8 ≤ N) (keySpace index : BitVec 64) :
    Encodes N keySpace index ↔ index ≠ 0 ∧ index ≠ lastIndex := by
  constructor
  · intro encodes
    exact (accepted_encodeKey_iff wide index).1 encodes.passes
  · intro inner
    have passes := (accepted_encodeKey_iff wide index).2 inner
    refine ⟨fun other _ same => encodeKey_injective wide same, passes, fun draw rest stands => ?_⟩
    rw [sampleKeyFromGlobalSpace, stands, if_pos passes]

theorem encodes_iff_second : Encodes 8 1000 1 :=
  (encodes_iff (by decide) 1000 1).2 ⟨by decide, by decide⟩

/-- Index 0 belongs to every key space and has the key `Key::min`. -/
theorem encodes_fails_zero : ¬ ∀ (N : ℕ) (keySpace index : BitVec 64), 8 ≤ N → index < keySpace → Encodes N keySpace index := by
  intro claimed
  have passes := (claimed 8 1 0 (by decide) (by decide)).passes
  exact absurd passes (by decide)

end Faunus.Workload
