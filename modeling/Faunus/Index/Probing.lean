import Faunus.Index.Node
import Mathlib.Data.Nat.Log

/-! The slot probe of `insert`.

The probe visits slots in an order that depends on the seed: the counter, XORed with
the seed, under the mask `branch_factor - 1`. It is a permutation of the slots when the
branch factor is a power of two, and leaves some slot out for every other branch factor.
-/

set_option autoImplicit false

namespace Faunus

theorem probeIndex_lt {branchFactor i : ℕ} {seed : BitVec 64} (positive : 0 < branchFactor) :
    probeIndex branchFactor seed i < branchFactor := by
  unfold probeIndex
  rw [BitVec.toNat_and, BitVec.toNat_ofNat]
  have low := Nat.and_le_right (n := (BitVec.ofNat 64 i ^^^ seed).toNat) (m := (branchFactor - 1) % 2 ^ 64)
  have small := Nat.mod_le (branchFactor - 1) (2 ^ 64)
  omega

section
variable {Key : Type} {leaf : LeafNode Key}

theorem probe_free {branchFactor i : ℕ} {seed : BitVec 64} (free : probe branchFactor leaf seed = .free i) :
    i < branchFactor ∧ (leaf.kvBlocks i).isFree = true := by
  unfold probe at free
  split at free
  · cases free
  · rename_i j found
    split at free
    · cases free
    · rename_i unlocked
      cases free
      have inside := List.mem_range.1 (List.mem_of_find?_eq_some found)
      refine ⟨probeIndex_lt (by omega), ?_⟩
      simpa [unlocked] using List.find?_some found

end

/-! ## The order of the slots -/

def Visits (branchFactor : ℕ) (seed : BitVec 64) : Prop :=
  ∀ slot < branchFactor, ∃! i, i < branchFactor ∧ probeIndex branchFactor seed i = slot

/-- A free slot is selected if and only if the leaf has one. -/
def Selects (Key : Type) (branchFactor : ℕ) (seed : BitVec 64) : Prop :=
  ∀ leaf : LeafNode Key, (∀ i < branchFactor, (leaf.kvBlocks i).isLocked = false) →
    ((∃ i < branchFactor, probe branchFactor leaf seed = .free i ∧ (leaf.kvBlocks i).isFree = true) ↔
      ∃ i < branchFactor, (leaf.kvBlocks i).isFree = true)

section
variable {branchFactor k i : ℕ} {seed : BitVec 64}

/-- Under a mask of `k` ones only the low bits of the seed count. -/
theorem probeIndex_two_pow (small : k ≤ 64) (inside : i < 2 ^ k) : probeIndex (2 ^ k) seed i = i ^^^ seed.toNat % 2 ^ k := by
  have word : (2 : ℕ) ^ k ≤ 2 ^ 64 := Nat.pow_le_pow_right (by decide) small
  have mask : (2 ^ k - 1) % 2 ^ 64 = 2 ^ k - 1 := Nat.mod_eq_of_lt (by omega)
  unfold probeIndex
  rw [BitVec.toNat_and, BitVec.toNat_xor, BitVec.toNat_ofNat, BitVec.toNat_ofNat, Nat.mod_eq_of_lt (by omega), mask,
    Nat.and_two_pow_sub_one_eq_mod, Nat.xor_mod_two_pow, Nat.mod_eq_of_lt inside]

theorem visits_two_pow (small : k ≤ 64) : Visits (2 ^ k) seed := by
  have low : seed.toNat % 2 ^ k < 2 ^ k := Nat.mod_lt _ (Nat.two_pow_pos k)
  intro slot inside
  have back := Nat.xor_lt_two_pow inside low
  -- XOR with the low bits of the seed is its own inverse
  refine ⟨slot ^^^ seed.toNat % 2 ^ k, ⟨back, ?_⟩, ?_⟩
  · rw [probeIndex_two_pow small back, Nat.xor_assoc, Nat.xor_self, Nat.xor_zero]
  · intro i is
    rw [← is.2, probeIndex_two_pow small is.1, Nat.xor_assoc, Nat.xor_self, Nat.xor_zero]

theorem selects_of_visits {Key : Type} (visits : Visits branchFactor seed) : Selects Key branchFactor seed := by
  -- a probe that visits a free slot and no locked one selects a free slot
  intro leaf unlocked
  constructor
  · rintro ⟨i, inside, -, free⟩
    exact ⟨i, inside, free⟩
  · rintro ⟨slot, inside, free⟩
    obtain ⟨i, ⟨bound, visited⟩, -⟩ := visits slot inside
    have positive : 0 < branchFactor := by omega
    have stops : ∃ j, (List.range branchFactor).find? (fun i =>
        (leaf.kvBlocks (probeIndex branchFactor seed i)).isLocked || (leaf.kvBlocks (probeIndex branchFactor seed i)).isFree)
          = some j := by
      rw [← Option.isSome_iff_exists, List.find?_isSome]
      exact ⟨i, List.mem_range.2 bound, by simp [visited, free]⟩
    obtain ⟨j, stops⟩ := stops
    have selected : probe branchFactor leaf seed = .free (probeIndex branchFactor seed j) := by
      unfold probe
      rw [stops]
      simp [unlocked _ (probeIndex_lt positive)]
    exact ⟨_, (probe_free selected).1, selected, (probe_free selected).2⟩

theorem two_pow_of_visits (positive : 0 < branchFactor) (small : branchFactor ≤ 256) (visits : Visits branchFactor seed) :
    ∃ k, branchFactor = 2 ^ k := by
  -- the visited slots are made of bits of the mask, so a mask that leaves no slot out is all ones
  have within : ∀ slot < branchFactor, ∀ b, slot.testBit b = true → (branchFactor - 1).testBit b = true := by
    intro slot inside b set
    obtain ⟨i, ⟨-, visited⟩, -⟩ := visits slot inside
    rw [← visited, probeIndex, BitVec.toNat_and, BitVec.toNat_ofNat, Nat.mod_eq_of_lt (by omega), Nat.testBit_and] at set
    exact (Bool.and_eq_true_iff.1 set).2
  refine ⟨Nat.clog 2 branchFactor, ?_⟩
  have above : branchFactor ≤ 2 ^ Nat.clog 2 branchFactor := Nat.le_pow_clog (by decide) _
  have ones : branchFactor - 1 = 2 ^ Nat.clog 2 branchFactor - 1 := by
    refine Nat.eq_of_testBit_eq fun b => ?_
    rw [Nat.testBit_two_pow_sub_one]
    by_cases low : b < Nat.clog 2 branchFactor
    · rw [decide_eq_true low]
      apply within (2 ^ b)
      · exact (Nat.lt_clog_iff_pow_lt (by decide)).1 low
      · exact Nat.testBit_two_pow_self
    · rw [decide_eq_false low]
      apply Nat.testBit_lt_two_pow
      have : 2 ^ Nat.clog 2 branchFactor ≤ 2 ^ b := Nat.pow_le_pow_right (by decide) (by omega)
      omega
  omega

end

/-- The probe visits every slot once and finds a free slot whenever there is one, for every seed, if and only if
the branch factor is a power of two. -/
theorem probe_complete (Key : Type) {branchFactor : ℕ} (positive : 0 < branchFactor) (small : branchFactor ≤ 256) :
    (∀ seed : BitVec 64, Visits branchFactor seed ∧ Selects Key branchFactor seed) ↔ ∃ k, branchFactor = 2 ^ k := by
  constructor
  · intro all
    exact two_pow_of_visits positive small (all 0).1
  · rintro ⟨k, rfl⟩ seed
    have few : k ≤ 64 := by
      by_contra more
      have : (2 : ℕ) ^ 64 < 2 ^ k := Nat.pow_lt_pow_right (by decide) (by omega)
      omega
    exact ⟨visits_two_pow few, selects_of_visits (visits_two_pow few)⟩

theorem probe_complete_sixtyFour : 64 = 2 ^ 6 ∧ ∀ seed : BitVec 64, Visits 64 seed ∧ Selects ℕ 64 seed :=
  ⟨rfl, (probe_complete ℕ (by decide) (by decide)).2 ⟨6, rfl⟩⟩

/-- A leaf of three slots of which only the second is free. -/
def middleFree : LeafNode ℕ where
  header := ⟨0, 0, (0, 0), 0⟩
  kvBlocks i := .make (.ofBits 0) (.ofAddress 0) (i = 1) false

/-- With branch factor 3 the mask is 2, and slot 1 is never visited. -/
theorem probe_fails_three : ¬ ∀ branchFactor : ℕ, 0 < branchFactor → branchFactor ≤ 256 → ∀ seed : BitVec 64,
    Visits branchFactor seed ∧ Selects ℕ branchFactor seed := by
  intro claimed
  have selects := (claimed 3 (by decide) (by decide) 0).2 middleFree (by decide)
  obtain ⟨i, -, selected, -⟩ := selects.2 ⟨1, by decide⟩
  have missed : probe 3 middleFree 0 = .exhausted := by rfl
  rw [missed] at selected
  cases selected

end Faunus
