import Faunus.Index.Separators
import Faunus.Index.System
import Mathlib.Data.List.InsertIdx

/-! An internal node as a sequence of children and separators. -/

set_option autoImplicit false

namespace Faunus

variable {Key : Type} [LinearOrder Key]

/-- The separators of entries up to `last`, each with the child behind it. -/
def stepsOf (entries : ℕ → InternalEntry Key) (last : ℕ) : List (Key × GlobalAddress) :=
  (List.range last).map fun i => ((entries i).key, (entries (i + 1)).child)

namespace InternalNode

def children (n : InternalNode Key) : List GlobalAddress :=
  (List.range (n.header.lastIndex + 1)).map fun i => (n.entries i).child

def firstChild (n : InternalNode Key) : GlobalAddress := (n.entries 0).child

def steps (n : InternalNode Key) : List (Key × GlobalAddress) := stepsOf n.entries n.header.lastIndex

end InternalNode

/-- The child was put behind the one whose range has the key. -/
def InsertedStep (key : Key) (child : GlobalAddress) (before after : List (Key × GlobalAddress)) : Prop :=
  ∃ low high, before = low ++ high ∧ after = low ++ (key, child) :: high ∧ (∀ step ∈ low, step.1 < key) ∧ ∀ step ∈ high, key < step.1

section
variable {entries : ℕ → InternalEntry Key} {last : ℕ} {key : Key}

theorem stepsOf_take (increasing : ∀ i j, i < j → j < last → (entries i).key < (entries j).key) :
    ∀ step ∈ (stepsOf entries last).take (separatorIndex entries key last), step.1 < key := by
  intro step inside
  obtain ⟨i, bound, rfl⟩ := List.mem_take_iff_getElem.1 inside
  have small := separatorIndex_le entries key last
  simp only [stepsOf, List.getElem_map, List.getElem_range]
  obtain ⟨j, eq⟩ : ∃ j, separatorIndex entries key last = j + 1 := ⟨separatorIndex entries key last - 1, by omega⟩
  have smaller := (separatorIndex_spec entries key last).1 j eq
  by_cases same : i = j
  · rwa [same]
  · exact (increasing i j (by omega) (by omega)).trans smaller

theorem stepsOf_drop (new : ∀ i < last, (entries i).key ≠ key) :
    ∀ step ∈ (stepsOf entries last).drop (separatorIndex entries key last), key < step.1 := by
  intro step inside
  obtain ⟨i, bound, rfl⟩ := List.mem_drop_iff_getElem.1 inside
  rw [stepsOf, List.length_map, List.length_range] at bound
  simp only [stepsOf, List.getElem_map, List.getElem_range]
  refine lt_of_le_of_ne ((separatorIndex_spec entries key last).2 _ (Nat.le_add_right _ _) (by omega)) ?_
  exact (new _ (by omega)).symm

variable [BoundedOrder Key]

theorem stepsOf_insertSeparator (entries : ℕ → InternalEntry Key) (last : ℕ) (key : Key) (child : GlobalAddress) :
    stepsOf (insertSeparator entries last key child) (last + 1) =
      (stepsOf entries last).insertIdx (separatorIndex entries key last) (key, child) := by
  -- the shifted arrays hold the old steps around the new one
  have small := separatorIndex_le entries key last
  apply List.ext_getElem
  · rw [List.length_insertIdx_of_le_length (by simpa [stepsOf] using small)]
    simp [stepsOf]
  · intro i left right
    have bound : i ≤ last := by simpa [stepsOf, Nat.lt_succ_iff] using left
    rw [List.getElem_insertIdx]
    simp only [stepsOf, List.getElem_map, List.getElem_range]
    rw [insertSeparator_key, insertSeparator_child _ _ _ _ _ (by omega)]
    rcases Nat.lt_trichotomy i (separatorIndex entries key last) with low | rfl | high
    · rw [if_pos low, if_pos (by omega), dif_pos low]
    · simp
    · rw [if_neg (by omega), if_neg (by omega), if_pos bound, if_neg (by omega), if_neg (by omega), dif_neg (by omega),
        dif_neg (by omega),
        Nat.add_sub_cancel, Nat.sub_add_cancel (by omega)]

theorem insertedStep_insertSeparator (increasing : ∀ i j, i < j → j < last → (entries i).key < (entries j).key)
    (new : ∀ i < last, (entries i).key ≠ key) (child : GlobalAddress) :
    InsertedStep key child (stepsOf entries last) (stepsOf (insertSeparator entries last key child) (last + 1)) := by
  have small : separatorIndex entries key last ≤ (stepsOf entries last).length := by
    rw [stepsOf, List.length_map, List.length_range]
    exact separatorIndex_le entries key last
  obtain ⟨low, high, eq, length, inserted⟩ := List.exists_of_modifyTailIdx (List.cons (key, child)) small
  have taken : (stepsOf entries last).take (separatorIndex entries key last) = low := by
    rw [eq, ← length, List.take_left]
  have dropped : (stepsOf entries last).drop (separatorIndex entries key last) = high := by
    rw [eq, ← length, List.drop_left]
  refine ⟨low, high, eq, (stepsOf_insertSeparator entries last key child).trans inserted, ?_, ?_⟩
  · rw [← taken]
    exact stepsOf_take increasing
  · rw [← dropped]
    exact stepsOf_drop new

end

/-- The separators increase inside the fence; the key of the last entry is not in use. -/
structure InternalNode.WellFormed [BoundedOrder Key] (branchFactor : ℕ) (n : InternalNode Key) : Prop where
  bound : n.header.lastIndex < branchFactor
  increasing : ∀ i j, i < j → j < n.header.lastIndex → (n.entries i).key < (n.entries j).key
  inside : ∀ i < n.header.lastIndex, n.header.fence.1 ≤ (n.entries i).key ∧ (n.entries i).key < n.header.fence.2
  last : (n.entries n.header.lastIndex).key = ⊥ ∨ (n.entries n.header.lastIndex).key = n.header.fence.2

section
variable [BoundedOrder Key] {branchFactor : ℕ} {n : InternalNode Key} {key : Key} {child : GlobalAddress}

theorem InternalNode.WellFormed.absent (formed : n.WellFormed branchFactor) (above : n.header.fence.1 < key)
    (below : key < n.header.fence.2) (new : ∀ i < n.header.lastIndex, (n.entries i).key ≠ key) :
    (List.range (n.header.lastIndex + 1)).any (fun i => decide ((n.entries i).key = key)) = false := by
  simp only [List.any_eq_false, List.mem_range, decide_eq_true_eq]
  intro i bound same
  by_cases used : i < n.header.lastIndex
  · exact new i used same
  · obtain rfl : i = n.header.lastIndex := by omega
    rcases formed.last with bot | top
    · exact absurd (bot ▸ same ▸ above) not_lt_bot
    · exact absurd (top ▸ same ▸ below) (lt_irrefl _)

theorem firstChild_withSeparator : (n.withSeparator key child).firstChild = n.firstChild := by
  simp only [InternalNode.firstChild, InternalNode.withSeparator]
  rw [insertSeparator_child _ _ _ _ _ (Nat.zero_le _), if_pos (Nat.zero_le _)]

theorem firstChild_splitLeft : (n.splitLeft branchFactor key child).firstChild = n.firstChild := by
  simp only [InternalNode.firstChild, InternalNode.splitLeft, InternalNode.splitEntries]
  rw [if_pos (Nat.zero_le _), insertSeparator_child _ _ _ _ _ (Nat.zero_le _), if_pos (Nat.zero_le _)]
  simp only [InternalNode.grown]
  rw [if_pos (Nat.zero_le _)]

theorem stepsOf_grown : stepsOf n.grown n.header.lastIndex = n.steps := by
  simp only [stepsOf, InternalNode.steps]
  apply List.map_congr_left
  intro i inside
  have bound := List.mem_range.1 inside
  simp only [InternalNode.grown]
  rw [if_pos (by omega), if_pos (by omega)]

theorem stepsOf_splitEntries (two : 2 ≤ branchFactor) (full : n.header.lastIndex + 1 = branchFactor) :
    stepsOf (n.splitEntries key child) branchFactor =
      (n.splitLeft branchFactor key child).steps ++
        (n.middleKey branchFactor key child, (n.splitRight branchFactor key child).firstChild) ::
          (n.splitRight branchFactor key child).steps := by
  -- the halves with the middle key between them are all the steps of the grown node
  have less : splitMiddle branchFactor < branchFactor := Nat.div_lt_self (by omega) (by omega)
  have left : (n.splitLeft branchFactor key child).steps = stepsOf (n.splitEntries key child) (splitMiddle branchFactor) := by
    apply List.map_congr_left
    intro i inside
    have bound : i < splitMiddle branchFactor := List.mem_range.1 inside
    simp only [InternalNode.splitLeft]
    rw [if_pos (by omega), if_pos (by omega)]
  have first : (n.splitRight branchFactor key child).firstChild =
    (n.splitEntries key child (splitMiddle branchFactor + 1)).child := by
    simp only [InternalNode.firstChild, InternalNode.splitRight]
    rw [if_pos (by omega), Nat.zero_add]
  have right : (n.splitRight branchFactor key child).steps = (List.range (branchFactor - splitMiddle branchFactor - 1)).map fun i =>
      ((n.splitEntries key child (i + splitMiddle branchFactor + 1)).key,
        (n.splitEntries key child (i + 1 + splitMiddle branchFactor + 1)).child) := by
    apply List.map_congr_left
    intro i inside
    have bound : i < branchFactor - splitMiddle branchFactor - 1 := List.mem_range.1 inside
    simp only [InternalNode.splitRight]
    rw [if_pos (by omega), if_pos (by omega)]
  have parts : List.range branchFactor = List.range (splitMiddle branchFactor) ++
      splitMiddle branchFactor :: (List.range (branchFactor - splitMiddle branchFactor - 1)).map fun i =>
        i + splitMiddle branchFactor + 1 := by
    conv_lhs => rw [show branchFactor = splitMiddle branchFactor + (branchFactor - splitMiddle branchFactor - 1 + 1) by omega]
    rw [List.range_add, List.range_succ_eq_map, List.map_cons, Nat.add_zero, List.map_map]
    congr 2
    apply List.map_congr_left
    intro i _
    simp only [Function.comp_apply]
    omega
  rw [left, first, right, stepsOf, parts, List.map_append, List.map_cons, List.map_map]
  congr 2
  apply List.map_congr_left
  intro i _
  simp only [Function.comp_apply]
  rw [show i + 1 + splitMiddle branchFactor + 1 = i + splitMiddle branchFactor + 1 + 1 by omega]

/-- Putting a new separator into a node: in place while there is room, else into one of two halves around the middle key. -/
theorem separator_insertion_exact (three : 3 ≤ branchFactor) (formed : n.WellFormed branchFactor) (above : n.header.fence.1 < key)
    (below : key < n.header.fence.2) (new : ∀ i < n.header.lastIndex, (n.entries i).key ≠ key) (child : GlobalAddress) :
    (List.range (n.header.lastIndex + 1)).any (fun i => decide ((n.entries i).key = key)) = false ∧
      (n.header.lastIndex + 1 < branchFactor →
        (n.withSeparator key child).firstChild = n.firstChild ∧ InsertedStep key child n.steps (n.withSeparator key child).steps ∧
          (n.withSeparator key child).header = { n.header with lastIndex := n.header.lastIndex + 1 }) ∧
      (branchFactor ≤ n.header.lastIndex + 1 →
        (n.splitLeft branchFactor key child).firstChild = n.firstChild ∧
          InsertedStep key child n.steps ((n.splitLeft branchFactor key child).steps ++
            (n.middleKey branchFactor key child, (n.splitRight branchFactor key child).firstChild) ::
              (n.splitRight branchFactor key child).steps) ∧
          (n.splitLeft branchFactor key child).header.fence = (n.header.fence.1, n.middleKey branchFactor key child) ∧
          (n.splitRight branchFactor key child).header.fence = (n.middleKey branchFactor key child, n.header.fence.2) ∧
          (n.splitLeft branchFactor key child).children.length = (n.splitLeft branchFactor key child).header.lastIndex + 1 ∧
          (n.splitRight branchFactor key child).children.length = (n.splitRight branchFactor key child).header.lastIndex + 1 ∧
          (n.splitLeft branchFactor key child).header.lastIndex < branchFactor ∧
          (n.splitRight branchFactor key child).header.lastIndex < branchFactor ∧
          (n.splitLeft branchFactor key child).header.level = n.header.level ∧
          (n.splitRight branchFactor key child).header.level = n.header.level) := by
  refine ⟨formed.absent above below new, fun room => ⟨firstChild_withSeparator, ?_, rfl⟩, fun full => ?_⟩
  · exact insertedStep_insertSeparator formed.increasing new child
  · have exactly : n.header.lastIndex + 1 = branchFactor := by
      have := formed.bound
      omega
    have less : splitMiddle branchFactor < branchFactor := Nat.div_lt_self (by omega) (by omega)
    refine ⟨?_, ?_, rfl, rfl, by simp [InternalNode.children], by simp [InternalNode.children], less, ?_, rfl, rfl⟩
    · exact firstChild_splitLeft
    · rw [← stepsOf_splitEntries (by omega) exactly, ← exactly, ← stepsOf_grown]
      refine insertedStep_insertSeparator (fun i j less last => ?_) (fun i bound => ?_) child
      · simp only [InternalNode.grown]
        rw [if_pos (by omega), if_pos (by omega)]
        exact formed.increasing i j less last
      · simp only [InternalNode.grown]
        rw [if_pos (by omega)]
        exact new i bound
    · show branchFactor - splitMiddle branchFactor - 1 < branchFactor
      omega

end

def threeChildren : InternalNode (Fin 256) where
  header := { Header.zero (⊥, ⊤) with level := 1, lastIndex := 2 }
  entries := fun i => ⟨if i = 0 then firstKey else if i = 1 then ⟨9, by decide⟩ else ⊥, ⟨BitVec.ofNat 50 (i + 1)⟩⟩

theorem separator_insertion_exact_threeChildren :
    InsertedStep secondKey ⟨7⟩ threeChildren.steps (threeChildren.withSeparator secondKey ⟨7⟩).steps ∧
      InsertedStep secondKey ⟨7⟩ threeChildren.steps ((threeChildren.splitLeft 3 secondKey ⟨7⟩).steps ++
        (threeChildren.middleKey 3 secondKey ⟨7⟩, (threeChildren.splitRight 3 secondKey ⟨7⟩).firstChild) ::
          (threeChildren.splitRight 3 secondKey ⟨7⟩).steps) := by
  have new : ∀ i < threeChildren.header.lastIndex, (threeChildren.entries i).key ≠ secondKey := by decide
  have formed : ∀ branchFactor, 2 < branchFactor → threeChildren.WellFormed branchFactor := fun branchFactor bound =>
    ⟨bound, fun i j less last => (by decide : ∀ j < 2, ∀ i < j, (threeChildren.entries i).key < (threeChildren.entries j).key)
      j last i less,
      by decide, .inl rfl⟩
  constructor
  · exact ((separator_insertion_exact (by decide) (formed 4 (by decide)) (by decide) (by decide) new ⟨7⟩).2.1 (by decide)).2.1
  · exact ((separator_insertion_exact (by decide) (formed 3 (by decide)) (by decide) (by decide) new ⟨7⟩).2.2 (by decide)).2.1

end Faunus
