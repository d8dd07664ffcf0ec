import Faunus.Index.Node

/-! What the insertion of a separator leaves where. -/

set_option autoImplicit false

namespace Faunus

variable {Key : Type} [LinearOrder Key]

theorem separatorIndex_le (entries : ℕ → InternalEntry Key) (key : Key) (i : ℕ) : separatorIndex entries key i ≤ i := by
  induction i with
  | zero => exact le_refl 0
  | succ i ih =>
    unfold separatorIndex
    split
    · exact le_refl _
    · exact Nat.le_succ_of_le ih

theorem separatorIndex_spec (entries : ℕ → InternalEntry Key) (key : Key) (last : ℕ) :
    (∀ j, separatorIndex entries key last = j + 1 → (entries j).key < key) ∧
      ∀ j, separatorIndex entries key last ≤ j → j < last → key ≤ (entries j).key := by
  -- the separator before the index is smaller, those from it on are not
  induction last with
  | zero => simp [separatorIndex]
  | succ i ih =>
    unfold separatorIndex
    split
    · rename_i smaller
      refine ⟨fun j eq => ?_, fun j low high => absurd high (by omega)⟩
      obtain rfl : i = j := by omega
      exact smaller
    · rename_i larger
      refine ⟨ih.1, fun j low high => ?_⟩
      by_cases same : j = i
      · exact same ▸ not_lt.1 larger
      · exact ih.2 j low (by omega)

variable [BoundedOrder Key]

theorem shiftEntry_child (entries : ℕ → InternalEntry Key) (j i : ℕ) :
    (shiftEntry entries (j + 1) i).child = if i = j + 1 then (entries j).child else (entries i).child := by
  unfold shiftEntry setChild setKey
  simp only [Function.update_apply, Nat.add_sub_cancel]
  split_ifs <;> simp_all

theorem shiftEntry_key (entries : ℕ → InternalEntry Key) (j i : ℕ) :
    (shiftEntry entries (j + 1) i).key =
      if i = j then (if 1 ≤ j then (entries (j - 1)).key else ⊥) else (entries i).key := by
  unfold shiftEntry setChild setKey
  simp only [Function.update_apply, Nat.add_sub_cancel]
  have shift : j + 1 - 2 = j - 1 := by omega
  split_ifs <;> simp_all

theorem shiftEntries_child (index j : ℕ) (entries : ℕ → InternalEntry Key) (i : ℕ) :
    (shiftEntries index j entries i).child =
      if index < i ∧ i ≤ j then (entries (i - 1)).child else (entries i).child := by
  induction j generalizing entries with
  | zero =>
    unfold shiftEntries
    rw [if_neg (by omega)]
  | succ j ih =>
    unfold shiftEntries
    by_cases inside : index < j + 1
    · rw [if_pos inside, ih]
      simp only [shiftEntry_child]
      by_cases last : i = j + 1
      · subst last
        rw [if_neg (fun h : index < j + 1 ∧ j + 1 ≤ j => by omega), if_pos rfl, if_pos ⟨inside, le_refl _⟩,
          Nat.add_sub_cancel]
      · by_cases moved : index < i ∧ i ≤ j
        · rw [if_pos moved, if_neg (by omega), if_pos ⟨moved.1, by omega⟩]
        · rw [if_neg moved, if_neg last, if_neg (by omega)]
    · rw [if_neg inside, if_neg (by omega)]

theorem shiftEntries_key (index j : ℕ) (entries : ℕ → InternalEntry Key) (i : ℕ) :
    (shiftEntries index j entries i).key =
      if index ≤ i ∧ i < j then (if 1 ≤ i then (entries (i - 1)).key else ⊥) else (entries i).key := by
  induction j generalizing entries with
  | zero =>
    unfold shiftEntries
    rw [if_neg (by omega)]
  | succ j ih =>
    unfold shiftEntries
    by_cases inside : index < j + 1
    · rw [if_pos inside, ih]
      simp only [shiftEntry_key]
      by_cases last : i = j
      · subst last
        rw [if_neg (fun h : index ≤ i ∧ i < i => by omega), if_pos rfl,
          if_pos (show index ≤ i ∧ i < i + 1 by omega)]
      · by_cases moved : index ≤ i ∧ i < j
        · rw [if_pos moved, if_pos (show index ≤ i ∧ i < j + 1 by omega), if_neg (show ¬ i - 1 = j by omega)]
        · rw [if_neg moved, if_neg last, if_neg (show ¬ (index ≤ i ∧ i < j + 1) by omega)]
    · rw [if_neg inside, if_neg (by omega)]

section
variable (entries : ℕ → InternalEntry Key) (last : ℕ) (key : Key) (child : GlobalAddress)

theorem insertSeparator_child (i : ℕ) (bound : i ≤ last + 1) :
    (insertSeparator entries last key child i).child =
      if i ≤ separatorIndex entries key last then (entries i).child
      else if i = separatorIndex entries key last + 1 then child
      else (entries (i - 1)).child := by
  have small := separatorIndex_le entries key last
  have shifted := shiftEntries_child (separatorIndex entries key last) (last + 1) entries
  unfold insertSeparator setKey setChild
  simp only [Function.update_apply]
  by_cases here : i = separatorIndex entries key last
  · rw [if_pos here, if_neg (by omega), if_pos (by omega), shifted, if_neg (by omega), here]
  · rw [if_neg here]
    by_cases next : i = separatorIndex entries key last + 1
    · rw [if_pos next, if_neg (by omega), if_pos next]
    · rw [if_neg next, if_neg next, shifted]
      by_cases low : i ≤ separatorIndex entries key last
      · rw [if_pos low, if_neg (by omega)]
      · rw [if_neg low, if_pos (by omega)]

theorem insertSeparator_key (i : ℕ) :
    (insertSeparator entries last key child i).key =
      if i < separatorIndex entries key last then (entries i).key
      else if i = separatorIndex entries key last then key
      else if i ≤ last then (entries (i - 1)).key
      else (entries i).key := by
  have small := separatorIndex_le entries key last
  have shifted := shiftEntries_key (separatorIndex entries key last) (last + 1) entries
  unfold insertSeparator setKey setChild
  simp only [Function.update_apply]
  by_cases here : i = separatorIndex entries key last
  · rw [if_pos here, if_neg (show ¬ i < separatorIndex entries key last by omega), if_pos here]
  · rw [if_neg here, if_neg here]
    have same : (if i = separatorIndex entries key last + 1 then
        { shiftEntries (separatorIndex entries key last) (last + 1) entries
            (separatorIndex entries key last + 1) with child }
        else shiftEntries (separatorIndex entries key last) (last + 1) entries i).key =
        (shiftEntries (separatorIndex entries key last) (last + 1) entries i).key := by
      split_ifs with next
      · rw [next]
      · rfl
    rw [same, shifted]
    by_cases low : i < separatorIndex entries key last
    · rw [if_pos low, if_neg (by omega)]
    · rw [if_neg low]
      by_cases inside : i ≤ last
      · rw [if_pos (show separatorIndex entries key last ≤ i ∧ i < last + 1 by omega), if_pos (by omega), if_pos inside]
      · rw [if_neg (show ¬ (separatorIndex entries key last ≤ i ∧ i < last + 1) by omega), if_neg inside]

theorem insertSeparator_children (i : ℕ) (bound : i ≤ last + 1) :
    (insertSeparator entries last key child i).child = child ∨
      ∃ j ≤ last, (insertSeparator entries last key child i).child = (entries j).child := by
  rw [insertSeparator_child entries last key child i bound]
  have small := separatorIndex_le entries key last
  split_ifs with low here
  · exact Or.inr ⟨i, by omega, rfl⟩
  · exact Or.inl rfl
  · exact Or.inr ⟨i - 1, by omega, rfl⟩

end

end Faunus
