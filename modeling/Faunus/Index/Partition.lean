import Faunus.Index.Splits
import Mathlib.Data.Finset.Card
import Mathlib.Data.Finset.Image

/-! How a split distributes the keys of a leaf.

A leaf is seen through the keys of the items its live blocks point to. The entries of
a split are its distinct keys in order, each with the last block that holds it; the
two leaves that are written share them at the middle key.
-/

set_option autoImplicit false

namespace Faunus

section
variable {Key : Type} [LinearOrder Key]

def LeafNode.Live (branchFactor : ℕ) (n : LeafNode Key) (i : ℕ) : Prop :=
  i < branchFactor ∧ (n.kvBlocks i).isFree = false

def LeafNode.keys (branchFactor : ℕ) (key : GlobalAddress → Key) (n : LeafNode Key) : Finset Key :=
  ((Finset.range branchFactor).filter fun i => (n.kvBlocks i).isFree = false).image fun i => key (n.kvBlocks i).getAddr

theorem LeafNode.mem_keys {branchFactor : ℕ} {key : GlobalAddress → Key} {n : LeafNode Key} {k : Key} :
    k ∈ n.keys branchFactor key ↔ ∃ i, n.Live branchFactor i ∧ key (n.kvBlocks i).getAddr = k := by
  simp [LeafNode.keys, LeafNode.Live]

/-- One of the two leaves a split writes. -/
structure Half (branchFactor : ℕ) (key : GlobalAddress → Key) (leaf half : LeafNode Key) (fence : Key × Key)
    (keys : Finset Key) : Prop where
  fence : half.header.fence = fence
  keys : half.keys branchFactor key = keys
  once : ∀ i j, half.Live branchFactor i → half.Live branchFactor j →
    key (half.kvBlocks i).getAddr = key (half.kvBlocks j).getAddr → i = j
  old : ∀ i, half.Live branchFactor i → ∃ j, leaf.Live branchFactor j ∧ half.kvBlocks i = leaf.kvBlocks j
  unlocked : ∀ i < branchFactor, (half.kvBlocks i).isLocked = false

/-- Two leaves share the keys of one leaf at a middle key, half of them below it. -/
structure Partition (branchFactor : ℕ) (key : GlobalAddress → Key) (leaf left right : LeafNode Key) (middleKey : Key) :
    Prop where
  inside : leaf.header.fence.1 < middleKey ∧ middleKey < leaf.header.fence.2
  lower : Half branchFactor key leaf left (leaf.header.fence.1, middleKey)
    ((leaf.keys branchFactor key).filter (· < middleKey))
  upper : Half branchFactor key leaf right (middleKey, leaf.header.fence.2)
    ((leaf.keys branchFactor key).filter (middleKey ≤ ·))
  lowerCount : (left.keys branchFactor key).card = (leaf.keys branchFactor key).card / 2
  upperCount : (right.keys branchFactor key).card =
    (leaf.keys branchFactor key).card - (leaf.keys branchFactor key).card / 2

/-! ## The entries of a split -/

/-- What a split reads: its slots are locked by then. -/
def LeafNode.lockedBy (branchFactor : ℕ) (leaf locked : LeafNode Key) : Prop :=
  locked.header.fence = leaf.header.fence ∧
    ∀ i < branchFactor, locked.kvBlocks i = (leaf.kvBlocks i).setLocked true ∧ (leaf.kvBlocks i).isLocked = false

def splitBindings (branchFactor : ℕ) (key : GlobalAddress → Key) (locked : LeafNode Key) : List (Key × KVBlock) :=
  (takenIndices branchFactor locked).map fun i => (key (locked.kvBlocks i).getAddr, locked.kvBlocks i)

variable {branchFactor : ℕ} {key : GlobalAddress → Key} {leaf locked : LeafNode Key}

omit [LinearOrder Key] in
theorem mem_takenIndices (reads : leaf.lockedBy branchFactor locked) {i : ℕ} :
    i ∈ takenIndices branchFactor locked ↔ leaf.Live branchFactor i := by
  simp only [takenIndices, List.mem_filter, List.mem_range, LeafNode.Live, Bool.not_eq_true']
  constructor
  · rintro ⟨bound, taken⟩
    rw [(reads.2 i bound).1, KVBlock.isFree_setLocked] at taken
    exact ⟨bound, taken⟩
  · rintro ⟨bound, live⟩
    rw [(reads.2 i bound).1, KVBlock.isFree_setLocked]
    exact ⟨bound, live⟩

omit [LinearOrder Key] in
theorem mem_splitBindings (reads : leaf.lockedBy branchFactor locked) {e : Key × KVBlock} :
    e ∈ splitBindings branchFactor key locked ↔
      ∃ i, leaf.Live branchFactor i ∧ e = (key (leaf.kvBlocks i).getAddr, (leaf.kvBlocks i).setLocked true) := by
  simp only [splitBindings, List.mem_map, mem_takenIndices reads]
  constructor
  · rintro ⟨i, live, rfl⟩
    refine ⟨i, live, ?_⟩
    rw [(reads.2 i live.1).1, KVBlock.getAddr_setLocked]
  · rintro ⟨i, live, rfl⟩
    refine ⟨i, live, ?_⟩
    rw [(reads.2 i live.1).1, KVBlock.getAddr_setLocked]

omit [LinearOrder Key] in
theorem unlock_slot (reads : leaf.lockedBy branchFactor locked) {i : ℕ} (bound : i < branchFactor) :
    ((leaf.kvBlocks i).setLocked true).setLocked false = leaf.kvBlocks i := by
  have same := KVBlock.setLocked_isLocked (leaf.kvBlocks i)
  rw [(reads.2 i bound).2] at same
  rw [KVBlock.setLocked_setLocked, same]

theorem entry_live (reads : leaf.lockedBy branchFactor locked) {e : Key × KVBlock}
    (inside : e ∈ OrderedMap.ofList (splitBindings branchFactor key locked)) :
    ∃ i, leaf.Live branchFactor i ∧ e.2.setLocked false = leaf.kvBlocks i ∧ e.1 = key (leaf.kvBlocks i).getAddr := by
  obtain ⟨i, live, rfl⟩ := (mem_splitBindings reads).1 (OrderedMap.mem_of_mem_ofList inside)
  exact ⟨i, live, unlock_slot reads live.1, rfl⟩

theorem entries_keys (reads : leaf.lockedBy branchFactor locked) {k : Key} :
    k ∈ leaf.keys branchFactor key ↔ ∃ e ∈ OrderedMap.ofList (splitBindings branchFactor key locked), e.1 = k := by
  rw [LeafNode.mem_keys]
  constructor
  · rintro ⟨i, live, rfl⟩
    have bound : (key (leaf.kvBlocks i).getAddr, (leaf.kvBlocks i).setLocked true) ∈
        splitBindings branchFactor key locked := (mem_splitBindings reads).2 ⟨i, live, rfl⟩
    exact OrderedMap.key_ofList bound
  · rintro ⟨e, inside, rfl⟩
    obtain ⟨i, live, -, eq⟩ := entry_live reads inside
    exact ⟨i, live, eq.symm⟩

theorem entries_length (key : GlobalAddress → Key) (reads : leaf.lockedBy branchFactor locked) :
    (OrderedMap.ofList (splitBindings branchFactor key locked)).length = (leaf.keys branchFactor key).card := by
  have same : ((OrderedMap.ofList (splitBindings branchFactor key locked)).map Prod.fst).toFinset =
      leaf.keys branchFactor key := by
    ext k
    rw [entries_keys reads]
    simp only [List.mem_toFinset, List.mem_map]
  rw [← same, List.toFinset_card_of_nodup (OrderedMap.keys_nodup (OrderedMap.sorted_ofList _)), List.length_map]

/-! ## The two halves -/

/-- The slots of a half hold a part of the entries in order and are free behind it. -/
structure Carries (branchFactor : ℕ) (half : LeafNode Key) (kept : List (Key × KVBlock)) : Prop where
  room : kept.length ≤ branchFactor
  taken : ∀ i e, kept[i]? = some e → half.kvBlocks i = e.2.setLocked false
  rest : ∀ i, kept.length ≤ i → i < branchFactor → (half.kvBlocks i).isFree = true ∧ (half.kvBlocks i).isLocked = false

section
variable {half : LeafNode Key} {kept : List (Key × KVBlock)}

omit [LinearOrder Key] in
theorem Carries.unlocked (holds : Carries branchFactor half kept) {i : ℕ} (bound : i < branchFactor) :
    (half.kvBlocks i).isLocked = false := by
  by_cases low : i < kept.length
  · rw [holds.taken i _ (List.getElem?_eq_getElem low), KVBlock.isLocked_setLocked]
  · exact (holds.rest i (by omega) bound).2

omit [LinearOrder Key] in
theorem Carries.entry (holds : Carries branchFactor half kept) {i : ℕ} (live : half.Live branchFactor i) :
    ∃ e, kept[i]? = some e := by
  have low : i < kept.length := by
    by_contra high
    have free := (holds.rest i (not_lt.1 high) live.1).1
    rw [live.2] at free
    exact Bool.noConfusion free
  exact ⟨_, List.getElem?_eq_getElem low⟩

theorem Carries.origin (holds : Carries branchFactor half kept) (reads : leaf.lockedBy branchFactor locked)
    (part : ∀ e ∈ kept, e ∈ OrderedMap.ofList (splitBindings branchFactor key locked)) {i : ℕ} {e : Key × KVBlock}
    (found : kept[i]? = some e) :
    half.Live branchFactor i ∧ e.1 = key (half.kvBlocks i).getAddr ∧
      ∃ j, leaf.Live branchFactor j ∧ half.kvBlocks i = leaf.kvBlocks j := by
  obtain ⟨j, live, same, eq⟩ := entry_live reads (part e (List.mem_of_getElem? found))
  have block : half.kvBlocks i = leaf.kvBlocks j := (holds.taken i e found).trans same
  have inside : i < kept.length := (List.getElem?_eq_some_iff.1 found).1
  refine ⟨⟨lt_of_lt_of_le inside holds.room, ?_⟩, ?_, j, live, block⟩
  · rw [block]
    exact live.2
  · rw [block]
    exact eq

theorem Carries.keys_eq (holds : Carries branchFactor half kept) (reads : leaf.lockedBy branchFactor locked)
    (part : ∀ e ∈ kept, e ∈ OrderedMap.ofList (splitBindings branchFactor key locked)) :
    half.keys branchFactor key = (kept.map Prod.fst).toFinset := by
  ext k
  rw [LeafNode.mem_keys, List.mem_toFinset, List.mem_map]
  constructor
  · rintro ⟨i, live, rfl⟩
    obtain ⟨e, found⟩ := holds.entry live
    exact ⟨e, List.mem_of_getElem? found, (holds.origin reads part found).2.1⟩
  · rintro ⟨e, inside, rfl⟩
    obtain ⟨i, found⟩ := List.mem_iff_getElem?.1 inside
    obtain ⟨live, eq, -⟩ := holds.origin reads part found
    exact ⟨i, live, eq.symm⟩

theorem Carries.count (holds : Carries branchFactor half kept) (reads : leaf.lockedBy branchFactor locked)
    (part : ∀ e ∈ kept, e ∈ OrderedMap.ofList (splitBindings branchFactor key locked)) (sorted : OrderedMap.Sorted kept) :
    (half.keys branchFactor key).card = kept.length := by
  rw [holds.keys_eq reads part, List.toFinset_card_of_nodup (OrderedMap.keys_nodup sorted), List.length_map]

theorem Carries.isHalf {fence : Key × Key} {keys : Finset Key} (holds : Carries branchFactor half kept)
    (reads : leaf.lockedBy branchFactor locked) (fenced : half.header.fence = fence)
    (part : ∀ e, e ∈ kept ↔ e ∈ OrderedMap.ofList (splitBindings branchFactor key locked) ∧ e.1 ∈ keys)
    (among : keys ⊆ leaf.keys branchFactor key) (sorted : OrderedMap.Sorted kept) :
    Half branchFactor key leaf half fence keys := by
  have inside : ∀ e ∈ kept, e ∈ OrderedMap.ofList (splitBindings branchFactor key locked) := fun e there => ((part e).1 there).1
  refine ⟨fenced, ?_, ?_, ?_, fun i bound => holds.unlocked bound⟩
  · rw [holds.keys_eq reads inside]
    ext k
    rw [List.mem_toFinset, List.mem_map]
    constructor
    · rintro ⟨e, there, rfl⟩
      exact ((part e).1 there).2
    · intro there
      obtain ⟨e, bound, rfl⟩ := (entries_keys reads).1 (among there)
      exact ⟨e, (part e).2 ⟨bound, there⟩, rfl⟩
  · intro i j liveI liveJ same
    obtain ⟨e, foundI⟩ := holds.entry liveI
    obtain ⟨e', foundJ⟩ := holds.entry liveJ
    have eq : e.1 = e'.1 := by
      rw [(holds.origin reads inside foundI).2.1, (holds.origin reads inside foundJ).2.1, same]
    rcases Nat.lt_trichotomy i j with less | here | more
    · exact absurd eq (ne_of_lt (sorted.lt less foundI foundJ))
    · exact here
    · exact absurd eq (ne_of_gt (sorted.lt more foundJ foundI))
  · intro i live
    obtain ⟨e, found⟩ := holds.entry live
    exact (holds.origin reads inside found).2.2

end

variable {cfg : Config} {left right : LeafNode Key} {entries : List (Key × KVBlock)} {middleKey : Key}

omit [LinearOrder Key] in
theorem Distributes.left_holds (distributes : Distributes cfg locked entries middleKey left right)
    (room : entries.length ≤ cfg.branchFactor) : Carries cfg.branchFactor left (entries.take (entries.length / 2)) := by
  have count : (entries.take (entries.length / 2)).length = entries.length / 2 := by simp; omega
  refine ⟨by omega, fun i e found => ?_, fun i high bound => ?_⟩
  · rw [List.getElem?_take] at found
    split_ifs at found with low
    exact distributes.leftKept i low e found
  · exact distributes.leftFree i (by omega) bound

omit [LinearOrder Key] in
theorem Distributes.right_holds (distributes : Distributes cfg locked entries middleKey left right)
    (room : entries.length ≤ cfg.branchFactor) : Carries cfg.branchFactor right (entries.drop (entries.length / 2)) := by
  have count : (entries.drop (entries.length / 2)).length = entries.length - entries.length / 2 := by simp
  refine ⟨by omega, fun i e found => ?_, fun i high bound => ?_⟩
  · rw [List.getElem?_drop, Nat.add_comm] at found
    have low := (List.getElem?_eq_some_iff.1 found).1
    exact distributes.rightKept i low e found
  · exact distributes.rightFree i (by omega) bound

/-- A half holds the entries on one side of the middle key. -/
structure Side (branchFactor : ℕ) (key : GlobalAddress → Key) (locked half : LeafNode Key) (kept : List (Key × KVBlock))
    (side : Key → Prop) : Prop extends Carries branchFactor half kept where
  part : ∀ e, e ∈ kept ↔ e ∈ OrderedMap.ofList (splitBindings branchFactor key locked) ∧ side e.1
  sorted : OrderedMap.Sorted kept

theorem entries_room : (OrderedMap.ofList (splitBindings branchFactor key locked)).length ≤ branchFactor := by
  refine le_trans (OrderedMap.length_ofList_le _) ?_
  rw [splitBindings, List.length_map]
  exact le_trans (List.length_filter_le _ _) (by rw [List.length_range])

section
variable {block : KVBlock}
  (distributes : Distributes cfg locked (OrderedMap.ofList (splitBindings cfg.branchFactor key locked)) middleKey left right)
  (reads : leaf.lockedBy cfg.branchFactor locked)
  (middle : (OrderedMap.ofList (splitBindings cfg.branchFactor key locked))[(leaf.keys cfg.branchFactor key).card / 2]? =
    some (middleKey, block))
include distributes reads middle

theorem Distributes.left_side : Side cfg.branchFactor key locked left
    ((OrderedMap.ofList (splitBindings cfg.branchFactor key locked)).take ((leaf.keys cfg.branchFactor key).card / 2))
    (· < middleKey) := by
  have sorted := OrderedMap.sorted_ofList (splitBindings cfg.branchFactor key locked)
  have holds := distributes.left_holds entries_room
  rw [entries_length _ reads] at holds
  exact ⟨holds, fun e => sorted.mem_take_iff middle, sorted.sublist (List.take_sublist _ _)⟩

theorem Distributes.right_side : Side cfg.branchFactor key locked right
    ((OrderedMap.ofList (splitBindings cfg.branchFactor key locked)).drop ((leaf.keys cfg.branchFactor key).card / 2))
    (middleKey ≤ ·) := by
  have sorted := OrderedMap.sorted_ofList (splitBindings cfg.branchFactor key locked)
  have holds := distributes.right_holds entries_room
  rw [entries_length _ reads] at holds
  exact ⟨holds, fun e => sorted.mem_drop_iff middle, sorted.sublist (List.drop_sublist _ _)⟩

theorem Distributes.partition
    (inside : ∀ i, leaf.Live cfg.branchFactor i → leaf.header.covers (key (leaf.kvBlocks i).getAddr))
    (many : 2 ≤ (leaf.keys cfg.branchFactor key).card) :
    Partition cfg.branchFactor key leaf left right middleKey := by
  -- the distribution loop of a split shares the keys of the leaf
  have count := entries_length key reads
  have sorted := OrderedMap.sorted_ofList (splitBindings cfg.branchFactor key locked)
  have lower := distributes.left_side reads middle
  have upper := distributes.right_side reads middle
  have entryKey : ∀ e ∈ OrderedMap.ofList (splitBindings cfg.branchFactor key locked), e.1 ∈ leaf.keys cfg.branchFactor key :=
    fun e there => (entries_keys reads).2 ⟨e, there, rfl⟩
  have covered : ∀ e ∈ OrderedMap.ofList (splitBindings cfg.branchFactor key locked), leaf.header.covers e.1 := by
    intro e there
    obtain ⟨i, live, -, eq⟩ := entry_live reads there
    rw [eq]
    exact inside i live
  refine ⟨⟨?_, (covered _ (List.mem_of_getElem? middle)).2⟩, ?_, ?_, ?_, ?_⟩
  · obtain ⟨e, first⟩ : ∃ e, (OrderedMap.ofList (splitBindings cfg.branchFactor key locked))[0]? = some e :=
      ⟨_, List.getElem?_eq_getElem (by omega)⟩
    exact lt_of_le_of_lt (covered e (List.mem_of_getElem? first)).1 (sorted.lt (by omega) first middle)
  · refine lower.isHalf reads (by rw [distributes.leftHeader, reads.1]) (fun e => ?_) (Finset.filter_subset _ _) lower.sorted
    rw [lower.part, Finset.mem_filter]
    exact ⟨fun is => ⟨is.1, entryKey e is.1, is.2⟩, fun is => ⟨is.1, is.2.2⟩⟩
  · refine upper.isHalf reads (by rw [distributes.rightHeader, reads.1]; rfl) (fun e => ?_) (Finset.filter_subset _ _) upper.sorted
    rw [upper.part, Finset.mem_filter]
    exact ⟨fun is => ⟨is.1, entryKey e is.1, is.2⟩, fun is => ⟨is.1, is.2.2⟩⟩
  · rw [lower.count reads (fun e there => ((lower.part e).1 there).1) lower.sorted, List.length_take, count]
    omega
  · rw [upper.count reads (fun e there => ((upper.part e).1 there).1) upper.sorted, List.length_drop, count]

end

end

end Faunus
