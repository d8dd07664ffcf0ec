import Faunus.Index.Separators
import Faunus.Index.Machine
import Faunus.Tiling.Forest

/-! Nodes as tiles of the key space. -/

set_option autoImplicit false

namespace Faunus

open Tiling

variable {Key : Type}

def InternalNode.boundary (n : InternalNode Key) : ℕ → Key
  | 0 => n.header.fence.1
  | i + 1 => (n.entries i).key

def InternalNode.tile (n : InternalNode Key) : Tile Key GlobalAddress where
  level := n.header.level
  lo := n.header.fence.1
  hi := n.header.fence.2
  kids := {p | ∃ i ≤ n.header.lastIndex, p = (n.boundary i, (n.entries i).child)}

def Node.tile : Node Key → Tile Key GlobalAddress
  | .leaf n => ⟨n.header.level, n.header.fence.1, n.header.fence.2, ∅⟩
  | .internal n => n.tile

@[simp] theorem Node.tile_level (n : Node Key) : n.tile.level = n.header.level := by cases n <;> rfl

@[simp] theorem Node.tile_lo (n : Node Key) : n.tile.lo = n.header.fence.1 := by cases n <;> rfl

@[simp] theorem Node.tile_hi (n : Node Key) : n.tile.hi = n.header.fence.2 := by cases n <;> rfl

@[simp] theorem Node.tile_setLock (n : Node Key) (lock : BitVec 64) : (n.setLock lock).tile = n.tile := by cases n <;> rfl

variable [LinearOrder Key]

/-- The separators of a node increase inside its fence, and the keys behind them lie outside. -/
structure InternalNode.Ordered (n : InternalNode Key) : Prop where
  increasing : ∀ i < n.header.lastIndex, n.boundary i < n.boundary (i + 1)
  upper : n.boundary n.header.lastIndex < n.header.fence.2
  stale : ∀ i, n.header.lastIndex ≤ i → (n.entries i).key ≤ n.header.fence.1 ∨ n.header.fence.2 ≤ (n.entries i).key

namespace InternalNode.Ordered
variable {n : InternalNode Key} (ordered : n.Ordered)
include ordered

theorem lt {i j : ℕ} (less : i < j) (bound : j ≤ n.header.lastIndex) : n.boundary i < n.boundary j := by
  induction j with
  | zero => omega
  | succ j ih =>
    have step := ordered.increasing j (by omega)
    by_cases same : i = j
    · exact same ▸ step
    · exact lt_trans (ih (by omega) (by omega)) step

theorem le {i j : ℕ} (less : i ≤ j) (bound : j ≤ n.header.lastIndex) : n.boundary i ≤ n.boundary j := by
  rcases Nat.lt_or_ge i j with lower | higher
  · exact le_of_lt (ordered.lt lower bound)
  · rw [le_antisymm less higher]

theorem lt_iff {i j : ℕ} (one : i ≤ n.header.lastIndex) (two : j ≤ n.header.lastIndex) :
    n.boundary i < n.boundary j ↔ i < j := by
  refine ⟨fun less => ?_, fun less => ordered.lt less two⟩
  by_contra ge
  exact absurd less (not_lt.2 (ordered.le (not_lt.1 ge) one))

theorem lt_upper {i : ℕ} (bound : i ≤ n.header.lastIndex) : n.boundary i < n.header.fence.2 :=
  lt_of_le_of_lt (ordered.le bound (le_refl _)) ordered.upper

theorem lower_le {i : ℕ} (bound : i ≤ n.header.lastIndex) : n.header.fence.1 ≤ n.boundary i :=
  ordered.le (Nat.zero_le i) bound

theorem setLock (lock : BitVec 64) : Ordered { n with header := { n.header with lock } } := by
  have same : ∀ i, boundary { n with header := { n.header with lock } } i = n.boundary i := by
    intro i
    cases i <;> rfl
  refine ⟨fun i bound => ?_, ?_, ordered.stale⟩
  · rw [same, same]
    exact ordered.increasing i bound
  · rw [same]
    exact ordered.upper

end InternalNode.Ordered

section
variable [BoundedOrder Key] {n : InternalNode Key} {key : Key} {c : GlobalAddress}

theorem withSeparator_boundary (i : ℕ) (bound : i ≤ n.header.lastIndex + 1) :
    (n.withSeparator key c).boundary i =
      if i ≤ separatorIndex n.entries key n.header.lastIndex then n.boundary i
      else if i = separatorIndex n.entries key n.header.lastIndex + 1 then key
      else n.boundary (i - 1) := by
  -- the boundaries after a separator was put in
  cases i with
  | zero => rw [if_pos (Nat.zero_le _)]; rfl
  | succ i =>
    have eq : (n.withSeparator key c).boundary (i + 1) = _ := insertSeparator_key n.entries n.header.lastIndex key c i
    rw [eq]
    by_cases low : i < separatorIndex n.entries key n.header.lastIndex
    · rw [if_pos low, if_pos (Nat.succ_le_of_lt low)]
      rfl
    · have high : ¬ i + 1 ≤ separatorIndex n.entries key n.header.lastIndex := by omega
      rw [if_neg low, if_neg high]
      by_cases here : i = separatorIndex n.entries key n.header.lastIndex
      · rw [if_pos here, if_pos (congrArg Nat.succ here)]
      · have beyond : ¬ i + 1 = separatorIndex n.entries key n.header.lastIndex + 1 := by omega
        obtain ⟨j, rfl⟩ : ∃ j, i = j + 1 := ⟨i - 1, by omega⟩
        rw [if_neg here, if_neg beyond, if_pos (by omega)]
        rfl

theorem withSeparator_tile : (n.withSeparator key c).tile = n.tile.link key c := by
  have small := separatorIndex_le n.entries key n.header.lastIndex
  have kids : (n.withSeparator key c).tile.kids = Insert.insert (key, c) n.tile.kids := by
    ext p
    constructor
    · rintro ⟨i, bound, rfl⟩
      have bound : i ≤ n.header.lastIndex + 1 := bound
      rw [withSeparator_boundary i bound]
      have child := insertSeparator_child n.entries n.header.lastIndex key c i bound
      simp only [InternalNode.withSeparator]
      rw [child]
      split_ifs with low here
      · exact Or.inr ⟨i, by omega, rfl⟩
      · exact Or.inl rfl
      · exact Or.inr ⟨i - 1, by omega, rfl⟩
    · rintro (rfl | ⟨i, bound, rfl⟩)
      · refine ⟨separatorIndex n.entries key n.header.lastIndex + 1, Nat.succ_le_succ small, ?_⟩
        rw [withSeparator_boundary _ (by omega), if_neg (by omega), if_pos rfl]
        simp only [InternalNode.withSeparator]
        rw [insertSeparator_child _ _ _ _ _ (by omega), if_neg (by omega), if_pos rfl]
      · by_cases low : i ≤ separatorIndex n.entries key n.header.lastIndex
        · refine ⟨i, Nat.le_succ_of_le bound, ?_⟩
          rw [withSeparator_boundary _ (by omega), if_pos low]
          simp only [InternalNode.withSeparator]
          rw [insertSeparator_child _ _ _ _ _ (by omega), if_pos low]
        · refine ⟨i + 1, Nat.succ_le_succ bound, ?_⟩
          rw [withSeparator_boundary _ (by omega), if_neg (by omega), if_neg (by omega), Nat.add_sub_cancel]
          simp only [InternalNode.withSeparator]
          rw [insertSeparator_child _ _ _ _ _ (by omega), if_neg (by omega), if_neg (by omega), Nat.add_sub_cancel]
  unfold Tile.link
  rw [← kids]
  rfl

theorem withSeparator_ordered (ordered : n.Ordered) (inside : n.header.fence.1 < key ∧ key < n.header.fence.2)
    (absent : ∀ i < n.header.lastIndex, (n.entries i).key ≠ key) : (n.withSeparator key c).Ordered := by
  have small := separatorIndex_le n.entries key n.header.lastIndex
  obtain ⟨before, after⟩ := separatorIndex_spec n.entries key n.header.lastIndex
  have below : n.boundary (separatorIndex n.entries key n.header.lastIndex) < key := by
    cases eq : separatorIndex n.entries key n.header.lastIndex with
    | zero => exact inside.1
    | succ j => exact before j eq
  have above : ∀ i, separatorIndex n.entries key n.header.lastIndex < i → i ≤ n.header.lastIndex → key < n.boundary i := by
    intro i low bound
    obtain ⟨j, rfl⟩ : ∃ j, i = j + 1 := ⟨i - 1, by omega⟩
    exact lt_of_le_of_ne (after j (by omega) (by omega)) (absent j (by omega)).symm
  refine ⟨fun i bound => ?_, ?_, fun i bound => ?_⟩
  · have bound : i < n.header.lastIndex + 1 := bound
    rw [withSeparator_boundary i (by omega), withSeparator_boundary (i + 1) (by omega)]
    rcases Nat.lt_trichotomy i (separatorIndex n.entries key n.header.lastIndex) with low | here | high
    · rw [if_pos (le_of_lt low), if_pos (Nat.succ_le_of_lt low)]
      exact ordered.increasing i (by omega)
    · rw [if_pos (le_of_eq here), if_neg (by omega), if_pos (congrArg Nat.succ here), here]
      exact below
    · have skip : ¬ i + 1 = separatorIndex n.entries key n.header.lastIndex + 1 := by omega
      rw [if_neg (not_le.2 high), if_neg (not_le.2 (Nat.lt_succ_of_lt high)), if_neg skip, Nat.add_sub_cancel]
      split_ifs
      · exact above i (by omega) (by omega)
      · exact ordered.lt (by omega) (by omega)
  · change (n.withSeparator key c).boundary (n.header.lastIndex + 1) < n.header.fence.2
    rw [withSeparator_boundary _ (le_refl _), if_neg (by omega)]
    split_ifs
    · exact inside.2
    · exact ordered.upper
  · have bound : n.header.lastIndex + 1 ≤ i := bound
    change (insertSeparator n.entries n.header.lastIndex key c i).key ≤ n.header.fence.1 ∨
      n.header.fence.2 ≤ (insertSeparator n.entries n.header.lastIndex key c i).key
    rw [insertSeparator_key, if_neg (by omega), if_neg (by omega), if_neg (by omega)]
    exact ordered.stale i (by omega)

/-! ## Splitting -/

/-- A full node with the new entry in, before it is split. -/
def InternalNode.overfull (n : InternalNode Key) (key : Key) (c : GlobalAddress) : InternalNode Key :=
  InternalNode.withSeparator ⟨n.header, n.grown⟩ key c

theorem grown_boundary {i : ℕ} (bound : i ≤ n.header.lastIndex) :
    InternalNode.boundary ⟨n.header, n.grown⟩ i = n.boundary i := by
  cases i with
  | zero => rfl
  | succ i => simp [InternalNode.boundary, InternalNode.grown, Nat.le_of_succ_le bound]

theorem overfull_tile : (n.overfull key c).tile = n.tile.link key c := by
  have same : InternalNode.tile ⟨n.header, n.grown⟩ = n.tile := by
    unfold InternalNode.tile
    congr 1
    ext p
    constructor
    · rintro ⟨i, bound, rfl⟩
      have bound : i ≤ n.header.lastIndex := bound
      refine ⟨i, bound, ?_⟩
      rw [grown_boundary bound]
      simp only [InternalNode.grown, if_pos bound]
    · rintro ⟨i, bound, rfl⟩
      refine ⟨i, bound, ?_⟩
      rw [grown_boundary bound]
      simp only [InternalNode.grown, if_pos bound]
  unfold InternalNode.overfull
  rw [withSeparator_tile, same]

theorem overfull_ordered (ordered : n.Ordered) (inside : n.header.fence.1 < key ∧ key < n.header.fence.2)
    (absent : ∀ i < n.header.lastIndex, (n.entries i).key ≠ key) : (n.overfull key c).Ordered := by
  refine withSeparator_ordered ⟨fun i bound => ?_, ?_, fun i bound => ?_⟩ inside fun i bound => ?_
  · have bound : i < n.header.lastIndex := bound
    rw [grown_boundary (le_of_lt bound), grown_boundary bound]
    exact ordered.increasing i bound
  · rw [grown_boundary (le_refl _)]
    exact ordered.upper
  · by_cases last : i ≤ n.header.lastIndex
    · simp only [InternalNode.grown, if_pos last]
      exact ordered.stale i bound
    · simp only [InternalNode.grown, if_neg last]
      exact Or.inl bot_le
  · simp only [InternalNode.grown, if_pos (le_of_lt (show i < n.header.lastIndex from bound))]
    exact absent i bound

section
variable {branchFactor : ℕ} (ordered : (n.overfull key c).Ordered) (full : n.header.lastIndex + 1 = branchFactor)
  (middle : splitMiddle branchFactor < branchFactor - 1)
include ordered full middle

theorem middleKey_inside : n.header.fence.1 < n.middleKey branchFactor key c ∧
    n.middleKey branchFactor key c < n.header.fence.2 :=
  ⟨ordered.lt (i := 0) (j := splitMiddle branchFactor + 1) (Nat.succ_pos _)
      (by change splitMiddle branchFactor + 1 ≤ n.header.lastIndex + 1; omega),
    ordered.lt_upper (i := splitMiddle branchFactor + 1)
      (by change splitMiddle branchFactor + 1 ≤ n.header.lastIndex + 1; omega)⟩

omit ordered full middle in
theorem splitLeft_entry (i : ℕ) (bound : i ≤ splitMiddle branchFactor) :
    (n.splitLeft branchFactor key c).entries i = (n.overfull key c).entries i := by
  simp only [InternalNode.splitLeft, if_pos bound]
  rfl

omit ordered full middle in
theorem splitLeft_boundary (i : ℕ) (bound : i ≤ splitMiddle branchFactor) :
    (n.splitLeft branchFactor key c).boundary i = (n.overfull key c).boundary i := by
  cases i with
  | zero => rfl
  | succ i => simp only [InternalNode.boundary, splitLeft_entry i (Nat.le_of_succ_le bound)]

omit ordered full middle in
theorem splitRight_entry (i : ℕ) (bound : i + splitMiddle branchFactor + 1 ≤ branchFactor) :
    (n.splitRight branchFactor key c).entries i = (n.overfull key c).entries (i + splitMiddle branchFactor + 1) := by
  simp only [InternalNode.splitRight, if_pos (Nat.lt_succ_of_le bound)]
  rfl

omit ordered full middle in
theorem splitRight_boundary (i : ℕ) (bound : i + splitMiddle branchFactor + 1 ≤ branchFactor) :
    (n.splitRight branchFactor key c).boundary i = (n.overfull key c).boundary (i + splitMiddle branchFactor + 1) := by
  cases i with
  | zero =>
    rw [Nat.zero_add]
    rfl
  | succ i =>
    have before : i + splitMiddle branchFactor + 1 ≤ branchFactor := by omega
    simp only [InternalNode.boundary, splitRight_entry i before, Nat.add_right_comm i 1]

theorem splitLeft_tile : (n.splitLeft branchFactor key c).tile = (n.overfull key c).tile.left (n.middleKey branchFactor key c) := by
  have last : (n.overfull key c).header.lastIndex = n.header.lastIndex + 1 := rfl
  have kids : (n.splitLeft branchFactor key c).tile.kids =
      {p ∈ (n.overfull key c).tile.kids | p.1 < n.middleKey branchFactor key c} := by
    ext p
    constructor
    · rintro ⟨i, bound, rfl⟩
      have bound : i ≤ splitMiddle branchFactor := bound
      rw [splitLeft_boundary i bound, splitLeft_entry i bound]
      exact ⟨⟨i, by omega, rfl⟩, ordered.lt (j := splitMiddle branchFactor + 1) (by omega) (by omega)⟩
    · rintro ⟨⟨i, bound, rfl⟩, below⟩
      have less := (ordered.lt_iff (j := splitMiddle branchFactor + 1) bound (by omega)).1 below
      refine ⟨i, Nat.le_of_lt_succ less, ?_⟩
      rw [splitLeft_boundary i (by omega), splitLeft_entry i (by omega)]
  unfold Tile.left
  rw [← kids]
  rfl

theorem splitRight_tile :
    (n.splitRight branchFactor key c).tile = (n.overfull key c).tile.right (n.middleKey branchFactor key c) := by
  have last : (n.overfull key c).header.lastIndex = n.header.lastIndex + 1 := rfl
  have kids : (n.splitRight branchFactor key c).tile.kids =
      {p ∈ (n.overfull key c).tile.kids | n.middleKey branchFactor key c ≤ p.1} := by
    ext p
    constructor
    · rintro ⟨i, bound, rfl⟩
      have bound : i ≤ branchFactor - splitMiddle branchFactor - 1 := bound
      rw [splitRight_boundary i (by omega), splitRight_entry i (by omega)]
      have least := ordered.le (i := splitMiddle branchFactor + 1) (j := i + splitMiddle branchFactor + 1) (by omega) (by omega)
      exact ⟨⟨_, by omega, rfl⟩, least⟩
    · rintro ⟨⟨i, bound, rfl⟩, above⟩
      have less : splitMiddle branchFactor < i := by
        by_contra low
        exact absurd (ordered.lt (j := splitMiddle branchFactor + 1) (Nat.lt_succ_of_le (not_lt.1 low)) (by omega))
          (not_lt.2 above)
      obtain ⟨j, rfl⟩ : ∃ j, i = j + splitMiddle branchFactor + 1 := ⟨i - splitMiddle branchFactor - 1, by omega⟩
      refine ⟨j, ?_, ?_⟩
      · change j ≤ branchFactor - splitMiddle branchFactor - 1
        omega
      · rw [splitRight_boundary j (by omega), splitRight_entry j (by omega)]
  unfold Tile.right
  rw [← kids]
  rfl

theorem splitLeft_ordered (before : n.Ordered) : (n.splitLeft branchFactor key c).Ordered := by
  have last : (n.overfull key c).header.lastIndex = n.header.lastIndex + 1 := rfl
  have top := (middleKey_inside ordered full middle).2
  refine ⟨fun i bound => ?_, ?_, fun i bound => ?_⟩
  · have bound : i < splitMiddle branchFactor := bound
    rw [splitLeft_boundary i (by omega), splitLeft_boundary (i + 1) (by omega)]
    exact ordered.increasing i (by omega)
  · have upper := ordered.increasing (splitMiddle branchFactor) (by omega)
    rw [← splitLeft_boundary _ (le_refl _)] at upper
    exact upper
  · have bound : splitMiddle branchFactor ≤ i := bound
    change _ ≤ n.header.fence.1 ∨ n.middleKey branchFactor key c ≤ _
    by_cases here : i = splitMiddle branchFactor
    · subst here
      rw [splitLeft_entry _ (le_refl _)]
      exact Or.inr (le_refl _)
    · simp only [InternalNode.splitLeft, if_neg (show ¬ i ≤ splitMiddle branchFactor by omega)]
      split_ifs
      · exact Or.inl bot_le
      · rcases before.stale i (by omega) with low | high
        · exact Or.inl low
        · exact Or.inr (le_of_lt (lt_of_lt_of_le top high))

theorem splitRight_ordered : (n.splitRight branchFactor key c).Ordered := by
  have last : (n.overfull key c).header.lastIndex = n.header.lastIndex + 1 := rfl
  have bottom := (middleKey_inside ordered full middle).1
  refine ⟨fun i bound => ?_, ?_, fun i bound => ?_⟩
  · have bound : i < branchFactor - splitMiddle branchFactor - 1 := bound
    rw [splitRight_boundary i (by omega), splitRight_boundary (i + 1) (by omega)]
    exact ordered.lt (by omega) (by omega)
  · change (n.splitRight branchFactor key c).boundary (branchFactor - splitMiddle branchFactor - 1) < n.header.fence.2
    rw [splitRight_boundary _ (by omega)]
    exact ordered.lt_upper (by omega)
  · have bound : branchFactor - splitMiddle branchFactor - 1 ≤ i := bound
    change _ ≤ n.middleKey branchFactor key c ∨ n.header.fence.2 ≤ _
    by_cases here : i + splitMiddle branchFactor + 1 ≤ branchFactor
    · rw [splitRight_entry i here]
      rcases ordered.stale (i + splitMiddle branchFactor + 1) (by omega) with low | high
      · exact Or.inl (le_of_lt (lt_of_le_of_lt low bottom))
      · exact Or.inr high
    · simp only [InternalNode.splitRight, if_neg (show ¬ i + splitMiddle branchFactor + 1 < branchFactor + 1 by omega)]
      exact Or.inl bot_le

end

theorem newRoot_tile (left right : GlobalAddress) (level : ℕ) :
    (newRoot key left right level).tile = ⟨level, ⊥, ⊤, {(⊥, left), (key, right)}⟩ := by
  have kids : (newRoot key left right level).tile.kids = {(⊥, left), (key, right)} := by
    ext p
    constructor
    · rintro ⟨i, bound, rfl⟩
      have bound : i ≤ 1 := bound
      obtain rfl | rfl : i = 0 ∨ i = 1 := by omega
      · exact Or.inl (by simp [InternalNode.boundary, newRoot, Header.zero, setChild])
      · exact Or.inr (by simp [InternalNode.boundary, newRoot, setChild, setKey])
    · rintro (rfl | rfl)
      · exact ⟨0, Nat.zero_le _, by simp [InternalNode.boundary, newRoot, Header.zero, setChild]⟩
      · exact ⟨1, le_refl _, by simp [InternalNode.boundary, newRoot, setChild, setKey]⟩
  rw [← kids]
  rfl

theorem newRoot_ordered {left right : GlobalAddress} {level : ℕ} (inside : ⊥ < key ∧ key < ⊤) :
    (newRoot key left right level).Ordered := by
  refine ⟨fun i bound => ?_, ?_, fun i bound => ?_⟩
  · have bound : i < 1 := bound
    obtain rfl : i = 0 := by omega
    simpa [InternalNode.boundary, newRoot, Header.zero, setChild, setKey] using inside.1
  · simpa [InternalNode.boundary, newRoot, Header.zero, setChild, setKey] using inside.2
  · have bound : 1 ≤ i := bound
    refine Or.inl (le_of_eq ?_)
    have notFirst : i ≠ 0 := by omega
    by_cases second : i = 1
    · simp [newRoot, setChild, setKey, second, Header.zero, InternalEntry.zero]
    · simp [newRoot, setChild, setKey, second, notFirst, Header.zero, InternalEntry.zero]

end

/-! ## Descending -/

/-- `find_node` goes to the last child that begins at or before the key. -/
theorem InternalNode.Ordered.nextAddress {n : InternalNode Key} {key : Key} (ordered : n.Ordered) (covers : n.header.covers key) :
    ∃ i ≤ n.header.lastIndex, n.nextAddress key = (n.entries i).child ∧ n.boundary i ≤ key ∧
      ∀ j ≤ n.header.lastIndex, n.boundary j ≤ key → n.boundary j ≤ n.boundary i := by
  unfold InternalNode.nextAddress
  split
  · rename_i i found
    obtain ⟨larger, inside, before⟩ := List.find?_range_eq_some.1 found
    have bound : i ≤ n.header.lastIndex := Nat.lt_succ_iff.1 (List.mem_range.1 inside)
    refine ⟨i, bound, rfl, ?_, fun j inner below => ?_⟩
    · cases i with
      | zero => exact covers.1
      | succ i => simpa [InternalNode.boundary] using before i (Nat.lt_succ_self i)
    · refine ordered.le ?_ bound
      by_contra later
      have least := ordered.le (i := i + 1) (not_le.1 later) inner
      exact absurd (lt_of_lt_of_le (of_decide_eq_true larger) least) (not_lt.2 below)
  · rename_i found
    refine ⟨n.header.lastIndex, le_refl _, rfl, ?_, fun j inner _ => ordered.le inner (le_refl _)⟩
    cases last : n.header.lastIndex with
    | zero => exact covers.1
    | succ i =>
      simpa [InternalNode.boundary] using List.find?_range_eq_none.1 found i (by omega)

/-! ## Nodes of a forest -/

section
variable [BoundedOrder Key] {tiles : GlobalAddress → Option (Tile Key GlobalAddress)} {pending : Set GlobalAddress}
  {root a c new : GlobalAddress} {top : ℕ} {n : InternalNode Key} {y : Tile Key GlobalAddress}
  (forest : Forest tiles pending root top)
include forest

theorem pending_separator (there : tiles a = some n.tile) (ordered : n.Ordered) (waits : c ∈ pending) (found : tiles c = some y)
    (level : n.header.level = y.level + 1) (covers : n.header.covers y.lo) :
    (n.header.fence.1 < y.lo ∧ y.lo < n.header.fence.2) ∧ ∀ i, (n.entries i).key ≠ y.lo := by
  -- no separator of a node, used or stale, is where a pending node below it begins
  -- a child of the node that begins there would be the pending node
  have other : ∀ i ≤ n.header.lastIndex, n.boundary i ≠ y.lo := by
    rintro i bound same
    obtain ⟨-, notPending, z, child, down, low⟩ := forest.kids a n.tile (n.boundary i) (n.entries i).child there ⟨i, bound, rfl⟩
    have down : z.level + 1 = n.header.level := down
    have eq := forest.eq_of_lo child found (by omega) (low.trans same)
    exact notPending (eq ▸ waits)
  have inside : n.header.fence.1 < y.lo ∧ y.lo < n.header.fence.2 :=
    ⟨lt_of_le_of_ne covers.1 (other 0 (Nat.zero_le _)), covers.2⟩
  refine ⟨inside, fun i => ?_⟩
  rcases Nat.lt_or_ge i n.header.lastIndex with used | unused
  · exact other (i + 1) used
  · rcases ordered.stale i unused with low | high
    · exact ne_of_lt (lt_of_le_of_lt low inside.1)
    · exact ne_of_gt (lt_of_lt_of_le inside.2 high)

theorem forest_withSeparator (there : tiles a = some n.tile) (waits : c ∈ pending) (found : tiles c = some y)
    (level : n.header.level = y.level + 1) (covers : n.header.covers y.lo) :
    Forest (Function.update tiles a (some (n.withSeparator y.lo c).tile)) (pending \ {c}) root top := by
  rw [withSeparator_tile]
  exact forest.link there waits found level covers

theorem forest_splitNode {branchFactor : ℕ} (there : tiles a = some n.tile) (waits : c ∈ pending) (found : tiles c = some y)
    (level : n.header.level = y.level + 1) (covers : n.header.covers y.lo) (ordered : (n.overfull y.lo c).Ordered)
    (full : n.header.lastIndex + 1 = branchFactor) (middle : splitMiddle branchFactor < branchFactor - 1)
    (unused : tiles new = none) :
    Forest (Function.update (Function.update tiles a (some (n.splitLeft branchFactor y.lo c).tile)) new
      (some (n.splitRight branchFactor y.lo c).tile)) (Insert.insert new (pending \ {c})) root top := by
  have linked := forest.link there waits found level covers
  rw [← overfull_tile] at linked
  have different : new ≠ a := by
    rintro rfl
    simp [there] at unused
  have inside : (n.overfull y.lo c).tile.lo < n.middleKey branchFactor y.lo c ∧
      n.middleKey branchFactor y.lo c < (n.overfull y.lo c).tile.hi := middleKey_inside ordered full middle
  have split := linked.split (Function.update_self ..) (by rw [Function.update_of_ne different, unused]) inside fun _ =>
      ⟨((n.overfull y.lo c).entries (splitMiddle branchFactor + 1)).child, splitMiddle branchFactor + 1,
        by change splitMiddle branchFactor + 1 ≤ n.header.lastIndex + 1; omega, rfl⟩
  rwa [Function.update_idem, ← splitLeft_tile ordered full middle, ← splitRight_tile ordered full middle] at split

theorem forest_newRoot (waits : c ∈ pending) (found : tiles c = some y) (level : y.level = top) (unused : tiles new = none) :
    Forest (Function.update tiles new (some (newRoot y.lo root c (top + 1)).tile)) (pending \ {c}) new (top + 1) ∧
      ⊥ < y.lo ∧ y.lo < ⊤ := by
  refine ⟨?_, bot_lt_iff_ne_bot.2 fun least => ?_, lt_of_lt_of_le (forest.nonempty c y found) le_top⟩
  · rw [newRoot_tile]
    exact forest.grow unused waits found level
  · -- the old root and the new node begin at different keys
    obtain ⟨x, there, rootLevel, bottom⟩ := forest.rooted
    have eq := forest.eq_of_lo there found (rootLevel.trans level.symm) (bottom.trans least.symm)
    exact forest.linked (eq ▸ waits)

end

end Faunus
