import Faunus.Index.Sequences

/-! The array accesses of separator insertion.

The local computations of `insert_internal_entry` and `split_internal_node` once more, with
every access checked against the size of its array. They fail exactly where an index
of the source is out of range, and agree with the unchecked ones elsewhere.
-/

set_option autoImplicit false

namespace Faunus

variable {Key : Type} [LinearOrder Key]

/-! ## Checked arrays -/

/-- Subtraction of `size_t`. -/
def sizeSub (a b : ℕ) : ℕ := (a + 2 ^ 64 - b) % 2 ^ 64

theorem sizeSub_of_le {a b : ℕ} (below : b ≤ a) (fits : a < 2 ^ 64) : sizeSub a b = a - b := by
  unfold sizeSub
  omega

section Arrays
variable (size : ℕ) (entries : ℕ → InternalEntry Key) (i : ℕ)

def loadEntry : Option (InternalEntry Key) := if i < size then some (entries i) else none

def storeEntry (entry : InternalEntry Key) : Option (ℕ → InternalEntry Key) :=
  if i < size then some (Function.update entries i entry) else none

def storeKey (key : Key) : Option (ℕ → InternalEntry Key) := if i < size then some (setKey entries i key) else none

def storeChild (child : GlobalAddress) : Option (ℕ → InternalEntry Key) := if i < size then some (setChild entries i child) else none

end Arrays

/-! ## Checked loops -/

/-- The search for an existing key, from `i - 1` down. -/
def findKeyChecked (size : ℕ) (entries : ℕ → InternalEntry Key) (key : Key) : ℕ → Option Bool
  | 0 => some false
  | i + 1 => do
    let entry ← loadEntry size entries i
    if entry.key = key then some true else findKeyChecked size entries key i

def separatorIndexChecked (size : ℕ) (entries : ℕ → InternalEntry Key) (key : Key) : ℕ → Option ℕ
  | 0 => some 0
  | i + 1 => do
    let entry ← loadEntry size entries i
    if entry.key < key then some (i + 1) else separatorIndexChecked size entries key i

def shiftEntriesChecked (size index : ℕ) : ℕ → (ℕ → InternalEntry Key) → Option (ℕ → InternalEntry Key)
  | 0, entries => some entries
  | i + 1, entries =>
    if index < i + 1 then do
      let before ← loadEntry size entries (sizeSub (i + 1) 2)
      let entries ← storeKey size entries (sizeSub (i + 1) 1) before.key
      let here ← loadEntry size entries (sizeSub (i + 1) 1)
      let entries ← storeChild size entries (i + 1) here.child
      shiftEntriesChecked size index i entries
    else some entries

def placeChecked (size : ℕ) (entries : ℕ → InternalEntry Key) (lastIndex index : ℕ) (key : Key) (child : GlobalAddress) :
    Option (ℕ → InternalEntry Key) := do
  let entries ← shiftEntriesChecked size index (lastIndex + 1) entries
  let entries ← storeChild size entries (index + 1) child
  storeKey size entries index key

section
variable [BoundedOrder Key]

/-- The first `count` entries of the node, pushed into the vector. -/
def copyChecked (size : ℕ) (entries : ℕ → InternalEntry Key) : ℕ → Option (ℕ → InternalEntry Key)
  | 0 => some fun _ => .zero
  | i + 1 => do
    let vector ← copyChecked size entries i
    let entry ← loadEntry size entries i
    some (Function.update vector i entry)

/-- The entries behind the middle go to the new node and are cleared in the old one. -/
def moveRightChecked (branchFactor size middle : ℕ) (vector : ℕ → InternalEntry Key) :
    List ℕ → (ℕ → InternalEntry Key) → (ℕ → InternalEntry Key) → Option ((ℕ → InternalEntry Key) × (ℕ → InternalEntry Key))
  | [], node, newNode => some (node, newNode)
  | i :: rest, node, newNode => do
    let entry ← loadEntry size vector i
    let newNode ← storeEntry branchFactor newNode (sizeSub (sizeSub i middle) 1) entry
    let node ← if i < branchFactor then storeEntry branchFactor node i .zero else some node
    moveRightChecked branchFactor size middle vector rest node newNode

def moveLeftChecked (branchFactor size : ℕ) (vector : ℕ → InternalEntry Key) : List ℕ → (ℕ → InternalEntry Key) →
    Option (ℕ → InternalEntry Key)
  | [], node => some node
  | i :: rest, node => do
    let entry ← loadEntry size vector i
    let node ← storeEntry branchFactor node i entry
    moveLeftChecked branchFactor size vector rest node

/-- What `insert_internal_entry` does with the node it locked. -/
inductive Placement (Key : Type) where
  | present : Placement Key
  | inPlace (entries : ℕ → InternalEntry Key) : Placement Key
  | split (left right : ℕ → InternalEntry Key) (middleKey : Key) : Placement Key

namespace InternalNode
variable (branchFactor : ℕ) (n : InternalNode Key) (key : Key) (child : GlobalAddress)

def splitChecked : Option (Placement Key) := do
  let vector ← copyChecked branchFactor n.entries (n.header.lastIndex + 1)
  let size := n.header.lastIndex + 2
  let index ← separatorIndexChecked branchFactor n.entries key n.header.lastIndex
  let vector ← placeChecked size vector n.header.lastIndex index key child
  let middle := splitMiddle branchFactor
  let middleEntry ← loadEntry size vector middle
  let (node, newNode) ← moveRightChecked branchFactor size middle vector ((List.range size).drop (middle + 1)) n.entries
    fun _ => .zero
  let node ← moveLeftChecked branchFactor size vector (List.range (middle + 1)) node
  some (.split node newNode middleEntry.key)

def insertChecked : Option (Placement Key) := do
  let found ← findKeyChecked branchFactor n.entries key (n.header.lastIndex + 1)
  if found then some .present
  else if branchFactor ≤ n.header.lastIndex + 1 then n.splitChecked branchFactor key child
  else do
    let index ← separatorIndexChecked branchFactor n.entries key n.header.lastIndex
    let entries ← placeChecked branchFactor n.entries n.header.lastIndex index key child
    some (.inPlace entries)

end InternalNode

end

/-! ## What the loops do -/

section
variable {size : ℕ} {entries : ℕ → InternalEntry Key} {key : Key}

omit [LinearOrder Key] in
theorem loadEntry_of_lt {i : ℕ} (inside : i < size) : loadEntry size entries i = some (entries i) := if_pos inside

theorem findKeyChecked_eq {n : ℕ} (inside : n ≤ size) :
    findKeyChecked size entries key n = some ((List.range n).any fun i => decide ((entries i).key = key)) := by
  induction n with
  | zero => rfl
  | succ i ih =>
    simp only [findKeyChecked, loadEntry_of_lt (show i < size by omega), Option.bind_eq_bind, Option.bind_some]
    rw [ih (by omega), List.range_succ, List.any_append]
    by_cases same : (entries i).key = key
    · simp [same]
    · simp [same]

theorem separatorIndexChecked_eq {n : ℕ} (inside : n ≤ size) :
    separatorIndexChecked size entries key n = some (separatorIndex entries key n) := by
  induction n with
  | zero => rfl
  | succ i ih =>
    simp only [separatorIndexChecked, loadEntry_of_lt (show i < size by omega), Option.bind_eq_bind, Option.bind_some]
    rw [ih (by omega), separatorIndex]
    split_ifs <;> rfl

variable [BoundedOrder Key]

/-- A round of the shift loop with `i` at least 2 stays in range. -/
theorem shiftEntriesChecked_round {index i : ℕ} (inside : i + 2 < size) (fits : size ≤ 2 ^ 64) (low : index < i + 2) :
    shiftEntriesChecked size index (i + 2) entries = shiftEntriesChecked size index (i + 1) (shiftEntry entries (i + 2)) := by
  have two : sizeSub (i + 2) 2 = i := sizeSub_of_le (by omega) (by omega)
  have one : sizeSub (i + 2) 1 = i + 1 := sizeSub_of_le (by omega) (by omega)
  rw [shiftEntriesChecked, if_pos low, two, one]
  simp only [loadEntry, storeKey, storeChild, if_pos (show i < size by omega), if_pos (show i + 1 < size by omega), if_pos inside,
    Option.bind_eq_bind, Option.bind_some]
  simp [shiftEntry]

omit [LinearOrder Key] [BoundedOrder Key] in
/-- The round with `i = 1` reads the key of the entry before the first one. -/
theorem shiftEntriesChecked_first (fits : size < 2 ^ 64) : shiftEntriesChecked size 0 1 entries = none := by
  have before : ¬ sizeSub 1 2 < size := by
    unfold sizeSub
    omega
  rw [shiftEntriesChecked, if_pos Nat.one_pos, loadEntry, if_neg before]
  rfl

theorem shiftEntriesChecked_eq {index n : ℕ} (inside : n < size) (fits : size ≤ 2 ^ 64) (behind : 0 < index) :
    shiftEntriesChecked size index n entries = some (shiftEntries index n entries) := by
  induction n generalizing entries with
  | zero => rfl
  | succ n ih =>
    by_cases low : index < n + 1
    · obtain ⟨i, rfl⟩ : ∃ i, n = i + 1 := ⟨n - 1, by omega⟩
      rw [shiftEntriesChecked_round inside fits low, ih (by omega)]
      conv_rhs => rw [shiftEntries, if_pos low]
    · rw [shiftEntriesChecked, if_neg low, shiftEntries, if_neg low]

theorem shiftEntriesChecked_front {n : ℕ} (some' : 0 < n) (inside : n < size) (fits : size < 2 ^ 64) :
    shiftEntriesChecked size 0 n entries = none := by
  induction n generalizing entries with
  | zero => omega
  | succ n ih =>
    cases n with
    | zero => exact shiftEntriesChecked_first fits
    | succ i =>
      rw [shiftEntriesChecked_round inside fits.le (by omega)]
      exact ih (by omega) (by omega)

theorem placeChecked_eq {last : ℕ} {child : GlobalAddress} (inside : last + 1 < size) (fits : size < 2 ^ 64) :
    placeChecked size entries last (separatorIndex entries key last) key child =
      if 0 < separatorIndex entries key last then some (insertSeparator entries last key child) else none := by
  have small := separatorIndex_le entries key last
  unfold placeChecked
  by_cases behind : 0 < separatorIndex entries key last
  · rw [if_pos behind, shiftEntriesChecked_eq inside fits.le behind]
    simp only [Option.bind_eq_bind, Option.bind_some, storeChild, storeKey]
    rw [if_pos (by omega), Option.bind_some, if_pos (by omega)]
    rfl
  · obtain zero : separatorIndex entries key last = 0 := by omega
    rw [if_neg behind, zero, shiftEntriesChecked_front (Nat.succ_pos last) inside fits]
    rfl

theorem copyChecked_eq {n : ℕ} (inside : n ≤ size) : copyChecked size entries n = some fun i =>
    if i < n then entries i else .zero := by
  induction n with
  | zero => simp [copyChecked]
  | succ n ih =>
    simp only [copyChecked, ih (by omega), loadEntry_of_lt (show n < size by omega), Option.bind_eq_bind, Option.bind_some,
      Option.some.injEq]
    funext i
    by_cases here : i = n
    · subst here
      simp
    · rw [Function.update_of_ne here]
      by_cases below : i < n
      · rw [if_pos below, if_pos (by omega)]
      · rw [if_neg below, if_neg (by omega)]

theorem moveRightChecked_some {branchFactor middle : ℕ} {slots : List ℕ} (vector node newNode : ℕ → InternalEntry Key)
    (inside : ∀ i ∈ slots, middle < i ∧ i < size ∧ i - middle - 1 < branchFactor) (fits : size ≤ 2 ^ 64) :
    ∃ node' newNode', moveRightChecked branchFactor size middle vector slots node newNode = some (node', newNode') ∧
      (∀ i, node' i = if i ∈ slots ∧ i < branchFactor then .zero else node i) ∧
      ∀ i, newNode' i = if i + middle + 1 ∈ slots then vector (i + middle + 1) else newNode i := by
  -- moving entries behind the middle one by one
  induction slots generalizing node newNode with
  | nil => exact ⟨node, newNode, rfl, by simp, by simp⟩
  | cons i rest ih =>
    obtain ⟨⟨behind, bound, slot⟩, later⟩ := List.forall_mem_cons.1 inside
    have index : sizeSub (sizeSub i middle) 1 = i - middle - 1 := by
      rw [sizeSub_of_le behind.le (by omega), sizeSub_of_le (by omega) (by omega)]
    obtain ⟨node', newNode', moved, left, right⟩ := ih (if i < branchFactor then Function.update node i .zero else node)
      (Function.update newNode (i - middle - 1) (vector i)) later
    refine ⟨node', newNode', ?_, fun j => ?_, fun j => ?_⟩
    · rw [← moved, moveRightChecked, index]
      simp only [loadEntry, storeEntry, if_pos bound, if_pos slot, Option.bind_eq_bind, Option.bind_some]
      by_cases old : i < branchFactor
      · simp only [if_pos old, Option.bind_some]
      · simp only [if_neg old]
    · rw [left j]
      by_cases again : j ∈ rest ∧ j < branchFactor
      · rw [if_pos again, if_pos ⟨List.mem_cons_of_mem _ again.1, again.2⟩]
      · rw [if_neg again]
        by_cases here : j = i
        · subst here
          by_cases old : j < branchFactor
          · simp [old]
          · simp [old]
        · have same : (if i < branchFactor then Function.update node i .zero else node) j = node j := by
            split_ifs
            · rw [Function.update_of_ne here]
            · rfl
          rw [same, if_neg (by simpa [here] using again)]
    · rw [right j]
      by_cases again : j + middle + 1 ∈ rest
      · rw [if_pos again, if_pos (List.mem_cons_of_mem _ again)]
      · rw [if_neg again]
        by_cases here : j + middle + 1 = i
        · obtain rfl : j = i - middle - 1 := by omega
          rw [Function.update_self, if_pos (by simp [here]), here]
        · rw [Function.update_of_ne (by omega), if_neg (by simp [here, again])]

omit [LinearOrder Key] [BoundedOrder Key] in
theorem moveLeftChecked_some {branchFactor : ℕ} {slots : List ℕ} (vector node : ℕ → InternalEntry Key)
    (inside : ∀ i ∈ slots, i < size ∧ i < branchFactor) :
    moveLeftChecked branchFactor size vector slots node = some fun i => if i ∈ slots then vector i else node i := by
  induction slots generalizing node with
  | nil => simp [moveLeftChecked]
  | cons i rest ih =>
    obtain ⟨⟨bound, slot⟩, later⟩ := List.forall_mem_cons.1 inside
    simp only [moveLeftChecked, loadEntry, storeEntry, if_pos bound, if_pos slot, Option.bind_eq_bind, Option.bind_some, ih _ later,
      Option.some.injEq]
    funext j
    by_cases again : j ∈ rest
    · rw [if_pos again, if_pos (List.mem_cons_of_mem _ again)]
    · rw [if_neg again]
      by_cases here : j = i
      · subst here
        simp
      · rw [Function.update_of_ne here, if_neg (by simp [here, again])]

end

/-! ## Accesses in range -/

section
variable [BoundedOrder Key] {branchFactor : ℕ} {n : InternalNode Key} {key : Key} {child : GlobalAddress}

theorem separatorIndex_grown : separatorIndex n.grown key n.header.lastIndex = separatorIndex n.entries key n.header.lastIndex := by
  have same : ∀ last ≤ n.header.lastIndex, separatorIndex n.grown key last = separatorIndex n.entries key last := by
    intro last bound
    induction last with
    | zero => rfl
    | succ i ih =>
      have here : n.grown i = n.entries i := if_pos (by omega)
      rw [separatorIndex, separatorIndex, here, ih (by omega)]
  exact same _ le_rfl

theorem splitChecked_eq (full : n.header.lastIndex + 1 = branchFactor) (small : branchFactor ≤ 256) :
    n.splitChecked branchFactor key child =
      if 0 < separatorIndex n.entries key n.header.lastIndex then
        some (.split (n.splitLeft branchFactor key child).entries (n.splitRight branchFactor key child).entries
          (n.middleKey branchFactor key child))
      else none := by
  -- a full node is split within range unless the new separator comes first
  have half : splitMiddle branchFactor < branchFactor := Nat.div_lt_self (by omega) (by omega)
  have copied : copyChecked branchFactor n.entries (n.header.lastIndex + 1) = some n.grown := by
    rw [copyChecked_eq full.le]
    congr 1
    funext i
    simp only [InternalNode.grown, Nat.lt_succ_iff]
  rw [InternalNode.splitChecked, copied, separatorIndexChecked_eq (show n.header.lastIndex ≤ branchFactor by omega)]
  simp only [Option.bind_eq_bind, Option.bind_some]
  rw [← separatorIndex_grown, placeChecked_eq (show n.header.lastIndex + 1 < n.header.lastIndex + 2 by omega) (by omega)]
  by_cases behind : 0 < separatorIndex n.grown key n.header.lastIndex
  · rw [if_pos behind, if_pos behind, Option.bind_some, loadEntry_of_lt (by omega), Option.bind_some]
    have slots : ∀ i, i ∈ (List.range (n.header.lastIndex + 2)).drop (splitMiddle branchFactor + 1) ↔
        splitMiddle branchFactor < i ∧ i < branchFactor + 1 := by
      intro i
      rw [List.range_eq_range', List.drop_range', List.mem_range'_1]
      omega
    have behindMiddle : ∀ i ∈ (List.range (n.header.lastIndex + 2)).drop (splitMiddle branchFactor + 1),
        splitMiddle branchFactor < i ∧ i < n.header.lastIndex + 2 ∧ i - splitMiddle branchFactor - 1 < branchFactor := by
      intro i inside
      obtain ⟨low, high⟩ := (slots i).1 inside
      omega
    have beforeMiddle : ∀ i ∈ List.range (splitMiddle branchFactor + 1), i < n.header.lastIndex + 2 ∧ i < branchFactor := by
      intro i inside
      have := List.mem_range.1 inside
      omega
    obtain ⟨node, newNode, moved, left, right⟩ := moveRightChecked_some (n.splitEntries key child) n.entries (fun _ => .zero)
      behindMiddle
      (by omega)
    have back := moveLeftChecked_some (n.splitEntries key child) node beforeMiddle
    rw [show insertSeparator n.grown n.header.lastIndex key child = n.splitEntries key child from rfl, moved, Option.bind_some]
    simp only [back, Option.bind_some]
    congr 2
    · funext i
      rw [left i]
      simp only [InternalNode.splitLeft, List.mem_range, slots, Nat.lt_succ_iff]
      by_cases low : i ≤ splitMiddle branchFactor
      · rw [if_pos low, if_pos low]
      · rw [if_neg low, if_neg low]
        by_cases inside : i < branchFactor
        · rw [if_pos (by omega), if_pos inside]
        · rw [if_neg (by omega), if_neg inside]
    · funext i
      rw [right i]
      simp only [InternalNode.splitRight, slots]
      by_cases inside : i + splitMiddle branchFactor + 1 < branchFactor + 1
      · rw [if_pos (by omega), if_pos inside]
      · rw [if_neg (by omega), if_neg inside]
  · rw [if_neg behind, if_neg behind]
    rfl

theorem insertChecked_eq (formed : n.WellFormed branchFactor) (small : branchFactor ≤ 256) :
    n.insertChecked branchFactor key child =
      if (List.range (n.header.lastIndex + 1)).any (fun i => decide ((n.entries i).key = key)) then some .present
      else if 0 < separatorIndex n.entries key n.header.lastIndex then
        if branchFactor ≤ n.header.lastIndex + 1 then
          some (.split (n.splitLeft branchFactor key child).entries (n.splitRight branchFactor key child).entries
            (n.middleKey branchFactor key child))
        else some (.inPlace (n.withSeparator key child).entries)
      else none := by
  have bound := formed.bound
  rw [InternalNode.insertChecked, findKeyChecked_eq (show n.header.lastIndex + 1 ≤ branchFactor by omega)]
  simp only [Option.bind_eq_bind, Option.bind_some]
  split_ifs with found full behind behind
  · rfl
  · rw [splitChecked_eq (by omega) small, if_pos behind]
  · rw [splitChecked_eq (by omega) small, if_neg behind]
  · rw [separatorIndexChecked_eq (show n.header.lastIndex ≤ branchFactor by omega), Option.bind_some,
      placeChecked_eq (by omega) (by omega), if_pos behind]
    rfl
  · rw [separatorIndexChecked_eq (show n.header.lastIndex ≤ branchFactor by omega), Option.bind_some,
      placeChecked_eq (by omega) (by omega), if_neg behind]
    rfl

theorem separatorIndex_pos (formed : n.WellFormed branchFactor) :
    0 < separatorIndex n.entries key n.header.lastIndex ↔ 0 < n.header.lastIndex ∧ (n.entries 0).key < key := by
  have small := separatorIndex_le n.entries key n.header.lastIndex
  obtain ⟨before, after⟩ := separatorIndex_spec n.entries key n.header.lastIndex
  constructor
  · intro positive
    obtain ⟨j, eq⟩ : ∃ j, separatorIndex n.entries key n.header.lastIndex = j + 1 := ⟨_, (Nat.succ_pred_eq_of_pos positive).symm⟩
    refine ⟨by omega, ?_⟩
    cases j with
    | zero => exact before 0 eq
    | succ j => exact (formed.increasing 0 (j + 1) (by omega) (by omega)).trans (before (j + 1) eq)
  · rintro ⟨some', smaller⟩
    by_contra zero
    exact absurd smaller (not_lt.2 (after 0 (by omega) some'))

/-- Every access is in range exactly when the key is there already or comes behind the first separator. -/
theorem accesses_in_range (formed : n.WellFormed branchFactor) (small : branchFactor ≤ 256) :
    (n.insertChecked branchFactor key child).isSome ↔
      (∃ i ≤ n.header.lastIndex, (n.entries i).key = key) ∨ 0 < n.header.lastIndex ∧ (n.entries 0).key < key := by
  have found : (List.range (n.header.lastIndex + 1)).any (fun i => decide ((n.entries i).key = key)) = true ↔
      ∃ i ≤ n.header.lastIndex, (n.entries i).key = key := by
    simp [Nat.lt_succ_iff]
  rw [insertChecked_eq formed small, ← found, ← separatorIndex_pos formed]
  split_ifs <;> simp_all

end

theorem accesses_in_range_threeChildren :
    (threeChildren.insertChecked 4 secondKey ⟨7⟩).isSome ∧
      ((∃ i ≤ threeChildren.header.lastIndex, (threeChildren.entries i).key = secondKey) ∨
        0 < threeChildren.header.lastIndex ∧ (threeChildren.entries 0).key < secondKey) := by
  have formed : threeChildren.WellFormed 4 :=
    ⟨by decide, fun i j less last =>
      (by decide : ∀ j < 2, ∀ i < j, (threeChildren.entries i).key < (threeChildren.entries j).key) j last i less,
      by decide, .inl rfl⟩
  have behind : 0 < threeChildren.header.lastIndex ∧ (threeChildren.entries 0).key < secondKey := by decide
  exact ⟨(accesses_in_range formed (by decide)).2 (.inr behind), .inr behind⟩

def twoChildren : InternalNode (Fin 256) where
  header := { Header.zero (⊥, ⊤) with level := 1, lastIndex := 1 }
  entries := fun i => ⟨if i = 0 then secondKey else ⊥, ⟨BitVec.ofNat 50 (i + 1)⟩⟩

theorem stray_read_frontSeparator :
    twoChildren.WellFormed 4 ∧ twoChildren.header.covers firstKey ∧ twoChildren.insertChecked 4 firstKey ⟨7⟩ = none := by
  refine ⟨⟨by decide, fun i j less last => ?_, by decide, .inl rfl⟩, by decide, ?_⟩
  · have : j < 1 := last
    omega
  · have none' : (twoChildren.insertChecked 4 firstKey ⟨7⟩).isSome = false := by decide
    simpa using none'

end Faunus
