import Faunus.Sherman.Tree

/-! Putting records into internal pages and splitting them.

Seen as tiles, a new record links a child and a split cuts the page at the middle key.
-/

set_option autoImplicit false

namespace Faunus.Sherman

open Tiling

variable {Key : Type} [LinearOrder Key]

/-! ## A new record -/

section
variable {records : ℕ → InternalEntry Key} {key : Key}

theorem findRecord_insert {n : ℕ} (increasing : ∀ i j, i < j → j < n → (records i).key < (records j).key)
    (fresh : ∀ i < n, (records i).key ≠ key) :
    ∃ i ≤ n, findRecord records key n = .insert i ∧ (∀ j < i, (records j).key < key) ∧
      ∀ j, i ≤ j → j < n → key < (records j).key := by
  -- without the key among the records, the scan ends behind the smaller ones
  induction n with
  | zero => exact ⟨0, le_refl 0, rfl, by simp, by simp⟩
  | succ n ih =>
    unfold findRecord
    rw [if_neg (fresh n (Nat.lt_succ_self n))]
    split_ifs with less
    · refine ⟨n + 1, le_refl _, rfl, fun j below => ?_, fun j above bound => by omega⟩
      rcases Nat.lt_succ_iff_lt_or_eq.1 below with low | rfl
      · exact lt_trans (increasing j n low (Nat.lt_succ_self n)) less
      · exact less
    · obtain ⟨i, bound, found, low, high⟩ := ih (fun i j order inside => increasing i j order (by omega))
        fun i inside => fresh i (by omega)
      refine ⟨i, by omega, found, low, fun j above inside => ?_⟩
      rcases Nat.lt_succ_iff_lt_or_eq.1 inside with before | rfl
      · exact high j above before
      · exact lt_of_le_of_ne (not_lt.1 less) (Ne.symm (fresh j (Nat.lt_succ_self j)))

omit [LinearOrder Key] in
/-- The loop moves the records from `index` on one place up. -/
theorem shiftRecords_eq (index n i : ℕ) :
    shiftRecords index n records i = if index < i ∧ i ≤ n then records (i - 1) else records i := by
  induction n generalizing records with
  | zero =>
    unfold shiftRecords
    rw [if_neg (by omega)]
  | succ n ih =>
    unfold shiftRecords
    split_ifs with more inside inside
    · rw [ih]
      by_cases last : i = n + 1
      · subst last
        rw [if_neg (by omega), Function.update_self]
        rfl
      · rw [if_pos (by omega), Function.update_of_ne (by omega)]
    · rw [ih, if_neg (by omega), Function.update_of_ne (by omega)]
    · omega
    · rfl

end

/-- The place of a new record and what stands around it. -/
structure InternalPage.Placed (p : InternalPage Key) (key : Key) (v : GlobalAddress) (index : ℕ) : Prop where
  bound : index ≤ p.cnt
  eq : p.withRecord key v =
    { hdr := { p.hdr with lastIndex := p.hdr.lastIndex + 1 }
      records := fun i => if i = index then ⟨key, v⟩ else if index < i ∧ i ≤ p.cnt then p.records (i - 1) else p.records i }
  low : ∀ j < index, (p.records j).key < key
  high : ∀ j, index ≤ j → j < p.cnt → key < (p.records j).key

section
variable {p : InternalPage Key} {key : Key} {v : GlobalAddress}

theorem InternalPage.Ordered.placed (ordered : p.Ordered) (fresh : ∀ i < p.cnt, (p.records i).key ≠ key) :
    ∃ index, p.Placed key v index := by
  obtain ⟨index, bound, found, low, high⟩ := findRecord_insert ordered.increasing fresh
  refine ⟨index, bound, ?_, low, high⟩
  unfold InternalPage.withRecord
  rw [found]
  simp only
  congr 1
  funext i
  by_cases here : i = index
  · subst here
    rw [Function.update_self, if_pos rfl]
  · rw [Function.update_of_ne here, if_neg here, shiftRecords_eq]

variable {index : ℕ} (ordered : p.Ordered) (placed : p.Placed key v index)
include ordered placed

theorem InternalPage.Placed.cnt : (p.withRecord key v).cnt = p.cnt + 1 := by
  have count := ordered.count
  rw [placed.eq]
  simp only [InternalPage.cnt] at count ⊢
  omega

theorem InternalPage.Placed.kids : (p.withRecord key v).kids = Insert.insert (key, v) p.kids := by
  have cnt := placed.cnt ordered
  have bound := placed.bound
  ext q
  simp only [InternalPage.kids, Set.mem_ofPred_eq, Set.mem_insert_iff, cnt]
  rw [placed.eq]
  simp only
  constructor
  · rintro (rfl | ⟨i, inside, rfl⟩)
    · exact .inr (.inl rfl)
    · split_ifs with here shifted
      · exact .inl rfl
      · exact .inr (.inr ⟨i - 1, by omega, rfl⟩)
      · exact .inr (.inr ⟨i, by omega, rfl⟩)
  · rintro (rfl | rfl | ⟨i, inside, rfl⟩)
    · exact .inr ⟨index, by omega, by rw [if_pos rfl]⟩
    · exact .inl rfl
    · rcases Nat.lt_or_ge i index with low | high
      · exact .inr ⟨i, by omega, by rw [if_neg (by omega), if_neg (by omega)]⟩
      · refine .inr ⟨i + 1, by omega, ?_⟩
        rw [if_neg (by omega), if_pos (by omega)]
        rfl

theorem InternalPage.Placed.isOrdered (above : p.hdr.lowest < key) (below : key < p.hdr.highest) : (p.withRecord key v).Ordered := by
  have cnt := placed.cnt ordered
  have bound := placed.bound
  have count := ordered.count
  refine ⟨?_, by omega, fun i inside => ?_, fun i j less inside => ?_⟩
  · rw [cnt, placed.eq]
    simp only
    omega
  · rw [cnt] at inside
    rw [placed.eq]
    simp only
    split_ifs with here shifted
    · exact ⟨above, below⟩
    · exact ordered.inside (i - 1) (by omega)
    · exact ordered.inside i (by omega)
  · rw [cnt] at inside
    rw [placed.eq]
    simp only
    rcases Nat.lt_trichotomy i index with before | rfl | after
    · rw [if_neg (show i ≠ index by omega), if_neg (show ¬ (index < i ∧ i ≤ p.cnt) by omega)]
      split_ifs with here shifted
      · exact placed.low i before
      · rcases Nat.lt_or_ge i (j - 1) with apart | close
        · exact ordered.increasing i (j - 1) apart (by omega)
        · omega
      · exact ordered.increasing i j less (by omega)
    · rw [if_pos rfl, if_neg (show j ≠ i by omega), if_pos (show i < j ∧ j ≤ p.cnt by omega)]
      exact placed.high (j - 1) (by omega) (by omega)
    · rw [if_neg (show i ≠ index by omega), if_pos (show index < i ∧ i ≤ p.cnt by omega), if_neg (show j ≠ index by omega),
        if_pos (show index < j ∧ j ≤ p.cnt by omega)]
      exact ordered.increasing (i - 1) (j - 1) (by omega) (by omega)

theorem InternalPage.Placed.tile : (Page.internal (p.withRecord key v)).tile = (Page.internal p).tile.link key v := by
  have kids := placed.kids ordered
  have hdr : (p.withRecord key v).hdr = { p.hdr with lastIndex := p.hdr.lastIndex + 1 } := by rw [placed.eq]
  simp only [Page.tile, kids, hdr, Tile.link]

end

/-! ## A split -/

section
variable [BoundedOrder Key] {p : InternalPage Key} (ordered : p.Ordered) (three : 3 ≤ p.cnt)
include ordered three

omit [BoundedOrder Key] in
theorem InternalPage.splitKey_inside : p.hdr.lowest < p.splitKey ∧ p.splitKey < p.hdr.highest :=
  ordered.inside (p.cnt / 2) (by omega)

omit [BoundedOrder Key] three in
theorem InternalPage.splitLeft_cnt (sibling : GlobalAddress) : (p.splitLeft sibling).cnt = p.cnt / 2 := by
  have count := ordered.count
  simp only [InternalPage.cnt, InternalPage.splitLeft] at count ⊢
  omega

omit three in
theorem InternalPage.splitRight_cnt : p.splitRight.cnt = p.cnt - (p.cnt / 2 + 1) := by
  have count := ordered.count
  simp only [InternalPage.cnt, InternalPage.splitRight] at count ⊢
  omega

omit [BoundedOrder Key] in
theorem InternalPage.splitLeft_ordered (sibling : GlobalAddress) : (p.splitLeft sibling).Ordered := by
  have cnt := p.splitLeft_cnt ordered sibling
  have count := ordered.count
  refine ⟨?_, by omega, fun i inside => ?_, fun i j less inside => ?_⟩
  · rw [cnt]
    simp only [InternalPage.splitLeft]
    omega
  · rw [cnt] at inside
    exact ⟨(ordered.inside i (by omega)).1, ordered.increasing i (p.cnt / 2) inside (by omega)⟩
  · rw [cnt] at inside
    exact ordered.increasing i j less (by omega)

theorem InternalPage.splitRight_ordered : p.splitRight.Ordered := by
  have cnt := p.splitRight_cnt ordered
  refine ⟨?_, by omega, fun i inside => ?_, fun i j less inside => ?_⟩
  · rw [cnt]
    simp only [InternalPage.splitRight]
    omega
  · rw [cnt] at inside
    simp only [InternalPage.splitRight]
    rw [if_pos (by omega)]
    exact ⟨ordered.increasing (p.cnt / 2) _ (by omega) (by omega), (ordered.inside _ (by omega)).2⟩
  · rw [cnt] at inside
    simp only [InternalPage.splitRight]
    rw [if_pos (by omega), if_pos (by omega)]
    exact ordered.increasing _ _ (by omega) (by omega)

omit [BoundedOrder Key] in
theorem InternalPage.splitLeft_tile (sibling : GlobalAddress) :
    (Page.internal (p.splitLeft sibling)).tile = (Page.internal p).tile.left p.splitKey := by
  have cnt := p.splitLeft_cnt ordered sibling
  have kids : (p.splitLeft sibling).kids = {q ∈ p.kids | q.1 < p.splitKey} := by
    ext q
    simp only [InternalPage.kids, Set.mem_ofPred_eq, cnt]
    constructor
    · rintro (rfl | ⟨i, inside, rfl⟩)
      · exact ⟨.inl rfl, (p.splitKey_inside ordered three).1⟩
      · exact ⟨.inr ⟨i, by omega, rfl⟩, ordered.increasing i (p.cnt / 2) inside (by omega)⟩
    · rintro ⟨rfl | ⟨i, inside, rfl⟩, less⟩
      · exact .inl rfl
      · refine .inr ⟨i, ?_, rfl⟩
        by_contra high
        rcases Nat.lt_or_eq_of_le (not_lt.1 high) with above | here
        · exact lt_asymm less (ordered.increasing (p.cnt / 2) i above inside)
        · rw [← here] at less
          exact lt_irrefl _ less
  exact congrArg (Tile.mk p.hdr.level p.hdr.lowest p.splitKey) kids

theorem InternalPage.splitRight_tile : (Page.internal p.splitRight).tile = (Page.internal p).tile.right p.splitKey := by
  have cnt := p.splitRight_cnt ordered
  have kids : p.splitRight.kids = {q ∈ p.kids | p.splitKey ≤ q.1} := by
    ext q
    simp only [InternalPage.kids, Set.mem_ofPred_eq, cnt]
    constructor
    · rintro (rfl | ⟨i, inside, rfl⟩)
      · exact ⟨.inr ⟨p.cnt / 2, by omega, rfl⟩, le_refl _⟩
      · simp only [InternalPage.splitRight]
        rw [if_pos (by omega)]
        exact ⟨.inr ⟨_, by omega, rfl⟩, le_of_lt (ordered.increasing (p.cnt / 2) _ (by omega) (by omega))⟩
    · rintro ⟨rfl | ⟨i, inside, rfl⟩, le⟩
      · exact absurd (p.splitKey_inside ordered three).1 (not_lt.2 le)
      · rcases Nat.lt_trichotomy i (p.cnt / 2) with low | rfl | high
        · exact absurd (ordered.increasing i (p.cnt / 2) low (by omega)) (not_lt.2 le)
        · exact .inl rfl
        · refine .inr ⟨i - (p.cnt / 2 + 1), by omega, ?_⟩
          simp only [InternalPage.splitRight]
          rw [if_pos (by omega), show p.cnt / 2 + 1 + (i - (p.cnt / 2 + 1)) = i by omega]
  exact congrArg (Tile.mk p.hdr.level p.splitKey p.hdr.highest) kids

end

end Faunus.Sherman
