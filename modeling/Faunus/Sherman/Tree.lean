import Faunus.Sherman.Operations
import Faunus.Tiling.Forest

/-! Sherman pages as a search tree whose pages are linked level by level.

The pages of a level tile the keys and every page points to the next one. A page that
was split off is pending until its separator is in the parent.
-/

set_option autoImplicit false

namespace Faunus.Sherman

open Interleaving Tiling

variable {Key Value : Type} [LinearOrder Key]

def Header.covers (h : Header Key) (key : Key) : Prop := h.lowest ≤ key ∧ key < h.highest

instance Header.decidableCovers (h : Header Key) (key : Key) : Decidable (h.covers key) := inferInstanceAs (Decidable (_ ∧ _))

/-- The children of an internal page with the keys they start at. -/
def InternalPage.kids (p : InternalPage Key) : Set (Key × GlobalAddress) :=
  {q | q = (p.hdr.lowest, p.hdr.leftmostPtr) ∨ ∃ i < p.cnt, q = ((p.records i).key, (p.records i).ptr)}

def Page.tile : Page Key → Tile Key GlobalAddress
  | .leaf p => ⟨p.hdr.level, p.hdr.lowest, p.hdr.highest, ∅⟩
  | .internal p => ⟨p.hdr.level, p.hdr.lowest, p.hdr.highest, p.kids⟩

section
variable (p : Page Key)

omit [LinearOrder Key] in
@[simp] theorem Page.tile_level : p.tile.level = p.hdr.level := by cases p <;> rfl

omit [LinearOrder Key] in
@[simp] theorem Page.tile_lo : p.tile.lo = p.hdr.lowest := by cases p <;> rfl

omit [LinearOrder Key] in
@[simp] theorem Page.tile_hi : p.tile.hi = p.hdr.highest := by cases p <;> rfl

theorem Page.tile_covers (key : Key) : p.tile.covers key ↔ p.hdr.covers key := by
  rw [Tile.covers, Page.tile_lo, Page.tile_hi]
  rfl

end

def tiles (m : Memory Key Value) (a : GlobalAddress) : Option (Tile Key GlobalAddress) := (m.pages a).map Page.tile

omit [LinearOrder Key] in
theorem tiles_eq_some {m : Memory Key Value} {a : GlobalAddress} {x : Tile Key GlobalAddress} :
    tiles m a = some x ↔ ∃ p, m.pages a = some p ∧ p.tile = x := by
  simp [tiles]

omit [LinearOrder Key] in
theorem tiles_page {m : Memory Key Value} {a : GlobalAddress} {p : Page Key} (there : m.pages a = some p) :
    tiles m a = some p.tile :=
  tiles_eq_some.2 ⟨p, there, rfl⟩

/-- The records of an internal page are sorted and stand inside its range. -/
structure InternalPage.Ordered (p : InternalPage Key) : Prop where
  count : p.hdr.lastIndex + 1 = p.cnt
  some : 0 < p.cnt
  inside : ∀ i < p.cnt, p.hdr.lowest < (p.records i).key ∧ (p.records i).key < p.hdr.highest
  increasing : ∀ i j, i < j → j < p.cnt → (p.records i).key < (p.records j).key

/-- The pages of a level are linked in the order of their keys. -/
def NextPage (m : Memory Key Value) (a b : GlobalAddress) : Prop :=
  ∃ p q, m.pages a = some p ∧ m.pages b = some q ∧ p.hdr.siblingPtr = b ∧ q.hdr.level = p.hdr.level ∧
    q.hdr.lowest = p.hdr.highest

variable [BoundedOrder Key]

/-- A tree in which the pages of `pending` are linked by their left neighbours only. -/
structure Linked (m : Memory Key Value) (pending : Set GlobalAddress) (top : ℕ) : Prop where
  forest : Forest (tiles m) pending m.rootOffset top
  null : m.pages .null = none
  issued : ∀ a p, m.pages a = some p → a ∈ m.pagesIssued
  leaf : ∀ a p, m.pages a = some (.leaf p) → p.hdr.level = 0 ∧ p.hdr.leftmostPtr = .null
  internal : ∀ a p, m.pages a = some (.internal p) → p.hdr.level ≠ 0 ∧ p.Ordered
  sibling : ∀ a p, m.pages a = some p → p.hdr.highest = ⊤ ∧ p.hdr.siblingPtr = .null ∨ NextPage m a p.hdr.siblingPtr

section
variable {m : Memory Key Value} {pending : Set GlobalAddress} {top : ℕ} {a b : GlobalAddress} {p q : Page Key} {key : Key}

theorem Linked.not_null (linked : Linked m pending top) (there : m.pages a = some p) : a ≠ .null := by
  rintro rfl
  rw [linked.null] at there
  cases there

theorem Linked.nonempty (linked : Linked m pending top) (there : m.pages a = some p) : p.hdr.lowest < p.hdr.highest := by
  have := linked.forest.nonempty a _ (tiles_page there)
  rwa [Page.tile_lo, Page.tile_hi] at this

theorem Linked.child (linked : Linked m pending top) {n : InternalPage Key} (there : m.pages a = some (.internal n)) {k : Key}
    (kid : (k, b) ∈ n.kids) : ∃ q, m.pages b = some q ∧ q.hdr.level + 1 = n.hdr.level ∧ q.hdr.lowest = k := by
  obtain ⟨-, -, y, found, level, lo⟩ := linked.forest.kids a _ k b (tiles_page there) kid
  obtain ⟨q, page, rfl⟩ := tiles_eq_some.1 found
  rw [Page.tile_level] at level
  rw [Page.tile_lo] at lo
  exact ⟨q, page, level, lo⟩

theorem Linked.leftmost (linked : Linked m pending top) {n : InternalPage Key} (there : m.pages a = some (.internal n)) :
    n.hdr.leftmostPtr ≠ .null := by
  obtain ⟨q, page, -⟩ := linked.child there (.inl rfl)
  exact linked.not_null page

theorem Linked.next (linked : Linked m pending top) (there : m.pages a = some p) (behind : p.hdr.highest ≤ key) (below : key < ⊤) :
    p.hdr.siblingPtr ≠ .null ∧ p.hdr.siblingPtr ≠ a ∧
      ∃ q, m.pages p.hdr.siblingPtr = some q ∧ q.hdr.level = p.hdr.level ∧ q.hdr.lowest = p.hdr.highest := by
  rcases linked.sibling a p there with ⟨last, -⟩ | ⟨p', q, here, next, -, level, lowest⟩
  · rw [last] at behind
    exact absurd below (not_lt.2 behind)
  · obtain rfl : p = p' := Option.some.inj (there.symm.trans here)
    refine ⟨linked.not_null next, ?_, q, next, level, lowest⟩
    intro same
    rw [same] at next
    obtain rfl : p = q := Option.some.inj (there.symm.trans next)
    exact absurd lowest (ne_of_lt (linked.nonempty there))

end

/-! ## The child a search goes to -/

omit [BoundedOrder Key] in
theorem InternalPage.Ordered.nextLevel_kid {p : InternalPage Key} (ordered : p.Ordered) {key : Key} (low : p.hdr.lowest ≤ key) :
    ∃ k, (k, p.nextLevel key) ∈ p.kids ∧ k ≤ key ∧ ∀ q ∈ p.kids, q.1 ≤ key → q.1 ≤ k := by
  -- the search takes the last child that starts at or before the key
  unfold InternalPage.nextLevel
  split_ifs with first
  · refine ⟨p.hdr.lowest, .inl rfl, low, ?_⟩
    rintro q (rfl | ⟨i, bound, rfl⟩) le
    · exact le_refl _
    · rcases Nat.eq_zero_or_pos i with rfl | positive
      · exact absurd (lt_of_lt_of_le first le) (lt_irrefl _)
      · exact absurd (lt_trans first (ordered.increasing 0 i positive bound)) (not_lt.2 le)
  · -- the record before the first larger one, or the last one
    have kid : ∀ i < p.cnt, (p.records i).key ≤ key → (∀ j, i < j → j < p.cnt → key < (p.records j).key) →
        ∃ k, (k, (p.records i).ptr) ∈ p.kids ∧ k ≤ key ∧ ∀ q ∈ p.kids, q.1 ≤ key → q.1 ≤ k := by
      intro i bound le later
      refine ⟨(p.records i).key, .inr ⟨i, bound, rfl⟩, le, ?_⟩
      rintro q (rfl | ⟨j, bound', rfl⟩) le'
      · exact le_of_lt (ordered.inside i bound).1
      · rcases Nat.lt_trichotomy i j with less | rfl | more
        · exact absurd le' (not_le.2 (later j less bound'))
        · exact le_refl _
        · exact le_of_lt (ordered.increasing j i more bound)
    rw [not_lt] at first
    split
    · rename_i i found
      obtain ⟨larger, n, bound, rfl, before⟩ := List.find?_eq_some_iff_getElem.1 found
      simp only [List.length_drop, List.length_range, List.getElem_drop, List.getElem_range, decide_eq_true_eq,
        Bool.not_eq_true', decide_eq_false_iff_not, not_lt] at bound larger before ⊢
      rw [show 1 + n - 1 = n by omega]
      refine kid n (by omega) ?_ fun j less inside => ?_
      · rcases Nat.eq_zero_or_pos n with rfl | positive
        · exact first
        · have := before (n - 1) (by omega)
          rwa [show 1 + (n - 1) = n by omega] at this
      · rcases Nat.lt_or_ge (1 + n) j with above | here
        · exact lt_trans larger (ordered.increasing _ j above inside)
        · rwa [show j = 1 + n by omega]
    · rename_i none
      have some := ordered.some
      refine kid (p.cnt - 1) (by omega) ?_ fun j less inside => by omega
      rcases Nat.eq_zero_or_pos (p.cnt - 1) with zero | positive
      · rw [zero]
        exact first
      · have all := List.find?_eq_none.1 none (p.cnt - 1) (List.mem_iff_getElem.2 ⟨p.cnt - 2, by simp; omega, by simp; omega⟩)
        simpa using all

section
variable {m : Memory Key Value} {pending : Set GlobalAddress} {top : ℕ} {a b : GlobalAddress} {p q : Page Key} {key : Key}

theorem Linked.internal_of_level {level : ℕ} (linked : Linked m pending top) (there : m.pages a = some p)
    (high : level < p.hdr.level) :
    ∃ n, p = .internal n := by
  cases p with
  | leaf n =>
    rw [Page.hdr, (linked.leaf a n there).1] at high
    exact absurd high (Nat.not_lt_zero _)
  | internal n => exact ⟨n, rfl⟩

theorem Linked.level_le (linked : Linked m pending top) (there : m.pages a = some p) : p.hdr.level ≤ top := by
  have := linked.forest.height a _ (tiles_page there)
  rwa [Page.tile_level] at this

theorem Linked.nextLevel_page {n : InternalPage Key} (linked : Linked m pending top) (there : m.pages a = some (.internal n))
    (low : n.hdr.lowest ≤ key) :
    ∃ q, m.pages (n.nextLevel key) = some q ∧ q.hdr.level + 1 = n.hdr.level ∧ q.hdr.lowest ≤ key := by
  obtain ⟨k, kid, le, -⟩ := (linked.internal a n there).2.nextLevel_kid low
  obtain ⟨q, page, level, starts⟩ := linked.child there kid
  exact ⟨q, page, level, starts ▸ le⟩

theorem Linked.root (linked : Linked m pending top) :
    ∃ p, m.pages m.rootOffset = some p ∧ p.hdr.level = top ∧ p.hdr.lowest = ⊥ := by
  obtain ⟨x, found, level, lo⟩ := linked.forest.rooted
  obtain ⟨p, there, rfl⟩ := tiles_eq_some.1 found
  rw [Page.tile_level] at level
  rw [Page.tile_lo] at lo
  exact ⟨p, there, level, lo⟩

theorem Linked.leaf_of_zero (linked : Linked m pending top) (there : m.pages a = some p) (on : p.hdr.level = 0) :
    ∃ n, p = .leaf n := by
  cases p with
  | leaf n => exact ⟨n, rfl⟩
  | internal n => exact absurd on (linked.internal a n there).1

theorem Linked.leaf_of_level (linked : Linked m pending top) (there : m.pages a = some p) (on : p.hdr.level = 0) :
    p.hdr.leftmostPtr = .null := by
  cases p with
  | leaf page => exact (linked.leaf a page there).2
  | internal page => exact absurd on (linked.internal a page there).1

end

end Faunus.Sherman
