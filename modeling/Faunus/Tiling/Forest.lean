import Mathlib.Data.Set.Insert
import Mathlib.Logic.Relation
import Mathlib.Order.BoundedOrder.Basic

/-! Search trees whose nodes tile the key space level by level.

A node covers a half-open interval of keys and lists its children with their lower
bounds. On every level the intervals of all nodes partition the keys below `⊤`. A
node that was split off another one is pending until its parent lists it. Upper
bounds of children need not be recorded: they follow from the partition.
-/

set_option autoImplicit false

namespace Tiling

structure Tile (K A : Type) where
  level : ℕ
  lo : K
  hi : K
  /-- Children with their lower bounds. -/
  kids : Set (K × A)

variable {K A : Type} [LinearOrder K]

def Tile.covers (x : Tile K A) (k : K) : Prop := x.lo ≤ k ∧ k < x.hi

/-- The part of a tile below a key. -/
def Tile.left (x : Tile K A) (mid : K) : Tile K A := { x with hi := mid, kids := {p ∈ x.kids | p.1 < mid} }

/-- The part of a tile from a key on. -/
def Tile.right (x : Tile K A) (mid : K) : Tile K A := { x with lo := mid, kids := {p ∈ x.kids | mid ≤ p.1} }

def Tile.link (x : Tile K A) (k : K) (c : A) : Tile K A := { x with kids := insert (k, c) x.kids }

variable [BoundedOrder K]

structure Forest (tiles : A → Option (Tile K A)) (pending : Set A) (root : A) (top : ℕ) : Prop where
  nonempty : ∀ a x, tiles a = some x → x.lo < x.hi
  height : ∀ a x, tiles a = some x → x.level ≤ top
  cover : ∀ l ≤ top, ∀ k < ⊤, ∃ a x, tiles a = some x ∧ x.level = l ∧ x.covers k
  disjoint : ∀ a b x y k, tiles a = some x → tiles b = some y → x.level = y.level → x.covers k → y.covers k → a = b
  rooted : ∃ x, tiles root = some x ∧ x.level = top ∧ x.lo = ⊥
  linked : root ∉ pending
  present : ∀ a ∈ pending, ∃ x, tiles a = some x
  topmost : ∀ a x, tiles a = some x → x.level = top → a ∉ pending → a = root
  kids : ∀ a x k c, tiles a = some x → (k, c) ∈ x.kids →
    x.covers k ∧ c ∉ pending ∧ ∃ y, tiles c = some y ∧ y.level + 1 = x.level ∧ y.lo = k
  first : ∀ a x, tiles a = some x → x.level ≠ 0 → ∃ c, (x.lo, c) ∈ x.kids
  parent : ∀ c y, tiles c = some y → c ∉ pending → y.level < top → ∃ a x, tiles a = some x ∧ (y.lo, c) ∈ x.kids

namespace Forest

variable {tiles : A → Option (Tile K A)} {pending : Set A} {root a b c new : A} {top : ℕ} {x y : Tile K A} {k k' : K}

theorem single [Nontrivial K] (only : ∀ a x, tiles a = some x ↔ a = root ∧ x = ⟨0, ⊥, ⊤, ∅⟩) (none : ∀ a, a ∉ pending) :
    Forest tiles pending root 0 := by
  -- one tile that takes every key
  have there : tiles root = some ⟨0, ⊥, ⊤, ∅⟩ := (only _ _).2 ⟨rfl, rfl⟩
  constructor
  case nonempty =>
    intro a x found
    obtain ⟨-, rfl⟩ := (only a x).1 found
    exact bot_lt_top
  case height =>
    intro a x found
    obtain ⟨-, rfl⟩ := (only a x).1 found
    exact le_refl _
  case cover =>
    intro l low k below
    exact ⟨root, _, there, (Nat.le_zero.1 low).symm, bot_le, below⟩
  case disjoint =>
    intro a b x y k one two _ _ _
    exact ((only a x).1 one).1.trans ((only b y).1 two).1.symm
  case rooted => exact ⟨_, there, rfl, rfl⟩
  case linked => exact none root
  case present => exact fun a waits => absurd waits (none a)
  case topmost =>
    intro a x found _ _
    exact ((only a x).1 found).1
  case kids =>
    intro a x k c found kid
    obtain ⟨-, rfl⟩ := (only a x).1 found
    exact absurd kid (Set.notMem_empty _)
  case first =>
    intro a x found high
    obtain ⟨-, rfl⟩ := (only a x).1 found
    exact absurd rfl high
  case parent =>
    intro c y _ _ low
    exact absurd low (Nat.not_lt_zero _)

/-! ## Intervals -/

theorem covers_lo (forest : Forest tiles pending root top) (there : tiles a = some x) : x.covers x.lo :=
  ⟨le_refl _, forest.nonempty a x there⟩

/-- Of two nodes on one level, the one that begins later begins behind the other. -/
theorem hi_le (forest : Forest tiles pending root top) (one : tiles a = some x) (two : tiles b = some y)
    (level : x.level = y.level) (different : a ≠ b) (order : x.lo ≤ y.lo) : x.hi ≤ y.lo := by
  by_contra overlap
  exact different (forest.disjoint a b x y y.lo one two level ⟨order, not_le.1 overlap⟩ (forest.covers_lo two))

theorem eq_of_lo (forest : Forest tiles pending root top) (one : tiles a = some x) (two : tiles b = some y)
    (level : x.level = y.level) (lo : x.lo = y.lo) : a = b :=
  forest.disjoint a b x y x.lo one two level (forest.covers_lo one) (lo ▸ forest.covers_lo two)

theorem parent_unique (forest : Forest tiles pending root top) (one : tiles a = some x) (two : tiles b = some y)
    (kid : (k, c) ∈ x.kids) (also : (k', c) ∈ y.kids) : a = b ∧ k = k' := by
  obtain ⟨inside, -, z, there, level, lo⟩ := forest.kids a x k c one kid
  obtain ⟨inside', -, z', there', level', lo'⟩ := forest.kids b y k' c two also
  obtain rfl : z = z' := Option.some.inj (there.symm.trans there')
  obtain rfl : k = k' := lo.symm.trans lo'
  exact ⟨forest.disjoint a b x y k one two (level.symm.trans level') inside inside', rfl⟩

/-- Among the children up to a key, the last one covers it, or a pending node does. -/
theorem descend (forest : Forest tiles pending root top) (there : tiles a = some x) (covers : x.covers k)
    (kid : (k', c) ∈ x.kids) (below : k' ≤ k) (last : ∀ p ∈ x.kids, p.1 ≤ k → p.1 ≤ k') :
    ∃ y, tiles c = some y ∧ y.level + 1 = x.level ∧ y.lo = k' ∧
      (y.covers k ∨ ∃ b z, b ∈ pending ∧ tiles b = some z ∧ z.level = y.level ∧ z.covers k) := by
  obtain ⟨inside, -, y, found, level, lo⟩ := forest.kids a x k' c there kid
  refine ⟨y, found, level, lo, ?_⟩
  by_cases high : k < y.hi
  · exact Or.inl ⟨lo ▸ below, high⟩
  rw [not_lt] at high
  obtain ⟨b, z, also, same, held⟩ := forest.cover y.level (forest.height c y found) k (lt_of_lt_of_le covers.2 le_top)
  refine Or.inr ⟨b, z, ?_, also, same, held⟩
  by_contra linked
  -- its parent is the node itself, where it would come later than the last child
  have different : c ≠ b := by
    rintro rfl
    obtain rfl : y = z := Option.some.inj (found.symm.trans also)
    exact absurd held.2 (not_lt.2 high)
  have later : y.hi ≤ z.lo := by
    refine forest.hi_le found also same.symm different ?_
    by_contra early
    have overlap := forest.hi_le also found same different.symm (le_of_lt (not_le.1 early))
    exact absurd (lt_of_lt_of_le held.2 overlap) (not_lt.2 (lo ▸ below))
  have height := forest.height a x there
  obtain ⟨p, w, above, listed⟩ := forest.parent b z also linked (by omega)
  obtain ⟨within, -, z', also', level', -⟩ := forest.kids p w z.lo b above listed
  obtain rfl : z = z' := Option.some.inj (also.symm.trans also')
  have first : k' < z.lo := lo ▸ lt_of_lt_of_le (forest.nonempty c y found) later
  obtain rfl : a = p := forest.disjoint a p x w z.lo there above (by omega)
    ⟨le_trans inside.1 (le_of_lt first), lt_of_le_of_lt held.1 covers.2⟩ within
  obtain rfl : x = w := Option.some.inj (there.symm.trans above)
  exact absurd (last _ listed held.1) (not_le.2 first)

theorem kid_hi_le (forest : Forest tiles pending root top) (there : tiles a = some x) (kid : (k, b) ∈ x.kids)
    (next : (k', c) ∈ x.kids) (order : k < k') (found : tiles b = some y) : y.hi ≤ k' := by
  obtain ⟨-, -, y', found', level, lo⟩ := forest.kids a x k b there kid
  obtain rfl : y = y' := Option.some.inj (found.symm.trans found')
  obtain ⟨-, -, z, also, level', lo'⟩ := forest.kids a x k' c there next
  have different : b ≠ c := by
    rintro rfl
    obtain rfl : y = z := Option.some.inj (found.symm.trans also)
    exact absurd (lo.symm.trans lo') (ne_of_lt order)
  exact lo' ▸ forest.hi_le found also (by omega) different (by rw [lo, lo']; exact le_of_lt order)

theorem kid_hi_le_hi (forest : Forest tiles pending root top) (there : tiles a = some x) (kid : (k, b) ∈ x.kids)
    (found : tiles b = some y) : y.hi ≤ x.hi := by
  -- a child ends where its parent ends, or before
  obtain ⟨inside, -, y', found', level, lo⟩ := forest.kids a x k b there kid
  obtain rfl : y = y' := Option.some.inj (found.symm.trans found')
  by_contra beyond
  rw [not_le] at beyond
  -- the next node on the parent's level has a child that begins inside this one
  obtain ⟨p, w, above, same, held⟩ := forest.cover x.level (forest.height a x there) x.hi (lt_of_lt_of_le beyond le_top)
  have different : a ≠ p := by
    rintro rfl
    obtain rfl : x = w := Option.some.inj (there.symm.trans above)
    exact absurd held.2 (lt_irrefl _)
  have later : x.hi ≤ w.lo := by
    refine forest.hi_le there above same.symm different ?_
    by_contra early
    have overlap := forest.hi_le above there same different.symm (le_of_lt (not_le.1 early))
    exact absurd (lt_of_lt_of_le held.2 overlap) (not_lt.2 (le_of_lt (forest.nonempty a x there)))
  obtain ⟨c, listed⟩ := forest.first p w above (by omega)
  obtain ⟨-, -, z, also, level', lo'⟩ := forest.kids p w w.lo c above listed
  obtain rfl : b = c := by
    refine forest.disjoint b c y z w.lo found also (by omega) ⟨?_, lt_of_le_of_lt held.1 beyond⟩ (lo' ▸ forest.covers_lo also)
    exact lo ▸ le_trans (le_of_lt inside.2) later
  obtain rfl : y = z := Option.some.inj (found.symm.trans also)
  exact absurd (lo.symm.trans lo') (ne_of_lt (lt_of_lt_of_le inside.2 later))

/-- A node that is linked lies inside the node above it that shares a key with it. -/
theorem nested (forest : Forest tiles pending root top) (there : tiles a = some x) (linked : a ∉ pending) (above : tiles b = some y)
    (level : y.level = x.level + 1) (one : x.covers k) (two : y.covers k) : y.lo ≤ x.lo ∧ x.hi ≤ y.hi := by
  have height := forest.height b y above
  obtain ⟨p, w, found, kid⟩ := forest.parent a x there linked (by omega)
  obtain ⟨inside, -, x', there', down, -⟩ := forest.kids p w x.lo a found kid
  obtain rfl : x = x' := Option.some.inj (there.symm.trans there')
  have ends := forest.kid_hi_le_hi found kid there
  obtain rfl : p = b := forest.disjoint p b w y k found above (by omega)
    ⟨le_trans inside.1 one.1, lt_of_lt_of_le one.2 ends⟩ two
  obtain rfl : w = y := Option.some.inj (found.symm.trans above)
  exact ⟨inside.1, ends⟩

/-! ## Whole trees -/

/-- One node lists the other. -/
def Kid (tiles : A → Option (Tile K A)) (a c : A) : Prop := ∃ x k, tiles a = some x ∧ (k, c) ∈ x.kids

theorem reachable (forest : Forest tiles pending root top) (none : ∀ a, a ∉ pending) {distance : ℕ}
    (there : tiles a = some x) (level : x.level + distance = top) : Relation.ReflTransGen (Kid tiles) root a := by
  induction distance generalizing a x with
  | zero =>
    rw [forest.topmost a x there level (none a)]
  | succ distance ih =>
    obtain ⟨p, w, above, listed⟩ := forest.parent a x there (none a) (by omega)
    obtain ⟨-, -, x', there', up, -⟩ := forest.kids p w x.lo a above listed
    obtain rfl : x = x' := Option.some.inj (there.symm.trans there')
    exact (ih above (by omega)).tail ⟨w, x.lo, above, listed⟩

theorem root_hi (forest : Forest tiles pending root top) (none : ∀ a ∈ pending, ∀ x, tiles a = some x → x.level ≠ top)
    (there : tiles root = some x) : x.hi = ⊤ := by
  by_contra below
  obtain ⟨a, y, found, level, held⟩ := forest.cover top (le_refl _) x.hi (lt_top_iff_ne_top.2 below)
  obtain rfl := forest.topmost a y found level fun also => none a also y found level
  obtain rfl : x = y := Option.some.inj (there.symm.trans found)
  exact lt_irrefl _ held.2

/-! ## Changes -/

section
variable [DecidableEq A]

theorem split {mid : K} (forest : Forest tiles pending root top) (there : tiles a = some x) (unused : tiles new = none)
    (inside : x.lo < mid ∧ mid < x.hi) (listed : x.level ≠ 0 → ∃ c, (mid, c) ∈ x.kids) :
    Forest (Function.update (Function.update tiles a (some (x.left mid))) new (some (x.right mid))) (insert new pending)
      root top := by
  -- split a node; what is split off is pending
  have different : a ≠ new := by
    rintro rfl
    simp [there] at unused
  -- a node after the split is one of the halves or an old node
  have cases : ∀ {b y}, Function.update (Function.update tiles a (some (x.left mid))) new (some (x.right mid)) b = some y →
      b = new ∧ y = x.right mid ∨ b = a ∧ y = x.left mid ∨ b ≠ new ∧ b ≠ a ∧ tiles b = some y := by
    intro b y found
    by_cases isNew : b = new
    · subst isNew
      exact Or.inl ⟨rfl, by simpa using found.symm⟩
    · rw [Function.update_of_ne isNew] at found
      by_cases isLeft : b = a
      · subst isLeft
        exact Or.inr (Or.inl ⟨rfl, by simpa using found.symm⟩)
      · rw [Function.update_of_ne isLeft] at found
        exact Or.inr (Or.inr ⟨isNew, isLeft, found⟩)
  have old : ∀ {b z}, b ≠ a → tiles b = some z →
      Function.update (Function.update tiles a (some (x.left mid))) new (some (x.right mid)) b = some z := by
    intro b z other found
    have notNew : b ≠ new := by
      rintro rfl
      simp [unused] at found
    rw [Function.update_of_ne notNew, Function.update_of_ne other, found]
  have left : Function.update (Function.update tiles a (some (x.left mid))) new (some (x.right mid)) a = some (x.left mid) := by
    rw [Function.update_of_ne different, Function.update_self]
  have right : Function.update (Function.update tiles a (some (x.left mid))) new (some (x.right mid)) new =
      some (x.right mid) := Function.update_self ..
  have survives : ∀ {b z}, tiles b = some z → ∃ y,
      Function.update (Function.update tiles a (some (x.left mid))) new (some (x.right mid)) b = some y ∧
        y.level = z.level ∧ y.lo = z.lo := by
    intro b z found
    by_cases here : b = a
    · subst here
      obtain rfl : x = z := Option.some.inj (there.symm.trans found)
      exact ⟨_, left, rfl, rfl⟩
    · exact ⟨z, old here found, rfl, rfl⟩
  refine ⟨fun b y found => ?_, fun b y found => ?_, fun l bound k below => ?_, fun b c y z k one two level cy cz => ?_, ?_, ?_,
    ?_, fun b y found level linked => ?_, fun b y k c found kid => ?_, fun b y found level => ?_, fun c y found linked level => ?_⟩
  · rcases cases found with ⟨-, rfl⟩ | ⟨-, rfl⟩ | ⟨-, -, same⟩
    · exact inside.2
    · exact inside.1
    · exact forest.nonempty b y same
  · rcases cases found with ⟨-, rfl⟩ | ⟨-, rfl⟩ | ⟨-, -, same⟩
    · exact forest.height a x there
    · exact forest.height a x there
    · exact forest.height b y same
  · obtain ⟨b, z, found, level, covers⟩ := forest.cover l bound k below
    by_cases here : b = a
    · subst here
      obtain rfl : x = z := Option.some.inj (there.symm.trans found)
      rcases lt_or_ge k mid with low | high
      · exact ⟨b, _, left, level, covers.1, low⟩
      · exact ⟨new, _, right, level, high, covers.2⟩
    · exact ⟨b, z, old here found, level, covers⟩
  · have whole : ∀ {w : Tile K A}, w = x.right mid ∨ w = x.left mid → w.covers k → x.covers k := by
      rintro w (rfl | rfl) covers
      · exact ⟨le_trans (le_of_lt inside.1) covers.1, covers.2⟩
      · exact ⟨covers.1, lt_trans covers.2 inside.2⟩
    rcases cases one with ⟨rfl, rfl⟩ | ⟨rfl, rfl⟩ | ⟨-, notHere, same⟩ <;>
      rcases cases two with ⟨rfl, rfl⟩ | ⟨rfl, rfl⟩ | ⟨-, notThere, also⟩
    · rfl
    · exact absurd cz.2 (not_lt.2 cy.1)
    · exact absurd (forest.disjoint a c x z k there also level (whole (Or.inl rfl) cy) cz).symm notThere
    · exact absurd cy.2 (not_lt.2 cz.1)
    · rfl
    · exact absurd (forest.disjoint b c x z k there also level (whole (Or.inr rfl) cy) cz).symm notThere
    · exact absurd (forest.disjoint b a y x k same there level cy (whole (Or.inl rfl) cz)) notHere
    · exact absurd (forest.disjoint b c y x k same there level cy (whole (Or.inr rfl) cz)) notHere
    · exact forest.disjoint b c y z k same also level cy cz
  · obtain ⟨z, found, level, lo⟩ := forest.rooted
    obtain ⟨y, found', level', lo'⟩ := survives found
    exact ⟨y, found', level'.trans level, lo'.trans lo⟩
  · rintro (rfl | also)
    · obtain ⟨z, found, -⟩ := forest.rooted
      simp [unused] at found
    · exact forest.linked also
  · rintro b (rfl | also)
    · exact ⟨_, right⟩
    · obtain ⟨z, found⟩ := forest.present b also
      obtain ⟨y, found', -⟩ := survives found
      exact ⟨y, found'⟩
  · rw [Set.mem_insert_iff, not_or] at linked
    rcases cases found with ⟨rfl, -⟩ | ⟨rfl, rfl⟩ | ⟨-, -, same⟩
    · exact absurd rfl linked.1
    · exact forest.topmost b x there level linked.2
    · exact forest.topmost b y same level linked.2
  · have whole : ∃ z p, tiles p = some z ∧ (k, c) ∈ z.kids ∧ z.level = y.level ∧ (z.covers k → y.covers k) := by
      rcases cases found with ⟨rfl, rfl⟩ | ⟨rfl, rfl⟩ | ⟨-, -, same⟩
      · exact ⟨x, a, there, kid.1, rfl, fun covers => ⟨kid.2, covers.2⟩⟩
      · exact ⟨x, b, there, kid.1, rfl, fun covers => ⟨covers.1, kid.2⟩⟩
      · exact ⟨y, b, same, kid, rfl, id⟩
    obtain ⟨z, p, above, listed, same, covers⟩ := whole
    obtain ⟨within, linked, w, child, level, lo⟩ := forest.kids p z k c above listed
    obtain ⟨w', child', level', lo'⟩ := survives child
    refine ⟨covers within, ?_, w', child', by omega, lo'.trans lo⟩
    rintro (rfl | also)
    · simp [unused] at child
    · exact linked also
  · rcases cases found with ⟨rfl, rfl⟩ | ⟨rfl, rfl⟩ | ⟨-, -, same⟩
    · obtain ⟨c, kid⟩ := listed level
      exact ⟨c, kid, le_refl _⟩
    · obtain ⟨c, kid⟩ := forest.first b x there level
      exact ⟨c, kid, inside.1⟩
    · exact forest.first b y same level
  · rw [Set.mem_insert_iff, not_or] at linked
    have before : ∃ z, tiles c = some z ∧ z.level = y.level ∧ z.lo = y.lo := by
      rcases cases found with ⟨rfl, -⟩ | ⟨rfl, rfl⟩ | ⟨-, -, same⟩
      · exact absurd rfl linked.1
      · exact ⟨x, there, rfl, rfl⟩
      · exact ⟨y, same, rfl, rfl⟩
    obtain ⟨z, found', level', lo⟩ := before
    obtain ⟨p, w, above, listed'⟩ := forest.parent c z found' linked.2 (by omega)
    rw [lo] at listed'
    by_cases here : p = a
    · subst here
      obtain rfl : x = w := Option.some.inj (there.symm.trans above)
      rcases lt_or_ge y.lo mid with low | high
      · exact ⟨p, _, left, listed', low⟩
      · exact ⟨new, _, right, listed', high⟩
    · exact ⟨p, w, old here above, listed'⟩

theorem link (forest : Forest tiles pending root top) (there : tiles a = some x) (waits : c ∈ pending)
    (found : tiles c = some y) (level : x.level = y.level + 1) (covers : x.covers y.lo) :
    Forest (Function.update tiles a (some (x.link y.lo c))) (pending \ {c}) root top := by
  -- list a pending node in its parent
  have cases : ∀ {b z}, Function.update tiles a (some (x.link y.lo c)) b = some z →
      ∃ w, tiles b = some w ∧ z.level = w.level ∧ z.lo = w.lo ∧ z.hi = w.hi ∧
        ∀ p ∈ z.kids, p ∈ w.kids ∨ b = a ∧ p = (y.lo, c) := by
    intro b z is
    by_cases here : b = a
    · subst here
      obtain rfl : x.link y.lo c = z := by simpa using is
      exact ⟨x, there, rfl, rfl, rfl, fun p kid => kid.symm.imp id fun eq => ⟨rfl, eq⟩⟩
    · rw [Function.update_of_ne here] at is
      exact ⟨z, is, rfl, rfl, rfl, fun p kid => Or.inl kid⟩
  have survives : ∀ {b w}, tiles b = some w → ∃ z, Function.update tiles a (some (x.link y.lo c)) b = some z ∧
      z.level = w.level ∧ z.lo = w.lo ∧ z.hi = w.hi ∧ w.kids ⊆ z.kids := by
    intro b w is
    by_cases here : b = a
    · subst here
      obtain rfl : x = w := Option.some.inj (there.symm.trans is)
      exact ⟨_, Function.update_self .., rfl, rfl, rfl, Set.subset_insert _ _⟩
    · exact ⟨w, by rw [Function.update_of_ne here, is], rfl, rfl, rfl, subset_rfl⟩
  have same : ∀ {z w : Tile K A} {k : K}, z.lo = w.lo → z.hi = w.hi → (z.covers k ↔ w.covers k) := by
    intro z w k lo hi
    simp only [Tile.covers, lo, hi]
  refine ⟨fun b z is => ?_, fun b z is => ?_, fun l bound k below => ?_, fun b d z w k one two level cz cw => ?_, ?_,
    fun also => forest.linked also.1, fun b also => ?_, fun b z is top linked => ?_, fun b z k d is kid => ?_, fun b z is high => ?_,
    fun d z is linked below => ?_⟩
  · obtain ⟨w, was, -, lo, hi, -⟩ := cases is
    rw [lo, hi]
    exact forest.nonempty b w was
  · obtain ⟨w, was, eq, -⟩ := cases is
    exact eq ▸ forest.height b w was
  · obtain ⟨b, w, was, eq, held⟩ := forest.cover l bound k below
    obtain ⟨z, is, eq', lo, hi, -⟩ := survives was
    exact ⟨b, z, is, eq'.trans eq, (same lo hi).2 held⟩
  · obtain ⟨z', was, eq, lo, hi, -⟩ := cases one
    obtain ⟨w', was', eq', lo', hi', -⟩ := cases two
    exact forest.disjoint b d z' w' k was was' (by omega) ((same lo hi).1 cz) ((same lo' hi').1 cw)
  · obtain ⟨w, was, eq, bottom⟩ := forest.rooted
    obtain ⟨z, is, eq', lo, -, -⟩ := survives was
    exact ⟨z, is, eq'.trans eq, lo.trans bottom⟩
  · obtain ⟨w, was⟩ := forest.present b also.1
    obtain ⟨z, is, -⟩ := survives was
    exact ⟨z, is⟩
  · obtain ⟨w, was, eq, -⟩ := cases is
    refine forest.topmost b w was (by omega) fun also => linked ⟨also, ?_⟩
    -- the linked node stands below its parent
    rintro rfl
    obtain rfl : w = y := Option.some.inj (was.symm.trans found)
    have := forest.height a x there
    omega
  · obtain ⟨w, was, eq, lo, hi, kids⟩ := cases is
    rcases kids _ kid with listed | ⟨rfl, pair⟩
    · obtain ⟨within, notPending, v, child, down, low⟩ := forest.kids b w k d was listed
      obtain ⟨u, isChild, eq', lo', -, -⟩ := survives child
      exact ⟨(same lo hi).2 within, fun also => notPending also.1, u, isChild, by omega, lo'.trans low⟩
    · obtain ⟨rfl, rfl⟩ := Prod.mk.inj pair
      obtain rfl : x = w := Option.some.inj (there.symm.trans was)
      obtain ⟨u, isChild, eq', lo', -, -⟩ := survives found
      exact ⟨(same lo hi).2 covers, fun also => also.2 rfl, u, isChild, by omega, lo'⟩
  · obtain ⟨w, was, eq, lo, -, -⟩ := cases is
    obtain ⟨d, kid⟩ := forest.first b w was (by omega)
    obtain ⟨z', is', -, -, -, more⟩ := survives was
    obtain rfl : z = z' := Option.some.inj (is.symm.trans is')
    exact ⟨d, lo ▸ more kid⟩
  · obtain ⟨w, was, eq, lo, -, -⟩ := cases is
    by_cases here : d = c
    · subst here
      obtain rfl : w = y := Option.some.inj (was.symm.trans found)
      exact ⟨a, _, Function.update_self .., Or.inl (by rw [lo])⟩
    · obtain ⟨p, v, above, listed⟩ := forest.parent d w was (fun also => linked ⟨also, here⟩) (by omega)
      obtain ⟨v', above', -, -, -, more⟩ := survives above
      exact ⟨p, v', above', lo ▸ more listed⟩

/-- Put a new root above the old one and a pending node beside it. -/
theorem grow (forest : Forest tiles pending root top) (unused : tiles new = none) (waits : c ∈ pending)
    (found : tiles c = some y) (level : y.level = top) :
    Forest (Function.update tiles new (some ⟨top + 1, ⊥, ⊤, {(⊥, root), (y.lo, c)}⟩)) (pending \ {c}) new (top + 1) := by
  obtain ⟨x, there, rootLevel, bottom⟩ := forest.rooted
  have cases : ∀ {b z}, Function.update tiles new (some ⟨top + 1, ⊥, ⊤, {(⊥, root), (y.lo, c)}⟩) b = some z →
      b = new ∧ z = ⟨top + 1, ⊥, ⊤, {(⊥, root), (y.lo, c)}⟩ ∨ b ≠ new ∧ tiles b = some z := by
    intro b z is
    by_cases isNew : b = new
    · subst isNew
      exact Or.inl ⟨rfl, by simpa using is.symm⟩
    · rw [Function.update_of_ne isNew] at is
      exact Or.inr ⟨isNew, is⟩
  have old : ∀ {b z}, tiles b = some z →
      Function.update tiles new (some ⟨top + 1, ⊥, ⊤, {(⊥, root), (y.lo, c)}⟩) b = some z := by
    intro b z was
    rw [Function.update_of_ne, was]
    rintro rfl
    simp [unused] at was
  refine ⟨fun b z is => ?_, fun b z is => ?_, fun l bound k below => ?_, fun b d z w k one two same cz cw => ?_,
    ⟨_, Function.update_self .., rfl, rfl⟩, ?_, fun b also => ?_, fun b z is high linked => ?_, fun b z k d is kid => ?_,
    fun b z is high => ?_, fun d z is linked below => ?_⟩
  · rcases cases is with ⟨-, rfl⟩ | ⟨-, was⟩
    · exact lt_of_le_of_lt bot_le (lt_of_lt_of_le (forest.nonempty root x there) le_top)
    · exact forest.nonempty b z was
  · rcases cases is with ⟨-, rfl⟩ | ⟨-, was⟩
    · exact le_refl _
    · exact le_trans (forest.height b z was) (Nat.le_succ top)
  · rcases Nat.lt_or_ge top l with high | low
    · exact ⟨new, _, Function.update_self .., by simp; omega, bot_le, below⟩
    · obtain ⟨b, z, was, eq, held⟩ := forest.cover l low k below
      exact ⟨b, z, old was, eq, held⟩
  · rcases cases one with ⟨rfl, rfl⟩ | ⟨-, was⟩ <;> rcases cases two with ⟨rfl, rfl⟩ | ⟨-, was'⟩
    · rfl
    · have := forest.height d w was'
      simp only at same
      omega
    · have := forest.height b z was
      simp only at same
      omega
    · exact forest.disjoint b d z w k was was' same cz cw
  · rintro ⟨also, -⟩
    obtain ⟨z, was⟩ := forest.present new also
    simp [unused] at was
  · obtain ⟨z, was⟩ := forest.present b also.1
    exact ⟨z, old was⟩
  · rcases cases is with ⟨rfl, -⟩ | ⟨-, was⟩
    · rfl
    · have := forest.height b z was
      omega
  · rcases cases is with ⟨rfl, rfl⟩ | ⟨-, was⟩
    · rcases kid with pair | pair
      · obtain ⟨rfl, rfl⟩ := Prod.mk.inj pair
        refine ⟨⟨le_refl _, lt_of_le_of_lt bot_le (lt_of_lt_of_le (forest.nonempty d x there) le_top)⟩,
          fun also => forest.linked also.1, x, old there, by simp [rootLevel], bottom⟩
      · obtain ⟨rfl, rfl⟩ := Prod.mk.inj pair
        exact ⟨⟨bot_le, lt_of_lt_of_le (forest.nonempty d y found) le_top⟩, fun also => also.2 rfl, y, old found,
          by simp [level], rfl⟩
    · obtain ⟨within, notPending, w, child, down, lo⟩ := forest.kids b z k d was kid
      exact ⟨within, fun also => notPending also.1, w, old child, down, lo⟩
  · rcases cases is with ⟨rfl, rfl⟩ | ⟨-, was⟩
    · exact ⟨root, Or.inl rfl⟩
    · exact forest.first b z was high
  · rcases cases is with ⟨rfl, rfl⟩ | ⟨-, was⟩
    · exact absurd below (lt_irrefl _)
    · by_cases here : d = c
      · subst here
        obtain rfl : z = y := Option.some.inj (was.symm.trans found)
        exact ⟨new, _, Function.update_self .., Or.inr rfl⟩
      · have notPending : d ∉ pending := fun also => linked ⟨also, here⟩
        rcases Nat.lt_or_ge z.level top with low | high
        · obtain ⟨p, v, above, listed⟩ := forest.parent d z was notPending low
          exact ⟨p, v, old above, listed⟩
        · obtain rfl := forest.topmost d z was (by omega) notPending
          obtain rfl : z = x := Option.some.inj (was.symm.trans there)
          exact ⟨new, _, Function.update_self .., Or.inl (by rw [bottom])⟩

end

end Forest

end Tiling
