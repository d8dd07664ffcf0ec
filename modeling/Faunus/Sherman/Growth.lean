import Faunus.Sherman.Records

/-! How the linked tree changes: a record is added, a page is split, the root is replaced. -/

set_option autoImplicit false

namespace Faunus.Sherman

open Tiling

variable {Key Value : Type}

def Memory.issuePage (m : Memory Key Value) (a : GlobalAddress) : Memory Key Value := { m with pagesIssued := a :: m.pagesIssued }

variable [LinearOrder Key]

omit [LinearOrder Key] in
theorem tiles_setPage (m : Memory Key Value) (a : GlobalAddress) (p : Page Key) :
    tiles (m.setPage a p) = Function.update (tiles m) a (some p.tile) := by
  funext b
  by_cases here : b = a
  · subst here
    simp [tiles, Memory.setPage]
  · simp [tiles, Memory.setPage, here]

omit [LinearOrder Key] in
theorem setPage_cases {m : Memory Key Value} {a b : GlobalAddress} {p q : Page Key} (found : (m.setPage a p).pages b = some q) :
    b = a ∧ q = p ∨ b ≠ a ∧ m.pages b = some q := by
  by_cases here : b = a
  · subst here
    exact .inl ⟨rfl, by simpa [Memory.setPage] using found.symm⟩
  · exact .inr ⟨here, by simpa [Memory.setPage, here] using found⟩

/-- Two headers that look the same from outside. -/
structure SameFace (h h' : Header Key) : Prop where
  level : h'.level = h.level
  lowest : h'.lowest = h.lowest
  highest : h'.highest = h.highest
  siblingPtr : h'.siblingPtr = h.siblingPtr

variable [BoundedOrder Key] {m : Memory Key Value} {pending pending' : Set GlobalAddress} {top : ℕ} {a b new : GlobalAddress}
  {p p' q : Page Key}

def Page.Proper : Page Key → Prop
  | .leaf p => p.hdr.level = 0 ∧ p.hdr.leftmostPtr = .null
  | .internal p => p.hdr.level ≠ 0 ∧ p.Ordered

theorem Linked.proper (linked : Linked m pending top) (there : m.pages a = some p) : p.Proper := by
  cases p with
  | leaf page => exact linked.leaf a page there
  | internal page => exact linked.internal a page there

theorem Linked.of_pages (forest : Forest (tiles m) pending m.rootOffset top) (null : m.pages .null = none)
    (pages : ∀ a p, m.pages a = some p → a ∈ m.pagesIssued ∧ p.Proper ∧
      (p.hdr.highest = ⊤ ∧ p.hdr.siblingPtr = .null ∨ NextPage m a p.hdr.siblingPtr)) : Linked m pending top where
  forest := forest
  null := null
  issued a p there := (pages a p there).1
  leaf a _ there := (pages a _ there).2.1
  internal a _ there := (pages a _ there).2.1
  sibling a p there := (pages a p there).2.2

theorem Linked.congr {m' : Memory Key Value} (linked : Linked m pending top) (pages : m'.pages = m.pages)
    (root : m'.rootOffset = m.rootOffset) (issued : m'.pagesIssued = m.pagesIssued) : Linked m' pending top := by
  refine .of_pages ?_ (by rw [pages, linked.null]) fun a p there => ?_
  · rw [root, show tiles m' = tiles m by funext a; simp only [tiles, pages]]
    exact linked.forest
  · rw [pages] at there
    refine ⟨issued ▸ linked.issued a p there, linked.proper there, ?_⟩
    simp only [NextPage, pages]
    exact linked.sibling a p there

theorem Linked.replace (linked : Linked m pending top) (there : m.pages a = some p) (face : SameFace p.hdr p'.hdr)
    (proper : p'.Proper) (forest : Forest (Function.update (tiles m) a (some p'.tile)) pending' m.rootOffset top) :
    Linked (m.setPage a p') pending' top := by
  -- rewrite a page that looks the same from outside
  have survives : ∀ {b q}, m.pages b = some q → ∃ q', (m.setPage a p').pages b = some q' ∧ SameFace q.hdr q'.hdr := by
    intro b q found
    by_cases here : b = a
    · subst here
      obtain rfl : p = q := Option.some.inj (there.symm.trans found)
      exact ⟨p', by simp [Memory.setPage], face⟩
    · exact ⟨q, by simpa [Memory.setPage, here] using found, rfl, rfl, rfl, rfl⟩
  refine .of_pages (by rw [tiles_setPage]; exact forest) ?_ fun b q found => ?_
  · have other : GlobalAddress.null ≠ a := (linked.not_null there).symm
    simpa [Memory.setPage, other] using linked.null
  · -- what the page was before
    obtain ⟨old, before, same, kind⟩ : ∃ old, m.pages b = some old ∧ SameFace old.hdr q.hdr ∧ q.Proper := by
      rcases setPage_cases found with ⟨rfl, rfl⟩ | ⟨-, was⟩
      · exact ⟨p, there, face, proper⟩
      · exact ⟨q, was, ⟨rfl, rfl, rfl, rfl⟩, linked.proper was⟩
    refine ⟨linked.issued b old before, kind, ?_⟩
    rw [same.highest, same.siblingPtr]
    rcases linked.sibling b old before with last | ⟨old', r, here, next, -, level, lowest⟩
    · exact .inl last
    · obtain rfl : old = old' := Option.some.inj (before.symm.trans here)
      obtain ⟨r', found', face'⟩ := survives next
      exact .inr ⟨q, r', found, found', same.siblingPtr, by rw [face'.level, same.level, level],
        by rw [face'.lowest, same.highest, lowest]⟩

/-- Headers of the halves of a page. -/
structure Halves (h left right : Header Key) (mid : Key) (sibling : GlobalAddress) : Prop where
  leftLevel : left.level = h.level
  leftLowest : left.lowest = h.lowest
  leftHighest : left.highest = mid
  leftSibling : left.siblingPtr = sibling
  rightLevel : right.level = h.level
  rightLowest : right.lowest = mid
  rightHighest : right.highest = h.highest
  rightSibling : right.siblingPtr = h.siblingPtr

def Memory.divided (m : Memory Key Value) (a new : GlobalAddress) (left right : Page Key) : Memory Key Value :=
  ((m.issuePage new).setPage new right).setPage a left

omit [LinearOrder Key] [BoundedOrder Key] in
theorem tiles_divided (left right : Page Key) (other : a ≠ new) :
    tiles (m.divided a new left right) =
      Function.update (Function.update (tiles m) a (some left.tile)) new (some right.tile) := by
  rw [Memory.divided, tiles_setPage, tiles_setPage, Function.update_comm other]
  rfl

omit [LinearOrder Key] [BoundedOrder Key] in
theorem divided_cases {left right : Page Key} (other : a ≠ new) (found : (m.divided a new left right).pages b = some q) :
    b = new ∧ q = right ∨ b = a ∧ q = left ∨ b ≠ new ∧ b ≠ a ∧ m.pages b = some q := by
  simp only [Memory.divided, Memory.setPage, Memory.issuePage] at found
  by_cases isLeft : b = a
  · subst isLeft
    rw [Function.update_self] at found
    exact .inr (.inl ⟨rfl, (Option.some.inj found).symm⟩)
  · rw [Function.update_of_ne isLeft] at found
    by_cases isNew : b = new
    · subst isNew
      rw [Function.update_self] at found
      exact .inl ⟨rfl, (Option.some.inj found).symm⟩
    · rw [Function.update_of_ne isNew] at found
      exact .inr (.inr ⟨isNew, isLeft, found⟩)

omit [LinearOrder Key] [BoundedOrder Key] in
theorem divided_left {left right : Page Key} : (m.divided a new left right).pages a = some left := by
  simp [Memory.divided, Memory.setPage]

omit [LinearOrder Key] [BoundedOrder Key] in
theorem divided_right {left right : Page Key} (other : a ≠ new) : (m.divided a new left right).pages new = some right := by
  simp [Memory.divided, Memory.setPage, Function.update_of_ne other.symm]

omit [LinearOrder Key] [BoundedOrder Key] in
theorem divided_other {left right : Page Key} (notNew : b ≠ new) (notLeft : b ≠ a) :
    (m.divided a new left right).pages b = m.pages b := by
  simp [Memory.divided, Memory.setPage, Memory.issuePage, notNew, notLeft]

theorem Linked.unused (linked : Linked m pending top) (unissued : new ∉ m.pagesIssued) : m.pages new = none := by
  by_contra used
  obtain ⟨p, there⟩ := Option.ne_none_iff_exists'.1 used
  exact unissued (linked.issued new p there)

theorem Linked.divide {left right : Page Key} {mid : Key} (linked : Linked m pending top) (there : m.pages a = some p)
    (unissued : new ∉ m.pagesIssued) (notNull : new ≠ .null) (halves : Halves p.hdr left.hdr right.hdr mid new)
    (proper : left.Proper) (proper' : right.Proper)
    (forest : Forest (Function.update (Function.update (tiles m) a (some left.tile)) new (some right.tile)) pending'
      m.rootOffset top) :
    Linked (m.divided a new left right) pending' top := by
  -- split a page; the new page is linked by its left neighbour
  have unused := linked.unused unissued
  have other : a ≠ new := by
    rintro rfl
    rw [there] at unused
    cases unused
  -- a page that another one points to is still there and starts where it did
  have survives : ∀ {b q}, m.pages b = some q → ∃ q', (m.divided a new left right).pages b = some q' ∧
      q'.hdr.level = q.hdr.level ∧ q'.hdr.lowest = q.hdr.lowest := by
    intro b q found
    have notNew : b ≠ new := by
      rintro rfl
      rw [found] at unused
      cases unused
    by_cases here : b = a
    · subst here
      obtain rfl : p = q := Option.some.inj (there.symm.trans found)
      exact ⟨left, divided_left, halves.leftLevel, halves.leftLowest⟩
    · exact ⟨q, by rw [divided_other notNew here, found], rfl, rfl⟩
  refine .of_pages (by rw [tiles_divided _ _ other]; exact forest) ?_ fun b q found => ?_
  · rw [divided_other notNull.symm (linked.not_null there).symm, linked.null]
  · rcases divided_cases other found with ⟨rfl, rfl⟩ | ⟨rfl, rfl⟩ | ⟨notNew, notLeft, was⟩
    · refine ⟨List.mem_cons_self, proper', ?_⟩
      rw [halves.rightHighest, halves.rightSibling]
      rcases linked.sibling a p there with last | ⟨p', r, here, next, -, level, lowest⟩
      · exact .inl last
      · obtain rfl : p = p' := Option.some.inj (there.symm.trans here)
        obtain ⟨r', found', level', lowest'⟩ := survives next
        exact .inr ⟨q, r', found, found', halves.rightSibling, by rw [level', level, halves.rightLevel],
          by rw [lowest', lowest, halves.rightHighest]⟩
    · refine ⟨List.mem_cons_of_mem _ (linked.issued b p there), proper, .inr ?_⟩
      rw [halves.leftSibling]
      exact ⟨q, right, found, divided_right other, halves.leftSibling, by rw [halves.rightLevel, halves.leftLevel],
        by rw [halves.rightLowest, halves.leftHighest]⟩
    · refine ⟨List.mem_cons_of_mem _ (linked.issued b q was), linked.proper was, ?_⟩
      rcases linked.sibling b q was with last | ⟨q', r, here, next, -, level, lowest⟩
      · exact .inl last
      · obtain rfl : q = q' := Option.some.inj (was.symm.trans here)
        obtain ⟨r', found', level', lowest'⟩ := survives next
        exact .inr ⟨q, r', found, found', rfl, level'.trans level, lowest'.trans lowest⟩

/-! ## The steps of an insert -/

omit [BoundedOrder Key] in
theorem withRecord_face (n : InternalPage Key) {key : Key} {v : GlobalAddress} : SameFace n.hdr (n.withRecord key v).hdr := by
  unfold InternalPage.withRecord
  split
  · exact ⟨rfl, rfl, rfl, rfl⟩
  · exact ⟨rfl, rfl, rfl, rfl⟩

theorem Linked.fresh {n : InternalPage Key} (linked : Linked m pending top) (there : m.pages a = some (.internal n))
    (waits : b ∈ pending) (found : m.pages b = some q) (level : q.hdr.level + 1 = n.hdr.level) {k : Key} {c : GlobalAddress}
    (kid : (k, c) ∈ n.kids) : k ≠ q.hdr.lowest := by
  intro same
  obtain ⟨-, linkedKid, y, child, down, lo⟩ := linked.forest.kids a _ k c (tiles_page there) kid
  have levels : y.level = q.tile.level := by
    rw [Page.tile_level]
    have : y.level + 1 = n.hdr.level := down
    omega
  have here : c = b := linked.forest.eq_of_lo child (tiles_page found) levels (by rw [lo, same, Page.tile_lo])
  exact linkedKid (here ▸ waits)

section
variable {n : InternalPage Key} (linked : Linked m pending top) (there : m.pages a = some (.internal n)) (waits : b ∈ pending)
  (found : m.pages b = some q) (level : q.hdr.level + 1 = n.hdr.level) (covers : n.hdr.covers q.hdr.lowest)
include linked there waits found level

theorem Linked.placed : ∃ index, n.Placed q.hdr.lowest b index :=
  (linked.internal a n there).2.placed fun i inside => linked.fresh there waits found level (.inr ⟨i, inside, rfl⟩)

include covers

theorem Linked.above : n.hdr.lowest < q.hdr.lowest :=
  lt_of_le_of_ne covers.1 (linked.fresh there waits found level (.inl rfl))

theorem Linked.withRecord_ordered : (n.withRecord q.hdr.lowest b).Ordered := by
  obtain ⟨index, placed⟩ := linked.placed there waits found level
  exact placed.isOrdered (linked.internal a n there).2 (linked.above there waits found level covers) covers.2

theorem Linked.forest_link :
    Forest (Function.update (tiles m) a (some (Page.internal (n.withRecord q.hdr.lowest b)).tile))
    (pending \ {b}) m.rootOffset top := by
  obtain ⟨index, placed⟩ := linked.placed there waits found level
  rw [placed.tile (linked.internal a n there).2, ← Page.tile_lo]
  refine linked.forest.link (tiles_page there) waits (tiles_page found) ?_ ?_
  · rw [Page.tile_level, Page.tile_level]
    exact level.symm
  · rw [Page.tile_lo, Page.tile_covers]
    exact covers

theorem Linked.link : Linked (m.setPage a (.internal (n.withRecord q.hdr.lowest b))) (pending \ {b}) top := by
  refine linked.replace there (withRecord_face n) ⟨?_, linked.withRecord_ordered there waits found level covers⟩
    (linked.forest_link there waits found level covers)
  rw [(withRecord_face n).level]
  exact (linked.internal a n there).1

theorem Linked.linkAndSplit (unissued : new ∉ m.pagesIssued) (notNull : new ≠ .null)
    (three : 3 ≤ (n.withRecord q.hdr.lowest b).cnt) :
    Linked (m.divided a new (.internal ((n.withRecord q.hdr.lowest b).splitLeft new))
      (.internal (n.withRecord q.hdr.lowest b).splitRight))
      (Insert.insert new (pending \ {b})) top := by
  -- a record is added to a page that is then split
  have face : SameFace n.hdr (n.withRecord q.hdr.lowest b).hdr := withRecord_face n
  have notLeaf : (n.withRecord q.hdr.lowest b).hdr.level ≠ 0 := by
    rw [face.level]
    exact (linked.internal a n there).1
  have ordered := linked.withRecord_ordered there waits found level covers
  have unused := linked.unused unissued
  have other : new ≠ a := by
    rintro rfl
    rw [there] at unused
    cases unused
  refine linked.divide there unissued notNull ⟨face.level, face.lowest, rfl, rfl, face.level, rfl, face.highest, face.siblingPtr⟩
    ⟨notLeaf, InternalPage.splitLeft_ordered ordered three new⟩ ⟨notLeaf, InternalPage.splitRight_ordered ordered three⟩ ?_
  rw [InternalPage.splitLeft_tile ordered three, InternalPage.splitRight_tile ordered three]
  have free : Function.update (tiles m) a (some (Page.internal (n.withRecord q.hdr.lowest b)).tile) new = none := by
    rw [Function.update_of_ne other, tiles, unused]
    rfl
  have split := (linked.forest_link there waits found level covers).split (Function.update_self ..) free
    (InternalPage.splitKey_inside ordered three) ?_
  · rwa [Function.update_idem] at split
  · exact fun _ => ⟨_, .inr ⟨(n.withRecord q.hdr.lowest b).cnt / 2, by omega, rfl⟩⟩

end

theorem Linked.splitLeaf {n left right : LeafPage Key} {mid : Key} (linked : Linked m pending top)
    (there : m.pages a = some (.leaf n))
    (unissued : new ∉ m.pagesIssued) (notNull : new ≠ .null) (halves : Halves n.hdr left.hdr right.hdr mid new)
    (inside : n.hdr.lowest < mid ∧ mid < n.hdr.highest) (leftmost : left.hdr.leftmostPtr = .null ∧ right.hdr.leftmostPtr = .null) :
    Linked (m.divided a new (.leaf left) (.leaf right)) (Insert.insert new pending) top := by
  -- a leaf is split
  have bottom := (linked.leaf a n there).1
  refine linked.divide there unissued notNull halves ⟨halves.leftLevel.trans bottom, leftmost.1⟩
    ⟨halves.rightLevel.trans bottom, leftmost.2⟩ ?_
  have free : tiles m new = none := by
    rw [tiles, linked.unused unissued]
    rfl
  have split := linked.forest.split (tiles_page there) free inside
    fun high => absurd bottom high
  have leftTile : (Page.leaf left).tile = (Page.leaf n).tile.left mid := by
    simp [Page.tile, Tile.left, halves.leftLevel, halves.leftLowest, halves.leftHighest]
  have rightTile : (Page.leaf right).tile = (Page.leaf n).tile.right mid := by
    simp [Page.tile, Tile.right, halves.rightLevel, halves.rightLowest, halves.rightHighest]
  rw [leftTile, rightTile]
  exact split

def Memory.raised (m : Memory Key Value) (new : GlobalAddress) (key : Key) (right : GlobalAddress) (level : ℕ) : Memory Key Value :=
  { (m.issuePage new).setPage new (.internal (.newRoot m.rootOffset key right level)) with rootOffset := new }

theorem newRoot_kids (left right : GlobalAddress) (key : Key) (level : ℕ) :
    (InternalPage.newRoot left key right level).kids = {(⊥, left), (key, right)} := by
  ext pair
  simp [InternalPage.kids, InternalPage.newRoot, InternalPage.cnt, Header.init]

theorem newRoot_ordered {left right : GlobalAddress} {key : Key} {level : ℕ} (above : ⊥ < key) (below : key < ⊤) :
    (InternalPage.newRoot left key right level).Ordered := by
  refine ⟨rfl, Nat.one_pos, fun i inside => ?_, fun i j less inside => ?_⟩
  · obtain rfl := Nat.lt_one_iff.1 inside
    exact ⟨above, below⟩
  · obtain rfl := Nat.lt_one_iff.1 inside
    exact absurd less (Nat.not_lt_zero _)

theorem raised_cases {key : Key} {level : ℕ} (is : (m.raised new key b level).pages a = some p) :
    a = new ∧ p = .internal (.newRoot m.rootOffset key b level) ∨ m.pages a = some p := by
  by_cases isNew : a = new
  · subst isNew
    exact .inl ⟨rfl, by simpa [Memory.raised, Memory.setPage] using is.symm⟩
  · exact .inr (by simpa [Memory.raised, Memory.setPage, Memory.issuePage, isNew] using is)

theorem raised_other {key : Key} {level : ℕ} (notNew : a ≠ new) : (m.raised new key b level).pages a = m.pages a := by
  simp [Memory.raised, Memory.setPage, Memory.issuePage, notNew]

theorem Linked.raise (linked : Linked m pending top) (waits : b ∈ pending) (found : m.pages b = some q) (level : q.hdr.level = top)
    (unissued : new ∉ m.pagesIssued) (notNull : new ≠ .null) :
    Linked (m.raised new q.hdr.lowest b (top + 1)) (pending \ {b}) (top + 1) := by
  -- a new root is put above the old one and a page split off it
  have unused := linked.unused unissued
  have above : ⊥ < q.hdr.lowest := by
    refine bot_lt_iff_ne_bot.2 fun bottom => ?_
    obtain ⟨x, there, high, lo⟩ := linked.forest.rooted
    have same := linked.forest.eq_of_lo there (tiles_page found) (by rw [high, Page.tile_level, level])
      (by rw [lo, Page.tile_lo, bottom])
    exact linked.forest.linked (same ▸ waits)
  have below : q.hdr.lowest < ⊤ := lt_of_lt_of_le (linked.nonempty found) le_top
  have old : ∀ {a p}, m.pages a = some p → (m.raised new q.hdr.lowest b (top + 1)).pages a = some p := by
    intro a p there
    rw [raised_other, there]
    rintro rfl
    rw [unused] at there
    cases there
  refine .of_pages ?_ ?_ fun a p is => ?_
  · have tile : (Page.internal (.newRoot m.rootOffset q.hdr.lowest b (top + 1))).tile =
        ⟨top + 1, ⊥, ⊤, {(⊥, m.rootOffset), (q.hdr.lowest, b)}⟩ := congrArg (Tile.mk (top + 1) ⊥ ⊤) (newRoot_kids ..)
    have free : tiles m new = none := by
      rw [tiles, unused]
      rfl
    have grown := linked.forest.grow free waits (tiles_page found)
      (by rw [Page.tile_level, level])
    rw [Page.tile_lo, ← tile] at grown
    rw [show tiles (m.raised new q.hdr.lowest b (top + 1)) = _ from tiles_setPage (m.issuePage new) new _]
    exact grown
  · rw [raised_other notNull.symm, linked.null]
  · rcases raised_cases is with ⟨rfl, rfl⟩ | was
    · exact ⟨List.mem_cons_self, ⟨Nat.succ_ne_zero top, newRoot_ordered above below⟩, .inl ⟨rfl, rfl⟩⟩
    · refine ⟨List.mem_cons_of_mem _ (linked.issued a p was), linked.proper was, ?_⟩
      rcases linked.sibling a p was with last | ⟨p', r, here, next, ptr, same, starts⟩
      · exact .inl last
      · exact .inr ⟨p', r, old here, old next, ptr, same, starts⟩

end Faunus.Sherman
