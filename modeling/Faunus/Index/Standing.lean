import Faunus.Index.Tiles

/-! The tree as one client sees it.

A client that is alone knows all of memory, so no ghosts are needed: the nodes form a
forest of tiles, in which the node that was split off last may still wait for its parent.
-/

set_option autoImplicit false

namespace Faunus

open Tiling

variable {Key Value : Type}

def Memory.tiles (m : Memory Key Value) (a : GlobalAddress) : Option (Tile Key GlobalAddress) := (m.nodes a).map Node.tile

def Memory.issueNode (m : Memory Key Value) (a : GlobalAddress) : Memory Key Value := { m with nodesIssued := a :: m.nodesIssued }

section
variable {m : Memory Key Value} {a b : GlobalAddress} {n x : Node Key}

theorem Memory.tiles_eq_some {y : Tile Key GlobalAddress} : m.tiles a = some y ↔ ∃ n, m.nodes a = some n ∧ n.tile = y :=
  Option.map_eq_some_iff

theorem Memory.tiles_node (there : m.nodes a = some n) : m.tiles a = some n.tile := Memory.tiles_eq_some.2 ⟨n, there, rfl⟩

theorem Memory.tiles_setNode (m : Memory Key Value) (a : GlobalAddress) (n : Node Key) :
    (m.setNode a n).tiles = Function.update m.tiles a (some n.tile) := by
  funext b
  by_cases here : b = a
  · subst here
    simp [Memory.tiles, Memory.setNode]
  · simp [Memory.tiles, Memory.setNode, here]

@[simp] theorem Memory.setNode_self (m : Memory Key Value) (a : GlobalAddress) (n : Node Key) : (m.setNode a n).nodes a = some n :=
  Function.update_self ..

theorem Memory.setNode_other (other : b ≠ a) : (m.setNode a n).nodes b = m.nodes b := Function.update_of_ne other ..

@[simp] theorem Memory.setNode_setNode (m : Memory Key Value) (a : GlobalAddress) (n x : Node Key) :
    (m.setNode a n).setNode a x = m.setNode a x := by
  simp [Memory.setNode]

theorem Memory.setNode_cases (found : (m.setNode a n).nodes b = some x) : b = a ∧ x = n ∨ b ≠ a ∧ m.nodes b = some x := by
  by_cases here : b = a
  · subst here
    rw [Memory.setNode_self] at found
    exact .inl ⟨rfl, (Option.some.inj found).symm⟩
  · rw [Memory.setNode_other here] at found
    exact .inr ⟨here, found⟩

end

variable [LinearOrder Key]

def Node.Proper (branchFactor : ℕ) : Node Key → Prop
  | .leaf n => n.header.level = 0
  | .internal n => n.header.level ≠ 0 ∧ n.Ordered ∧ n.header.lastIndex < branchFactor

theorem Node.Proper.setLock {branchFactor : ℕ} {n : Node Key} (proper : n.Proper branchFactor) (lock : BitVec 64) :
    (n.setLock lock).Proper branchFactor := by
  cases n with
  | leaf n => exact proper
  | internal n => exact ⟨proper.1, proper.2.1.setLock lock, proper.2.2⟩

variable [BoundedOrder Key]

structure Standing (branchFactor : ℕ) (m : Memory Key Value) (pending : Set GlobalAddress) (top : ℕ) : Prop where
  forest : Forest m.tiles pending m.rootOffset top
  nodes : ∀ a n, m.nodes a = some n → a ∈ m.nodesIssued ∧ n.Proper branchFactor

section
variable {branchFactor : ℕ} {m : Memory Key Value} {pending : Set GlobalAddress} {top : ℕ} {a c new : GlobalAddress} {n y : Node Key}
  {key : Key}

namespace Standing

theorem level_le (standing : Standing branchFactor m pending top) (there : m.nodes a = some n) : n.header.level ≤ top := by
  have height := standing.forest.height a _ (Memory.tiles_node there)
  rwa [Node.tile_level] at height

theorem unused (standing : Standing branchFactor m pending top) (unissued : new ∉ m.nodesIssued) : m.nodes new = none := by
  by_contra used
  obtain ⟨n, there⟩ := Option.ne_none_iff_exists'.1 used
  exact unissued (standing.nodes new n there).1

theorem ne_new (standing : Standing branchFactor m pending top) (there : m.nodes a = some n)
    (unissued : new ∉ m.nodesIssued) : a ≠ new := by
  rintro rfl
  exact unissued (standing.nodes a n there).1

theorem internal_of_level (standing : Standing branchFactor m pending top) (there : m.nodes a = some n) (high : 0 < n.header.level) :
    ∃ x, n = .internal x := by
  cases n with
  | leaf x =>
    have bottom : x.header.level = 0 := (standing.nodes a _ there).2
    have high : 0 < x.header.level := high
    omega
  | internal x => exact ⟨x, rfl⟩

theorem unique (standing : Standing branchFactor m pending top) {b : GlobalAddress} {x : Node Key} (one : m.nodes a = some n)
    (two : m.nodes b = some x) (level : n.header.level = x.header.level) (here : n.header.covers key)
    (there : x.header.covers key) : a = b := by
  refine standing.forest.disjoint a b n.tile x.tile key (Memory.tiles_node one) (Memory.tiles_node two) ?_ ?_ ?_
  · rw [Node.tile_level, Node.tile_level, level]
  · rw [Tile.covers, Node.tile_lo, Node.tile_hi]
    exact here
  · rw [Tile.covers, Node.tile_lo, Node.tile_hi]
    exact there

/-! ## Descending -/

theorem root_covers (standing : Standing branchFactor m pending top)
    (alone : ∀ b ∈ pending, ∀ x, m.nodes b = some x → x.header.level < top)
    (below : key < ⊤) : ∃ n, m.nodes m.rootOffset = some n ∧ n.header.level = top ∧ n.header.covers key := by
  obtain ⟨x, found, level, lo⟩ := standing.forest.rooted
  have hi := standing.forest.root_hi (fun b waits z there => ?_) found
  · obtain ⟨n, there, rfl⟩ := Memory.tiles_eq_some.1 found
    rw [Node.tile_level] at level
    rw [Node.tile_lo] at lo
    rw [Node.tile_hi] at hi
    exact ⟨n, there, level, lo ▸ bot_le, hi.symm ▸ below⟩
  · obtain ⟨n, node, rfl⟩ := Memory.tiles_eq_some.1 there
    rw [Node.tile_level]
    exact ne_of_lt (alone b waits n node)

/-- The child that `find_node` goes to takes the key, unless a pending node stands beside it. -/
theorem descend {n : InternalNode Key} (standing : Standing branchFactor m pending top) (there : m.nodes a = some (.internal n))
    (covers : n.header.covers key) (alone : ∀ b ∈ pending, ∀ x, m.nodes b = some x → x.header.level + 1 < n.header.level) :
    ∃ x, m.nodes (n.nextAddress key) = some x ∧ x.header.level + 1 = n.header.level ∧ x.header.covers key := by
  have ordered : n.Ordered := (standing.nodes a _ there).2.2.1
  obtain ⟨i, bound, next, low, last⟩ := ordered.nextAddress covers
  have kid : (n.boundary i, (n.entries i).child) ∈ (Node.internal n).tile.kids := ⟨i, bound, rfl⟩
  obtain ⟨z, found, level, -, held⟩ := standing.forest.descend (Memory.tiles_node there) covers kid low (by
    rintro p ⟨j, inner, rfl⟩ below
    exact last j inner below)
  obtain ⟨x, child, rfl⟩ := Memory.tiles_eq_some.1 found
  have level : x.header.level + 1 = n.header.level := by
    rw [Node.tile_level] at level
    exact level
  refine ⟨x, next ▸ child, level, ?_⟩
  rcases held with held | ⟨b, w, waits, found', same, -⟩
  · rw [Tile.covers, Node.tile_lo, Node.tile_hi] at held
    exact held
  · obtain ⟨w, other, rfl⟩ := Memory.tiles_eq_some.1 found'
    have := alone b waits w other
    rw [Node.tile_level, Node.tile_level] at same
    omega

/-! ## Changes -/

theorem congr {m' : Memory Key Value} (standing : Standing branchFactor m pending top) (nodes : m'.nodes = m.nodes)
    (root : m'.rootOffset = m.rootOffset) (issued : m'.nodesIssued = m.nodesIssued) : Standing branchFactor m' pending top := by
  refine ⟨?_, fun a n there => ?_⟩
  · rw [root, show m'.tiles = m.tiles by funext a; simp only [Memory.tiles, nodes]]
    exact standing.forest
  · rw [issued]
    exact standing.nodes a n (nodes ▸ there)

theorem replace {n' : Node Key} (standing : Standing branchFactor m pending top) (there : m.nodes a = some n)
    (same : n'.tile = n.tile)
    (proper : n'.Proper branchFactor) : Standing branchFactor (m.setNode a n') pending top := by
  refine ⟨?_, fun b x found => ?_⟩
  · rw [Memory.tiles_setNode, same, Function.update_eq_self_iff.2 (Memory.tiles_node there).symm]
    exact standing.forest
  · rcases Memory.setNode_cases found with ⟨rfl, rfl⟩ | ⟨-, old⟩
    · exact ⟨(standing.nodes b n there).1, proper⟩
    · exact standing.nodes b x old

theorem setLock (standing : Standing branchFactor m pending top) (there : m.nodes a = some n) (lock : BitVec 64) :
    Standing branchFactor (m.setNode a (n.setLock lock)) pending top :=
  standing.replace there (Node.tile_setLock n lock) ((standing.nodes a n there).2.setLock lock)

end Standing

def Memory.divided (m : Memory Key Value) (a new : GlobalAddress) (left right : Node Key) : Memory Key Value :=
  ((m.issueNode new).setNode new right).setNode a left

omit [LinearOrder Key] [BoundedOrder Key] in
theorem Memory.divided_left (left right : Node Key) : (m.divided a new left right).nodes a = some left := Memory.setNode_self ..

omit [LinearOrder Key] [BoundedOrder Key] in
theorem Memory.divided_right {left right : Node Key} (other : a ≠ new) : (m.divided a new left right).nodes new = some right := by
  rw [Memory.divided, Memory.setNode_other other.symm, Memory.setNode_self]

omit [LinearOrder Key] [BoundedOrder Key] in
theorem Memory.divided_other {left right : Node Key} {b : GlobalAddress} (notNew : b ≠ new) (notLeft : b ≠ a) :
    (m.divided a new left right).nodes b = m.nodes b := by
  rw [Memory.divided, Memory.setNode_other notLeft, Memory.setNode_other notNew]
  rfl

omit [LinearOrder Key] [BoundedOrder Key] in
theorem Memory.divided_cases {left right x : Node Key} {b : GlobalAddress} (found : (m.divided a new left right).nodes b = some x) :
    b = a ∧ x = left ∨ b = new ∧ x = right ∨ b ≠ a ∧ b ≠ new ∧ m.nodes b = some x := by
  rcases Memory.setNode_cases found with here | ⟨notLeft, found⟩
  · exact .inl here
  · rcases Memory.setNode_cases found with here | ⟨notNew, old⟩
    · exact .inr (.inl here)
    · exact .inr (.inr ⟨notLeft, notNew, old⟩)

namespace Standing

theorem divide {left right : Node Key} {pending' : Set GlobalAddress} (standing : Standing branchFactor m pending top)
    (there : m.nodes a = some n) (unissued : new ∉ m.nodesIssued) (proper : left.Proper branchFactor)
    (proper' : right.Proper branchFactor)
    (forest : Forest (Function.update (Function.update m.tiles a (some left.tile)) new (some right.tile)) pending'
      m.rootOffset top) :
    Standing branchFactor (m.divided a new left right) pending' top := by
  refine ⟨?_, fun b x found => ?_⟩
  · rw [Memory.divided, Memory.tiles_setNode, Memory.tiles_setNode, Function.update_comm (standing.ne_new there unissued).symm]
    exact forest
  · rcases Memory.divided_cases found with ⟨rfl, rfl⟩ | ⟨rfl, rfl⟩ | ⟨-, -, old⟩
    · exact ⟨List.mem_cons_of_mem _ (standing.nodes b n there).1, proper⟩
    · exact ⟨List.mem_cons_self, proper'⟩
    · exact ⟨List.mem_cons_of_mem _ (standing.nodes b x old).1, (standing.nodes b x old).2⟩

section
variable {n : InternalNode Key} (standing : Standing branchFactor m pending top) (there : m.nodes a = some (.internal n))
  (waits : c ∈ pending) (found : m.nodes c = some y) (level : y.header.level + 1 = n.header.level)
    (covers : n.header.covers y.header.fence.1)
include standing there waits found level covers

theorem separator : (n.header.fence.1 < y.header.fence.1 ∧ y.header.fence.1 < n.header.fence.2) ∧
    ∀ i, (n.entries i).key ≠ y.header.fence.1 := by
  have ordered : n.Ordered := (standing.nodes a _ there).2.2.1
  have new := pending_separator standing.forest (Memory.tiles_node there) ordered waits (Memory.tiles_node found)
    (by rw [Node.tile_level, level]) (by rw [Node.tile_lo]; exact covers)
  rwa [Node.tile_lo] at new

theorem link (room : n.header.lastIndex + 1 < branchFactor) :
    Standing branchFactor (m.setNode a (.internal (n.withSeparator y.header.fence.1 c))) (pending \ {c}) top := by
  obtain ⟨inner, ordered, -⟩ := (standing.nodes a _ there).2
  obtain ⟨inside, absent⟩ := standing.separator there waits found level covers
  have forest := forest_withSeparator standing.forest (Memory.tiles_node there) waits (Memory.tiles_node found)
    (by rw [Node.tile_level, level]) (by rw [Node.tile_lo]; exact covers)
  rw [Node.tile_lo] at forest
  refine ⟨by rw [Memory.tiles_setNode]; exact forest, fun b x is => ?_⟩
  rcases Memory.setNode_cases is with ⟨rfl, rfl⟩ | ⟨-, old⟩
  · exact ⟨(standing.nodes b _ there).1, inner, withSeparator_ordered ordered inside fun i _ => absent i, room⟩
  · exact standing.nodes b x old

theorem splitNode (four : 4 ≤ branchFactor) (full : n.header.lastIndex + 1 = branchFactor) (unissued : new ∉ m.nodesIssued) :
    Standing branchFactor (m.divided a new (.internal (n.splitLeft branchFactor y.header.fence.1 c))
      (.internal (n.splitRight branchFactor y.header.fence.1 c))) (Insert.insert new (pending \ {c})) top := by
  obtain ⟨inner, ordered, -⟩ := (standing.nodes a _ there).2
  obtain ⟨inside, absent⟩ := standing.separator there waits found level covers
  have overfull := overfull_ordered (c := c) ordered inside fun i _ => absent i
  have middle : splitMiddle branchFactor < branchFactor - 1 := by
    unfold splitMiddle
    omega
  have unused : m.tiles new = none := by
    rw [Memory.tiles, standing.unused unissued]
    rfl
  have lo : y.tile.lo = y.header.fence.1 := Node.tile_lo y
  have forest := forest_splitNode standing.forest (Memory.tiles_node there) waits (Memory.tiles_node found)
    (by rw [Node.tile_level, level]) (by rw [lo]; exact covers) (by rw [lo]; exact overfull) full middle unused
  rw [lo] at forest
  refine standing.divide there unissued ⟨inner, splitLeft_ordered overfull full middle ordered, ?_⟩
    ⟨inner, splitRight_ordered overfull full middle, ?_⟩ forest
  · change splitMiddle branchFactor < branchFactor
    omega
  · change branchFactor - splitMiddle branchFactor - 1 < branchFactor
    omega

end

theorem growRoot (standing : Standing branchFactor m pending top) (waits : c ∈ pending) (found : m.nodes c = some y)
    (level : y.header.level = top) (two : 1 < branchFactor) (unissued : new ∉ m.nodesIssued) :
    Standing branchFactor
      { (m.issueNode new).setNode new (.internal (newRoot y.header.fence.1 m.rootOffset c (top + 1))) with rootOffset := new }
      (pending \ {c}) (top + 1) := by
  have unused : m.tiles new = none := by
    rw [Memory.tiles, standing.unused unissued]
    rfl
  obtain ⟨forest, between⟩ := forest_newRoot standing.forest waits (Memory.tiles_node found) (by rw [Node.tile_level, level]) unused
  rw [Node.tile_lo] at forest between
  refine ⟨?_, fun b x is => ?_⟩
  · have tiles : ({ (m.issueNode new).setNode new (.internal (newRoot y.header.fence.1 m.rootOffset c (top + 1))) with
        rootOffset := new } : Memory Key Value).tiles = _ := Memory.tiles_setNode (m.issueNode new) new _
    rw [tiles]
    exact forest
  · rcases Memory.setNode_cases (m := m.issueNode new) is with ⟨rfl, rfl⟩ | ⟨-, old⟩
    · exact ⟨List.mem_cons_self, Nat.succ_ne_zero top, newRoot_ordered between, two⟩
    · exact ⟨List.mem_cons_of_mem _ (standing.nodes b x old).1, (standing.nodes b x old).2⟩

theorem splitLeaf {leaf left right : LeafNode Key} {mid : Key} (standing : Standing branchFactor m pending top)
    (there : m.nodes a = some (.leaf leaf)) (unissued : new ∉ m.nodesIssued)
    (inside : leaf.header.fence.1 < mid ∧ mid < leaf.header.fence.2) (levels : left.header.level = 0 ∧ right.header.level = 0)
    (lower : left.header.fence = (leaf.header.fence.1, mid)) (upper : right.header.fence = (mid, leaf.header.fence.2)) :
    Standing branchFactor (m.divided a new (.leaf left) (.leaf right)) (Insert.insert new pending) top := by
  have bottom : leaf.header.level = 0 := (standing.nodes a _ there).2
  have unused : m.tiles new = none := by
    rw [Memory.tiles, standing.unused unissued]
    rfl
  refine standing.divide there unissued levels.1 levels.2 ?_
  have halves := standing.forest.split (Memory.tiles_node there) unused inside fun high => absurd bottom high
  have leftTile : (Node.leaf left).tile = (Node.leaf leaf).tile.left mid := by
    simp [Node.tile, Tile.left, levels.1, bottom, lower]
  have rightTile : (Node.leaf right).tile = (Node.leaf leaf).tile.right mid := by
    simp [Node.tile, Tile.right, levels.2, bottom, upper]
  rw [leftTile, rightTile]
  exact halves

end Standing

end

end Faunus
