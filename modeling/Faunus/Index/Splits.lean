import Faunus.Index.Locking
import Faunus.Index.Shape

/-! Concurrent splits keep the tree.

Any number of threads split leaves while free slots are filled from outside.
-/

set_option autoImplicit false

namespace Faunus

open Interleaving Tiling

variable {Key Value : Type} [LinearOrder Key] [BoundedOrder Key]

/-! ## The tree at rest -/

def InternalNode.upper (n : InternalNode Key) (i : ℕ) : Key :=
  if i < n.header.lastIndex then (n.entries i).key else n.header.fence.2

/-- Every node is reachable and listed once, levels descend by one, and the fences of the
children of a node are adjacent and make up its own. -/
structure WellShaped (m : Memory Key Value) : Prop where
  root : ∃ n, m.nodes m.rootOffset = some n ∧ n.header.fence = (⊥, ⊤)
  reachable : ∀ a n, m.nodes a = some n → Reachable m a
  leaf : ∀ a n, m.nodes a = some (.leaf n) → n.header.level = 0
  children : ∀ a n, m.nodes a = some (.internal n) → ∀ i ≤ n.header.lastIndex,
    n.boundary i < n.upper i ∧ ∃ x, m.nodes (n.entries i).child = some x ∧ x.header.level + 1 = n.header.level ∧
      x.header.fence = (n.boundary i, n.upper i)
  listed : ∀ c x, m.nodes c = some x → c ≠ m.rootOffset →
    ∃ a n, m.nodes a = some (.internal n) ∧ ∃ i ≤ n.header.lastIndex, (n.entries i).child = c
  once : ∀ a b n x i j, m.nodes a = some (.internal n) → m.nodes b = some (.internal x) → i ≤ n.header.lastIndex →
    j ≤ x.header.lastIndex → (n.entries i).child = (x.entries j).child → a = b ∧ i = j
  top : ∀ a n i, m.nodes a = some (.internal n) → i ≤ n.header.lastIndex → (n.entries i).child ≠ m.rootOffset
  leaves : ∀ key < ⊤, ∃! a, ∃ n, m.nodes a = some (.leaf n) ∧ n.header.covers key

section
variable {gs : Thread → Local Key Value} {m : Memory Key Value} {cfg : Config} {a b : GlobalAddress}

theorem Shape.listed_once {n x : InternalNode Key} {i j : ℕ} (shape : Shape gs m) (one : Born gs m a (.internal n))
    (two : Born gs m b (.internal x)) (boundI : i ≤ n.header.lastIndex) (boundJ : j ≤ x.header.lastIndex)
    (same : (n.entries i).child = (x.entries j).child) : a = b ∧ i = j := by
  obtain ⟨top, forest⟩ := shape.forest
  obtain ⟨rfl, eq⟩ := forest.parent_unique (tiles_born one) (tiles_born two)
    (show (n.boundary i, (n.entries i).child) ∈ (Node.internal n).tile.kids from ⟨i, boundI, rfl⟩)
    (show (x.boundary j, (n.entries i).child) ∈ (Node.internal x).tile.kids from ⟨j, boundJ, by rw [same]⟩)
  obtain rfl := Node.internal.inj (born_unique one two)
  refine ⟨rfl, ?_⟩
  have ordered := shape.ordered a n one
  rcases Nat.lt_trichotomy i j with less | here | more
  · exact absurd eq (ne_of_lt (ordered.lt less boundJ))
  · exact here
  · exact absurd eq (ne_of_gt (ordered.lt more boundI))

omit [LinearOrder Key] [BoundedOrder Key] in
theorem born_at_rest (idle : ∀ t, gs t = .idle) {n : Node Key} : Born gs m a n ↔ m.nodes a = some n := by
  refine ⟨fun born => born.1, fun there => ⟨there, ?_⟩⟩
  rintro ⟨t, content, own⟩
  rw [idle t] at own
  cases own

omit [BoundedOrder Key] in
theorem InternalNode.Ordered.boundary_lt_upper {n : InternalNode Key} {i : ℕ} (ordered : n.Ordered)
    (bound : i ≤ n.header.lastIndex) : n.boundary i < n.upper i := by
  unfold InternalNode.upper
  split_ifs with inner
  · exact ordered.increasing i inner
  · exact ordered.lt_upper bound

omit [BoundedOrder Key] in
theorem InternalNode.Ordered.upper_le {n : InternalNode Key} (ordered : n.Ordered) (i : ℕ) : n.upper i ≤ n.header.fence.2 := by
  unfold InternalNode.upper
  split_ifs with inner
  · exact le_of_lt (ordered.lt_upper (i := i + 1) inner)
  · exact le_refl _

omit [BoundedOrder Key] in
theorem InternalNode.Ordered.le_of_lt_upper {n : InternalNode Key} {i j : ℕ} (ordered : n.Ordered)
    (boundJ : j ≤ n.header.lastIndex) (below : n.boundary j < n.upper i) : j ≤ i := by
  unfold InternalNode.upper at below
  split_ifs at below with inner
  · exact Nat.lt_succ_iff.1 ((ordered.lt_iff (j := i + 1) boundJ inner).1 below)
  · omega

theorem Shape.child_fence {n : InternalNode Key} {i : ℕ} {x : Node Key} (shape : Shape gs m) (born : Born gs m a (.internal n))
    (bound : i ≤ n.header.lastIndex) (child : Born gs m (n.entries i).child x)
    (none : ∀ c y, Pending gs c → Born gs m c y → y.header.level ≠ x.header.level) :
    x.header.level + 1 = n.header.level ∧ x.header.fence = (n.boundary i, n.upper i) := by
  -- without pending nodes on its level, a child ends where the next one begins
  obtain ⟨top, forest⟩ := shape.forest
  have ordered := shape.ordered a n born
  have tileA : tiles gs m a = some n.tile := tiles_born born
  have kid : (n.boundary i, (n.entries i).child) ∈ n.tile.kids := ⟨i, bound, rfl⟩
  obtain ⟨-, -, y, there, level, lo⟩ := forest.kids a n.tile _ _ tileA kid
  obtain rfl : x.tile = y := Option.some.inj ((tiles_born child).symm.trans there)
  rw [Node.tile_level] at level
  rw [Node.tile_lo] at lo
  have upper : x.header.fence.2 ≤ n.upper i := by
    rw [← Node.tile_hi]
    unfold InternalNode.upper
    split_ifs with inner
    · exact forest.kid_hi_le tileA kid (⟨i + 1, inner, rfl⟩ : (n.boundary (i + 1), _) ∈ n.tile.kids)
        (ordered.increasing i inner) there
    · exact forest.kid_hi_le_hi tileA kid there
  have lower : n.upper i ≤ x.header.fence.2 := by
    by_contra short
    rw [not_le] at short
    have nonempty : n.boundary i < x.header.fence.2 := by
      have := forest.nonempty _ _ there
      rwa [Node.tile_lo, Node.tile_hi, lo] at this
    have last : ∀ p ∈ n.tile.kids, p.1 ≤ x.header.fence.2 → p.1 ≤ n.boundary i := by
      rintro p ⟨j, boundJ, rfl⟩ below
      exact ordered.le (ordered.le_of_lt_upper boundJ (lt_of_le_of_lt below short)) bound
    obtain ⟨z, there', -, -, covers | ⟨c, w, waits, found, same, -⟩⟩ := forest.descend tileA
      ⟨le_trans (ordered.lower_le bound) (le_of_lt nonempty), lt_of_lt_of_le short (ordered.upper_le i)⟩ kid
      (le_of_lt nonempty) last
    · obtain rfl : x.tile = z := Option.some.inj (there.symm.trans there')
      rw [Tile.covers, Node.tile_hi] at covers
      exact lt_irrefl _ covers.2
    · obtain ⟨y, present, rfl⟩ := tiles_eq_some.1 found
      obtain rfl : x.tile = z := Option.some.inj (there.symm.trans there')
      rw [Node.tile_level, Node.tile_level] at same
      exact none c y waits present same
  exact ⟨level, Prod.ext lo (le_antisymm upper lower)⟩

theorem Shape.wellShaped (shape : Shape gs m) (bottom : ∀ a n, m.nodes a = some (.leaf n) → n.header.level = 0)
    (inner : ∀ a n, m.nodes a = some (.internal n) → n.header.level ≠ 0) (idle : ∀ t, gs t = .idle) : WellShaped m := by
  obtain ⟨top, forest⟩ := shape.forest
  have born : ∀ {a n}, m.nodes a = some n → Born gs m a n := fun there => (born_at_rest idle).2 there
  have settled : ∀ c, ¬ Pending gs c := by
    rintro c ⟨t, level, key, own⟩
    rw [idle t] at own
    cases own
  have reachable : ∀ {a n}, m.nodes a = some n → Reachable m a := by
    intro a n there
    have height := forest.height a n.tile (tiles_born (born there))
    obtain ⟨distance, eq⟩ := Nat.exists_eq_add_of_le height
    refine (forest.reachable settled (tiles_born (born there)) eq.symm).lift id ?_
    rintro b c ⟨x, k, found, kid⟩
    obtain ⟨p, present, rfl⟩ := tiles_eq_some.1 found
    cases p with
    | leaf leaf => exact absurd kid (Set.notMem_empty _)
    | internal node =>
      obtain ⟨i, bound, eq⟩ := kid
      exact ⟨node, present.1, i, bound, (Prod.mk.inj eq).2.symm⟩
  refine ⟨?_, fun a n there => reachable there, bottom, fun a n there i bound => ?_,
    fun c x there below => ?_, fun a b n x i j one two boundI boundJ same => shape.listed_once (born one)
      (born two) boundI boundJ same,
    fun a n i there bound same => ?_, fun key below => ?_⟩
  · obtain ⟨x, there, -, lo⟩ := forest.rooted
    have hi := forest.root_hi (fun a waits => absurd waits (settled a)) there
    obtain ⟨n, present, rfl⟩ := tiles_eq_some.1 there
    rw [Node.tile_lo] at lo
    rw [Node.tile_hi] at hi
    exact ⟨n, present.1, Prod.ext lo hi⟩
  · obtain ⟨-, -, y, found, -⟩ := forest.kids a n.tile _ _ (tiles_born (born there))
      (⟨i, bound, rfl⟩ : (n.boundary i, (n.entries i).child) ∈ n.tile.kids)
    obtain ⟨x, present, rfl⟩ := tiles_eq_some.1 found
    have fence := shape.child_fence (born there) bound present fun c y waits => absurd waits (settled c)
    exact ⟨(shape.ordered a n (born there)).boundary_lt_upper bound, x, present.1, fence⟩
  · rcases Relation.ReflTransGen.cases_tail (reachable there) with same | ⟨a, -, n, parent, listed⟩
    · exact absurd same below
    · exact ⟨a, n, parent, listed⟩
  · obtain ⟨x, found, high, -⟩ := forest.rooted
    obtain ⟨-, -, y, also, level, -⟩ := forest.kids a n.tile _ _ (tiles_born (born there))
      (⟨i, bound, rfl⟩ : (n.boundary i, (n.entries i).child) ∈ n.tile.kids)
    rw [same] at also
    obtain rfl : x = y := Option.some.inj (found.symm.trans also)
    have := forest.height a n.tile (tiles_born (born there))
    omega
  · obtain ⟨a, x, found, level, covers⟩ := forest.cover 0 (Nat.zero_le _) key below
    obtain ⟨n, present, rfl⟩ := tiles_eq_some.1 found
    rw [Node.tile_level] at level
    cases n with
    | internal node =>
      exact absurd level (inner a node present.1)
    | leaf leaf =>
      refine ⟨a, ⟨leaf, present.1, covers⟩, ?_⟩
      rintro b ⟨other, there, also⟩
      exact forest.disjoint b a _ _ key (tiles_born (born there)) found ((bottom b other there).trans level.symm) also covers

theorem Shape.at_rest (shape : Shape gs m) (levels : Levels gs m) (idle : ∀ t, gs t = .idle) : WellShaped m := by
  refine shape.wellShaped (fun a n there => levels.sound a _ ((born_at_rest idle).2 there)) (fun a n there low => ?_) idle
  obtain ⟨below, eq, -⟩ := levels.sound a _ ((born_at_rest idle).2 there)
  exact absurd (eq.symm.trans low) (Nat.succ_ne_zero below)

end

/-! ## What fills the leaves -/

/-- Only splits are called, of leaves of the tree. -/
def splitCalls (s : State Key Value) (_ : Thread) (call : Call Key Value) : Prop :=
  ∃ a, call = .split a ∧ ReachableLeaf s.memory a

/-- A free unlocked slot is filled with a block of a key inside the fence. Items may be written with it, but no
other live block gets another key. -/
def Fills (cfg : Config) (m m' : Memory Key Value) : Prop :=
  ∃ a leaf i b items, Reachable m a ∧ m.nodes a = some (.leaf leaf) ∧ i < cfg.branchFactor ∧
    (leaf.kvBlocks i).isFree = true ∧ (leaf.kvBlocks i).isLocked = false ∧ b.isFree = false ∧ b.isLocked = false ∧
    leaf.header.covers (items b.getAddr).key ∧
    (∀ c other j, m.nodes c = some (.leaf other) → j < cfg.branchFactor → (other.kvBlocks j).isFree = false →
      (items (other.kvBlocks j).getAddr).key = (m.items (other.kvBlocks j).getAddr).key) ∧
    m' = { m with items }.setNode a (.leaf (leaf.setBlock i b))

/-- The keys of a leaf lie inside its fence, and a splitting thread knows the leaf and the keys it has read. -/
structure Filled (cfg : Config) (gs : Thread → Local Key Value) (m : Memory Key Value) : Prop where
  inside : ∀ a leaf, Born gs m a (.leaf leaf) → ∀ i < cfg.branchFactor, (leaf.kvBlocks i).isFree = false →
    leaf.header.covers (m.items (leaf.kvBlocks i).getAddr).key
  kept : ∀ t snap, (gs t).smo.kept = some snap → ∀ a leaf, (gs t).smo.held = [a] → Born gs m a (.leaf leaf) →
    ∀ i < cfg.branchFactor, leaf.kvBlocks i = snap.kvBlocks i
  keyed : ∀ t snap, (gs t).smo.kept = some snap → ∀ e ∈ (gs t).smo.keyed,
    (m.items e.2.getAddr).key = e.1 ∧ ∃ i < cfg.branchFactor, snap.kvBlocks i = e.2 ∧ e.2.isFree = false

section
variable {gs : Thread → Local Key Value} {m m' : Memory Key Value} {cfg : Config} {t : Thread} {g : Local Key Value}
  {a : GlobalAddress}

omit [BoundedOrder Key] in
theorem Filled.keptInside (filled : Filled cfg gs m) (inv : Discipline gs m cfg) : KeptInside cfg gs m := by
  intro t snap kept i taken
  obtain ⟨a, leaf, only, born, header, -⟩ := inv.notes.kept t snap kept
  simp only [takenIndices, List.mem_filter, List.mem_range, Bool.not_eq_true'] at taken
  have same := filled.kept t snap kept a leaf only born i taken.1
  have covers := filled.inside a leaf born i taken.1 (by rw [same]; exact taken.2)
  rw [same] at covers
  rw [← header]
  exact covers

omit [BoundedOrder Key] in
theorem Filled.stay (filled : Filled cfg gs m)
    (leaves : ∀ b x, Born (Function.update gs t g) m' b (.leaf x) → Born gs m b (.leaf x)) (items : m'.items = m.items)
    (notes : g.smo.kept = none ∨ g.smo.held = (gs t).smo.held ∧ g.smo.kept = (gs t).smo.kept ∧ g.smo.keyed = (gs t).smo.keyed) :
    Filled cfg (Function.update gs t g) m' := by
  -- nothing changes in the leaves and their items; the thread keeps what it knows or forgets it
  refine ⟨fun b leaf born => ?_, ?_, ?_⟩
  · rw [items]
    exact filled.inside b leaf (leaves b leaf born)
  · refine (Function.forall_update_iff gs (p := fun _ l => ∀ snap, l.smo.kept = some snap → ∀ b leaf, l.smo.held = [b] →
      Born (Function.update gs t g) m' b (.leaf leaf) → ∀ i < cfg.branchFactor, leaf.kvBlocks i = snap.kvBlocks i)).2
      ⟨fun snap kept b leaf only born => ?_, fun u _ snap kept b leaf only born => filled.kept u snap kept b leaf only
        (leaves b leaf born)⟩
    rcases notes with none | ⟨held, same, -⟩
    · simp [none] at kept
    · exact filled.kept t snap (same ▸ kept) b leaf (held ▸ only) (leaves b leaf born)
  · rw [items]
    refine (Function.forall_update_iff gs (p := fun _ l => ∀ snap, l.smo.kept = some snap → ∀ e ∈ l.smo.keyed,
      (m.items e.2.getAddr).key = e.1 ∧ ∃ i < cfg.branchFactor, snap.kvBlocks i = e.2 ∧ e.2.isFree = false)).2
      ⟨fun snap kept => ?_, fun u _ => filled.keyed u⟩
    rcases notes with none | ⟨-, same, keyed⟩
    · simp [none] at kept
    · rw [keyed]
      exact filled.keyed t snap (same ▸ kept)

omit [BoundedOrder Key] in
theorem Filled.relock {leaf leaf' : LeafNode Key} (filled : Filled cfg gs m) (born : Born gs m a (.leaf leaf))
    (others : ∀ u, u ≠ t → (gs u).smo.held ≠ [a]) (fence : leaf'.header.fence = leaf.header.fence)
    (blocks : ∀ i < cfg.branchFactor, (leaf'.kvBlocks i).isFree = (leaf.kvBlocks i).isFree ∧
      (leaf'.kvBlocks i).getAddr = (leaf.kvBlocks i).getAddr)
    (fresh : g.smo.fresh = (gs t).smo.fresh) (kept : g.smo.kept = none) :
    Filled cfg (Function.update gs t g) (m.setNode a (.leaf leaf')) := by
  -- a leaf that no other thread splits changes in its lock bits only
  have cases : ∀ {b x}, Born (Function.update gs t g) (m.setNode a (.leaf leaf')) b (.leaf x) →
      b = a ∧ x = leaf' ∨ b ≠ a ∧ Born gs m b (.leaf x) := by
    intro b x present
    rcases (born_setNode ((born_update fresh).2 born)).1 present with ⟨rfl, eq⟩ | ⟨other, old⟩
    · exact Or.inl ⟨rfl, Node.leaf.inj eq⟩
    · exact Or.inr ⟨other, (born_update fresh).1 old⟩
  refine ⟨fun b x present i bound live => ?_, ?_, ?_⟩
  · rcases cases present with ⟨rfl, rfl⟩ | ⟨-, old⟩
    · obtain ⟨free, addr⟩ := blocks i bound
      have covers := filled.inside b leaf born i bound (free ▸ live)
      simp only [Memory.setNode, addr, Header.covers, fence]
      exact covers
    · exact filled.inside b x old i bound live
  · refine (Function.forall_update_iff gs (p := fun _ l => ∀ snap, l.smo.kept = some snap → ∀ b x, l.smo.held = [b] →
      Born (Function.update gs t g) (m.setNode a (.leaf leaf')) b (.leaf x) →
      ∀ i < cfg.branchFactor, x.kvBlocks i = snap.kvBlocks i)).2 ⟨by simp [kept], fun u other snap noted b x only present => ?_⟩
    rcases cases present with ⟨rfl, -⟩ | ⟨-, old⟩
    · exact absurd only (others u other)
    · exact filled.kept u snap noted b x only old
  · exact (Function.forall_update_iff gs (p := fun _ l => ∀ snap, l.smo.kept = some snap → ∀ e ∈ l.smo.keyed,
      (m.items e.2.getAddr).key = e.1 ∧ ∃ i < cfg.branchFactor, snap.kvBlocks i = e.2 ∧ e.2.isFree = false)).2
      ⟨by simp [kept], fun u _ => filled.keyed u⟩

omit [BoundedOrder Key] in
theorem Filled.note {snap : LeafNode Key} (filled : Filled cfg gs m) (fresh : g.smo.fresh = (gs t).smo.fresh)
    (kept : g.smo.kept = some snap)
    (same : ∀ b leaf, g.smo.held = [b] → Born gs m b (.leaf leaf) → ∀ i < cfg.branchFactor, leaf.kvBlocks i = snap.kvBlocks i)
    (keyed : ∀ e ∈ g.smo.keyed,
      (m.items e.2.getAddr).key = e.1 ∧ ∃ i < cfg.branchFactor, snap.kvBlocks i = e.2 ∧ e.2.isFree = false) :
    Filled cfg (Function.update gs t g) m := by
  refine ⟨fun b leaf born => filled.inside b leaf ((born_update fresh).1 born), ?_, ?_⟩
  · refine (Function.forall_update_iff gs (p := fun _ l => ∀ snap, l.smo.kept = some snap → ∀ b leaf, l.smo.held = [b] →
      Born (Function.update gs t g) m b (.leaf leaf) → ∀ i < cfg.branchFactor, leaf.kvBlocks i = snap.kvBlocks i)).2
      ⟨fun x is b leaf only born => ?_, fun u _ x is b leaf only born => ?_⟩
    · obtain rfl : snap = x := Option.some.inj (kept.symm.trans is)
      exact same b leaf only ((born_update fresh).1 born)
    · exact filled.kept u x is b leaf only ((born_update fresh).1 born)
  · refine (Function.forall_update_iff gs (p := fun _ l => ∀ snap, l.smo.kept = some snap → ∀ e ∈ l.smo.keyed,
      (m.items e.2.getAddr).key = e.1 ∧ ∃ i < cfg.branchFactor, snap.kvBlocks i = e.2 ∧ e.2.isFree = false)).2
      ⟨fun x is => ?_, fun u _ => filled.keyed u⟩
    obtain rfl : snap = x := Option.some.inj (kept.symm.trans is)
    exact keyed

omit [BoundedOrder Key] in
theorem Distributes.left_live {leaf left right : LeafNode Key} {entries : List (Key × KVBlock)} {middleKey : Key}
    {block : KVBlock} {i : ℕ} (distributes : Distributes cfg leaf entries middleKey left right)
    (sorted : OrderedMap.Sorted entries) (middle : entries[entries.length / 2]? = some (middleKey, block))
    (bound : i < cfg.branchFactor) (live : (left.kvBlocks i).isFree = false) :
    i < entries.length / 2 ∧ ∃ e, entries[i]? = some e ∧ left.kvBlocks i = e.2.setLocked false ∧ e.1 < middleKey := by
  have low : i < entries.length / 2 := by
    by_contra high
    have := (distributes.leftFree i (not_lt.1 high) bound).1
    simp [live] at this
  obtain ⟨e, found⟩ : ∃ e, entries[i]? = some e := ⟨_, List.getElem?_eq_getElem (by omega)⟩
  exact ⟨low, e, found, distributes.leftKept i low e found, sorted.lt low found middle⟩

omit [BoundedOrder Key] in
theorem Distributes.right_live {leaf left right : LeafNode Key} {entries : List (Key × KVBlock)} {middleKey : Key}
    {block : KVBlock} {i : ℕ} (distributes : Distributes cfg leaf entries middleKey left right)
    (sorted : OrderedMap.Sorted entries) (middle : entries[entries.length / 2]? = some (middleKey, block))
    (bound : i < cfg.branchFactor) (live : (right.kvBlocks i).isFree = false) :
    ∃ e, entries[i + entries.length / 2]? = some e ∧ right.kvBlocks i = e.2.setLocked false ∧ middleKey ≤ e.1 := by
  have low : i + entries.length / 2 < entries.length := by
    by_contra high
    have := (distributes.rightFree i (not_lt.1 high) bound).1
    simp [live] at this
  obtain ⟨e, found⟩ : ∃ e, entries[i + entries.length / 2]? = some e := ⟨_, List.getElem?_eq_getElem low⟩
  refine ⟨e, found, distributes.rightKept i low e found, ?_⟩
  rcases Nat.eq_zero_or_pos i with rfl | positive
  · rw [Nat.zero_add] at found
    exact le_of_eq (congrArg Prod.fst (Option.some.inj (middle.symm.trans found)))
  · exact le_of_lt (sorted.lt (by omega) middle found)

theorem Filled.splitLeaf {new : GlobalAddress} {leaf left right : LeafNode Key} {entries : List (Key × KVBlock)}
    {middleKey : Key} {block : KVBlock} (filled : Filled cfg gs m) (shape : Shape gs m) (inv : Discipline gs m cfg)
    (only : (gs t).smo.held = [a]) (kept : (gs t).smo.kept = some leaf)
    (sorted : entries = OrderedMap.ofList (gs t).smo.keyed)
    (middle : entries[entries.length / 2]? = some (middleKey, block))
    (distributes : Distributes cfg leaf entries middleKey left right)
    (fresh : (gs t).smo.fresh = some (new, some (.leaf right))) (published : g.smo.fresh = none) (forgotten : g.smo.kept = none) :
    Filled cfg (Function.update gs t g) (m.setNode a (.leaf left)) := by
  -- both halves of a leaf keep the keys inside their fences
  obtain ⟨b, now, only', born, header, -⟩ := inv.notes.kept t leaf kept
  obtain rfl : a = b := by simpa [only] using only'
  subst sorted
  have order := OrderedMap.sorted_ofList (gs t).smo.keyed
  -- a kept entry is a block whose item has the entry's key, inside the old fence
  have entry : ∀ {i : ℕ} {e : Key × KVBlock}, (OrderedMap.ofList (gs t).smo.keyed)[i]? = some e →
      (m.items e.2.getAddr).key = e.1 ∧ leaf.header.covers e.1 := by
    intro i e found
    have inside := OrderedMap.mem_of_mem_ofList (List.mem_of_getElem? found)
    exact ⟨(filled.keyed t leaf kept e inside).1, shape.keyed t leaf kept e inside⟩
  have others : ∀ u, u ≠ t → (gs u).smo.held ≠ [a] := fun u other theirs =>
    other (inv.chains.owner u t a (by simp [theirs]) (by simp [only]))
  refine ⟨fun b x present i bound live => ?_, ?_, ?_⟩
  · rcases (inv.levels.born_split born fresh published).1 present with ⟨rfl, eq⟩ | ⟨-, old | ⟨-, eq⟩⟩
    · cases eq
      obtain ⟨-, e, found, eq, less⟩ := distributes.left_live order middle bound live
      obtain ⟨item, covers⟩ := entry found
      rw [eq, KVBlock.getAddr_setLocked, distributes.leftHeader]
      simp only [Memory.setNode, item]
      exact ⟨covers.1, less⟩
    · exact filled.inside b x old i bound live
    · cases eq
      obtain ⟨e, found, eq, least⟩ := distributes.right_live order middle bound live
      obtain ⟨item, covers⟩ := entry found
      rw [eq, KVBlock.getAddr_setLocked, distributes.rightHeader]
      simp only [Memory.setNode, item]
      exact ⟨least, covers.2⟩
  · refine (Function.forall_update_iff gs (p := fun _ l => ∀ snap, l.smo.kept = some snap → ∀ b x, l.smo.held = [b] →
      Born (Function.update gs t g) (m.setNode a (.leaf left)) b (.leaf x) →
      ∀ i < cfg.branchFactor, x.kvBlocks i = snap.kvBlocks i)).2
      ⟨by simp [forgotten], fun u other snap noted b x theirs present => ?_⟩
    rcases (inv.levels.born_split born fresh published).1 present with ⟨rfl, -⟩ | ⟨-, old | ⟨rfl, -⟩⟩
    · exact absurd theirs (others u other)
    · exact filled.kept u snap noted b x theirs old
    · exact absurd (by simp [theirs]) (inv.not_held_fresh (u := u) fresh)
  · exact (Function.forall_update_iff gs (p := fun _ l => ∀ snap, l.smo.kept = some snap → ∀ e ∈ l.smo.keyed,
      (m.items e.2.getAddr).key = e.1 ∧ ∃ i < cfg.branchFactor, snap.kvBlocks i = e.2 ∧ e.2.isFree = false)).2
      ⟨by simp [forgotten], fun u _ => filled.keyed u⟩

omit [BoundedOrder Key] in
theorem Filled.setLock {n : Node Key} {lock : BitVec 64} (filled : Filled cfg gs m) (born : Born gs m a n)
    (others : ∀ u, u ≠ t → (gs u).smo.held ≠ [a]) (fresh : g.smo.fresh = (gs t).smo.fresh) (kept : g.smo.kept = none) :
    Filled cfg (Function.update gs t g) (m.setNode a (n.setLock lock)) := by
  cases n with
  | leaf leaf => exact filled.relock born others rfl (fun _ _ => ⟨rfl, rfl⟩) fresh kept
  | internal node =>
    refine filled.stay (fun b x present => ?_) rfl (Or.inl kept)
    rcases (born_setNode ((born_update fresh).2 born)).1 present with ⟨-, eq⟩ | ⟨-, old⟩
    · cases eq
    · exact (born_update fresh).1 old

theorem Filled.permits [KeyBytes Key] {o : Op Key Value} {r : o.act.Reply} (filled : Filled cfg gs m) (shape : Shape gs m)
    (inv : Discipline gs m cfg) (idle : (gs t).put = .idle) (permitted : Permits cfg t gs m o r m' g) :
    Filled cfg (Function.update gs t g) m' := by
  have alone : ∀ {a}, a ∈ (gs t).smo.held → ∀ u, u ≠ t → (gs u).smo.held ≠ [a] := fun mine u other theirs =>
    other (inv.chains.owner u t _ (by simp [theirs]) mine)
  have look : ∀ {g'} {m' : Memory Key Value}, g'.smo = (gs t).smo → m'.nodes = m.nodes → m'.items = m.items →
      Filled cfg (Function.update gs t g') m' := by
    intro g' m' smo nodes items
    refine filled.stay (fun b x present => ?_) items (Or.inr ⟨by rw [smo], by rw [smo], by rw [smo]⟩)
    rw [born_update (by rw [smo])] at present
    exact ⟨nodes ▸ present.1, present.2⟩
  cases permitted with
  | readRoot => exact look rfl rfl rfl
  | readNode => exact look rfl rfl rfl
  | dequeue => exact look rfl rfl rfl
  | enqueue => exact look rfl rfl rfl
  | randFingerprint => exact look rfl rfl rfl
  | randAddr => exact look rfl rfl rfl
  | threadHash => exact look rfl rfl rfl
  | lockFailed => exact look rfl rfl rfl
  | @lockTaken site a n there unlocked target =>
    have born := (inv.born_of_target target there).1
    refine filled.setLock born (fun u _ theirs => ?_) rfl rfl
    have taken := inv.words.taken a n u born (by simp [theirs])
    simp [unlocked] at taken
  | released there held =>
    exact filled.setLock (inv.born_of_held (t := t) (by simp [held]) there) (alone (by simp [held])) rfl rfl
  | @abandoned site a c n _ _ _ _ there held =>
    have born := inv.born_of_held (t := t) (by simp [held]) there
    exact filled.setLock (n := .internal n) born (alone (by simp [held])) rfl rfl
  | readHeld =>
    refine filled.stay (fun b x present => ?_) rfl (Or.inr ⟨rfl, rfl, rfl⟩)
    exact (born_update (by rfl)).1 present
  | @slotLocked a leaf i there only clear bound kept =>
    have born := inv.born_of_held (t := t) (by simp [only]) there
    refine filled.relock born (alone (by simp [only])) rfl (fun j small => ?_) rfl kept
    have bit := (inv.bits.taken a leaf t born (by simp [only]) i bound).trans clear
    by_cases here : j = i
    · subst here
      simp only [LeafNode.setBlock, Function.update_self, KVBlock.add_one bit, KVBlock.isFree_setLocked,
        KVBlock.getAddr_setLocked, and_self]
    · simp [LeafNode.setBlock, here]
  | @slotUnlocked a leaf i there only locked bound =>
    have born := inv.born_of_held (t := t) (by simp [only]) there
    refine filled.relock born (alone (by simp [only])) rfl (fun j small => ?_) rfl rfl
    have bit := (inv.bits.taken a leaf t born (by simp [only]) i bound).trans locked
    by_cases here : j = i
    · subst here
      simp only [LeafNode.setBlock, Function.update_self, KVBlock.add_minus_one bit, KVBlock.isFree_setLocked,
        KVBlock.getAddr_setLocked, and_self]
    · simp [LeafNode.setBlock, here]
  | @readKept a leaf there only slots =>
    refine filled.note rfl rfl (fun b x held present => ?_) (by simp)
    obtain rfl : a = b := by simpa [only] using held
    cases Option.some.inj (there.symm.trans present.1)
    exact fun _ _ => rfl
  | @readKeptKey a leaf i only kept taken =>
    refine filled.note rfl kept (filled.kept t leaf kept) fun e member => ?_
    rcases List.mem_append.1 member with old | new
    · exact filled.keyed t leaf kept e old
    · rw [List.mem_singleton.1 new]
      simp only [takenIndices, List.mem_filter, List.mem_range, Bool.not_eq_true'] at taken
      exact ⟨rfl, i, taken.1, rfl, taken.2⟩
  | allocNode unused fresh =>
    exact filled.stay (fun b x present => ((inv.levels.sameTree_alloc unused fresh).born b _).1 present) rfl
      (Or.inr ⟨rfl, rfl, rfl⟩)
  | writeFresh fresh =>
    exact filled.stay (fun b x present => ((sameTree_write fresh).born b _).1 present) rfl (Or.inr ⟨rfl, rfl, rfl⟩)
  | leafSplit only kept pending _ sorted long middle distributes fresh =>
    exact filled.splitLeaf shape inv only kept sorted middle distributes fresh rfl rfl
  | linked held noted pending length covers =>
    obtain ⟨y, linking⟩ := shape.linking inv held noted pending length covers
    refine filled.stay (fun b x present => ?_) rfl (Or.inr ⟨rfl, rfl, rfl⟩)
    rcases (born_setNode ((born_update (by rfl)).2 linking.parent)).1 present with ⟨-, eq⟩ | ⟨-, old⟩
    · cases eq
    · exact (born_update (by rfl)).1 old
  | nodeSplit held noted pending length covers absent full middle fresh =>
    obtain ⟨y, linking⟩ := shape.linking inv held noted pending length covers
    refine filled.stay (fun b x present => ?_) rfl (Or.inr ⟨rfl, rfl, rfl⟩)
    rcases (inv.levels.born_split linking.parent fresh rfl).1 present with ⟨-, eq⟩ | ⟨-, old | ⟨-, eq⟩⟩
    · cases eq
    · exact old
    · cases eq
  | rootGrown held atTop root pending length fresh =>
    refine filled.stay (fun b x present => ?_) rfl (Or.inr ⟨rfl, rfl, rfl⟩)
    rcases (inv.levels.born_publish fresh rfl b _).1 present with old | ⟨-, eq⟩
    · exact old
    · cases eq
  | allocItem usable allocated wanted =>
    rw [idle] at wanted
    cases wanted
  | writeItem item =>
    rw [idle] at item
    cases item
  | readLeaf site wanted =>
    rw [idle] at wanted
    cases wanted
  | lookItem seen =>
    rw [idle] at seen
    cases seen
  | lookKey seen =>
    rw [idle] at seen
    cases seen
  | slotMissed => exact look rfl rfl rfl
  | slotFilled there target eq ready =>
    have item := ready.written
    rw [idle] at item
    cases item
  | slotUpdated there target ready =>
    have item := ready.written
    rw [idle] at item
    cases item
  | slotDeleted there target eq seen =>
    rw [idle] at seen
    cases seen
  | freeReplaced freeing =>
    rw [idle] at freeing
    cases freeing
  | freeDeleted seen =>
    rw [idle] at seen
    cases seen

end

/-! ## Runs of splits -/

section
variable [KeyBytes Key] {cfg : Config}

structure Splitting (cfg : Config) (gs : Thread → Local Key Value) (s : State Key Value) : Prop where
  disciplined : Disciplined cfg gs s
  shape : Shape gs s.memory
  filled : Filled cfg gs s.memory
  put : ∀ t, (gs t).put = .idle

theorem Permits.put_idle {t : Thread} {gs : Thread → Local Key Value} {m m' : Memory Key Value} {o : Op Key Value}
    {r : o.act.Reply} {g : Local Key Value} (permitted : Permits cfg t gs m o r m' g) (idle : (gs t).put = .idle) :
    g.put = .idle := by
  cases permitted with
  | slotFilled there target eq ready =>
    have item := ready.written
    rw [idle] at item
    cases item
  | slotUpdated there target ready =>
    have item := ready.written
    rw [idle] at item
    cases item
  | _ => simp_all [Put.idle]

section
variable {gs : Thread → Local Key Value} {s : State Key Value} {m m' : Memory Key Value}

omit [LinearOrder Key] [BoundedOrder Key] [KeyBytes Key] in
theorem Levels.born_reachable {a : GlobalAddress} {n : Node Key} (inv : Levels gs m) (reachable : Reachable m a)
    (there : m.nodes a = some n) : Born gs m a n ∧ ¬ Pending gs a := by
  obtain ⟨level, ⟨n', born, -⟩, linked⟩ := inv.reachable reachable
  obtain rfl : n' = n := Option.some.inj (born.1.symm.trans there)
  exact ⟨born, linked⟩

omit [BoundedOrder Key] [KeyBytes Key] in
theorem Filled.fill (filled : Filled cfg gs m) (inv : Discipline gs m cfg) (fills : Fills cfg m m') : Filled cfg gs m' := by
  obtain ⟨a, leaf, i, b, items, reachable, there, bound, free, unlocked, -, -, covers, keys, rfl⟩ := fills
  have born := (inv.levels.born_reachable reachable there).1
  have bornItems : Born gs { m with items } a (.leaf leaf) := born
  refine ⟨fun c x present j small live => ?_, fun u snap kept c x only present j small => ?_, fun u snap kept e member => ?_⟩
  · rcases (born_setNode bornItems).1 present with ⟨rfl, eq⟩ | ⟨-, old⟩
    · cases eq
      by_cases here : j = i
      · subst here
        simp only [LeafNode.setBlock, Function.update_self, Memory.setNode]
        exact covers
      · simp only [LeafNode.setBlock, Function.update_of_ne here] at live ⊢
        simp only [Memory.setNode, keys c leaf j there small live]
        exact filled.inside c leaf born j small live
    · simp only [Memory.setNode, keys c x j old.1 small live]
      exact filled.inside c x old j small live
  · rcases (born_setNode bornItems).1 present with ⟨rfl, eq⟩ | ⟨-, old⟩
    · cases eq
      have locked : (leaf.kvBlocks i).isLocked = true := by
        rw [inv.bits.taken c leaf u born (by simp [only]) i bound]
        exact inv.notes.keptSlots u snap kept i bound
      simp [unlocked] at locked
    · exact filled.kept u snap kept c x only old j small
  · obtain ⟨key, j, small, eq, live⟩ := filled.keyed u snap kept e member
    obtain ⟨c, x, only, present, -, -⟩ := inv.notes.kept u snap kept
    have block := (filled.kept u snap kept c x only present j small).trans eq
    have same := keys c x j present.1 small (by rw [block]; exact live)
    rw [block] at same
    exact ⟨same.trans key, j, small, eq, live⟩

omit [KeyBytes Key] in
theorem Splitting.fill {s' : State Key Value} (inv : Splitting cfg gs s) (fills : Fills cfg s.memory s'.memory)
    (history : s'.history = s.history) : Splitting cfg gs s' := by
  have filled := inv.filled.fill inv.disciplined.discipline fills
  obtain ⟨a, leaf, i, b, items, reachable, there, bound, free, unlocked, live, open_, covers, keys, eq⟩ := fills
  have discipline := inv.disciplined.discipline
  have born := (discipline.levels.born_reachable reachable there).1
  have stay : Discipline gs { s.memory with items } cfg := by
    have same : Discipline (Function.update gs ⟨0, 0⟩ (gs ⟨0, 0⟩)) { s.memory with items } cfg :=
      discipline.stay rfl rfl rfl rfl rfl rfl
    rwa [Function.update_eq_self] at same
  have exchange := stay.exchange (t := ⟨0, 0⟩) (g := gs ⟨0, 0⟩) (show Born gs { s.memory with items } a (.leaf leaf)
    from born) rfl rfl (open_.trans unlocked.symm) bound (by simp [unlocked])
  rw [Function.update_eq_self, ← eq] at exchange
  refine ⟨⟨exchange, ?_, ?_, inv.disciplined.drafts⟩, ?_, filled, inv.put⟩
  · rw [history]
    exact inv.disciplined.held
  · rw [history]
    exact inv.disciplined.waiting
  · rw [eq]
    have shape : Shape gs { s.memory with items } :=
      inv.shape.of_sameTree ⟨fun _ _ => Iff.rfl, fun _ => rfl, rfl⟩ inv.shape.keyed
    exact shape.setNode (show Born gs { s.memory with items } a (.leaf leaf) from born) rfl (by simp)

end

omit [KeyBytes Key] in
theorem Splitting.reset {gs : Thread → Local Key Value} {s s' : State Key Value} {t : Thread} {g : Local Key Value}
    (inv : Splitting cfg gs s) (disciplined : Disciplined cfg (Function.update gs t g) s') (memory : s'.memory = s.memory)
    (before : (gs t).smo = .idle) (smo : g.smo = .idle) (put : g.put = .idle) :
    Splitting cfg (Function.update gs t g) s' := by
  have fresh : g.smo.fresh = (gs t).smo.fresh := by rw [smo, before]
  refine ⟨disciplined, ?_, ?_, ?_⟩
  · rw [memory]
    exact inv.shape.update (.update fresh (by rw [smo, before]) rfl rfl) (by simp [smo, Smo.idle])
  · rw [memory]
    exact inv.filled.stay (fun b x present => (born_update fresh).1 present) rfl (Or.inl (by simp [smo, Smo.idle]))
  · exact (Function.forall_update_iff gs (p := fun (_ : Thread) l => l.put = Put.idle)).2 ⟨put, fun u _ => inv.put u⟩

theorem preserves_splitting (wide : 2 ≤ cfg.branchFactor) :
    Preserves (system cfg splitCalls (Fills cfg)) (machine cfg)
      (Splitting cfg : (Thread → Local Key Value) → State Key Value → Prop) anything where
  invoke gs s t call g inv idle admitted begins := by
    obtain ⟨a, rfl, -⟩ := admitted
    have disciplined := inv.disciplined.invoke idle begins
    obtain ⟨target, rfl, -⟩ := begins
    exact inv.reset disciplined rfl (by rw [idle]; rfl) rfl rfl
  act gs s t o c r s' g inv _ _ permits := by
    have put := (Function.forall_update_iff gs (a := t) (b := g) (p := fun (_ : Thread) l => l.put = Put.idle)).2
      ⟨permits.1.put_idle (inv.put t), fun u _ => inv.put u⟩
    exact ⟨inv.disciplined.act permits,
      inv.shape.permits inv.disciplined.discipline wide (inv.filled.keptInside inv.disciplined.discipline) permits.1,
      inv.filled.permits inv.shape inv.disciplined.discipline (inv.put t) permits.1, put⟩
  finish gs s t call outcome inv ends := inv.reset (inv.disciplined.finish ends) rfl ends.1 rfl rfl
  env gs s s' inv moved := inv.fill moved.1 moved.2

omit [KeyBytes Key] in
theorem shape_initialized [Nontrivial Key] {m : Memory Key Value} (initialized : m.Initialized) :
    Shape (fun _ => .idle) m := by
  have only : ∀ {a n}, m.nodes a = some n → a = m.rootOffset ∧ n = .leaf (.init (⊥, ⊤)) := by
    intro a n found
    rw [initialized.nodes] at found
    by_cases same : a = m.rootOffset
    · subst same
      rw [Function.update_self] at found
      exact ⟨rfl, (Option.some.inj found).symm⟩
    · simp [same] at found
  have settled : ∀ a, ¬ Pending (fun _ => (.idle : Local Key Value)) a := by
    rintro a ⟨t, level, key, own⟩
    cases own
  refine ⟨⟨0, .single (fun a x => ⟨fun there => ?_, ?_⟩) settled⟩, fun a n born => ?_, fun t a level key own => (by cases own),
    fun t snap kept => (by cases kept)⟩
  · obtain ⟨n, born, rfl⟩ := tiles_eq_some.1 there
    obtain ⟨rfl, rfl⟩ := only born.1
    exact ⟨rfl, rfl⟩
  · rintro ⟨rfl, rfl⟩
    refine tiles_born (n := .leaf (.init (⊥, ⊤))) ⟨by rw [initialized.nodes, Function.update_self], ?_⟩
    rintro ⟨t, content, own⟩
    cases own
  · cases (only born.1).2

omit [KeyBytes Key] in
theorem splitting_initialized [Nontrivial Key] {m : Memory Key Value} (initialized : m.Initialized) :
    Splitting cfg (fun _ => .idle) ⟨m, []⟩ := by
  refine ⟨disciplined_initialized initialized, shape_initialized initialized, ⟨fun a leaf born i _ live => ?_,
    fun t snap kept => (by cases kept), fun t snap kept => (by cases kept)⟩, fun _ => rfl⟩
  have found : m.nodes a = some (.leaf leaf) := born.1
  rw [initialized.nodes] at found
  by_cases same : a = m.rootOffset
  · subst same
    rw [Function.update_self] at found
    cases found
    simp [LeafNode.init, KVBlock.empty] at live
  · simp [same] at found

theorem Permits.setup_atTop {t : Thread} {gs : Thread → Local Key Value} {m m' : Memory Key Value} {r : GlobalAddress}
    {g : Local Key Value} (permitted : Permits cfg t gs m ⟨.setupNewRoot, .allocNode⟩ r m' g) : (gs t).view.atTop = true := by
  cases permitted with
  | allocNode unused fresh atTop => exact atTop rfl

theorem Discipline.rootExchange {t : Thread} {gs : Thread → Local Key Value} {m m' : Memory Key Value} {site : Site}
    {expected desired r : GlobalAddress} {g : Local Key Value} (inv : Discipline gs m cfg)
    (permitted : Permits cfg t gs m ⟨site, .casRoot expected desired⟩ r m' g) :
    m.rootOffset = expected ∧ expected ∈ (gs t).smo.held ∧
      ∃ old new, m.nodes expected = some old ∧ m.nodes desired = some new ∧ new.header.level = old.header.level + 1 := by
  cases permitted with
  | @rootGrown a c new rest level key held atTop root pending length fresh =>
    obtain ⟨⟨n, born, eq⟩, -⟩ := inv.chains.chain t [] expected rest held
    exact ⟨root, by simp [held], n, _, born.1, (inv.levels.fresh t desired _ fresh).2, by rw [eq, length]; rfl⟩

/-- Splits of any leaves by any number of threads, interleaved anyhow: only the holder of the root's lock sets up
a new root, its exchange of the root pointer succeeds and adds one level; a child is listed in one place at
most; and whenever no split is under way the tree is whole and contains every node. -/
theorem splits_keep_tree [Nontrivial Key] (wide : 4 ≤ cfg.branchFactor) {m : Memory Key Value} (initialized : m.Initialized)
    {P : IndexPool Key Value} (run : Reaches (system cfg splitCalls (Fills cfg)) anything (Pool.start ⟨m, []⟩) P) :
    (∀ t call next done c r s, P.threads t = some ⟨call, .perform ⟨.setupNewRoot, .allocNode⟩ next, done⟩ →
      State.exec cfg.usable t ⟨.setupNewRoot, .allocNode⟩ c P.shared = some (r, s) →
      P.shared.memory.rootOffset ∈ heldBy t P.shared.history) ∧
    (∀ t call site expected desired next done,
      P.threads t = some ⟨call, .perform ⟨site, .casRoot expected desired⟩ next, done⟩ →
      P.shared.memory.rootOffset = expected ∧ expected ∈ heldBy t P.shared.history ∧
        ∃ old new, P.shared.memory.nodes expected = some old ∧ P.shared.memory.nodes desired = some new ∧
          new.header.level = old.header.level + 1) ∧
    (∀ a b n x i j, Reachable P.shared.memory a → Reachable P.shared.memory b →
      P.shared.memory.nodes a = some (.internal n) → P.shared.memory.nodes b = some (.internal x) →
      i ≤ n.header.lastIndex → j ≤ x.header.lastIndex → (n.entries i).child = (x.entries j).child → a = b ∧ i = j) ∧
    (P.Quiescent → WellShaped P.shared.memory) := by
  have admitted : ∀ (s : State Key Value) t call, splitCalls s t call → calls s t call := by
    rintro s t call ⟨a, rfl, leaf⟩ b ⟨⟩
    exact leaf
  obtain ⟨gs, explains⟩ := (explains_start (splitting_initialized initialized)).reaches
    (implements_machine (fun _ _ inv => inv.disciplined.discipline) admitted) (preserves_splitting (by omega)) run
  have inv := explains.holds
  have discipline := inv.disciplined.discipline
  have top : ∀ {t}, (gs t).view.atTop = true → P.shared.memory.rootOffset ∈ heldBy t P.shared.history := by
    intro t atTop
    rw [← inv.disciplined.held]
    exact List.mem_of_mem_head? (discipline.views.atTop t atTop)
  refine ⟨fun t call next done c r s running performed => ?_, fun t call site expected desired next done running => ?_,
    fun a b n x i j one two thereA thereB boundI boundJ same => ?_, fun quiescent => ?_⟩
  · obtain ⟨g, ⟨permitted, -⟩, -⟩ := explains.permits running performed
    exact top permitted.setup_atTop
  · have performed : ∃ r s, State.exec cfg.usable t ⟨site, .casRoot expected desired⟩ 0 P.shared = some (r, s) := by
      by_cases same : P.shared.memory.rootOffset = expected
      · exact ⟨_, _, by simp [State.exec, Memory.exec, same]; rfl⟩
      · exact ⟨_, _, by simp [State.exec, Memory.exec, same]; rfl⟩
    obtain ⟨r, s, performed⟩ := performed
    obtain ⟨g, ⟨permitted, -⟩, -⟩ := explains.permits running performed
    rw [← inv.disciplined.held]
    exact discipline.rootExchange permitted
  · exact inv.shape.listed_once (discipline.levels.born_reachable one thereA).1 (discipline.levels.born_reachable two thereB).1
      boundI boundJ same
  · exact inv.shape.at_rest discipline.levels fun t => explains.idle t (quiescent t)

/-! ## A full root is split -/

def leafMemory (leaf : LeafNode (Fin 256)) (items : GlobalAddress → KVItem (Fin 256) ℕ) : Memory (Fin 256) ℕ :=
  { smallMemory with nodes := Function.update (fun _ => none) ⟨0⟩ (some (.leaf leaf)), items }

theorem fills_leafMemory {leaf : LeafNode (Fin 256)} {items : GlobalAddress → KVItem (Fin 256) ℕ} {i : ℕ} {b : KVBlock}
    {item : KVItem (Fin 256) ℕ} (bound : i < smallConfig.branchFactor)
    (empty : (leaf.kvBlocks i).isFree = true ∧ (leaf.kvBlocks i).isLocked = false) (open_ : b.isFree = false ∧ b.isLocked = false)
    (covers : leaf.header.covers item.key)
    (unused : ∀ j < smallConfig.branchFactor, (leaf.kvBlocks j).isFree = false → (leaf.kvBlocks j).getAddr ≠ b.getAddr) :
    Fills smallConfig (leafMemory leaf items) (leafMemory (leaf.setBlock i b) (Function.update items b.getAddr item)) := by
  refine ⟨⟨0⟩, leaf, i, b, Function.update items b.getAddr item, .refl, by simp [leafMemory], bound, empty.1, empty.2, open_.1,
    open_.2, by rwa [Function.update_self], fun c other j there small live => ?_, ?_⟩
  · by_cases root : c = ⟨0⟩
    · subst root
      obtain rfl : leaf = other := by simpa [leafMemory] using there
      rw [Function.update_of_ne (unused j small live)]
      rfl
    · have nowhere : (leafMemory leaf items).nodes c = none := by
        simp only [leafMemory, Function.update_of_ne root]
      cases nowhere.symm.trans there
  · simp [leafMemory, Memory.setNode]

/-- The block of slot `i`, with its item at address `i + 1`. -/
def filledBlock (i : ℕ) : KVBlock := .make (.ofBits 0) (.ofAddress (BitVec.ofNat 64 (i + 1))) false false

def filledLeaf : ℕ → LeafNode (Fin 256)
  | 0 => .init (⊥, ⊤)
  | n + 1 => (filledLeaf n).setBlock n (filledBlock n)

def filledKey (n : ℕ) : Fin 256 := ⟨n % 255 + 1, by omega⟩

def filledItems : ℕ → GlobalAddress → KVItem (Fin 256) ℕ
  | 0 => fun _ => ⟨0, 0⟩
  | n + 1 => Function.update (filledItems n) (filledBlock n).getAddr ⟨filledKey n, 0⟩

def filledMemory (n : ℕ) : Memory (Fin 256) ℕ := leafMemory (filledLeaf n) (filledItems n)

/-- Calls of `splitCalls` that are seen to be possible. -/
def rootSplits (s : State (Fin 256) ℕ) (t : Thread) : Call (Fin 256) ℕ → Bool
  | .split a => rootCalls s t (.split a)
  | _ => false

theorem splitCalls_of_rootSplits (s : State (Fin 256) ℕ) (t : Thread) (call : Call (Fin 256) ℕ)
    (possible : rootSplits s t call = true) : splitCalls s t call := by
  cases call with
  | split a => exact ⟨a, rfl, calls_of_rootCalls s t (.split a) possible a rfl⟩
  | insert key value => cases possible
  | read key => cases possible
  | maintain => cases possible

/-- The full root is split and gets a root above it. -/
def splitRoot : IndexPool (Fin 256) ℕ :=
  (Pool.start ⟨filledMemory 4, []⟩).drive (system smallConfig splitCalls (Fills smallConfig)) rootSplits freely
    (Move.part ⟨0, 0⟩ (.split ⟨0⟩) 100#64 23 ++ List.replicate 6 (.act ⟨0, 0⟩ 101#64) ++ [.return ⟨0, 0⟩])

theorem reaches_filledMemory : Reaches (system smallConfig splitCalls (Fills smallConfig)) anything
    (Pool.start ⟨smallMemory, []⟩) (Pool.start ⟨filledMemory 4, []⟩) := by
  have fill : ∀ n < 4, Fills smallConfig (filledMemory n) (filledMemory (n + 1)) := by
    intro n bound
    have unused : ∀ n < 4, ∀ j < smallConfig.branchFactor, ((filledLeaf n).kvBlocks j).isFree = false →
        ((filledLeaf n).kvBlocks j).getAddr ≠ (filledBlock n).getAddr := by decide
    have empty : ∀ n < 4, ((filledLeaf n).kvBlocks n).isFree = true ∧ ((filledLeaf n).kvBlocks n).isLocked = false := by decide
    have open_ : ∀ n < 4, (filledBlock n).isFree = false ∧ (filledBlock n).isLocked = false := by decide
    have covers : ∀ n < 4, (filledLeaf n).header.covers (filledKey n) := by decide
    exact fills_leafMemory bound (empty n bound) (open_ n bound) (covers n bound) (unused n bound)
  have step : ∀ n < 4, Step (system smallConfig splitCalls (Fills smallConfig)) anything
      (Pool.start ⟨filledMemory n, []⟩) (Pool.start ⟨filledMemory (n + 1), []⟩) :=
    fun n bound => .environment ⟨fill n bound, rfl⟩
  exact (((Relation.ReflTransGen.refl.tail (step 0 (by decide))).tail (step 1 (by decide))).tail (step 2 (by decide))).tail
    (step 3 (by decide))

theorem reaches_splitRoot : Reaches (system smallConfig splitCalls (Fills smallConfig)) anything
    (Pool.start ⟨smallMemory, []⟩) splitRoot :=
  reaches_filledMemory.trans (reaches_drive splitCalls_of_rootSplits (fun _ _ _ _ _ => trivial) _ _)

theorem splitRoot_quiescent : splitRoot.Quiescent := by
  intro t
  by_cases same : t = ⟨0, 0⟩
  · subst same
    have ended : (splitRoot.threads ⟨0, 0⟩).isNone = true := by decide +kernel
    exact Option.isNone_iff_eq_none.1 ended
  · unfold splitRoot
    rw [drive_untouched]
    · rfl
    · simpa [Move.part, Move.thread] using same

/-- Four slots are filled, the leaf is split, and a new root stands above its halves. -/
theorem splits_keep_tree_splitRoot :
    splitRoot.shared.memory.rootOffset = ⟨101⟩ ∧ (splitRoot.shared.memory.nodes ⟨100⟩).isSome ∧
      WellShaped splitRoot.shared.memory :=
  ⟨by decide +kernel, by decide +kernel, (splits_keep_tree (show 4 ≤ smallConfig.branchFactor by decide)
    (show smallMemory.Initialized from Memory.emptyTree_initialized _ _) reaches_splitRoot).2.2.2 splitRoot_quiescent⟩

end

end Faunus
