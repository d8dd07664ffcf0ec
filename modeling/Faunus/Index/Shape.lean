import Faunus.Index.Preservation
import Faunus.Index.Tiles

/-! The shape of the tree under concurrent splits.

The nodes of the tree form a forest of tiles in which split-off nodes are pending
until they are linked. Together with the lock discipline this is all that the
splits need of each other.
-/

set_option autoImplicit false

namespace Faunus

open Interleaving Tiling

variable {Key Value : Type}

section
variable (gs : Thread → Local Key Value) (m : Memory Key Value)

open Classical in
/-- The tree as tiles; nodes that are still being prepared do not count. -/
noncomputable def tiles (a : GlobalAddress) : Option (Tile Key GlobalAddress) :=
  if Fresh gs a then none else (m.nodes a).map Node.tile

variable [LinearOrder Key] [BoundedOrder Key]

structure Shape : Prop where
  forest : ∃ top, Forest (tiles gs m) {a | Pending gs a} m.rootOffset top
  ordered : ∀ a n, Born gs m a (.internal n) → n.Ordered
  separator : ∀ t a level key, (gs t).smo.pending = some (a, level, key) → ∃ n, Born gs m a n ∧ n.header.fence.1 = key
  keyed : ∀ t snap, (gs t).smo.kept = some snap → ∀ e ∈ (gs t).smo.keyed, snap.header.covers e.1

end

variable {gs gs' : Thread → Local Key Value} {m m' : Memory Key Value}

theorem tiles_eq_some {a : GlobalAddress} {x : Tile Key GlobalAddress} :
    tiles gs m a = some x ↔ ∃ n, Born gs m a n ∧ n.tile = x := by
  unfold tiles
  split_ifs with fresh
  · simp [Born, fresh]
  · simp [Born, fresh]

theorem tiles_born {a : GlobalAddress} {n : Node Key} (born : Born gs m a n) : tiles gs m a = some n.tile :=
  tiles_eq_some.2 ⟨n, born, rfl⟩

theorem SameTree.tiles (same : SameTree gs gs' m m') : tiles gs' m' = tiles gs m := by
  funext a
  refine Option.ext fun x => ?_
  rw [tiles_eq_some, tiles_eq_some]
  simp only [same.born]

theorem tiles_setNode {a : GlobalAddress} {n n' : Node Key} (born : Born gs m a n) :
    tiles gs (m.setNode a n') = Function.update (tiles gs m) a (some n'.tile) := by
  funext b
  by_cases here : b = a
  · subst here
    rw [Function.update_self]
    exact tiles_born ((born_setNode born).2 (Or.inl ⟨rfl, rfl⟩))
  · rw [Function.update_of_ne here]
    refine Option.ext fun x => ?_
    rw [tiles_eq_some, tiles_eq_some]
    simp [born_setNode born, here]

theorem Levels.tiles_publish {t : Thread} {g : Local Key Value} {new : GlobalAddress} {n : Node Key} (inv : Levels gs m)
    (fresh : (gs t).smo.fresh = some (new, some n)) (published : g.smo.fresh = none) :
    tiles (Function.update gs t g) m = Function.update (tiles gs m) new (some n.tile) := by
  funext b
  by_cases here : b = new
  · subst here
    rw [Function.update_self]
    exact tiles_born ((inv.born_publish fresh published b n).2 (Or.inr ⟨rfl, rfl⟩))
  · rw [Function.update_of_ne here]
    refine Option.ext fun x => ?_
    rw [tiles_eq_some, tiles_eq_some]
    simp [inv.born_publish fresh published, here]

theorem born_update {t : Thread} {g : Local Key Value} (fresh : g.smo.fresh = (gs t).smo.fresh) {a : GlobalAddress}
    {n : Node Key} : Born (Function.update gs t g) m a n ↔ Born gs m a n := by
  have same : ∀ u, (Function.update gs t g u).smo.fresh = (gs u).smo.fresh :=
    (Function.forall_update_iff gs (p := fun u l => l.smo.fresh = (gs u).smo.fresh)).2 ⟨fresh, fun _ _ => rfl⟩
  simp only [Born, Fresh, same]

theorem tiles_update {t : Thread} {g : Local Key Value} (fresh : g.smo.fresh = (gs t).smo.fresh) :
    tiles (Function.update gs t g) m = tiles gs m := by
  funext a
  refine Option.ext fun x => ?_
  rw [tiles_eq_some, tiles_eq_some]
  simp only [born_update fresh]

theorem tiles_fresh {t : Thread} {new : GlobalAddress} {content : Option (Node Key)}
    (fresh : (gs t).smo.fresh = some (new, content)) : tiles gs m new = none := by
  unfold tiles
  rw [if_pos ⟨t, content, fresh⟩]

/-! ## The pending nodes -/

section
variable {t : Thread} {g : Local Key Value}

theorem pending_publish {new : GlobalAddress} {level : ℕ} {key : Key} (none : (gs t).smo.pending = none)
    (published : g.smo.pending = some (new, level, key)) :
    {a | Pending (Function.update gs t g) a} = Insert.insert new {a | Pending gs a} := by
  ext b
  constructor
  · rintro ⟨u, l, k, own⟩
    by_cases same : u = t
    · subst same
      rw [Function.update_self, published] at own
      cases own
      exact Or.inl rfl
    · rw [Function.update_of_ne same] at own
      exact Or.inr ⟨u, l, k, own⟩
  · rintro (rfl | ⟨u, l, k, own⟩)
    · exact ⟨t, level, key, by rw [Function.update_self, published]⟩
    · have other : u ≠ t := by
        rintro rfl
        simp [none] at own
      exact ⟨u, l, k, by rw [Function.update_of_ne other, own]⟩

theorem Levels.pending_settle {c : GlobalAddress} {level : ℕ} {key : Key} (inv : Levels gs m)
    (pending : (gs t).smo.pending = some (c, level, key)) (settled : g.smo.pending = none) :
    {a | Pending (Function.update gs t g) a} = {a | Pending gs a} \ {c} := by
  ext b
  constructor
  · rintro ⟨u, l, k, own⟩
    by_cases same : u = t
    · subst same
      simp [settled] at own
    · rw [Function.update_of_ne same] at own
      refine ⟨⟨u, l, k, own⟩, ?_⟩
      rintro rfl
      exact same (inv.pendingOwner u t b l k level key own pending)
  · rintro ⟨⟨u, l, k, own⟩, different⟩
    have other : u ≠ t := by
      rintro rfl
      rw [pending] at own
      cases own
      exact different rfl
    exact ⟨u, l, k, by rw [Function.update_of_ne other, own]⟩

theorem Levels.pending_replace {c new : GlobalAddress} {level level' : ℕ} {key key' : Key} (inv : Levels gs m)
    (pending : (gs t).smo.pending = some (c, level, key)) (published : g.smo.pending = some (new, level', key')) :
    {a | Pending (Function.update gs t g) a} = Insert.insert new ({a | Pending gs a} \ {c}) := by
  have settled := inv.pending_settle (g := { g with smo := { g.smo with pending := none } }) pending rfl
  have again : {a | Pending (Function.update (Function.update gs t { g with smo := { g.smo with pending := none } }) t g) a} =
      _ := pending_publish (by rw [Function.update_self]) published
  rwa [Function.update_idem, settled] at again

theorem Levels.born_split {a new : GlobalAddress} {n left right : Node Key} (inv : Levels gs m) (born : Born gs m a n)
    (fresh : (gs t).smo.fresh = some (new, some right)) (published : g.smo.fresh = none) {b : GlobalAddress} {x : Node Key} :
    Born (Function.update gs t g) (m.setNode a left) b x ↔
      b = a ∧ x = left ∨ b ≠ a ∧ (Born gs m b x ∨ b = new ∧ x = right) := by
  rw [born_setNode ((inv.born_publish fresh published a n).2 (Or.inl born)), inv.born_publish fresh published]

theorem Levels.tiles_split {a new : GlobalAddress} {n left right : Node Key} (inv : Levels gs m) (born : Born gs m a n)
    (fresh : (gs t).smo.fresh = some (new, some right)) (published : g.smo.fresh = none) :
    tiles (Function.update gs t g) (m.setNode a left) =
      Function.update (Function.update (tiles gs m) a (some left.tile)) new (some right.tile) := by
  have different : new ≠ a := by
    rintro rfl
    exact born.2 ⟨t, _, fresh⟩
  rw [tiles_setNode ((inv.born_publish fresh published a n).2 (Or.inl born)), inv.tiles_publish fresh published,
    Function.update_comm different]

end

/-! ## Changes of the shape -/

section
variable [LinearOrder Key] [BoundedOrder Key] {t : Thread} {g : Local Key Value}

theorem Shape.of_sameTree (shape : Shape gs m) (same : SameTree gs gs' m m')
    (keyed : ∀ u snap, (gs' u).smo.kept = some snap → ∀ e ∈ (gs' u).smo.keyed, snap.header.covers e.1) : Shape gs' m' := by
  obtain ⟨top, forest⟩ := shape.forest
  have pending : {a | Pending gs' a} = {a | Pending gs a} := by simp only [Pending, same.pending]
  refine ⟨⟨top, by rw [same.tiles, pending, same.root]; exact forest⟩, fun a n born => ?_, fun u a level key own => ?_, keyed⟩
  · exact shape.ordered a n ((same.born a _).1 born)
  · rw [same.pending] at own
    obtain ⟨n, born, lo⟩ := shape.separator u a level key own
    exact ⟨n, (same.born a n).2 born, lo⟩

theorem Shape.update (shape : Shape gs m) (same : SameTree gs (Function.update gs t g) m m')
    (keyed : ∀ snap, g.smo.kept = some snap → ∀ e ∈ g.smo.keyed, snap.header.covers e.1) :
    Shape (Function.update gs t g) m' :=
  shape.of_sameTree same <| (Function.forall_update_iff gs (p := fun _ l => ∀ snap, l.smo.kept = some snap →
    ∀ e ∈ l.smo.keyed, snap.header.covers e.1)).2 ⟨keyed, fun u _ => shape.keyed u⟩

theorem Shape.setNode {a : GlobalAddress} {n n' : Node Key} (shape : Shape gs m) (born : Born gs m a n)
    (tile : n'.tile = n.tile) (ordered : ∀ x, n' = .internal x → x.Ordered) : Shape gs (m.setNode a n') := by
  -- a node changes and its tile does not
  obtain ⟨top, forest⟩ := shape.forest
  refine ⟨⟨top, ?_⟩, fun b x present => ?_, fun u b level key own => ?_, shape.keyed⟩
  · rw [tiles_setNode born, tile, Function.update_eq_self_iff.2 (tiles_born born).symm]
    exact forest
  · rcases (born_setNode born).1 present with ⟨-, eq⟩ | ⟨-, old⟩
    · exact ordered x eq.symm
    · exact shape.ordered b x old
  · obtain ⟨x, present, lo⟩ := shape.separator u b level key own
    by_cases here : b = a
    · subst here
      obtain rfl := born_unique born present
      refine ⟨n', (born_setNode born).2 (Or.inl ⟨rfl, rfl⟩), ?_⟩
      rw [← Node.tile_lo, tile, Node.tile_lo, lo]
    · exact ⟨x, (born_setNode born).2 (Or.inr ⟨here, present⟩), lo⟩

theorem Shape.split {a new : GlobalAddress} {n left right : Node Key} {level : ℕ} {key : Key} (shape : Shape gs m)
    (levels : Levels gs m) (born : Born gs m a n) (linked : ¬ Pending gs a)
    (fresh : (gs t).smo.fresh = some (new, some right)) (published : g.smo.fresh = none)
    (pending : g.smo.pending = some (new, level, key)) (kept : g.smo.kept = none) (lo : right.header.fence.1 = key)
    (forest : ∃ top, Forest (Function.update (Function.update (tiles gs m) a (some left.tile)) new (some right.tile))
      {b | Pending (Function.update gs t g) b} m.rootOffset top)
    (ordered : ∀ x, left = .internal x ∨ right = .internal x → x.Ordered) :
    Shape (Function.update gs t g) (m.setNode a left) := by
  -- a node is split in two; what is split off is pending and listed nowhere yet
  have different : new ≠ a := by
    rintro rfl
    exact born.2 ⟨t, _, fresh⟩
  refine ⟨by rw [levels.tiles_split born fresh published]; exact forest, fun b x present => ?_, ?_, ?_⟩
  · rcases (levels.born_split born fresh published).1 present with ⟨-, eq⟩ | ⟨-, old | ⟨-, eq⟩⟩
    · exact ordered x (Or.inl eq.symm)
    · exact shape.ordered b x old
    · exact ordered x (Or.inr eq.symm)
  · refine (Function.forall_update_iff gs (p := fun u l => ∀ b lev k, l.smo.pending = some (b, lev, k) →
      ∃ x, Born (Function.update gs t g) (m.setNode a left) b x ∧ x.header.fence.1 = k)).2 ⟨fun b lev k own => ?_,
      fun u _ b lev k own => ?_⟩
    · rw [pending] at own
      cases own
      exact ⟨right, (levels.born_split born fresh published).2 (Or.inr ⟨different, Or.inr ⟨rfl, rfl⟩⟩), lo⟩
    · obtain ⟨x, present, eq⟩ := shape.separator u b lev k own
      have other : b ≠ a := by
        rintro rfl
        exact linked ⟨u, lev, k, own⟩
      exact ⟨x, (levels.born_split born fresh published).2 (Or.inr ⟨other, Or.inl present⟩), eq⟩
  · exact (Function.forall_update_iff gs (p := fun _ l => ∀ snap, l.smo.kept = some snap →
      ∀ e ∈ l.smo.keyed, snap.header.covers e.1)).2 ⟨by simp [kept], fun u _ => shape.keyed u⟩

/-! ## Splitting leaves -/

variable {cfg : Config}

omit [BoundedOrder Key] in
theorem middleKey_between {leaf : LeafNode Key} {keyed : List (Key × KVBlock)} {middleKey : Key} {block : KVBlock}
    (inside : ∀ e ∈ keyed, leaf.header.covers e.1) (long : 2 ≤ (OrderedMap.ofList keyed).length)
    (middle : (OrderedMap.ofList keyed)[(OrderedMap.ofList keyed).length / 2]? = some (middleKey, block)) :
    leaf.header.fence.1 < middleKey ∧ middleKey < leaf.header.fence.2 := by
  have first : (OrderedMap.ofList keyed)[0]? = some (OrderedMap.ofList keyed)[0] := List.getElem?_eq_getElem (by omega)
  have less := (OrderedMap.sorted_ofList keyed).lt (by omega) first middle
  have lower := inside _ (OrderedMap.mem_of_mem_ofList (List.mem_of_getElem? first))
  have upper := inside _ (OrderedMap.mem_of_mem_ofList (List.mem_of_getElem? middle))
  exact ⟨lt_of_le_of_lt lower.1 less, upper.2⟩

theorem Shape.splitLeaf {a new : GlobalAddress} {leaf left right : LeafNode Key} {entries : List (Key × KVBlock)}
    {middleKey : Key} {block : KVBlock} (shape : Shape gs m) (inv : Discipline gs m cfg) (wide : 2 ≤ cfg.branchFactor)
    (only : (gs t).smo.held = [a]) (kept : (gs t).smo.kept = some leaf) (pending : (gs t).smo.pending = none)
    (sorted : entries = OrderedMap.ofList (gs t).smo.keyed) (long : cfg.branchFactor / 2 < entries.length)
    (middle : entries[entries.length / 2]? = some (middleKey, block))
    (distributes : Distributes cfg leaf entries middleKey left right)
    (fresh : (gs t).smo.fresh = some (new, some (.leaf right))) :
    Shape (Function.update gs t { gs t with smo :=
      { (gs t).smo with
        slots := fun _ => false, kept := none, keyed := [], fresh := none, pending := some (new, 0, middleKey) } })
      (m.setNode a (.leaf left)) := by
  obtain ⟨top, forest⟩ := shape.forest
  obtain ⟨b, now, only', born, header, -⟩ := inv.notes.kept t leaf kept
  obtain rfl : a = b := by simpa [only] using only'
  have known : Known gs m a 0 := inv.chains.chain t [] a [] only
  have bottom : now.header.level = 0 := inv.levels.sound a _ born
  subst sorted
  have between := middleKey_between (shape.keyed t leaf kept) (by omega) middle
  rw [← header] at between
  have whole : tiles gs m a = some (Node.leaf now).tile := tiles_born born
  have halves := forest.split whole (tiles_fresh fresh) between (fun high => absurd bottom high)
  have leftTile : (Node.leaf left).tile = (Node.leaf now).tile.left middleKey := by
    simp [Node.tile, Tile.left, distributes.leftHeader, header]
  have rightTile : (Node.leaf right).tile = (Node.leaf now).tile.right middleKey := by
    rw [header] at bottom
    simp [Node.tile, Tile.right, distributes.rightHeader, header, Header.zero, bottom]
  refine shape.split inv.levels born known.2 fresh rfl rfl rfl (by rw [Node.header, distributes.rightHeader]; rfl) ?_ (by simp)
  rw [pending_publish pending rfl, leftTile, rightTile]
  exact ⟨top, halves⟩

/-! ## Linking -/

section
variable {a c : GlobalAddress} {rest : List GlobalAddress} {n : InternalNode Key} {level : ℕ} {key : Key}

/-- What a thread about to link a node knows about the parent and the node. -/
structure Linking (gs : Thread → Local Key Value) (m : Memory Key Value) (a c : GlobalAddress) (n : InternalNode Key)
    (key : Key) (y : Node Key) : Prop where
  parent : Born gs m a (.internal n)
  linked : ¬ Pending gs a
  child : Born gs m c y
  pending : Pending gs c
  level : n.header.level = y.header.level + 1
  lo : y.header.fence.1 = key
  ordered : n.Ordered
  inside : n.header.fence.1 < key ∧ key < n.header.fence.2
  absent : ∀ i, (n.entries i).key ≠ key

theorem Shape.linking (shape : Shape gs m) (inv : Discipline gs m cfg) (held : (gs t).smo.held = a :: rest)
    (noted : (gs t).smo.node = some n) (pending : (gs t).smo.pending = some (c, level, key))
    (length : rest.length = level + 1) (covers : n.header.covers key) : ∃ y, Linking gs m a c n key y := by
  obtain ⟨top, forest⟩ := shape.forest
  obtain ⟨b, head, parent⟩ := inv.notes.node t n noted
  obtain rfl : a = b := by simpa [held] using head
  have known : Known gs m a rest.length := inv.chains.chain t [] a rest held
  obtain ⟨y, child, lo⟩ := shape.separator t c level key pending
  have levelC : y.header.level = level := hasLevel_unique ⟨y, child, rfl⟩ (inv.levels.pending t c level key pending)
  have levelA : n.header.level = rest.length := hasLevel_unique ⟨_, parent, rfl⟩ known.1
  have waits : Pending gs c := ⟨t, level, key, pending⟩
  have ordered := shape.ordered a n parent
  have tileA : tiles gs m a = some n.tile := tiles_born parent
  have tileC : tiles gs m c = some y.tile := tiles_born child
  have here : y.tile.lo = key := by rw [Node.tile_lo, lo]
  have levels : n.header.level = y.tile.level + 1 := by
    rw [Node.tile_level]
    omega
  obtain ⟨inside, absent⟩ := pending_separator forest tileA ordered waits tileC levels (here ▸ covers)
  rw [here] at inside absent
  exact ⟨y, parent, known.2, child, waits, by omega, lo, ordered, inside, absent⟩

theorem Shape.separator_settle {g : Local Key Value} (shape : Shape gs m) (settled : g.smo.pending = none)
    (survives : ∀ b x, Pending gs b → Born gs m b x → ∃ x', Born (Function.update gs t g) m' b x' ∧ x'.tile.lo = x.tile.lo) :
    ∀ u b l k, (Function.update gs t g u).smo.pending = some (b, l, k) →
      ∃ x, Born (Function.update gs t g) m' b x ∧ x.header.fence.1 = k := by
  refine (Function.forall_update_iff gs (p := fun _ x => ∀ b l k, x.smo.pending = some (b, l, k) →
    ∃ x, Born (Function.update gs t g) m' b x ∧ x.header.fence.1 = k)).2 ⟨by simp [settled], fun u _ b l k own => ?_⟩
  obtain ⟨x, present, lo⟩ := shape.separator u b l k own
  obtain ⟨x', present', same⟩ := survives b x ⟨u, l, k, own⟩ present
  rw [Node.tile_lo, Node.tile_lo] at same
  exact ⟨x', present', same.trans lo⟩

theorem Shape.link {g : Local Key Value} {y : Node Key} (shape : Shape gs m) (levels : Levels gs m)
    (linking : Linking gs m a c n key y) (pending : (gs t).smo.pending = some (c, level, key))
    (fresh : g.smo.fresh = (gs t).smo.fresh) (settled : g.smo.pending = none)
    (keyed : ∀ snap, g.smo.kept = some snap → ∀ e ∈ g.smo.keyed, snap.header.covers e.1) :
    Shape (Function.update gs t g) (m.setNode a (.internal (n.withSeparator key c))) := by
  obtain ⟨top, forest⟩ := shape.forest
  have born : Born (Function.update gs t g) m a (.internal n) := (born_update fresh).2 linking.parent
  have lo : y.tile.lo = key := by rw [Node.tile_lo, linking.lo]
  have linked := forest_withSeparator forest (tiles_born linking.parent) linking.pending (tiles_born linking.child)
    (by rw [Node.tile_level]; exact linking.level) (by rw [lo]; exact ⟨le_of_lt linking.inside.1, linking.inside.2⟩)
  refine ⟨⟨top, ?_⟩, fun b x present => ?_, shape.separator_settle settled fun b x waits present => ?_, ?_⟩
  · rw [tiles_setNode born, tiles_update fresh, levels.pending_settle pending settled]
    rw [lo] at linked
    exact linked
  · rcases (born_setNode born).1 present with ⟨-, eq⟩ | ⟨-, old⟩
    · cases eq
      exact withSeparator_ordered linking.ordered linking.inside fun i _ => linking.absent i
    · exact shape.ordered b x ((born_update fresh).1 old)
  · have other : b ≠ a := by
      rintro rfl
      exact linking.linked waits
    exact ⟨x, (born_setNode born).2 (Or.inr ⟨other, (born_update fresh).2 present⟩), rfl⟩
  · exact (Function.forall_update_iff gs (p := fun _ l => ∀ snap, l.smo.kept = some snap →
      ∀ e ∈ l.smo.keyed, snap.header.covers e.1)).2 ⟨keyed, fun u _ => shape.keyed u⟩

theorem Shape.splitNode {new : GlobalAddress} {y : Node Key} {g : Local Key Value} (shape : Shape gs m) (levels : Levels gs m)
    (linking : Linking gs m a c n key y) (pending : (gs t).smo.pending = some (c, level, key))
    (full : n.header.lastIndex + 1 = cfg.branchFactor) (middle : splitMiddle cfg.branchFactor < cfg.branchFactor - 1)
    (fresh : (gs t).smo.fresh = some (new, some (.internal (n.splitRight cfg.branchFactor key c))))
    (published : g.smo.fresh = none) (kept : g.smo.kept = none)
    (next : g.smo.pending = some (new, level + 1, n.middleKey cfg.branchFactor key c)) :
    Shape (Function.update gs t g) (m.setNode a (.internal (n.splitLeft cfg.branchFactor key c))) := by
  obtain ⟨top, forest⟩ := shape.forest
  have lo : y.tile.lo = key := by rw [Node.tile_lo, linking.lo]
  have ordered : (n.overfull key c).Ordered := overfull_ordered linking.ordered linking.inside fun i _ => linking.absent i
  have split := forest_splitNode forest (tiles_born linking.parent) linking.pending (tiles_born linking.child)
    (by rw [Node.tile_level]; exact linking.level) (by rw [lo]; exact ⟨le_of_lt linking.inside.1, linking.inside.2⟩)
    (by rw [lo]; exact ordered) full middle (tiles_fresh fresh)
  rw [lo] at split
  refine shape.split levels linking.parent linking.linked fresh published next kept rfl ?_ ?_
  · rw [levels.pending_replace pending next]
    exact ⟨top, split⟩
  · rintro x (eq | eq)
    · cases eq
      exact splitLeft_ordered ordered full middle linking.ordered
    · cases eq
      exact splitRight_ordered ordered full middle

end

theorem Shape.growRoot {a c new : GlobalAddress} {rest : List GlobalAddress} {level : ℕ} {key : Key} {g : Local Key Value}
    (shape : Shape gs m) (inv : Discipline gs m cfg) (held : (gs t).smo.held = a :: rest) (root : m.rootOffset = a)
    (pending : (gs t).smo.pending = some (c, level, key)) (length : rest.length = level)
    (fresh : (gs t).smo.fresh = some (new, some (.internal (newRoot key a c (level + 1))))) (published : g.smo.fresh = none)
    (settled : g.smo.pending = none) (keyed : ∀ snap, g.smo.kept = some snap → ∀ e ∈ g.smo.keyed, snap.header.covers e.1) :
    Shape (Function.update gs t g) { m with rootOffset := new } := by
  -- the root grows: the thread that holds the root's lock links the node split off it
  obtain ⟨top, forest⟩ := shape.forest
  have known : Known gs m a level := length ▸ inv.chains.chain t [] a rest held
  obtain ⟨y, child, lo⟩ := shape.separator t c level key pending
  have levelC : y.header.level = level := hasLevel_unique ⟨y, child, rfl⟩ (inv.levels.pending t c level key pending)
  obtain ⟨x, there, rootLevel, bottom⟩ := forest.rooted
  obtain ⟨n, born, rfl⟩ := tiles_eq_some.1 there
  rw [root] at born there
  rw [Node.tile_level] at rootLevel
  have eqLevel : top = level := rootLevel.symm.trans (hasLevel_unique ⟨n, born, rfl⟩ known.1)
  subst eqLevel
  have waits : Pending gs c := ⟨t, top, key, pending⟩
  obtain ⟨grown, between⟩ := forest_newRoot forest waits (tiles_born child) (by rw [Node.tile_level, levelC]) (tiles_fresh fresh)
  rw [Node.tile_lo, lo] at grown between
  rw [root] at grown
  have same : ∀ b x, Born (Function.update gs t g) { m with rootOffset := new } b x ↔
      Born gs m b x ∨ b = new ∧ x = .internal (newRoot key a c (top + 1)) := inv.levels.born_publish fresh published
  refine ⟨⟨top + 1, ?_⟩, fun b x present => ?_, shape.separator_settle settled fun b x _ present => ?_, ?_⟩
  · have eq : tiles (Function.update gs t g) { m with rootOffset := new } = _ := inv.levels.tiles_publish fresh published
    rw [eq, inv.levels.pending_settle pending settled]
    exact grown
  · rcases (same b _).1 present with old | ⟨-, eq⟩
    · exact shape.ordered b x old
    · cases eq
      exact newRoot_ordered between
  · exact ⟨x, (same b x).2 (Or.inl present), rfl⟩
  · exact (Function.forall_update_iff gs (p := fun _ l => ∀ snap, l.smo.kept = some snap →
      ∀ e ∈ l.smo.keyed, snap.header.covers e.1)).2 ⟨keyed, fun u _ => shape.keyed u⟩

/-! ## Every permitted operation -/

variable [KeyBytes Key]

/-- A thread that splits a leaf reads keys inside the leaf's fence. -/
def KeptInside (cfg : Config) (gs : Thread → Local Key Value) (m : Memory Key Value) : Prop :=
  ∀ t snap, (gs t).smo.kept = some snap → ∀ i ∈ takenIndices cfg.branchFactor snap,
    snap.header.covers (m.items (snap.kvBlocks i).getAddr).key

theorem Shape.permits {o : Op Key Value} {r : o.act.Reply} (shape : Shape gs m) (inv : Discipline gs m cfg)
    (wide : 2 ≤ cfg.branchFactor) (inside : KeptInside cfg gs m) (permitted : Permits cfg t gs m o r m' g) :
    Shape (Function.update gs t g) m' := by
  have relock : ∀ {a : GlobalAddress} {n : Node Key} {lock : BitVec 64}, Born gs m a n →
    Shape gs (m.setNode a (n.setLock lock)) := by
    intro a n lock born
    refine shape.setNode born (Node.tile_setLock n lock) fun x eq => ?_
    cases n with
    | leaf leaf => cases eq
    | internal node =>
      cases eq
      exact (shape.ordered a node born).setLock lock
  have exchange : ∀ {a : GlobalAddress} {leaf : LeafNode Key} {i : ℕ} {b : KVBlock}, Born gs m a (.leaf leaf) →
      Shape gs (m.setNode a (.leaf (leaf.setBlock i b))) := fun born => shape.setNode born rfl (by simp)
  cases permitted with
  | readRoot => exact shape.update (.update rfl rfl rfl rfl) (shape.keyed t)
  | readNode => exact shape.update (.update rfl rfl rfl rfl) (shape.keyed t)
  | dequeue => exact shape.update (.update rfl rfl rfl rfl) (shape.keyed t)
  | enqueue => exact shape.update (.update rfl rfl rfl rfl) (shape.keyed t)
  | randFingerprint => exact shape.update (.update rfl rfl rfl rfl) (shape.keyed t)
  | randAddr => exact shape.update (.update rfl rfl rfl rfl) (shape.keyed t)
  | threadHash => exact shape.update (.update rfl rfl rfl rfl) (shape.keyed t)
  | lockFailed => exact shape.update (.update rfl rfl rfl rfl) (shape.keyed t)
  | lockTaken there unlocked target =>
    exact (relock (inv.born_of_target target there).1).update (.update rfl rfl rfl rfl) (by simp)
  | released there held =>
    exact (relock (inv.born_of_held (t := t) (by simp [held]) there)).update (.update rfl rfl rfl rfl) (by simp)
  | abandoned there held noted pending length covers bound same =>
    obtain ⟨y, linking⟩ := shape.linking inv held noted pending length covers
    exact absurd same (linking.absent _)
  | readHeld => exact shape.update (.update rfl rfl rfl rfl) (shape.keyed t)
  | slotLocked there only _ _ kept =>
    exact (exchange (inv.born_of_held (t := t) (by simp [only]) there)).update (.update rfl rfl rfl rfl) (shape.keyed t)
  | slotUnlocked there only =>
    exact (exchange (inv.born_of_held (t := t) (by simp [only]) there)).update (.update rfl rfl rfl rfl) (by simp)
  | readKept => exact shape.update (.update rfl rfl rfl rfl) (by simp)
  | @readKeptKey a leaf i only kept taken =>
    refine shape.update (.update rfl rfl rfl rfl) fun snap eq e member => ?_
    obtain rfl : leaf = snap := Option.some.inj (kept.symm.trans eq)
    rcases List.mem_append.1 member with old | new
    · exact shape.keyed t leaf kept e old
    · rw [List.mem_singleton.1 new]
      exact inside t leaf kept i taken
  | allocNode unused fresh => exact shape.update (inv.levels.sameTree_alloc unused fresh) (shape.keyed t)
  | writeFresh fresh => exact shape.update (sameTree_write fresh) (shape.keyed t)
  | leafSplit only kept pending _ sorted long middle distributes fresh =>
    exact shape.splitLeaf inv wide only kept pending sorted long middle distributes fresh
  | linked held noted pending length covers =>
    obtain ⟨y, linking⟩ := shape.linking inv held noted pending length covers
    exact shape.link inv.levels linking pending rfl rfl (shape.keyed t)
  | nodeSplit held noted pending length covers absent full middle fresh =>
    obtain ⟨y, linking⟩ := shape.linking inv held noted pending length covers
    refine shape.splitNode inv.levels linking pending full middle fresh rfl ?_ rfl
    -- a thread that climbs holds more than the leaf it split
    cases kept : (gs t).smo.kept with
    | none => rfl
    | some snap =>
      obtain ⟨b, leaf, only, -⟩ := inv.notes.kept t snap kept
      rw [held] at only
      cases only
      simp at length
  | rootGrown held atTop root pending length fresh =>
    exact shape.growRoot inv held root pending length fresh rfl rfl (shape.keyed t)
  | allocItem usable allocated =>
    have frame := Memory.allocItem_frame allocated
    exact shape.update (.update rfl rfl frame.1 frame.2.2.1) (shape.keyed t)
  | writeItem => exact shape.update (.update rfl rfl rfl rfl) (shape.keyed t)
  | readLeaf => exact shape.update (.update rfl rfl rfl rfl) (shape.keyed t)
  | lookItem => exact shape.update (.update rfl rfl rfl rfl) (shape.keyed t)
  | lookKey => exact shape.update (.update rfl rfl rfl rfl) (shape.keyed t)
  | slotMissed => exact shape.update (.update rfl rfl rfl rfl) (shape.keyed t)
  | slotFilled there target =>
    exact (exchange (inv.born_of_target target there).1).update (.update rfl rfl rfl rfl) (shape.keyed t)
  | slotUpdated there target =>
    exact (exchange (inv.born_of_target target there).1).update (.update rfl rfl rfl rfl) (shape.keyed t)
  | slotDeleted there target =>
    exact (exchange (inv.born_of_target target there).1).update (.update rfl rfl rfl rfl) (shape.keyed t)
  | freeReplaced => exact shape.update (.update rfl rfl rfl rfl) (shape.keyed t)
  | freeDeleted => exact shape.update (.update rfl rfl rfl rfl) (shape.keyed t)

end

end Faunus
