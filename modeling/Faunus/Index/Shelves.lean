import Faunus.Index.Partition
import Faunus.Index.Standing

/-! What the leaves of one client hold.

A live slot points to an item that is in use, stands for the key of the item and carries
its fingerprint. No key has two live slots, in a leaf or in two leaves.
-/

set_option autoImplicit false

namespace Faunus

open Tiling

variable {Key Value : Type}

/-! ## Items -/

/-- The item was handed out and not given back. -/
def Memory.InUse (m : Memory Key Value) (x : GlobalAddress) : Prop := x ∈ m.itemsIssued ∧ ∀ server, x ∉ m.freeItems server

/-- The free lists when only one client frees items. -/
structure Recycles (t : Thread) (m : Memory Key Value) : Prop where
  issued : ∀ x ∈ m.freeItems t.server, x ∈ m.itemsIssued
  nodup : (m.freeItems t.server).Nodup
  others : ∀ server, server ≠ t.server → m.freeItems server = []

section
variable {t : Thread} {m m' : Memory Key Value} {x : GlobalAddress}

theorem Recycles.allocItem (recycles : Recycles t m) (allocated : m.allocItem t.server x = some m') :
    Recycles t m' ∧ m'.InUse x ∧ ¬ m.InUse x ∧ (∀ y, m.InUse y → m'.InUse y) ∧ m'.items = m.items := by
  -- an allocated item was not in use, and the others stay in use
  have notFree : ∀ server, server ≠ t.server → ∀ y, y ∉ m.freeItems server := by
    intro server other y inside
    rw [recycles.others server other] at inside
    cases inside
  unfold Memory.allocItem at allocated
  split_ifs at allocated with free used
  · obtain rfl := Option.some.inj allocated
    have erased : ∀ y, y ∈ (m.freeItems t.server).erase x ↔ y ≠ x ∧ y ∈ m.freeItems t.server := fun y => recycles.nodup.mem_erase_iff
    refine ⟨⟨fun y inside => ?_, ?_, fun server other => ?_⟩, ⟨recycles.issued x free, fun server => ?_⟩, fun inUse =>
      inUse.2 _ free,
      fun y inUse => ⟨inUse.1, fun server => ?_⟩, rfl⟩
    · simp only [Function.update_self] at inside
      exact recycles.issued y ((erased y).1 inside).2
    · simp only [Function.update_self]
      exact recycles.nodup.erase x
    · simp only [Function.update_of_ne other, recycles.others server other]
    · by_cases here : server = t.server
      · subst here
        simp only [Function.update_self]
        exact fun inside => ((erased x).1 inside).1 rfl
      · simp only [Function.update_of_ne here]
        exact notFree server here x
    · by_cases here : server = t.server
      · subst here
        simp only [Function.update_self]
        exact fun inside => inUse.2 _ ((erased y).1 inside).2
      · simp only [Function.update_of_ne here]
        exact inUse.2 server
  · obtain rfl := Option.some.inj allocated
    refine ⟨⟨fun y inside => List.mem_cons_of_mem _ (recycles.issued y inside), recycles.nodup, recycles.others⟩,
      ⟨List.mem_cons_self, fun server => ?_⟩, fun inUse => used inUse.1, fun y inUse =>
        ⟨List.mem_cons_of_mem _ inUse.1, inUse.2⟩, rfl⟩
    by_cases here : server = t.server
    · subst here
      exact free
    · exact notFree server here x

theorem Recycles.freeItem (recycles : Recycles t m) (inUse : m.InUse x) :
    Recycles t (m.freeItem t.server x) ∧ ∀ y, y ≠ x → m.InUse y → (m.freeItem t.server x).InUse y := by
  -- an item that was in use is given back, and the others stay in use
  refine ⟨⟨fun y inside => ?_, ?_, fun server other => ?_⟩, fun y different used => ⟨used.1, fun server => ?_⟩⟩
  · simp only [Memory.freeItem, Function.update_self, List.mem_cons] at inside
    rcases inside with rfl | old
    · exact inUse.1
    · exact recycles.issued y old
  · simp only [Memory.freeItem, Function.update_self]
    exact List.nodup_cons.2 ⟨inUse.2 _, recycles.nodup⟩
  · simp only [Memory.freeItem, Function.update_of_ne other, recycles.others server other]
  · simp only [Memory.freeItem]
    by_cases here : server = t.server
    · subst here
      rw [Function.update_self, List.mem_cons]
      rintro (same | old)
      · exact different same
      · exact used.2 _ old
    · rw [Function.update_of_ne here]
      exact used.2 server

end

/-! ## Leaves -/

variable [LinearOrder Key] [KeyBytes Key]

def Memory.keyAt (m : Memory Key Value) (leaf : LeafNode Key) (i : ℕ) : Key := (m.items (leaf.kvBlocks i).getAddr).key

structure Shelved (cfg : Config) (m : Memory Key Value) (leaf : LeafNode Key) : Prop where
  unlocked : ∀ i < cfg.branchFactor, (leaf.kvBlocks i).isLocked = false
  once : ∀ i j, leaf.Live cfg.branchFactor i → leaf.Live cfg.branchFactor j → m.keyAt leaf i = m.keyAt leaf j → i = j
  covered : ∀ i, leaf.Live cfg.branchFactor i → leaf.header.covers (m.keyAt leaf i)
  fingerprint : ∀ i, leaf.Live cfg.branchFactor i → (leaf.kvBlocks i).getFingerprint = .ofKey (m.keyAt leaf i)
  inUse : ∀ i, leaf.Live cfg.branchFactor i → m.InUse (leaf.kvBlocks i).getAddr

section
variable {cfg : Config} {m m' : Memory Key Value} {leaf : LeafNode Key}

theorem Shelved.frame (shelved : Shelved cfg m leaf)
    (same : ∀ i, leaf.Live cfg.branchFactor i → m'.InUse (leaf.kvBlocks i).getAddr ∧ m'.keyAt leaf i = m.keyAt leaf i) :
    Shelved cfg m' leaf where
  unlocked := shelved.unlocked
  once i j one two eq := by
    rw [(same i one).2, (same j two).2] at eq
    exact shelved.once i j one two eq
  covered i live := by
    rw [(same i live).2]
    exact shelved.covered i live
  fingerprint i live := by
    rw [(same i live).2]
    exact shelved.fingerprint i live
  inUse i live := (same i live).1

omit [LinearOrder Key] [KeyBytes Key] in
theorem live_setBlock {i j : ℕ} {b : KVBlock} (taken : b.isFree = false) (bound : i < cfg.branchFactor) :
    (leaf.setBlock i b).Live cfg.branchFactor j ↔ j = i ∨ j ≠ i ∧ leaf.Live cfg.branchFactor j := by
  by_cases here : j = i
  · subst here
    simp [LeafNode.Live, LeafNode.setBlock, taken, bound]
  · simp [LeafNode.Live, LeafNode.setBlock, here]

theorem Shelved.setBlock {i : ℕ} {b : KVBlock} (shelved : Shelved cfg m leaf) (bound : i < cfg.branchFactor)
    (taken : b.isFree = false) (unlocked : b.isLocked = false) (covers : leaf.header.covers (m.items b.getAddr).key)
    (fingerprint : b.getFingerprint = .ofKey (m.items b.getAddr).key) (inUse : m.InUse b.getAddr)
    (absent : ∀ j, j ≠ i → leaf.Live cfg.branchFactor j → m.keyAt leaf j ≠ (m.items b.getAddr).key) :
    Shelved cfg m (leaf.setBlock i b) := by
  -- a slot gets a block with a key that no other slot has
  have here : m.keyAt (leaf.setBlock i b) i = (m.items b.getAddr).key := by simp [Memory.keyAt, LeafNode.setBlock]
  have block : (leaf.setBlock i b).kvBlocks i = b := by simp [LeafNode.setBlock]
  have there : ∀ j, j ≠ i → (leaf.setBlock i b).kvBlocks j = leaf.kvBlocks j := fun j other => by simp [LeafNode.setBlock, other]
  have key : ∀ j, j ≠ i → m.keyAt (leaf.setBlock i b) j = m.keyAt leaf j := fun j other => by simp [Memory.keyAt, there j other]
  refine ⟨fun j inside => ?_, fun j k one two eq => ?_, fun j live => ?_, fun j live => ?_, fun j live => ?_⟩
  · by_cases same : j = i
    · subst same
      rw [block]
      exact unlocked
    · rw [there j same]
      exact shelved.unlocked j inside
  · rcases (live_setBlock taken bound).1 one with rfl | ⟨other, old⟩ <;> rcases (live_setBlock taken bound).1 two with rfl |
      ⟨other', old'⟩
    · rfl
    · rw [here, key k other'] at eq
      exact absurd eq.symm (absent k other' old')
    · rw [here, key j other] at eq
      exact absurd eq (absent j other old)
    · rw [key j other, key k other'] at eq
      exact shelved.once j k old old' eq
  · rcases (live_setBlock taken bound).1 live with rfl | ⟨other, old⟩
    · rw [here]
      exact covers
    · rw [key j other]
      exact shelved.covered j old
  · rcases (live_setBlock taken bound).1 live with rfl | ⟨other, old⟩
    · rw [here, block]
      exact fingerprint
    · rw [key j other, there j other]
      exact shelved.fingerprint j old
  · rcases (live_setBlock taken bound).1 live with rfl | ⟨other, old⟩
    · rw [block]
      exact inUse
    · rw [there j other]
      exact shelved.inUse j old

theorem Shelved.room (shelved : Shelved cfg m leaf)
    (few : (leaf.keys cfg.branchFactor fun b => (m.items b).key).card < cfg.branchFactor) :
    ∃ i < cfg.branchFactor, (leaf.kvBlocks i).isFree = true := by
  by_contra full
  simp only [not_exists, not_and, Bool.not_eq_true] at full
  have all : (Finset.range cfg.branchFactor).filter (fun i => (leaf.kvBlocks i).isFree = false) = Finset.range cfg.branchFactor :=
    Finset.filter_true_of_mem fun i inside => full i (Finset.mem_range.1 inside)
  have card : (leaf.keys cfg.branchFactor fun b => (m.items b).key).card = cfg.branchFactor := by
    rw [LeafNode.keys, all, Finset.card_image_of_injOn, Finset.card_range]
    intro i one j two eq
    have bound : i < cfg.branchFactor := by simpa using one
    have bound' : j < cfg.branchFactor := by simpa using two
    exact shelved.once i j ⟨bound, full i bound⟩ ⟨bound', full j bound'⟩ eq
  omega

theorem Shelved.card_keys (shelved : Shelved cfg m leaf) :
    (leaf.keys cfg.branchFactor fun b => (m.items b).key).card = (takenIndices cfg.branchFactor leaf).length := by
  have slots : (Finset.range cfg.branchFactor).filter (fun i => (leaf.kvBlocks i).isFree = false) =
    (takenIndices cfg.branchFactor leaf).toFinset := by
    ext i
    simp [takenIndices]
  have nodup : (takenIndices cfg.branchFactor leaf).Nodup := List.nodup_range.filter _
  rw [LeafNode.keys, Finset.card_image_of_injOn, slots, List.toFinset_card_of_nodup nodup]
  intro i one j two eq
  simp only [Finset.coe_filter, Finset.mem_range, Set.mem_ofPred_eq] at one two
  exact shelved.once i j one two eq

theorem Half.shelved {half : LeafNode Key} {fence : Key × Key} {keys : Finset Key} (shelved : Shelved cfg m leaf)
    (isHalf : Half cfg.branchFactor (fun b => (m.items b).key) leaf half fence keys)
    (covers : ∀ k ∈ keys, leaf.header.covers k → fence.1 ≤ k ∧ k < fence.2) : Shelved cfg m half := by
  -- each half of a split leaf is in order
  have origin : ∀ i, half.Live cfg.branchFactor i → ∃ j, leaf.Live cfg.branchFactor j ∧ half.kvBlocks i = leaf.kvBlocks j :=
    isHalf.old
  refine ⟨isHalf.unlocked, isHalf.once, fun i live => ?_, fun i live => ?_, fun i live => ?_⟩
  · obtain ⟨j, old, same⟩ := origin i live
    have inside : m.keyAt half i ∈ keys := isHalf.keys ▸ LeafNode.mem_keys.2 ⟨i, live, rfl⟩
    have old := shelved.covered j old
    rw [Memory.keyAt, ← same] at old
    rw [Header.covers, isHalf.fence]
    exact covers _ inside old
  · obtain ⟨j, old, same⟩ := origin i live
    rw [Memory.keyAt, same]
    exact shelved.fingerprint j old
  · obtain ⟨j, old, same⟩ := origin i live
    rw [same]
    exact shelved.inUse j old

end

/-! ## The whole tree -/

def Memory.Refers (cfg : Config) (m : Memory Key Value) (x : GlobalAddress) : Prop :=
  ∃ a leaf i, m.nodes a = some (.leaf leaf) ∧ leaf.Live cfg.branchFactor i ∧ (leaf.kvBlocks i).getAddr = x

/-- The pairs that the tree refers to are those of the map. -/
def Represents (cfg : Config) (m : Memory Key Value) (map : Key → Option Value) : Prop :=
  ∀ k v, map k = some v ↔ ∃ x, m.Refers cfg x ∧ m.items x = ⟨k, v⟩

/-- An item that a client may write or give back. -/
def Memory.Spare (cfg : Config) (m : Memory Key Value) (x : GlobalAddress) : Prop := m.InUse x ∧ ¬ m.Refers cfg x

variable [BoundedOrder Key]

/-- A tree in order, apart from node locks; the pending node was just split off. -/
structure Stocked (cfg : Config) (t : Thread) (m : Memory Key Value) (pending : Set GlobalAddress) (top : ℕ) : Prop where
  standing : Standing cfg.branchFactor m pending top
  shelved : ∀ a leaf, m.nodes a = some (.leaf leaf) → Shelved cfg m leaf
  recycles : Recycles t m

section
variable {cfg : Config} {t : Thread} {m m' : Memory Key Value} {pending : Set GlobalAddress} {top : ℕ} {a b x : GlobalAddress}
  {leaf : LeafNode Key} {map : Key → Option Value} {key : Key}

theorem Stocked.inUse (stocked : Stocked cfg t m pending top) (refers : m.Refers cfg x) : m.InUse x := by
  obtain ⟨a, leaf, i, there, live, rfl⟩ := refers
  exact (stocked.shelved a leaf there).inUse i live

theorem Stocked.once {leaf' : LeafNode Key} {i j : ℕ} (stocked : Stocked cfg t m pending top) (one : m.nodes a = some (.leaf leaf))
    (two : m.nodes b = some (.leaf leaf')) (here : leaf.Live cfg.branchFactor i) (there : leaf'.Live cfg.branchFactor j)
    (same : m.keyAt leaf i = m.keyAt leaf' j) : a = b ∧ i = j := by
  have bottom : leaf.header.level = 0 := (stocked.standing.nodes a _ one).2
  have bottom' : leaf'.header.level = 0 := (stocked.standing.nodes b _ two).2
  have covers : (Node.leaf leaf).header.covers (m.keyAt leaf i) := (stocked.shelved a leaf one).covered i here
  have covers' : (Node.leaf leaf').header.covers (m.keyAt leaf i) := same ▸ (stocked.shelved b leaf' two).covered j there
  obtain rfl := stocked.standing.unique one two (bottom.trans bottom'.symm) covers covers'
  obtain rfl : leaf = leaf' := Node.leaf.inj (Option.some.inj (one.symm.trans two))
  exact ⟨rfl, (stocked.shelved a leaf one).once i j here there same⟩

theorem Stocked.refers_key (stocked : Stocked cfg t m pending top) (there : m.nodes a = some (.leaf leaf))
    (covers : leaf.header.covers key)
    (refers : m.Refers cfg x) (same : (m.items x).key = key) : ∃ i, leaf.Live cfg.branchFactor i ∧
    (leaf.kvBlocks i).getAddr = x := by
  obtain ⟨b, leaf', i, found, live, rfl⟩ := refers
  have bottom : leaf.header.level = 0 := (stocked.standing.nodes a _ there).2
  have bottom' : leaf'.header.level = 0 := (stocked.standing.nodes b _ found).2
  have covers' : (Node.leaf leaf').header.covers key := same ▸ (stocked.shelved b leaf' found).covered i live
  obtain rfl := stocked.standing.unique there found (bottom.trans bottom'.symm)
    (show (Node.leaf leaf).header.covers key from covers) covers'
  obtain rfl : leaf = leaf' := Node.leaf.inj (Option.some.inj (there.symm.trans found))
  exact ⟨i, live, rfl⟩

theorem Stocked.lookup (stocked : Stocked cfg t m pending top) (represents : Represents cfg m map)
    (there : m.nodes a = some (.leaf leaf)) (covers : leaf.header.covers key) {v : Value} :
    map key = some v ↔ ∃ i, leaf.Live cfg.branchFactor i ∧ m.items (leaf.kvBlocks i).getAddr = ⟨key, v⟩ := by
  rw [represents]
  constructor
  · rintro ⟨x, refers, item⟩
    obtain ⟨i, live, rfl⟩ := stocked.refers_key there covers refers (by rw [item])
    exact ⟨i, live, item⟩
  · rintro ⟨i, live, item⟩
    exact ⟨_, ⟨a, leaf, i, there, live, rfl⟩, item⟩

/-! ## Items come and go -/

omit [LinearOrder Key] [KeyBytes Key] [BoundedOrder Key] in
theorem refers_congr (nodes : m'.nodes = m.nodes) : m'.Refers cfg x ↔ m.Refers cfg x := by
  simp only [Memory.Refers, nodes]

omit [LinearOrder Key] [KeyBytes Key] [BoundedOrder Key] in
theorem Represents.congr (represents : Represents cfg m map) (nodes : m'.nodes = m.nodes)
    (items : ∀ x, m.Refers cfg x → m'.items x = m.items x) : Represents cfg m' map := by
  intro k v
  rw [represents]
  refine exists_congr fun x => ?_
  rw [refers_congr nodes]
  refine and_congr_right fun refers => ?_
  rw [items x refers]

theorem Stocked.congr (stocked : Stocked cfg t m pending top) (recycles : Recycles t m') (nodes : m'.nodes = m.nodes)
    (root : m'.rootOffset = m.rootOffset) (issued : m'.nodesIssued = m.nodesIssued)
    (items : ∀ x, m.Refers cfg x → m'.InUse x ∧ m'.items x = m.items x) : Stocked cfg t m' pending top := by
  refine ⟨stocked.standing.congr nodes root issued, fun a leaf there => ?_, recycles⟩
  rw [nodes] at there
  refine (stocked.shelved a leaf there).frame fun i live => ?_
  obtain ⟨inUse, same⟩ := items _ ⟨a, leaf, i, there, live, rfl⟩
  exact ⟨inUse, by rw [Memory.keyAt, same]; rfl⟩

theorem Stocked.allocItem (stocked : Stocked cfg t m pending top) (allocated : m.allocItem t.server x = some m') :
    Stocked cfg t m' pending top ∧ m'.Spare cfg x ∧ m'.items = m.items := by
  obtain ⟨nodes, issued, root, -⟩ := Memory.allocItem_frame allocated
  obtain ⟨recycles, now, before, others, items⟩ := stocked.recycles.allocItem allocated
  refine ⟨stocked.congr recycles nodes root issued fun y refers => ⟨others y (stocked.inUse refers), by rw [items]⟩,
    ⟨now, ?_⟩, items⟩
  rw [refers_congr nodes]
  exact fun refers => before (stocked.inUse refers)

theorem Stocked.setItem (stocked : Stocked cfg t m pending top) (spare : m.Spare cfg x) (item : KVItem Key Value) :
    Stocked cfg t (m.setItem x item) pending top ∧ (m.setItem x item).Spare cfg x ∧ (m.setItem x item).items x = item ∧
      ∀ y, m.Refers cfg y → (m.setItem x item).items y = m.items y := by
  have same : ∀ y, m.Refers cfg y → (m.setItem x item).items y = m.items y := by
    intro y refers
    refine Function.update_of_ne ?_ ..
    rintro rfl
    exact spare.2 refers
  refine ⟨stocked.congr ?_ rfl rfl rfl fun y refers => ⟨stocked.inUse refers, same y refers⟩, spare, Function.update_self .., same⟩
  exact ⟨stocked.recycles.issued, stocked.recycles.nodup, stocked.recycles.others⟩

theorem Stocked.freeItem (stocked : Stocked cfg t m pending top) (spare : m.Spare cfg x) :
    Stocked cfg t (m.freeItem t.server x) pending top := by
  obtain ⟨recycles, others⟩ := stocked.recycles.freeItem spare.1
  refine stocked.congr recycles rfl rfl rfl fun y refers => ⟨others y ?_ (stocked.inUse refers), rfl⟩
  rintro rfl
  exact spare.2 refers

/-! ## A slot is set -/

section
variable {i : ℕ} {block : KVBlock} {value : Value} (stocked : Stocked cfg t m pending top) (there : m.nodes a = some (.leaf leaf))
  (covers : leaf.header.covers key) (bound : i < cfg.branchFactor) (taken : block.isFree = false)
  (only : ∀ j, leaf.Live cfg.branchFactor j → (j = i ↔ m.keyAt leaf j = key))
include stocked there covers bound taken only

theorem Stocked.refers_put {y : GlobalAddress} :
    (m.setNode a (.leaf (leaf.setBlock i block))).Refers cfg y ↔ y = block.getAddr ∨ m.Refers cfg y ∧ (m.items y).key ≠ key := by
  -- the new block takes the place of the old block with its key, if there is one
  constructor
  · rintro ⟨b, leaf', j, found, live, rfl⟩
    rcases Memory.setNode_cases found with ⟨rfl, eq⟩ | ⟨other, old⟩
    · obtain rfl := Node.leaf.inj eq
      rcases (live_setBlock taken bound).1 live with rfl | ⟨different, before⟩
      · exact .inl (by simp [LeafNode.setBlock])
      · have same : (leaf.setBlock i block).kvBlocks j = leaf.kvBlocks j := by simp [LeafNode.setBlock, different]
        rw [same]
        exact .inr ⟨⟨b, leaf, j, there, before, rfl⟩, fun eq => different ((only j before).2 eq)⟩
    · refine .inr ⟨⟨b, leaf', j, old, live, rfl⟩, fun eq => ?_⟩
      obtain ⟨k, live', addr⟩ := stocked.refers_key there covers ⟨b, leaf', j, old, live, rfl⟩ eq
      have keys : m.keyAt leaf k = m.keyAt leaf' j := by rw [Memory.keyAt, addr]; rfl
      exact other (stocked.once there old live' live keys).1.symm
  · rintro (rfl | ⟨⟨b, leaf', j, found, live, rfl⟩, different⟩)
    · refine ⟨a, _, i, Memory.setNode_self .., (live_setBlock taken bound).2 (.inl rfl), by simp [LeafNode.setBlock]⟩
    · by_cases here : b = a
      · subst here
        obtain rfl : leaf = leaf' := Node.leaf.inj (Option.some.inj (there.symm.trans found))
        have other : j ≠ i := fun eq => different ((only j live).1 eq)
        exact ⟨b, _, j, Memory.setNode_self ..,
          (live_setBlock taken bound).2 (.inr ⟨other, live⟩), by simp [LeafNode.setBlock, other]⟩
      · exact ⟨b, leaf', j, by rw [Memory.setNode_other here, found], live, rfl⟩

variable (item : m.items block.getAddr = ⟨key, value⟩)
include item

theorem Stocked.put (spare : m.Spare cfg block.getAddr) (unlocked : block.isLocked = false)
    (fingerprint : block.getFingerprint = .ofKey key) :
    Stocked cfg t (m.setNode a (.leaf (leaf.setBlock i block))) pending top := by
  have shelved := stocked.shelved a leaf there
  have bottom : (Node.leaf (leaf.setBlock i block)).Proper cfg.branchFactor := (stocked.standing.nodes a _ there).2
  refine ⟨stocked.standing.replace there rfl bottom, fun b leaf' found => ?_, ?_⟩
  · rcases Memory.setNode_cases found with ⟨rfl, eq⟩ | ⟨-, old⟩
    · obtain rfl := Node.leaf.inj eq
      have placed : Shelved cfg m (leaf.setBlock i block) := by
        refine shelved.setBlock bound taken unlocked ?_ ?_ spare.1 fun j other live eq => ?_
        · rw [item]
          exact covers
        · rw [item]
          exact fingerprint
        · rw [item] at eq
          exact other ((only j live).2 eq)
      exact placed.frame fun j live => ⟨placed.inUse j live, rfl⟩
    · have same := stocked.shelved b leaf' old
      exact same.frame fun j live => ⟨same.inUse j live, rfl⟩
  · exact ⟨stocked.recycles.issued, stocked.recycles.nodup, stocked.recycles.others⟩

theorem Stocked.put_represents (represents : Represents cfg m map) :
    Represents cfg (m.setNode a (.leaf (leaf.setBlock i block))) (Function.update map key (some value)) := by
  intro k v
  have refers := fun y => stocked.refers_put there covers bound taken only (y := y)
  by_cases here : k = key
  · subst here
    rw [Function.update_self]
    constructor
    · intro eq
      obtain rfl := Option.some.inj eq
      exact ⟨_, (refers _).2 (.inl rfl), item⟩
    · rintro ⟨y, found, eq⟩
      have eq : m.items y = ⟨k, v⟩ := eq
      rcases (refers y).1 found with rfl | ⟨-, other⟩
      · rw [item] at eq
        exact congrArg some (congrArg KVItem.value eq)
      · rw [eq] at other
        exact absurd rfl other
  · rw [Function.update_of_ne here, represents]
    refine exists_congr fun y => ?_
    rw [refers]
    constructor
    · rintro ⟨old, eq⟩
      refine ⟨.inr ⟨old, ?_⟩, eq⟩
      rw [eq]
      exact here
    · rintro ⟨rfl | ⟨old, -⟩, eq⟩
      · have eq : m.items block.getAddr = ⟨k, v⟩ := eq
        rw [item] at eq
        exact absurd (congrArg KVItem.key eq).symm here
      · exact ⟨old, eq⟩

end

/-! ## A leaf is split -/

section
variable {new : GlobalAddress} {left right : LeafNode Key} {mid : Key} (stocked : Stocked cfg t m pending top)
  (there : m.nodes a = some (.leaf leaf)) (unissued : new ∉ m.nodesIssued)
  (partition : Partition cfg.branchFactor (fun b => (m.items b).key) leaf left right mid)
include stocked there unissued partition

theorem Stocked.refers_split {y : GlobalAddress} : (m.divided a new (.leaf left) (.leaf right)).Refers cfg y ↔ m.Refers cfg y := by
  have apart := stocked.standing.ne_new there unissued
  constructor
  · rintro ⟨b, leaf', j, found, live, rfl⟩
    rcases Memory.divided_cases found with ⟨rfl, eq⟩ | ⟨rfl, eq⟩ | ⟨-, -, old⟩
    · obtain rfl := Node.leaf.inj eq
      obtain ⟨k, before, same⟩ := partition.lower.old j live
      exact ⟨b, leaf, k, there, before, by rw [same]⟩
    · obtain rfl := Node.leaf.inj eq
      obtain ⟨k, before, same⟩ := partition.upper.old j live
      exact ⟨a, leaf, k, there, before, by rw [same]⟩
    · exact ⟨b, leaf', j, old, live, rfl⟩
  · rintro ⟨b, leaf', j, found, live, rfl⟩
    by_cases here : b = a
    · subst here
      obtain rfl : leaf = leaf' := Node.leaf.inj (Option.some.inj (there.symm.trans found))
      have among : m.keyAt leaf j ∈ leaf.keys cfg.branchFactor fun b => (m.items b).key := LeafNode.mem_keys.2 ⟨j, live, rfl⟩
      -- the half that takes the key has the block of the only slot with that key
      have carried : ∀ {half : LeafNode Key} {fence : Key × Key} {keys : Finset Key},
          Half cfg.branchFactor (fun b => (m.items b).key) leaf half fence keys → m.keyAt leaf j ∈ keys →
          ∃ i, half.Live cfg.branchFactor i ∧ (half.kvBlocks i).getAddr = (leaf.kvBlocks j).getAddr := by
        intro half fence keys isHalf inside
        rw [← isHalf.keys] at inside
        obtain ⟨i, now, same⟩ := LeafNode.mem_keys.1 inside
        obtain ⟨k, before, block⟩ := isHalf.old i now
        rw [block] at same
        obtain rfl := (stocked.shelved b leaf there).once k j before live same
        exact ⟨i, now, by rw [block]⟩
      rcases lt_or_ge (m.keyAt leaf j) mid with low | high
      · obtain ⟨i, now, same⟩ := carried partition.lower (Finset.mem_filter.2 ⟨among, low⟩)
        exact ⟨b, left, i, Memory.divided_left .., now, same⟩
      · obtain ⟨i, now, same⟩ := carried partition.upper (Finset.mem_filter.2 ⟨among, high⟩)
        exact ⟨new, right, i, Memory.divided_right apart, now, same⟩
    · have notNew : b ≠ new := stocked.standing.ne_new found unissued
      exact ⟨b, leaf', j, by rw [Memory.divided_other notNew here, found], live, rfl⟩

theorem Stocked.split_represents (represents : Represents cfg m map) :
    Represents cfg (m.divided a new (.leaf left) (.leaf right)) map := by
  intro k v
  rw [represents]
  refine exists_congr fun y => ?_
  rw [stocked.refers_split there unissued partition]
  rfl

theorem Stocked.splitLeaf (levels : left.header.level = 0 ∧ right.header.level = 0) :
    Stocked cfg t (m.divided a new (.leaf left) (.leaf right)) (Insert.insert new pending) top := by
  have shelved := stocked.shelved a leaf there
  have lower : Shelved cfg m left := partition.lower.shelved shelved fun k inside covers =>
    ⟨covers.1, (Finset.mem_filter.1 inside).2⟩
  have upper : Shelved cfg m right := partition.upper.shelved shelved fun k inside covers =>
    ⟨(Finset.mem_filter.1 inside).2, covers.2⟩
  refine ⟨stocked.standing.splitLeaf there unissued partition.inside levels partition.lower.fence partition.upper.fence,
    fun b leaf' found => ?_, ⟨stocked.recycles.issued, stocked.recycles.nodup, stocked.recycles.others⟩⟩
  have same : Shelved cfg m leaf' := by
    rcases Memory.divided_cases found with ⟨-, eq⟩ | ⟨-, eq⟩ | ⟨-, -, old⟩
    · exact Node.leaf.inj eq ▸ lower
    · exact Node.leaf.inj eq ▸ upper
    · exact stocked.shelved b leaf' old
  exact same.frame fun j live => ⟨same.inUse j live, rfl⟩

end

end

end Faunus
