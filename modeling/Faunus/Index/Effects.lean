import Faunus.Index.Splits

/-! What an operation does to leaves and items.

Most operations leave every leaf as it is, up to lock bits. The others are the
steps of reads, inserts and leaf splits.
-/

set_option autoImplicit false

namespace Faunus

open Interleaving

variable {Key Value : Type}

/-- The same fence and the same blocks, up to lock bits. -/
structure LikeLeaf (cfg : Config) (old now : LeafNode Key) : Prop where
  fence : now.header.fence = old.header.fence
  blocks : ∀ i < cfg.branchFactor, (now.kvBlocks i).setLocked false = (old.kvBlocks i).setLocked false

section
variable {cfg : Config} {old now : LeafNode Key} {i : ℕ}

theorem LikeLeaf.refl (leaf : LeafNode Key) : LikeLeaf cfg leaf leaf := ⟨rfl, fun _ _ => rfl⟩

theorem LikeLeaf.isFree (like : LikeLeaf cfg old now) (bound : i < cfg.branchFactor) :
    (now.kvBlocks i).isFree = (old.kvBlocks i).isFree := by
  simpa using congrArg KVBlock.isFree (like.blocks i bound)

theorem LikeLeaf.getAddr (like : LikeLeaf cfg old now) (bound : i < cfg.branchFactor) :
    (now.kvBlocks i).getAddr = (old.kvBlocks i).getAddr := by
  simpa using congrArg KVBlock.getAddr (like.blocks i bound)

theorem LikeLeaf.getFingerprint (like : LikeLeaf cfg old now) (bound : i < cfg.branchFactor) :
    (now.kvBlocks i).getFingerprint = (old.kvBlocks i).getFingerprint := by
  simpa using congrArg KVBlock.getFingerprint (like.blocks i bound)

theorem LikeLeaf.covers [LinearOrder Key] (like : LikeLeaf cfg old now) {key : Key} :
    now.header.covers key ↔ old.header.covers key := by
  simp only [Header.covers, like.fence]

end

structure SameLeaves (cfg : Config) (gs gs' : Thread → Local Key Value) (m m' : Memory Key Value) : Prop where
  before : ∀ a now, Born gs' m' a (.leaf now) → ∃ old, Born gs m a (.leaf old) ∧ LikeLeaf cfg old now
  after : ∀ a old, Born gs m a (.leaf old) → ∃ now, Born gs' m' a (.leaf now) ∧ LikeLeaf cfg old now

section
variable {cfg : Config} {gs gs' : Thread → Local Key Value} {m m' : Memory Key Value} {t : Thread} {g : Local Key Value}
  {a : GlobalAddress}

theorem sameLeaves_of_born (born : ∀ a leaf, Born gs' m' a (.leaf leaf) ↔ Born gs m a (.leaf leaf)) :
    SameLeaves cfg gs gs' m m' :=
  ⟨fun a now present => ⟨now, (born a now).1 present, .refl now⟩, fun a old present => ⟨old, (born a old).2 present, .refl old⟩⟩

theorem sameLeaves_look (smo : g.smo = (gs t).smo) (nodes : m'.nodes = m.nodes) :
    SameLeaves cfg gs (Function.update gs t g) m m' :=
  sameLeaves_of_born fun a leaf => by rw [born_update (by rw [smo]), Born, Born, nodes]

theorem sameLeaves_setLeaf {leaf leaf' : LeafNode Key} (born : Born gs m a (.leaf leaf)) (like : LikeLeaf cfg leaf leaf')
    (fresh : g.smo.fresh = (gs t).smo.fresh) : SameLeaves cfg gs (Function.update gs t g) m (m.setNode a (.leaf leaf')) := by
  refine ⟨fun b now present => ?_, fun b old present => ?_⟩
  · rw [born_update fresh, born_setNode born] at present
    rcases present with ⟨rfl, eq⟩ | ⟨-, before⟩
    · cases eq
      exact ⟨leaf, born, like⟩
    · exact ⟨now, before, .refl now⟩
  · by_cases same : b = a
    · subst same
      obtain rfl := Node.leaf.inj (born_unique present born)
      exact ⟨leaf', (born_update fresh).2 ((born_setNode born).2 (Or.inl ⟨rfl, rfl⟩)), like⟩
    · exact ⟨old, (born_update fresh).2 ((born_setNode born).2 (Or.inr ⟨same, present⟩)), .refl old⟩

theorem sameLeaves_setInternal {n n' : InternalNode Key} (born : Born gs m a (.internal n))
    (fresh : g.smo.fresh = (gs t).smo.fresh) : SameLeaves cfg gs (Function.update gs t g) m (m.setNode a (.internal n')) := by
  refine sameLeaves_of_born fun b leaf => ?_
  rw [born_update fresh, born_setNode born]
  constructor
  · rintro (⟨-, eq⟩ | ⟨-, before⟩)
    · cases eq
    · exact before
  · intro present
    refine Or.inr ⟨?_, present⟩
    rintro rfl
    cases born_unique present born

theorem sameLeaves_setLock {n : Node Key} {lock : BitVec 64} (born : Born gs m a n) (fresh : g.smo.fresh = (gs t).smo.fresh) :
    SameLeaves cfg gs (Function.update gs t g) m (m.setNode a (n.setLock lock)) := by
  cases n with
  | leaf leaf => exact sameLeaves_setLeaf born ⟨rfl, fun _ _ => rfl⟩ fresh
  | internal node => exact sameLeaves_setInternal born fresh

end

/-- The operation reads the leaf of a read or an insert. -/
def Op.readsLeaf (o : Op Key Value) : Bool :=
  match o.act with
  | .readNode _ => decide (o.site = .insert ∨ o.site = .read)
  | _ => false

section Effects
variable [LinearOrder Key] [KeyBytes Key] (cfg : Config) (t : Thread) (gs : Thread → Local Key Value) (m : Memory Key Value)

inductive Effect : (o : Op Key Value) → o.act.Reply → Memory Key Value → Local Key Value → Prop where
  | quiet {o : Op Key Value} {r : o.act.Reply} {m' : Memory Key Value} {g : Local Key Value} :
      o.readsLeaf = false → SameLeaves cfg gs (Function.update gs t g) m m' →
      (g.smo.kept = none ∨
        g.smo.held = (gs t).smo.held ∧ g.smo.kept = (gs t).smo.kept ∧ g.smo.keyed = (gs t).smo.keyed) →
      g.put = (gs t).put → m'.items = m.items → m'.freeItems = m.freeItems → m'.itemsIssued = m.itemsIssued →
      Effect o r m' g
  -- Leaf splits.
  | readKept {a : GlobalAddress} {leaf : LeafNode Key} :
      Born gs m a (.leaf leaf) → (gs t).smo.held = [a] →
      Effect ⟨.splitLeaf a, .readNode a⟩ (.leaf leaf) m { gs t with smo := { (gs t).smo with kept := some leaf, keyed := [] } }
  | readKeptKey {a : GlobalAddress} {leaf : LeafNode Key} {i : ℕ} :
      (gs t).smo.held = [a] → (gs t).smo.kept = some leaf → i < cfg.branchFactor → (leaf.kvBlocks i).isFree = false →
      Effect ⟨.splitLeaf a, .readKey (leaf.kvBlocks i).getAddr⟩ (m.items (leaf.kvBlocks i).getAddr).key m
        { gs t with smo :=
          { (gs t).smo with
            keyed := (gs t).smo.keyed ++ [((m.items (leaf.kvBlocks i).getAddr).key, leaf.kvBlocks i)] } }
  | leafSplit {a new : GlobalAddress} {leaf left right : LeafNode Key} {entries : List (Key × KVBlock)}
      {middleKey : Key} {block : KVBlock} {g : Local Key Value} :
      (gs t).smo.held = [a] → (gs t).smo.kept = some leaf →
      (gs t).smo.keyed.map Prod.snd = (takenIndices cfg.branchFactor leaf).map leaf.kvBlocks →
      entries = OrderedMap.ofList (gs t).smo.keyed →
      entries[entries.length / 2]? = some (middleKey, block) →
      Distributes cfg leaf entries middleKey left right → (gs t).smo.fresh = some (new, some (.leaf right)) →
      g.smo.fresh = none → g.smo.kept = none → g.put = (gs t).put →
      Effect ⟨.splitLeaf a, .writeNode a (.leaf left)⟩ () (m.setNode a (.leaf left)) g
  -- Reads and inserts.
  | allocItem {a : GlobalAddress} {item : KVItem Key Value} {m' : Memory Key Value} :
      m.allocItem t.server a = some m' → (gs t).put.wanted = some item.key → (gs t).put.placed = none →
      Effect ⟨.insert, .allocItem⟩ a m' { gs t with put := { (gs t).put with item := some (a, item, false) } }
  | writeItem {a : GlobalAddress} {item : KVItem Key Value} :
      (gs t).put.item = some (a, item, false) →
      Effect ⟨.insert, .writeItem a item⟩ () (m.setItem a item)
        { gs t with put := { (gs t).put with item := some (a, item, true) } }
  | readLeaf {site : Site} {a : GlobalAddress} {leaf : LeafNode Key} :
      site = .insert ∨ site = .read → Born gs m a (.leaf leaf) →
      Effect ⟨site, .readNode a⟩ (.leaf leaf) m
        { gs t with put := { (gs t).put with seen := some (a, leaf), looked := [] } }
  | lookItem {a : GlobalAddress} {leaf : LeafNode Key} {i : ℕ} :
      (gs t).put.seen = some (a, leaf) → i < cfg.branchFactor → (leaf.kvBlocks i).isFree = false →
      Effect ⟨.getCandidateKvs, .readItem (leaf.kvBlocks i).getAddr⟩ (m.items (leaf.kvBlocks i).getAddr) m
        { gs t with put :=
          { (gs t).put with looked := (gs t).put.looked ++ [(i, (m.items (leaf.kvBlocks i).getAddr).key)] } }
  | lookKey {a : GlobalAddress} {leaf : LeafNode Key} {i : ℕ} :
      (gs t).put.seen = some (a, leaf) → i < cfg.branchFactor → (leaf.kvBlocks i).isFree = false →
      Effect ⟨.getCandidateKvs, .readKey (leaf.kvBlocks i).getAddr⟩ (m.items (leaf.kvBlocks i).getAddr).key m
        { gs t with put :=
          { (gs t).put with looked := (gs t).put.looked ++ [(i, (m.items (leaf.kvBlocks i).getAddr).key)] } }
  | slotFilled {a address : GlobalAddress} {leaf snap : LeafNode Key} {i : ℕ} {item : KVItem Key Value} :
      Born gs m a (.leaf leaf) → leaf.kvBlocks i = snap.kvBlocks i →
      (gs t).put.ready cfg a snap address item → i < cfg.branchFactor → (snap.kvBlocks i).isFree = true →
      (gs t).put.missed cfg snap item.key cfg.branchFactor →
      Effect ⟨.insert, .casBlock a i (snap.kvBlocks i) (.make (.ofKey item.key) address false false)⟩ (leaf.kvBlocks i)
        (m.setNode a (.leaf (leaf.setBlock i (.make (.ofKey item.key) address false false))))
        { gs t with put := { (gs t).put with item := none, placed := some item } }
  | slotUpdated {a address : GlobalAddress} {leaf snap : LeafNode Key} {i : ℕ} {item : KVItem Key Value} :
      Born gs m a (.leaf leaf) →
      (gs t).put.ready cfg a snap address item → candidate cfg snap item.key i →
      (leaf.kvBlocks i).isFree = false → (leaf.kvBlocks i).isLocked = false →
      (leaf.kvBlocks i).getFingerprint = .ofKey item.key →
      (i, item.key) ∈ (gs t).put.looked → (gs t).put.missed cfg snap item.key i →
      Effect ⟨.tryUpdateKvblock, .casBlock a i (leaf.kvBlocks i) (.make (.ofKey item.key) address false false)⟩
        (leaf.kvBlocks i) (m.setNode a (.leaf (leaf.setBlock i (.make (.ofKey item.key) address false false))))
        { gs t with put :=
          { (gs t).put with item := none, placed := some item, freeing := some (leaf.kvBlocks i).getAddr } }
  | slotDeleted {a : GlobalAddress} {leaf snap : LeafNode Key} {i j : ℕ} {key : Key} {desired : KVBlock} :
      Born gs m a (.leaf leaf) → leaf.kvBlocks i = snap.kvBlocks i →
      (gs t).put.seen = some (a, snap) → snap.header.covers key → candidate cfg snap key i → candidate cfg snap key j →
      j < i → (i, key) ∈ (gs t).put.looked → (j, key) ∈ (gs t).put.looked →
      desired.isFree = true → desired.isLocked = (snap.kvBlocks i).isLocked →
      Effect ⟨.tryDeleteKvblock, .casBlock a i (snap.kvBlocks i) desired⟩ (leaf.kvBlocks i)
        (m.setNode a (.leaf (leaf.setBlock i desired))) (gs t)
  | freeReplaced {a : GlobalAddress} :
      (gs t).put.freeing = some a →
      Effect ⟨.tryUpdateKvblock, .freeItem a⟩ () (m.freeItem t.server a)
        { gs t with put := { (gs t).put with freeing := none } }
  | freeDeleted {a : GlobalAddress} {snap : LeafNode Key} {i j : ℕ} {key : Key} :
      (gs t).put.seen = some (a, snap) → candidate cfg snap key i → candidate cfg snap key j → j < i →
      (i, key) ∈ (gs t).put.looked → (j, key) ∈ (gs t).put.looked →
      Effect ⟨.tryDeleteKvblock, .freeItem (snap.kvBlocks i).getAddr⟩ () (m.freeItem t.server (snap.kvBlocks i).getAddr) (gs t)

end Effects

section
variable [LinearOrder Key] [BoundedOrder Key] [KeyBytes Key] {cfg : Config} {t : Thread} {gs : Thread → Local Key Value}
  {m m' : Memory Key Value} {o : Op Key Value} {r : o.act.Reply} {g : Local Key Value}

theorem Discipline.effect (inv : Discipline gs m cfg) (permitted : Permits cfg t gs m o r m' g) : Effect cfg t gs m o r m' g := by
  have look : ∀ {o : Op Key Value} {r : o.act.Reply} {g' : Local Key Value} {m' : Memory Key Value}, o.readsLeaf = false →
      g'.smo = (gs t).smo →
      g'.put = (gs t).put → m'.nodes = m.nodes → m'.items = m.items → m'.freeItems = m.freeItems →
      m'.itemsIssued = m.itemsIssued → Effect cfg t gs m o r m' g' :=
    fun elsewhere smo put nodes items free issued =>
      .quiet elsewhere (sameLeaves_look smo nodes) (Or.inr ⟨by rw [smo], by rw [smo], by rw [smo]⟩) put items free issued
  have born : ∀ {a n level}, (gs t).view.target = some (a, level) → m.nodes a = some n → Born gs m a n :=
    fun target there => (inv.born_of_target target there).1
  cases permitted with
  | readRoot => exact look rfl rfl rfl rfl rfl rfl rfl
  | @readNode site _ _ _ _ _ _ notInsert notRead =>
    refine look ?_ rfl rfl rfl rfl rfl rfl
    simp [Op.readsLeaf, notInsert, notRead]
  | dequeue => exact look rfl rfl rfl rfl rfl rfl rfl
  | enqueue => exact look rfl rfl rfl rfl rfl rfl rfl
  | randFingerprint => exact look rfl rfl rfl rfl rfl rfl rfl
  | randAddr => exact look rfl rfl rfl rfl rfl rfl rfl
  | threadHash => exact look rfl rfl rfl rfl rfl rfl rfl
  | lockFailed => exact look rfl rfl rfl rfl rfl rfl rfl
  | slotMissed => exact look rfl rfl rfl rfl rfl rfl rfl
  | lockTaken there unlocked target => exact .quiet rfl (sameLeaves_setLock (born target there) rfl) (Or.inl rfl) rfl rfl rfl rfl
  | released there held =>
    exact .quiet rfl (sameLeaves_setLock (inv.born_of_held (t := t) (by simp [held]) there) rfl) (Or.inl rfl) rfl rfl rfl rfl
  | abandoned there held =>
    exact .quiet rfl (sameLeaves_setLock (inv.born_of_held (t := t) (by simp [held]) there) rfl) (Or.inl rfl) rfl rfl rfl rfl
  | readHeld =>
    exact .quiet rfl (sameLeaves_of_born fun _ _ => born_update (by rfl)) (Or.inr ⟨rfl, rfl, rfl⟩) rfl rfl rfl rfl
  | @slotLocked a leaf i there only clear bound =>
    have present := inv.born_of_held (t := t) (by simp [only]) there
    have bit := (inv.bits.taken a leaf t present (by simp [only]) i bound).trans clear
    refine .quiet rfl (sameLeaves_setLeaf present ⟨rfl, fun j _ => ?_⟩ rfl) (Or.inr ⟨rfl, rfl, rfl⟩) rfl rfl rfl rfl
    by_cases here : j = i
    · subst here
      simp only [LeafNode.setBlock, Function.update_self, KVBlock.add_one bit, KVBlock.setLocked_setLocked]
    · simp only [LeafNode.setBlock, Function.update_of_ne here]
  | @slotUnlocked a leaf i there only locked bound =>
    have present := inv.born_of_held (t := t) (by simp [only]) there
    have bit := (inv.bits.taken a leaf t present (by simp [only]) i bound).trans locked
    refine .quiet rfl (sameLeaves_setLeaf present ⟨rfl, fun j _ => ?_⟩ rfl) (Or.inl rfl) rfl rfl rfl rfl
    by_cases here : j = i
    · subst here
      simp only [LeafNode.setBlock, Function.update_self, KVBlock.add_minus_one bit, KVBlock.setLocked_setLocked]
    · simp only [LeafNode.setBlock, Function.update_of_ne here]
  | readKept there only => exact .readKept (inv.born_of_held (t := t) (by simp [only]) there) only
  | readKeptKey only kept taken =>
    simp only [takenIndices, List.mem_filter, List.mem_range, Bool.not_eq_true'] at taken
    exact .readKeptKey only kept taken.1 taken.2
  | allocNode unused fresh =>
    exact .quiet rfl (sameLeaves_of_born fun a leaf => (inv.levels.sameTree_alloc unused fresh).born a _)
      (Or.inr ⟨rfl, rfl, rfl⟩) rfl rfl rfl rfl
  | writeFresh fresh =>
    exact .quiet rfl (sameLeaves_of_born fun a leaf => (sameTree_write fresh).born a _) (Or.inr ⟨rfl, rfl, rfl⟩) rfl rfl rfl rfl
  | leafSplit only kept pending all sorted long middle distributes fresh =>
    exact .leafSplit only kept all sorted middle distributes fresh rfl rfl rfl
  | @linked site a c n rest level key held noted =>
    obtain ⟨b, head, present⟩ := inv.notes.node t n noted
    obtain rfl : a = b := by simpa [held] using head
    exact .quiet rfl (sameLeaves_setInternal present rfl) (Or.inr ⟨rfl, rfl, rfl⟩) rfl rfl rfl rfl
  | @nodeSplit site a c new n rest level key held noted pending length covers absent full middle fresh =>
    obtain ⟨b, head, present⟩ := inv.notes.node t n noted
    obtain rfl : a = b := by simpa [held] using head
    refine .quiet rfl (sameLeaves_of_born fun b leaf => ?_) (Or.inr ⟨rfl, rfl, rfl⟩) rfl rfl rfl rfl
    rw [inv.levels.born_split present fresh rfl]
    constructor
    · rintro (⟨-, eq⟩ | ⟨-, old | ⟨-, eq⟩⟩)
      · cases eq
      · exact old
      · cases eq
    · intro old
      refine Or.inr ⟨?_, Or.inl old⟩
      rintro rfl
      cases born_unique old present
  | rootGrown held atTop root pending length fresh =>
    refine .quiet rfl (sameLeaves_of_born fun b leaf => ?_) (Or.inr ⟨rfl, rfl, rfl⟩) rfl rfl rfl rfl
    refine (inv.levels.born_publish fresh rfl b _).trans ⟨?_, Or.inl⟩
    rintro (old | ⟨-, eq⟩)
    · exact old
    · cases eq
  | allocItem usable allocated wanted placed => exact .allocItem allocated wanted placed
  | writeItem own => exact .writeItem own
  | readLeaf from_ wanted there target => exact .readLeaf from_ (born target there)
  | lookItem seen bound taken => exact .lookItem seen bound taken
  | lookKey seen bound taken => exact .lookKey seen bound taken
  | slotFilled there target eq ready bound free missed => exact .slotFilled (born target there) eq ready bound free missed
  | slotUpdated there target ready candidate taken unlocked print looked missed =>
    exact .slotUpdated (born target there) ready candidate taken unlocked print looked missed
  | slotDeleted there target eq seen covers candidate other lower looked also freed locked =>
    exact .slotDeleted (born target there) eq seen covers candidate other lower looked also freed locked
  | freeReplaced own => exact .freeReplaced own
  | freeDeleted seen high low less one two => exact .freeDeleted seen high low less one two

end

end Faunus
