import Faunus.Index.System
import Faunus.Interleaving.Invariant

/-! What a thread of the index may do next.

A thread's ghost records what its local variables stand for: the locks it holds,
the node it is about to publish, the leaf it has read. Each permitted operation
says what the thread relies on and how its ghost changes; nothing else about the
code enters the invariants.
-/

set_option autoImplicit false

namespace Faunus

open Interleaving

/-- A thread's part in structure modifications. -/
structure Smo (Key : Type) where
  held : List GlobalAddress
  slots : ℕ → Bool
  /-- The latest locked internal node, as read under its lock. -/
  node : Option (InternalNode Key)
  /-- The leaf under split, as read with all slots locked. -/
  kept : Option (LeafNode Key)
  /-- The keys read for the taken slots of that leaf. -/
  keyed : List (Key × KVBlock)
  /-- An allocated node that the tree does not contain yet, with what was written there. -/
  fresh : Option (GlobalAddress × Option (Node Key))
  /-- A node split off another one and not linked yet, with its level and separator. -/
  pending : Option (GlobalAddress × ℕ × Key)

/-- Where a thread is in the tree. -/
structure View where
  target : Option (GlobalAddress × ℕ)
  waiting : Option GlobalAddress
  atTop : Bool

/-- A thread's part in reads and inserts. -/
structure Put (Key Value : Type) where
  wanted : Option Key
  /-- The allocated item, its content and whether it was written. -/
  item : Option (GlobalAddress × KVItem Key Value × Bool)
  placed : Option (KVItem Key Value)
  freeing : Option GlobalAddress
  seen : Option (GlobalAddress × LeafNode Key)
  looked : List (ℕ × Key)

structure Local (Key Value : Type) where
  smo : Smo Key
  view : View
  put : Put Key Value

section
variable {Key Value : Type}

def Smo.idle : Smo Key := ⟨[], fun _ => false, none, none, [], none, none⟩

def View.idle : View := ⟨none, none, false⟩

def Put.idle : Put Key Value := ⟨none, none, none, none, none, []⟩

def Local.idle : Local Key Value := ⟨.idle, .idle, .idle⟩

section Tree
variable (gs : Thread → Local Key Value) (m : Memory Key Value)

def Fresh (a : GlobalAddress) : Prop := ∃ t content, (gs t).smo.fresh = some (a, content)

def Pending (a : GlobalAddress) : Prop := ∃ t level key, (gs t).smo.pending = some (a, level, key)

/-- The tree contains the node, linked or about to be. -/
def Born (a : GlobalAddress) (n : Node Key) : Prop := m.nodes a = some n ∧ ¬ Fresh gs a

def HasLevel (a : GlobalAddress) (level : ℕ) : Prop := ∃ n, Born gs m a n ∧ n.header.level = level

def Known (a : GlobalAddress) (level : ℕ) : Prop := HasLevel gs m a level ∧ ¬ Pending gs a

end Tree

/-! ## What the operations say about locks -/

def heldNext : (o : Op Key Value) → o.act.Reply → List GlobalAddress → List GlobalAddress
  | ⟨_, .casLock a expected _⟩, (found : BitVec 64), held => if found = expected then a :: held else held
  | ⟨_, .faaLock a _⟩, _, held => held.erase a
  | _, _, held => held

/-- What the thread waits for after an operation: a failed try-lock waits for
nothing, a failed lock in `insert_internal_entry` and a locked ancestor do. -/
def waitsNext : (o : Op Key Value) → o.act.Reply → Option GlobalAddress → Option GlobalAddress
  | ⟨site, .casLock a expected _⟩, (found : BitVec 64), waiting =>
    if found = expected then none
    else match site with
      | .insertInternalEntry _ => some a
      | _ => waiting
  | ⟨_, .faaLock _ _⟩, _, _ => none
  | ⟨site, .readNode a⟩, n, waiting =>
    match site with
    | .findNode level true => if n.header.lock ≠ 0 ∧ level < n.header.level then some a else waiting
    | _ => waiting
  | _, _, waiting => waiting

variable [LinearOrder Key] [BoundedOrder Key] [KeyBytes Key]

/-- The two leaves a split writes: the kept entries in order, every other slot free and unlocked. -/
structure Distributes (cfg : Config) (leaf : LeafNode Key) (entries : List (Key × KVBlock)) (middleKey : Key)
    (left right : LeafNode Key) : Prop where
  leftHeader : left.header = { leaf.header with fence := (leaf.header.fence.1, middleKey) }
  rightHeader : right.header = .zero (middleKey, leaf.header.fence.2)
  leftKept : ∀ i < entries.length / 2, ∀ e, entries[i]? = some e → left.kvBlocks i = e.2.setLocked false
  leftFree : ∀ i, entries.length / 2 ≤ i → i < cfg.branchFactor →
    (left.kvBlocks i).isFree = true ∧ (left.kvBlocks i).isLocked = false
  rightKept : ∀ i, i + entries.length / 2 < entries.length →
    ∀ e, entries[i + entries.length / 2]? = some e → right.kvBlocks i = e.2.setLocked false
  rightFree : ∀ i, entries.length ≤ i + entries.length / 2 → i < cfg.branchFactor →
    (right.kvBlocks i).isFree = true ∧ (right.kvBlocks i).isLocked = false

def Node.Unlocked (cfg : Config) : Node Key → Prop
  | .leaf n => n.header.lock = 0 ∧ ∀ i < cfg.branchFactor, (n.kvBlocks i).isLocked = false
  | .internal n => n.header.lock = 0

/-- The root that `setup_new_root` writes. -/
def newRoot (key : Key) (left right : GlobalAddress) (level : ℕ) : InternalNode Key where
  header := { Header.zero (⊥, ⊤) with level, lastIndex := 1 }
  entries := setChild (setChild (setKey (fun _ => .zero) 0 key) 0 left) 1 right

def candidate (cfg : Config) (leaf : LeafNode Key) (key : Key) (i : ℕ) : Prop :=
  i < cfg.branchFactor ∧ (leaf.kvBlocks i).isFree = false ∧ (leaf.kvBlocks i).getFingerprint = .ofKey key

/-- Every candidate below the bound was found to hold another key. -/
def Put.missed (cfg : Config) (put : Put Key Value) (leaf : LeafNode Key) (key : Key) (bound : ℕ) : Prop :=
  ∀ i < bound, candidate cfg leaf key i → ∃ other, (i, other) ∈ put.looked ∧ other ≠ key

/-- The item was written and the leaf that was read may take the key. -/
structure Put.ready (cfg : Config) (put : Put Key Value) (a : GlobalAddress) (leaf : LeafNode Key)
    (address : GlobalAddress) (item : KVItem Key Value) : Prop where
  written : put.item = some (address, item, true)
  seen : put.seen = some (a, leaf)
  unlocked : leaf.header.lock = 0
  slots : ∀ i < cfg.branchFactor, (leaf.kvBlocks i).isLocked = false
  covers : leaf.header.covers item.key

section Permits
variable (cfg : Config) (t : Thread) (gs : Thread → Local Key Value) (m : Memory Key Value)

inductive Permits : (o : Op Key Value) → o.act.Reply → Memory Key Value → Local Key Value → Prop where
  -- Moving through the tree.
  | readRoot {site : Site} {target : Option (GlobalAddress × ℕ)} {atTop : Bool} :
      (∀ a level, target = some (a, level) → Known gs m a level) →
      (atTop = true → (gs t).smo.held.head? = some m.rootOffset) →
      (site = .setupNewRoot → (gs t).view.atTop = true) →
      Permits ⟨site, .readRoot⟩ m.rootOffset m { gs t with view := { (gs t).view with target, atTop } }
  | readNode {site : Site} {a : GlobalAddress} {n : Node Key} {target : Option (GlobalAddress × ℕ)} :
      m.nodes a = some n →
      (∀ b level, target = some (b, level) → Known gs m b level) →
      (∀ level, site = .findNode level true → n.header.lock ≠ 0 → level < n.header.level →
        ∃ above, Known gs m a above ∧ (gs t).smo.held.length ≤ above) →
      site ≠ .insert → site ≠ .read →
      Permits ⟨site, .readNode a⟩ n m
        { gs t with view :=
          { (gs t).view with
            target, waiting := waitsNext (⟨site, .readNode a⟩ : Op Key Value) n (gs t).view.waiting } }
  | dequeue {site : Site} {leaf : GlobalAddress} : leaf ∈ m.queue →
      Permits ⟨site, .dequeue⟩ leaf { m with queue := m.queue.erase leaf }
        { gs t with view := { (gs t).view with target := some (leaf, 0) } }
  | enqueue {site : Site} {leaf : GlobalAddress} : (gs t).view.target = some (leaf, 0) →
      Permits ⟨site, .enqueue leaf⟩ () { m with queue := leaf :: m.queue } (gs t)
  | randFingerprint {site : Site} {old fp : Fingerprint} : Permits ⟨site, .randFingerprint old⟩ fp m (gs t)
  | randAddr {site : Site} {old addr : GlobalAddress} : Permits ⟨site, .randAddr old⟩ addr m (gs t)
  | threadHash {site : Site} {hash : BitVec 64} : Permits ⟨site, .threadHash⟩ hash m (gs t)
  -- Node locks.
  | lockFailed {site : Site} {a : GlobalAddress} {n : Node Key} :
      m.nodes a = some n → n.header.lock ≠ 0 → (gs t).view.target = some (a, (gs t).smo.held.length) →
      Permits ⟨site, .casLock a 0 1⟩ n.header.lock m
        { gs t with view :=
          { (gs t).view with
            waiting := waitsNext (⟨site, .casLock a 0 1⟩ : Op Key Value) n.header.lock (gs t).view.waiting } }
  | lockTaken {site : Site} {a : GlobalAddress} {n : Node Key} :
      m.nodes a = some n → n.header.lock = 0 → (gs t).view.target = some (a, (gs t).smo.held.length) →
      (∀ i, (gs t).smo.slots i = false) →
      (∀ c level key, (gs t).smo.pending = some (c, level, key) → (gs t).smo.held.length = level + 1) →
      Permits ⟨site, .casLock a 0 1⟩ (0 : BitVec 64) (m.setNode a (n.setLock 1))
        { gs t with
          smo := { (gs t).smo with held := a :: (gs t).smo.held, node := none, kept := none, keyed := [] }
          view := { (gs t).view with waiting := none, atTop := false } }
  | released {site : Site} {a : GlobalAddress} {n : Node Key} {rest : List GlobalAddress} :
      m.nodes a = some n → (gs t).smo.held = a :: rest → (∀ i, (gs t).smo.slots i = false) →
      (∀ c level key, (gs t).smo.pending = some (c, level, key) → rest.length = level + 1) →
      Permits ⟨site, .faaLock a (-1)⟩ () (m.setNode a (n.setLock (n.header.lock + -1)))
        { gs t with
          smo := { (gs t).smo with held := rest, node := none, kept := none, keyed := [] }
          view := { (gs t).view with waiting := none, atTop := false } }
  /-- The parent already has the separator: the node is left out. -/
  | abandoned {site : Site} {a c : GlobalAddress} {n : InternalNode Key} {rest : List GlobalAddress} {level : ℕ} {key : Key}
      {i : ℕ} :
      m.nodes a = some (.internal n) → (gs t).smo.held = a :: rest →
      (gs t).smo.node = some n → (gs t).smo.pending = some (c, level, key) → rest.length = level + 1 →
      n.header.covers key → i ≤ n.header.lastIndex → (n.entries i).key = key →
      Permits ⟨site, .faaLock a (-1)⟩ () (m.setNode a ((Node.internal n).setLock (n.header.lock + -1)))
        { gs t with
          smo := { (gs t).smo with held := rest, node := none, kept := none, keyed := [], pending := none }
          view := { (gs t).view with waiting := none, atTop := false } }
  | readHeld {level : ℕ} {a : GlobalAddress} {n : InternalNode Key} :
      m.nodes a = some (.internal n) → (gs t).smo.held.head? = some a →
      Permits ⟨.insertInternalEntry level, .readNode a⟩ (.internal n) m
        { gs t with smo := { (gs t).smo with node := some n } }
  -- Slots of a leaf under split.
  | slotLocked {a : GlobalAddress} {leaf : LeafNode Key} {i : ℕ} :
      m.nodes a = some (.leaf leaf) → (gs t).smo.held = [a] → (gs t).smo.slots i = false → i < cfg.branchFactor →
      (gs t).smo.kept = none → (gs t).smo.pending = none →
      Permits ⟨.splitLeaf a, .faaBlock a i 1⟩ () (m.setNode a (.leaf (leaf.setBlock i ((leaf.kvBlocks i).add 1))))
        { gs t with smo := { (gs t).smo with slots := Function.update (gs t).smo.slots i true } }
  | slotUnlocked {a : GlobalAddress} {leaf : LeafNode Key} {i : ℕ} :
      m.nodes a = some (.leaf leaf) → (gs t).smo.held = [a] → (gs t).smo.slots i = true → i < cfg.branchFactor →
      (gs t).smo.pending = none →
      Permits ⟨.splitLeaf a, .faaBlock a i (-1)⟩ () (m.setNode a (.leaf (leaf.setBlock i ((leaf.kvBlocks i).add (-1)))))
        { gs t with smo := { (gs t).smo with slots := Function.update (gs t).smo.slots i false, kept := none, keyed := [] } }
  | readKept {a : GlobalAddress} {leaf : LeafNode Key} :
      m.nodes a = some (.leaf leaf) → (gs t).smo.held = [a] →
      (∀ i < cfg.branchFactor, (gs t).smo.slots i = true) →
      Permits ⟨.splitLeaf a, .readNode a⟩ (.leaf leaf) m
        { gs t with smo := { (gs t).smo with kept := some leaf, keyed := [] } }
  | readKeptKey {a : GlobalAddress} {leaf : LeafNode Key} {i : ℕ} :
      (gs t).smo.held = [a] → (gs t).smo.kept = some leaf → i ∈ takenIndices cfg.branchFactor leaf →
      Permits ⟨.splitLeaf a, .readKey (leaf.kvBlocks i).getAddr⟩ (m.items (leaf.kvBlocks i).getAddr).key m
        { gs t with smo :=
          { (gs t).smo with
            keyed := (gs t).smo.keyed ++ [((m.items (leaf.kvBlocks i).getAddr).key, leaf.kvBlocks i)] } }
  -- New nodes.
  | allocNode {site : Site} {a : GlobalAddress} :
      a ∉ m.nodesIssued → (gs t).smo.fresh = none → (site = .setupNewRoot → (gs t).view.atTop = true) →
      Permits ⟨site, .allocNode⟩ a { m with nodesIssued := a :: m.nodesIssued }
        { gs t with smo := { (gs t).smo with fresh := some (a, none) } }
  | writeFresh {site : Site} {a : GlobalAddress} {n : Node Key} :
      (gs t).smo.fresh = some (a, none) → (site = .setupNewRoot → (gs t).view.atTop = true) → n.Unlocked cfg →
      Permits ⟨site, .writeNode a n⟩ () (m.setNode a n)
        { gs t with smo := { (gs t).smo with fresh := some (a, some n) } }
  | leafSplit {a new : GlobalAddress} {leaf left right : LeafNode Key} {entries : List (Key × KVBlock)}
      {middleKey : Key} {block : KVBlock} :
      (gs t).smo.held = [a] → (gs t).smo.kept = some leaf → (gs t).smo.pending = none →
      (gs t).smo.keyed.map Prod.snd = (takenIndices cfg.branchFactor leaf).map leaf.kvBlocks →
      entries = OrderedMap.ofList (gs t).smo.keyed → cfg.branchFactor / 2 < entries.length →
      entries[entries.length / 2]? = some (middleKey, block) →
      Distributes cfg leaf entries middleKey left right → (gs t).smo.fresh = some (new, some (.leaf right)) →
      Permits ⟨.splitLeaf a, .writeNode a (.leaf left)⟩ () (m.setNode a (.leaf left))
        { gs t with smo :=
          { (gs t).smo with
            slots := fun _ => false, kept := none, keyed := [], fresh := none, pending := some (new, 0, middleKey) } }
  | linked {site : Site} {a c : GlobalAddress} {n : InternalNode Key} {rest : List GlobalAddress} {level : ℕ} {key : Key} :
      (gs t).smo.held = a :: rest → (gs t).smo.node = some n →
      (gs t).smo.pending = some (c, level, key) → rest.length = level + 1 → n.header.covers key →
      (∀ i ≤ n.header.lastIndex, (n.entries i).key ≠ key) → n.header.lastIndex + 1 < cfg.branchFactor →
      (gs t).smo.fresh = none →
      Permits ⟨site, .writeNode a (.internal (n.withSeparator key c))⟩ ()
        (m.setNode a (.internal (n.withSeparator key c)))
        { gs t with smo := { (gs t).smo with node := none, pending := none } }
  | nodeSplit {site : Site} {a c new : GlobalAddress} {n : InternalNode Key} {rest : List GlobalAddress} {level : ℕ}
      {key : Key} :
      (gs t).smo.held = a :: rest → (gs t).smo.node = some n →
      (gs t).smo.pending = some (c, level, key) → rest.length = level + 1 → n.header.covers key →
      (∀ i ≤ n.header.lastIndex, (n.entries i).key ≠ key) → n.header.lastIndex + 1 = cfg.branchFactor →
      splitMiddle cfg.branchFactor < cfg.branchFactor - 1 →
      (gs t).smo.fresh = some (new, some (.internal (n.splitRight cfg.branchFactor key c))) →
      Permits ⟨site, .writeNode a (.internal (n.splitLeft cfg.branchFactor key c))⟩ ()
        (m.setNode a (.internal (n.splitLeft cfg.branchFactor key c)))
        { gs t with smo :=
          { (gs t).smo with
            node := none, fresh := none, pending := some (new, level + 1, n.middleKey cfg.branchFactor key c) } }
  | rootGrown {a c new : GlobalAddress} {rest : List GlobalAddress} {level : ℕ} {key : Key} :
      (gs t).smo.held = a :: rest → (gs t).view.atTop = true → m.rootOffset = a →
      (gs t).smo.pending = some (c, level, key) → rest.length = level →
      (gs t).smo.fresh = some (new, some (.internal (newRoot key a c (level + 1)))) →
      Permits ⟨.setupNewRoot, .casRoot a new⟩ a { m with rootOffset := new }
        { gs t with
          smo := { (gs t).smo with fresh := none, pending := none }
          view := { (gs t).view with atTop := false } }
  -- Items and slots.
  | allocItem {a : GlobalAddress} {item : KVItem Key Value} {m' : Memory Key Value} :
      cfg.usable a = true → m.allocItem t.server a = some m' → (gs t).put.wanted = some item.key →
      (gs t).put.placed = none →
      Permits ⟨.insert, .allocItem⟩ a m' { gs t with put := { (gs t).put with item := some (a, item, false) } }
  | writeItem {a : GlobalAddress} {item : KVItem Key Value} :
      (gs t).put.item = some (a, item, false) →
      Permits ⟨.insert, .writeItem a item⟩ () (m.setItem a item)
        { gs t with put := { (gs t).put with item := some (a, item, true) } }
  | readLeaf {site : Site} {a : GlobalAddress} {leaf : LeafNode Key} {key : Key} :
      site = .insert ∨ site = .read → (gs t).put.wanted = some key → m.nodes a = some (.leaf leaf) →
        (gs t).view.target = some (a, 0) →
      Permits ⟨site, .readNode a⟩ (.leaf leaf) m
        { gs t with put := { (gs t).put with seen := some (a, leaf), looked := [] } }
  | lookItem {a : GlobalAddress} {leaf : LeafNode Key} {i : ℕ} :
      (gs t).put.seen = some (a, leaf) → i < cfg.branchFactor → (leaf.kvBlocks i).isFree = false →
      Permits ⟨.getCandidateKvs, .readItem (leaf.kvBlocks i).getAddr⟩ (m.items (leaf.kvBlocks i).getAddr) m
        { gs t with put :=
          { (gs t).put with looked := (gs t).put.looked ++ [(i, (m.items (leaf.kvBlocks i).getAddr).key)] } }
  | lookKey {a : GlobalAddress} {leaf : LeafNode Key} {i : ℕ} :
      (gs t).put.seen = some (a, leaf) → i < cfg.branchFactor → (leaf.kvBlocks i).isFree = false →
      Permits ⟨.getCandidateKvs, .readKey (leaf.kvBlocks i).getAddr⟩ (m.items (leaf.kvBlocks i).getAddr).key m
        { gs t with put :=
          { (gs t).put with looked := (gs t).put.looked ++ [(i, (m.items (leaf.kvBlocks i).getAddr).key)] } }
  | slotMissed {site : Site} {a : GlobalAddress} {leaf : LeafNode Key} {i : ℕ} {expected desired : KVBlock} :
      m.nodes a = some (.leaf leaf) → leaf.kvBlocks i ≠ expected →
      Permits ⟨site, .casBlock a i expected desired⟩ (leaf.kvBlocks i) m (gs t)
  | slotFilled {a address : GlobalAddress} {leaf snap : LeafNode Key} {i : ℕ} {item : KVItem Key Value} :
      m.nodes a = some (.leaf leaf) → (gs t).view.target = some (a, 0) → leaf.kvBlocks i = snap.kvBlocks i →
      (gs t).put.ready cfg a snap address item → i < cfg.branchFactor → (snap.kvBlocks i).isFree = true →
      (gs t).put.missed cfg snap item.key cfg.branchFactor →
      Permits ⟨.insert, .casBlock a i (snap.kvBlocks i) (.make (.ofKey item.key) address false false)⟩ (leaf.kvBlocks i)
        (m.setNode a (.leaf (leaf.setBlock i (.make (.ofKey item.key) address false false))))
        { gs t with put := { (gs t).put with item := none, placed := some item } }
  | slotUpdated {a address : GlobalAddress} {leaf snap : LeafNode Key} {i : ℕ} {item : KVItem Key Value} :
      m.nodes a = some (.leaf leaf) → (gs t).view.target = some (a, 0) →
      (gs t).put.ready cfg a snap address item → candidate cfg snap item.key i →
      (leaf.kvBlocks i).isFree = false → (leaf.kvBlocks i).isLocked = false →
      (leaf.kvBlocks i).getFingerprint = .ofKey item.key →
      (i, item.key) ∈ (gs t).put.looked → (gs t).put.missed cfg snap item.key i →
      Permits ⟨.tryUpdateKvblock, .casBlock a i (leaf.kvBlocks i) (.make (.ofKey item.key) address false false)⟩
        (leaf.kvBlocks i) (m.setNode a (.leaf (leaf.setBlock i (.make (.ofKey item.key) address false false))))
        { gs t with put :=
          { (gs t).put with item := none, placed := some item, freeing := some (leaf.kvBlocks i).getAddr } }
  | slotDeleted {a : GlobalAddress} {leaf snap : LeafNode Key} {i j : ℕ} {key : Key} {desired : KVBlock} :
      m.nodes a = some (.leaf leaf) → (gs t).view.target = some (a, 0) → leaf.kvBlocks i = snap.kvBlocks i →
      (gs t).put.seen = some (a, snap) → snap.header.covers key → candidate cfg snap key i → candidate cfg snap key j →
      j < i → (i, key) ∈ (gs t).put.looked → (j, key) ∈ (gs t).put.looked →
      desired.isFree = true → desired.isLocked = (snap.kvBlocks i).isLocked →
      Permits ⟨.tryDeleteKvblock, .casBlock a i (snap.kvBlocks i) desired⟩ (leaf.kvBlocks i)
        (m.setNode a (.leaf (leaf.setBlock i desired))) (gs t)
  | freeReplaced {a : GlobalAddress} :
      (gs t).put.freeing = some a →
      Permits ⟨.tryUpdateKvblock, .freeItem a⟩ () (m.freeItem t.server a)
        { gs t with put := { (gs t).put with freeing := none } }
  | freeDeleted {a : GlobalAddress} {snap : LeafNode Key} {i j : ℕ} {key : Key} :
      (gs t).put.seen = some (a, snap) → candidate cfg snap key i → candidate cfg snap key j → j < i →
      (i, key) ∈ (gs t).put.looked → (j, key) ∈ (gs t).put.looked → (snap.kvBlocks i).raw = cfg.expectedPointer →
      Permits ⟨.tryDeleteKvblock, .freeItem (snap.kvBlocks i).getAddr⟩ ()
        (m.freeItem t.server (snap.kvBlocks i).getAddr) (gs t)

end Permits

end

end Faunus
