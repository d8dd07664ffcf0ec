import Faunus.Index.Node
import Faunus.Interleaving.Program

/-! Disaggregated memory as the Faunus index uses it.

Memory is typed by what the index stores where: the root pointer, nodes, and
`KVItem`s. Each RDMA verb is one atomic operation on one object; a batch is its
verbs in order. Allocation, random draws and the maintenance queue are operations
as well, since their outcome is not determined by the thread.
-/

set_option autoImplicit false

namespace Faunus

open Interleaving

/-- The source function an operation belongs to. -/
inductive Site where
  | findNode (level : ℕ) (fromSmo : Bool)
  | getCandidateKvs
  | tryUpdateKvblock
  | tryDeleteKvblock
  | read
  | insert
  | splitLeaf (leaf : GlobalAddress)
  | insertInternalEntry (level : ℕ)
  | splitInternalNode
  | setupNewRoot
  | maintenanceWorker
  | initializeIndex
  deriving DecidableEq

inductive Act (Key Value : Type) where
  | readRoot
  | casRoot (expected desired : GlobalAddress)
  | readNode (a : GlobalAddress)
  | writeNode (a : GlobalAddress) (n : Node Key)
  | casLock (a : GlobalAddress) (expected desired : BitVec 64)
  | faaLock (a : GlobalAddress) (increment : BitVec 64)
  | casBlock (a : GlobalAddress) (i : ℕ) (expected desired : KVBlock)
  | faaBlock (a : GlobalAddress) (i : ℕ) (increment : BitVec 64)
  | readItem (a : GlobalAddress)
  | readKey (a : GlobalAddress)
  | writeItem (a : GlobalAddress) (item : KVItem Key Value)
  | allocNode
  | allocItem
  | freeItem (a : GlobalAddress)
  | enqueue (leaf : GlobalAddress)
  | dequeue
  | randFingerprint (old : Fingerprint)
  | randAddr (old : GlobalAddress)
  | threadHash

/-- A compare-and-swap replies with the value it found. -/
def Act.Reply {Key Value : Type} : Act Key Value → Type
  | .readRoot => GlobalAddress
  | .casRoot _ _ => GlobalAddress
  | .readNode _ => Node Key
  | .writeNode _ _ => Unit
  | .casLock _ _ _ => BitVec 64
  | .faaLock _ _ => Unit
  | .casBlock _ _ _ _ => KVBlock
  | .faaBlock _ _ _ => Unit
  | .readItem _ => KVItem Key Value
  | .readKey _ => Key
  | .writeItem _ _ => Unit
  | .allocNode => GlobalAddress
  | .allocItem => GlobalAddress
  | .freeItem _ => Unit
  | .enqueue _ => Unit
  | .dequeue => GlobalAddress
  | .randFingerprint _ => Fingerprint
  | .randAddr _ => GlobalAddress
  | .threadHash => BitVec 64

structure Op (Key Value : Type) where
  site : Site
  act : Act Key Value

def signature (Key Value : Type) : Signature where
  Op := Op Key Value
  Reply o := o.act.Reply

/-- A worker thread of a compute server; the workers of one server share its allocator. -/
structure Thread where
  server : ℕ
  worker : ℕ
  deriving DecidableEq

structure Memory (Key Value : Type) where
  rootOffset : GlobalAddress
  nodes : GlobalAddress → Option (Node Key)
  items : GlobalAddress → KVItem Key Value
  /-- Node addresses handed out so far; nodes are never freed. -/
  nodesIssued : List GlobalAddress
  /-- Item addresses that have left the backing allocator. -/
  itemsIssued : List GlobalAddress
  /-- The free list of each compute server's allocator. -/
  freeItems : ℕ → List GlobalAddress
  queue : List GlobalAddress

namespace Memory
variable {Key Value : Type}

def setNode (m : Memory Key Value) (a : GlobalAddress) (n : Node Key) : Memory Key Value :=
  { m with nodes := Function.update m.nodes a (some n) }

def setItem (m : Memory Key Value) (a : GlobalAddress) (item : KVItem Key Value) : Memory Key Value :=
  { m with items := Function.update m.items a item }

/-- An address from the server's free list, or one that was never handed out. -/
def allocItem (m : Memory Key Value) (server : ℕ) (a : GlobalAddress) : Option (Memory Key Value) :=
  if a ∈ m.freeItems server then
    some { m with freeItems := Function.update m.freeItems server ((m.freeItems server).erase a) }
  else if a ∈ m.itemsIssued then none
  else some { m with itemsIssued := a :: m.itemsIssued }

theorem allocItem_frame {m m' : Memory Key Value} {server : ℕ} {a : GlobalAddress}
    (allocated : m.allocItem server a = some m') :
    m'.nodes = m.nodes ∧ m'.nodesIssued = m.nodesIssued ∧ m'.rootOffset = m.rootOffset ∧ m'.queue = m.queue := by
  unfold allocItem at allocated
  split at allocated
  · cases allocated
    exact ⟨rfl, rfl, rfl, rfl⟩
  · split at allocated
    · cases allocated
    · cases allocated
      exact ⟨rfl, rfl, rfl, rfl⟩

def freeItem (m : Memory Key Value) (server : ℕ) (a : GlobalAddress) : Memory Key Value :=
  { m with freeItems := Function.update m.freeItems server (a :: m.freeItems server) }

/-- One operation. `usable` are the item addresses the memory servers provide. -/
def exec (usable : GlobalAddress → Bool) : Exec (signature Key Value) Thread (BitVec 64) (Memory Key Value) :=
  fun t o c m =>
    match o with
    | ⟨_, .readRoot⟩ => some (m.rootOffset, m)
    | ⟨_, .casRoot expected desired⟩ =>
      if m.rootOffset = expected then some (m.rootOffset, { m with rootOffset := desired })
      else some (m.rootOffset, m)
    | ⟨_, .readNode a⟩ =>
      match m.nodes a with
      | some n => some (n, m)
      | none => none
    | ⟨_, .writeNode a n⟩ => some ((), m.setNode a n)
    | ⟨_, .casLock a expected desired⟩ =>
      match m.nodes a with
      | some n =>
        if n.header.lock = expected then some (n.header.lock, m.setNode a (n.setLock desired))
        else some (n.header.lock, m)
      | none => none
    | ⟨_, .faaLock a increment⟩ =>
      match m.nodes a with
      | some n => some ((), m.setNode a (n.setLock (n.header.lock + increment)))
      | none => none
    | ⟨_, .casBlock a i expected desired⟩ =>
      match m.nodes a with
      | some (.leaf n) =>
        if n.kvBlocks i = expected then some (n.kvBlocks i, m.setNode a (.leaf (n.setBlock i desired)))
        else some (n.kvBlocks i, m)
      | _ => none
    | ⟨_, .faaBlock a i increment⟩ =>
      match m.nodes a with
      | some (.leaf n) => some ((), m.setNode a (.leaf (n.setBlock i ((n.kvBlocks i).add increment))))
      | _ => none
    | ⟨_, .readItem a⟩ => some (m.items a, m)
    | ⟨_, .readKey a⟩ => some ((m.items a).key, m)
    | ⟨_, .writeItem a item⟩ => some ((), m.setItem a item)
    | ⟨_, .allocNode⟩ =>
      if .ofAddress c ∈ m.nodesIssued then none
      else some (.ofAddress c, { m with nodesIssued := .ofAddress c :: m.nodesIssued })
    | ⟨_, .allocItem⟩ =>
      if usable (.ofAddress c) then
        match m.allocItem t.server (.ofAddress c) with
        | some m' => some (.ofAddress c, m')
        | none => none
      else none
    | ⟨_, .freeItem a⟩ => some ((), m.freeItem t.server a)
    | ⟨_, .enqueue leaf⟩ => some ((), { m with queue := leaf :: m.queue })
    | ⟨_, .dequeue⟩ =>
      if .ofAddress c ∈ m.queue then
        some (.ofAddress c, { m with queue := m.queue.erase (.ofAddress c) })
      else none
    | ⟨_, .randFingerprint old⟩ =>
      -- the reply is the draw that ends the do-while loop
      if Fingerprint.ofBits ((c &&& 0x0FFF#64).setWidth 16) = old then none
      else some (.ofBits ((c &&& 0x0FFF#64).setWidth 16), m)
    | ⟨_, .randAddr old⟩ =>
      if GlobalAddress.ofAddress (c &&& 0x0003FFFFFFFFFF#64) = old then none
      else some (.ofAddress (c &&& 0x0003FFFFFFFFFF#64), m)
    | ⟨_, .threadHash⟩ => some (c, m)

end Memory

end Faunus
