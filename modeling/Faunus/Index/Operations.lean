import Faunus.Data.OrderedMap
import Faunus.Rdma.Memory

/-! The operations of `FaunusIndex`, without a cache.

Each function follows its source line by line, with RDMA verbs as operations. A
failed `assert` and an attempt loop that ends in `assert(false)` are `stuck`.
`loopBound` bounds the loops and the recursion that the source leaves unbounded.
-/

set_option autoImplicit false

namespace Faunus

open Interleaving

structure Config where
  branchFactor : ℕ
  /-- `static_cast<size_t>(branch_factor * FAUNUS_SPLIT_WATERMARK)`. -/
  splitThreshold : ℕ
  /-- Built with `FAUNUS_MAINTENANCE_ENABLED`. -/
  maintenance : Bool
  maxAttempts : ℕ
  loopBound : ℕ
  /-- The item addresses the memory servers provide. -/
  usable : GlobalAddress → Bool
  /-- What `op.op.cas.expected` holds in `try_delete_kvblock`: the machine address of a local block. -/
  expectedPointer : BitVec 64

abbrev Index (Key Value A : Type) := Program (signature Key Value) A

section Verbs
variable {Key Value : Type} (site : Site)

def readRoot : Index Key Value GlobalAddress := .perform ⟨site, .readRoot⟩ .value

def casRoot (expected desired : GlobalAddress) : Index Key Value GlobalAddress :=
  .perform ⟨site, .casRoot expected desired⟩ .value

def readNode (a : GlobalAddress) : Index Key Value (Node Key) := .perform ⟨site, .readNode a⟩ .value

def writeNode (a : GlobalAddress) (n : Node Key) : Index Key Value Unit := .perform ⟨site, .writeNode a n⟩ .value

def casLock (a : GlobalAddress) (expected desired : BitVec 64) : Index Key Value (BitVec 64) :=
  .perform ⟨site, .casLock a expected desired⟩ .value

def faaLock (a : GlobalAddress) (increment : BitVec 64) : Index Key Value Unit :=
  .perform ⟨site, .faaLock a increment⟩ .value

def casBlock (a : GlobalAddress) (i : ℕ) (expected desired : KVBlock) : Index Key Value KVBlock :=
  .perform ⟨site, .casBlock a i expected desired⟩ .value

def faaBlock (a : GlobalAddress) (i : ℕ) (increment : BitVec 64) : Index Key Value Unit :=
  .perform ⟨site, .faaBlock a i increment⟩ .value

def readItem (a : GlobalAddress) : Index Key Value (KVItem Key Value) := .perform ⟨site, .readItem a⟩ .value

def readKey (a : GlobalAddress) : Index Key Value Key := .perform ⟨site, .readKey a⟩ .value

def writeItem (a : GlobalAddress) (item : KVItem Key Value) : Index Key Value Unit :=
  .perform ⟨site, .writeItem a item⟩ .value

def allocNode : Index Key Value GlobalAddress := .perform ⟨site, .allocNode⟩ .value

def allocItem : Index Key Value GlobalAddress := .perform ⟨site, .allocItem⟩ .value

def freeItem (a : GlobalAddress) : Index Key Value Unit := .perform ⟨site, .freeItem a⟩ .value

def enqueue (leaf : GlobalAddress) : Index Key Value Unit := .perform ⟨site, .enqueue leaf⟩ .value

def dequeue : Index Key Value GlobalAddress := .perform ⟨site, .dequeue⟩ .value

def threadHash : Index Key Value (BitVec 64) := .perform ⟨site, .threadHash⟩ .value

def setDifferentRandomFpAddr (b : KVBlock) : Index Key Value KVBlock :=
  .perform ⟨site, .randFingerprint b.getFingerprint⟩ fun fp =>
    .perform ⟨site, .randAddr (b.setFingerprint fp).getAddr⟩ fun addr =>
      .value ((b.setFingerprint fp).setAddr addr)

end Verbs

inductive FindNodeResult where
  | found
  | locked
  | noSuchLevel
  | unknown
  deriving DecidableEq

section Operations
variable {Key Value : Type} [LinearOrder Key] [BoundedOrder Key] [KeyBytes Key] (cfg : Config)

/-! ## Descending -/

def findNodeLoop (key : Key) (level : ℕ) (fromSmo : Bool) :
    ℕ → GlobalAddress → Bool → Index Key Value (FindNodeResult × GlobalAddress)
  | 0, nodeAddress, _ => pure (.unknown, nodeAddress)
  | bound + 1, nodeAddress, inRoot => do
    let node ← readNode (.findNode level fromSmo) nodeAddress
    if node.header.lock ≠ 0 ∧ (fromSmo = false ∨ level < node.header.level) then
      pure (.locked, nodeAddress)
    else if node.header.level = level then
      pure (.found, nodeAddress)
    else if node.header.level < level then
      if inRoot then pure (.noSuchLevel, nodeAddress) else .stuck
    else
      let nextAddress := node.asInternal.nextAddress key
      if nextAddress = nodeAddress then .stuck
      else if node.header.level = level + 1 then pure (.found, nextAddress)
      else findNodeLoop key level fromSmo bound nextAddress false

def findNode (key : Key) (level : ℕ) (fromSmo : Bool) : Index Key Value (FindNodeResult × GlobalAddress) := do
  let root ← readRoot (.findNode level fromSmo)
  findNodeLoop key level fromSmo cfg.loopBound root true

/-! ## Slots of a leaf -/

/-- The slot, the key stored there and, for readers, its value. -/
abbrev Candidate (Key Value : Type) := ℕ × Key × Option Value

def readCandidates (fromRead : Bool) : List (ℕ × GlobalAddress) → Index Key Value (List (Candidate Key Value))
  | [] => pure []
  | (i, addr) :: rest => do
    let kv ← if fromRead then do
        let item ← readItem .getCandidateKvs addr
        pure (item.key, some item.value)
      else do
        -- only the key, which stands at the start of a KVItem
        let key ← readKey .getCandidateKvs addr
        pure (key, none)
    let others ← readCandidates fromRead rest
    pure ((i, kv) :: others)

/-- The candidates, and whether the leaf was usable at all. -/
def getCandidateKvs (leaf : LeafNode Key) (fp : Fingerprint) (fromInsert fromRead : Bool) :
    Index Key Value (Bool × List (Candidate Key Value)) :=
  let (entries, foundSmo) := getFingerprintCollisions cfg.branchFactor leaf fp
  if foundSmo ∧ fromRead = false then pure (false, [])
  else if fromInsert ∧ entries.length = 1 then pure (true, [])
  else do
    let candidates ← readCandidates fromRead entries
    pure (true, candidates)

/-- Retry while only the address of the block changes. -/
def tryUpdateLoop (leafAddress : GlobalAddress) (i : ℕ) (new : KVBlock) :
    ℕ → KVBlock → KVBlock → Index Key Value Bool
  | 0, _, _ => .stuck
  | bound + 1, expected, tmp =>
    if tmp.getFingerprint = expected.getFingerprint ∧ tmp.isFree = false ∧ tmp.isLocked = false then do
      let found ← casBlock .tryUpdateKvblock leafAddress i tmp new
      if found = tmp then do
        freeItem .tryUpdateKvblock tmp.getAddr
        pure true
      else tryUpdateLoop leafAddress i new bound tmp found
    else pure false

def tryUpdateKvblock (leafAddress : GlobalAddress) (i : ℕ) (expected new : KVBlock) : Index Key Value Bool :=
  tryUpdateLoop leafAddress i new cfg.loopBound expected expected

/-- The block that takes the place of a deleted one. -/
def deletedBlock (expected random : KVBlock) : KVBlock := (random.setLocked expected.isLocked).setFree true

def tryDeleteKvblock (leafAddress : GlobalAddress) (i : ℕ) (expected : KVBlock) : Index Key Value Bool := do
  let random ← setDifferentRandomFpAddr .tryDeleteKvblock ⟨0⟩
  let _ ← casBlock .tryDeleteKvblock leafAddress i expected (deletedBlock expected random)
  -- the source compares the old word with `op.op.cas.expected`, a pointer
  if expected.raw = cfg.expectedPointer then do
    freeItem .tryDeleteKvblock expected.getAddr
    pure true
  else pure false

/-- Keep the first candidate with the key and delete the others; the reply is its value. -/
def removeDupes (key : Key) (leafAddress : GlobalAddress) (leaf : LeafNode Key) :
    List (Candidate Key Value) → Option (Option Value) → Index Key Value (Option (Option Value))
  | [], found => pure found
  | (i, k, v) :: rest, found =>
    if k = key then
      match found with
      | none => removeDupes key leafAddress leaf rest (some v)
      | some _ => do
        let _ ← tryDeleteKvblock cfg leafAddress i (leaf.kvBlocks i)
        removeDupes key leafAddress leaf rest found
    else removeDupes key leafAddress leaf rest found

/-- Whether the leaf was usable, and the value found. No caller sets `from_update`. -/
def handleLocalRemoveDupes (key : Key) (leafAddress : GlobalAddress) (leaf : LeafNode Key)
    (fromInsert fromRead : Bool) : Index Key Value (Bool × Option (Option Value)) :=
  if ¬ leaf.header.covers key then pure (false, none)
  else if leaf.header.lock ≠ 0 ∧ fromRead = false then pure (false, none)
  else do
    let (success, candidates) ← getCandidateKvs cfg leaf (.ofKey key) fromInsert fromRead
    if candidates.isEmpty then pure (success, none)
    else do
      let found ← removeDupes cfg key leafAddress leaf candidates none
      pure (true, found)

/-! ## Splitting -/

def setupNewRoot (key : Key) (rightChild : GlobalAddress) (level : ℕ) : Index Key Value Bool := do
  let newRootAddress ← allocNode .setupNewRoot
  let oldRoot ← readRoot .setupNewRoot
  let newRoot : InternalNode Key :=
    { header := { Header.zero (⊥, ⊤) with level, lastIndex := 1 }
      entries := setChild (setChild (setKey (fun _ => .zero) 0 key) 0 oldRoot) 1 rightChild }
  writeNode .setupNewRoot newRootAddress (.internal newRoot)
  -- update_root_offset
  let expected ← readRoot .setupNewRoot
  let found ← casRoot .setupNewRoot expected newRootAddress
  if found = expected then pure true else .stuck

section
-- the recursive call of `insert_internal_entry` one level up
variable (insertAbove : Key → GlobalAddress → ℕ → Index Key Value Bool)

def splitInternalNode (nodeAddress : GlobalAddress) (node : InternalNode Key) (key : Key)
    (newChild : GlobalAddress) : Index Key Value Unit :=
  if node.header.lastIndex + 2 ≠ cfg.branchFactor + 1 ∨ cfg.branchFactor - 1 ≤ splitMiddle cfg.branchFactor then .stuck
  else do
    let newNodeAddress ← allocNode .splitInternalNode
    writeNode .splitInternalNode newNodeAddress (.internal (node.splitRight cfg.branchFactor key newChild))
    writeNode .splitInternalNode nodeAddress (.internal (node.splitLeft cfg.branchFactor key newChild))
    let success ← insertAbove (node.middleKey cfg.branchFactor key newChild) newNodeAddress (node.header.level + 1)
    if success then pure () else .stuck

def insertInternalEntryLoop (key : Key) (newChild : GlobalAddress) (level : ℕ) : ℕ → Index Key Value Bool
  | 0 => pure false
  | attempts + 1 => do
    let (result, nodeAddress) ← findNode cfg key level true
    match result with
    | .unknown => .stuck
    | .noSuchLevel => setupNewRoot key newChild level
    | .locked => insertInternalEntryLoop key newChild level attempts
    | .found => do
      let expected ← casLock (.insertInternalEntry level) nodeAddress 0 1
      let node ← readNode (.insertInternalEntry level) nodeAddress
      if expected ≠ 0 then insertInternalEntryLoop key newChild level attempts
      else if node.header.level ≠ level then .stuck
      else if ¬ node.header.covers key then do
        faaLock (.insertInternalEntry level) nodeAddress (-1)
        insertInternalEntryLoop key newChild level attempts
      else
        let inode := node.asInternal
        if (List.range (inode.header.lastIndex + 1)).any (fun i => decide ((inode.entries i).key = key)) then do
          faaLock (.insertInternalEntry level) nodeAddress (-1)
          pure true
        else if cfg.branchFactor ≤ inode.header.lastIndex + 1 then do
          splitInternalNode cfg insertAbove nodeAddress inode key newChild
          faaLock (.insertInternalEntry level) nodeAddress (-1)
          pure true
        else do
          writeNode (.insertInternalEntry level) nodeAddress (.internal (inode.withSeparator key newChild))
          faaLock (.insertInternalEntry level) nodeAddress (-1)
          pure true

end

/-- The recursion climbs one level at a time; `depth` bounds it. -/
def insertInternalEntry : ℕ → Key → GlobalAddress → ℕ → Index Key Value Bool
  | 0 => fun _ _ _ => .stuck
  | depth + 1 => fun key newChild level =>
    insertInternalEntryLoop cfg (insertInternalEntry depth) key newChild level cfg.maxAttempts

def lockUnlockKvblocks (leafAddress : GlobalAddress) (toLock : Bool) : List ℕ → Index Key Value Unit
  | [] => pure ()
  | i :: rest => do
    faaBlock (.splitLeaf leafAddress) leafAddress i (if toLock then 1 else -1)
    lockUnlockKvblocks leafAddress toLock rest

/-- The keys of the taken slots, each with its block. -/
def readLeafKeys (leafAddress : GlobalAddress) (leaf : LeafNode Key) : List ℕ → Index Key Value (List (Key × KVBlock))
  | [] => pure []
  | i :: rest => do
    let key ← readKey (.splitLeaf leafAddress) (leaf.kvBlocks i).getAddr
    let others ← readLeafKeys leafAddress leaf rest
    pure ((key, leaf.kvBlocks i) :: others)

/-- A slot left over by a split: random, unlocked and free. -/
def clearedBlock (random : KVBlock) : KVBlock := (random.setLocked false).setFree true

/-- Clear the slots of both leaves from `middle` on; an odd count spares slot `middle` of the new leaf. -/
def clearSlots (leafAddress : GlobalAddress) (odd : Bool) (middle : ℕ) :
    List ℕ → (ℕ → KVBlock) → (ℕ → KVBlock) → Index Key Value ((ℕ → KVBlock) × (ℕ → KVBlock))
  | [], left, right => pure (left, right)
  | i :: rest, left, right => do
    let random ← setDifferentRandomFpAddr (.splitLeaf leafAddress) (left i)
    let left := Function.update left i (clearedBlock random)
    if middle < i ∨ odd = false then do
      let random ← setDifferentRandomFpAddr (.splitLeaf leafAddress) (right i)
      clearSlots leafAddress odd middle rest left (Function.update right i (clearedBlock random))
    else clearSlots leafAddress odd middle rest left right

def distribute (leafAddress : GlobalAddress) (leaf : LeafNode Key) (entries : List (Key × KVBlock)) (middleKey : Key) :
    Index Key Value (LeafNode Key × LeafNode Key) := do
  let middle := entries.length / 2
  let (left, right) ← clearSlots leafAddress (entries.length % 2 ≠ 0) middle
    ((List.range cfg.branchFactor).drop middle) leaf.kvBlocks (fun _ => .empty)
  pure ({ header := { leaf.header with fence := (leaf.header.fence.1, middleKey) }
          kvBlocks := leftBlocks entries middle left },
        { header := .zero (middleKey, leaf.header.fence.2)
          kvBlocks := rightBlocks entries middle right })

def splitLeaf (leafAddress : GlobalAddress) : Index Key Value Bool := do
  let expected ← casLock (.splitLeaf leafAddress) leafAddress 0 1
  if expected ≠ 0 then pure false
  else do
    lockUnlockKvblocks leafAddress true (List.range cfg.branchFactor)
    let node ← readNode (.splitLeaf leafAddress) leafAddress
    let leaf := node.asLeaf
    if leaf.header.lock = 0 ∨ (List.range cfg.branchFactor).any (fun i => !(leaf.kvBlocks i).isLocked) then .stuck
    else do
      let keyed ← readLeafKeys leafAddress leaf (takenIndices cfg.branchFactor leaf)
      let entries := OrderedMap.ofList keyed
      if entries.length ≤ cfg.branchFactor / 2 then do
        lockUnlockKvblocks leafAddress false (List.range cfg.branchFactor)
        faaLock (.splitLeaf leafAddress) leafAddress (-1)
        pure false
      else do
        let newLeafAddress ← allocNode (.splitLeaf leafAddress)
        match entries[entries.length / 2]? with
        | none => .stuck
        | some (middleKey, _) => do
          let (left, right) ← distribute cfg leafAddress leaf entries middleKey
          writeNode (.splitLeaf leafAddress) newLeafAddress (.leaf right)
          writeNode (.splitLeaf leafAddress) leafAddress (.leaf left)
          let success ← insertInternalEntry cfg cfg.loopBound middleKey newLeafAddress 1
          if success then do
            faaLock (.splitLeaf leafAddress) leafAddress (-1)
            pure true
          else .stuck

/-! ## The interface -/

/-- The tree starts as one empty leaf. The maintenance queue starts empty. -/
def initializeIndex : Index Key Value Bool := do
  let rootOffset ← allocNode .initializeIndex
  writeNode .initializeIndex rootOffset (.leaf (.init (⊥, ⊤)))
  let expected ← readRoot .initializeIndex
  let found ← casRoot .initializeIndex expected rootOffset
  pure (found = expected)

structure Outcome (Value : Type) where
  ok : Bool
  value : Option Value

def readLoop (key : Key) : ℕ → Index Key Value (Outcome Value)
  | 0 => .stuck
  | attempts + 1 => do
    let (result, leafAddress) ← findNode cfg key 0 false
    match result with
    | .unknown => .stuck
    | .noSuchLevel => .stuck
    | .locked => readLoop key attempts
    | .found => do
      let leaf ← readNode .read leafAddress
      let (success, found) ← handleLocalRemoveDupes cfg key leafAddress leaf.asLeaf false true
      if success then pure ⟨found.isSome, found.join⟩ else readLoop key attempts

def read (key : Key) : Index Key Value (Outcome Value) := readLoop cfg key cfg.maxAttempts

/-- How one round of the loop of `insert` ends; a retry may keep the leaf just read. -/
inductive Attempt (Key : Type) where
  | done : Bool → Attempt Key
  | retry : Option (GlobalAddress × LeafNode Key) → Attempt Key

/-- After the slot was taken: split a full leaf, else remove duplicates. -/
def finishInsert (key : Key) (leafAddress : GlobalAddress) (leaf : LeafNode Key) : Index Key Value Bool :=
  if cfg.splitThreshold < (takenIndices cfg.branchFactor leaf).length then
    if cfg.maintenance then do
      enqueue .insert leafAddress
      pure true
    else do
      let _ ← splitLeaf cfg leafAddress
      pure true
  else do
    let _ : Bool × Option (Option Value) ← handleLocalRemoveDupes cfg key leafAddress leaf true false
    pure true

/-- One round on a leaf that was unlocked and covered the key when it was read. -/
def insertAttempt (key : Key) (kvb : KVBlock) (attempt : ℕ) (leafAddress : GlobalAddress) (leaf : LeafNode Key) :
    Index Key Value (Attempt Key) := do
  let (success, candidates) ← (getCandidateKvs cfg leaf (.ofKey key) false false : Index Key Value _)
  if candidates.isEmpty ∧ success = false then pure (.retry none)
  else match candidates.find? (fun c => decide (c.2.1 = key)) with
  | some (i, _, _) => do
    let success ← tryUpdateKvblock cfg leafAddress i (leaf.kvBlocks i) kvb
    pure (.done success)
  | none => do
    let tidHash ← threadHash .insert
    match probe cfg.branchFactor leaf (mix64 (tidHash ^^^ BitVec.ofNat 64 attempt)) with
    | .locked => pure (.retry none)
    | .exhausted => pure (.retry none)
    | .free i => do
      let found ← casBlock .insert leafAddress i (leaf.kvBlocks i) kvb
      let node ← readNode .insert leafAddress
      let usable := node.header.lock = 0 ∧ node.header.covers key
      if found ≠ leaf.kvBlocks i then pure (.retry (if usable then some (leafAddress, node.asLeaf) else none))
      else if ¬ usable then pure (.done true)
      else do
        let ok ← finishInsert cfg key leafAddress node.asLeaf
        pure (.done ok)

/-- Find and read the leaf, writing the item on the way the first time. -/
def locateLeaf (key : Key) (item : KVItem Key Value) (itemAddress : GlobalAddress) (wrote : Bool) :
    Index Key Value (Bool × Option (GlobalAddress × LeafNode Key)) := do
  let (result, leafAddress) ← findNode cfg key 0 false
  match result with
  | .unknown => .stuck
  | .noSuchLevel => .stuck
  | .locked => pure (wrote, none)
  | .found => do
    let node ← readNode .insert leafAddress
    if wrote then pure () else writeItem .insert itemAddress item
    if node.header.level ≠ 0 then .stuck
    else if node.header.lock ≠ 0 ∨ ¬ node.header.covers key then pure (true, none)
    else pure (true, some (leafAddress, node.asLeaf))

def insertLoop (key : Key) (item : KVItem Key Value) (itemAddress : GlobalAddress) (kvb : KVBlock) :
    ℕ → ℕ → Bool → Option (GlobalAddress × LeafNode Key) → Index Key Value Bool
  | 0, _, _, _ => .stuck
  | attempts + 1, attempt, wrote, leafRead => do
    let (wrote, target) ← match leafRead with
      | some target => pure (wrote, some target)
      | none => locateLeaf cfg key item itemAddress wrote
    match target with
    | none => insertLoop key item itemAddress kvb attempts (attempt + 1) wrote none
    | some (leafAddress, leaf) => do
      let outcome ← (insertAttempt cfg key kvb attempt leafAddress leaf : Index Key Value _)
      match outcome with
      | .done ok => pure ok
      | .retry leafRead => insertLoop key item itemAddress kvb attempts (attempt + 1) wrote leafRead

def insert (key : Key) (value : Value) : Index Key Value Bool := do
  let itemAddress ← allocItem .insert
  insertLoop cfg key ⟨key, value⟩ itemAddress (.make (.ofKey key) itemAddress false false) cfg.maxAttempts 0 false none

inductive Call (Key Value : Type) where
  | insert : Key → Value → Call Key Value
  | read : Key → Call Key Value
  | split : GlobalAddress → Call Key Value
  | maintain : Call Key Value

def Call.body : Call Key Value → Index Key Value (Outcome Value)
  | .insert key value => do
    let ok ← Faunus.insert cfg key value
    pure ⟨ok, none⟩
  | .read key => Faunus.read cfg key
  | .split leaf => do
    let ok ← splitLeaf cfg leaf
    pure ⟨ok, none⟩
  | .maintain => do
    let leaf ← dequeue .maintenanceWorker
    let ok ← splitLeaf cfg leaf
    pure ⟨ok, none⟩

end Operations

end Faunus
