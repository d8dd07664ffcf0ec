import Faunus.Rdma.Allocator
import Mathlib.Order.Defs.LinearOrder

/-! The range cache of a compute server.

Entries live in chunks of one slab. Readers find them through a skiplist, eviction
and invalidation unlink and retire them, and a reclaimer gives retired chunks back
to the slab once the epochs that the threads have published allow it.

The skiplist and the queues are sets with atomic operations: erasing succeeds once
for each insertion, and a dequeue delivers any element that is queued or misses them. Registered
records never leave the registry and never change their successor, so the head of
the registry stands for the records behind it. Epochs are natural numbers: their 64 bits do not overflow.
-/

set_option autoImplicit false

namespace Faunus.Cache

open Interleaving

structure RetiredItem where
  offset : ℕ
  retireEpoch : ℕ
  deriving DecidableEq

structure Entry (Key Addr Node : Type) where
  start : Key
  stop : Key
  first : Addr
  second : Node

inductive Act (Key Addr Node : Type) where
  | threadRecord
  | loadHead
  | casHead (expected : List ℕ)
  | loadEpoch
  | bumpEpoch
  | storeRecord (epoch : ℕ)
  | loadRecord (t : ℕ)
  | find (key : Key)
  | insert (chunk : ℕ)
  | erase (chunk : ℕ)
  | sampleVictim
  | readStart (chunk : ℕ)
  | readStop (chunk : ℕ)
  | readFirst (chunk : ℕ)
  | readSecond (chunk : ℕ)
  | writeRange (chunk : ℕ) (start stop : Key)
  | writeItem (chunk : ℕ) (first : Addr) (second : Node)
  | touch (chunk : ℕ)
  | readAccess (chunk : ℕ)
  | allocateNogrowth
  | freeCount
  | free (item : RetiredItem)
  | retire (item : RetiredItem)
  | tryDequeue
  | reenqueue (item : RetiredItem)

/-- A failed exchange of the registry's head replies with the head it found. -/
def Act.Reply {Key Addr Node : Type} : Act Key Addr Node → Type
  | .threadRecord => Bool
  | .loadHead => List ℕ
  | .casHead _ => Option (List ℕ)
  | .loadEpoch => ℕ
  | .loadRecord _ => ℕ
  | .find _ => Option ℕ
  | .erase _ => Bool
  | .sampleVictim => Option ℕ
  | .readStart _ => Key
  | .readStop _ => Key
  | .readFirst _ => Addr
  | .readSecond _ => Node
  | .readAccess _ => ℕ
  | .allocateNogrowth => Option ℕ
  | .freeCount => ℕ
  | .tryDequeue => Option RetiredItem
  | _ => Unit

def signature (Key Addr Node : Type) : Signature := ⟨Act Key Addr Node, Act.Reply⟩

abbrev Code (Key Addr Node A : Type) := Program (signature Key Addr Node) A

structure Shared (Key Addr Node : Type) where
  globalEpoch : ℕ
  /-- The threads whose records are registered, newest first. -/
  registry : List ℕ
  epochs : ℕ → ℕ
  linked : List ℕ
  entries : ℕ → Entry Key Addr Node
  lastAccess : ℕ → ℕ
  freeList : List ℕ
  retired : List RetiredItem

/-! ## The source's functions -/

section
variable {Key Addr Node : Type}

def perform (o : Act Key Addr Node) : Code Key Addr Node o.Reply := Program.perform (I := signature Key Addr Node) o .value

/-- Link the new record in front of the head; the exchange may fail and is tried again. -/
def pushRecord : ℕ → List ℕ → Code Key Addr Node Unit
  | 0, _ => .stuck
  | bound + 1, old => do
    match ← perform (.casHead old) with
    | none => pure ()
    | some head => pushRecord bound head

def ensureThreadRecord (bound : ℕ) : Code Key Addr Node Unit := do
  match ← perform .threadRecord with
  | true => pure ()
  | false =>
    let old ← perform .loadHead
    pushRecord bound old

def openGuard (bound : ℕ) : Code Key Addr Node Unit := do
  ensureThreadRecord bound
  let e ← perform .loadEpoch
  perform (.storeRecord e)

def closeGuard : Code Key Addr Node Unit := perform (.storeRecord 0)

def allocEntry (start stop : Key) (first : Addr) (second : Node) : Code Key Addr Node (Option ℕ) := do
  match ← perform .allocateNogrowth with
  | none => pure none
  | some e =>
    perform (.writeRange e start stop)
    perform (.writeItem e first second)
    pure (some e)

def retireEntry (chunk : ℕ) : Code Key Addr Node Unit := do
  let e ← perform .loadEpoch
  perform (.retire ⟨chunk, e⟩)

/-- The first loop of `try_reclaim_budgeted`. -/
def takeBatch : ℕ → List RetiredItem → Code Key Addr Node (List RetiredItem)
  | 0, batch => pure batch
  | budget + 1, batch => do
    match ← perform .tryDequeue with
    | none => pure batch
    | some ri => takeBatch budget (batch ++ [ri])

/-- The smallest epoch other than zero so far; none stands for the largest 64-bit number. -/
def scanRecords : List ℕ → Option ℕ → Code Key Addr Node (Option ℕ)
  | [], least => pure least
  | t :: rest, least => do
    let e : ℕ ← perform (.loadRecord t)
    scanRecords rest (if e ≠ 0 ∧ ∀ m ∈ least, e < m then some e else least)

def scanMinEpoch : Code Key Addr Node ℕ := do
  let head ← perform .loadHead
  match ← scanRecords head none with
  | some e => pure e
  | none => perform .loadEpoch

def sweep (minEpoch : ℕ) : List RetiredItem → List RetiredItem → Code Key Addr Node (List RetiredItem)
  | [], kept => pure kept
  | r :: rest, kept => do
    if r.retireEpoch < minEpoch then
      perform (.free r)
      sweep minEpoch rest kept
    else sweep minEpoch rest (kept ++ [r])

def reenqueueAll : List RetiredItem → Code Key Addr Node Unit
  | [] => pure ()
  | r :: rest => do
    perform (.reenqueue r)
    reenqueueAll rest

def tryReclaimBudgeted (budget : ℕ) : Code Key Addr Node Unit := do
  let batch ← takeBatch budget []
  if batch.isEmpty then pure ()
  else
    let minEpoch ← scanMinEpoch
    let kept ← sweep minEpoch batch []
    reenqueueAll kept
    if kept.isEmpty then pure () else perform .bumpEpoch

def eraseAndRetire (chunk : ℕ) : Code Key Addr Node Unit := do
  match ← perform (.erase chunk) with
  | false => pure ()
  | true => retireEntry chunk

def evictPowerOfTwo : Code Key Addr Node Unit := do
  let count : ℕ ← perform .freeCount
  if count > 0 then pure ()
  else
    match ← perform .sampleVictim with
    | none => pure ()
    | some v1 =>
      match ← perform .sampleVictim with
      | none => pure ()
      | some v2 =>
        let a1 : ℕ ← perform (.readAccess v1)
        let a2 : ℕ ← perform (.readAccess v2)
        eraseAndRetire (if a1 < a2 then v1 else v2)

def addAttempts (start stop : Key) (first : Addr) (second : Node) : ℕ → Code Key Addr Node Unit
  | 0 => pure ()
  | attempts + 1 => do
    match ← allocEntry start stop first second with
    | some e => perform (.insert e)
    | none =>
      tryReclaimBudgeted 64
      evictPowerOfTwo
      addAttempts start stop first second attempts

def add (bound : ℕ) (start stop : Key) (first : Addr) (second : Node) : Code Key Addr Node Unit := do
  openGuard bound
  addAttempts start stop first second 3
  closeGuard

def invalidate (bound : ℕ) (e : ℕ) : Code Key Addr Node Unit := do
  openGuard bound
  eraseAndRetire e
  closeGuard

end

/-! ## Threads over one cache -/

inductive Call (Key Addr Node : Type) where
  | search (key : Key)
  | findNode (key : Key)
  | add (start stop : Key) (first : Addr) (second : Node)
  | invalidate (e : ℕ)

inductive Event (Key Addr Node : Type) where
  | invoked (t : ℕ) (call : Call Key Addr Node)
  | performed (t : ℕ) (o : Act Key Addr Node) (r : o.Reply)
  | returned (t : ℕ)

structure State (Key Addr Node : Type) where
  cache : Shared Key Addr Node
  history : List (Event Key Addr Node)

inductive Outcome (Addr Node : Type) where
  | done
  | entry (e : Option ℕ)
  | miss
  | hit (first : Addr) (second : Node)
  | assertFailed
  deriving DecidableEq

section
variable {Key Addr Node : Type}

/-- Both indexes add a node with the range of its own fence. -/
def Call.fenced [DecidableEq Key] (fence : Node → Key × Key) : Call Key Addr Node → Bool
  | .add start stop _ second => decide (fence second = (start, stop))
  | _ => true

/-- A new cache: its slab holds `maxEntries` chunks of one block of memory. -/
def State.init (entrySize base maxEntries : ℕ) (entries : ℕ → Entry Key Addr Node) : State Key Addr Node where
  cache :=
    { globalEpoch := 1
      registry := []
      epochs := fun _ => 0
      linked := []
      entries := entries
      lastAccess := fun _ => 0
      freeList := Allocation.getOffsetsFromChunk entrySize base (maxEntries * entrySize)
      retired := [] }
  history := []

variable [LinearOrder Key]

def search (bound : ℕ) (key : Key) : Code Key Addr Node (Option ℕ) := do
  openGuard bound
  match ← perform (.find key) with
  | none =>
    closeGuard
    pure none
  | some e =>
    let start : Key ← perform (.readStart e)
    let stop : Key ← perform (.readStop e)
    if start ≤ key ∧ key < stop then
      perform (.touch e)
      closeGuard
      pure (some e)
    else
      closeGuard
      pure none

/-- The cache lookup of `find_node`: the item is copied out after `search` has left its guard. -/
def findNode (fence : Node → Key × Key) (bound : ℕ) (key : Key) : Code Key Addr Node (Outcome Addr Node) := do
  match ← search bound key with
  | none => pure .miss
  | some e =>
    let node ← perform (.readSecond e)
    let address ← perform (.readFirst e)
    if (fence node).1 ≤ key ∧ key < (fence node).2 then pure (.hit address node) else pure .assertFailed

/-- The linked entries that begin at or before a key. -/
def Shared.below (s : Shared Key Addr Node) (key : Key) : List ℕ :=
  s.linked.filter fun chunk => decide ((s.entries chunk).start ≤ key)

/-- The choice picks an element of a queue or misses it, a victim, a timestamp, or a spurious failure. -/
def Shared.exec : Exec (signature Key Addr Node) ℕ ℕ (Shared Key Addr Node) := fun t o c s =>
  match o with
  | .threadRecord => some (decide (t ∈ s.registry), s)
  | .loadHead => some (s.registry, s)
  | .casHead expected =>
    if s.registry = expected ∧ c = 0 then
      some (none, { s with registry := t :: s.registry, epochs := Function.update s.epochs t 0 })
    else some (some s.registry, s)
  | .loadEpoch => some (s.globalEpoch, s)
  | .bumpEpoch => some ((), { s with globalEpoch := s.globalEpoch + 1 })
  | .storeRecord epoch => some ((), { s with epochs := Function.update s.epochs t epoch })
  | .loadRecord u => some (s.epochs u, s)
  | .find key =>
    if (s.below key).isEmpty then some (none, s)
    else
      match (s.below key)[c]? with
      | none => none
      | some chunk =>
        if (s.below key).all fun other => decide ((s.entries other).start ≤ (s.entries chunk).start) then
          some (some chunk, s)
        else none
  | .insert chunk => some ((), { s with linked := chunk :: s.linked })
  | .erase chunk =>
    if chunk ∈ s.linked then some (true, { s with linked := s.linked.erase chunk }) else some (false, s)
  | .sampleVictim =>
    match c with
    | 0 => some (none, s)
    | i + 1 =>
      match s.linked[i]? with
      | none => none
      | some chunk => some (some chunk, s)
  | .readStart chunk => some ((s.entries chunk).start, s)
  | .readStop chunk => some ((s.entries chunk).stop, s)
  | .readFirst chunk => some ((s.entries chunk).first, s)
  | .readSecond chunk => some ((s.entries chunk).second, s)
  | .writeRange chunk start stop =>
    some ((), { s with
      entries := Function.update s.entries chunk { s.entries chunk with start := start, stop := stop } })
  | .writeItem chunk first second =>
    some ((), { s with
      entries := Function.update s.entries chunk { s.entries chunk with first := first, second := second } })
  | .touch chunk => some ((), { s with lastAccess := Function.update s.lastAccess chunk c })
  | .readAccess chunk => some (s.lastAccess chunk, s)
  | .allocateNogrowth =>
    match s.freeList[c]? with
    | none => some (none, s)
    | some chunk => some (some chunk, { s with freeList := s.freeList.erase chunk })
  | .freeCount => some (c, s)
  | .free item => some ((), { s with freeList := item.offset :: s.freeList })
  | .retire item => some ((), { s with retired := item :: s.retired })
  | .tryDequeue =>
    match s.retired[c]? with
    | none => some (none, s)
    | some item => some (some item, { s with retired := s.retired.erase item })
  | .reenqueue item => some ((), { s with retired := item :: s.retired })

def State.exec : Exec (signature Key Addr Node) ℕ ℕ (State Key Addr Node) := fun t o c s =>
  match Shared.exec t o c s.cache with
  | some (r, cache) => some (r, ⟨cache, .performed t o r :: s.history⟩)
  | none => none

def Call.body (fence : Node → Key × Key) (bound : ℕ) : Call Key Addr Node → Code Key Addr Node (Outcome Addr Node)
  | .search key => do
    let e ← Cache.search bound key
    pure (.entry e)
  | .findNode key => Cache.findNode fence bound key
  | .add start stop first second => do
    Cache.add bound start stop first second
    pure .done
  | .invalidate e => do
    Cache.invalidate bound e
    pure .done

/-- Threads that make the admitted calls on one cache. -/
def rangeCache (fence : Node → Key × Key) (bound : ℕ) (admits : Call Key Addr Node → Prop) :
    System (signature Key Addr Node) ℕ ℕ (Call Key Addr Node) (Outcome Addr Node) (State Key Addr Node) where
  exec := State.exec
  body := Call.body fence bound
  admits _ _ call := admits call
  env _ _ := False
  invoked t call s := { s with history := .invoked t call :: s.history }
  returned t _ _ s := { s with history := .returned t :: s.history }

end

end Faunus.Cache
