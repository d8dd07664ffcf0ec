import Faunus.Data.KVBlock
import Faunus.Interleaving.Pool

/-! The page locks of Sherman.

A page is locked in two steps: a ticket lock among the threads of a compute server,
then a lock word in disaggregated memory. A thread that leaves may hand the word over
to the next ticket. Each access to a lock node and each RDMA verb is one atomic operation.
The words of a lock node are natural numbers that wrap as in the source.
-/

set_option autoImplicit false

namespace Faunus.Sherman.Locks

open Interleaving

def kNumOfLock : ℕ := 256 * 1024 / 8

def kMaxHandOverTime : ℕ := 8

def kHandoverFlagSlots : ℕ := 1024

def getLockIndex (a : GlobalAddress) : ℕ := a.serverIndex.toNat * kNumOfLock + a.offset.toNat % kNumOfLock

structure LockNode where
  /-- 64 bits: the ticket being served above the next ticket. -/
  ticketLock : ℕ
  handoverCount : ℕ
  handoverFlags : ℕ → Bool
  /-- The address each ticket was drawn for; the source does not keep it. -/
  drawnFor : ℕ → Option GlobalAddress

def LockNode.serving (n : LockNode) : ℕ := n.ticketLock / 2 ^ 32

def LockNode.next (n : LockNode) : ℕ := n.ticketLock % 2 ^ 32

/-- `next_ticket - current_serving - 1` in 32 bits. -/
def waiters (lockVal : ℕ) : ℕ := (lockVal % 2 ^ 32 + 2 * 2 ^ 32 - lockVal / 2 ^ 32 - 1) % 2 ^ 32

/-- Who calls `release`; after a write, whether the remote word was kept. -/
inductive Caller where
  | unlockAddress
  | writePageAndUnlock (kept : Bool)
  deriving DecidableEq

inductive Site where
  | acquire
  | canHandOver
  | release (caller : Caller)
  | tryLockAddress
  | lockAndReadPage
  | writePageAndUnlock
  | unlockAddress
  deriving DecidableEq

/-- The address of a page stands for the lock node it is hashed to. -/
inductive Act where
  /-- `ticket_lock.fetch_add(1)`. -/
  | takeTicket (a : GlobalAddress)
  | loadTicket (a : GlobalAddress)
  /-- `ticket_lock.fetch_add(1ULL << 32)`. -/
  | advance (a : GlobalAddress)
  | loadFlag (a : GlobalAddress) (slot : ℕ)
  | storeFlag (a : GlobalAddress) (slot : ℕ) (flag : Bool)
  | loadCount (a : GlobalAddress)
  | addCount (a : GlobalAddress)
  | storeCount (a : GlobalAddress) (count : ℕ)
  | casWord (a : GlobalAddress) (tag : BitVec 64)
  | readWord (a : GlobalAddress)
  | writeWord (a : GlobalAddress) (word : BitVec 64)

def Act.Reply : Act → Type
  | .takeTicket _ => ℕ
  | .loadTicket _ => ℕ
  | .advance _ => Unit
  | .loadFlag _ _ => Bool
  | .storeFlag _ _ _ => Unit
  | .loadCount _ => ℕ
  | .addCount _ => Unit
  | .storeCount _ _ => Unit
  | .casWord _ _ => BitVec 64
  | .readWord _ => BitVec 64
  | .writeWord _ _ => Unit

structure Op where
  site : Site
  act : Act

def signature : Signature where
  Op := Op
  Reply o := o.act.Reply

structure State where
  nodes : ℕ → ℕ → LockNode
  words : GlobalAddress → BitVec 64
  /-- The compute server that set the word last, if it was not cleared since; the source does not keep it. -/
  setter : GlobalAddress → Option ℕ

structure Config where
  /-- Whether the index has a `LocalLockManager`. -/
  manager : Bool
  home : ℕ → ℕ
  tag : ℕ → BitVec 64
  maxRetries : ℕ
  loopBound : ℕ

def State.setNode (s : State) (server : ℕ) (a : GlobalAddress) (n : LockNode) : State :=
  { s with nodes := Function.update s.nodes server (Function.update (s.nodes server) (getLockIndex a) n) }

def State.setWord (s : State) (a : GlobalAddress) (word : BitVec 64) (server : ℕ) : State :=
  { s with
    words := Function.update s.words a word
    setter := Function.update s.setter a (if word = 0 then none else some server) }

def exec (cfg : Config) : Exec signature ℕ Unit State := fun t o _ s =>
  match o with
  | ⟨_, .takeTicket a⟩ =>
    let n := s.nodes (cfg.home t) (getLockIndex a)
    some (n.ticketLock, s.setNode (cfg.home t) a
      { n with
        ticketLock := (n.ticketLock + 1) % 2 ^ 64
        drawnFor := Function.update n.drawnFor n.next (some a) })
  | ⟨_, .loadTicket a⟩ => some ((s.nodes (cfg.home t) (getLockIndex a)).ticketLock, s)
  | ⟨_, .advance a⟩ =>
    let n := s.nodes (cfg.home t) (getLockIndex a)
    some ((), s.setNode (cfg.home t) a { n with ticketLock := (n.ticketLock + 2 ^ 32) % 2 ^ 64 })
  | ⟨_, .loadFlag a slot⟩ => some ((s.nodes (cfg.home t) (getLockIndex a)).handoverFlags slot, s)
  | ⟨_, .storeFlag a slot flag⟩ =>
    let n := s.nodes (cfg.home t) (getLockIndex a)
    some ((), s.setNode (cfg.home t) a { n with handoverFlags := Function.update n.handoverFlags slot flag })
  | ⟨_, .loadCount a⟩ => some ((s.nodes (cfg.home t) (getLockIndex a)).handoverCount, s)
  | ⟨_, .addCount a⟩ =>
    let n := s.nodes (cfg.home t) (getLockIndex a)
    some ((), s.setNode (cfg.home t) a { n with handoverCount := (n.handoverCount + 1) % 2 ^ 8 })
  | ⟨_, .storeCount a count⟩ =>
    let n := s.nodes (cfg.home t) (getLockIndex a)
    some ((), s.setNode (cfg.home t) a { n with handoverCount := count })
  | ⟨_, .casWord a tag⟩ =>
    if s.words a = 0 then some (s.words a, s.setWord a tag (cfg.home t)) else some (s.words a, s)
  | ⟨_, .readWord a⟩ => some (s.words a, s)
  | ⟨_, .writeWord a word⟩ => some ((), s.setWord a word (cfg.home t))

abbrev Lock (A : Type) := Program signature A

section Verbs
variable (site : Site) (a : GlobalAddress)

def takeTicket : Lock ℕ := .perform ⟨site, .takeTicket a⟩ .value

def loadTicket : Lock ℕ := .perform ⟨site, .loadTicket a⟩ .value

def advance : Lock Unit := .perform ⟨site, .advance a⟩ .value

def loadFlag (slot : ℕ) : Lock Bool := .perform ⟨site, .loadFlag a slot⟩ .value

def storeFlag (slot : ℕ) (flag : Bool) : Lock Unit := .perform ⟨site, .storeFlag a slot flag⟩ .value

def loadCount : Lock ℕ := .perform ⟨site, .loadCount a⟩ .value

def addCount : Lock Unit := .perform ⟨site, .addCount a⟩ .value

def storeCount (count : ℕ) : Lock Unit := .perform ⟨site, .storeCount a count⟩ .value

def casWord (tag : BitVec 64) : Lock (BitVec 64) := .perform ⟨site, .casWord a tag⟩ .value

def readWord : Lock (BitVec 64) := .perform ⟨site, .readWord a⟩ .value

def writeWord (word : BitVec 64) : Lock Unit := .perform ⟨site, .writeWord a word⟩ .value

end Verbs

section Operations
variable (cfg : Config)

/-! ## Lock nodes -/

/-- The wait for the own ticket, at most so many rounds. -/
def awaitTurn (a : GlobalAddress) (myTicket : ℕ) : ℕ → Lock Unit
  | 0 => .stuck
  | bound + 1 => do
    let lockVal ← loadTicket .acquire a
    if myTicket = lockVal / 2 ^ 32 then pure () else awaitTurn a myTicket bound

def acquire (a : GlobalAddress) : Lock Bool := do
  let lockVal ← takeTicket .acquire a
  let myTicket := lockVal % 2 ^ 32
  awaitTurn a myTicket cfg.loopBound
  let slot := myTicket % kHandoverFlagSlots
  let wasHandedOver ← loadFlag .acquire a slot
  storeFlag .acquire a slot false
  pure wasHandedOver

/-- `waiters > 0 && handover_count < kMaxHandOverTime`, which loads the count only if there are waiters. -/
def mayHandOver (site : Site) (a : GlobalAddress) (lockVal : ℕ) : Lock Bool :=
  if 0 < waiters lockVal then do
    let count ← loadCount site a
    pure (decide (count < kMaxHandOverTime))
  else pure false

def release (caller : Caller) (a : GlobalAddress) : Lock Bool := do
  let lockVal ← loadTicket (.release caller) a
  let handover ← mayHandOver (.release caller) a lockVal
  if handover then do
    storeFlag (.release caller) a ((lockVal / 2 ^ 32 + 1) % 2 ^ 32 % kHandoverFlagSlots) true
    addCount (.release caller) a
    advance (.release caller) a
    pure true
  else do
    storeCount (.release caller) a 0
    advance (.release caller) a
    pure false

def canHandOver (a : GlobalAddress) : Lock Bool := do
  let lockVal ← loadTicket .canHandOver a
  mayHandOver .canHandOver a lockVal

/-! ## Pages -/

/-- The upper half of a tag names the compute server. -/
def owner (word : BitVec 64) : BitVec 64 := word >>> 32

/-- The CAS loop of `try_lock_address`; too many retries on one value fail an assertion. -/
def lockWord (tag : BitVec 64) (a : GlobalAddress) : ℕ → ℕ → BitVec 64 → Lock Unit
  | 0, _, _ => .stuck
  | bound + 1, retries, preConflictTag => do
    let currentValue ← casWord .tryLockAddress a tag
    if currentValue = 0 then pure ()
    else if owner currentValue = owner tag then pure ()
    else if cfg.maxRetries < retries + 1 then .stuck
    else if currentValue ≠ preConflictTag then lockWord tag a bound 0 currentValue
    else lockWord tag a bound (retries + 1) preConflictTag

def acquireLocal (a : GlobalAddress) : Lock Bool := if cfg.manager then acquire cfg a else pure false

def releaseLocal (caller : Caller) (a : GlobalAddress) : Lock Bool := if cfg.manager then release caller a else pure false

def canHandOverLocal (a : GlobalAddress) : Lock Bool := if cfg.manager then canHandOver a else pure false

def tryLockAddress (tag : BitVec 64) (a : GlobalAddress) : Lock Unit := do
  let isHandover ← acquireLocal cfg a
  if isHandover then pure () else lockWord cfg tag a cfg.loopBound 0 0

def unlockAddress (a : GlobalAddress) : Lock Unit := do
  let handover ← releaseLocal cfg .unlockAddress a
  if handover then pure () else writeWord .unlockAddress a 0

/-- The reply is the lock word in the page as read. -/
def lockAndReadPage (tag : BitVec 64) (a : GlobalAddress) : Lock (BitVec 64) := do
  tryLockAddress cfg tag a
  readWord .lockAndReadPage a

def clearUnless (handover : Bool) (a : GlobalAddress) : Lock Unit :=
  if handover then pure () else writeWord .writePageAndUnlock a 0

/-- The batch: the page, which carries the lock word it was read with if it is written as a whole, then the cleared word. -/
def writeBatch (handover : Bool) (a : GlobalAddress) : Option (BitVec 64) → Lock Unit
  | some word => do
    writeWord .writePageAndUnlock a word
    clearUnless handover a
  | none => clearUnless handover a

def writePageAndUnlock (a : GlobalAddress) (image : Option (BitVec 64)) : Lock Unit := do
  let handover ← canHandOverLocal cfg a
  writeBatch handover a image
  let _ ← releaseLocal cfg (.writePageAndUnlock handover) a
  pure ()

/-! ## Threads -/

/-- How a thread leaves the page. -/
inductive Exit where
  | unlock
  | writeEntry
  | writePage
  deriving DecidableEq

/-- One critical section of a thread. -/
structure Call where
  tag : BitVec 64
  address : GlobalAddress
  exit : Exit

def Call.body (call : Call) : Lock Unit := do
  let word ← lockAndReadPage cfg call.tag call.address
  match call.exit with
  | .unlock => unlockAddress cfg call.address
  | .writeEntry => writePageAndUnlock cfg call.address none
  | .writePage => writePageAndUnlock cfg call.address (some word)

/-- Threads go through critical sections of the admitted kind, one after the other. -/
def system (admits : ℕ → Call → Prop) : System signature ℕ Unit Call Unit State where
  exec := exec cfg
  body := Call.body cfg
  admits _ t call := call.tag = cfg.tag t ∧ admits t call
  env _ _ := False
  invoked _ _ s := s
  returned _ _ _ s := s

end Operations

def initial : State where
  nodes := fun _ _ => ⟨0, 0, fun _ => false, fun _ => none⟩
  words := fun _ => 0
  setter := fun _ => none

end Faunus.Sherman.Locks
