import Faunus.Interleaving.Program
import Faunus.Sherman.Page

/-! Disaggregated memory as the Sherman index uses it.

Memory is typed by what the index stores where. Each RDMA verb is one atomic
operation on one object. The lock of a page is taken and given back as one operation
each: what `try_lock_address` does for it is the business of the lock protocol.
-/

set_option autoImplicit false

namespace Faunus.Sherman

open Interleaving

/-- The source function an operation belongs to. -/
inductive Site where
  | initializeIndex
  | searchNode
  | insert
  | read
  | insertToLeaf
  | insertToInternal
  | searchAndInsertToInternal
  | updateRootOffset
  deriving DecidableEq

inductive Act (Key Value : Type) where
  | readRoot
  | casRoot (expected desired : GlobalAddress)
  | readPage (a : GlobalAddress)
  | writePage (a : GlobalAddress) (p : Page Key)
  | writeEntry (a : GlobalAddress) (i : ℕ) (r : LeafEntry)
  | lock (a : GlobalAddress)
  | unlock (a : GlobalAddress)
  | readItem (a : GlobalAddress)
  | writeItem (a : GlobalAddress) (item : KVItem Key Value)
  | allocPage
  | allocItem
  /-- The `assert(false)` behind a split without a parent. -/
  | assertFalse

def Act.Reply {Key Value : Type} : Act Key Value → Type
  | .readRoot => GlobalAddress
  | .casRoot _ _ => GlobalAddress
  | .readPage _ => Page Key
  | .writePage _ _ => Unit
  | .writeEntry _ _ _ => Unit
  | .lock _ => Unit
  | .unlock _ => Unit
  | .readItem _ => KVItem Key Value
  | .writeItem _ _ => Unit
  | .allocPage => GlobalAddress
  | .allocItem => GlobalAddress
  | .assertFalse => Unit

structure Op (Key Value : Type) where
  site : Site
  act : Act Key Value

def signature (Key Value : Type) : Signature where
  Op := Op Key Value
  Reply o := o.act.Reply

structure Memory (Key Value : Type) where
  rootOffset : GlobalAddress
  pages : GlobalAddress → Option (Page Key)
  items : GlobalAddress → KVItem Key Value
  locks : GlobalAddress → Bool
  /-- Addresses handed out so far; nothing is ever freed. -/
  pagesIssued : List GlobalAddress
  /-- The null address is among them from the start if it is not for items. -/
  itemsIssued : List GlobalAddress

namespace Memory
variable {Key Value : Type}

def setPage (m : Memory Key Value) (a : GlobalAddress) (p : Page Key) : Memory Key Value :=
  { m with pages := Function.update m.pages a (some p) }

def setItem (m : Memory Key Value) (a : GlobalAddress) (item : KVItem Key Value) : Memory Key Value :=
  { m with items := Function.update m.items a item }

def setLock (m : Memory Key Value) (a : GlobalAddress) (held : Bool) : Memory Key Value :=
  { m with locks := Function.update m.locks a held }

theorem setLock_setLock {m : Memory Key Value} {a : GlobalAddress} (free : m.locks a = false) :
    (m.setLock a true).setLock a false = m := by
  have locks : Function.update (Function.update m.locks a true) a false = m.locks := by
    rw [Function.update_idem, ← free, Function.update_eq_self]
  simp only [setLock, locks]

/-- One operation of a client. The null address is the first chunk of the first slab: no page lies there, and of the
items, which come from one allocator, only the first one can. -/
def exec : Exec (signature Key Value) ℕ (BitVec 64) (Memory Key Value) :=
  fun _ o c m =>
    match o with
    | ⟨_, .readRoot⟩ => some (m.rootOffset, m)
    | ⟨_, .casRoot expected desired⟩ =>
      if m.rootOffset = expected then some (m.rootOffset, { m with rootOffset := desired })
      else some (m.rootOffset, m)
    | ⟨_, .readPage a⟩ =>
      match m.pages a with
      | some p => some (p, m)
      | none => none
    | ⟨_, .writePage a p⟩ => some ((), m.setPage a p)
    | ⟨_, .writeEntry a i r⟩ =>
      match m.pages a with
      | some (.leaf p) => some ((), m.setPage a (.leaf (p.setRecord i r)))
      | _ => none
    | ⟨_, .lock a⟩ => if m.locks a then none else some ((), m.setLock a true)
    | ⟨_, .unlock a⟩ => some ((), m.setLock a false)
    | ⟨_, .readItem a⟩ => some (m.items a, m)
    | ⟨_, .writeItem a item⟩ => some ((), m.setItem a item)
    | ⟨_, .allocPage⟩ =>
      if GlobalAddress.ofAddress c = .null ∨ .ofAddress c ∈ m.pagesIssued then none
      else some (.ofAddress c, { m with pagesIssued := .ofAddress c :: m.pagesIssued })
    | ⟨_, .allocItem⟩ =>
      if .ofAddress c ∈ m.itemsIssued ∨ GlobalAddress.ofAddress c = .null ∧ m.itemsIssued ≠ [] then none
      else some (.ofAddress c, { m with itemsIssued := .ofAddress c :: m.itemsIssued })
    | ⟨_, .assertFalse⟩ => none

end Memory

end Faunus.Sherman
