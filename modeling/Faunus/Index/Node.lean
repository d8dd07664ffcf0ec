import Faunus.Data.KVBlock
import Mathlib.Order.BoundedOrder.Basic

/-! Nodes of the Faunus tree and the local computations on them.

The arrays of a node are indexed by the natural numbers; every loop bounds its
index by the branch factor or by `lastIndex`. `⊥` and `⊤` are `Key::min()` and
`Key::max()`, and `⊥` is also what zeroed memory reads as.
-/

set_option autoImplicit false

namespace Faunus

structure Header (Key : Type) where
  lock : BitVec 64
  level : ℕ
  fence : Key × Key
  lastIndex : ℕ

structure LeafNode (Key : Type) where
  header : Header Key
  kvBlocks : ℕ → KVBlock

structure InternalEntry (Key : Type) where
  key : Key
  child : GlobalAddress

structure InternalNode (Key : Type) where
  header : Header Key
  entries : ℕ → InternalEntry Key

inductive Node (Key : Type) where
  | leaf : LeafNode Key → Node Key
  | internal : InternalNode Key → Node Key

structure KVItem (Key Value : Type) where
  key : Key
  value : Value

namespace Node
variable {Key : Type}

def header : Node Key → Header Key
  | .leaf n => n.header
  | .internal n => n.header

def setLock (lock : BitVec 64) : Node Key → Node Key
  | .leaf n => .leaf { n with header := { n.header with lock } }
  | .internal n => .internal { n with header := { n.header with lock } }

@[simp] theorem setLock_header (n : Node Key) (lock : BitVec 64) :
    (n.setLock lock).header = { n.header with lock } := by
  cases n <;> rfl

/-- Reading a node as a leaf; the payload of an internal node is never used so. -/
def asLeaf : Node Key → LeafNode Key
  | .leaf n => n
  | .internal n => ⟨n.header, fun _ => ⟨0⟩⟩

end Node

section
variable {Key Value : Type} [LinearOrder Key] [BoundedOrder Key]

def InternalEntry.zero : InternalEntry Key := ⟨⊥, ⟨0⟩⟩

/-- `header{}` with the fence that is filled in next. -/
def Header.zero (fence : Key × Key) : Header Key := ⟨0, 0, fence, 0⟩

def Header.covers (h : Header Key) (key : Key) : Prop := h.fence.1 ≤ key ∧ key < h.fence.2

instance (h : Header Key) (key : Key) : Decidable (h.covers key) := inferInstanceAs (Decidable (_ ∧ _))

def LeafNode.init (fence : Key × Key) : LeafNode Key := ⟨.zero fence, fun _ => .empty⟩

/-- Reading a node as an internal node; the payload of a leaf is never used so. -/
def Node.asInternal : Node Key → InternalNode Key
  | .internal n => n
  | .leaf n => ⟨n.header, fun _ => .zero⟩

def LeafNode.setBlock (n : LeafNode Key) (i : ℕ) (b : KVBlock) : LeafNode Key :=
  { n with kvBlocks := Function.update n.kvBlocks i b }

/-! ## Descending -/

/-- The child `find_node` goes to: the first entry with a larger key, else the last one. -/
def InternalNode.nextAddress (n : InternalNode Key) (key : Key) : GlobalAddress :=
  match (List.range (n.header.lastIndex + 1)).find? (fun i => decide (key < (n.entries i).key)) with
  | some i => (n.entries i).child
  | none => (n.entries n.header.lastIndex).child

/-! ## Leaves -/

/-- The slots with the fingerprint, and whether a split has locked any slot. -/
def getFingerprintCollisions (branchFactor : ℕ) (leaf : LeafNode Key) (fp : Fingerprint) :
    List (ℕ × GlobalAddress) × Bool :=
  (((List.range branchFactor).filter fun i =>
      !(leaf.kvBlocks i).isFree && (leaf.kvBlocks i).getFingerprint == fp).map
        fun i => (i, (leaf.kvBlocks i).getAddr),
    (List.range branchFactor).any fun i => (leaf.kvBlocks i).isLocked)

def takenIndices (branchFactor : ℕ) (leaf : LeafNode Key) : List ℕ :=
  (List.range branchFactor).filter fun i => !(leaf.kvBlocks i).isFree

/-- What the slot probe of `insert` stops at. -/
inductive Probe where
  | free : ℕ → Probe
  | locked : Probe
  | exhausted : Probe

def probeIndex (branchFactor : ℕ) (seed : BitVec 64) (i : ℕ) : ℕ :=
  ((BitVec.ofNat 64 i ^^^ seed) &&& BitVec.ofNat 64 (branchFactor - 1)).toNat

def probe (branchFactor : ℕ) (leaf : LeafNode Key) (seed : BitVec 64) : Probe :=
  match (List.range branchFactor).find? (fun i =>
      (leaf.kvBlocks (probeIndex branchFactor seed i)).isLocked ||
        (leaf.kvBlocks (probeIndex branchFactor seed i)).isFree) with
  | none => .exhausted
  | some i =>
    if (leaf.kvBlocks (probeIndex branchFactor seed i)).isLocked then .locked
    else .free (probeIndex branchFactor seed i)

def mix64 (x : BitVec 64) : BitVec 64 :=
  let x := x ^^^ (x >>> 33)
  let x := x * 0xff51afd7ed558ccd#64
  let x := x ^^^ (x >>> 33)
  let x := x * 0xc4ceb9fe1a85ec53#64
  x ^^^ (x >>> 33)

/-- The blocks of the left leaf below `middle`; `cleared` holds the rest. -/
def leftBlocks (entries : List (Key × KVBlock)) (middle : ℕ) (cleared : ℕ → KVBlock) (i : ℕ) : KVBlock :=
  match entries[i]? with
  | some e => if i < middle then e.2.setLocked false else cleared i
  | none => cleared i

/-- The blocks of the new leaf; an odd count leaves its last entry at `middle`. -/
def rightBlocks (entries : List (Key × KVBlock)) (middle : ℕ) (cleared : ℕ → KVBlock) (i : ℕ) : KVBlock :=
  if i < middle then
    match entries[i + middle]? with
    | some e => e.2.setLocked false
    | none => cleared i
  else if i = middle ∧ entries.length % 2 ≠ 0 then
    match entries.getLast? with
    | some e => e.2.setLocked false
    | none => cleared i
  else cleared i

/-! ## Separators -/

/-- Scan down from `i - 1` for the position after the last smaller separator. -/
def separatorIndex (entries : ℕ → InternalEntry Key) (key : Key) : ℕ → ℕ
  | 0 => 0
  | i + 1 => if (entries i).key < key then i + 1 else separatorIndex entries key i

def setKey (entries : ℕ → InternalEntry Key) (i : ℕ) (key : Key) : ℕ → InternalEntry Key :=
  Function.update entries i { entries i with key }

def setChild (entries : ℕ → InternalEntry Key) (i : ℕ) (child : GlobalAddress) : ℕ → InternalEntry Key :=
  Function.update entries i { entries i with child }

/-- One round of the shift loop. At `i = 1` the source reads the key of
`entries[-1]`; that key is overwritten before the node is used. -/
def shiftEntry (entries : ℕ → InternalEntry Key) (i : ℕ) : ℕ → InternalEntry Key :=
  let shifted := setKey entries (i - 1) (if 2 ≤ i then (entries (i - 2)).key else ⊥)
  setChild shifted i (shifted (i - 1)).child

/-- The shift loop from `i` down to `index + 1`. -/
def shiftEntries (index : ℕ) : ℕ → (ℕ → InternalEntry Key) → ℕ → InternalEntry Key
  | 0, entries => entries
  | i + 1, entries => if index < i + 1 then shiftEntries index i (shiftEntry entries (i + 1)) else entries

/-- Put `(key, child)` behind the separators below `key`. -/
def insertSeparator (entries : ℕ → InternalEntry Key) (lastIndex : ℕ) (key : Key) (child : GlobalAddress) :
    ℕ → InternalEntry Key :=
  let index := separatorIndex entries key lastIndex
  setKey (setChild (shiftEntries index (lastIndex + 1) entries) (index + 1) child) index key

/-- The copied entries of a full node with one zeroed entry behind them. -/
def InternalNode.grown (n : InternalNode Key) (i : ℕ) : InternalEntry Key :=
  if i ≤ n.header.lastIndex then n.entries i else .zero

/-- `node` after an in-place insertion. -/
def InternalNode.withSeparator (n : InternalNode Key) (key : Key) (child : GlobalAddress) : InternalNode Key :=
  { header := { n.header with lastIndex := n.header.lastIndex + 1 }
    entries := insertSeparator n.entries n.header.lastIndex key child }

def splitMiddle (branchFactor : ℕ) : ℕ := branchFactor / 2

/-- The entries vector of `split_internal_node` after the new entry is in. -/
def InternalNode.splitEntries (n : InternalNode Key) (key : Key) (child : GlobalAddress) : ℕ → InternalEntry Key :=
  insertSeparator n.grown n.header.lastIndex key child

def InternalNode.middleKey (branchFactor : ℕ) (n : InternalNode Key) (key : Key) (child : GlobalAddress) : Key :=
  (n.splitEntries key child (splitMiddle branchFactor)).key

def InternalNode.splitRight (branchFactor : ℕ) (n : InternalNode Key) (key : Key) (child : GlobalAddress) : InternalNode Key :=
  let middle := splitMiddle branchFactor
  { header :=
      { Header.zero (n.middleKey branchFactor key child, n.header.fence.2) with
        level := n.header.level
        lastIndex := branchFactor - middle - 1 }
    entries := fun i => if i + middle + 1 < branchFactor + 1 then n.splitEntries key child (i + middle + 1) else .zero }

def InternalNode.splitLeft (branchFactor : ℕ) (n : InternalNode Key) (key : Key) (child : GlobalAddress) : InternalNode Key :=
  let middle := splitMiddle branchFactor
  { header :=
      { n.header with
        fence := (n.header.fence.1, n.middleKey branchFactor key child)
        lastIndex := middle }
    entries := fun i =>
      if i ≤ middle then n.splitEntries key child i
      else if i < branchFactor then .zero
      else n.entries i }

end

end Faunus
