import Faunus.Index.Node
import Mathlib.Data.List.Sort

/-! Pages of the Sherman tree and the local computations on them.

A page is a leaf or an internal page behind one header. The arrays of a page are
indexed by the natural numbers; every loop bounds its index by the cardinality of
the page or by `lastIndex`. A page is written and read as a whole, so its two
versions always agree and are left out, as is the lock word, which the memory keeps.
-/

set_option autoImplicit false

namespace Faunus

def GlobalAddress.null : GlobalAddress := ⟨0⟩

namespace Sherman

/-- The length of `path_stack`. -/
def kMaxLevelOfTree : ℕ := 7

/-- 1024 bytes less the header (two keys, two addresses, one byte, two bytes), two versions and the lock word. -/
def pageRoom (keySize : ℕ) : ℕ := 1024 - (2 * keySize + 19) - 2 - 8

def kInternalCardinality (keySize : ℕ) : ℕ := pageRoom keySize / (keySize + 8)

/-- A record is a fingerprint of two bytes, a byte of padding, an address and a byte at the end: `Fingerprint` is not
packed and keeps the record aligned to two bytes. -/
def kLeafCardinality (keySize : ℕ) : ℕ := pageRoom keySize / 12

structure Header (Key : Type) where
  leftmostPtr : GlobalAddress
  siblingPtr : GlobalAddress
  level : ℕ
  lastIndex : ℤ
  lowest : Key
  highest : Key

structure InternalEntry (Key : Type) where
  key : Key
  ptr : GlobalAddress

structure LeafEntry where
  fingerprint : Fingerprint
  kvPtr : GlobalAddress
  deriving DecidableEq

structure InternalPage (Key : Type) where
  hdr : Header Key
  records : ℕ → InternalEntry Key

structure LeafPage (Key : Type) where
  hdr : Header Key
  records : ℕ → LeafEntry

inductive Page (Key : Type) where
  | leaf : LeafPage Key → Page Key
  | internal : InternalPage Key → Page Key

def LeafEntry.empty : LeafEntry := ⟨.ofBits 0, .null⟩

def LeafEntry.isEmpty (r : LeafEntry) : Bool := r.kvPtr = .null

section
variable {Key : Type}

def Page.hdr : Page Key → Header Key
  | .leaf p => p.hdr
  | .internal p => p.hdr

/-- Reading a page as a leaf; the records of an internal page are never used so. -/
def Page.asLeaf : Page Key → LeafPage Key
  | .leaf p => p
  | .internal p => ⟨p.hdr, fun _ => .empty⟩

def LeafPage.setRecord (p : LeafPage Key) (i : ℕ) (r : LeafEntry) : LeafPage Key :=
  { p with records := Function.update p.records i r }

def InternalPage.cnt (p : InternalPage Key) : ℕ := (p.hdr.lastIndex + 1).toNat

def LeafPage.used (cardinality : ℕ) (p : LeafPage Key) : List ℕ :=
  (List.range cardinality).filter fun i => !(p.records i).isEmpty

variable [LinearOrder Key] [BoundedOrder Key]

/-- What `Header()` and the constructors of pages fill in. -/
def Header.init (level : ℕ) : Header Key where
  leftmostPtr := .null
  siblingPtr := .null
  level := level
  lastIndex := -1
  lowest := ⊥
  highest := ⊤

def InternalEntry.empty : InternalEntry Key := ⟨⊥, .null⟩

/-- Reading a page as an internal page; the records of a leaf are never used so. -/
def Page.asInternal : Page Key → InternalPage Key
  | .internal p => p
  | .leaf p => ⟨p.hdr, fun _ => .empty⟩

def LeafPage.init : LeafPage Key := ⟨.init 0, fun _ => .empty⟩

def InternalPage.newRoot (left : GlobalAddress) (key : Key) (right : GlobalAddress) (level : ℕ) : InternalPage Key where
  hdr := { Header.init level with leftmostPtr := left, lastIndex := 0 }
  records := Function.update (fun _ => .empty) 0 ⟨key, right⟩

/-! ## Descending -/

/-- The child `search_node` goes to: the one before the first larger record, else the last one. -/
def InternalPage.nextLevel (p : InternalPage Key) (key : Key) : GlobalAddress :=
  if key < (p.records 0).key then p.hdr.leftmostPtr
  else match ((List.range p.cnt).drop 1).find? (fun i => decide (key < (p.records i).key)) with
    | some i => (p.records (i - 1)).ptr
    | none => (p.records (p.cnt - 1)).ptr

/-! ## Records of an internal page -/

inductive Place where
  | update : ℕ → Place
  | insert : ℕ → Place

/-- Scan down from `i - 1` for the key or the last smaller one. -/
def findRecord (records : ℕ → InternalEntry Key) (key : Key) : ℕ → Place
  | 0 => .insert 0
  | i + 1 =>
    if (records i).key = key then .update i
    else if (records i).key < key then .insert (i + 1)
    else findRecord records key i

/-- The shift loop from `i` down to `index + 1`. -/
def shiftRecords (index : ℕ) : ℕ → (ℕ → InternalEntry Key) → ℕ → InternalEntry Key
  | 0, records => records
  | i + 1, records =>
    if index < i + 1 then shiftRecords index i (Function.update records (i + 1) (records i)) else records

/-- The page after `(key, v)` was put into its records. -/
def InternalPage.withRecord (p : InternalPage Key) (key : Key) (v : GlobalAddress) : InternalPage Key :=
  match findRecord p.records key p.cnt with
  | .update i => { p with records := Function.update p.records i { p.records i with ptr := v } }
  | .insert i =>
    { hdr := { p.hdr with lastIndex := p.hdr.lastIndex + 1 }
      records := Function.update (shiftRecords i p.cnt p.records) i ⟨key, v⟩ }

def InternalPage.splitKey (p : InternalPage Key) : Key := (p.records (p.cnt / 2)).key

/-- The right half; the middle record gives its key to the parent and its page to `leftmost_ptr`. -/
def InternalPage.splitRight (p : InternalPage Key) : InternalPage Key where
  hdr :=
    { leftmostPtr := (p.records (p.cnt / 2)).ptr
      siblingPtr := p.hdr.siblingPtr
      level := p.hdr.level
      lastIndex := -1 + (p.cnt - (p.cnt / 2 + 1) : ℕ)
      lowest := p.splitKey
      highest := p.hdr.highest }
  records := fun i => if p.cnt / 2 + 1 + i < p.cnt then p.records (p.cnt / 2 + 1 + i) else .empty

/-- The left half. Its records behind `last_index` are not cleared. -/
def InternalPage.splitLeft (p : InternalPage Key) (sibling : GlobalAddress) : InternalPage Key where
  hdr :=
    { p.hdr with
      siblingPtr := sibling
      lastIndex := p.hdr.lastIndex - (p.cnt - p.cnt / 2 : ℕ)
      highest := p.splitKey }
  records := p.records

/-! ## Leaves -/

/-- `std::sort` by key. -/
def sortByKey (keyed : List (Key × LeafEntry)) : List (Key × LeafEntry) := keyed.insertionSort fun a b => a.1 ≤ b.1

def LeafPage.splitLeft (p : LeafPage Key) (sorted : List (Key × LeafEntry)) (splitKey : Key) (sibling : GlobalAddress) :
    LeafPage Key where
  hdr :=
    { p.hdr with
      siblingPtr := sibling
      lastIndex := p.hdr.lastIndex - (sorted.length - sorted.length / 2 : ℕ)
      highest := splitKey }
  records := fun i =>
    match sorted[i]? with
    | some e => if i < sorted.length / 2 then e.2 else .empty
    | none => .empty

def LeafPage.splitRight (p : LeafPage Key) (sorted : List (Key × LeafEntry)) (splitKey : Key) : LeafPage Key where
  hdr :=
    { leftmostPtr := .null
      siblingPtr := p.hdr.siblingPtr
      level := p.hdr.level
      lastIndex := -1 + (sorted.length - sorted.length / 2 : ℕ)
      lowest := splitKey
      highest := p.hdr.highest }
  records := fun i =>
    match sorted[sorted.length / 2 + i]? with
    | some e => e.2
    | none => .empty

end

end Sherman

end Faunus
