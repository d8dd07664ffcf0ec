import Faunus.Sherman.Memory

/-! The operations of `ShermanIndex`, without a cache.

Each function follows its source line by line. `path_stack` is passed along. A failed
`assert` is `stuck`, except for the `assert(false)` of `insert_to_internal`, which is an
operation that can be seen. `from_cache` is never set, so `search_node` never fails.
`loopBound` bounds the loops and the recursion that the source leaves unbounded.
-/

set_option autoImplicit false

namespace Faunus.Sherman

open Interleaving

structure Config where
  internalCardinality : ℕ
  leafCardinality : ℕ
  maxRetries : ℕ
  loopBound : ℕ

/-- The cardinalities follow from the size of a key. -/
def Config.ofKeySize (keySize loopBound : ℕ) : Config where
  internalCardinality := kInternalCardinality keySize
  leafCardinality := kLeafCardinality keySize
  maxRetries := 1000000
  loopBound := loopBound

abbrev Index (Key Value A : Type) := Program (signature Key Value) A

section Verbs
variable {Key Value : Type} (site : Site)

def readRoot : Index Key Value GlobalAddress := .perform ⟨site, .readRoot⟩ .value

def casRoot (expected desired : GlobalAddress) : Index Key Value GlobalAddress :=
  .perform ⟨site, .casRoot expected desired⟩ .value

def readPage (a : GlobalAddress) : Index Key Value (Page Key) := .perform ⟨site, .readPage a⟩ .value

def writePage (a : GlobalAddress) (p : Page Key) : Index Key Value Unit := .perform ⟨site, .writePage a p⟩ .value

def writeEntry (a : GlobalAddress) (i : ℕ) (r : LeafEntry) : Index Key Value Unit :=
  .perform ⟨site, .writeEntry a i r⟩ .value

def lock (a : GlobalAddress) : Index Key Value Unit := .perform ⟨site, .lock a⟩ .value

def unlock (a : GlobalAddress) : Index Key Value Unit := .perform ⟨site, .unlock a⟩ .value

def readItem (a : GlobalAddress) : Index Key Value (KVItem Key Value) := .perform ⟨site, .readItem a⟩ .value

def writeItem (a : GlobalAddress) (item : KVItem Key Value) : Index Key Value Unit :=
  .perform ⟨site, .writeItem a item⟩ .value

def allocPage : Index Key Value GlobalAddress := .perform ⟨site, .allocPage⟩ .value

def allocItem : Index Key Value GlobalAddress := .perform ⟨site, .allocItem⟩ .value

def assertFalse : Index Key Value Unit := .perform ⟨site, .assertFalse⟩ .value

def lockAndReadPage (a : GlobalAddress) : Index Key Value (Page Key) := do
  lock site a
  readPage site a

def writePageAndUnlock (a : GlobalAddress) (p : Page Key) : Index Key Value Unit := do
  writePage site a p
  unlock site a

end Verbs

abbrev PathStack := ℕ → GlobalAddress

structure SearchResult (Value : Type) where
  isLeaf : Bool
  level : ℕ
  slibing : GlobalAddress
  nextLevel : GlobalAddress
  val : Value

section Operations
variable {Key Value : Type} [LinearOrder Key] [BoundedOrder Key] [KeyBytes Key] [Bot Value] [DecidableEq Value] (cfg : Config)

/-- `SearchResult result` with `result.val = Value::min()`; addresses start out null. -/
def SearchResult.init : SearchResult Value := ⟨false, 0, .null, .null, ⊥⟩

/-! ## Descending -/

/-- The value of the first record with the key. -/
def searchRecords (key : Key) (page : LeafPage Key) : List ℕ → Index Key Value (Option Value)
  | [] => pure none
  | i :: rest =>
    if (page.records i).isEmpty = false ∧ (page.records i).fingerprint = .ofKey key then do
      let kvItem ← readItem .searchNode (page.records i).kvPtr
      if kvItem.key = key then pure (some kvItem.value) else searchRecords key page rest
    else searchRecords key page rest

/-- What `search_node` does with the page; fields of the result that a branch does not set keep their old values. -/
def searchPage (nodeAddress : GlobalAddress) (page : Page Key) (key : Key) (result : SearchResult Value) (path : PathStack) :
    Index Key Value (SearchResult Value × PathStack) :=
  let hdr := page.hdr
  let result := { result with isLeaf := hdr.leftmostPtr = .null, level := hdr.level }
  if kMaxLevelOfTree ≤ hdr.level then .stuck
  else
    let path := Function.update path hdr.level nodeAddress
    if hdr.highest ≤ key then
      if hdr.siblingPtr = .null ∨ hdr.siblingPtr = nodeAddress then .stuck
      else pure ({ result with slibing := hdr.siblingPtr }, path)
    else if key < hdr.lowest then .stuck
    else if hdr.leftmostPtr = .null then
      if hdr.level ≠ 0 then .stuck
      else do
        let found ← searchRecords key page.asLeaf (List.range cfg.leafCardinality)
        match found with
        | some value => pure ({ result with val := value }, path)
        | none => pure (result, path)
    else if hdr.level = 0 then .stuck
    else pure ({ result with nextLevel := page.asInternal.nextLevel key }, path)

def searchNode (nodeAddress : GlobalAddress) (key : Key) (result : SearchResult Value) (path : PathStack) :
    Index Key Value (SearchResult Value × PathStack) := do
  let page ← readPage .searchNode nodeAddress
  searchPage cfg nodeAddress page key result path

def readLoop (key : Key) : ℕ → GlobalAddress → SearchResult Value → PathStack → Index Key Value (Option Value)
  | 0, _, _, _ => .stuck
  | bound + 1, p, result, path => do
    let (result, path) ← searchNode cfg p key result path
    if result.isLeaf then
      if result.val ≠ ⊥ then pure (some result.val)
      else if result.slibing ≠ .null then readLoop key bound result.slibing result path
      else pure none
    else readLoop key bound (if result.slibing = .null then result.nextLevel else result.slibing) result path

def read (key : Key) : Index Key Value (Option Value) := do
  let root ← readRoot .read
  readLoop cfg key cfg.loopBound root .init fun _ => .null

/-! ## Splitting upwards -/

def updateRootOffset (left : GlobalAddress) (key : Key) (right : GlobalAddress) (level : ℕ) (oldRoot : GlobalAddress) :
    Index Key Value Bool := do
  let newRootAddress ← allocPage .updateRootOffset
  writePage .updateRootOffset newRootAddress (.internal (.newRoot left key right level))
  let found ← casRoot .updateRootOffset oldRoot newRootAddress
  pure (found = oldRoot)

/-- The recursion goes right on a level and up one level. -/
def insertToInternal (key : Key) (v root : GlobalAddress) (level : ℕ) (path : PathStack) :
    ℕ → GlobalAddress → Index Key Value Unit := fun bound pageAddr =>
  match bound with
  | 0 => .stuck
  | bound + 1 => do
    let page ← lockAndReadPage .insertToInternal pageAddr
    if page.hdr.level ≠ level then .stuck
    else if page.hdr.highest ≤ key then do
      unlock .insertToInternal pageAddr
      if page.hdr.siblingPtr = .null then .stuck
      else insertToInternal key v root level path bound page.hdr.siblingPtr
    else if key < page.hdr.lowest then .stuck
    else
      let old := page.asInternal
      if old.cnt = cfg.internalCardinality then .stuck
      else
        let page := old.withRecord key v
        if page.cnt ≠ cfg.internalCardinality then
          writePageAndUnlock .insertToInternal pageAddr (.internal page)
        else do
          let siblingAddr ← allocPage .insertToInternal
          if page.splitKey ≤ page.hdr.lowest ∨ page.hdr.highest ≤ page.splitKey then .stuck
          else if siblingAddr = pageAddr ∨ page.hdr.siblingPtr = pageAddr ∨ page.hdr.siblingPtr = siblingAddr then .stuck
          else do
            writePage .insertToInternal siblingAddr (.internal page.splitRight)
            writePageAndUnlock .insertToInternal pageAddr (.internal (page.splitLeft siblingAddr))
            let done ← if root = pageAddr then updateRootOffset pageAddr page.splitKey siblingAddr (level + 1) root
              else pure false
            if done then pure ()
            else if path (level + 1) ≠ .null then
              insertToInternal page.splitKey siblingAddr root (level + 1) path bound (path (level + 1))
            else assertFalse .insertToInternal

def searchAndInsertLoop (key : Key) (v root : GlobalAddress) (level : ℕ) :
    ℕ → GlobalAddress → SearchResult Value → PathStack → Index Key Value Unit
  | 0, _, _, _ => .stuck
  | bound + 1, p, result, path => do
    let (result, path) ← searchNode cfg p key result path
    if result.level = level then insertToInternal cfg key v root level path cfg.loopBound p
    else if result.level = 0 then .stuck
    else if result.slibing ≠ .null then searchAndInsertLoop key v root level bound result.slibing result path
    else if result.level ≠ level + 1 then searchAndInsertLoop key v root level bound result.nextLevel result path
    else insertToInternal cfg key v root level path cfg.loopBound result.nextLevel

def searchAndInsertToInternal (key : Key) (v : GlobalAddress) (level : ℕ) (path : PathStack) : Index Key Value Unit := do
  let root ← readRoot .searchAndInsertToInternal
  searchAndInsertLoop cfg key v root level cfg.loopBound root .init path

/-! ## Inserting -/

/-- What the loop over the records of a leaf ends with. -/
inductive Scan where
  | updated
  | absent (cnt : ℕ) (emptyIndex : Option ℕ)

/-- Update the record of the key in place, else count the records and find an empty one. -/
def scanRecords (key : Key) (value : Value) (page : LeafPage Key) : List ℕ → ℕ → Option ℕ → Index Key Value Scan
  | [], cnt, emptyIndex => pure (.absent cnt emptyIndex)
  | i :: rest, cnt, emptyIndex =>
    if (page.records i).isEmpty then scanRecords key value page rest cnt (some (emptyIndex.getD i))
    else if (page.records i).fingerprint = .ofKey key then do
      let kvItem ← readItem .insertToLeaf (page.records i).kvPtr
      if kvItem.key = key then do
        writeItem .insertToLeaf (page.records i).kvPtr { kvItem with value }
        pure .updated
      else scanRecords key value page rest (cnt + 1) emptyIndex
    else scanRecords key value page rest (cnt + 1) emptyIndex

/-- The keys of the records in use, each with its record. -/
def readKeyed (page : LeafPage Key) : List ℕ → Index Key Value (List (Key × LeafEntry))
  | [] => pure []
  | i :: rest => do
    let item ← readItem .insertToLeaf (page.records i).kvPtr
    let others ← readKeyed page rest
    pure ((item.key, page.records i) :: others)

/-- The part of `insert_to_leaf` behind a full page. -/
def splitLeafPage (leafAddress : GlobalAddress) (page : LeafPage Key) (cnt : ℕ) (root : GlobalAddress) (level : ℕ)
    (path : PathStack) : Index Key Value Unit := do
  let keyed ← readKeyed page (page.used cfg.leafCardinality)
  let sorted := sortByKey keyed
  if sorted.length ≠ cnt then .stuck
  else do
    let siblingAddr ← allocPage .insertToLeaf
    match sorted[sorted.length / 2]? with
    | none => .stuck
    | some (splitKey, _) =>
      if splitKey ≤ page.hdr.lowest ∨ page.hdr.highest ≤ splitKey then .stuck
      else if siblingAddr = leafAddress ∨ page.hdr.siblingPtr = leafAddress ∨ page.hdr.siblingPtr = siblingAddr then .stuck
      else do
        writePage .insertToLeaf siblingAddr (.leaf (page.splitRight sorted splitKey))
        writePageAndUnlock .insertToLeaf leafAddress (.leaf (page.splitLeft sorted splitKey siblingAddr))
        let done ← if root = leafAddress then updateRootOffset leafAddress splitKey siblingAddr (level + 1) root else pure false
        if done then pure ()
        else if path (level + 1) ≠ .null then
          insertToInternal cfg splitKey siblingAddr root (level + 1) path cfg.loopBound (path (level + 1))
        else searchAndInsertToInternal cfg splitKey siblingAddr (level + 1) path

def insertToLeaf (key : Key) (value : Value) (root : GlobalAddress) (level : ℕ) (path : PathStack) :
    ℕ → GlobalAddress → Index Key Value Unit
  | 0, _ => .stuck
  | bound + 1, leafAddress => do
    let page ← lockAndReadPage .insertToLeaf leafAddress
    if page.hdr.level ≠ level then .stuck
    else if page.hdr.highest ≤ key then do
      unlock .insertToLeaf leafAddress
      if page.hdr.siblingPtr = .null then .stuck
      else insertToLeaf key value root level path bound page.hdr.siblingPtr
    else if key < page.hdr.lowest then .stuck
    else do
      let page := page.asLeaf
      let scan ← scanRecords key value page (List.range cfg.leafCardinality) 0 none
      match scan with
      | .updated => unlock .insertToLeaf leafAddress
      | .absent _ none => .stuck
      | .absent cnt (some i) =>
        if cnt = cfg.leafCardinality then .stuck
        else do
          let kvItemAddr ← allocItem .insertToLeaf
          writeItem .insertToLeaf kvItemAddr ⟨key, value⟩
          if cnt + 1 ≠ cfg.leafCardinality then do
            writeEntry .insertToLeaf leafAddress i ⟨.ofKey key, kvItemAddr⟩
            unlock .insertToLeaf leafAddress
          else splitLeafPage cfg leafAddress (page.setRecord i ⟨.ofKey key, kvItemAddr⟩) (cnt + 1) root level path

def insertLoop (key : Key) (value : Value) (root : GlobalAddress) :
    ℕ → GlobalAddress → SearchResult Value → PathStack → Index Key Value Bool
  | 0, _, _, _ => pure false
  | retries + 1, p, result, path => do
    let (result, path) ← searchNode cfg p key result path
    if result.isLeaf then do
      insertToLeaf cfg key value root 0 path cfg.loopBound p
      pure true
    else if result.level = 0 then .stuck
    else if result.slibing ≠ .null then insertLoop key value root retries result.slibing result path
    else if result.level ≠ 1 then insertLoop key value root retries result.nextLevel result path
    else do
      insertToLeaf cfg key value root 0 path cfg.loopBound result.nextLevel
      pure true

def insert (key : Key) (value : Value) : Index Key Value Bool := do
  let root ← readRoot .insert
  insertLoop cfg key value root cfg.maxRetries root .init fun _ => .null

/-! ## The interface -/

def initializeIndex : Index Key Value Bool := do
  let rootOffset ← allocPage .initializeIndex
  writePage .initializeIndex rootOffset (.leaf .init)
  let _ ← casRoot .initializeIndex .null rootOffset
  pure true

inductive Call (Key Value : Type) where
  | insert : Key → Value → Call Key Value
  | read : Key → Call Key Value

/-- The boolean, and the value of a successful read. -/
structure Outcome (Value : Type) where
  ok : Bool
  value : Option Value

def Call.body : Call Key Value → Index Key Value (Outcome Value)
  | .insert key value => do
    let ok ← Sherman.insert cfg key value
    pure ⟨ok, none⟩
  | .read key => do
    let found ← Sherman.read cfg key
    pure ⟨found.isSome, found⟩

end Operations

end Faunus.Sherman
