import Faunus.Interleaving.Atomic
import Faunus.Interleaving.Invariant
import Faunus.Sherman.Histories
import Faunus.Sherman.System

/-! What a client of the Sherman tree may do next while others work.

A client knows pages that are part of the tree and items that its leaves store. Under a
lock it knows the page as it is. A page or an item that it has allocated is its own until
the tree points to it, and a page that it has split off is owed to the level above.
-/

set_option autoImplicit false

namespace Faunus.Sherman

open Interleaving

variable {Key Value : Type}

/-- A page that was split off and waits for its record one level up. -/
structure Debt (Key : Type) where
  left : GlobalAddress
  right : GlobalAddress
  key : Key
  level : ℕ

structure Client (Key Value : Type) where
  progress : Progress (Call Key Value) (Outcome Value)
  known : Set GlobalAddress
  keys : Set (GlobalAddress × Key)
  held : Option (GlobalAddress × Page Key)
  /-- An allocated page that the tree does not contain yet, with what was written there. -/
  fresh : Option (GlobalAddress × Option (Page Key))
  item : Option (GlobalAddress × Option (KVItem Key Value))
  debt : Option (Debt Key)

def Client.idle : Client Key Value := ⟨.idle, ∅, ∅, none, none, none, none⟩

/-- The pages that an internal page or a header points to. -/
def Page.pointers : Page Key → Set GlobalAddress
  | .leaf p => {b | b = p.hdr.siblingPtr ∧ b ≠ .null}
  | .internal p => {b | b = p.hdr.siblingPtr ∧ b ≠ .null ∨ b = p.hdr.leftmostPtr ∨ ∃ i < p.cnt, b = (p.records i).ptr}

def Page.labels (cfg : Config) (m : Memory Key Value) : Page Key → Set (GlobalAddress × Key)
  | .leaf p => {x | ∃ r ∈ p.entries cfg.leafCardinality, x = (r.kvPtr, m.keyAt r)}
  | .internal _ => ∅

section
variable [LinearOrder Key] [BoundedOrder Key] [KeyBytes Key] [Bot Value] [DecidableEq Value]

/-- What a call does to the map, and what it answers: a read takes `Value::min` for absence, an insert that has used up
its retries gives up. -/
def Behaves (call : Call Key Value) (map : Key → Option Value) (outcome : Outcome Value) (map' : Key → Option Value) : Prop :=
  outcome = call.answer (masked map) ∧ map' = call.assign map ∨
    (∃ key value, call = .insert key value) ∧ outcome = ⟨false, none⟩ ∧ map' = map

/-- The leaf has an empty record for the key, which no other record has. -/
structure Takes (cfg : Config) (m : Memory Key Value) (p : LeafPage Key) (key : Key) (i : ℕ) : Prop where
  covers : p.hdr.covers key
  bound : i < cfg.leafCardinality
  empty : (p.records i).isEmpty = true
  absent : ∀ r ∈ p.entries cfg.leafCardinality, m.keyAt r ≠ key

section Grants
variable (cfg : Config) (t : ℕ) (gs : ℕ → Client Key Value) (m : Memory Key Value)

inductive Grants : (o : Op Key Value) → o.act.Reply → Memory Key Value → Client Key Value → Prop where
  -- Descending.
  | readRoot {site : Site} : Grants ⟨site, .readRoot⟩ m.rootOffset m { gs t with known := Insert.insert m.rootOffset (gs t).known }
  | readPage {site : Site} {a : GlobalAddress} {p : Page Key} : m.pages a = some p → a ∈ (gs t).known →
      Grants ⟨site, .readPage a⟩ p m { gs t with known := (gs t).known ∪ p.pointers, keys := (gs t).keys ∪ p.labels cfg m }
  /-- The leaf that takes the key does not store it. -/
  | missed {site : Site} {a : GlobalAddress} {p : LeafPage Key} {key : Key} : m.pages a = some (.leaf p) → a ∈ (gs t).known →
      (gs t).progress = .called (.read key) → p.hdr.covers key → (∀ r ∈ p.entries cfg.leafCardinality, m.keyAt r ≠ key) →
      Grants ⟨site, .readPage a⟩ (.leaf p) m
        { gs t with
          progress := .effected (.read key) ⟨false, none⟩
          known := (gs t).known ∪ (Page.leaf p).pointers
          keys := (gs t).keys ∪ (Page.leaf p).labels cfg m }
  | readItem {site : Site} {x : GlobalAddress} : Grants ⟨site, .readItem x⟩ (m.items x) m (gs t)
  | found {site : Site} {x : GlobalAddress} {key : Key} : (x, key) ∈ (gs t).keys → (gs t).progress = .called (.read key) →
      Grants ⟨site, .readItem x⟩ (m.items x) m
        { gs t with progress := .effected (.read key) (Call.answer (masked fun _ => some (m.items x).value) (.read key)) }
  -- Locks.
  | lock {site : Site} {a : GlobalAddress} {p : Page Key} : m.pages a = some p → a ∈ (gs t).known → m.locks a = false →
      (gs t).held = none → Grants ⟨site, .lock a⟩ () (m.setLock a true) { gs t with held := some (a, p) }
  | unlock {site : Site} {a : GlobalAddress} {p : Page Key} : (gs t).held = some (a, p) →
      Grants ⟨site, .unlock a⟩ () (m.setLock a false) { gs t with held := none }
  -- Allocations.
  | allocPage {site : Site} {a : GlobalAddress} : a ≠ .null → a ∉ m.pagesIssued →
      Grants ⟨site, .allocPage⟩ a (m.issuePage a) { gs t with fresh := some (a, none) }
  | allocItem {site : Site} {x : GlobalAddress} : x ≠ .null → x ∉ m.itemsIssued →
      Grants ⟨site, .allocItem⟩ x { m with itemsIssued := x :: m.itemsIssued } { gs t with item := some (x, none) }
  | fillPage {site : Site} {a : GlobalAddress} {p : Page Key} : (gs t).fresh = some (a, none) →
      Grants ⟨site, .writePage a p⟩ () (m.setPage a p) { gs t with fresh := some (a, some p) }
  | fillItem {site : Site} {x : GlobalAddress} {item : KVItem Key Value} : (gs t).item = some (x, none) →
      Grants ⟨site, .writeItem x item⟩ () (m.setItem x item) { gs t with item := some (x, some item) }
  -- Leaves.
  | update {site : Site} {a : GlobalAddress} {p : LeafPage Key} {r : LeafEntry} {value : Value} :
      (gs t).held = some (a, .leaf p) → r ∈ p.entries cfg.leafCardinality →
      (gs t).progress = .called (.insert (m.keyAt r) value) →
      Grants ⟨site, .writeItem r.kvPtr ⟨m.keyAt r, value⟩⟩ () (m.setItem r.kvPtr ⟨m.keyAt r, value⟩)
        { gs t with progress := .effected (.insert (m.keyAt r) value) ⟨true, none⟩ }
  | add {site : Site} {a x : GlobalAddress} {p : LeafPage Key} {i : ℕ} {key : Key} {value : Value} :
      (gs t).held = some (a, .leaf p) → (gs t).item = some (x, some ⟨key, value⟩) → Takes cfg m p key i →
      (p.entries cfg.leafCardinality).length + 1 < cfg.leafCardinality → (gs t).progress = .called (.insert key value) →
      Grants ⟨site, .writeEntry a i ⟨.ofKey key, x⟩⟩ () (m.setPage a (.leaf (p.setRecord i ⟨.ofKey key, x⟩)))
        { gs t with
          progress := .effected (.insert key value) ⟨true, none⟩
          held := some (a, .leaf (p.setRecord i ⟨.ofKey key, x⟩))
          item := none }
  | splitLeaf {site : Site} {a x new : GlobalAddress} {p q : LeafPage Key} {i : ℕ} {key : Key} {value : Value}
    {e : Key × LeafEntry} :
      (gs t).held = some (a, .leaf p) → (gs t).item = some (x, some ⟨key, value⟩) → Takes cfg m p key i →
      q = p.setRecord i ⟨.ofKey key, x⟩ → 2 ≤ (q.sorted cfg m).length → (q.sorted cfg m)[(q.sorted cfg m).length / 2]? = some e →
      (gs t).fresh = some (new, some (.leaf (q.splitRight (q.sorted cfg m) e.1))) → (gs t).debt = none →
      (gs t).progress = .called (.insert key value) →
      Grants ⟨site, .writePage a (.leaf (q.splitLeft (q.sorted cfg m) e.1 new))⟩ ()
        (m.setPage a (.leaf (q.splitLeft (q.sorted cfg m) e.1 new)))
        { gs t with
          progress := .effected (.insert key value) ⟨true, none⟩
          held := some (a, .leaf (q.splitLeft (q.sorted cfg m) e.1 new))
          fresh := none
          item := none
          debt := some ⟨a, new, e.1, 1⟩ }
  -- Above the leaves.
  | link {site : Site} {a : GlobalAddress} {n : InternalPage Key} {d : Debt Key} :
      (gs t).held = some (a, .internal n) → (gs t).debt = some d → n.hdr.level = d.level → n.hdr.covers d.key →
      (n.withRecord d.key d.right).cnt ≠ cfg.internalCardinality →
      Grants ⟨site, .writePage a (.internal (n.withRecord d.key d.right))⟩ () (m.setPage a (.internal (n.withRecord d.key d.right)))
        { gs t with held := some (a, .internal (n.withRecord d.key d.right)), debt := none }
  | linkAndSplit {site : Site} {a new : GlobalAddress} {n : InternalPage Key} {d : Debt Key} :
      (gs t).held = some (a, .internal n) → (gs t).debt = some d → n.hdr.level = d.level → n.hdr.covers d.key →
      (n.withRecord d.key d.right).cnt = cfg.internalCardinality →
      (gs t).fresh = some (new, some (.internal (n.withRecord d.key d.right).splitRight)) →
      Grants ⟨site, .writePage a (.internal ((n.withRecord d.key d.right).splitLeft new))⟩ ()
        (m.setPage a (.internal ((n.withRecord d.key d.right).splitLeft new)))
        { gs t with
          held := some (a, .internal ((n.withRecord d.key d.right).splitLeft new))
          fresh := none
          debt := some ⟨a, new, (n.withRecord d.key d.right).splitKey, d.level + 1⟩ }
  | raise {site : Site} {new : GlobalAddress} {d : Debt Key} :
      (gs t).debt = some d → (gs t).fresh = some (new, some (.internal (.newRoot d.left d.key d.right d.level))) →
      m.rootOffset = d.left →
      Grants ⟨site, .casRoot d.left new⟩ m.rootOffset { m with rootOffset := new } { gs t with fresh := none, debt := none }
  | outgrown {site : Site} {expected new : GlobalAddress} : m.rootOffset ≠ expected →
      Grants ⟨site, .casRoot expected new⟩ m.rootOffset m { gs t with fresh := none }

end Grants

/-- A call begins with nothing in hand and ends with its effect, no lock and no debt. -/
def clientMachine (cfg : Config) : Machine (signature Key Value) ℕ (Call Key Value) (Outcome Value) (State Key Value)
    (Client Key Value) where
  idle := .idle
  begins _ call _ _ g := g = { Client.idle with progress := .called call }
  permits t gs s o r s' g := Grants cfg t gs s.memory o r s'.memory g ∧ s'.history = .performed t o r :: s.history
  ends _ call outcome g :=
    (g.progress = .effected call outcome ∨ (∃ key value, call = .insert key value) ∧ g.progress = .called call ∧
      outcome = ⟨false, none⟩) ∧
      g.held = none ∧ g.item = none ∧ g.debt = none

end

/-! ## The tree that the clients share -/

/-- The pages and the items that are part of the tree, with no lock taken. -/
def Memory.seen (m : Memory Key Value) (pages items : List GlobalAddress) : Memory Key Value :=
  { m with
    pages := fun a => if a ∈ pages then m.pages a else none
    locks := fun _ => false
    pagesIssued := pages
    itemsIssued := items }

section
variable {m : Memory Key Value} {pages items : List GlobalAddress} {a : GlobalAddress} {p : Page Key}

@[simp] theorem seen_rootOffset : (m.seen pages items).rootOffset = m.rootOffset := rfl

@[simp] theorem seen_items : (m.seen pages items).items = m.items := rfl

@[simp] theorem seen_itemsIssued : (m.seen pages items).itemsIssued = items := rfl

@[simp] theorem seen_pagesIssued : (m.seen pages items).pagesIssued = pages := rfl

@[simp] theorem seen_keyAt : (m.seen pages items).keyAt = m.keyAt := rfl

theorem seen_pages : (m.seen pages items).pages a = some p ↔ a ∈ pages ∧ m.pages a = some p := by
  simp only [Memory.seen, Option.ite_none_right_eq_some]

theorem seen_inside (inside : a ∈ pages) : (m.seen pages items).pages a = m.pages a := if_pos inside

theorem seen_outside (outside : a ∉ pages) : (m.seen pages items).pages a = none := if_neg outside

end

def signals : List (Event Key Value) → List (Signal ℕ (Call Key Value) (Outcome Value))
  | [] => []
  | .invoked t call :: rest => .invoked t call :: signals rest
  | .performed _ _ _ :: rest => signals rest
  | .returned t call outcome :: rest => .returned t call outcome :: signals rest

/-- The pages that some client owes to the level above. -/
def owed (gs : ℕ → Client Key Value) : Set GlobalAddress := {a | ∃ t d, (gs t).debt = some d ∧ d.right = a}

end Faunus.Sherman
