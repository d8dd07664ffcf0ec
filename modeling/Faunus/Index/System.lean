import Faunus.Index.Operations
import Faunus.Interleaving.Pool

/-! The index as a pool of threads over one memory.

The shared state carries the history of the run, so that a condition on a step
may speak about what happened before it.
-/

set_option autoImplicit false

namespace Faunus

open Interleaving

inductive Event (Key Value : Type) where
  | invoked (t : Thread) (call : Call Key Value)
  | performed (t : Thread) (o : Op Key Value) (r : o.act.Reply) (before : Memory Key Value)
  | returned (t : Thread) (call : Call Key Value) (outcome : Outcome Value)

structure State (Key Value : Type) where
  memory : Memory Key Value
  history : List (Event Key Value)

abbrev IndexPool (Key Value : Type) := Pool (signature Key Value) Thread (Call Key Value) (Outcome Value) (State Key Value)

section
variable {Key Value : Type}

def State.exec (usable : GlobalAddress → Bool) : Exec (signature Key Value) Thread (BitVec 64) (State Key Value) :=
  fun t o c s =>
    match Memory.exec usable t o c s.memory with
    | some (r, m) => some (r, ⟨m, .performed t o r s.memory :: s.history⟩)
    | none => none

theorem State.exec_eq_some {usable : GlobalAddress → Bool} {t : Thread} {o : Op Key Value} {c : BitVec 64}
    {s s' : State Key Value} {r : o.act.Reply} (performed : State.exec usable t o c s = some (r, s')) :
    Memory.exec usable t o c s.memory = some (r, s'.memory) ∧
      s'.history = .performed t o r s.memory :: s.history := by
  unfold State.exec at performed
  split at performed
  · rename_i r' m eq
    cases performed
    exact ⟨eq, rfl⟩
  · cases performed

variable [LinearOrder Key] [BoundedOrder Key] [KeyBytes Key]

/-- The calls that are made and what else happens differ between results. -/
def system (cfg : Config) (admits : State Key Value → Thread → Call Key Value → Prop)
    (env : Memory Key Value → Memory Key Value → Prop) :
    System (signature Key Value) Thread (BitVec 64) (Call Key Value) (Outcome Value) (State Key Value) where
  exec := State.exec cfg.usable
  body := Call.body cfg
  admits := admits
  env s s' := env s.memory s'.memory ∧ s'.history = s.history
  invoked t call s := { s with history := .invoked t call :: s.history }
  returned t call outcome s := { s with history := .returned t call outcome :: s.history }

omit [KeyBytes Key] in
/-- Memory as `initialize` leaves it. -/
structure Memory.Initialized (m : Memory Key Value) : Prop where
  nodes : m.nodes = Function.update (fun _ => none) m.rootOffset (some (.leaf (.init (⊥, ⊤))))
  nodesIssued : m.nodesIssued = [m.rootOffset]
  itemsIssued : m.itemsIssued = []
  freeItems : m.freeItems = fun _ => []
  queue : m.queue = []

omit [KeyBytes Key] in
def Memory.emptyTree (root : GlobalAddress) (items : GlobalAddress → KVItem Key Value) : Memory Key Value where
  rootOffset := root
  nodes := Function.update (fun _ => none) root (some (.leaf (.init (⊥, ⊤))))
  items := items
  nodesIssued := [root]
  itemsIssued := []
  freeItems _ := []
  queue := []

omit [KeyBytes Key] in
theorem Memory.emptyTree_initialized (root : GlobalAddress) (items : GlobalAddress → KVItem Key Value) :
    (Memory.emptyTree root items).Initialized :=
  ⟨rfl, rfl, rfl, rfl, rfl⟩

end

def smallConfig : Config where
  branchFactor := 4
  splitThreshold := 3
  maintenance := false
  maxAttempts := 4
  loopBound := 4
  usable := fun _ => true
  expectedPointer := 0

instance byteBounds : BoundedOrder (Fin 256) := inferInstance

instance byteBot : Bot (Fin 256) := byteBounds.toBot

instance byteTop : Top (Fin 256) := byteBounds.toTop

def firstKey : Fin 256 := ⟨1, by decide⟩

def secondKey : Fin 256 := ⟨2, by decide⟩

def thirdKey : Fin 256 := ⟨3, by decide⟩

def fourthKey : Fin 256 := ⟨4, by decide⟩

def fifthKey : Fin 256 := ⟨5, by decide⟩

def smallMemory : Memory (Fin 256) ℕ := .emptyTree ⟨0⟩ fun _ => ⟨0, 0⟩

end Faunus
