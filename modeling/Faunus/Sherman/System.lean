import Faunus.Interleaving.Traces
import Faunus.Sherman.Operations

/-! Clients of the Sherman tree side by side.

The shared state carries the history of the run. What an insert has done so far
determines its `path_stack`, the root it read and the page it works on.
-/

set_option autoImplicit false

namespace Faunus.Sherman

open Interleaving

inductive Event (Key Value : Type) where
  | invoked (t : ℕ) (call : Call Key Value)
  | performed (t : ℕ) (o : Op Key Value) (r : o.act.Reply)
  | returned (t : ℕ) (call : Call Key Value) (outcome : Outcome Value)

structure State (Key Value : Type) where
  memory : Memory Key Value
  history : List (Event Key Value)

section
variable {Key Value : Type}

def State.exec : Exec (signature Key Value) ℕ (BitVec 64) (State Key Value) :=
  fun t o c s =>
    match Memory.exec t o c s.memory with
    | some (r, m) => some (r, ⟨m, .performed t o r :: s.history⟩)
    | none => none

theorem State.exec_eq_some {t : ℕ} {o : Op Key Value} {c : BitVec 64} {s s' : State Key Value} {r : o.act.Reply}
    (performed : State.exec t o c s = some (r, s')) :
    Memory.exec t o c s.memory = some (r, s'.memory) ∧ s'.history = .performed t o r :: s.history := by
  unfold State.exec at performed
  split at performed
  · rename_i r' m eq
    cases performed
    exact ⟨eq, rfl⟩
  · cases performed

abbrev Done (Key Value : Type) := Sigma (signature Key Value).Reply

/-- What the thread has done since its last invocation, newest first. -/
def operations (t : ℕ) : List (Event Key Value) → List (Done Key Value)
  | [] => []
  | .invoked u _ :: rest => if t = u then [] else operations t rest
  | .performed u o r :: rest => if t = u then ⟨o, r⟩ :: operations t rest else operations t rest
  | .returned _ _ _ :: rest => operations t rest

/-- `path_stack`, which `before_operation` clears. -/
def pathOf : List (Done Key Value) → PathStack
  | [] => fun _ => .null
  | ⟨⟨.searchNode, .readPage a⟩, (p : Page Key)⟩ :: rest => Function.update (pathOf rest) p.hdr.level a
  | _ :: rest => pathOf rest

def rootOf : List (Done Key Value) → GlobalAddress
  | [] => .null
  | ⟨⟨_, .readRoot⟩, (a : GlobalAddress)⟩ :: _ => a
  | _ :: rest => rootOf rest

/-- The page that `insert_to_internal` locked last. -/
def heldOf : List (Done Key Value) → Option (GlobalAddress × Page Key)
  | [] => none
  | ⟨⟨.insertToInternal, .readPage a⟩, (p : Page Key)⟩ :: _ => some (a, p)
  | _ :: rest => heldOf rest

variable [LinearOrder Key] [BoundedOrder Key] [KeyBytes Key] [Bot Value] [DecidableEq Value]

def system (cfg : Config) : System (signature Key Value) ℕ (BitVec 64) (Call Key Value) (Outcome Value) (State Key Value) where
  exec := State.exec
  body := Call.body cfg
  admits _ _ _ := True
  env _ _ := False
  invoked t call s := { s with history := .invoked t call :: s.history }
  returned t call outcome s := { s with history := .returned t call outcome :: s.history }

theorem recorded_operations (cfg : Config) : Recorded (system cfg) fun t (s : State Key Value) => operations t s.history where
  invoke t call s u := rfl
  act t o c s r s' u performed := by
    rw [(State.exec_eq_some performed).2]
    rfl
  finish t call a s u := rfl
  env s s' u moved := moved.elim

end

end Faunus.Sherman
