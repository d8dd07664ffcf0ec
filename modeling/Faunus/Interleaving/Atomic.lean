import Mathlib.Logic.Function.Basic

/-! Atomic objects.

An object has a state that calls read and change. Its history lists invocations and
returns. The object is atomic when every call takes effect in one step between the
two; histories of atomic objects are the linearizable ones.
-/

set_option autoImplicit false

namespace Interleaving

/-- What can be seen of a call. -/
inductive Signal (T Call A : Type) where
  | invoked (t : T) (call : Call)
  | returned (t : T) (call : Call) (a : A)

/-- How far the call of a thread is. -/
inductive Progress (Call A : Type) where
  | idle
  | called (call : Call)
  | effected (call : Call) (a : A)

variable {T Call A M : Type} [DecidableEq T]

/-- The histories of an atomic object, newest first, with its state and the calls in progress. -/
inductive Atomic (behaves : Call → M → A → M → Prop) (start : M) : List (Signal T Call A) → M → (T → Progress Call A) → Prop where
  | start : Atomic behaves start [] start fun _ => .idle
  | invoke {history : List (Signal T Call A)} {m : M} {progress : T → Progress Call A} {t : T} {call : Call} :
      Atomic behaves start history m progress → progress t = .idle →
      Atomic behaves start (.invoked t call :: history) m (Function.update progress t (.called call))
  | effect {history : List (Signal T Call A)} {m m' : M} {progress : T → Progress Call A} {t : T} {call : Call} {a : A} :
      Atomic behaves start history m progress → progress t = .called call → behaves call m a m' →
      Atomic behaves start history m' (Function.update progress t (.effected call a))
  | return {history : List (Signal T Call A)} {m : M} {progress : T → Progress Call A} {t : T} {call : Call} {a : A} :
      Atomic behaves start history m progress → progress t = .effected call a →
      Atomic behaves start (.returned t call a :: history) m (Function.update progress t .idle)

variable {behaves : Call → M → A → M → Prop} {start m m' : M} {history : List (Signal T Call A)} {progress : T → Progress Call A}
  {t : T} {call : Call} {a : A}

theorem Atomic.finish (atomic : Atomic behaves start history m progress) (called : progress t = .called call)
    (behaved : behaves call m a m') :
    Atomic behaves start (.returned t call a :: history) m' (Function.update progress t .idle) := by
  have effected : Atomic behaves start history m' (Function.update progress t (.effected call a)) := .effect atomic called behaved
  have returned := Atomic.return effected (Function.update_self ..)
  rwa [Function.update_idem] at returned

end Interleaving
