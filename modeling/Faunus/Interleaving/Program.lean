import Mathlib.Logic.Function.Basic

/-! Programs over atomic operations.

A program is a well-founded tree of operations on a shared state. Local
computation happens between two operations; whatever another thread can see or
change happens inside one of them. Loops of a source program appear unrolled up
to a bound, so a bound that runs out is a program outcome of its own.
-/

set_option autoImplicit false

namespace Interleaving

structure Signature where
  Op : Type
  Reply : Op → Type

/-- `stuck` is a failed assertion or an exhausted loop bound; it takes no step. -/
inductive Program (I : Signature) (A : Type) where
  | value : A → Program I A
  | stuck : Program I A
  | perform : (o : I.Op) → (I.Reply o → Program I A) → Program I A

variable {I : Signature} {A B D : Type}

namespace Program

def bind : Program I A → (A → Program I B) → Program I B
  | .value a, f => f a
  | .stuck, _ => .stuck
  | .perform o next, f => .perform o fun r => (next r).bind f

instance : Monad (Program I) where
  pure := .value
  bind := Program.bind

@[simp] theorem pure_eq (a : A) : (pure a : Program I A) = .value a := rfl

@[simp] theorem value_bind (a : A) (f : A → Program I B) : (Program.value a >>= f) = f a := rfl

@[simp] theorem stuck_bind (f : A → Program I B) : ((Program.stuck : Program I A) >>= f) = .stuck := rfl

@[simp] theorem perform_bind (o : I.Op) (next : I.Reply o → Program I A) (f : A → Program I B) :
    (Program.perform o next >>= f) = .perform o fun r => next r >>= f := rfl

theorem bind_value (p : Program I A) : (p >>= Program.value) = p := by
  induction p with
  | value a => rfl
  | stuck => rfl
  | perform o next ih => simp only [perform_bind, ih]

theorem bind_bind (p : Program I A) (f : A → Program I B) (g : B → Program I D) :
    ((p >>= f) >>= g) = (p >>= fun a => f a >>= g) := by
  induction p with
  | value a => rfl
  | stuck => rfl
  | perform o next ih => simp only [perform_bind, ih]

instance : LawfulMonad (Program I) :=
  LawfulMonad.mk' (Program I) (fun p => bind_value p) (fun _ _ => rfl) bind_bind

end Program

/-- A complete run of a program: its operations with their replies, whatever these are, and its value. -/
inductive Yields : Program I A → List (Sigma I.Reply) → A → Prop where
  | value {a : A} : Yields (.value a) [] a
  | perform {o : I.Op} {next : I.Reply o → Program I A} {r : I.Reply o} {trace : List (Sigma I.Reply)} {a : A} :
      Yields (next r) trace a → Yields (.perform o next) (⟨o, r⟩ :: trace) a

theorem yields_value {a b : A} {trace : List (Sigma I.Reply)} (yields : Yields (.value a) trace b) : trace = [] ∧ b = a := by
  cases yields
  exact ⟨rfl, rfl⟩

theorem yields_stuck {a : A} {trace : List (Sigma I.Reply)} : ¬ Yields .stuck trace a := by
  intro yields
  cases yields

theorem yields_perform {o : I.Op} {next : I.Reply o → Program I A} {trace : List (Sigma I.Reply)} {a : A}
    (yields : Yields (.perform o next) trace a) : ∃ r rest, trace = ⟨o, r⟩ :: rest ∧ Yields (next r) rest a := by
  cases yields with
  | perform later => exact ⟨_, _, rfl, later⟩

theorem yields_bind {p : Program I A} {f : A → Program I B} {trace : List (Sigma I.Reply)} {b : B}
    (yields : Yields (p >>= f) trace b) :
    ∃ first a later, trace = first ++ later ∧ Yields p first a ∧ Yields (f a) later b := by
  induction p generalizing trace with
  | value a => exact ⟨[], a, trace, rfl, .value, yields⟩
  | stuck => exact absurd yields yields_stuck
  | perform o next ih =>
    obtain ⟨r, rest, rfl, later⟩ := yields_perform yields
    obtain ⟨first, a, last, rfl, one, two⟩ := ih r later
    exact ⟨⟨o, r⟩ :: first, a, last, rfl, .perform one, two⟩

theorem yields_operation {o : I.Op} {f : I.Reply o → Program I A} {trace : List (Sigma I.Reply)} {a : A}
    (yields : Yields (.perform o .value >>= f) trace a) : ∃ r rest, trace = ⟨o, r⟩ :: rest ∧ Yields (f r) rest a :=
  yields_perform yields

/-- One operation by one thread. The choice stands for everything the state does
not determine; an unavailable choice has no outcome. -/
abbrev Exec (I : Signature) (T C S : Type) := T → (o : I.Op) → C → S → Option (I.Reply o × S)

section Solo
variable {T C S : Type} (exec : Exec I T C S) (t : T) (rely : S → S → Prop) (waits : I.Op → Prop)

/-- Total correctness of a thread, for every choice and for every step of the others
between two operations: no operation blocks except those that may wait, no assertion
fails, no bound runs out, and the postcondition holds. -/
def Program.Total (post : A → S → Prop) : Program I A → S → Prop
  | .value a, s => post a s
  | .stuck, _ => False
  | .perform o next, s => ((∃ c r s', exec t o c s = some (r, s')) ∨ waits o) ∧
      ∀ c r s', exec t o c s = some (r, s') → ∀ s'', rely s' s'' → Program.Total post (next r) s''

variable {exec t rely waits}

theorem total_mono {p : Program I A} {post out : A → S → Prop} {s : S}
    (total : p.Total exec t rely waits post s) (implies : ∀ a s, post a s → out a s) :
    p.Total exec t rely waits out s := by
  induction p generalizing s with
  | value a => exact implies a s total
  | stuck => exact total
  | perform o next ih =>
    exact ⟨total.1, fun c r s' performed s'' moved => ih r (total.2 c r s' performed s'' moved)⟩

theorem total_bind {p : Program I A} {f : A → Program I B} {post : B → S → Prop} {s : S}
    (total : p.Total exec t rely waits (fun a s => (f a).Total exec t rely waits post s) s) :
    (p >>= f).Total exec t rely waits post s := by
  induction p generalizing s with
  | value a => exact total
  | stuck => exact total
  | perform o next ih =>
    exact ⟨total.1, fun c r s' performed s'' moved => ih r (total.2 c r s' performed s'' moved)⟩

theorem total_yields {p : Program I A} {post : A → S → Prop} {s : S} (total : p.Total exec t rely waits post s) :
    p.Total exec t rely waits (fun a s => post a s ∧ ∃ trace, Yields p trace a) s := by
  induction p generalizing s with
  | value a => exact ⟨total, [], .value⟩
  | stuck => exact total
  | perform o next ih =>
    refine ⟨total.1, fun c r s' performed s'' moved => ?_⟩
    refine total_mono (ih r (total.2 c r s' performed s'' moved)) ?_
    rintro a s ⟨holds, trace, yields⟩
    exact ⟨holds, ⟨o, r⟩ :: trace, .perform yields⟩

theorem total_perform {o : I.Op} {next : I.Reply o → Program I A} {post : A → S → Prop} {s s' : S} {r : I.Reply o}
    (performed : ∀ c, exec t o c s = some (r, s')) (choice : C)
    (later : ∀ s'', rely s' s'' → (next r).Total exec t rely waits post s'') :
    (Program.perform o next).Total exec t rely waits post s := by
  refine ⟨.inl ⟨choice, r, s', performed choice⟩, ?_⟩
  intro c r' s'' other
  cases (performed c).symm.trans other
  exact later

/-- Every run of the thread alone comes to an operation with the goal. -/
def Program.Eventually (exec : Exec I T C S) (t : T) (goal : I.Op → S → Prop) : Program I A → S → Prop
  | .value _, _ => False
  | .stuck, _ => False
  | .perform o next, s => goal o s ∨ (∃ c r s', exec t o c s = some (r, s')) ∧
      ∀ c r s', exec t o c s = some (r, s') → Program.Eventually exec t goal (next r) s'

theorem eventually_bind {goal : I.Op → S → Prop} {p : Program I A} {f : A → Program I B} {s : S}
    (reaches : p.Eventually exec t goal s) : (p >>= f).Eventually exec t goal s := by
  induction p generalizing s with
  | value a => exact reaches.elim
  | stuck => exact reaches.elim
  | perform o next ih =>
    rcases reaches with here | ⟨can, later⟩
    · exact .inl here
    · exact .inr ⟨can, fun c r s' performed => ih r (later c r s' performed)⟩

theorem eventually_perform {goal : I.Op → S → Prop} {o : I.Op} {next : I.Reply o → Program I A} {s s' : S} {r : I.Reply o}
    (performed : ∀ c, exec t o c s = some (r, s')) (choice : C) (later : (next r).Eventually exec t goal s') :
    (Program.perform o next).Eventually exec t goal s := by
  refine .inr ⟨⟨choice, r, s', performed choice⟩, ?_⟩
  intro c r' s'' other
  cases (performed c).symm.trans other
  exact later

/-- An operation with one outcome and without the goal leaves it to what follows. -/
theorem eventually_after {goal : I.Op → S → Prop} {o : I.Op} {next : I.Reply o → Program I A} {s s' : S} {r : I.Reply o} {c : C}
    (performed : exec t o c s = some (r, s')) (not : ¬ goal o s) (reaches : (Program.perform o next).Eventually exec t goal s) :
    (next r).Eventually exec t goal s' :=
  (reaches.resolve_left not).2 c r s' performed

/-- A run of the thread alone, one choice for each operation. -/
def Program.run (exec : Exec I T C S) (t : T) : Program I A → List C → S → Option (A × S)
  | .value a, _, s => some (a, s)
  | .perform o next, c :: rest, s => (exec t o c s).bind fun reply => (next reply.1).run exec t rest reply.2
  | _, _, _ => none

theorem run_perform {o : I.Op} {next : I.Reply o → Program I A} {c : C} {rest : List C} {s s' : S} {r : I.Reply o}
    (performed : exec t o c s = some (r, s')) :
    (Program.perform o next).run exec t (c :: rest) s = (next r).run exec t rest s' := by
  simp [Program.run, performed]

theorem total_run (reflexive : ∀ s, rely s s) {p : Program I A} {post : A → S → Prop} {s : S} {choices : List C} {a : A} {s' : S}
    (total : p.Total exec t rely waits post s) (ran : p.run exec t choices s = some (a, s')) : post a s' := by
  induction p generalizing choices s with
  | value b =>
    cases ran
    exact total
  | stuck => exact total.elim
  | perform o next ih =>
    cases choices with
    | nil => cases ran
    | cons c rest =>
      obtain ⟨⟨r, s₁⟩, performed, later⟩ := Option.bind_eq_some_iff.1 ran
      exact ih r (total.2 c r s₁ performed s₁ (reflexive s₁)) later

/-- Whether the run with the given choices comes to a failed assertion or the end of a bound. -/
def Program.fails (exec : Exec I T C S) (t : T) : Program I A → List C → S → Bool
  | .stuck, _, _ => true
  | .perform o next, c :: rest, s =>
    match exec t o c s with
    | some (r, s') => (next r).fails exec t rest s'
    | none => false
  | _, _, _ => false

theorem total_not_fails (reflexive : ∀ s, rely s s) {p : Program I A} {post : A → S → Prop} {s : S} {choices : List C}
    (total : p.Total exec t rely waits post s) : p.fails exec t choices s = false := by
  induction p generalizing choices s with
  | value a => rfl
  | stuck => exact total.elim
  | perform o next ih =>
    cases choices with
    | nil => rfl
    | cons c rest =>
      unfold Program.fails
      split
      · rename_i r s' performed
        exact ih r (total.2 c r s' performed s' (reflexive s'))
      · rfl

/-- A run of the thread alone, complete or not, performs the operation and gets the reply. -/
inductive Performs (exec : Exec I T C S) (t : T) : Program I A → S → (o : I.Op) → I.Reply o → Prop where
  | now {o : I.Op} {next : I.Reply o → Program I A} {c : C} {s s' : S} {r : I.Reply o} : exec t o c s = some (r, s') →
      Performs exec t (.perform o next) s o r
  | later {o o' : I.Op} {next : I.Reply o → Program I A} {c : C} {s s' : S} {r : I.Reply o} {r' : I.Reply o'} :
    exec t o c s = some (r, s') →
      Performs exec t (next r) s' o' r' → Performs exec t (.perform o next) s o' r'

/-- Whether the run with the given choices comes to an operation of the kind. -/
def Program.reachesKind (exec : Exec I T C S) (t : T) (kind : I.Op → Bool) : Program I A → List C → S → Bool
  | .perform o next, c :: rest, s =>
    match exec t o c s with
    | some (r, s') => kind o || (next r).reachesKind exec t kind rest s'
    | none => false
  | _, _, _ => false

theorem performs_of_reachesKind {kind : I.Op → Bool} {p : Program I A} {choices : List C} {s : S}
    (reaches : p.reachesKind exec t kind choices s = true) : ∃ o r, kind o = true ∧ Performs exec t p s o r := by
  induction p generalizing choices s with
  | value a => cases reaches
  | stuck => cases reaches
  | perform o next ih =>
    cases choices with
    | nil => cases reaches
    | cons c rest =>
      unfold Program.reachesKind at reaches
      split at reaches
      · rename_i r s' performed
        rcases Bool.or_eq_true_iff.1 reaches with here | later
        · exact ⟨o, r, here, .now performed⟩
        · obtain ⟨o', r', found, performs⟩ := ih r later
          exact ⟨o', r', found, .later performed performs⟩
      · cases reaches

end Solo

end Interleaving
