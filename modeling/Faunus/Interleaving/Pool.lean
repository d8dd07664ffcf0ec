import Faunus.Interleaving.Program
import Mathlib.Logic.Relation

/-! Pools of threads that interleave at single operations.

Every thread is idle or runs the body of one call. A step of the pool is an
invocation, one operation of one thread, a return, or a step of the environment.
The bookkeeping of invocations and returns is part of the shared state, so that
properties of whole histories are properties of reachable states.
-/

set_option autoImplicit false

namespace Interleaving

structure System (I : Signature) (T C Call A S : Type) where
  exec : Exec I T C S
  body : Call → Program I A
  /-- The calls a thread may make in a state. -/
  admits : S → T → Call → Prop
  /-- What happens besides the threads. -/
  env : S → S → Prop
  invoked : T → Call → S → S
  returned : T → Call → A → S → S

/-- A call in progress: what remains of its body, and what it has done, newest first. -/
structure Activity (I : Signature) (Call A : Type) where
  call : Call
  rest : Program I A
  done : List (Sigma I.Reply)

structure Pool (I : Signature) (T Call A S : Type) where
  shared : S
  threads : T → Option (Activity I Call A)

variable {I : Signature} {T C Call A B S G : Type}

def Pool.start (s : S) : Pool I T Call A S := ⟨s, fun _ => none⟩

/-- No call is in progress. -/
def Pool.Quiescent (P : Pool I T Call A S) : Prop := ∀ t, P.threads t = none

/-- A condition on single operations: the thread, the operation, its reply and the state before it. -/
abbrev Condition (I : Signature) (T S : Type) := T → (o : I.Op) → I.Reply o → S → Prop

variable [DecidableEq T]

def Pool.set (P : Pool I T Call A S) (t : T) (activity : Option (Activity I Call A)) (s : S) :
    Pool I T Call A S :=
  ⟨s, Function.update P.threads t activity⟩

@[simp] theorem Pool.set_shared (P : Pool I T Call A S) (t : T) (activity : Option (Activity I Call A)) (s : S) :
    (P.set t activity s).shared = s := rfl

@[simp] theorem Pool.set_threads (P : Pool I T Call A S) (t : T) (activity : Option (Activity I Call A)) (s : S) :
    (P.set t activity s).threads = Function.update P.threads t activity := rfl

section Steps
variable (sys : System I T C Call A S) (assume : Condition I T S)

/-- One step of the pool in which every operation meets the condition. -/
inductive Step : Pool I T Call A S → Pool I T Call A S → Prop where
  | invoke {P : Pool I T Call A S} {t : T} {call : Call} :
      P.threads t = none → sys.admits P.shared t call →
      Step P (P.set t (some ⟨call, sys.body call, []⟩) (sys.invoked t call P.shared))
  | act {P : Pool I T Call A S} {t : T} {call : Call} {o : I.Op} {next : I.Reply o → Program I A}
      {done : List (Sigma I.Reply)} {c : C} {r : I.Reply o} {s : S} :
      P.threads t = some ⟨call, .perform o next, done⟩ → sys.exec t o c P.shared = some (r, s) →
      assume t o r P.shared → Step P (P.set t (some ⟨call, next r, ⟨o, r⟩ :: done⟩) s)
  | return {P : Pool I T Call A S} {t : T} {call : Call} {a : A} {done : List (Sigma I.Reply)} :
      P.threads t = some ⟨call, .value a, done⟩ →
      Step P (P.set t none (sys.returned t call a P.shared))
  | environment {P : Pool I T Call A S} {s : S} :
      sys.env P.shared s → Step P ⟨s, P.threads⟩

def Reaches : Pool I T Call A S → Pool I T Call A S → Prop :=
  Relation.ReflTransGen (Step sys assume)

end Steps

/-- A condition that every operation of a run meets because of the run before it. -/
theorem reaches_stronger {sys : System I T C Call A S} {assume strong : Condition I T S} {start P : Pool I T Call A S}
    (run : Reaches sys assume start P)
    (meets : ∀ Q t call o next done c r s, Reaches sys strong start Q → Q.threads t = some ⟨call, .perform o next, done⟩ →
      sys.exec t o c Q.shared = some (r, s) → assume t o r Q.shared → strong t o r Q.shared) : Reaches sys strong start P := by
  induction run with
  | refl => exact .refl
  | @tail Q _ _ step ih =>
    refine .tail ih ?_
    cases step with
    | invoke free admitted => exact .invoke free admitted
    | @act t call o next done c r s running performed met =>
      exact .act running performed (meets Q t call o next done c r s ih running performed met)
    | «return» running => exact .return running
    | environment moved => exact .environment moved

open Classical in
/-- The system whose operations are only possible where they meet a condition. -/
noncomputable def System.guarded (sys : System I T C Call A S) (guard : Condition I T S) : System I T C Call A S :=
  { sys with exec := fun t o c s => (sys.exec t o c s).filter fun done => guard t o done.1 s }

omit [DecidableEq T] in
theorem System.guarded_exec {sys : System I T C Call A S} {guard : Condition I T S} {t : T} {o : I.Op} {c : C} {s s' : S}
    {r : I.Reply o} : (sys.guarded guard).exec t o c s = some (r, s') ↔ sys.exec t o c s = some (r, s') ∧ guard t o r s := by
  simp [System.guarded, Option.filter_eq_some_iff]

/-- A run whose operations meet a condition is a run of the guarded system. -/
theorem reaches_guarded {sys : System I T C Call A S} {guard assume : Condition I T S} {start P : Pool I T Call A S}
    (implies : ∀ t o r s, assume t o r s → guard t o r s) (run : Reaches sys assume start P) :
    Reaches (sys.guarded guard) assume start P := by
  induction run with
  | refl => exact .refl
  | tail _ step ih =>
    refine .tail ih ?_
    cases step with
    | invoke free admitted => exact .invoke free admitted
    | act running performed met =>
      exact .act running (System.guarded_exec.2 ⟨performed, implies _ _ _ _ met⟩) met
    | «return» running => exact .return running
    | environment moved => exact .environment moved

/-- What a running call has done and what it will do make up a run of its body. -/
theorem reaches_yields {sys : System I T C Call A S} {assume : Condition I T S} {s : S} {P : Pool I T Call A S}
    (run : Reaches sys assume (Pool.start s) P) {t : T} {activity : Activity I Call A}
    (running : P.threads t = some activity) {trace : List (Sigma I.Reply)} {a : A}
    (rest : Yields activity.rest trace a) : Yields (sys.body activity.call) (activity.done.reverse ++ trace) a := by
  induction run generalizing t activity trace with
  | refl => simp [Pool.start] at running
  | tail _ step ih =>
    cases step with
    | @invoke u call free admitted =>
      by_cases same : t = u
      · subst same
        simp only [Pool.set_threads, Function.update_self, Option.some.injEq] at running
        subst running
        exact rest
      · exact ih (by simpa [Function.update_of_ne same] using running) rest
    | @act u call o next done c r s' before performed met =>
      by_cases same : t = u
      · subst same
        simp only [Pool.set_threads, Function.update_self, Option.some.injEq] at running
        subst running
        simpa using ih before (.perform rest)
      · exact ih (by simpa [Function.update_of_ne same] using running) rest
    | @«return» u call b done before =>
      by_cases same : t = u
      · subst same
        simp at running
      · exact ih (by simpa [Function.update_of_ne same] using running) rest
    | environment moved => exact ih running rest

/-- Every operation. -/
def anything : Condition I T S := fun _ _ _ _ => True

/-! ## Calls that run alone -/

section Alone
variable {sys : System I T C Call A S} {P : Pool I T Call A S} {t : T} {call : Call}

theorem Pool.set_set (P : Pool I T Call A S) (t : T) (one two : Option (Activity I Call A)) (s s' : S) :
    (P.set t one s).set t two s' = P.set t two s' := by
  simp only [Pool.set, Function.update_idem]

theorem reaches_run {p : Program I A} {done : List (Sigma I.Reply)} {choices : List C} {s s' : S} {a : A}
    (ran : p.run sys.exec t choices s = some (a, s')) :
    ∃ done', Reaches sys anything (P.set t (some ⟨call, p, done⟩) s) (P.set t (some ⟨call, .value a, done'⟩) s') := by
  -- a running call goes on by itself until it has a value
  induction p generalizing choices s done with
  | value b =>
    cases ran
    exact ⟨done, .refl⟩
  | stuck => cases ran
  | perform o next ih =>
    cases choices with
    | nil => cases ran
    | cons c rest =>
      obtain ⟨⟨r, s₁⟩, performed, later⟩ := Option.bind_eq_some_iff.1 ran
      have running : (P.set t (some ⟨call, .perform o next, done⟩) s).threads t = some ⟨call, .perform o next, done⟩ :=
        Function.update_self ..
      have acts : Step sys anything (P.set t (some ⟨call, .perform o next, done⟩) s)
        (P.set t (some ⟨call, next r, ⟨o, r⟩ :: done⟩) s₁) := by
        have step : Step sys anything (P.set t (some ⟨call, .perform o next, done⟩) s)
          (Pool.set _ t (some ⟨call, next r, ⟨o, r⟩ :: done⟩) s₁) :=
          .act running performed trivial
        rwa [Pool.set_set] at step
      obtain ⟨done', goes⟩ : ∃ done', Reaches sys anything (P.set t (some ⟨call, next r, ⟨o, r⟩ :: done⟩) s₁)
        (P.set t (some ⟨call, .value a, done'⟩) s') :=
        ih r later
      exact ⟨done', .head acts goes⟩

theorem reaches_return {p : Program I A} {done : List (Sigma I.Reply)} {choices : List C} {s' : S} {a : A}
    (running : P.threads t = some ⟨call, p, done⟩)
    (ran : p.run sys.exec t choices P.shared = some (a, s')) : Reaches sys anything P (P.set t none (sys.returned t call a s')) := by
  obtain ⟨done', goes⟩ : ∃ done', Reaches sys anything (P.set t (some ⟨call, p, done⟩) P.shared)
    (P.set t (some ⟨call, .value a, done'⟩) s') := reaches_run ran
  have same : P.set t (some ⟨call, p, done⟩) P.shared = P := by
    rw [Pool.set, Function.update_eq_self_iff.2 running.symm]
  rw [same] at goes
  have valued : (P.set t (some ⟨call, .value a, done'⟩) s').threads t = some ⟨call, .value a, done'⟩ := Function.update_self ..
  have returns : Step sys anything (P.set t (some ⟨call, .value a, done'⟩) s') (P.set t none (sys.returned t call a s')) := by
    rw [← Pool.set_set P t (some ⟨call, .value a, done'⟩) none s']
    exact .return valued
  exact .tail goes returns

/-- A whole call of an idle thread, with no step of any other in between. -/
theorem reaches_call {choices : List C} {s' : S} {a : A} (free : P.threads t = none) (admitted : sys.admits P.shared t call)
    (ran : (sys.body call).run sys.exec t choices (sys.invoked t call P.shared) = some (a, s')) :
    Reaches sys anything P ⟨sys.returned t call a s', P.threads⟩ := by
  have back : P.set t none (sys.returned t call a s') = ⟨sys.returned t call a s', P.threads⟩ := by
    rw [Pool.set, Function.update_eq_self_iff.2 free.symm]
  have goes := reaches_return (P := P.set t (some ⟨call, sys.body call, []⟩) (sys.invoked t call P.shared))
    (Function.update_self ..) ran
  rw [Pool.set_set, back] at goes
  exact .head (.invoke free admitted) goes

theorem reaches_opening {o : I.Op} {next : I.Reply o → Program I A} {c : C} {r : I.Reply o} {s' : S} (free : P.threads t = none)
    (admitted : sys.admits P.shared t call) (opens : sys.body call = .perform o next)
    (performed : sys.exec t o c (sys.invoked t call P.shared) = some (r, s')) :
    Reaches sys anything P (P.set t (some ⟨call, next r, [⟨o, r⟩]⟩) s') := by
  have running : (P.set t (some ⟨call, sys.body call, []⟩) (sys.invoked t call P.shared)).threads t = some
    ⟨call, .perform o next, []⟩ := by
    rw [← opens]
    exact Function.update_self ..
  have acts : Step sys anything (P.set t (some ⟨call, sys.body call, []⟩) (sys.invoked t call P.shared))
    (P.set t (some ⟨call, next r, [⟨o, r⟩]⟩) s') := by
    rw [← Pool.set_set P t (some ⟨call, sys.body call, []⟩) (some ⟨call, next r, [⟨o, r⟩]⟩) (sys.invoked t call P.shared)]
    exact .act running performed trivial
  exact .head (.invoke free admitted) (.single acts)

end Alone

/-! ## Schedules

A schedule drives a pool by concrete moves; what it computes is a run. -/

inductive Move (T C Call : Type) where
  | invoke : T → Call → Move T C Call
  | act : T → C → Move T C Call
  | return : T → Move T C Call

def Move.thread {T C Call : Type} : Move T C Call → T
  | .invoke t _ => t
  | .act t _ => t
  | .return t => t

/-- A call and its first steps, all with one choice. -/
def Move.part {T C Call : Type} (t : T) (call : Call) (c : C) (steps : Nat) : List (Move T C Call) :=
  .invoke t call :: List.replicate steps (.act t c)

/-- A call that returns after so many steps. -/
def Move.whole {T C Call : Type} (t : T) (call : Call) (c : C) (steps : Nat) : List (Move T C Call) :=
  Move.part t call c steps ++ [.return t]

/-- A condition that can be computed. -/
abbrev Test (I : Signature) (T S : Type) := T → (o : I.Op) → I.Reply o → S → Bool

def freely : Test I T S := fun _ _ _ _ => true

section Schedules
variable (sys : System I T C Call A S) (admits : S → T → Call → Bool) (allows : Test I T S)

def Pool.move (P : Pool I T Call A S) : Move T C Call → Option (Pool I T Call A S)
  | .invoke t call =>
    match P.threads t with
    | none =>
      if admits P.shared t call then
        some (P.set t (some ⟨call, sys.body call, []⟩) (sys.invoked t call P.shared))
      else none
    | some _ => none
  | .act t c =>
    match P.threads t with
    | some ⟨call, .perform o next, done⟩ =>
      match sys.exec t o c P.shared with
      | some (r, s) =>
        if allows t o r P.shared then some (P.set t (some ⟨call, next r, ⟨o, r⟩ :: done⟩) s) else none
      | none => none
    | _ => none
  | .return t =>
    match P.threads t with
    | some ⟨call, .value a, _⟩ => some (P.set t none (sys.returned t call a P.shared))
    | _ => none

def Pool.follow (P : Pool I T Call A S) : List (Move T C Call) → Option (Pool I T Call A S)
  | [] => some P
  | m :: rest => (P.move sys admits allows m).bind fun P' => P'.follow rest

/-- Where a schedule leads, or nowhere if one of its moves is not possible. -/
def Pool.drive (P : Pool I T Call A S) (moves : List (Move T C Call)) : Pool I T Call A S :=
  (P.follow sys admits allows moves).getD P

variable {sys admits allows} {assume : Condition I T S}

theorem step_of_move (sound : ∀ s t call, admits s t call = true → sys.admits s t call)
    (meets : ∀ t o r s, allows t o r s = true → assume t o r s)
    {P P' : Pool I T Call A S} {m : Move T C Call} (moved : P.move sys admits allows m = some P') :
    Step sys assume P P' := by
  cases m with
  | invoke t call =>
    simp only [Pool.move] at moved
    split at moved
    · rename_i free
      split at moved
      · rename_i ok
        cases moved
        exact .invoke free (sound _ _ _ ok)
      · cases moved
    · cases moved
  | act t c =>
    simp only [Pool.move] at moved
    split at moved
    · rename_i call o next done running
      split at moved
      · rename_i r s performed
        split at moved
        · rename_i allowed
          cases moved
          exact .act running performed (meets _ _ _ _ allowed)
        · cases moved
      · cases moved
    · cases moved
  | «return» t =>
    simp only [Pool.move] at moved
    split at moved
    · rename_i call a done running
      cases moved
      exact .return running
    · cases moved

theorem reaches_of_follow (sound : ∀ s t call, admits s t call = true → sys.admits s t call)
    (meets : ∀ t o r s, allows t o r s = true → assume t o r s)
    {P P' : Pool I T Call A S} {moves : List (Move T C Call)} (followed : P.follow sys admits allows moves = some P') :
    Reaches sys assume P P' := by
  induction moves generalizing P with
  | nil =>
    cases followed
    exact .refl
  | cons m rest ih =>
    simp only [Pool.follow, Option.bind_eq_some_iff] at followed
    obtain ⟨Q, first, later⟩ := followed
    exact .head (step_of_move sound meets first) (ih later)

theorem reaches_drive (sound : ∀ s t call, admits s t call = true → sys.admits s t call)
    (meets : ∀ t o r s, allows t o r s = true → assume t o r s)
    (P : Pool I T Call A S) (moves : List (Move T C Call)) : Reaches sys assume P (P.drive sys admits allows moves) := by
  unfold Pool.drive
  cases followed : P.follow sys admits allows moves with
  | none => exact .refl
  | some P' => exact reaches_of_follow sound meets followed

theorem move_untouched {P P' : Pool I T Call A S} {m : Move T C Call} {t : T} (other : t ≠ m.thread)
    (moved : P.move sys admits allows m = some P') :
    P'.threads t = P.threads t := by
  cases m with
  | invoke u call =>
    simp only [Pool.move] at moved
    split at moved
    · split at moved
      · cases moved
        exact Function.update_of_ne other _ _
      · cases moved
    · cases moved
  | act u c =>
    simp only [Pool.move] at moved
    split at moved
    · split at moved
      · split at moved
        · cases moved
          exact Function.update_of_ne other _ _
        · cases moved
      · cases moved
    · cases moved
  | «return» u =>
    simp only [Pool.move] at moved
    split at moved
    · cases moved
      exact Function.update_of_ne other _ _
    · cases moved

theorem drive_untouched (P : Pool I T Call A S) (moves : List (Move T C Call)) {t : T} (other : ∀ m ∈ moves, t ≠ m.thread) :
    (P.drive sys admits allows moves).threads t = P.threads t := by
  -- a schedule leaves the threads alone that it does not name
  have follows : ∀ (moves : List (Move T C Call)) (P P' : Pool I T Call A S), (∀ m ∈ moves, t ≠ m.thread) →
      P.follow sys admits allows moves = some P' → P'.threads t = P.threads t := by
    intro moves
    induction moves with
    | nil =>
      intro P P' _ followed
      cases followed
      rfl
    | cons m rest ih =>
      intro P P' other followed
      simp only [Pool.follow, Option.bind_eq_some_iff] at followed
      obtain ⟨Q, first, later⟩ := followed
      rw [ih Q P' (fun x member => other x (List.mem_cons_of_mem _ member)) later, move_untouched (other m List.mem_cons_self) first]
  unfold Pool.drive
  cases followed : P.follow sys admits allows moves with
  | none => rfl
  | some P' => exact follows moves P P' other followed

end Schedules

end Interleaving
