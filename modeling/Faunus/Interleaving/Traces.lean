import Faunus.Interleaving.Pool

/-! Programs that are judged by what they have done.

A program keeps its obligations when each operation fits what was done before it, as
long as the replies are as expected. In a pool, replies are as expected because of an
invariant of the shared state and the condition on the steps.
-/

set_option autoImplicit false

namespace Interleaving

variable {I : Signature} {T C Call A B S : Type}

section Programs
variable (fits : List (Sigma I.Reply) → I.Op → Prop) (expects : List (Sigma I.Reply) → (o : I.Op) → I.Reply o → Prop)

/-- What was done stands newest first. -/
def Program.Traced (post : A → List (Sigma I.Reply) → Prop) : Program I A → List (Sigma I.Reply) → Prop
  | .value a, done => post a done
  | .stuck, _ => True
  | .perform o next, done => fits done o ∧ ∀ r, expects done o r → Program.Traced post (next r) (⟨o, r⟩ :: done)

variable {fits expects}

theorem traced_mono {p : Program I A} {post out : A → List (Sigma I.Reply) → Prop} {done : List (Sigma I.Reply)}
    (traced : p.Traced fits expects post done) (implies : ∀ a done, post a done → out a done) :
    p.Traced fits expects out done := by
  induction p generalizing done with
  | value a => exact implies a done traced
  | stuck => trivial
  | perform o next ih => exact ⟨traced.1, fun r expected => ih r (traced.2 r expected)⟩

theorem traced_bind {p : Program I A} {f : A → Program I B} {post : B → List (Sigma I.Reply) → Prop} {done : List (Sigma I.Reply)}
    (traced : p.Traced fits expects (fun a done => (f a).Traced fits expects post done) done) :
    (p >>= f).Traced fits expects post done := by
  induction p generalizing done with
  | value a => exact traced
  | stuck => trivial
  | perform o next ih => exact ⟨traced.1, fun r expected => ih r (traced.2 r expected)⟩

end Programs

/-! ## One thread alone -/

section Alone
variable (fits : I.Op → Prop) (expects : (o : I.Op) → I.Reply o → Prop)

/-- Every operation fits, whatever was done before it, as long as the replies are as expected. -/
def Program.Minds : Program I A → Prop
  | .value _ => True
  | .stuck => True
  | .perform o next => fits o ∧ ∀ r, expects o r → Program.Minds (next r)

variable {fits expects}

theorem minds_bind {p : Program I A} {f : A → Program I B} (first : p.Minds fits expects) (second : ∀ a, (f a).Minds fits expects) :
    (p >>= f).Minds fits expects := by
  induction p with
  | value a => exact second a
  | stuck => trivial
  | perform o next ih => exact ⟨first.1, fun r expected => ih r (first.2 r expected)⟩

variable {exec : Exec I T C S} {t : T} {inv : S → Prop}
  (upholds : ∀ o c s r s', inv s → exec t o c s = some (r, s') → fits o → inv s' ∧ expects o r)
include upholds

theorem minds_performs {p : Program I A} (minds : p.Minds fits expects) {s : S} (holds : inv s) {o : I.Op} {r : I.Reply o}
    (performs : Performs exec t p s o r) : fits o ∧ expects o r := by
  induction performs with
  | now performed => exact ⟨minds.1, (upholds _ _ _ _ _ holds performed minds.1).2⟩
  | later performed _ ih =>
    obtain ⟨kept, expected⟩ := upholds _ _ _ _ _ holds performed minds.1
    exact ih (minds.2 _ expected) kept

theorem minds_run {p : Program I A} (minds : p.Minds fits expects) {s s' : S} (holds : inv s) {choices : List C} {a : A}
    (ran : p.run exec t choices s = some (a, s')) : inv s' := by
  induction p generalizing choices s with
  | value b =>
    cases ran
    exact holds
  | stuck => cases ran
  | perform o next ih =>
    cases choices with
    | nil => cases ran
    | cons c rest =>
      obtain ⟨⟨r, s₁⟩, performed, later⟩ := Option.bind_eq_some_iff.1 ran
      obtain ⟨kept, expected⟩ := upholds _ _ _ _ _ holds performed minds.1
      exact ih r (minds.2 r expected) kept later

end Alone

/-- The shared state tells what each thread has done in its current call. -/
structure Recorded [DecidableEq T] (sys : System I T C Call A S) (operations : T → S → List (Sigma I.Reply)) : Prop where
  invoke : ∀ t call s u, operations u (sys.invoked t call s) = if u = t then [] else operations u s
  act : ∀ t o c s r s' u, sys.exec t o c s = some (r, s') →
    operations u s' = if u = t then ⟨o, r⟩ :: operations u s else operations u s
  finish : ∀ t call a s u, operations u (sys.returned t call a s) = operations u s
  env : ∀ s s' u, sys.env s s' → operations u s' = operations u s

section Pools
variable [DecidableEq T] (sys : System I T C Call A S) (operations : T → S → List (Sigma I.Reply)) (inv : S → Prop)
  (fits : List (Sigma I.Reply) → I.Op → Prop) (expects : List (Sigma I.Reply) → (o : I.Op) → I.Reply o → Prop)
  (post : Call → A → List (Sigma I.Reply) → Prop) (assume : Condition I T S)

/-- Steps that fit keep the invariant and get the replies they expect. -/
structure Upholds : Prop where
  invoke : ∀ t call s, inv s → inv (sys.invoked t call s)
  act : ∀ t o c s r s', inv s → sys.exec t o c s = some (r, s') → assume t o r s → fits (operations t s) o →
    inv s' ∧ expects (operations t s) o r
  finish : ∀ t call a s, inv s → post call a (operations t s) → inv (sys.returned t call a s)
  env : ∀ s s', inv s → sys.env s s' → inv s'

/-- Every call in progress has done what is on record and keeps its obligations. -/
structure Keeping (P : Pool I T Call A S) : Prop where
  holds : inv P.shared
  running : ∀ t activity, P.threads t = some activity →
    operations t P.shared = activity.done ∧ activity.rest.Traced fits expects (post activity.call) activity.done

variable {sys operations inv fits expects post assume}

theorem Keeping.step {P P' : Pool I T Call A S} (keeping : Keeping operations inv fits expects post P)
    (recorded : Recorded sys operations)
    (upholds : Upholds sys operations inv fits expects post assume)
    (bodies : ∀ s t call, sys.admits s t call → (sys.body call).Traced fits expects (post call) []) (step : Step sys assume P P') :
    Keeping operations inv fits expects post P' := by
  cases step with
  | @invoke t call free admitted =>
    refine ⟨upholds.invoke t call _ keeping.holds, fun u activity runs => ?_⟩
    rw [Pool.set_shared, recorded.invoke]
    by_cases same : u = t
    · subst same
      simp only [Pool.set_threads, Function.update_self, Option.some.injEq] at runs
      subst runs
      exact ⟨if_pos rfl, bodies _ _ call admitted⟩
    · rw [if_neg same]
      exact keeping.running u activity (by simpa [Function.update_of_ne same] using runs)
  | @act t call o next done c r s running performed met =>
    obtain ⟨record, fit, later⟩ := keeping.running t _ running
    obtain ⟨holds, expected⟩ := upholds.act t o c _ r s keeping.holds performed met (record ▸ fit)
    refine ⟨holds, fun u activity runs => ?_⟩
    rw [Pool.set_shared, recorded.act t o c _ r s u performed]
    by_cases same : u = t
    · subst same
      simp only [Pool.set_threads, Function.update_self, Option.some.injEq] at runs
      subst runs
      exact ⟨(if_pos rfl).trans (by rw [record]), later r (record ▸ expected)⟩
    · rw [if_neg same]
      exact keeping.running u activity (by simpa [Function.update_of_ne same] using runs)
  | @«return» t call a done running =>
    obtain ⟨record, ended⟩ := keeping.running t _ running
    refine ⟨upholds.finish t call a _ keeping.holds (record ▸ ended), fun u activity runs => ?_⟩
    rw [Pool.set_shared, recorded.finish]
    by_cases same : u = t
    · subst same
      simp at runs
    · exact keeping.running u activity (by simpa [Function.update_of_ne same] using runs)
  | @environment s moved =>
    refine ⟨upholds.env _ s keeping.holds moved, fun u activity runs => ?_⟩
    rw [show operations u s = _ from recorded.env _ s u moved]
    exact keeping.running u activity runs

theorem keeping_reaches {s : S} {P : Pool I T Call A S} (recorded : Recorded sys operations)
    (upholds : Upholds sys operations inv fits expects post assume)
    (bodies : ∀ s t call, sys.admits s t call → (sys.body call).Traced fits expects (post call) []) (holds : inv s)
    (run : Reaches sys assume (Pool.start s) P) :
    Keeping operations inv fits expects post P := by
  induction run with
  | refl => exact ⟨holds, fun t activity runs => by simp [Pool.start] at runs⟩
  | tail _ step ih => exact ih.step recorded upholds bodies step

end Pools

end Interleaving
