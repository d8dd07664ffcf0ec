import Faunus.Interleaving.Invariant
import Faunus.Interleaving.Traces

/-! Machines that keep a log.

The ghost of a thread is paired with what the thread has done in its current call, and
only operations of a given kind are permitted. In every reachable pool the log of a
running call is what the pool says it has done.
-/

set_option autoImplicit false

namespace Interleaving

variable {I : Signature} {T C Call A B S G : Type}

/-- Every operation of the program is of the kind. -/
def Program.Only (within : I.Op → Prop) : Program I A → Prop
  | .value _ => True
  | .stuck => True
  | .perform o next => within o ∧ ∀ r, (next r).Only within

theorem only_bind {within : I.Op → Prop} {p : Program I A} {f : A → Program I B} (first : p.Only within)
    (later : ∀ a, (f a).Only within) :
    (p >>= f).Only within := by
  induction p with
  | value a => exact later a
  | stuck => trivial
  | perform o next ih => exact ⟨first.1, fun r => ih r (first.2 r)⟩

theorem only_ite {within : I.Op → Prop} {c : Prop} [Decidable c] {p q : Program I A} (yes : p.Only within) (no : q.Only within) :
    (if c then p else q).Only within := by
  by_cases holds : c
  · rwa [if_pos holds]
  · rwa [if_neg holds]

theorem only_mono {within wider : I.Op → Prop} {p : Program I A} (only : p.Only within) (implies : ∀ o, within o → wider o) :
    p.Only wider := by
  induction p with
  | value a => trivial
  | stuck => trivial
  | perform o next ih => exact ⟨implies o only.1, fun r => ih r (only.2 r)⟩

section
variable {exec : Exec I T C S} {t : T} {rely : S → S → Prop} {waits : I.Op → Prop} {p : Program I A}

/-- A program that does not wait comes to a value, and what follows goes on from there. -/
theorem total_after (reflexive : ∀ s, rely s s) {f : A → Program I B} {mid : A → S → Prop} {post : B → S → Prop} {s : S}
    (only : p.Only fun o => ¬ waits o) (known : p.Total exec t rely waits mid s) (total : (p >>= f).Total exec t rely waits post s) :
    ∃ a s', mid a s' ∧ (f a).Total exec t rely waits post s' := by
  induction p generalizing s with
  | value a => exact ⟨a, s, known, total⟩
  | stuck => exact known.elim
  | perform o next ih =>
    obtain ⟨c, r, s', performed⟩ := known.1.resolve_right only.1
    exact ih r (only.2 r) (known.2 c r s' performed s' (reflexive s')) (total.2 c r s' performed s' (reflexive s'))

theorem run_only {within : I.Op → Prop} (keeps : ∀ o c s r s', within o → exec t o c s = some (r, s') → s' = s)
    (only : p.Only within)
    {choices : List C} {s s' : S} {a : A} (ran : p.run exec t choices s = some (a, s')) : s' = s := by
  induction p generalizing choices s with
  | value b =>
    cases ran
    rfl
  | stuck => cases choices <;> cases ran
  | perform o next ih =>
    cases choices with
    | nil => cases ran
    | cons c rest =>
      obtain ⟨⟨r, s₁⟩, performed, later⟩ := Option.bind_eq_some_iff.1 ran
      exact (ih r (only.2 r) later).trans (keeps o c s r s₁ only.1 performed)

end

/-- Operations of a kind that always fits keep what they do not touch. -/
theorem traced_only {within : I.Op → Prop} {fits : List (Sigma I.Reply) → I.Op → Prop}
    {expects : List (Sigma I.Reply) → (o : I.Op) → I.Reply o → Prop} {kept : List (Sigma I.Reply) → Prop} {p : Program I A}
    {done : List (Sigma I.Reply)} (only : p.Only within) (fit : ∀ done o, within o → kept done → fits done o)
    (keep : ∀ done o r, within o → kept done → kept (⟨o, r⟩ :: done)) (start : kept done) :
    p.Traced fits expects (fun _ done => kept done) done := by
  induction p generalizing done with
  | value a => exact start
  | stuck => trivial
  | perform o next ih => exact ⟨fit done o only.1 start, fun r _ => ih r (only.2 r) (keep done o r only.1 start)⟩

/-- The machine with a log, restricted to operations of the kind. -/
def Machine.logged (M : Machine I T Call A S G) (within : I.Op → Prop) : Machine I T Call A S (G × List (Sigma I.Reply)) where
  idle := (M.idle, [])
  begins t call gs s g := M.begins t call (fun u => (gs u).1) s g.1 ∧ g.2 = []
  permits t gs s o r s' g := M.permits t (fun u => (gs u).1) s o r s' g.1 ∧ g.2 = ⟨o, r⟩ :: (gs t).2 ∧ within o
  ends t call a g := M.ends t call a g.1

section
variable {M : Machine I T Call A S G} {exec : Exec I T C S} {inv : (T → G) → S → Prop}
  {inv' : (T → G × List (Sigma I.Reply)) → S → Prop} {within : I.Op → Prop}

theorem follows_logged (weaken : ∀ gs s, inv' gs s → inv (fun u => (gs u).1) s) {t : T} {p : Program I B}
    {post : B → G → Prop} {g : G}
    (follows : Follows M.permits exec inv t post p g) (only : p.Only within) (log : List (Sigma I.Reply)) :
    Follows (M.logged within).permits exec inv' t (fun a g => post a g.1) p (g, log) := by
  induction p generalizing g log with
  | value a => exact follows
  | stuck => trivial
  | perform o next ih =>
    intro gs s holds own c r s' performed
    obtain ⟨g', permitted, rest⟩ := follows _ s (weaken gs s holds) (by rw [own]) c r s' performed
    refine ⟨(g', ⟨o, r⟩ :: log), ⟨permitted, ?_, only.1⟩, ih r rest (only.2 r) _⟩
    rw [own]

variable {sys : System I T C Call A S} {assume : Condition I T S}

theorem implements_logged (weaken : ∀ gs s, inv' gs s → inv (fun u => (gs u).1) s) (ok : Implements sys M inv)
    (only : ∀ s t call, sys.admits s t call → (sys.body call).Only within) : Implements sys (M.logged within) inv' := by
  intro gs s t call holds idle admitted
  obtain ⟨g, begins, follows⟩ := ok _ s t call (weaken gs s holds) (by rw [idle]; rfl) admitted
  exact ⟨(g, []), ⟨begins, rfl⟩, follows_logged weaken follows (only s t call admitted) []⟩

/-- The log of a running call is what it has done. -/
def Logs (gs : T → G × List (Sigma I.Reply)) (P : Pool I T Call A S) : Prop :=
  ∀ t activity, P.threads t = some activity → (gs t).2 = activity.done

variable [DecidableEq T]

theorem Logs.set {gs : T → G × List (Sigma I.Reply)} {P : Pool I T Call A S} (logs : Logs gs P) {t : T}
    {g : G × List (Sigma I.Reply)}
    {activity : Option (Activity I Call A)} {s : S} (own : ∀ a, activity = some a → g.2 = a.done) :
    Logs (Function.update gs t g) (P.set t activity s) := by
  intro u a runs
  by_cases same : u = t
  · subst same
    simp only [Pool.set_threads, Function.update_self] at runs ⊢
    exact own a runs
  · simp only [Pool.set_threads, Function.update_of_ne same] at runs ⊢
    exact logs u a runs

theorem explains_logged {s : S} {P : Pool I T Call A S} (ok : Implements sys (M.logged within) inv')
    (preserves : Preserves sys (M.logged within) inv' assume) (holds : inv' (fun _ => (M.idle, [])) s)
    (run : Reaches sys assume (Pool.start s) P) :
    ∃ gs, Explains sys (M.logged within) inv' gs P ∧ Logs gs P := by
  induction run with
  | refl => exact ⟨_, explains_start holds, fun t activity runs => by simp [Pool.start] at runs⟩
  | @tail P P' _ step ih =>
    obtain ⟨gs, explains, logs⟩ := ih
    cases step with
    | @invoke t call free admitted =>
      have unused := explains.idle t free
      obtain ⟨g, begins, follows⟩ := ok gs P.shared t call explains.holds unused admitted
      refine ⟨Function.update gs t g, explains.set (preserves.invoke gs _ t call g explains.holds unused admitted begins)
        (by simp) ?_, logs.set ?_⟩
      · rintro a ⟨⟩
        exact follows
      · rintro a ⟨⟩
        exact begins.2
    | @act t call o next done c r s' running performed met =>
      obtain ⟨g, permitted, rest⟩ := explains.permits running performed
      refine ⟨Function.update gs t g, explains.set (preserves.act gs _ t o c r s' g explains.holds performed met permitted)
        (by simp) ?_, logs.set ?_⟩
      · rintro a ⟨⟩
        exact rest
      · rintro a ⟨⟩
        rw [permitted.2.1, logs t _ running]
    | @«return» t call a done running =>
      refine ⟨_, explains.set (preserves.finish gs _ t call a explains.holds (explains.ends running)) (fun _ => rfl)
        (by simp), logs.set ?_⟩
      rintro a ⟨⟩
    | @environment s' moved =>
      exact ⟨gs, ⟨preserves.env gs _ s' explains.holds moved, explains.idle, explains.running⟩, logs⟩

end

end Interleaving
