import Faunus.Interleaving.Pool

/-! Invariants of interleaved runs.

Each thread owns a ghost value. A machine says what a thread with its ghost may
do next; a program follows the machine when each of its operations is permitted,
in every state the other threads may have produced. Invariants are then shown of
the machine, one permitted operation at a time.
-/

set_option autoImplicit false

namespace Interleaving

variable {I : Signature} {T C Call A B S G : Type}

structure Machine (I : Signature) (T Call A S G : Type) where
  idle : G
  /-- The ghost a call begins with. -/
  begins : T → Call → (T → G) → S → G → Prop
  /-- The operation, its reply, the state and the ghost after it. -/
  permits : T → (T → G) → S → (o : I.Op) → I.Reply o → S → G → Prop
  /-- The ghost a call may return with. -/
  ends : T → Call → A → G → Prop

section Following
variable (permits : T → (T → G) → S → (o : I.Op) → I.Reply o → S → G → Prop) (exec : Exec I T C S)
  (inv : (T → G) → S → Prop)

/-- Every operation of the program is permitted wherever the invariant holds. -/
def Follows (t : T) (post : A → G → Prop) : Program I A → G → Prop
  | .value a, g => post a g
  | .stuck, _ => True
  | .perform o next, g => ∀ gs s, inv gs s → gs t = g → ∀ c r s', exec t o c s = some (r, s') →
      ∃ g', permits t gs s o r s' g' ∧ Follows t post (next r) g'

variable {permits exec inv}

theorem follows_mono {t : T} {p : Program I A} {post out : A → G → Prop} {g : G}
    (follows : Follows permits exec inv t post p g) (implies : ∀ a g, post a g → out a g) :
    Follows permits exec inv t out p g := by
  induction p generalizing g with
  | value a => exact implies a g follows
  | stuck => trivial
  | perform o next ih =>
    intro gs s inv own c r s' performed
    obtain ⟨g', permitted, rest⟩ := follows gs s inv own c r s' performed
    exact ⟨g', permitted, ih r rest⟩

theorem follows_bind {t : T} {p : Program I A} {f : A → Program I B} {post : B → G → Prop} {g : G}
    (follows : Follows permits exec inv t (fun a g => Follows permits exec inv t post (f a) g) p g) :
    Follows permits exec inv t post (p >>= f) g := by
  induction p generalizing g with
  | value a => exact follows
  | stuck => trivial
  | perform o next ih =>
    intro gs s inv own c r s' performed
    obtain ⟨g', permitted, rest⟩ := follows gs s inv own c r s' performed
    exact ⟨g', permitted, ih r rest⟩

theorem follows_operation {t : T} {o : I.Op} {f : I.Reply o → Program I A} {post : A → G → Prop} {g : G} (after : I.Reply o → G)
    (permitted : ∀ gs s r s', gs t = g → permits t gs s o r s' (after r))
    (later : ∀ r, Follows permits exec inv t post (f r) (after r)) :
    Follows permits exec inv t post (.perform o .value >>= f) g := by
  intro gs s _ own c r s' _
  exact ⟨after r, permitted gs s r s' own, later r⟩

theorem follows_yields {t : T} {p : Program I A} {post : A → G → Prop} {g : G} (follows : Follows permits exec inv t post p g) :
    Follows permits exec inv t (fun a g => post a g ∧ ∃ trace, Yields p trace a) p g := by
  induction p generalizing g with
  | value a => exact ⟨follows, [], .value⟩
  | stuck => trivial
  | perform o next ih =>
    intro gs s inv own c r s' performed
    obtain ⟨g', permitted, rest⟩ := follows gs s inv own c r s' performed
    refine ⟨g', permitted, follows_mono (ih r rest) ?_⟩
    rintro a g ⟨holds, trace, yields⟩
    exact ⟨holds, ⟨o, r⟩ :: trace, .perform yields⟩

/-- A program that follows under an invariant follows under a stronger one. -/
theorem follows_stronger {t : T} {p : Program I A} {post : A → G → Prop} {g : G} {strong : (T → G) → S → Prop}
    (weaken : ∀ gs s, strong gs s → inv gs s) (follows : Follows permits exec inv t post p g) :
    Follows permits exec strong t post p g := by
  induction p generalizing g with
  | value a => exact follows
  | stuck => trivial
  | perform o next ih =>
    intro gs s inv own c r s' performed
    obtain ⟨g', permitted, rest⟩ := follows gs s (weaken gs s inv) own c r s' performed
    exact ⟨g', permitted, ih r rest⟩

end Following

section Reachability
variable (sys : System I T C Call A S) (M : Machine I T Call A S G) (inv : (T → G) → S → Prop) (assume : Condition I T S)

/-- The bodies of all calls follow the machine. -/
def Implements : Prop :=
  ∀ gs s t call, inv gs s → gs t = M.idle → sys.admits s t call →
    ∃ g, M.begins t call gs s g ∧ Follows M.permits sys.exec inv t (M.ends t call) (sys.body call) g

/-- The machine preserves the invariant. -/
structure Preserves [DecidableEq T] : Prop where
  invoke : ∀ gs s t call g, inv gs s → gs t = M.idle → sys.admits s t call → M.begins t call gs s g →
    inv (Function.update gs t g) (sys.invoked t call s)
  act : ∀ gs s t o c r s' g, inv gs s → sys.exec t o c s = some (r, s') → assume t o r s →
    M.permits t gs s o r s' g → inv (Function.update gs t g) s'
  finish : ∀ gs s t call a, inv gs s → M.ends t call a (gs t) →
    inv (Function.update gs t M.idle) (sys.returned t call a s)
  env : ∀ gs s s', inv gs s → sys.env s s' → inv gs s'

/-- The ghosts explain the pool: idle threads have the idle ghost, and what
remains of each running call follows the machine. -/
structure Explains (gs : T → G) (P : Pool I T Call A S) : Prop where
  holds : inv gs P.shared
  idle : ∀ t, P.threads t = none → gs t = M.idle
  running : ∀ t activity, P.threads t = some activity →
    Follows M.permits sys.exec inv t (M.ends t activity.call) activity.rest (gs t)

variable {sys M inv assume}

theorem explains_start {s : S} (holds : inv (fun _ => M.idle) s) :
    Explains sys M inv (fun _ => M.idle) (Pool.start s) :=
  ⟨holds, fun _ _ => rfl, fun _ _ running => by simp [Pool.start] at running⟩

theorem Explains.set [DecidableEq T] {gs : T → G} {P : Pool I T Call A S} (explains : Explains sys M inv gs P)
    {t : T} {g : G} {activity : Option (Activity I Call A)} {s : S}
    (holds : inv (Function.update gs t g) s) (free : activity = none → g = M.idle)
    (own : ∀ a, activity = some a → Follows M.permits sys.exec inv t (M.ends t a.call) a.rest g) :
    Explains sys M inv (Function.update gs t g) (P.set t activity s) := by
  refine ⟨holds, fun u unused => ?_, fun u a runs => ?_⟩
  · by_cases same : u = t
    · subst same
      simp only [Pool.set_threads, Function.update_self] at unused ⊢
      exact free unused
    · simp only [Pool.set_threads, Function.update_of_ne same] at unused ⊢
      exact explains.idle u unused
  · by_cases same : u = t
    · subst same
      simp only [Pool.set_threads, Function.update_self] at runs ⊢
      exact own a runs
    · simp only [Pool.set_threads, Function.update_of_ne same] at runs ⊢
      exact explains.running u a runs

theorem Explains.permits {gs : T → G} {P : Pool I T Call A S} (explains : Explains sys M inv gs P)
    {t : T} {call : Call} {o : I.Op} {next : I.Reply o → Program I A} {done : List (Sigma I.Reply)}
    (running : P.threads t = some ⟨call, .perform o next, done⟩) {c : C} {r : I.Reply o} {s : S}
    (performed : sys.exec t o c P.shared = some (r, s)) :
    ∃ g, M.permits t gs P.shared o r s g ∧ Follows M.permits sys.exec inv t (M.ends t call) (next r) g :=
  explains.running t _ running gs P.shared explains.holds rfl c r s performed

theorem Explains.ends {gs : T → G} {P : Pool I T Call A S} (explains : Explains sys M inv gs P)
    {t : T} {call : Call} {a : A} {done : List (Sigma I.Reply)}
    (running : P.threads t = some ⟨call, .value a, done⟩) : M.ends t call a (gs t) :=
  explains.running t _ running

theorem Explains.step [DecidableEq T] {gs : T → G} {P P' : Pool I T Call A S} (ok : Implements sys M inv)
    (preserves : Preserves sys M inv assume) (explains : Explains sys M inv gs P) (step : Step sys assume P P') :
    ∃ gs', Explains sys M inv gs' P' := by
  cases step with
  | @invoke t call free admitted =>
    have unused := explains.idle t free
    obtain ⟨g, begins, follows⟩ := ok gs P.shared t call explains.holds unused admitted
    refine ⟨_, explains.set (preserves.invoke gs _ t call g explains.holds unused admitted begins) (by simp) ?_⟩
    rintro a ⟨⟩
    exact follows
  | @act t call o next done c r s running performed met =>
    obtain ⟨g, permitted, rest⟩ := explains.permits running performed
    refine ⟨_, explains.set (preserves.act gs _ t o c r s g explains.holds performed met permitted) (by simp) ?_⟩
    rintro a ⟨⟩
    exact rest
  | @«return» t call a done running =>
    exact ⟨_, explains.set (preserves.finish gs _ t call a explains.holds (explains.ends running)) (fun _ => rfl) (by simp)⟩
  | @environment s moved =>
    exact ⟨gs, preserves.env gs _ s explains.holds moved, explains.idle, explains.running⟩

theorem Explains.reaches [DecidableEq T] {gs : T → G} {P P' : Pool I T Call A S} (ok : Implements sys M inv)
    (preserves : Preserves sys M inv assume) (explains : Explains sys M inv gs P) (run : Reaches sys assume P P') :
    ∃ gs', Explains sys M inv gs' P' := by
  induction run with
  | refl => exact ⟨gs, explains⟩
  | tail _ step ih =>
    obtain ⟨gs', explains'⟩ := ih
    exact explains'.step ok preserves step

end Reachability

end Interleaving
