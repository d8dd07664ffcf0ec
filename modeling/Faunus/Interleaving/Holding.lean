import Faunus.Interleaving.Logs

/-! Threads that hold one lock at a time.

A program is frugal when it takes a lock only with empty hands, gives it back after a
bounded number of operations that touch no lock, and ends with empty hands. Threads with
frugal programs do not deadlock: who holds a lock waits for none.
-/

set_option autoImplicit false

namespace Interleaving

variable {I : Signature} {T C Call A B S L : Type}

/-- Which operations take and give locks, and which locks are taken. -/
structure Locks (I : Signature) (L S : Type) where
  takes : I.Op → Option L
  gives : I.Op → Option L
  locked : S → L → Prop

/-- The lock in hand, with the number of operations that may still come before it is given back. -/
inductive Hand (L : Type) where
  | free
  | holds (l : L) (left : Nat)

section Programs
variable (locks : Locks I L S)

/-- The lock that was taken last and not given back since. -/
def Locks.inHand : List (Sigma I.Reply) → Option L
  | [] => none
  | e :: rest =>
    match locks.takes e.1, locks.gives e.1 with
    | some l, _ => some l
    | none, some _ => none
    | none, none => Locks.inHand rest

/-- The operation touches no lock. -/
def Locks.Quiet (o : I.Op) : Prop := locks.takes o = none ∧ locks.gives o = none

/-- A lock that is taken is given back within so many operations. -/
def Program.Frugal (limit : Nat) : Program I A → Hand L → Prop
  | .value _, hand => hand = .free
  | .stuck, _ => True
  | .perform o next, .free =>
    locks.gives o = none ∧ ((∃ l, locks.takes o = some l ∧ ∀ r, Program.Frugal limit (next r) (.holds l limit)) ∨
      locks.takes o = none ∧ ∀ r, Program.Frugal limit (next r) .free)
  | .perform _ _, .holds _ 0 => False
  | .perform o next, .holds l (left + 1) =>
    locks.takes o = none ∧ (locks.gives o = some l ∧ (∀ r, Program.Frugal limit (next r) .free) ∨
      locks.gives o = none ∧ ∀ r, Program.Frugal limit (next r) (.holds l left))

/-- Whatever the replies are, the lock is given back within so many operations and no other is taken before. -/
def Program.Releases (l : L) : Program I A → Nat → Prop
  | .value _, _ => False
  | .stuck, _ => True
  | .perform _ _, 0 => False
  | .perform o next, left + 1 => locks.takes o = none ∧ (locks.gives o = some l ∨ ∀ r, Program.Releases l (next r) left)

/-- At most so many operations, none of which touches a lock. -/
def Program.Lasts : Program I A → Nat → Prop
  | .value _, _ => True
  | .stuck, _ => True
  | .perform _ _, 0 => False
  | .perform o next, left + 1 => locks.Quiet o ∧ ∀ r, Program.Lasts (next r) left

variable {locks} {l : L} {limit left m : Nat}

theorem inHand_takes {e : Sigma I.Reply} {rest : List (Sigma I.Reply)} (takes : locks.takes e.1 = some l) :
    locks.inHand (e :: rest) = some l := by
  simp only [Locks.inHand, takes]

theorem inHand_gives {e : Sigma I.Reply} {rest : List (Sigma I.Reply)} (takes : locks.takes e.1 = none)
    (gives : locks.gives e.1 = some l) :
    locks.inHand (e :: rest) = none := by
  simp only [Locks.inHand, takes, gives]

theorem inHand_quiet {e : Sigma I.Reply} {rest : List (Sigma I.Reply)} (quiet : locks.Quiet e.1) :
    locks.inHand (e :: rest) = locks.inHand rest := by
  simp only [Locks.inHand, quiet.1, quiet.2]

theorem releases_of_frugal {p : Program I A} (frugal : p.Frugal locks limit (.holds l left)) : p.Releases locks l left := by
  induction p generalizing left with
  | value a => cases frugal
  | stuck => trivial
  | perform o next ih =>
    cases left with
    | zero => exact frugal
    | succ left =>
      obtain ⟨takes, ⟨gives, -⟩ | ⟨-, later⟩⟩ := frugal
      · exact ⟨takes, .inl gives⟩
      · exact ⟨takes, .inr fun r => ih r (later r)⟩

theorem releases_mono {p : Program I A} (releases : p.Releases locks l left) (le : left ≤ m) : p.Releases locks l m := by
  induction p generalizing left m with
  | value a => exact releases
  | stuck => trivial
  | perform o next ih =>
    cases left with
    | zero => exact releases.elim
    | succ left =>
      obtain ⟨m, rfl⟩ : ∃ k, m = k + 1 := ⟨m - 1, by omega⟩
      obtain ⟨takes, gives | later⟩ := releases
      · exact ⟨takes, .inl gives⟩
      · exact ⟨takes, .inr fun r => ih r (later r) (by omega)⟩

theorem lasts_mono {p : Program I A} (lasts : p.Lasts locks left) (le : left ≤ m) : p.Lasts locks m := by
  induction p generalizing left m with
  | value a => trivial
  | stuck => trivial
  | perform o next ih =>
    cases left with
    | zero => exact lasts.elim
    | succ left =>
      obtain ⟨m, rfl⟩ : ∃ k, m = k + 1 := ⟨m - 1, by omega⟩
      exact ⟨lasts.1, fun r => ih r (lasts.2 r) (by omega)⟩

theorem lasts_map {p : Program I B} {f : B → A} (lasts : p.Lasts locks left) : (p >>= fun b => pure (f b)).Lasts locks left := by
  induction p generalizing left with
  | value b => trivial
  | stuck => trivial
  | perform o rest ih =>
    cases left with
    | zero => exact lasts.elim
    | succ left => exact ⟨lasts.1, fun r => ih r (lasts.2 r)⟩

theorem frugal_bind {p : Program I B} {f : B → Program I A} {hand : Hand L} (frugal : p.Frugal locks limit hand)
    (next : ∀ b, (f b).Frugal locks limit .free) : (p >>= f).Frugal locks limit hand := by
  induction p generalizing hand with
  | value b =>
    obtain rfl : hand = .free := frugal
    exact next b
  | stuck => trivial
  | perform o rest ih =>
    cases hand with
    | free =>
      obtain ⟨gives, ⟨l, takes, later⟩ | ⟨takes, later⟩⟩ := frugal
      · exact ⟨gives, .inl ⟨l, takes, fun r => ih r (later r)⟩⟩
      · exact ⟨gives, .inr ⟨takes, fun r => ih r (later r)⟩⟩
    | holds l left =>
      cases left with
      | zero => exact frugal.elim
      | succ left =>
        obtain ⟨takes, ⟨gives, later⟩ | ⟨gives, later⟩⟩ := frugal
        · exact ⟨takes, .inl ⟨gives, fun r => ih r (later r)⟩⟩
        · exact ⟨takes, .inr ⟨gives, fun r => ih r (later r)⟩⟩

theorem frugal_only {p : Program I B} {f : B → Program I A} (only : p.Only locks.Quiet)
    (next : ∀ b, (f b).Frugal locks limit .free) :
    (p >>= f).Frugal locks limit .free := by
  induction p with
  | value b => exact next b
  | stuck => trivial
  | perform o rest ih => exact ⟨only.1.2, .inr ⟨only.1.1, fun r => ih r (only.2 r)⟩⟩

/-! With a lock in hand the operations are counted. -/

theorem frugal_quiet {o : I.Op} {next : I.Reply o → Program I A} (quiet : locks.Quiet o) (le : m + 1 ≤ left)
    (later : ∀ r k, m ≤ k → (next r).Frugal locks limit (.holds l k)) :
    (Program.perform o next).Frugal locks limit (.holds l left) := by
  obtain ⟨k, rfl⟩ : ∃ k, left = k + 1 := ⟨left - 1, by omega⟩
  exact ⟨quiet.1, .inr ⟨quiet.2, fun r => later r k (by omega)⟩⟩

theorem frugal_give {o : I.Op} {next : I.Reply o → Program I A} (takes : locks.takes o = none)
    (gives : locks.gives o = some l) (le : 1 ≤ left)
    (later : ∀ r, (next r).Frugal locks limit .free) : (Program.perform o next).Frugal locks limit (.holds l left) := by
  obtain ⟨k, rfl⟩ : ∃ k, left = k + 1 := ⟨left - 1, by omega⟩
  exact ⟨takes, .inl ⟨gives, later⟩⟩

theorem frugal_lasts {p : Program I B} {f : B → Program I A} {n : Nat} (lasts : p.Lasts locks n) (le : n + m ≤ left)
    (next : ∀ b k, m ≤ k → (f b).Frugal locks limit (.holds l k)) : (p >>= f).Frugal locks limit (.holds l left) := by
  induction p generalizing n left with
  | value b => exact next b left (by omega)
  | stuck => trivial
  | perform o rest ih =>
    cases n with
    | zero => exact lasts.elim
    | succ n => exact frugal_quiet lasts.1 (show n + m + 1 ≤ left by omega) fun r k above => ih r (lasts.2 r) above

end Programs

section Pools
variable (sys : System I T C Call A S) (locks : Locks I L S)

/-- A lock is taken only while it is free; nothing but taking and giving changes it. -/
structure Locks.Guarded : Prop where
  taken : ∀ t o c s r s' l, sys.exec t o c s = some (r, s') → locks.takes o = some l →
    ¬ locks.locked s l ∧ ∀ k, locks.locked s' k ↔ k = l ∨ locks.locked s k
  given : ∀ t o c s r s' l, sys.exec t o c s = some (r, s') → locks.gives o = some l → ∀ k, locks.locked s' k ↔ k ≠ l ∧
    locks.locked s k
  kept : ∀ t o c s r s', sys.exec t o c s = some (r, s') → locks.Quiet o → ∀ k, locks.locked s' k ↔ locks.locked s k
  invoked : ∀ t call s k, locks.locked (sys.invoked t call s) k ↔ locks.locked s k
  returned : ∀ t call a s k, locks.locked (sys.returned t call a s) k ↔ locks.locked s k
  env : ∀ s s', sys.env s s' → ∀ k, locks.locked s' k ↔ locks.locked s k

def Hand.Holds (hand : Hand L) (l : L) : Prop := ∃ left, hand = .holds l left

/-- The locks that are taken are those in the hands of the threads. -/
structure Handed (limit : Nat) (hands : T → Hand L) (P : Pool I T Call A S) : Prop where
  locked : ∀ l, locks.locked P.shared l ↔ ∃ t, (hands t).Holds l
  once : ∀ t u l, (hands t).Holds l → (hands u).Holds l → t = u
  bound : ∀ t l left, hands t = .holds l left → left ≤ limit
  idle : ∀ t, P.threads t = none → hands t = .free
  running : ∀ t activity, P.threads t = some activity →
    activity.rest.Frugal locks limit (hands t) ∧ ∀ l, (hands t).Holds l ↔ locks.inHand activity.done = some l

variable {sys locks} {limit left : Nat} {hands : T → Hand L} {P P' : Pool I T Call A S} {l k : L}

theorem not_holds_free : ¬ (Hand.free : Hand L).Holds l := by
  rintro ⟨left, eq⟩
  cases eq

theorem holds_holds : (Hand.holds l left).Holds k ↔ k = l := by
  constructor
  · rintro ⟨_, ⟨⟩⟩
    rfl
  · rintro rfl
    exact ⟨left, rfl⟩

theorem handed_start {s : S} (free : ∀ l, ¬ locks.locked s l) :
    Handed locks limit (fun _ => .free) (Pool.start s : Pool I T Call A S) where
  locked l := iff_of_false (free l) fun ⟨_, holds⟩ => not_holds_free holds
  once _ _ _ one := absurd one not_holds_free
  bound _ _ _ holds := nomatch holds
  idle _ _ := rfl
  running _ _ runs := nomatch runs

/-- The thread holds the lock. -/
def Pool.Holds (locks : Locks I L S) (P : Pool I T Call A S) (t : T) (l : L) : Prop :=
  ∃ activity, P.threads t = some activity ∧ locks.inHand activity.done = some l

/-- The thread can go on only when another gives back a lock. -/
def Pool.Waits (locks : Locks I L S) (P : Pool I T Call A S) (t u : T) : Prop :=
  ∃ activity o next l, P.threads t = some activity ∧ activity.rest = .perform o next ∧ locks.takes o = some l ∧ P.Holds locks u l

theorem Handed.holds_iff (handed : Handed locks limit hands P) {t : T} : (hands t).Holds l ↔ P.Holds locks t l := by
  cases runs : P.threads t with
  | none =>
    rw [handed.idle t runs]
    refine iff_of_false not_holds_free ?_
    rintro ⟨activity, here, -⟩
    cases runs.symm.trans here
  | some activity =>
    rw [(handed.running t activity runs).2 l]
    constructor
    · exact fun inHand => ⟨activity, runs, inHand⟩
    · rintro ⟨activity', here, inHand⟩
      rwa [Option.some.inj (runs.symm.trans here)]

/-- A thread with a lock in hand gives it back soon and takes no other before. -/
theorem Handed.releases (handed : Handed locks limit hands P) {t : T} {activity : Activity I Call A}
    (runs : P.threads t = some activity)
    (inHand : locks.inHand activity.done = some l) : activity.rest.Releases locks l limit := by
  obtain ⟨frugal, same⟩ := handed.running t activity runs
  obtain ⟨left, eq⟩ := (same l).2 inHand
  rw [eq] at frugal
  exact releases_mono (releases_of_frugal frugal) (handed.bound t l left eq)

theorem Handed.not_waits (handed : Handed locks limit hands P) {t u v : T} (waits : P.Waits locks t u) : ¬ P.Waits locks u v := by
  obtain ⟨-, -, -, l, -, -, -, activity, runs, inHand⟩ := waits
  rintro ⟨activity', o, next, k, runs', rest, takes, -⟩
  have releases := handed.releases runs inHand
  rw [Option.some.inj (runs.symm.trans runs'), rest] at releases
  cases limit with
  | zero => exact releases
  | succ n => cases takes.symm.trans releases.1

variable [DecidableEq T]

theorem Handed.set (handed : Handed locks limit hands P) {t : T} {h : Hand L} {activity : Option (Activity I Call A)} {s : S}
    (locked : ∀ l, locks.locked s l ↔ h.Holds l ∨ ∃ u, u ≠ t ∧ (hands u).Holds l)
    (once : ∀ u l, u ≠ t → h.Holds l → ¬ (hands u).Holds l) (bound : ∀ l left, h = .holds l left → left ≤ limit)
    (free : activity = none → h = .free)
    (own : ∀ a, activity = some a → a.rest.Frugal locks limit h ∧ ∀ l, h.Holds l ↔ locks.inHand a.done = some l) :
    Handed locks limit (Function.update hands t h) (P.set t activity s) := by
  -- one thread moves
  refine ⟨fun l => (locked l).trans ?_, fun u v l one two => ?_, fun u l left holds => ?_, fun u unused => ?_, fun u a runs => ?_⟩
  · constructor
    · rintro (mine | ⟨u, other, holds⟩)
      · exact ⟨t, by rwa [Function.update_self]⟩
      · exact ⟨u, by rwa [Function.update_of_ne other]⟩
    · rintro ⟨u, holds⟩
      by_cases same : u = t
      · subst same
        rw [Function.update_self] at holds
        exact .inl holds
      · rw [Function.update_of_ne same] at holds
        exact .inr ⟨u, same, holds⟩
  · by_cases mine : u = t
    · by_cases too : v = t
      · exact mine.trans too.symm
      · subst mine
        rw [Function.update_self] at one
        rw [Function.update_of_ne too] at two
        exact absurd two (once v l too one)
    · rw [Function.update_of_ne mine] at one
      by_cases too : v = t
      · subst too
        rw [Function.update_self] at two
        exact absurd one (once u l mine two)
      · rw [Function.update_of_ne too] at two
        exact handed.once u v l one two
  · by_cases same : u = t
    · subst same
      rw [Function.update_self] at holds
      exact bound l left holds
    · rw [Function.update_of_ne same] at holds
      exact handed.bound u l left holds
  · by_cases same : u = t
    · subst same
      simp only [Pool.set_threads, Function.update_self] at unused ⊢
      exact free unused
    · simp only [Pool.set_threads, Function.update_of_ne same] at unused ⊢
      exact handed.idle u unused
  · by_cases same : u = t
    · subst same
      simp only [Pool.set_threads, Function.update_self] at runs ⊢
      exact own a runs
    · simp only [Pool.set_threads, Function.update_of_ne same] at runs ⊢
      exact handed.running u a runs

theorem Handed.apart (handed : Handed locks limit hands P) (t : T) (l : L) :
    locks.locked P.shared l ↔ (hands t).Holds l ∨ ∃ u, u ≠ t ∧ (hands u).Holds l := by
  rw [handed.locked]
  constructor
  · rintro ⟨u, holds⟩
    by_cases same : u = t
    · exact .inl (same ▸ holds)
    · exact .inr ⟨u, same, holds⟩
  · rintro (mine | ⟨u, -, holds⟩)
    · exact ⟨t, mine⟩
    · exact ⟨u, holds⟩

/-- The thread keeps its lock, with fewer operations left, or its empty hands. -/
theorem Handed.keep (handed : Handed locks limit hands P) {t : T} {hand : Hand L} {activity : Activity I Call A} {s : S}
    (kept : ∀ l, locks.locked s l ↔ locks.locked P.shared l) (same : ∀ l, hand.Holds l ↔ (hands t).Holds l)
    (bound : ∀ l left, hand = .holds l left → left ≤ limit)
    (own : activity.rest.Frugal locks limit hand ∧ ∀ l, hand.Holds l ↔ locks.inHand activity.done = some l) :
    Handed locks limit (Function.update hands t hand) (P.set t (some activity) s) := by
  refine handed.set (fun l => ?_) (fun u l other mine holds => ?_) bound (fun none => nomatch none) ?_
  · rw [kept, same, handed.apart t]
  · exact other (handed.once u t l holds ((same l).1 mine))
  · rintro _ ⟨⟩
    exact own

theorem Handed.step (handed : Handed locks limit hands P) (guarded : locks.Guarded sys)
    (frugal : ∀ s t call, sys.admits s t call → (sys.body call).Frugal locks limit .free) {assume : Condition I T S}
    (step : Step sys assume P P') : ∃ hands', Handed locks limit hands' P' := by
  have empty : ∀ l left, (Hand.free : Hand L) = .holds l left → left ≤ limit := fun _ _ eq => nomatch eq
  have nothing : ∀ l, (Hand.free : Hand L).Holds l ↔ (none : Option L) = some l := fun l => iff_of_false not_holds_free nofun
  cases step with
  | @invoke t call free admitted =>
    refine ⟨_, handed.keep (guarded.invoked t call P.shared) (fun l => ?_) empty ⟨frugal _ t call admitted, nothing⟩⟩
    rw [handed.idle t free]
  | @act t call o next done c r s running performed met =>
    obtain ⟨own, inHand⟩ := handed.running t _ running
    match mine : hands t with
    | .free =>
      rw [mine] at own inHand
      obtain ⟨gives, ⟨l, takes, later⟩ | ⟨takes, later⟩⟩ := own
      · obtain ⟨free, locked⟩ := guarded.taken t o c _ r s l performed takes
        refine ⟨_, handed.set (h := .holds l limit) (fun k => ?_) (fun u k other one holds => ?_) ?_ (fun none => nomatch none) ?_⟩
        · rw [locked k, handed.apart t, mine, holds_holds]
          simp [not_holds_free]
        · rw [holds_holds] at one
          exact free ((handed.locked l).2 ⟨u, one ▸ holds⟩)
        · rintro _ _ ⟨⟩
          exact Nat.le_refl _
        · rintro _ ⟨⟩
          refine ⟨later r, fun k => ?_⟩
          rw [inHand_takes takes, holds_holds, Option.some.injEq, eq_comm]
      · have quiet : locks.Quiet o := ⟨takes, gives⟩
        refine ⟨_, handed.keep (guarded.kept t o c _ r s performed quiet) (fun l => by rw [mine]) empty ⟨later r, fun k => ?_⟩⟩
        rw [inHand k, inHand_quiet quiet]
    | .holds l 0 =>
      rw [mine] at own
      exact own.elim
    | .holds l (left + 1) =>
      have holds : (hands t).Holds l := ⟨_, mine⟩
      rw [mine] at own inHand
      obtain ⟨takes, ⟨gives, later⟩ | ⟨gives, later⟩⟩ := own
      · refine ⟨_, handed.set (h := .free) (fun k => ?_) (fun u k _ one => absurd one not_holds_free) empty
          (fun none => nomatch none) ?_⟩
        · rw [guarded.given t o c _ r s l performed gives k, handed.apart t, mine, holds_holds]
          constructor
          · rintro ⟨other, same | later⟩
            · exact absurd same other
            · exact .inr later
          · rintro (none | ⟨u, other, holds'⟩)
            · exact absurd none not_holds_free
            · refine ⟨?_, .inr ⟨u, other, holds'⟩⟩
              rintro rfl
              exact other (handed.once u t k holds' holds)
        · rintro _ ⟨⟩
          refine ⟨later r, fun k => ?_⟩
          rw [inHand_gives takes gives]
          exact nothing k
      · have quiet : locks.Quiet o := ⟨takes, gives⟩
        refine ⟨_, handed.keep (guarded.kept t o c _ r s performed quiet) (fun k => ?_) ?_ ⟨later r, fun k => ?_⟩⟩
        · rw [mine, holds_holds, holds_holds]
        · rintro _ _ ⟨⟩
          exact Nat.le_of_succ_le (handed.bound t l _ mine)
        · rw [inHand_quiet quiet, ← inHand k, holds_holds, holds_holds]
  | @«return» t call a done running =>
    have before : hands t = .free := (handed.running t _ running).1
    refine ⟨_, handed.set (h := .free) (fun l => ?_) (fun u l _ one => absurd one not_holds_free) empty (fun _ => rfl)
      fun _ some => nomatch some⟩
    rw [guarded.returned, handed.apart t, before]
  | @environment s moved =>
    exact ⟨hands, ⟨fun l => (guarded.env _ s moved l).trans (handed.locked l), handed.once, handed.bound, handed.idle,
      handed.running⟩⟩

theorem handed_reaches {s : S} (free : ∀ l, ¬ locks.locked s l) (guarded : locks.Guarded sys)
    (frugal : ∀ s t call, sys.admits s t call → (sys.body call).Frugal locks limit .free) {assume : Condition I T S}
    (run : Reaches sys assume (Pool.start s) P) : ∃ hands, Handed locks limit hands P := by
  induction run with
  | refl => exact ⟨_, handed_start free⟩
  | tail _ step ih =>
    obtain ⟨hands, handed⟩ := ih
    exact handed.step guarded frugal step

end Pools

end Interleaving
