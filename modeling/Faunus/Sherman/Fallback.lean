import Faunus.Interleaving.Invariant
import Faunus.Sherman.Locks

/-! Page locks of two instances without a `LocalLockManager`.

An instance that finds its own tag in the lock word counts as the owner. Only the upper
half of the tag is compared, so two instances keep each other out if and only if their
tags differ there.
-/

set_option autoImplicit false

namespace Faunus.Sherman.Locks

open Interleaving

/-- The lock words, and the instances that hold the lock: `try_lock_address` has returned
and `unlock_address` has not cleared the word. -/
structure Holding where
  state : State
  holds : ℕ → Bool

def Holding.start : Holding := ⟨initial, fun _ => false⟩

/-- The word is cleared by the instance that unlocks. -/
def Act.clears : Act → Bool
  | .writeWord _ _ => true
  | _ => false

def Holding.exec (cfg : Config) : Exec signature ℕ Unit Holding := fun t o c h =>
  (Locks.exec cfg t o c h.state).map fun reply =>
    (reply.1, { state := reply.2, holds := if o.act.clears then Function.update h.holds t false else h.holds })

inductive Request where
  | tryLockAddress (tag : BitVec 64)
  | unlockAddress

def Request.body (cfg : Config) (a : GlobalAddress) : Request → Lock Unit
  | .tryLockAddress tag => Locks.tryLockAddress cfg tag a
  | .unlockAddress => Locks.unlockAddress cfg a

/-- Two instances that lock and unlock one page, each in turn. -/
def instances (cfg : Config) (a : GlobalAddress) : System signature ℕ Unit Request Unit Holding where
  exec := Holding.exec cfg
  body := Request.body cfg a
  admits h t call := t < 2 ∧ match call with
    | .tryLockAddress tag => tag = cfg.tag t ∧ h.holds t = false
    | .unlockAddress => h.holds t = true
  env _ _ := False
  invoked _ _ h := h
  returned t call _ h := match call with
    | .tryLockAddress _ => { h with holds := Function.update h.holds t true }
    | .unlockAddress => h

/-- Instance 0 has the first tag, instance 1 the second. -/
def fallback (first second : BitVec 64) (loopBound : ℕ) : Config where
  manager := false
  home t := t
  tag t := if t = 0 then first else second
  maxRetries := 1000000
  loopBound := loopBound

/-! ## What an instance does -/

inductive Grip where
  | idle
  | seeking
  /-- The lock is taken, `try_lock_address` is about to return. -/
  | taken
  | leaving
  | left
  deriving DecidableEq

inductive Grips (cfg : Config) (a : GlobalAddress) (t : ℕ) : Grip → (o : Op) → o.act.Reply → Grip → Prop where
  | retry {found : BitVec 64} : found ≠ 0 → owner found ≠ owner (cfg.tag t) →
      Grips cfg a t .seeking ⟨.tryLockAddress, .casWord a (cfg.tag t)⟩ found .seeking
  | take {found : BitVec 64} : found = 0 ∨ owner found = owner (cfg.tag t) →
      Grips cfg a t .seeking ⟨.tryLockAddress, .casWord a (cfg.tag t)⟩ found .taken
  | clear {r : Unit} : Grips cfg a t .leaving ⟨.unlockAddress, .writeWord a 0⟩ r .left

def Request.grip : Request → Grip
  | .tryLockAddress _ => .seeking
  | .unlockAddress => .leaving

def Request.gripped : Request → Grip
  | .tryLockAddress _ => .taken
  | .unlockAddress => .left

def gripMachine (cfg : Config) (a : GlobalAddress) : Machine signature ℕ Request Unit Holding Grip where
  idle := .idle
  begins _ call _ _ g := g = call.grip
  permits t gs _ o r _ g := Grips cfg a t (gs t) o r g
  ends _ call _ g := g = call.gripped

section
variable {cfg : Config} {a : GlobalAddress} {inv : (ℕ → Grip) → Holding → Prop} {t : ℕ}

theorem grips_lockWord {bound retries : ℕ} {pre : BitVec 64} :
    Follows (gripMachine cfg a).permits (Holding.exec cfg) inv t (fun _ g => g = .taken)
      (lockWord cfg (cfg.tag t) a bound retries pre) .seeking := by
  induction bound generalizing retries pre with
  | zero => trivial
  | succ bound ih =>
    unfold lockWord
    refine follows_operation
      (fun (found : BitVec 64) => if found = 0 ∨ owner found = owner (cfg.tag t) then .taken else .seeking) ?_ ?_
    · intro gs h found h' own
      change Grips cfg a t (gs t) _ _ _
      rw [own]
      split_ifs with mine
      · exact .take mine
      · exact .retry (fun zero => mine (.inl zero)) (fun same => mine (.inr same))
    · intro (found : BitVec 64)
      by_cases zero : found = 0
      · rw [if_pos zero, if_pos (Or.inl zero)]
        rfl
      rw [if_neg zero]
      by_cases mine : owner found = owner (cfg.tag t)
      · rw [if_pos mine, if_pos (Or.inr mine)]
        rfl
      rw [if_neg mine, if_neg (not_or.2 ⟨zero, mine⟩)]
      split_ifs
      · trivial
      · exact ih
      · exact ih

theorem implements_grips (alone : cfg.manager = false) : Implements (instances cfg a) (gripMachine cfg a) inv := by
  intro gs h t call _ _ admitted
  refine ⟨call.grip, rfl, ?_⟩
  cases call with
  | tryLockAddress tag =>
    obtain rfl : tag = cfg.tag t := admitted.2.1
    simp only [instances, Request.body, tryLockAddress, acquireLocal, alone]
    exact grips_lockWord
  | unlockAddress =>
    simp only [instances, Request.body, unlockAddress, releaseLocal, alone]
    refine follows_operation (fun _ => .left) ?_ fun _ => rfl
    intro gs h r h' own
    change Grips cfg a t (gs t) _ _ _
    rw [own]
    exact .clear

end

/-! ## Tags that differ in the upper half -/

/-- The instance has the lock, or is about to return with it. -/
def Bears (gs : ℕ → Grip) (h : Holding) (t : ℕ) : Prop := h.holds t = true ∨ gs t = .taken

structure Excluding (cfg : Config) (a : GlobalAddress) (gs : ℕ → Grip) (h : Holding) : Prop where
  stands : ∀ t, (gs t = .seeking ∨ gs t = .taken ∨ gs t = .left → h.holds t = false) ∧ (gs t = .leaving → h.holds t = true)
  both : ∀ t, Bears gs h t ∨ gs t = .seeking → t < 2
  word : ∀ t, Bears gs h t → h.state.words a = cfg.tag t
  borne : h.state.words a ≠ 0 → ∃ t, Bears gs h t

/-- The tags of different instances differ in the upper half. -/
def Apart (cfg : Config) : Prop := ∀ t < 2, ∀ u < 2, owner (cfg.tag t) = owner (cfg.tag u) → t = u

section
variable {cfg : Config} {a : GlobalAddress} {gs : ℕ → Grip} {h h' : Holding} {t u : ℕ}

theorem Excluding.unique (excluding : Excluding cfg a gs h) (apart : Apart cfg) (one : Bears gs h t) (other : Bears gs h u) :
    t = u := by
  refine apart t (excluding.both t (.inl one)) u (excluding.both u (.inl other)) ?_
  rw [← excluding.word t one, ← excluding.word u other]

theorem bears_update {g : Grip} (before : gs t ≠ .taken) (after : g ≠ .taken) : Bears (Function.update gs t g) h u ↔
    Bears gs h u := by
  unfold Bears
  by_cases own : u = t
  · subst own
    simp [before, after]
  · rw [Function.update_of_ne own]

theorem Excluding.proceed (excluding : Excluding cfg a gs h) {g : Grip} (before : gs t ≠ .taken) (after : g ≠ .taken)
    (stands : (g = .seeking ∨ g = .taken ∨ g = .left → h.holds t = false) ∧ (g = .leaving → h.holds t = true))
    (both : g = .seeking → t < 2) : Excluding cfg a (Function.update gs t g) h := by
  -- the instance goes on without touching the word
  constructor
  · intro u
    by_cases own : u = t
    · subst own
      rwa [Function.update_self]
    · rw [Function.update_of_ne own]
      exact excluding.stands u
  · intro u
    rw [bears_update before after]
    by_cases own : u = t
    · subst own
      rw [Function.update_self]
      rintro (bears | seeking)
      · exact excluding.both u (.inl bears)
      · exact both seeking
    · rw [Function.update_of_ne own]
      exact excluding.both u
  · intro u bears
    exact excluding.word u ((bears_update before after).1 bears)
  · intro set
    obtain ⟨u, bears⟩ := excluding.borne set
    exact ⟨u, (bears_update before after).2 bears⟩

theorem Excluding.take (excluding : Excluding cfg a gs h) (tagged : ∀ u < 2, cfg.tag u ≠ 0) (seeking : gs t = .seeking)
    (clear : h.state.words a = 0) (server : ℕ) :
    Excluding cfg a (Function.update gs t .taken) { h with state := h.state.setWord a (cfg.tag t) server } := by
  -- the word was clear, so nobody bears it
  have nobody : ∀ u, ¬ Bears gs h u := by
    intro u bears
    exact tagged u (excluding.both u (.inl bears)) ((excluding.word u bears).symm.trans clear)
  have only : ∀ u, Bears (Function.update gs t .taken) { h with state := h.state.setWord a (cfg.tag t) server } u → u = t := by
    intro u bears
    by_contra own
    unfold Bears at bears
    rw [Function.update_of_ne own] at bears
    exact nobody u bears
  constructor
  · intro u
    by_cases own : u = t
    · subst own
      rw [Function.update_self]
      exact ⟨fun _ => (excluding.stands u).1 (.inl seeking), by simp⟩
    · rw [Function.update_of_ne own]
      exact excluding.stands u
  · intro u claims
    by_cases own : u = t
    · subst own
      exact excluding.both u (.inr seeking)
    · rw [Function.update_of_ne own] at claims
      rcases claims with bears | wants
      · exact absurd (only u bears) own
      · exact excluding.both u (.inr wants)
  · intro u bears
    obtain rfl := only u bears
    simp [State.setWord]
  · intro _
    exact ⟨t, .inr (Function.update_self ..)⟩

theorem Excluding.clear (excluding : Excluding cfg a gs h) (apart : Apart cfg) (leaving : gs t = .leaving) (server : ℕ) :
    Excluding cfg a (Function.update gs t .left) ⟨h.state.setWord a 0 server, Function.update h.holds t false⟩ := by
  -- whoever clears the word bore it alone
  have held : Bears gs h t := .inl ((excluding.stands t).2 leaving)
  have nobody : ∀ u, ¬ Bears (Function.update gs t .left) ⟨h.state.setWord a 0 server, Function.update h.holds t false⟩ u := by
    intro u bears
    by_cases own : u = t
    · subst own
      simp [Bears] at bears
    · have other : Bears gs h u := by
        simpa only [Bears, Function.update_of_ne own] using bears
      exact own (excluding.unique apart other held)
  constructor
  · intro u
    by_cases own : u = t
    · subst own
      simp
    · rw [Function.update_of_ne own]
      simp only [Function.update_of_ne own]
      exact excluding.stands u
  · intro u claims
    rcases claims with bears | seeking
    · exact absurd bears (nobody u)
    · by_cases own : u = t
      · subst own
        simp at seeking
      · rw [Function.update_of_ne own] at seeking
        exact excluding.both u (.inr seeking)
  · intro u bears
    exact absurd bears (nobody u)
  · intro set
    simp [State.setWord] at set

theorem Excluding.act {o : Op} {c : Unit} {r : o.act.Reply} {g : Grip} (excluding : Excluding cfg a gs h) (apart : Apart cfg)
    (tagged : ∀ u < 2, cfg.tag u ≠ 0) (performed : Holding.exec cfg t o c h = some (r, h'))
    (permitted : Grips cfg a t (gs t) o r g) :
    Excluding cfg a (Function.update gs t g) h' := by
  obtain ⟨reply, executed, eq⟩ := Option.map_eq_some_iff.1 performed
  generalize before : gs t = g₀ at permitted
  cases permitted with
  | retry set other =>
    simp only [Locks.exec] at executed
    split_ifs at executed with zero
    · cases executed
      cases eq
      exact absurd zero set
    · cases executed
      cases eq
      exact excluding.proceed (by simp [before]) (by simp) ⟨fun _ => (excluding.stands t).1 (.inl before), by simp⟩
        fun _ => excluding.both t (.inr before)
  | take mine =>
    simp only [Locks.exec] at executed
    split_ifs at executed with zero
    · cases executed
      cases eq
      exact excluding.take tagged before zero _
    · cases executed
      cases eq
      -- the word has the tag of an instance that bears it, which is the other one
      obtain ⟨u, bears⟩ := excluding.borne zero
      have same := mine.resolve_left zero
      dsimp only at same
      rw [excluding.word u bears] at same
      obtain rfl := apart u (excluding.both u (.inl bears)) t (excluding.both t (.inr before)) same
      rcases bears with held | taken
      · rw [(excluding.stands u).1 (.inl before)] at held
        cases held
      · rw [before] at taken
        cases taken
  | clear =>
    cases executed
    cases eq
    exact excluding.clear apart before _

theorem preserves_excluding (apart : Apart cfg) (tagged : ∀ u < 2, cfg.tag u ≠ 0) :
    Preserves (instances cfg a) (gripMachine cfg a) (Excluding cfg a) anything where
  invoke gs h t call g excluding idle admitted begins := by
    obtain rfl : g = call.grip := begins
    change gs t = .idle at idle
    refine excluding.proceed (by simp [idle]) (by cases call <;> simp [Request.grip]) ?_ fun _ => admitted.1
    cases call with
    | tryLockAddress tag => exact ⟨fun _ => admitted.2.2, by simp [Request.grip]⟩
    | unlockAddress => exact ⟨by simp [Request.grip], fun _ => admitted.2⟩
  act gs h t o c r h' g excluding performed _ permitted := excluding.act apart tagged performed permitted
  finish gs h t call r excluding ends := by
    change gs t = call.gripped at ends
    cases call with
    | tryLockAddress tag =>
      have same : ∀ u, Bears (Function.update gs t .idle) { h with holds := Function.update h.holds t true } u ↔ Bears gs h u := by
        intro u
        unfold Bears
        by_cases own : u = t
        · subst own
          simp [ends, Request.gripped]
        · simp only [Function.update_of_ne own]
      constructor
      · intro u
        by_cases own : u = t
        · subst own
          simp [gripMachine]
        · simp only [instances, Function.update_of_ne own]
          exact excluding.stands u
      · intro u claims
        rcases claims with bears | seeking
        · exact excluding.both u (.inl ((same u).1 bears))
        · by_cases own : u = t
          · subst own
            simp [gripMachine] at seeking
          · rw [Function.update_of_ne own] at seeking
            exact excluding.both u (.inr seeking)
      · intro u bears
        exact excluding.word u ((same u).1 bears)
      · intro set
        obtain ⟨u, bears⟩ := excluding.borne set
        exact ⟨u, (same u).2 bears⟩
    | unlockAddress =>
      exact excluding.proceed (by simp [ends, Request.gripped]) (by simp [gripMachine]) (by simp [gripMachine])
        (by simp [gripMachine])
  env _ _ _ _ moved := moved.elim

end

/-! ## Two instances -/

section
variable {first second : BitVec 64} {loopBound : ℕ} {a : GlobalAddress}

theorem apart_fallback (differ : owner first ≠ owner second) : Apart (fallback first second loopBound) := by
  intro t few u few' same
  simp only [fallback] at same
  split_ifs at same
  · omega
  · exact absurd same differ
  · exact absurd same.symm differ
  · omega

theorem excludes_fallback (nonZero : first ≠ 0) (nonZero' : second ≠ 0) (differ : owner first ≠ owner second)
    {P : Pool signature ℕ Request Unit Holding}
    (run : Reaches (instances (fallback first second loopBound) a) anything (.start .start) P) :
    ¬ (P.shared.holds 0 = true ∧ P.shared.holds 1 = true) := by
  have start : Excluding (fallback first second loopBound) a (fun _ => .idle) .start := by
    constructor
    · simp [Holding.start]
    · simp [Bears, Holding.start]
    · simp [Bears, Holding.start]
    · simp [Holding.start, initial]
  have tagged : ∀ u < 2, (fallback first second loopBound).tag u ≠ 0 := by
    intro u _
    simp only [fallback]
    split_ifs
    · exact nonZero
    · exact nonZero'
  have apart : Apart (fallback first second loopBound) := apart_fallback differ
  obtain ⟨gs, explains⟩ := (explains_start (M := gripMachine _ a) start).reaches (implements_grips rfl)
    (preserves_excluding apart tagged) run
  rintro ⟨one, two⟩
  exact absurd (explains.holds.unique apart (.inl one) (.inl two)) (by decide)

theorem exec_casWord (cfg : Config) (t : ℕ) (site : Site) (a : GlobalAddress) (tag : BitVec 64) (c : Unit) (h : Holding) :
    Holding.exec cfg t ⟨site, .casWord a tag⟩ c h = some (h.state.words a,
      { h with state := if h.state.words a = 0 then h.state.setWord a tag (cfg.home t) else h.state }) := by
  simp only [Holding.exec, Locks.exec, Act.clears, Bool.false_eq_true, if_false]
  split_ifs <;> rfl

/-- An instance whose CAS finds the word clear, or the upper half of its own tag, returns with the lock. -/
theorem run_tryLockAddress {t : ℕ} {tag : BitVec 64} {h : Holding}
    (mine : h.state.words a = 0 ∨ owner (h.state.words a) = owner tag) :
    (tryLockAddress (fallback first second 1) tag a).run (Holding.exec (fallback first second 1)) t [()] h =
      some ((), { h with state := if h.state.words a = 0 then h.state.setWord a tag t else h.state }) := by
  refine (run_perform (exec_casWord _ t _ a tag () h)).trans ?_
  change Program.run _ t (if h.state.words a = 0 then pure () else if owner (h.state.words a) = owner tag then pure () else _)
    _ _ = _
  by_cases zero : h.state.words a = 0
  · rw [if_pos zero]
    rfl
  · rw [if_neg zero, if_pos (mine.resolve_left zero)]
    rfl

theorem reaches_locked {P : Pool signature ℕ Request Unit Holding} {t : ℕ} {tag : BitVec 64} (free : P.threads t = none)
    (admitted : (instances (fallback first second 1) a).admits P.shared t (.tryLockAddress tag))
    (mine : P.shared.state.words a = 0 ∨ owner (P.shared.state.words a) = owner tag) :
    Reaches (instances (fallback first second 1) a) anything P
      ⟨⟨if P.shared.state.words a = 0 then P.shared.state.setWord a tag t else P.shared.state,
        Function.update P.shared.holds t true⟩, P.threads⟩ := by
  have goes : Reaches (instances (fallback first second 1) a) anything P
      ⟨(instances (fallback first second 1) a).returned t (.tryLockAddress tag) () _, P.threads⟩ :=
    reaches_call free admitted (run_tryLockAddress mine)
  exact goes

theorem overlaps_fallback (same : owner first = owner second) : ∃ P : Pool signature ℕ Request Unit Holding,
    Reaches (instances (fallback first second 1) a) anything (.start .start) P ∧ P.shared.holds 0 = true ∧
      P.shared.holds 1 = true := by
  have one : Reaches (instances (fallback first second 1) a) anything (.start .start)
      ⟨⟨initial.setWord a first 0, Function.update (fun _ => false) 0 true⟩, fun _ => none⟩ :=
    reaches_locked rfl ⟨by decide, rfl, rfl⟩ (.inl rfl)
  have admitted : (instances (fallback first second 1) a).admits
    ⟨initial.setWord a first 0, Function.update (fun _ => false) 0 true⟩ 1
      (.tryLockAddress second) := ⟨by decide, rfl, rfl⟩
  have two : Reaches (instances (fallback first second 1) a) anything
      ⟨⟨initial.setWord a first 0, Function.update (fun _ => false) 0 true⟩, fun _ => none⟩ _ :=
    reaches_locked rfl admitted (.inr (by simp [State.setWord, same]))
  exact ⟨_, one.trans two, rfl, rfl⟩

end

/-- Two instances never hold the lock of a page at the same time, in whatever order they lock and unlock it, if and
only if the upper halves of their tags differ. -/
theorem tags_exclude {first second : BitVec 64} (nonZero : first ≠ 0) (nonZero' : second ≠ 0) (a : GlobalAddress) :
    (∀ (loopBound : ℕ) (P : Pool signature ℕ Request Unit Holding),
      Reaches (instances (fallback first second loopBound) a) anything (.start .start) P →
        ¬ (P.shared.holds 0 = true ∧ P.shared.holds 1 = true)) ↔
        first >>> 32 ≠ second >>> 32 := by
  constructor
  · intro excluded same
    obtain ⟨P, run, both⟩ := overlaps_fallback (a := a) same
    exact excluded 1 P run both
  · intro differ loopBound P run
    exact excludes_fallback nonZero nonZero' differ run

theorem tags_exclude_halves : 0x100000000#64 >>> 32 ≠ 0x200000000#64 >>> 32 ∧
    ∀ (loopBound : ℕ) (P : Pool signature ℕ Request Unit Holding),
    Reaches (instances (fallback 0x100000000#64 0x200000000#64 loopBound) ⟨1024⟩) anything (.start .start) P →
      ¬ (P.shared.holds 0 = true ∧ P.shared.holds 1 = true) :=
  ⟨by decide, (tags_exclude (by decide) (by decide) ⟨1024⟩).2 (by decide)⟩

/-- Tags that are the addresses of two instances in one part of the heap. -/
theorem tags_overlap_heap : ¬ ∀ first second : BitVec 64, first ≠ 0 → second ≠ 0 → first ≠ second →
    ∀ (a : GlobalAddress) (loopBound : ℕ) (P : Pool signature ℕ Request Unit Holding),
      Reaches (instances (fallback first second loopBound) a) anything (.start .start) P →
        ¬ (P.shared.holds 0 = true ∧ P.shared.holds 1 = true) := by
  intro claimed
  obtain ⟨P, run, both⟩ := overlaps_fallback (a := ⟨1024⟩) (show owner 0x00007F5A10000010#64 = owner 0x00007F5A10000470#64 by decide)
  exact claimed _ _ (by decide) (by decide) (by decide) _ 1 P run both

end Faunus.Sherman.Locks
