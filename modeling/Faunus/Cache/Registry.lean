import Faunus.Cache.Reclamation
import Faunus.Cache.Guards
import Faunus.Interleaving.Logs

/-! Several range caches and the records of the threads.

The pointer to a thread's record is shared by all caches of the same types, while every
cache has a registry and an epoch of its own. A record is pushed to the registry of the
cache that its thread uses first, and to no other one.
-/

set_option autoImplicit false

namespace Faunus.Cache

open Interleaving

section
variable (Key Addr Node : Type)

def instanceSignature : Signature := ⟨ℕ × Act Key Addr Node, fun o => o.2.Reply⟩

inductive InstanceEvent where
  | invoked (t : ℕ)
  | performed (t c : ℕ) (o : Act Key Addr Node) (r : o.Reply)
  | returned (t : ℕ)

structure Instances where
  /-- The epochs of the records are kept apart from the caches. -/
  caches : ℕ → Shared Key Addr Node
  epochs : ℕ → ℕ
  /-- The thread's `tls_tr_` is set. -/
  hasRecord : ℕ → Bool
  history : List (InstanceEvent Key Addr Node)

/-- The calls of the caches, and a scan by whatever thread. -/
inductive InstanceCall where
  | use (c : ℕ) (call : Call Key Addr Node)
  | scan (c : ℕ)

inductive InstanceOutcome where
  | done (outcome : Outcome Addr Node)
  | minEpoch (epoch : ℕ)

end

section
variable {Key Addr Node : Type}

/-- A function of one cache, in the system of all caches. -/
def onInstance {A : Type} (c : ℕ) : Code Key Addr Node A → Program (instanceSignature Key Addr Node) A
  | .value a => .value a
  | .stuck => .stuck
  | .perform o next => .perform (I := instanceSignature Key Addr Node) (c, o) fun r => onInstance c (next r)

theorem onInstance_bind {A B : Type} (c : ℕ) (p : Code Key Addr Node A) (f : A → Code Key Addr Node B) :
    onInstance c (p >>= f) = onInstance c p >>= fun a => onInstance c (f a) := by
  induction p with
  | value a => rfl
  | stuck => rfl
  | perform o next ih => exact congrArg _ (funext fun r => ih r)

def Instances.view (s : Instances Key Addr Node) (c : ℕ) : Shared Key Addr Node := { s.caches c with epochs := s.epochs }

/-- The exchange that succeeds has pushed the record of the thread. -/
def Act.pushes : (o : Act Key Addr Node) → o.Reply → Bool
  | .casHead _, none => true
  | _, _ => false

def Instances.store (s : Instances Key Addr Node) (t c : ℕ) (o : Act Key Addr Node) (r : o.Reply) (cache : Shared Key Addr Node) :
    Instances Key Addr Node where
  caches := Function.update s.caches c cache
  epochs := cache.epochs
  hasRecord := if o.pushes r then Function.update s.hasRecord t true else s.hasRecord
  history := .performed t c o r :: s.history

variable [LinearOrder Key]

def Instances.exec : Exec (instanceSignature Key Addr Node) ℕ ℕ (Instances Key Addr Node) := fun t o choice s =>
  match o with
  | (c, .threadRecord) => some (s.hasRecord t, s.store t c .threadRecord (s.hasRecord t) (s.view c))
  | (c, o) =>
    match Shared.exec t o choice (s.view c) with
    | some (r, cache) => some (r, s.store t c o r cache)
    | none => none

def InstanceCall.body (fence : Node → Key × Key) (bound : ℕ) :
    InstanceCall Key Addr Node → Program (instanceSignature Key Addr Node) (InstanceOutcome Addr Node)
  | .use c call => do
    let outcome ← onInstance c (call.body fence bound)
    pure (.done outcome)
  | .scan c => do
    let epoch ← onInstance c scanMinEpoch
    pure (.minEpoch epoch)

/-- Threads that make the admitted calls on any number of caches. -/
def rangeCaches (fence : Node → Key × Key) (bound : ℕ) (admits : ℕ → InstanceCall Key Addr Node → Prop) :
    System (instanceSignature Key Addr Node) ℕ ℕ (InstanceCall Key Addr Node) (InstanceOutcome Addr Node)
    (Instances Key Addr Node) where
  exec := Instances.exec
  body := InstanceCall.body fence bound
  admits _ t call := admits t call
  env _ _ := False
  invoked t _ s := { s with history := .invoked t :: s.history }
  returned t _ _ s := { s with history := .returned t :: s.history }

def Instances.init (entrySize base maxEntries : ℕ → ℕ) (entries : ℕ → Entry Key Addr Node) : Instances Key Addr Node where
  caches c := (State.init (entrySize c) (base c) (maxEntries c) entries).cache
  epochs := fun _ => 0
  hasRecord := fun _ => false
  history := []

end

/-! ## What a thread is about -/

/-- What the events of a thread tell about its guard and its scan. -/
structure Watch where
  known : Bool := false
  loaded : Option ℕ := none
  /-- The cache of the guard that stands, and the epoch it has published. -/
  guard : Option (ℕ × ℕ) := none
  /-- The cache that is scanned, the records still to be read, and the smallest epoch so far. -/
  scan : Option (ℕ × List ℕ × Option ℕ) := none

section
variable {Key Addr Node : Type}

/-- A guard stores once when it is constructed and once when it is destroyed. -/
def Watch.after (g : Watch) (c : ℕ) : (o : Act Key Addr Node) → o.Reply → Watch
  | .threadRecord, known => { g with known := g.known || known }
  | .loadHead, records => { g with scan := some (c, records, none) }
  | .casHead _, failed => { g with known := g.known || failed.isNone }
  | .loadEpoch, e => { g with loaded := some e }
  | .storeRecord e, _ => { g with guard := if g.guard.isSome then none else some (c, e) }
  | .loadRecord _, e => { g with scan := g.scan.map fun (c, records, least) => (c, records.tail, lesser least e) }
  | _, _ => g

def watch (t : ℕ) : List (InstanceEvent Key Addr Node) → Watch
  | [] => {}
  | .invoked u :: before => if u = t then {} else watch t before
  | .performed u c o r :: before => if u = t then (watch t before).after c o r else watch t before
  | .returned u :: before => if u = t then {} else watch t before

def Act.isStore : Act Key Addr Node → Bool
  | .storeRecord _ => true
  | _ => false

def Act.isLoadHead : Act Key Addr Node → Bool
  | .loadHead => true
  | _ => false

/-- The thread has neither constructed nor destroyed a guard since the other one has loaded a head last. -/
def Stood (t u : ℕ) : List (InstanceEvent Key Addr Node) → Prop
  | [] => False
  | .performed v _ o _ :: before => (v = u ∧ o.isLoadHead = true) ∨ (¬ (v = t ∧ o.isStore = true) ∧ Stood t u before)
  | _ :: before => Stood t u before

/-- What a thread may do whose guards are all on one cache. -/
def Watch.may (g : Watch) (home c : ℕ) : Act Key Addr Node → Prop
  | .casHead _ => c = home ∧ g.guard = none
  | .storeRecord e => c = home ∧ ((g.guard = none ∧ g.known = true ∧ g.loaded = some e) ∨ (g.guard.isSome = true ∧ e = 0))
  | .loadRecord u => ∃ rest least, g.scan = some (c, u :: rest, least)
  | _ => True

variable [LinearOrder Key]

def watchMachine (home : ℕ → ℕ) :
    Machine (instanceSignature Key Addr Node) ℕ (InstanceCall Key Addr Node) (InstanceOutcome Addr Node)
    (Instances Key Addr Node) Watch where
  idle := {}
  begins _ _ _ _ g := g = {}
  permits t gs _ o r _ g := (gs t).may (home t) o.1 o.2 ∧ g = (gs t).after o.1 o.2 r
  ends _ call outcome g := g.guard = none ∧ ∀ c m, call = .scan c → outcome = .minEpoch m →
    ∃ least, g.scan = some (c, [], least) ∧ ∀ m' ∈ least, m' = m

end

/-! ## The functions do what they may -/

section
variable {Key Addr Node : Type}

/-- The operation neither pushes or stores a record nor reads one. -/
def Act.Quiet : Act Key Addr Node → Prop
  | .casHead _ => False
  | .storeRecord _ => False
  | .loadRecord _ => False
  | _ => True

abbrev QuietCode {A : Type} (p : Code Key Addr Node A) : Prop := p.Only Act.Quiet

theorem quiet_takeBatch (budget : ℕ) (batch : List RetiredItem) : QuietCode (takeBatch budget batch : Code Key Addr Node _) := by
  induction budget generalizing batch with
  | zero => trivial
  | succ budget ih =>
    refine ⟨trivial, fun r => ?_⟩
    cases r with
    | none => trivial
    | some ri => exact ih (batch ++ [ri])

theorem quiet_sweep (minEpoch : ℕ) (items kept : List RetiredItem) :
    QuietCode (sweep minEpoch items kept : Code Key Addr Node _) := by
  induction items generalizing kept with
  | nil => trivial
  | cons r rest ih =>
    unfold sweep
    split
    · exact ⟨trivial, fun _ => ih kept⟩
    · exact ih (kept ++ [r])

theorem quiet_reenqueueAll (items : List RetiredItem) : QuietCode (reenqueueAll items : Code Key Addr Node _) := by
  induction items with
  | nil => trivial
  | cons r rest ih => exact ⟨trivial, fun _ => ih⟩

theorem quiet_eraseAndRetire (chunk : ℕ) : QuietCode (eraseAndRetire chunk : Code Key Addr Node _) := by
  refine ⟨trivial, fun erased => ?_⟩
  cases erased with
  | false => trivial
  | true => exact ⟨trivial, fun _ => ⟨trivial, fun _ => trivial⟩⟩

theorem quiet_evictPowerOfTwo : QuietCode (evictPowerOfTwo : Code Key Addr Node _) := by
  refine ⟨trivial, fun (count : ℕ) => ?_⟩
  show QuietCode (if count > 0 then Program.value () else _)
  split
  · trivial
  · refine ⟨trivial, fun v1 => ?_⟩
    cases v1 with
    | none => trivial
    | some v1 =>
      refine ⟨trivial, fun v2 => ?_⟩
      cases v2 with
      | none => trivial
      | some v2 => exact ⟨trivial, fun _ => ⟨trivial, fun _ => quiet_eraseAndRetire _⟩⟩

theorem quiet_allocEntry (start stop : Key) (first : Addr) (second : Node) : QuietCode (allocEntry start stop first second) := by
  refine ⟨trivial, fun e => ?_⟩
  cases e with
  | none => trivial
  | some e => exact ⟨trivial, fun _ => ⟨trivial, fun _ => trivial⟩⟩

end

section
variable {Key Addr Node : Type} [LinearOrder Key] {home : ℕ → ℕ} {inv : (ℕ → Watch) → Instances Key Addr Node → Prop}
    {t c : ℕ} {A B : Type}

abbrev FollowsOn (home : ℕ → ℕ) (inv : (ℕ → Watch) → Instances Key Addr Node → Prop) (t c : ℕ) (post : A → Watch → Prop)
    (p : Code Key Addr Node A) (g : Watch) : Prop :=
  Interleaving.Follows (watchMachine home).permits Instances.exec inv t post (onInstance c p) g

theorem followsOn_act {o : Act Key Addr Node} {next : o.Reply → Code Key Addr Node A} {post : A → Watch → Prop} {g : Watch}
    (may : g.may (home t) c o) (each : ∀ r, FollowsOn home inv t c post (next r) (g.after c o r)) :
    FollowsOn home inv t c post (Program.perform (I := signature Key Addr Node) o next) g := by
  intro gs s _ own choice r s' _
  refine ⟨g.after c o r, ?_, each r⟩
  rw [← own] at may ⊢
  exact ⟨may, rfl⟩

theorem followsOn_bind {p : Code Key Addr Node A} {f : A → Code Key Addr Node B} {post : B → Watch → Prop} {g : Watch}
    (follows : FollowsOn home inv t c (fun a g => FollowsOn home inv t c post (f a) g) p g) :
    FollowsOn home inv t c post (p >>= f) g := by
  unfold FollowsOn at follows ⊢
  rw [onInstance_bind]
  exact follows_bind follows

theorem followsOn_quiet {p : Code Key Addr Node A} (quiet : QuietCode p) (g : Watch) :
    FollowsOn home inv t c (fun _ g' => g'.guard = g.guard) p g := by
  induction p generalizing g with
  | value a => exact rfl
  | stuck => trivial
  | perform o next ih =>
    have same : g.may (home t) c o ∧ ∀ r, (g.after c o r).guard = g.guard := by
      cases o with
      | casHead expected => exact quiet.1.elim
      | storeRecord epoch => exact quiet.1.elim
      | loadRecord u => exact quiet.1.elim
      | _ => exact ⟨trivial, fun _ => rfl⟩
    refine followsOn_act same.1 fun r => ?_
    exact follows_mono (ih r (quiet.2 r) _) fun _ _ kept => kept.trans (same.2 r)

theorem followsOn_pushRecord {bound : ℕ} {old : List ℕ} {g : Watch} (unguarded : g.guard = none) (own : c = home t) :
    FollowsOn home inv t c (fun _ g' => g'.guard = none ∧ g'.known = true) (pushRecord bound old) g := by
  induction bound generalizing old g with
  | zero => trivial
  | succ bound ih =>
    refine followsOn_act ⟨own, unguarded⟩ fun failed => ?_
    cases failed with
    | none =>
      refine ⟨unguarded, ?_⟩
      simp [Watch.after]
    | some head => exact ih unguarded

theorem followsOn_openGuard {bound : ℕ} {g : Watch} (unguarded : g.guard = none) (own : c = home t) :
    FollowsOn home inv t c (fun _ g' => g'.guard.isSome = true) (openGuard bound) g := by
  have publish : ∀ g' : Watch, g'.guard = none → g'.known = true →
      FollowsOn home inv t c (fun _ g' => g'.guard.isSome = true) (do let e ← perform .loadEpoch; perform (.storeRecord e)) g' := by
    intro g' unguarded known
    refine followsOn_act trivial fun e => ?_
    refine followsOn_act ⟨own, .inl ⟨unguarded, known, rfl⟩⟩ fun _ => ?_
    show (if g'.guard.isSome then none else some (c, e)).isSome = true
    rw [unguarded]
    rfl
  refine followsOn_act trivial fun known => ?_
  cases known with
  | true =>
    refine publish _ unguarded ?_
    simp [Watch.after]
  | false =>
    refine followsOn_act trivial fun old => ?_
    show FollowsOn home inv t c _ (pushRecord bound old >>= _) _
    refine followsOn_bind (follows_mono (followsOn_pushRecord unguarded own) ?_)
    rintro _ g' ⟨unguarded, known⟩
    exact publish g' unguarded known

theorem followsOn_closeGuard {g : Watch} (guarded : g.guard.isSome = true) (own : c = home t) :
    FollowsOn home inv t c (fun _ g' => g'.guard = none) closeGuard g :=
  followsOn_act ⟨own, .inr ⟨guarded, rfl⟩⟩ fun _ => if_pos guarded

theorem followsOn_scanRecords {records : List ℕ} {least : Option ℕ} {g : Watch} (scan : g.scan = some (c, records, least)) :
    FollowsOn home inv t c (fun least g' => g'.guard = g.guard ∧ g'.scan = some (c, [], least)) (scanRecords records least) g := by
  induction records generalizing least g with
  | nil => exact ⟨rfl, scan⟩
  | cons u rest ih =>
    refine followsOn_act ⟨rest, least, scan⟩ fun e => ?_
    have later : (g.after c (.loadRecord u) e).scan = some (c, rest, lesser least e) := by simp [Watch.after, scan]
    exact follows_mono (ih later) fun _ _ kept => kept

theorem followsOn_scanMinEpoch (g : Watch) :
    FollowsOn home inv t c (fun minEpoch g' => g'.guard = g.guard ∧ ∃ least, g'.scan = some (c, [], least) ∧ ∀ m ∈ least,
      m = minEpoch)
      scanMinEpoch g := by
  refine followsOn_act trivial fun records => ?_
  show FollowsOn home inv t c _ (scanRecords records none >>= _) _
  refine followsOn_bind (follows_mono (followsOn_scanRecords rfl) ?_)
  rintro least g' ⟨kept, scan⟩
  cases least with
  | some e => exact ⟨kept, some e, scan, by simp⟩
  | none => exact followsOn_act trivial fun e => ⟨kept, none, scan, by simp⟩

theorem followsOn_tryReclaimBudgeted (budget : ℕ) (g : Watch) :
    FollowsOn home inv t c (fun _ g' => g'.guard = g.guard) (tryReclaimBudgeted budget) g := by
  refine followsOn_bind (follows_mono (followsOn_quiet (quiet_takeBatch budget []) g) ?_)
  intro batch g₁ kept₁
  split
  · exact kept₁
  · refine followsOn_bind (follows_mono (followsOn_scanMinEpoch g₁) ?_)
    rintro minEpoch g₂ ⟨kept₂, -⟩
    refine followsOn_bind (follows_mono (followsOn_quiet (quiet_sweep minEpoch batch []) g₂) ?_)
    intro kept g₃ kept₃
    refine followsOn_bind (follows_mono (followsOn_quiet (quiet_reenqueueAll kept) g₃) ?_)
    intro _ g₄ kept₄
    have all : g₄.guard = g.guard := kept₄.trans (kept₃.trans (kept₂.trans kept₁))
    by_cases nothing : kept.isEmpty
    · simp only [nothing]
      exact all
    · simp only [nothing]
      exact followsOn_act trivial fun _ => all

theorem followsOn_addAttempts (start stop : Key) (first : Addr) (second : Node) (attempts : ℕ) (g : Watch) :
    FollowsOn home inv t c (fun _ g' => g'.guard = g.guard) (addAttempts start stop first second attempts) g := by
  induction attempts generalizing g with
  | zero => exact rfl
  | succ attempts ih =>
    refine followsOn_bind (follows_mono (followsOn_quiet (quiet_allocEntry start stop first second) g) ?_)
    intro e g₁ kept₁
    cases e with
    | some e => exact followsOn_act trivial fun _ => kept₁
    | none =>
      refine followsOn_bind (follows_mono (followsOn_tryReclaimBudgeted 64 g₁) ?_)
      intro _ g₂ kept₂
      refine followsOn_bind (follows_mono (followsOn_quiet quiet_evictPowerOfTwo g₂) ?_)
      intro _ g₃ kept₃
      exact follows_mono (ih g₃) fun _ _ kept₄ => kept₄.trans (kept₃.trans (kept₂.trans kept₁))

theorem followsOn_search {bound : ℕ} {key : Key} {g : Watch} (unguarded : g.guard = none) (own : c = home t) :
    FollowsOn home inv t c (fun _ g' => g'.guard = none) (search bound key : Code Key Addr Node _) g := by
  refine followsOn_bind (follows_mono (followsOn_openGuard unguarded own) ?_)
  intro _ g₁ guarded
  refine followsOn_act trivial fun e => ?_
  cases e with
  | none => exact followsOn_act ⟨own, .inr ⟨guarded, rfl⟩⟩ fun _ => if_pos guarded
  | some e =>
    refine followsOn_act trivial fun (start : Key) => ?_
    refine followsOn_act trivial fun (stop : Key) => ?_
    show FollowsOn home inv t c _ (if start ≤ key ∧ key < stop then _ else _) _
    split
    · refine followsOn_act trivial fun _ => ?_
      exact followsOn_act ⟨own, .inr ⟨guarded, rfl⟩⟩ fun _ => if_pos guarded
    · exact followsOn_act ⟨own, .inr ⟨guarded, rfl⟩⟩ fun _ => if_pos guarded

theorem followsOn_findNode {fence : Node → Key × Key} {bound : ℕ} {key : Key} {g : Watch} (unguarded : g.guard = none)
    (own : c = home t) :
    FollowsOn home inv t c (fun _ g' => g'.guard = none) (findNode fence bound key : Code Key Addr Node _) g := by
  refine followsOn_bind (follows_mono (followsOn_search unguarded own) ?_)
  intro e g₁ closed
  cases e with
  | none => exact closed
  | some e =>
    refine followsOn_act trivial fun node => ?_
    refine followsOn_act trivial fun address => ?_
    show FollowsOn home inv t c _ (if (fence node).1 ≤ key ∧ key < (fence node).2 then _ else _) _
    split
    · exact closed
    · exact closed

theorem followsOn_body {fence : Node → Key × Key} {bound : ℕ} {call : Call Key Addr Node} {g : Watch}
    (unguarded : g.guard = none) (own : c = home t) :
    FollowsOn home inv t c (fun _ g' => g'.guard = none) (call.body fence bound) g := by
  cases call with
  | search key => exact followsOn_bind (follows_mono (followsOn_search unguarded own) fun _ _ closed => closed)
  | findNode key => exact followsOn_findNode unguarded own
  | add start stop first second =>
    refine followsOn_bind (followsOn_bind (follows_mono (followsOn_openGuard unguarded own) ?_))
    intro _ g₁ guarded
    refine followsOn_bind (follows_mono (followsOn_addAttempts start stop first second 3 g₁) ?_)
    intro _ g₂ kept
    exact follows_mono (followsOn_closeGuard (kept ▸ guarded) own) fun _ _ closed => closed
  | invalidate e =>
    refine followsOn_bind (followsOn_bind (follows_mono (followsOn_openGuard unguarded own) ?_))
    intro _ g₁ guarded
    refine followsOn_bind (follows_mono (followsOn_quiet (quiet_eraseAndRetire e) g₁) ?_)
    intro _ g₂ kept
    exact follows_mono (followsOn_closeGuard (kept ▸ guarded) own) fun _ _ closed => closed

/-- The calls of every thread are on one cache. -/
def AtHome (home : ℕ → ℕ) (t : ℕ) : InstanceCall Key Addr Node → Prop
  | .use c _ => c = home t
  | .scan _ => True

theorem implements_watch (fence : Node → Key × Key) (bound : ℕ) : Implements (rangeCaches fence bound (AtHome home))
    (watchMachine home) inv := by
  intro gs s t call _ _ admitted
  refine ⟨{}, rfl, ?_⟩
  cases call with
  | use c call =>
    refine follows_bind (follows_mono (followsOn_body rfl admitted) fun outcome g closed => ?_)
    exact ⟨closed, nofun⟩
  | scan c =>
    refine follows_bind (follows_mono (followsOn_scanMinEpoch {}) ?_)
    rintro epoch g ⟨kept, found⟩
    refine ⟨kept, ?_⟩
    rintro _ _ ⟨⟩ ⟨⟩
    exact found

end

/-! ## Records are in the registry of their guards -/

section
variable {Key Addr Node : Type} {home : ℕ → ℕ} {gs : ℕ → Watch} {s : Instances Key Addr Node} {t c : ℕ}

structure Registered (home : ℕ → ℕ) (gs : ℕ → Watch) (s : Instances Key Addr Node) : Prop where
  watch : ∀ t, gs t = watch t s.history
  epoch : ∀ c, (s.caches c).globalEpoch ≠ 0
  known : ∀ t, (gs t).known = true → s.hasRecord t = true
  homed : ∀ t, s.hasRecord t = true → t ∈ (s.caches (home t)).registry
  loaded : ∀ t, ∀ e ∈ (gs t).loaded, e ≠ 0
  guard : ∀ t c e, (gs t).guard = some (c, e) → c = home t ∧ s.hasRecord t = true ∧ s.epochs t = e ∧ e ≠ 0
  scan : ∀ u t c e rest least, (gs t).guard = some (c, e) → (gs u).scan = some (c, rest, least) → Stood t u s.history →
    t ∈ rest ∨ ∃ m ∈ least, m ≤ e

theorem update_watch (same : ∀ u, gs u = watch u s.history) (o : Act Key Addr Node) (r : o.Reply)
    (cache : Shared Key Addr Node) (u : ℕ) :
    Function.update gs t ((gs t).after c o r) u = watch u (s.store t c o r cache).history := by
  by_cases own : u = t
  · subst own
    rw [Function.update_self, same]
    exact (if_pos rfl).symm
  · rw [Function.update_of_ne own, same]
    exact (if_neg (Ne.symm own)).symm

/-- An operation that neither pushes nor reads or stores a record leaves records and epochs as they are. -/
theorem Effect.stable [LinearOrder Key] {o : Act Key Addr Node} {r : o.Reply} {shared shared' : Shared Key Addr Node}
    (effect : Effect t shared o r shared') (quiet : o.Quiet) :
    shared'.registry = shared.registry ∧ shared'.epochs = shared.epochs ∧ (shared.globalEpoch ≠ 0 → shared'.globalEpoch ≠ 0) := by
  cases effect <;> first | exact ⟨rfl, rfl, id⟩ | exact quiet.elim | exact ⟨rfl, rfl, fun _ => Nat.succ_ne_zero _⟩

theorem stood_before {t u v : ℕ} {o : Act Key Addr Node} {r : o.Reply} {history : List (InstanceEvent Key Addr Node)}
    (other : o.isLoadHead = false) (stood : Stood t u (.performed v c o r :: history)) : Stood t u history := by
  rcases stood with ⟨-, head⟩ | ⟨-, stood⟩
  · rw [other] at head
    cases head
  · exact stood

theorem store_caches (s : Instances Key Addr Node) {o : Act Key Addr Node} {r : o.Reply} {cache : Shared Key Addr Node} {A : Type}
    (f : Shared Key Addr Node → A) (same : f cache = f (s.caches c)) (c' : ℕ) :
    f ((s.store t c o r cache).caches c') = f (s.caches c') := by
  show f (Function.update s.caches c cache c') = _
  by_cases here : c' = c
  · subst here
    rw [Function.update_self, same]
  · rw [Function.update_of_ne here]

theorem Registered.stable (ok : Registered home gs s) {o : Act Key Addr Node} {r : o.Reply} {cache : Shared Key Addr Node}
    (registry : cache.registry = (s.caches c).registry) (epochs : cache.epochs = s.epochs) (epoch : cache.globalEpoch ≠ 0)
    (pushes : o.pushes r = false) (guard : ((gs t).after c o r).guard = (gs t).guard)
    (known : ((gs t).after c o r).known = true → s.hasRecord t = true) (loaded : ∀ e ∈ ((gs t).after c o r).loaded, e ≠ 0)
    (scan : ∀ u c' e rest least, (gs u).guard = some (c', e) → ((gs t).after c o r).scan = some (c', rest, least) →
      Stood u t (s.store t c o r cache).history → u ∈ rest ∨ ∃ m ∈ least, m ≤ e) :
    Registered home (Function.update gs t ((gs t).after c o r)) (s.store t c o r cache) := by
  -- an operation that changes no record, with what it tells its thread
  have records : (s.store t c o r cache).hasRecord = s.hasRecord := if_neg (by simp [pushes])
  have guards : ∀ u, (Function.update gs t ((gs t).after c o r) u).guard = (gs u).guard := by
    intro u
    by_cases own : u = t
    · subst own
      rw [Function.update_self, guard]
    · rw [Function.update_of_ne own]
  refine ⟨update_watch ok.watch o r cache, ?_, ?_, ?_, ?_, ?_, ?_⟩
  · intro c'
    show (Function.update s.caches c cache c').globalEpoch ≠ 0
    by_cases here : c' = c
    · subst here
      rwa [Function.update_self]
    · rw [Function.update_of_ne here]
      exact ok.epoch c'
  · intro u
    rw [records]
    by_cases own : u = t
    · subst own
      rw [Function.update_self]
      exact known
    · rw [Function.update_of_ne own]
      exact ok.known u
  · intro u
    rw [records, store_caches s Shared.registry registry]
    exact ok.homed u
  · intro u
    by_cases own : u = t
    · subst own
      rw [Function.update_self]
      exact loaded
    · rw [Function.update_of_ne own]
      exact ok.loaded u
  · intro u c' e
    rw [guards, records]
    intro stands
    obtain ⟨here, recorded, published, positive⟩ := ok.guard u c' e stands
    exact ⟨here, recorded, (congrFun epochs u).trans published, positive⟩
  · intro v u c' e rest least
    rw [guards]
    intro stands scanning stood
    by_cases own : v = t
    · subst own
      rw [Function.update_self] at scanning
      exact scan u c' e rest least stands scanning stood
    · rw [Function.update_of_ne own] at scanning
      rcases stood with ⟨same, -⟩ | ⟨-, stood⟩
      · exact absurd same (Ne.symm own)
      · exact ok.scan v u c' e rest least stands scanning stood

theorem Registered.pushed (ok : Registered home gs s) {expected : List ℕ} {cache : Shared Key Addr Node}
    (registry : cache.registry = t :: (s.caches c).registry) (epochs : cache.epochs = Function.update s.epochs t 0)
    (epoch : cache.globalEpoch = (s.caches c).globalEpoch) (own : c = home t) (unguarded : (gs t).guard = none) :
    Registered home (Function.update gs t ((gs t).after c (.casHead expected : Act Key Addr Node) none))
    (s.store t c (.casHead expected) none cache) := by
  -- the record of a thread outside a guard is pushed to the registry of its home
  have after : (gs t).after c (.casHead expected : Act Key Addr Node) none = { gs t with known := true } := by simp [Watch.after]
  have records : (s.store t c (.casHead expected) none cache).hasRecord = Function.update s.hasRecord t true := rfl
  have scans : ∀ u, (Function.update gs t ((gs t).after c (.casHead expected : Act Key Addr Node) none) u).scan = (gs u).scan := by
    intro u
    by_cases same : u = t
    · rw [same, Function.update_self, after]
    · rw [Function.update_of_ne same]
  refine ⟨update_watch ok.watch _ _ _, ?_, ?_, ?_, ?_, ?_, ?_⟩
  · intro c'
    exact (store_caches s Shared.globalEpoch epoch c').trans_ne (ok.epoch c')
  · intro u
    rw [records]
    by_cases same : u = t
    · rw [same, Function.update_self, Function.update_self]
      exact fun _ => rfl
    · rw [Function.update_of_ne same, Function.update_of_ne same]
      exact ok.known u
  · intro u
    rw [records]
    show _ → u ∈ (Function.update s.caches c cache (home u)).registry
    by_cases same : u = t
    · subst same
      rw [own, Function.update_self, Function.update_self, registry]
      exact fun _ => List.mem_cons_self
    · rw [Function.update_of_ne same]
      intro recorded
      by_cases here : home u = c
      · rw [here, Function.update_self, registry]
        exact List.mem_cons_of_mem t (here ▸ ok.homed u recorded)
      · rw [Function.update_of_ne here]
        exact ok.homed u recorded
  · intro u
    by_cases same : u = t
    · rw [same, Function.update_self, after]
      exact ok.loaded t
    · rw [Function.update_of_ne same]
      exact ok.loaded u
  · intro u c' e
    by_cases same : u = t
    · rw [same, Function.update_self, after]
      intro stands
      rw [unguarded] at stands
      cases stands
    · rw [Function.update_of_ne same, records, Function.update_of_ne same]
      show _ → _ ∧ _ ∧ cache.epochs u = e ∧ _
      rw [epochs, Function.update_of_ne same]
      exact ok.guard u c' e
  · intro v u c' e rest least
    rw [scans]
    by_cases same : u = t
    · rw [same, Function.update_self, after]
      intro stands
      rw [unguarded] at stands
      cases stands
    · rw [Function.update_of_ne same]
      intro stands scanning stood
      exact ok.scan v u c' e rest least stands scanning (stood_before rfl stood)

theorem Registered.stored (ok : Registered home gs s) {published : ℕ} {cache : Shared Key Addr Node}
    (registry : cache.registry = (s.caches c).registry) (epochs : cache.epochs = Function.update s.epochs t published)
    (epoch : cache.globalEpoch = (s.caches c).globalEpoch)
    (may : (gs t).may (home t) c (.storeRecord published : Act Key Addr Node)) :
    Registered home (Function.update gs t ((gs t).after c (.storeRecord published : Act Key Addr Node) ()))
      (s.store t c (.storeRecord published) () cache) := by
  -- a thread publishes an epoch it has loaded, or leaves its guard
  obtain ⟨own, may⟩ := may
  have records : (s.store t c (.storeRecord published) () cache).hasRecord = s.hasRecord := rfl
  refine ⟨update_watch ok.watch _ _ _, ?_, ?_, ?_, ?_, ?_, ?_⟩
  · intro c'
    exact (store_caches s Shared.globalEpoch epoch c').trans_ne (ok.epoch c')
  · intro u
    by_cases same : u = t
    · rw [same, Function.update_self]
      exact ok.known t
    · rw [Function.update_of_ne same]
      exact ok.known u
  · intro u
    rw [records, show ((s.store t c (.storeRecord published) () cache).caches (home u)).registry = _ from store_caches s
      Shared.registry registry _]
    exact ok.homed u
  · intro u
    by_cases same : u = t
    · rw [same, Function.update_self]
      exact ok.loaded t
    · rw [Function.update_of_ne same]
      exact ok.loaded u
  · intro u c' e
    rw [records]
    show _ → _ ∧ _ ∧ cache.epochs u = e ∧ _
    rw [epochs]
    by_cases same : u = t
    · rw [same, Function.update_self, Function.update_self]
      rcases may with ⟨unguarded, known, loaded⟩ | ⟨guarded, -⟩
      · simp only [Watch.after, unguarded, Option.isSome_none, Bool.false_eq_true, if_false]
        rintro ⟨⟩
        exact ⟨own, ok.known t known, rfl, ok.loaded t published loaded⟩
      · simp only [Watch.after, guarded, if_true]
        exact nofun
    · rw [Function.update_of_ne same, Function.update_of_ne same]
      exact ok.guard u c' e
  · intro v u c' e rest least stands scanning stood
    have scans : (gs v).scan = some (c', rest, least) := by
      by_cases same : v = t
      · subst same
        rwa [Function.update_self] at scanning
      · rwa [Function.update_of_ne same] at scanning
    rcases stood with ⟨-, head⟩ | ⟨other, stood⟩
    · cases head
    · have apart : u ≠ t := fun same => other ⟨same.symm, rfl⟩
      rw [Function.update_of_ne apart] at stands
      exact ok.scan v u c' e rest least stands scans stood

variable [LinearOrder Key]

theorem Registered.act (ok : Registered home gs s) {o : Act Key Addr Node} {choice : ℕ} {r : o.Reply} {s' : Instances Key Addr Node}
    (performed : Instances.exec t (c, o) choice s = some (r, s')) (may : (gs t).may (home t) c o) :
    Registered home (Function.update gs t ((gs t).after c o r)) s' := by
  have recorded : ∀ {known : Bool}, (gs t).known = true ∨ known = true → (known = true → s.hasRecord t = true) →
    s.hasRecord t = true :=
    fun either known => either.elim (ok.known t) known
  have kept : ∀ {o : Act Key Addr Node} {r : o.Reply} {cache : Shared Key Addr Node}, o.isLoadHead = false →
      ∀ u c' e rest least, (gs u).guard = some (c', e) → (gs t).scan = some (c', rest, least) →
        Stood u t (s.store t c o r cache).history → u ∈ rest ∨ ∃ m ∈ least, m ≤ e :=
    fun other u c' e rest least stands scanning stood => ok.scan t u c' e rest least stands scanning (stood_before other stood)
  by_cases record : o = .threadRecord
  · subst record
    cases performed
    refine ok.stable rfl rfl (ok.epoch c) rfl rfl ?_ (ok.loaded t) (kept rfl)
    simp only [Watch.after, Bool.or_eq_true]
    exact fun either => recorded either id
  · have executed : ∃ cache, Shared.exec t o choice (s.view c) = some (r, cache) ∧ s' = s.store t c o r cache := by
      cases o with
      | threadRecord => exact absurd rfl record
      | _ =>
        simp only [Instances.exec] at performed
        split at performed
        · rename_i found
          cases performed
          exact ⟨_, found, rfl⟩
        · cases performed
    obtain ⟨cache, found, rfl⟩ := executed
    have effect := Shared.effect found
    cases o with
    | threadRecord => exact absurd rfl record
    | loadHead =>
      cases effect
      refine ok.stable rfl rfl (ok.epoch c) rfl rfl (ok.known t) (ok.loaded t) ?_
      rintro u c' e rest least stands ⟨⟩ -
      obtain ⟨here, has, -, -⟩ := ok.guard u c e stands
      exact .inl (here ▸ ok.homed u has)
    | casHead expected =>
      cases effect with
      | pushed => exact ok.pushed rfl rfl rfl may.1 may.2
      | contended =>
        refine ok.stable rfl rfl (ok.epoch c) rfl rfl ?_ (ok.loaded t) (kept rfl)
        simp only [Watch.after, Option.isNone_some, Bool.or_false]
        exact ok.known t
    | loadEpoch =>
      cases effect
      refine ok.stable rfl rfl (ok.epoch c) rfl rfl (ok.known t) ?_ (kept rfl)
      rintro e ⟨⟩
      exact ok.epoch c
    | storeRecord published =>
      cases effect
      exact ok.stored rfl rfl rfl may
    | loadRecord v =>
      cases effect
      refine ok.stable rfl rfl (ok.epoch c) rfl rfl (ok.known t) (ok.loaded t) ?_
      obtain ⟨rest', least', scan⟩ := may
      intro u c' e rest least stands scanning stood
      simp only [Watch.after, scan, Option.map_some, List.tail_cons, Option.some.injEq, Prod.mk.injEq] at scanning
      obtain ⟨rfl, rfl, rfl⟩ := scanning
      obtain ⟨-, -, published, positive⟩ := ok.guard u c e stands
      rcases ok.scan t u c e _ _ stands scan (stood_before rfl stood) with listed | ⟨m, found, small⟩
      · rcases List.mem_cons.1 listed with rfl | listed
        · rw [show (s.view c).epochs u = e from published]
          exact .inr (lesser_self positive)
        · exact .inl listed
      · obtain ⟨m', found', smaller⟩ := lesser_le (e := (s.view c).epochs v) found
        exact .inr ⟨m', found', smaller.trans small⟩
    | _ =>
      obtain ⟨registry, epochs, epoch⟩ := effect.stable trivial
      exact ok.stable registry epochs (epoch (ok.epoch c)) rfl rfl (ok.known t) (ok.loaded t) (kept rfl)

omit [LinearOrder Key] in
theorem Registered.reset (ok : Registered home gs s) {event : InstanceEvent Key Addr Node}
    (outside : event = .invoked t ∨ event = .returned t) :
    Registered home (Function.update gs t {}) { s with history := event :: s.history } := by
  -- a thread begins or ends a call
  have own : ∀ {u}, u = t → Function.update gs t {} u = {} := fun same => by rw [same, Function.update_self]
  have others : ∀ {u}, u ≠ t → Function.update gs t {} u = gs u := fun apart => Function.update_of_ne apart ..
  refine ⟨?_, ok.epoch, ?_, ok.homed, ?_, ?_, ?_⟩
  · intro u
    by_cases same : u = t
    · rw [own same]
      rcases outside with rfl | rfl
      · exact (if_pos same.symm).symm
      · exact (if_pos same.symm).symm
    · rw [others same, ok.watch]
      rcases outside with rfl | rfl
      · exact (if_neg (Ne.symm same)).symm
      · exact (if_neg (Ne.symm same)).symm
  · intro u
    by_cases same : u = t
    · rw [own same]
      exact nofun
    · rw [others same]
      exact ok.known u
  · intro u
    by_cases same : u = t
    · rw [own same]
      exact nofun
    · rw [others same]
      exact ok.loaded u
  · intro u c e
    by_cases same : u = t
    · rw [own same]
      exact nofun
    · rw [others same]
      exact ok.guard u c e
  · intro v u c e rest least
    by_cases same : v = t
    · rw [own same]
      exact fun _ => nofun
    · rw [others same]
      by_cases same' : u = t
      · rw [own same']
        exact nofun
      · rw [others same']
        intro stands scanning stood
        refine ok.scan v u c e rest least stands scanning ?_
        rcases outside with rfl | rfl
        · exact stood
        · exact stood

theorem preserves_registered {fence : Node → Key × Key} {bound : ℕ} {admits : ℕ → InstanceCall Key Addr Node → Prop} :
    Preserves (rangeCaches fence bound admits) (watchMachine home) (Registered home) anything where
  invoke := by
    rintro gs s t call g ok - - rfl
    exact ok.reset (.inl rfl)
  act := by
    rintro gs s t ⟨c, o⟩ choice r s' g ok performed _ ⟨may, rfl⟩
    exact ok.act performed may
  finish := by
    intro gs s t call outcome ok _
    exact ok.reset (.inr rfl)
  env := fun _ _ _ _ moved => moved.elim

omit [LinearOrder Key] in
theorem registered_init (home : ℕ → ℕ) (entrySize base maxEntries : ℕ → ℕ) (entries : ℕ → Entry Key Addr Node) :
    Registered home (fun _ => {}) (.init entrySize base maxEntries entries) where
  watch _ := rfl
  epoch _ := Nat.one_ne_zero
  known _ := nofun
  homed _ := nofun
  loaded _ := nofun
  guard _ _ _ := nofun
  scan _ _ _ _ _ _ := nofun

/-- The record of the guard is in the registry of its cache, and what has been scanned since accounts for its epoch. -/
structure Visible (P : Pool (instanceSignature Key Addr Node) ℕ (InstanceCall Key Addr Node) (InstanceOutcome Addr Node)
    (Instances Key Addr Node))
    (t c epoch : ℕ) : Prop where
  registered : t ∈ (P.shared.caches c).registry
  published : P.shared.epochs t = epoch
  scanned : ∀ u rest least, (watch u P.shared.history).scan = some (c, rest, least) → Stood t u P.shared.history →
    t ∈ rest ∨ ∃ m ∈ least, m ≤ epoch
  minEpoch : ∀ u m done, P.threads u = some ⟨.scan c, .value (.minEpoch m), done⟩ → Stood t u P.shared.history → m ≤ epoch

/-- Guards are visible as long as every thread keeps to one cache. -/
theorem guards_visible {fence : Node → Key × Key} {bound : ℕ} {entrySize base maxEntries : ℕ → ℕ} {entries : ℕ → Entry Key Addr Node}
    {P : Pool (instanceSignature Key Addr Node) ℕ (InstanceCall Key Addr Node) (InstanceOutcome Addr Node) (Instances Key Addr Node)}
    (run : Reaches (rangeCaches fence bound (AtHome home)) anything (.start (.init entrySize base maxEntries entries)) P)
    {t c epoch : ℕ} (stands : (watch t P.shared.history).guard = some (c, epoch)) : Visible P t c epoch := by
  obtain ⟨gs, explains⟩ := (explains_start (registered_init home entrySize base maxEntries entries)).reaches
    (implements_watch fence bound)
    preserves_registered run
  have ok := explains.holds
  have guard := stands
  rw [← ok.watch] at guard
  obtain ⟨here, has, published, -⟩ := ok.guard t c epoch guard
  have scanned : ∀ u rest least, (watch u P.shared.history).scan = some (c, rest, least) → Stood t u P.shared.history →
      t ∈ rest ∨ ∃ m ∈ least, m ≤ epoch := by
    intro u rest least
    rw [← ok.watch]
    exact ok.scan u t c epoch rest least guard
  refine ⟨here ▸ ok.homed t has, published, scanned, fun u m done running stood => ?_⟩
  obtain ⟨least, scan, same⟩ := (explains.ends running).2 c m rfl rfl
  rw [ok.watch] at scan
  rcases scanned u [] least scan stood with listed | ⟨m', found, small⟩
  · cases listed
  · exact same m' found ▸ small

end

abbrev NatInstances : Type := Pool (instanceSignature ℕ ℕ ℕ) ℕ (InstanceCall ℕ ℕ ℕ) (InstanceOutcome ℕ ℕ) (Instances ℕ ℕ ℕ)

def newCaches : Instances ℕ ℕ ℕ := .init (fun _ => 1) (fun _ => 1) (fun _ => 1) fun _ => ⟨0, 0, 0, 0⟩

def InstanceCall.onFirst : InstanceCall ℕ ℕ ℕ → Bool
  | .use c _ => c == 0
  | .scan _ => true

/-- One thread inside a guard, and another one that scans the registry. -/
def scanned : NatInstances :=
  (Pool.start newCaches).drive (rangeCaches (fun n => (n, n + 5)) 1 (AtHome fun _ => 0)) (fun _ _ => InstanceCall.onFirst) freely
    (Move.part 0 (.use 0 (.search 3)) 0 5 ++ Move.part 1 (.scan 0) 0 2)

theorem guards_visible_scanned : (watch 0 scanned.shared.history).guard = some (0, 1) ∧ Visible scanned 0 0 1 := by
  have run : Reaches (rangeCaches (fun n => (n, n + 5)) 1 (AtHome fun _ => 0)) anything (.start newCaches) scanned := by
    refine reaches_drive ?_ (fun _ _ _ _ _ => trivial) _ _
    intro s t call admitted
    cases call with
    | use c call => exact beq_iff_eq.1 admitted
    | scan c => trivial
  have stands : (watch 0 scanned.shared.history).guard = some (0, 1) := by rfl
  exact ⟨stands, guards_visible run stands⟩

/-- One thread inside a guard on the second cache that it uses. -/
def secondCache : NatInstances :=
  (Pool.start newCaches).drive (rangeCaches (fun n => (n, n + 5)) 1 fun _ _ => True) (fun _ _ _ => true) freely
    (Move.whole 0 (.use 0 (.search 3)) 0 7 ++ Move.part 0 (.use 1 (.search 3)) 0 3)

/-- The registry of the second cache is empty. -/
theorem guards_invisible_secondCache : ¬ ∀ P : NatInstances,
    Reaches (rangeCaches (fun n => (n, n + 5)) 1 fun _ _ => True) anything (.start newCaches) P →
      ∀ t c epoch, (watch t P.shared.history).guard = some (c, epoch) → Visible P t c epoch := by
  intro claimed
  have run : Reaches (rangeCaches (fun n => (n, n + 5)) 1 fun _ _ => True) anything (.start newCaches) secondCache :=
    reaches_drive (fun _ _ _ _ => trivial) (fun _ _ _ _ _ => trivial) _ _
  have stands : (watch 0 secondCache.shared.history).guard = some (1, 1) := by rfl
  have registry : (secondCache.shared.caches 1).registry = [] := by rfl
  have registered := (claimed secondCache run 0 1 1 stands).registered
  rw [registry] at registered
  cases registered

end Faunus.Cache
