import Faunus.Interleaving.Invariant
import Faunus.Sherman.Locks

/-! What a thread may do with a page lock next.

The ghost of a thread is its place in the queue of a lock node. Threads behind a
`LocalLockManager` follow the machine, whatever the others do.
-/

set_option autoImplicit false

namespace Faunus.Sherman.Locks

open Interleaving

/-- How a thread comes to `release`: it still has the remote word, has decided to keep it, or has cleared it. -/
inductive Mode where
  | unlock
  | kept
  | cleared
  deriving DecidableEq

def Mode.caller : Mode → Caller
  | .unlock => .unlockAddress
  | .kept => .writePageAndUnlock true
  | .cleared => .writePageAndUnlock false

/-- What a thread with a ticket has done. The image is the lock word it read with the page. -/
inductive Stage where
  | waiting
  | served
  | flagged (handedOver : Bool)
  /-- Without a handover it needs the remote word. -/
  | contending
  /-- `try_lock_address` has returned. -/
  | holding (image : Option (BitVec 64))
  /-- `can_hand_over` saw waiters. -/
  | asked (image : Option (BitVec 64))
  | answered (image : Option (BitVec 64)) (handover : Bool)
  | cleared
  /-- `release` saw waiters. -/
  | weighing (mode : Mode)
  /-- `release` hands over: the flag, the count and the next ticket are still to come. -/
  | handing (mode : Mode)
  | counting (mode : Mode)
  | passing (mode : Mode)
  /-- `release` does not: the count and the next ticket are still to come. -/
  | resetting (mode : Mode)
  | departing (mode : Mode)
  deriving DecidableEq

inductive Phase where
  | idle
  | queued (a : GlobalAddress) (ticket : ℕ) (stage : Stage)
  /-- `unlock_address` has released the node and is about to clear the word. -/
  | pending (a : GlobalAddress)

/-- The stage `release` is called in. -/
inductive Releases : Stage → Mode → Prop where
  | unlock {image : Option (BitVec 64)} : Releases (.holding image) .unlock
  | kept {image : Option (BitVec 64)} : Releases (.answered image true) .kept
  | cleared : Releases .cleared .cleared

/-- Where the thread is after it let the next ticket in without a handover. -/
def Mode.departed (a : GlobalAddress) : Mode → Phase
  | .unlock => .pending a
  | _ => .idle

inductive Permits : Phase → (o : Op) → o.act.Reply → Phase → Prop where
  | draw {a : GlobalAddress} {v : ℕ} : Permits .idle ⟨.acquire, .takeTicket a⟩ v (.queued a (v % 2 ^ 32) .waiting)
  | spin {a : GlobalAddress} {k v : ℕ} :
    k ≠ v / 2 ^ 32 → Permits (.queued a k .waiting) ⟨.acquire, .loadTicket a⟩ v (.queued a k .waiting)
  | turn {a : GlobalAddress} {k v : ℕ} :
    k = v / 2 ^ 32 → Permits (.queued a k .waiting) ⟨.acquire, .loadTicket a⟩ v (.queued a k .served)
  | flag {a : GlobalAddress} {k : ℕ} {b : Bool} :
      Permits (.queued a k .served) ⟨.acquire, .loadFlag a (k % kHandoverFlagSlots)⟩ b (.queued a k (.flagged b))
  | enter {a : GlobalAddress} {k : ℕ} {b : Bool} {r : Unit} :
      Permits (.queued a k (.flagged b)) ⟨.acquire, .storeFlag a (k % kHandoverFlagSlots) false⟩ r
        (.queued a k (if b then .holding none else .contending))
  | retry {a : GlobalAddress} {k : ℕ} {tag found : BitVec 64} : found ≠ 0 → owner found ≠ owner tag →
      Permits (.queued a k .contending) ⟨.tryLockAddress, .casWord a tag⟩ found (.queued a k .contending)
  | lock {a : GlobalAddress} {k : ℕ} {tag found : BitVec 64} : found = 0 ∨ owner found = owner tag →
      Permits (.queued a k .contending) ⟨.tryLockAddress, .casWord a tag⟩ found (.queued a k (.holding none))
  | read {a : GlobalAddress} {k : ℕ} {image : Option (BitVec 64)} {word : BitVec 64} :
      Permits (.queued a k (.holding image)) ⟨.lockAndReadPage, .readWord a⟩ word (.queued a k (.holding (some word)))
  | ask {a : GlobalAddress} {k v : ℕ} {image : Option (BitVec 64)} :
      Permits (.queued a k (.holding image)) ⟨.canHandOver, .loadTicket a⟩ v
        (.queued a k (if 0 < waiters v then .asked image else .answered image false))
  | answer {a : GlobalAddress} {k count : ℕ} {image : Option (BitVec 64)} :
      Permits (.queued a k (.asked image)) ⟨.canHandOver, .loadCount a⟩ count
        (.queued a k (.answered image (decide (count < kMaxHandOverTime))))
  | image {a : GlobalAddress} {k : ℕ} {word : BitVec 64} {b : Bool} {r : Unit} :
      Permits (.queued a k (.answered (some word) b)) ⟨.writePageAndUnlock, .writeWord a word⟩ r
        (.queued a k (.answered (some word) b))
  | clear {a : GlobalAddress} {k : ℕ} {image : Option (BitVec 64)} {r : Unit} :
      Permits (.queued a k (.answered image false)) ⟨.writePageAndUnlock, .writeWord a 0⟩ r (.queued a k .cleared)
  | weigh {a : GlobalAddress} {k v : ℕ} {stage : Stage} {mode : Mode} : Releases stage mode →
      Permits (.queued a k stage) ⟨.release mode.caller, .loadTicket a⟩ v
        (.queued a k (if 0 < waiters v then .weighing mode else .resetting mode))
  | decide {a : GlobalAddress} {k count : ℕ} {mode : Mode} :
      Permits (.queued a k (.weighing mode)) ⟨.release mode.caller, .loadCount a⟩ count
        (.queued a k (if count < kMaxHandOverTime then .handing mode else .resetting mode))
  | hand {a : GlobalAddress} {k : ℕ} {mode : Mode} {r : Unit} :
      Permits (.queued a k (.handing mode)) ⟨.release mode.caller, .storeFlag a ((k + 1) % 2 ^ 32 % kHandoverFlagSlots) true⟩ r
        (.queued a k (.counting mode))
  | count {a : GlobalAddress} {k : ℕ} {mode : Mode} {r : Unit} :
      Permits (.queued a k (.counting mode)) ⟨.release mode.caller, .addCount a⟩ r (.queued a k (.passing mode))
  | pass {a : GlobalAddress} {k : ℕ} {mode : Mode} {r : Unit} :
      Permits (.queued a k (.passing mode)) ⟨.release mode.caller, .advance a⟩ r .idle
  | reset {a : GlobalAddress} {k : ℕ} {mode : Mode} {r : Unit} :
      Permits (.queued a k (.resetting mode)) ⟨.release mode.caller, .storeCount a 0⟩ r (.queued a k (.departing mode))
  | depart {a : GlobalAddress} {k : ℕ} {mode : Mode} {r : Unit} :
      Permits (.queued a k (.departing mode)) ⟨.release mode.caller, .advance a⟩ r (mode.departed a)
  | free {a : GlobalAddress} {r : Unit} : Permits (.pending a) ⟨.unlockAddress, .writeWord a 0⟩ r .idle

def machine : Machine signature ℕ Call Unit State Phase where
  idle := .idle
  begins _ _ _ _ g := g = .idle
  permits t gs _ o r _ g' := Permits (gs t) o r g'
  ends _ _ _ g := g = .idle

/-! ## The programs follow the machine -/

/-- A thread past the wait has the ticket that is served. -/
def Turns (cfg : Config) (gs : ℕ → Phase) (s : State) : Prop :=
  ∀ t a k stage, gs t = .queued a k stage → stage ≠ .waiting → (s.nodes (cfg.home t) (getLockIndex a)).serving = k

section
variable {cfg : Config} {inv : (ℕ → Phase) → State → Prop} {t : ℕ} {A : Type} {a : GlobalAddress} {k : ℕ}

abbrev LockFollows (cfg : Config) (inv : (ℕ → Phase) → State → Prop) (t : ℕ) (post : A → Phase → Prop) (p : Lock A)
    (g : Phase) : Prop :=
  Follows machine.permits (exec cfg) inv t post p g

theorem follows_op {post : A → Phase → Prop} {o : Op} {f : o.act.Reply → Lock A} {g : Phase} (after : o.act.Reply → Phase)
    (permitted : ∀ r, Permits g o r (after r)) (later : ∀ r, LockFollows cfg inv t post (f r) (after r)) :
    LockFollows cfg inv t post (Program.perform o .value >>= f) g := by
  refine follows_operation after ?_ later
  rintro gs s r s' rfl
  exact permitted r

theorem follows_loadTicket {post : A → Phase → Prop} {site : Site} {f : ℕ → Lock A} {g : Phase} (after : ℕ → Phase)
    (permitted : ∀ v : ℕ, Permits g ⟨site, .loadTicket a⟩ v (after v))
    (later : ∀ gs s v, inv gs s → gs t = g → v = (s.nodes (cfg.home t) (getLockIndex a)).ticketLock →
      LockFollows cfg inv t post (f v) (after v)) :
    LockFollows cfg inv t post (loadTicket site a >>= f) g := by
  intro gs s holds own c v s' performed
  obtain ⟨rfl, rfl⟩ := Prod.mk.inj (Option.some.inj performed)
  refine ⟨after (s.nodes (cfg.home t) (getLockIndex a)).ticketLock, ?_, later gs s _ holds own rfl⟩
  rw [← own] at permitted
  exact permitted _

theorem follows_last {post : A → Phase → Prop} {p : Lock A} {g : Phase} (follows : LockFollows cfg inv t post (p >>= pure) g) :
    LockFollows cfg inv t post p g := by
  rwa [bind_pure] at follows

theorem follows_awaitTurn {bound : ℕ} :
    LockFollows cfg inv t (fun _ g => g = .queued a k .served) (awaitTurn a k bound) (.queued a k .waiting) := by
  induction bound with
  | zero => trivial
  | succ bound ih =>
    unfold awaitTurn
    refine follows_op (fun (v : ℕ) => .queued a k (if k = v / 2 ^ 32 then .served else .waiting)) (fun (v : ℕ) => ?_)
      (fun (v : ℕ) => ?_)
    · split_ifs with same
      · exact .turn same
      · exact .spin same
    · split_ifs with same
      · exact rfl
      · exact ih

theorem follows_acquire :
    LockFollows cfg inv t (fun b g => ∃ k, g = .queued a k (if b then .holding none else .contending)) (acquire cfg a) .idle := by
  unfold acquire
  refine follows_op _ (fun (v : ℕ) => .draw) (fun (v : ℕ) => follows_bind (follows_mono follows_awaitTurn ?_))
  rintro _ _ rfl
  refine follows_op _ (fun (b : Bool) => .flag) (fun (b : Bool) => ?_)
  refine follows_op _ (fun _ => .enter) (fun _ => ?_)
  exact ⟨v % 2 ^ 32, rfl⟩

theorem follows_lockWord {tag : BitVec 64} {bound retries : ℕ} {pre : BitVec 64} :
    LockFollows cfg inv t (fun _ g => g = .queued a k (.holding none)) (lockWord cfg tag a bound retries pre)
    (.queued a k .contending) := by
  induction bound generalizing retries pre with
  | zero => trivial
  | succ bound ih =>
    unfold lockWord
    refine follows_op (fun (found : BitVec 64) =>
      .queued a k (if found = 0 ∨ owner found = owner tag then .holding none else .contending))
      (fun (found : BitVec 64) => ?_) (fun (found : BitVec 64) => ?_)
    · split_ifs with mine
      · exact .lock mine
      · exact .retry (fun zero => mine (.inl zero)) (fun same => mine (.inr same))
    · by_cases zero : found = 0
      · rw [if_pos zero, if_pos (Or.inl zero)]
        exact rfl
      rw [if_neg zero]
      by_cases mine : owner found = owner tag
      · rw [if_pos mine, if_pos (Or.inr mine)]
        exact rfl
      rw [if_neg mine, if_neg (not_or.2 ⟨zero, mine⟩)]
      split_ifs
      · trivial
      · exact ih
      · exact ih

theorem follows_tryLockAddress (manager : cfg.manager = true) {tag : BitVec 64} :
    LockFollows cfg inv t (fun _ g => ∃ k, g = .queued a k (.holding none)) (tryLockAddress cfg tag a) .idle := by
  unfold tryLockAddress acquireLocal
  rw [if_pos manager]
  refine follows_bind (follows_mono follows_acquire ?_)
  rintro (_ | _) _ ⟨k, rfl⟩
  · refine follows_mono follows_lockWord ?_
    rintro _ _ rfl
    exact ⟨k, rfl⟩
  · exact ⟨k, rfl⟩

theorem follows_lockAndReadPage (manager : cfg.manager = true) {tag : BitVec 64} :
    LockFollows cfg inv t (fun word g => ∃ k, g = .queued a k (.holding (some word))) (lockAndReadPage cfg tag a) .idle := by
  unfold lockAndReadPage
  refine follows_bind (follows_mono (follows_tryLockAddress manager) ?_)
  rintro _ _ ⟨k, rfl⟩
  exact follows_last (follows_op _ (fun (word : BitVec 64) => .read) (fun (word : BitVec 64) => ⟨k, rfl⟩))

theorem follows_canHandOver {image : Option (BitVec 64)} :
    LockFollows cfg inv t (fun b g => g = .queued a k (.answered image b)) (canHandOver a) (.queued a k (.holding image)) := by
  unfold canHandOver
  refine follows_op _ (fun (v : ℕ) => .ask) (fun (v : ℕ) => ?_)
  unfold mayHandOver
  split_ifs
  · exact follows_op _ (fun (count : ℕ) => .answer) (fun (count : ℕ) => rfl)
  · exact rfl

/-- `release` returns whether it handed over. -/
theorem follows_release {stage : Stage} {mode : Mode} (turns : ∀ gs s, inv gs s → Turns cfg gs s) (releases : Releases stage mode) :
    LockFollows cfg inv t (fun b g => g = if b then .idle else mode.departed a) (release mode.caller a) (.queued a k stage) := by
  have leave : LockFollows cfg inv t (fun b g => g = if b then .idle else mode.departed a)
      (storeCount (.release mode.caller) a 0 >>= fun _ => advance (.release mode.caller) a >>= fun _ => pure false)
      (.queued a k (.resetting mode)) :=
    follows_op _ (fun _ => .reset) fun _ => follows_op _ (fun _ => .depart) fun _ => rfl
  unfold release
  refine follows_loadTicket (fun v => .queued a k (if 0 < waiters v then .weighing mode else .resetting mode))
    (fun v => .weigh releases) ?_
  intro gs s v holds own loaded
  have ticket : v / 2 ^ 32 = k := by
    rw [loaded]
    exact turns gs s holds t a k stage own (by cases releases <;> simp)
  unfold mayHandOver
  by_cases some' : 0 < waiters v
  · rw [if_pos some', if_pos some', bind_assoc]
    refine follows_op _ (fun (count : ℕ) => .decide) (fun (count : ℕ) => ?_)
    rw [pure_bind]
    by_cases few : count < kMaxHandOverTime
    · rw [if_pos (decide_eq_true few), if_pos few, ticket]
      exact follows_op _ (fun _ => .hand) fun _ => follows_op _ (fun _ => .count) fun _ => follows_op _ (fun _ => .pass) fun _ => rfl
    · rw [if_neg (by simp [few]), if_neg few]
      exact leave
  · rw [if_neg some', if_neg some', pure_bind]
    exact leave

theorem follows_unlockAddress (manager : cfg.manager = true) (turns : ∀ gs s, inv gs s → Turns cfg gs s)
    {image : Option (BitVec 64)} :
    LockFollows cfg inv t (fun _ g => g = .idle) (unlockAddress cfg a) (.queued a k (.holding image)) := by
  unfold unlockAddress releaseLocal
  rw [if_pos manager]
  refine follows_bind (follows_mono (follows_release turns .unlock) ?_)
  rintro (_ | _) _ rfl
  · exact follows_last (follows_op _ (fun _ => .free) fun _ => rfl)
  · exact rfl

/-- The mode in which `write_page_and_unlock` comes to `release`. -/
def Mode.written (handover : Bool) : Mode := if handover then .kept else .cleared

theorem follows_writeBatch {image image' : Option (BitVec 64)} (same : ∀ word, image' = some word → image = some word)
    (handover : Bool) :
    LockFollows cfg inv t (fun _ g => ∃ stage, g = .queued a k stage ∧ Releases stage (.written handover))
    (writeBatch handover a image')
      (.queued a k (.answered image handover)) := by
  have clear : LockFollows cfg inv t (fun _ g => ∃ stage, g = .queued a k stage ∧ Releases stage (.written handover))
    (clearUnless handover a)
      (.queued a k (.answered image handover)) := by
    cases handover with
    | true => exact ⟨_, rfl, .kept⟩
    | false => exact follows_last (follows_op _ (fun _ => .clear) fun _ => ⟨_, rfl, .cleared⟩)
  cases image' with
  | none => exact clear
  | some word =>
    obtain rfl := same word rfl
    exact follows_op _ (fun _ => .image) fun _ => clear

theorem follows_writePageAndUnlock (manager : cfg.manager = true) (turns : ∀ gs s, inv gs s → Turns cfg gs s)
    {image image' : Option (BitVec 64)} (same : ∀ word, image' = some word → image = some word) :
    LockFollows cfg inv t (fun _ g => g = .idle) (writePageAndUnlock cfg a image') (.queued a k (.holding image)) := by
  unfold writePageAndUnlock canHandOverLocal releaseLocal
  rw [if_pos manager]
  refine follows_bind (follows_mono follows_canHandOver ?_)
  rintro handover _ rfl
  refine follows_bind (follows_mono (follows_writeBatch same handover) ?_)
  rintro _ _ ⟨stage, rfl, releases⟩
  rw [if_pos manager, show Caller.writePageAndUnlock handover = (Mode.written handover).caller by cases handover <;> rfl]
  refine follows_bind (follows_mono (follows_release turns releases) ?_)
  rintro (_ | _) _ rfl
  · cases handover <;> exact rfl
  · exact rfl

theorem follows_body (manager : cfg.manager = true) (turns : ∀ gs s, inv gs s → Turns cfg gs s) (call : Call) :
    LockFollows cfg inv t (fun _ g => g = .idle) (call.body cfg) .idle := by
  obtain ⟨tag, a, exit⟩ := call
  unfold Call.body
  refine follows_bind (follows_mono (follows_lockAndReadPage manager) ?_)
  rintro word _ ⟨k, rfl⟩
  cases exit with
  | unlock => exact follows_unlockAddress manager turns
  | writeEntry => exact follows_writePageAndUnlock manager turns (by rintro _ ⟨⟩)
  | writePage => exact follows_writePageAndUnlock manager turns fun _ same => same

theorem implements_machine (manager : cfg.manager = true) (turns : ∀ gs s, inv gs s → Turns cfg gs s) (admits : ℕ → Call → Prop) :
    Implements (system cfg admits) machine inv := by
  intro gs s t call _ _ _
  exact ⟨.idle, rfl, follows_body manager turns call⟩

end

end Faunus.Sherman.Locks
