import Faunus.Interleaving.Logs
import Faunus.Sherman.LockInvariant

/-! Who is in the critical section of a page.

What a thread has done tells whether it is behind its `try_lock_address` and before its
unlock. The results are about runs on one page whose steps keep out of the known races.
-/

set_option autoImplicit false

namespace Faunus.Sherman.Locks

open Interleaving

abbrev Done := Sigma signature.Reply

/-- `acquire` has just returned true. -/
def handedOver : List Done → Bool
  | ⟨⟨.acquire, .storeFlag _ _ _⟩, _⟩ :: ⟨⟨.acquire, .loadFlag _ _⟩, (flag : Bool)⟩ :: _ => flag
  | _ => false

/-- `try_lock_address` has returned and the unlock has not begun. -/
def inSection : List Done → Bool
  | ⟨⟨.acquire, .storeFlag _ _ _⟩, _⟩ :: ⟨⟨.acquire, .loadFlag _ _⟩, (flag : Bool)⟩ :: _ => flag
  | ⟨⟨.tryLockAddress, .casWord _ tag⟩, (found : BitVec 64)⟩ :: _ => found = 0 ∨ owner found = owner tag
  | ⟨⟨.lockAndReadPage, .readWord _⟩, _⟩ :: _ => true
  | _ => false

/-! ## The operations of a call -/

def Act.address : Act → GlobalAddress
  | .takeTicket a => a
  | .loadTicket a => a
  | .advance a => a
  | .loadFlag a _ => a
  | .storeFlag a _ _ => a
  | .loadCount a => a
  | .addCount a => a
  | .storeCount a _ => a
  | .casWord a _ => a
  | .readWord a => a
  | .writeWord a _ => a

/-- The operations of `unlock_address`. -/
def Site.unlocks : Site → Bool
  | .unlockAddress => true
  | .release .unlockAddress => true
  | _ => false

/-- The operations of `write_page_and_unlock`. -/
def Site.writes : Site → Bool
  | .canHandOver => true
  | .writePageAndUnlock => true
  | .release (.writePageAndUnlock _) => true
  | _ => false

section
variable {cfg : Config} {within : Op → Prop} {a : GlobalAddress} {A : Type}

theorem only_awaitTurn (within' : ∀ act : Act, act.address = a → within ⟨.acquire, act⟩) (k bound : ℕ) :
    (awaitTurn a k bound).Only within := by
  induction bound with
  | zero => trivial
  | succ bound ih =>
    refine only_bind ⟨within' _ rfl, fun _ => trivial⟩ fun v => ?_
    split_ifs
    · trivial
    · exact ih

theorem only_acquire (within' : ∀ act : Act, act.address = a → within ⟨.acquire, act⟩) : (acquire cfg a).Only within := by
  refine only_bind ⟨within' _ rfl, fun _ => trivial⟩ fun v => only_bind (only_awaitTurn within' _ _) fun _ => ?_
  refine only_bind ⟨within' _ rfl, fun _ => trivial⟩ fun b => ?_
  exact only_bind ⟨within' _ rfl, fun _ => trivial⟩ fun _ => trivial

theorem only_lockWord (within' : ∀ act : Act, act.address = a → within ⟨.tryLockAddress, act⟩) (tag : BitVec 64)
    (bound retries : ℕ) (pre : BitVec 64) :
    (lockWord cfg tag a bound retries pre).Only within := by
  induction bound generalizing retries pre with
  | zero => trivial
  | succ bound ih =>
    refine only_bind ⟨within' _ rfl, fun _ => trivial⟩ fun found => ?_
    split_ifs
    any_goals trivial
    · exact ih _ _
    · exact ih _ _

theorem only_lockAndReadPage (within' : ∀ site act, act.address = a → site.unlocks = false → site.writes = false →
    within ⟨site, act⟩)
    (tag : BitVec 64) : (lockAndReadPage cfg tag a).Only within := by
  refine only_bind (only_bind ?_ fun b => ?_) fun _ => ⟨within' _ _ rfl rfl rfl, fun _ => trivial⟩
  · unfold acquireLocal
    split_ifs
    · exact only_acquire fun act same => within' _ act same rfl rfl
    · trivial
  · cases b with
    | true => trivial
    | false => exact only_lockWord (fun act same => within' _ act same rfl rfl) _ _ _ _

theorem only_mayHandOver {site : Site} (within' : ∀ act : Act, act.address = a → within ⟨site, act⟩) (v : ℕ) :
    (mayHandOver site a v).Only within := by
  unfold mayHandOver
  split_ifs
  · exact only_bind ⟨within' _ rfl, fun _ => trivial⟩ fun _ => trivial
  · trivial

theorem only_release {caller : Caller} (within' : ∀ act : Act, act.address = a → within ⟨.release caller, act⟩) :
    (release caller a).Only within := by
  refine only_bind ⟨within' _ rfl, fun _ => trivial⟩ fun v => only_bind (only_mayHandOver within' v) fun b => ?_
  split_ifs
  · refine only_bind ⟨within' _ rfl, fun _ => trivial⟩ fun _ => only_bind ⟨within' _ rfl, fun _ => trivial⟩ fun _ => ?_
    exact only_bind ⟨within' _ rfl, fun _ => trivial⟩ fun _ => trivial
  · refine only_bind ⟨within' _ rfl, fun _ => trivial⟩ fun _ => ?_
    exact only_bind ⟨within' _ rfl, fun _ => trivial⟩ fun _ => trivial

theorem only_releaseLocal {caller : Caller} (within' : ∀ act : Act, act.address = a → within ⟨.release caller, act⟩) :
    (releaseLocal cfg caller a).Only within := by
  unfold releaseLocal
  split_ifs
  · exact only_release within'
  · trivial

theorem only_unlockAddress (within' : ∀ site act, act.address = a → site.unlocks = true → within ⟨site, act⟩) :
    (unlockAddress cfg a).Only within := by
  refine only_bind (only_releaseLocal fun act same => within' _ act same rfl) fun b => ?_
  cases b with
  | true => trivial
  | false => exact ⟨within' _ _ rfl rfl, fun _ => trivial⟩

theorem only_writePageAndUnlock (within' : ∀ site act, act.address = a → site.writes = true → within ⟨site, act⟩)
    (image : Option (BitVec 64)) :
    (writePageAndUnlock cfg a image).Only within := by
  have clear : ∀ b, (clearUnless b a).Only within := by
    rintro (_ | _)
    · exact ⟨within' _ _ rfl rfl, fun _ => trivial⟩
    · trivial
  refine only_bind ?_ fun b => only_bind ?_ fun _ => only_bind (only_releaseLocal fun act same => within' _ act same rfl)
    fun _ => trivial
  · unfold canHandOverLocal
    split_ifs
    · exact only_bind ⟨within' _ _ rfl rfl, fun _ => trivial⟩ fun v => only_mayHandOver (fun act same => within' _ act same rfl) v
    · trivial
  · cases image with
    | none => exact clear b
    | some word => exact only_bind ⟨within' _ _ rfl rfl, fun _ => trivial⟩ fun _ => clear b

theorem Site.unlocks_writes {site : Site} (unlocks : site.unlocks = true) : site.writes = false := by
  cases site with
  | release caller => cases caller <;> simp_all [Site.unlocks, Site.writes]
  | _ => simp_all [Site.unlocks, Site.writes]

theorem only_body (call : Call) (within' : ∀ site act, act.address = call.address → (site.unlocks = true → call.exit = .unlock) →
    (site.writes = true → call.exit ≠ .unlock) → within ⟨site, act⟩) : (call.body cfg).Only within := by
  refine only_bind (only_lockAndReadPage (fun site act same reads reads' => within' site act same ?_ ?_) _) fun word => ?_
  · rw [reads]
    rintro ⟨⟩
  · rw [reads']
    rintro ⟨⟩
  have write : call.exit ≠ .unlock → ∀ image, (writePageAndUnlock cfg call.address image).Only within := by
    intro exit image
    refine only_writePageAndUnlock (fun site act same writes => within' site act same (fun unlocks => ?_) fun _ => exit) image
    rw [Site.unlocks_writes unlocks] at writes
    cases writes
  cases exit : call.exit with
  | unlock =>
    refine only_unlockAddress fun site act same unlocks => within' site act same (fun _ => exit) fun writes => ?_
    rw [Site.unlocks_writes unlocks] at writes
    cases writes
  | writeEntry => exact write (by rw [exit]; rintro ⟨⟩) _
  | writePage => exact write (by rw [exit]; rintro ⟨⟩) _

end

/-! ## Where a thread is and what it did last -/

/-- What the last operations of a thread say about its place. -/
def Trail : Phase → List Done → Prop
  | .queued _ _ (.flagged b), log => ∃ a slot rest, log = ⟨⟨.acquire, .loadFlag a slot⟩, b⟩ :: rest
  | .queued _ _ (.holding _), _ => True
  | _, log => inSection log = false

theorem inSection_of_handedOver {log : List Done} (handed : handedOver log = true) : inSection log = true := by
  unfold handedOver at handed
  split at handed
  · exact handed
  · cases handed

theorem Trail.step {g g' : Phase} {o : Op} {r : o.act.Reply} {log : List Done} (trail : Trail g log) (permitted : Permits g o r g') :
    Trail g' (⟨o, r⟩ :: log) := by
  cases permitted with
  | draw => rfl
  | spin => rfl
  | turn => rfl
  | flag => exact ⟨_, _, _, rfl⟩
  | @enter a k b =>
    obtain ⟨a', slot, rest, rfl⟩ := trail
    cases b with
    | true => trivial
    | false => rfl
  | retry set other => exact decide_eq_false (not_or.2 ⟨set, other⟩)
  | lock => trivial
  | read => trivial
  | @ask a k v => by_cases some' : 0 < waiters v <;> simp only [some', if_true, if_false] <;> rfl
  | answer => rfl
  | image => rfl
  | clear => rfl
  | @weigh a k v stage mode => by_cases some' : 0 < waiters v <;> simp only [some', if_true, if_false] <;> rfl
  | @decide a k count => by_cases few : count < kMaxHandOverTime <;> simp only [few, if_true, if_false] <;> rfl
  | hand => rfl
  | count => rfl
  | pass => rfl
  | reset => rfl
  | @depart a k mode => cases mode <;> rfl
  | free => rfl

theorem Trail.holding {g : Phase} {log : List Done} (trail : Trail g log) (inside : inSection log = true) :
    ∃ a k image, g = .queued a k (.holding image) := by
  cases g with
  | queued a k stage =>
    cases stage with
    | holding image => exact ⟨a, k, image, rfl⟩
    | flagged b =>
      obtain ⟨a', slot, rest, rfl⟩ := trail
      cases inside
    | _ => exact absurd (inside.symm.trans trail) (by decide)
  | _ => exact absurd (inside.symm.trans trail) (by decide)

def Phase.At (a : GlobalAddress) : Phase → Prop
  | .idle => True
  | .queued b _ _ => b = a
  | .pending b => b = a

theorem Phase.At.queued {a b : GlobalAddress} {k : ℕ} {stage stage' : Stage} (here : (Phase.queued b k stage).At a) :
    (Phase.queued b k stage').At a :=
  here

theorem Phase.At.step {g g' : Phase} {o : Op} {r : o.act.Reply} {a : GlobalAddress} (here : g.At a) (same : o.act.address = a)
    (permitted : Permits g o r g') : g'.At a := by
  cases permitted with
  | draw => exact same
  | pass => trivial
  | @depart b k mode =>
    cases mode with
    | unlock => exact here
    | kept => trivial
    | cleared => trivial
  | free => trivial
  | _ => exact here.queued

/-- The thread is not on its way through `unlock_address`. -/
def Stage.Writes : Stage → Prop
  | .weighing mode => mode ≠ .unlock
  | .handing mode => mode ≠ .unlock
  | .counting mode => mode ≠ .unlock
  | .passing mode => mode ≠ .unlock
  | .resetting mode => mode ≠ .unlock
  | .departing mode => mode ≠ .unlock
  | _ => True

def Phase.Writes : Phase → Prop
  | .idle => True
  | .queued _ _ stage => stage.Writes
  | .pending _ => False

theorem Phase.Writes.step {g g' : Phase} {o : Op} {r : o.act.Reply} (writes : g.Writes) (within : o.site.unlocks = false)
    (permitted : Permits g o r g') : g'.Writes := by
  cases permitted with
  | @enter a k b => cases b <;> trivial
  | @ask a k v => by_cases some' : 0 < waiters v <;> simp only [some', if_true, if_false] <;> trivial
  | @weigh a k v stage mode =>
    have other : mode ≠ .unlock := by
      rintro rfl
      cases within
    by_cases some' : 0 < waiters v <;> simp only [some', if_true, if_false] <;> exact other
  | @decide a k count mode => by_cases few : count < kMaxHandOverTime <;> simp only [few, if_true, if_false] <;> exact writes
  | @depart a k mode =>
    cases mode with
    | unlock => exact absurd rfl writes
    | kept => trivial
    | cleared => trivial
  | hand => exact writes
  | count => exact writes
  | reset => exact writes
  | _ => trivial

/-! ## One page -/

/-- All threads are at one page, and what they did last fits their places. -/
structure OnPage (cfg : Config) (a : GlobalAddress) (gs : ℕ → Phase × List Done) (s : State) : Prop where
  locked : Locked cfg (fun t => (gs t).1) s
  here : ∀ t, (gs t).1.At a
  trail : ∀ t, Trail (gs t).1 (gs t).2

section
variable {cfg : Config} {a : GlobalAddress} {gs : ℕ → Phase × List Done} {s s' : State} {t : ℕ}

theorem phases_update (gs : ℕ → Phase × List Done) (t : ℕ) (g : Phase × List Done) :
    (fun u => (Function.update gs t g u).1) = Function.update (fun u => (gs u).1) t g.1 := by
  funext u
  by_cases own : u = t
  · subst own
    simp
  · simp [own]

theorem OnPage.initial : OnPage cfg a (fun _ => (.idle, [])) Locks.initial :=
  ⟨locked_initial, fun _ => trivial, fun _ => rfl⟩

theorem OnPage.rest (onPage : OnPage cfg a gs s) (own : (gs t).1 = .idle) {g : Phase × List Done} (idle : g = (.idle, [])) :
    OnPage cfg a (Function.update gs t g) s := by
  subst idle
  refine ⟨?_, fun u => ?_, fun u => ?_⟩
  · rw [phases_update, ← own, Function.update_eq_self]
    exact onPage.locked
  all_goals
    by_cases here : u = t
    · subst here
      rw [Function.update_self]
      trivial
    · rw [Function.update_of_ne here]
      first | exact onPage.here u | exact onPage.trail u

theorem OnPage.step (onPage : OnPage cfg a gs s) {o : Op} {c : Unit} {r : o.act.Reply} {g : Phase × List Done}
    (performed : exec cfg t o c s = some (r, s')) (orderly : Orderly cfg t o r s) (permitted : Permits (gs t).1 o r g.1)
    (log : g.2 = ⟨o, r⟩ :: (gs t).2) (same : o.act.address = a) : OnPage cfg a (Function.update gs t g) s' := by
  refine ⟨?_, fun u => ?_, fun u => ?_⟩
  · rw [phases_update]
    exact onPage.locked.step performed orderly permitted
  · by_cases own : u = t
    · subst own
      rw [Function.update_self]
      exact (onPage.here u).step same permitted
    · rw [Function.update_of_ne own]
      exact onPage.here u
  · by_cases own : u = t
    · subst own
      rw [Function.update_self, log]
      exact (onPage.trail u).step permitted
    · rw [Function.update_of_ne own]
      exact onPage.trail u

theorem OnPage.drawnFor (onPage : OnPage cfg a gs s) {b : GlobalAddress} {k : ℕ} {mode : Mode}
    (own : (gs t).1 = .queued b k (.handing mode)) :
    (s.nodes (cfg.home t) (getLockIndex b)).drawnFor ((s.nodes (cfg.home t) (getLockIndex b)).serving + 1) = some b := by
  have turn := onPage.locked.turns t b k _ own (by rintro ⟨⟩)
  obtain ⟨waiter, -⟩ := onPage.locked.ready t b k _ own
  obtain ⟨u, b', seat, home, index⟩ := onPage.locked.queue.total (cfg.home t) (getLockIndex b) (k + 1) (by omega) waiter
  obtain ⟨stage, found⟩ := Phase.of_seat seat
  have here := onPage.here t
  have there := onPage.here u
  rw [own] at here
  rw [found] at there
  obtain rfl : b' = b := there.trans here.symm
  have drawn := onPage.locked.queue.drawn u b' (k + 1) seat
  rwa [home, index, ← turn] at drawn

/-- A thread that finds the word set has no one of its own compute server in the way, as long as all leave through
`write_page_and_unlock`. -/
theorem OnPage.free (onPage : OnPage cfg a gs s) (one : ∀ u, cfg.home u = cfg.home t) (writes : ∀ u, (gs u).1.Writes)
    {b : GlobalAddress} {k : ℕ}
    (own : (gs t).1 = .queued b k .contending) : s.words b = 0 := by
  by_contra set
  obtain ⟨u, bears⟩ := onPage.locked.borne.held b set
  have apart : u ≠ t := by
    rintro rfl
    rw [own] at bears
    exact bears.2
  cases found : (gs u).1 with
  | idle =>
    rw [found] at bears
    exact bears
  | pending b' =>
    have := writes u
    rw [found] at this
    exact this
  | queued b' k' stage =>
    rw [found] at bears
    obtain ⟨rfl, bears⟩ := bears
    obtain ⟨rfl, differ⟩ := onPage.locked.alone own (by rintro ⟨⟩) apart found (one u) rfl
    rw [one u] at bears
    exact differ bears.1

theorem OnPage.inSection (onPage : OnPage cfg a gs s) (inside : Locks.inSection (gs t).2 = true) : (gs t).1.Bears cfg s t a := by
  obtain ⟨b, k, image, own⟩ := (onPage.trail t).holding inside
  have here := onPage.here t
  rw [own] at here ⊢
  exact ⟨here, trivial⟩

end

/-! ## Handovers -/

/-- Nobody draws the last ticket, no tag is 0, and whoever has cleared the word finds no one to hand over to. -/
def Agreeing (cfg : Config) : Condition signature ℕ State := fun t o _ s =>
  match o with
  | ⟨_, .takeTicket a⟩ => (s.nodes (cfg.home t) (getLockIndex a)).next + 1 < 2 ^ 32
  | ⟨_, .casWord _ tag⟩ => tag ≠ 0
  | ⟨.release (.writePageAndUnlock false), .loadTicket a⟩ =>
    ¬ (0 < waiters (s.nodes (cfg.home t) (getLockIndex a)).ticketLock ∧
      (s.nodes (cfg.home t) (getLockIndex a)).handoverCount < kMaxHandOverTime)
  | _ => True

/-- Sections of one page that end with `write_page_and_unlock`. -/
def writesOf (a : GlobalAddress) : ℕ → Call → Prop := fun _ call => call.address = a ∧ call.exit ≠ .unlock

section
variable {cfg : Config} {a : GlobalAddress} {gs : ℕ → Phase × List Done} {s : State} {t : ℕ}

theorem OnPage.orderly_of_agreeing (onPage : OnPage cfg a gs s) (one : ∀ u, cfg.home u = cfg.home t)
    (writes : ∀ u, (gs u).1.Writes) {o : Op}
    {r : o.act.Reply} {g : Phase} (permitted : Permits (gs t).1 o r g) (agreeing : Agreeing cfg t o r s) : Orderly cfg t o r s := by
  generalize own : (gs t).1 = before at permitted
  cases permitted with
  | draw => exact agreeing
  | retry => exact ⟨agreeing, .inl (onPage.free one writes own)⟩
  | lock => exact ⟨agreeing, .inl (onPage.free one writes own)⟩
  | weigh releases => cases releases <;> exact agreeing
  | @hand b k mode =>
    have drawn := onPage.drawnFor own
    cases mode <;> exact drawn
  | _ => trivial

theorem preserves_writes (one : ∀ t u, cfg.home u = cfg.home t) :
    Preserves (system cfg (writesOf a)) (machine.logged fun o => o.act.address = a ∧ o.site.unlocks = false)
      (fun gs s => OnPage cfg a gs s ∧ ∀ t, (gs t).1.Writes) (Agreeing cfg) where
  invoke := by
    rintro gs s t call ⟨g, log⟩ ⟨onPage, writes⟩ idle _ ⟨rfl, rfl⟩
    refine ⟨onPage.rest (by rw [idle]; rfl) rfl, fun u => ?_⟩
    by_cases own : u = t
    · subst own
      rw [Function.update_self]
      trivial
    · rw [Function.update_of_ne own]
      exact writes u
  act := by
    rintro gs s t o c r s' g ⟨onPage, writes⟩ performed agreeing ⟨permitted, log, same, within⟩
    refine ⟨onPage.step (c := c) performed (onPage.orderly_of_agreeing (one t) writes permitted agreeing) permitted log same,
      fun u => ?_⟩
    by_cases own : u = t
    · subst own
      rw [Function.update_self]
      exact (writes u).step within permitted
    · rw [Function.update_of_ne own]
      exact writes u
  finish := by
    rintro gs s t call _ ⟨onPage, writes⟩ ends
    refine ⟨onPage.rest ends rfl, fun u => ?_⟩
    by_cases own : u = t
    · subst own
      rw [Function.update_self]
      trivial
    · rw [Function.update_of_ne own]
      exact writes u
  env := by
    rintro _ _ _ _ ⟨⟩

/-- A thread that finds the page handed over has the remote word of its compute server. -/
theorem handover_owns (manager : cfg.manager = true) {server : ℕ} (one : ∀ t, cfg.home t = server)
    {P : Pool signature ℕ Call Unit State}
    (run : Reaches (system cfg (writesOf a)) (Agreeing cfg) (Pool.start initial) P) {t : ℕ} {activity : Activity signature Call Unit}
    (running : P.threads t = some activity) (handed : handedOver activity.done = true) :
    P.shared.words a ≠ 0 ∧ P.shared.setter a = some server := by
  have implements : Implements (system cfg (writesOf a)) (machine.logged fun o => o.act.address = a ∧ o.site.unlocks = false)
      (fun gs s => OnPage cfg a gs s ∧ ∀ t, (gs t).1.Writes) := by
    refine implements_logged (fun _ _ holds => holds.1.locked) (implements_machine manager (fun _ _ locked => locked.turns) _) ?_
    rintro s t call ⟨_, rfl, exit⟩
    refine only_body call fun site act same unlocks _ => ⟨same, ?_⟩
    cases eq : site.unlocks with
    | true => exact absurd (unlocks eq) exit
    | false => rfl
  have same : ∀ t u, cfg.home u = cfg.home t := fun t u => (one u).trans (one t).symm
  obtain ⟨gs, explains, logs⟩ := explains_logged implements (preserves_writes same) ⟨.initial, fun _ => trivial⟩ run
  have bears := explains.holds.1.inSection (t := t) (by rw [logs t _ running]; exact inSection_of_handedOver handed)
  rw [← one t]
  exact explains.holds.1.locked.borne.word t a bears

end

def oneServer : Config where
  manager := true
  home _ := 0
  tag t := 1#64 <<< 32 ||| BitVec.ofNat 64 t
  maxRetries := 1000000
  loopBound := 2

def page : GlobalAddress := ⟨64⟩

/-- The sections of the page that end as given. -/
def sections (exit : Exit) : State → ℕ → Call → Bool := fun _ t call =>
  call.tag = oneServer.tag t ∧ call.address = page ∧ call.exit = exit

def aSection (t : ℕ) (exit : Exit) : Call := ⟨oneServer.tag t, page, exit⟩

/-- The condition of `handover_owns` as a test. -/
def agrees (cfg : Config) : Test signature ℕ State := fun t o _ s =>
  match o with
  | ⟨_, .takeTicket a⟩ => (s.nodes (cfg.home t) (getLockIndex a)).next + 1 < 2 ^ 32
  | ⟨_, .casWord _ tag⟩ => tag ≠ 0
  | ⟨.release (.writePageAndUnlock false), .loadTicket a⟩ =>
    ¬ (0 < waiters (s.nodes (cfg.home t) (getLockIndex a)).ticketLock ∧
      (s.nodes (cfg.home t) (getLockIndex a)).handoverCount < kMaxHandOverTime)
  | _ => true

theorem agreeing_of_agrees {cfg : Config} (t : ℕ) (o : Op) (r : o.act.Reply) (s : State) (met : agrees cfg t o r s = true) :
    Agreeing cfg t o r s := by
  obtain ⟨site, act⟩ := o
  cases act with
  | takeTicket a => simpa only [agrees, Agreeing, decide_eq_true_eq] using met
  | casWord a tag => simpa only [agrees, Agreeing, decide_eq_true_eq] using met
  | loadTicket a =>
    -- only the release after the cleared word is restricted
    rcases site with _ | _ | (_ | _ | _) | _ | _ | _ | _
    case release.writePageAndUnlock.false => simpa only [agrees, Agreeing, decide_eq_true_eq] using met
    all_goals trivial
  | _ => trivial

theorem writesOf_sections (s : State) (t : ℕ) (call : Call) (ok : sections .writeEntry s t call = true) :
    (system oneServer (writesOf page)).admits s t call := by
  obtain ⟨tag, address, exit⟩ := of_decide_eq_true ok
  refine ⟨tag, address, ?_⟩
  rw [exit]
  rintro ⟨⟩

/-- The second thread waits before the first asks whether it can hand over. -/
def earlyWaiter : Pool signature ℕ Call Unit State :=
  (Pool.start initial).drive (system oneServer (writesOf page)) (sections .writeEntry) (agrees oneServer)
    (Move.part 0 (aSection 0 .writeEntry) () 6 ++ Move.part 1 (aSection 1 .writeEntry) () 1 ++ List.replicate 7 (.act 0 ()) ++
      [.return 0] ++ List.replicate 3 (.act 1 ()))

theorem handover_owns_earlyWaiter : earlyWaiter.shared.words page ≠ 0 ∧ earlyWaiter.shared.setter page = some 0 := by
  have handed : (earlyWaiter.threads 1).map (fun activity => handedOver activity.done) = some true := by decide +kernel
  obtain ⟨activity, running, handed⟩ := Option.map_eq_some_iff.1 handed
  exact handover_owns rfl (fun _ => rfl) (reaches_drive writesOf_sections agreeing_of_agrees _ _ : Reaches _ _ _ earlyWaiter)
    running handed

/-- The second thread comes after the first has cleared the word. -/
def lateWaiter : Pool signature ℕ Call Unit State :=
  (Pool.start initial).drive (system oneServer (writesOf page)) (sections .writeEntry) freely
    (Move.part 0 (aSection 0 .writeEntry) () 8 ++ Move.part 1 (aSection 1 .writeEntry) () 1 ++ List.replicate 5 (.act 0 ()) ++
      [.return 0] ++ List.replicate 3 (.act 1 ()))

theorem handover_fails_lateWaiter :
    ¬ ∀ P, Reaches (system oneServer (writesOf page)) anything (Pool.start initial) P → ∀ t activity, P.threads t = some activity →
      handedOver activity.done = true → P.shared.words page ≠ 0 ∧ P.shared.setter page = some 0 := by
  intro claim
  have handed : (lateWaiter.threads 1).map (fun activity => handedOver activity.done) = some true := by decide +kernel
  obtain ⟨activity, running, handed⟩ := Option.map_eq_some_iff.1 handed
  have cleared : lateWaiter.shared.words page = 0 := by decide +kernel
  exact (claim lateWaiter (reaches_drive writesOf_sections (fun _ _ _ _ _ => trivial) _ _) 1 activity running handed).1 cleared

/-! ## Remote unlocks -/

/-- Nobody draws the last ticket, no tag is 0, and nobody takes the page because the word has the tag of its own compute server. -/
def Undisputed (cfg : Config) : Condition signature ℕ State := fun t o _ s =>
  match o with
  | ⟨_, .takeTicket a⟩ => (s.nodes (cfg.home t) (getLockIndex a)).next + 1 < 2 ^ 32
  | ⟨_, .casWord a tag⟩ => tag ≠ 0 ∧ (s.words a = 0 ∨ owner (s.words a) ≠ owner tag)
  | _ => True

/-- Sections of one page that end with `unlock_address`. -/
def unlocksOf (a : GlobalAddress) : ℕ → Call → Prop := fun _ call => call.address = a ∧ call.exit = .unlock

section
variable {cfg : Config} {a : GlobalAddress} {gs : ℕ → Phase × List Done} {s : State} {t : ℕ}

theorem OnPage.orderly_of_undisputed (onPage : OnPage cfg a gs s) {o : Op} {r : o.act.Reply} {g : Phase}
    (permitted : Permits (gs t).1 o r g)
    (within : o.site.writes = false) (undisputed : Undisputed cfg t o r s) : Orderly cfg t o r s := by
  generalize own : (gs t).1 = before at permitted
  cases permitted with
  | draw => exact undisputed
  | retry => exact undisputed
  | lock => exact undisputed
  | weigh releases =>
    cases releases with
    | unlock => trivial
    | kept => cases within
    | cleared => cases within
  | @hand b k mode =>
    have drawn := onPage.drawnFor own
    cases mode <;> exact drawn
  | _ => trivial

theorem preserves_unlocks : Preserves (system cfg (unlocksOf a)) (machine.logged fun o => o.act.address = a ∧ o.site.writes = false)
    (OnPage cfg a) (Undisputed cfg) where
  invoke := by
    rintro gs s t call ⟨g, log⟩ onPage idle _ ⟨rfl, rfl⟩
    exact onPage.rest (by rw [idle]; rfl) rfl
  act := by
    rintro gs s t o c r s' g onPage performed undisputed ⟨permitted, log, same, within⟩
    exact onPage.step (c := c) performed (onPage.orderly_of_undisputed permitted within undisputed) permitted log same
  finish := by
    rintro gs s t call _ onPage ends
    exact onPage.rest ends rfl
  env := by
    rintro _ _ _ _ ⟨⟩

theorem only_unlocks (s : State) (t : ℕ) (call : Call) (admitted : (system cfg (unlocksOf a)).admits s t call) :
    (call.body cfg).Only fun o : Op => o.act.address = a ∧ o.site.writes = false := by
  obtain ⟨_, rfl, exit⟩ := admitted
  refine only_body call fun site act same _ writes => ⟨same, ?_⟩
  cases eq : site.writes with
  | true => exact absurd exit (writes eq)
  | false => rfl

theorem bears_of_unlocking {site : Site} {r : Unit} {g : Phase} (permitted : Permits (gs t).1 ⟨site, .writeWord a 0⟩ r g)
    (within : site.writes = false) : (gs t).1.Bears cfg s t a := by
  generalize own : (gs t).1 = before at permitted
  cases permitted with
  | image => cases within
  | clear => cases within
  | free => exact rfl

end

/-! Without a manager a thread is in its section from the CAS to the write of 0. -/

/-- Outside the section or inside. -/
inductive PlainPermits (a : GlobalAddress) : Bool → (o : Op) → o.act.Reply → Bool → Prop where
  | retry {tag found : BitVec 64} : found ≠ 0 → owner found ≠ owner tag →
    PlainPermits a false ⟨.tryLockAddress, .casWord a tag⟩ found false
  | lock {tag found : BitVec 64} : found = 0 ∨ owner found = owner tag →
    PlainPermits a false ⟨.tryLockAddress, .casWord a tag⟩ found true
  | read {word : BitVec 64} : PlainPermits a true ⟨.lockAndReadPage, .readWord a⟩ word true
  | free {r : Unit} : PlainPermits a true ⟨.unlockAddress, .writeWord a 0⟩ r false

def plainMachine (a : GlobalAddress) : Machine signature ℕ Call Unit State Bool where
  idle := false
  begins _ _ _ _ g := g = false
  permits t gs _ o r _ g' := PlainPermits a (gs t) o r g'
  ends _ _ _ g := g = false

section
variable {cfg : Config} {a : GlobalAddress} {inv : (ℕ → Bool) → State → Prop} {t : ℕ} {A : Type}

theorem follows_plain {post : A → Bool → Prop} {o : Op} {f : o.act.Reply → Lock A} {g : Bool} (after : o.act.Reply → Bool)
    (permitted : ∀ r, PlainPermits a g o r (after r))
    (later : ∀ r, Follows (plainMachine a).permits (exec cfg) inv t post (f r) (after r)) :
    Follows (plainMachine a).permits (exec cfg) inv t post (Program.perform o .value >>= f) g := by
  rintro gs s _ rfl c r s' _
  exact ⟨after r, permitted r, later r⟩

theorem follows_plain_lockWord {tag : BitVec 64} {bound retries : ℕ} {pre : BitVec 64} :
    Follows (plainMachine a).permits (exec cfg) inv t (fun _ g => g = true) (lockWord cfg tag a bound retries pre) false := by
  induction bound generalizing retries pre with
  | zero => trivial
  | succ bound ih =>
    unfold lockWord
    refine follows_plain (fun (found : BitVec 64) => decide (found = 0 ∨ owner found = owner tag)) (fun (found : BitVec 64) => ?_)
      (fun (found : BitVec 64) => ?_)
    · by_cases mine : found = 0 ∨ owner found = owner tag
      · rw [decide_eq_true mine]
        exact .lock mine
      · rw [decide_eq_false mine]
        exact .retry (fun zero => mine (.inl zero)) fun same => mine (.inr same)
    · by_cases zero : found = 0
      · rw [if_pos zero, decide_eq_true (Or.inl zero)]
        exact rfl
      rw [if_neg zero]
      by_cases mine : owner found = owner tag
      · rw [if_pos mine, decide_eq_true (Or.inr mine)]
        exact rfl
      rw [if_neg mine, decide_eq_false (not_or.2 ⟨zero, mine⟩)]
      split_ifs
      · trivial
      · exact ih
      · exact ih

theorem implements_plain (plain : cfg.manager = false) : Implements (system cfg (unlocksOf a)) (plainMachine a) inv := by
  rintro gs s t ⟨tag, _, _⟩ _ _ ⟨_, rfl, rfl⟩
  refine ⟨false, rfl, ?_⟩
  simp only [system, Call.body, lockAndReadPage, tryLockAddress, acquireLocal, unlockAddress, releaseLocal, plain,
    Bool.false_eq_true, if_false,
    pure_bind, bind_assoc]
  refine follows_bind (follows_mono follows_plain_lockWord ?_)
  rintro _ _ rfl
  refine follows_plain (fun _ => true) (fun _ => .read) fun _ => ?_
  rw [← bind_pure (writeWord .unlockAddress _ 0)]
  exact follows_plain (fun _ => false) (fun _ => .free) fun _ => rfl

end

/-- At most one thread is inside, and the word is set meanwhile. -/
structure PlainLocked (a : GlobalAddress) (gs : ℕ → Bool × List Done) (s : State) : Prop where
  word : ∀ t, (gs t).1 = true → s.words a ≠ 0
  unique : ∀ t u, (gs t).1 = true → (gs u).1 = true → u = t
  trail : ∀ t, inSection (gs t).2 = true → (gs t).1 = true

section
variable {cfg : Config} {a : GlobalAddress} {gs : ℕ → Bool × List Done} {s s' : State} {t u : ℕ}

theorem PlainLocked.set (plain : PlainLocked a gs s) {g : Bool × List Done} (own : g.1 = true → s'.words a ≠ 0)
    (others : ∀ u, u ≠ t → (gs u).1 = true → g.1 = false ∧ s'.words a ≠ 0) (trail : inSection g.2 = true → g.1 = true) :
    PlainLocked a (Function.update gs t g) s' := by
  -- a step of one thread
  refine ⟨fun u => ?_, fun u v => ?_, fun u => ?_⟩
  · by_cases here : u = t
    · subst here
      rw [Function.update_self]
      exact own
    · rw [Function.update_of_ne here]
      exact fun inside => (others u here inside).2
  · by_cases here : u = t
    · subst here
      by_cases there : v = u
      · exact fun _ _ => there
      · rw [Function.update_self, Function.update_of_ne there]
        intro inside inside'
        rw [(others v there inside').1] at inside
        cases inside
    · rw [Function.update_of_ne here]
      by_cases there : v = t
      · subst there
        rw [Function.update_self]
        intro inside inside'
        rw [(others u here inside).1] at inside'
        cases inside'
      · rw [Function.update_of_ne there]
        exact plain.unique u v
  · by_cases here : u = t
    · subst here
      rw [Function.update_self]
      exact trail
    · rw [Function.update_of_ne here]
      exact plain.trail u

theorem PlainLocked.rest (plain : PlainLocked a gs s) {g : Bool × List Done} (eq : g = (false, [])) :
    PlainLocked a (Function.update gs t g) s := by
  subst eq
  exact plain.set (by rintro ⟨⟩) (fun u _ inside => ⟨rfl, plain.word u inside⟩) (by rintro ⟨⟩)

theorem PlainLocked.step (plain : PlainLocked a gs s) {o : Op} {c : Unit} {r : o.act.Reply} {g : Bool × List Done}
    (performed : exec cfg t o c s = some (r, s')) (undisputed : Undisputed cfg t o r s) (permitted : PlainPermits a (gs t).1 o r g.1)
    (log : g.2 = ⟨o, r⟩ :: (gs t).2) : PlainLocked a (Function.update gs t g) s' := by
  obtain ⟨after, log'⟩ := g
  generalize own : (gs t).1 = before at permitted
  cases permitted with
  | retry set other =>
    obtain ⟨rfl, ⟨zero, -⟩ | ⟨-, rfl⟩⟩ := casWord_eq performed
    · exact absurd zero set
    · refine plain.set (by rintro ⟨⟩) (fun u _ inside => ⟨rfl, plain.word u inside⟩) fun inside => ?_
      rw [log] at inside
      exact absurd (of_decide_eq_true inside) (not_or.2 ⟨set, other⟩)
  | lock mine =>
    obtain ⟨rfl, ⟨zero, rfl⟩ | ⟨set, -⟩⟩ := casWord_eq performed
    · refine plain.set (fun _ => ?_) (fun u _ inside => absurd zero (plain.word u inside)) fun _ => rfl
      simp only [State.setWord, Function.update_self]
      exact undisputed.1
    · rcases mine with zero | mine
      · exact absurd zero set
      · exact absurd mine (undisputed.2.resolve_left set)
  | read =>
    cases performed
    refine plain.set (fun _ => plain.word t own) (fun u apart inside => ?_) fun _ => rfl
    exact absurd (plain.unique t u own inside) apart
  | free =>
    cases performed
    refine plain.set (by rintro ⟨⟩) (fun u apart inside => absurd (plain.unique t u own inside) apart) fun inside => ?_
    rw [log] at inside
    cases inside

theorem inside_of_unlocking {site : Site} {r : Unit} {g g' : Bool}
    (permitted : PlainPermits a g ⟨site, .writeWord a 0⟩ r g') : g = true := by
  cases permitted
  rfl

theorem preserves_plain : Preserves (system cfg (unlocksOf a)) ((plainMachine a).logged fun _ => True) (PlainLocked a)
    (Undisputed cfg) where
  invoke := by
    rintro gs s t call ⟨g, log⟩ plain _ _ ⟨rfl, rfl⟩
    exact plain.rest rfl
  act := by
    rintro gs s t o c r s' g plain performed undisputed ⟨permitted, log, _⟩
    exact plain.step (c := c) performed undisputed permitted log
  finish := by
    rintro gs s t call _ plain _
    exact plain.rest rfl
  env := by
    rintro _ _ _ _ ⟨⟩

theorem plainLocked_initial : PlainLocked a (fun _ => (false, [])) initial :=
  ⟨by rintro _ ⟨⟩, by rintro _ _ ⟨⟩, by rintro _ ⟨⟩⟩

end

/-- A thread that clears the remote word finds no other in its section. -/
theorem unlock_hits_nobody {cfg : Config} {a : GlobalAddress} {P : Pool signature ℕ Call Unit State}
    (run : Reaches (system cfg (unlocksOf a)) (Undisputed cfg) (Pool.start initial) P) {t : ℕ} {call : Call} {site : Site}
    {next : Unit → Lock Unit} {done : List Done} (running : P.threads t = some ⟨call, .perform ⟨site, .writeWord a 0⟩ next, done⟩)
    {u : ℕ} (other : u ≠ t) {activity : Activity signature Call Unit} (present : P.threads u = some activity) :
    inSection activity.done = false := by
  by_contra inside
  rw [Bool.not_eq_false] at inside
  cases manager : cfg.manager with
  | true =>
    have implements : Implements (system cfg (unlocksOf a))
      (machine.logged fun o => o.act.address = a ∧ o.site.writes = false) (OnPage cfg a) :=
      implements_logged (fun _ _ holds => holds.locked) (implements_machine manager (fun _ _ locked => locked.turns) _) only_unlocks
    obtain ⟨gs, explains, logs⟩ := explains_logged implements preserves_unlocks .initial run
    obtain ⟨g, ⟨permitted, -, -, within⟩, -⟩ := explains.permits running (c := ()) rfl
    have bears := explains.holds.inSection (t := u) (by rw [logs u _ present]; exact inside)
    exact other (explains.holds.locked.borne.unique t u a (bears_of_unlocking permitted within) bears)
  | false =>
    have plain : Implements (system cfg (unlocksOf a)) (plainMachine a) (fun _ _ => True) := implements_plain manager
    have implements : Implements (system cfg (unlocksOf a)) ((plainMachine a).logged fun _ => True) (PlainLocked a) :=
      implements_logged (fun _ _ _ => trivial) plain fun _ _ call _ => only_body call fun _ _ _ _ _ => trivial
    obtain ⟨gs, explains, logs⟩ := explains_logged implements preserves_plain plainLocked_initial run
    obtain ⟨g, ⟨permitted, -⟩, -⟩ := explains.permits running (c := ()) rfl
    exact other (explains.holds.unique t u (inside_of_unlocking permitted)
      (explains.holds.trail u (by rw [logs u _ present]; exact inside)))

/-- The condition of `unlock_hits_nobody` as a test. -/
def disputes (cfg : Config) : Test signature ℕ State := fun t o _ s =>
  match o with
  | ⟨_, .takeTicket a⟩ => (s.nodes (cfg.home t) (getLockIndex a)).next + 1 < 2 ^ 32
  | ⟨_, .casWord a tag⟩ => tag ≠ 0 ∧ (s.words a = 0 ∨ owner (s.words a) ≠ owner tag)
  | _ => true

theorem undisputed_of_disputes {cfg : Config} (t : ℕ) (o : Op) (r : o.act.Reply) (s : State) (met : disputes cfg t o r s = true) :
    Undisputed cfg t o r s := by
  obtain ⟨site, act⟩ := o
  cases act with
  | takeTicket a => simpa only [disputes, Undisputed, decide_eq_true_eq] using met
  | casWord a tag => simpa only [disputes, Undisputed, decide_eq_true_eq] using met
  | _ => trivial

theorem unlocksOf_sections (s : State) (t : ℕ) (call : Call) (ok : sections .unlock s t call = true) :
    (system oneServer (unlocksOf page)).admits s t call := by
  obtain ⟨tag, address, exit⟩ := of_decide_eq_true ok
  exact ⟨tag, address, exit⟩

/-- The first thread has released the lock node; the second has gone on for some steps. -/
def unlocking (allows : Test signature ℕ State) (steps : ℕ) : Pool signature ℕ Call Unit State :=
  (Pool.start initial).drive (system oneServer (unlocksOf page)) (sections .unlock) allows
    (Move.part 0 (aSection 0 .unlock) () 9 ++ Move.part 1 (aSection 1 .unlock) () steps)

theorem unlock_hits_nobody_unlocking :
    ∃ activity, (unlocking (disputes oneServer) 4).threads 1 = some activity ∧ activity.done.length = 4 ∧
    inSection activity.done = false := by
  have four : ((unlocking (disputes oneServer) 4).threads 1).map (fun activity => activity.done.length) = some 4 := by decide +kernel
  obtain ⟨activity, running, four⟩ := Option.map_eq_some_iff.1 four
  exact ⟨activity, running, four, unlock_hits_nobody (reaches_drive unlocksOf_sections undisputed_of_disputes _ _ : Reaches _ _ _
    (unlocking (disputes oneServer) 4)) (t := 0) rfl (by decide) running⟩

theorem unlock_fails_unlocking :
    ¬ ∀ P, Reaches (system oneServer (unlocksOf page)) anything (Pool.start initial) P → ∀ t call site next done,
      P.threads t = some ⟨call, .perform ⟨site, .writeWord page 0⟩ next, done⟩ → ∀ u, u ≠ t → ∀ activity,
        P.threads u = some activity →
      inSection activity.done = false := by
  intro claim
  have inside : ((unlocking freely 5).threads 1).map (fun activity => inSection activity.done) = some true := by decide +kernel
  obtain ⟨activity, running, inside⟩ := Option.map_eq_some_iff.1 inside
  have outside := claim (unlocking freely 5) (reaches_drive unlocksOf_sections (fun _ _ _ _ _ => trivial) _ _) 0 _ _ _ _ rfl 1
    (by decide) activity running
  rw [inside] at outside
  cases outside

/-! ## Mutual exclusion -/

/-- The page whose section a thread is in: `try_lock_address` has returned, and the word was neither cleared nor handed over since. -/
def occupied : List Done → Option GlobalAddress
  | ⟨⟨.acquire, .storeFlag a _ _⟩, _⟩ :: ⟨⟨.acquire, .loadFlag _ _⟩, (flag : Bool)⟩ :: _ => if flag then some a else none
  | ⟨⟨.tryLockAddress, .casWord a tag⟩, (found : BitVec 64)⟩ :: _ => if found = 0 ∨ owner found = owner tag then some a else none
  | ⟨⟨.writePageAndUnlock, .writeWord _ word⟩, _⟩ :: rest => if word = 0 then none else occupied rest
  -- the last step of `write_page_and_unlock`
  | ⟨⟨.release (.writePageAndUnlock _), .advance _⟩, _⟩ :: _ => none
  -- `unlock_address` ends with the handover or the cleared word
  | ⟨⟨.release .unlockAddress, .advance _⟩, _⟩ :: ⟨⟨.release .unlockAddress, .addCount _⟩, _⟩ :: _ => none
  | ⟨⟨.unlockAddress, .writeWord _ _⟩, _⟩ :: _ => none
  | _ :: rest => occupied rest
  | [] => none

def Stage.inside : Stage → Bool
  | .holding _ => true
  | .asked _ => true
  | .answered _ _ => true
  | .weighing mode => mode ≠ .cleared
  | .handing mode => mode ≠ .cleared
  | .counting mode => mode ≠ .cleared
  | .passing mode => mode ≠ .cleared
  | .resetting mode => mode ≠ .cleared
  | .departing mode => mode ≠ .cleared
  | _ => false

def Phase.page : Phase → Option GlobalAddress
  | .idle => none
  | .queued a _ stage => if stage.inside then some a else none
  | .pending a => some a

/-- A thread occupies at most the page of its place, and what it did last tells how it goes on. -/
structure Path (g : Phase) (log : List Done) : Prop where
  page : ∀ a, occupied log = some a → g.page = some a
  flag : ∀ a k b, g = .queued a k (.flagged b) → ∃ a' slot rest, log = ⟨⟨.acquire, .loadFlag a' slot⟩, b⟩ :: rest
  count : ∀ a k mode, g = .queued a k (.passing mode) → ∃ a' r rest, log = ⟨⟨.release mode.caller, .addCount a'⟩, r⟩ :: rest

theorem Path.of_page {g : Phase} {log : List Done} (page : ∀ a, occupied log = some a → g.page = some a)
    (flag : ∀ a k b, g ≠ .queued a k (.flagged b)) (count : ∀ a k mode, g ≠ .queued a k (.passing mode)) : Path g log :=
  ⟨page, fun a k b eq => absurd eq (flag a k b), fun a k mode eq => absurd eq (count a k mode)⟩

/-- `release` enters no section. -/
theorem occupied_of_release {caller : Caller} {act : Act} {r : act.Reply} {log : List Done} {a : GlobalAddress}
    (inside : occupied (⟨⟨.release caller, act⟩, r⟩ :: log) = some a) : occupied log = some a := by
  cases act with
  | advance b =>
    cases caller with
    | writePageAndUnlock kept => cases inside
    | unlockAddress =>
      cases log with
      | nil => exact inside
      | cons d rest =>
        obtain ⟨⟨site, act⟩, r'⟩ := d
        rcases site with _ | _ | (_ | _) | _ | _ | _ | _ <;> cases act <;> first | exact inside | cases inside
  | _ => cases caller <;> exact inside

theorem Path.step {g g' : Phase} {o : Op} {r : o.act.Reply} {log : List Done} (path : Path g log) (permitted : Permits g o r g') :
    Path g' (⟨o, r⟩ :: log) := by
  cases permitted with
  | draw => exact .of_page path.page (by rintro _ _ _ ⟨⟩) (by rintro _ _ _ ⟨⟩)
  | spin => exact .of_page path.page (by rintro _ _ _ ⟨⟩) (by rintro _ _ _ ⟨⟩)
  | turn => exact .of_page path.page (by rintro _ _ _ ⟨⟩) (by rintro _ _ _ ⟨⟩)
  | flag =>
    refine ⟨path.page, ?_, by rintro _ _ _ ⟨⟩⟩
    rintro _ _ _ ⟨⟩
    exact ⟨_, _, _, rfl⟩
  | @enter a k b =>
    obtain ⟨a', slot, rest, rfl⟩ := path.flag a k b rfl
    cases b with
    | true => exact .of_page (fun _ => id) (by rintro _ _ _ ⟨⟩) (by rintro _ _ _ ⟨⟩)
    | false => exact .of_page (by rintro _ ⟨⟩) (by rintro _ _ _ ⟨⟩) (by rintro _ _ _ ⟨⟩)
  | @retry a k tag found set other =>
    refine .of_page (fun b inside => ?_) (by rintro _ _ _ ⟨⟩) (by rintro _ _ _ ⟨⟩)
    simp only [occupied, if_neg (not_or.2 ⟨set, other⟩)] at inside
    cases inside
  | @lock a k tag found mine =>
    refine .of_page (fun b inside => ?_) (by rintro _ _ _ ⟨⟩) (by rintro _ _ _ ⟨⟩)
    simp only [occupied, if_pos mine] at inside
    exact inside
  | read => exact .of_page path.page (by rintro _ _ _ ⟨⟩) (by rintro _ _ _ ⟨⟩)
  | @ask a k v =>
    by_cases some' : 0 < waiters v <;> simp only [some', if_true, if_false] <;>
      exact .of_page path.page (by rintro _ _ _ ⟨⟩) (by rintro _ _ _ ⟨⟩)
  | answer => exact .of_page path.page (by rintro _ _ _ ⟨⟩) (by rintro _ _ _ ⟨⟩)
  | @image a k word =>
    refine .of_page (fun b inside => ?_) (by rintro _ _ _ ⟨⟩) (by rintro _ _ _ ⟨⟩)
    simp only [occupied] at inside
    split_ifs at inside
    exact path.page b inside
  | clear =>
    refine .of_page (fun b inside => ?_) (by rintro _ _ _ ⟨⟩) (by rintro _ _ _ ⟨⟩)
    simp only [occupied, if_true] at inside
    cases inside
  | @weigh a k v stage mode releases =>
    have page : ∀ b, occupied log = some b → (Phase.queued a k (.weighing mode)).page = some b := by
      cases releases <;> exact path.page
    by_cases some' : 0 < waiters v <;> simp only [some', if_true, if_false] <;>
      exact .of_page (fun b inside => page b (occupied_of_release inside)) (by rintro _ _ _ ⟨⟩) (by rintro _ _ _ ⟨⟩)
  | @decide a k count mode =>
    by_cases few : count < kMaxHandOverTime <;> simp only [few, if_true, if_false] <;>
      exact .of_page (fun b inside => path.page b (occupied_of_release inside)) (by rintro _ _ _ ⟨⟩) (by rintro _ _ _ ⟨⟩)
  | hand => exact .of_page (fun b inside => path.page b (occupied_of_release inside)) (by rintro _ _ _ ⟨⟩) (by rintro _ _ _ ⟨⟩)
  | count =>
    refine ⟨fun b inside => path.page b (occupied_of_release inside), by rintro _ _ _ ⟨⟩, ?_⟩
    rintro _ _ _ ⟨⟩
    exact ⟨_, _, _, rfl⟩
  | @pass a k mode =>
    obtain ⟨a', r, rest, rfl⟩ := path.count a k mode rfl
    refine .of_page (fun b inside => ?_) (by rintro _ _ _ ⟨⟩) (by rintro _ _ _ ⟨⟩)
    cases mode <;> cases inside
  | reset => exact .of_page (fun b inside => path.page b (occupied_of_release inside)) (by rintro _ _ _ ⟨⟩) (by rintro _ _ _ ⟨⟩)
  | @depart a k mode =>
    cases mode with
    | unlock => exact .of_page (fun b inside => path.page b (occupied_of_release inside)) (by rintro _ _ _ ⟨⟩) (by rintro _ _ _ ⟨⟩)
    | kept => exact .of_page (by rintro _ ⟨⟩) (by rintro _ _ _ ⟨⟩) (by rintro _ _ _ ⟨⟩)
    | cleared => exact .of_page (by rintro _ ⟨⟩) (by rintro _ _ _ ⟨⟩) (by rintro _ _ _ ⟨⟩)
  | free => exact .of_page (by rintro _ ⟨⟩) (by rintro _ _ _ ⟨⟩) (by rintro _ _ _ ⟨⟩)

section
variable {cfg : Config} {gs : ℕ → Phase × List Done} {s s' : State} {t : ℕ}

theorem bears_of_page {g : Phase} {a : GlobalAddress} (page : g.page = some a) : g.Bears cfg s t a := by
  cases g with
  | idle => cases page
  | pending b => exact Option.some.inj page
  | queued b k stage =>
    simp only [Phase.page, Option.ite_none_right_eq_some, Option.some.injEq] at page
    refine ⟨page.2, ?_⟩
    have inside := page.1
    cases stage <;> simp_all [Stage.inside, Stage.Bears]

/-- The locks, and what the threads have done. -/
structure Traced (cfg : Config) (gs : ℕ → Phase × List Done) (s : State) : Prop where
  locked : Locked cfg (fun t => (gs t).1) s
  path : ∀ t, Path (gs t).1 (gs t).2

theorem path_idle : Path .idle [] := .of_page (by rintro _ ⟨⟩) (by rintro _ _ _ ⟨⟩) (by rintro _ _ _ ⟨⟩)

theorem Traced.set (traced : Traced cfg gs s) {g : Phase × List Done}
    (locked : Locked cfg (Function.update (fun u => (gs u).1) t g.1) s')
    (path : Path g.1 g.2) : Traced cfg (Function.update gs t g) s' := by
  refine ⟨?_, fun u => ?_⟩
  · rw [phases_update]
    exact locked
  · by_cases own : u = t
    · subst own
      rw [Function.update_self]
      exact path
    · rw [Function.update_of_ne own]
      exact traced.path u

theorem Traced.rest (traced : Traced cfg gs s) (own : (gs t).1 = .idle) {g : Phase × List Done} (idle : g = (.idle, [])) :
    Traced cfg (Function.update gs t g) s := by
  subst idle
  refine traced.set ?_ path_idle
  rw [← own, Function.update_eq_self]
  exact traced.locked

theorem preserves_traced {admits : ℕ → Call → Prop} :
    Preserves (system cfg admits) (machine.logged fun _ => True) (Traced cfg) (Orderly cfg) where
  invoke := by
    rintro gs s t call ⟨g, log⟩ traced idle _ ⟨rfl, rfl⟩
    exact traced.rest (by rw [idle]; rfl) rfl
  act := by
    rintro gs s t o c r s' g traced performed orderly ⟨permitted, log, _⟩
    refine traced.set (traced.locked.step (c := c) performed orderly permitted) ?_
    rw [log]
    exact (traced.path t).step permitted
  finish := by
    rintro gs s t call _ traced ends
    exact traced.rest ends rfl
  env := by
    rintro _ _ _ _ ⟨⟩

/-- In an orderly run a page is occupied by one thread at most. -/
theorem page_exclusive (manager : cfg.manager = true) {P : Pool signature ℕ Call Unit State}
    (run : Reaches (system cfg fun _ _ => True) (Orderly cfg) (Pool.start initial) P) {t u : ℕ} (other : u ≠ t)
    {activity activity' : Activity signature Call Unit} (running : P.threads t = some activity)
    (running' : P.threads u = some activity')
    {a : GlobalAddress} (inside : occupied activity.done = some a) : occupied activity'.done ≠ some a := by
  intro inside'
  have implements : Implements (system cfg fun _ _ => True) (machine.logged fun _ => True) (Traced cfg) :=
    implements_logged (fun _ _ traced => traced.locked) (implements_machine manager (fun _ _ locked => locked.turns) _)
      fun _ _ call _ => only_body call fun _ _ _ _ _ => trivial
  obtain ⟨gs, explains, logs⟩ := explains_logged implements preserves_traced ⟨locked_initial, fun _ => path_idle⟩ run
  have bears : ∀ {t activity}, P.threads t = some activity → occupied activity.done = some a → (gs t).1.Bears cfg P.shared t a := by
    intro t activity running inside
    rw [← logs t _ running] at inside
    exact bears_of_page ((explains.holds.path t).page a inside)
  exact other (explains.holds.locked.borne.unique t u a (bears running inside) (bears running' inside'))

end

def keepsOrder (cfg : Config) : Test signature ℕ State := fun t o _ s =>
  match o with
  | ⟨_, .takeTicket a⟩ => (s.nodes (cfg.home t) (getLockIndex a)).next + 1 < 2 ^ 32
  | ⟨_, .casWord a tag⟩ => tag ≠ 0 ∧ (s.words a = 0 ∨ owner (s.words a) ≠ owner tag)
  | ⟨.release (.writePageAndUnlock false), .loadTicket _⟩ => false
  | ⟨.release _, .storeFlag _ _ _⟩ => false
  | _ => true

theorem orderly_of_keepsOrder {cfg : Config} (t : ℕ) (o : Op) (r : o.act.Reply) (s : State) (met : keepsOrder cfg t o r s = true) :
    Orderly cfg t o r s := by
  obtain ⟨site, act⟩ := o
  cases act with
  | takeTicket a => simpa only [keepsOrder, Orderly, decide_eq_true_eq] using met
  | casWord a tag => simpa only [keepsOrder, Orderly, decide_eq_true_eq] using met
  | loadTicket a =>
    rcases site with _ | _ | (_ | _ | _) | _ | _ | _ | _
    case release.writePageAndUnlock.false => cases met
    all_goals trivial
  | storeFlag a slot flag =>
    rcases site with _ | _ | (_ | _ | _) | _ | _ | _ | _ <;> trivial
  | _ => trivial

theorem any_sections (s : State) (t : ℕ) (call : Call) (ok : sections .unlock s t call = true) :
    (system oneServer fun _ _ => True).admits s t call :=
  ⟨(of_decide_eq_true ok).1, trivial⟩

/-- Two threads come to the page; the first goes on for some steps before the second. -/
def twoThreads (allows : Test signature ℕ State) (first second : ℕ) : Pool signature ℕ Call Unit State :=
  (Pool.start initial).drive (system oneServer fun _ _ => True) (sections .unlock) allows
    (Move.part 0 (aSection 0 .unlock) () first ++ Move.part 1 (aSection 1 .unlock) () second)

theorem page_exclusive_twoThreads :
    ∃ activity, (twoThreads (keepsOrder oneServer) 6 1).threads 1 = some activity ∧ occupied activity.done ≠ some page := by
  have inside : ((twoThreads (keepsOrder oneServer) 6 1).threads 0).map (fun activity => occupied activity.done) = some
    (some page) := by decide +kernel
  have waits : ((twoThreads (keepsOrder oneServer) 6 1).threads 1).map (fun activity => activity.done.length) = some
    1 := by decide +kernel
  obtain ⟨activity, running, inside⟩ := Option.map_eq_some_iff.1 inside
  obtain ⟨activity', running', -⟩ := Option.map_eq_some_iff.1 waits
  exact ⟨activity', running', page_exclusive rfl (reaches_drive any_sections orderly_of_keepsOrder _ _ : Reaches _ _ _
    (twoThreads (keepsOrder oneServer) 6 1)) (by decide) running running' inside⟩

/-- The first thread has released the lock node and not yet cleared the word, and the second takes the page for its own. -/
theorem page_shared_twoThreads :
    ¬ ∀ P, Reaches (system oneServer fun _ _ => True) anything (Pool.start initial) P → ∀ t u, u ≠ t → ∀ activity activity',
      P.threads t = some activity → P.threads u = some activity' → ∀ a, occupied activity.done = some a →
        occupied activity'.done ≠ some a := by
  intro claim
  have inside : ((twoThreads freely 9 5).threads 0).map (fun activity => occupied activity.done) = some
    (some page) := by decide +kernel
  have inside' : ((twoThreads freely 9 5).threads 1).map (fun activity => occupied activity.done) = some
    (some page) := by decide +kernel
  obtain ⟨activity, running, inside⟩ := Option.map_eq_some_iff.1 inside
  obtain ⟨activity', running', inside'⟩ := Option.map_eq_some_iff.1 inside'
  exact claim (twoThreads freely 9 5) (reaches_drive any_sections (fun _ _ _ _ _ => trivial) _ _) 0 1 (by decide) activity
    activity' running running'
    page inside inside'

end Faunus.Sherman.Locks
