import Faunus.Sherman.LockInvariant

/-! The lock nodes of a `LocalLockManager` by themselves.

The threads of one compute server call `acquire` and `release` on pages of one set. What
has happened is kept beside the lock nodes: who waits and who is inside, with which ticket,
and what the calls have returned. A thread is inside from the return of `acquire` until its
`release` lets the next ticket in.
-/

set_option autoImplicit false

namespace Faunus.Sherman.Locks

open Interleaving

/-! ## Calls -/

inductive Standing where
  | away
  | waiting
  | inside
  deriving DecidableEq

/-- A return of `acquire`. -/
structure Entry where
  ticket : ℕ
  page : GlobalAddress
  handedOver : Bool
  /-- The page of the release that had set the flag. -/
  handedBy : Option GlobalAddress

structure Desk where
  state : State
  standing : ℕ → Standing
  /-- The page and the ticket of the last `acquire` of a thread. -/
  page : ℕ → GlobalAddress
  ticket : ℕ → ℕ
  drawn : ℕ
  /-- The page of the release that set a flag last, by lock node and slot. -/
  setBy : ℕ → ℕ → Option GlobalAddress
  /-- For each thread the same for the flag it has loaded. -/
  handedBy : ℕ → Option GlobalAddress
  /-- Whether the release of a ticket hands over, by lock node. -/
  decided : ℕ → ℕ → Bool
  /-- The returns of `acquire` by lock node, newest first. -/
  entries : ℕ → List Entry
  /-- What the release of a ticket has returned, by lock node. -/
  outcomes : ℕ → ℕ → Option Bool

def put {A : Type} (f : ℕ → ℕ → A) (i k : ℕ) (x : A) : ℕ → ℕ → A := Function.update f i (Function.update (f i) k x)

def Desk.node (d : Desk) (a : GlobalAddress) : LockNode := d.state.nodes 0 (getLockIndex a)

def Desk.note (d : Desk) (t : ℕ) : (act : Act) → act.Reply → Desk
  | .takeTicket a, (v : ℕ) =>
    { d with
      standing := Function.update d.standing t .waiting
      page := Function.update d.page t a
      ticket := Function.update d.ticket t (v % 2 ^ 32)
      drawn := d.drawn + 1 }
  | .loadFlag a slot, (flag : Bool) =>
    { d with handedBy := Function.update d.handedBy t (if flag then d.setBy (getLockIndex a) slot else none) }
  | .storeFlag a slot true, _ => { d with setBy := put d.setBy (getLockIndex a) slot (some a) }
  | .addCount a, _ => { d with decided := put d.decided (getLockIndex a) (d.ticket t) true }
  | .storeCount a _, _ => { d with decided := put d.decided (getLockIndex a) (d.ticket t) false }
  | .advance _, _ => { d with standing := Function.update d.standing t .away }
  | _, _ => d

def sameServer (loopBound : ℕ) : Config where
  manager := true
  home _ := 0
  tag _ := 0
  maxRetries := 1000000
  loopBound := loopBound

def Desk.exec (loopBound : ℕ) : Exec signature ℕ Unit Desk := fun t o c d =>
  (Locks.exec (sameServer loopBound) t o c d.state).map fun reply => (reply.1, { d.note t o.act reply.1 with state := reply.2 })

inductive Visit where
  | acquire (a : GlobalAddress)
  | release (a : GlobalAddress)

def Visit.body (loopBound : ℕ) : Visit → Lock Bool
  | .acquire a => Locks.acquire (sameServer loopBound) a
  | .release a => Locks.release .unlockAddress a

def Desk.start : Desk where
  state := initial
  standing _ := .away
  page _ := .ofAddress 0
  ticket _ := 0
  drawn := 0
  setBy _ _ := none
  handedBy _ := none
  decided _ _ := false
  entries _ := []
  outcomes _ _ := none

/-- A thread acquires a page of the set when it is away, and releases the page it is inside of. -/
def lockManager (loopBound : ℕ) (pages : GlobalAddress → Prop) : System signature ℕ Unit Visit Bool Desk where
  exec := Desk.exec loopBound
  body := Visit.body loopBound
  admits d t visit := match visit with
    | .acquire a => pages a ∧ d.standing t = .away
    | .release a => d.standing t = .inside ∧ d.page t = a
  env _ _ := False
  invoked _ _ d := d
  returned t visit b d := match visit with
    | .acquire a =>
      { d with
        standing := Function.update d.standing t .inside
        entries := Function.update d.entries (getLockIndex a) (⟨d.ticket t, a, b, d.handedBy t⟩ :: d.entries (getLockIndex a)) }
    | .release a => { d with outcomes := put d.outcomes (getLockIndex a) (d.ticket t) (some b) }

/-! ## What a thread does next -/

inductive Moment where
  | asking
  | waiting
  | served
  | flagged (handedOver : Bool)
  | entered (handedOver : Bool)
  | called
  | weighing
  | handing
  | counting
  | passing
  | resetting
  | departing
  | left (handover : Bool)
  deriving DecidableEq

inductive Turn where
  | idle
  | busy (a : GlobalAddress) (ticket : ℕ) (moment : Moment)

inductive Proceeds : Turn → (o : Op) → o.act.Reply → Turn → Prop where
  | draw {a : GlobalAddress} {k v : ℕ} : Proceeds (.busy a k .asking) ⟨.acquire, .takeTicket a⟩ v (.busy a (v % 2 ^ 32) .waiting)
  | spin {a : GlobalAddress} {k v : ℕ} :
    k ≠ v / 2 ^ 32 → Proceeds (.busy a k .waiting) ⟨.acquire, .loadTicket a⟩ v (.busy a k .waiting)
  | turn {a : GlobalAddress} {k v : ℕ} :
    k = v / 2 ^ 32 → Proceeds (.busy a k .waiting) ⟨.acquire, .loadTicket a⟩ v (.busy a k .served)
  | flag {a : GlobalAddress} {k : ℕ} {b : Bool} :
      Proceeds (.busy a k .served) ⟨.acquire, .loadFlag a (k % kHandoverFlagSlots)⟩ b (.busy a k (.flagged b))
  | enter {a : GlobalAddress} {k : ℕ} {b : Bool} {r : Unit} :
      Proceeds (.busy a k (.flagged b)) ⟨.acquire, .storeFlag a (k % kHandoverFlagSlots) false⟩ r (.busy a k (.entered b))
  | weigh {a : GlobalAddress} {k v : ℕ} {caller : Caller} : Proceeds (.busy a k .called) ⟨.release caller, .loadTicket a⟩ v
      (.busy a (v / 2 ^ 32) (if 0 < waiters v then .weighing else .resetting))
  | decide {a : GlobalAddress} {k count : ℕ} {caller : Caller} : Proceeds (.busy a k .weighing) ⟨.release caller, .loadCount a⟩ count
      (.busy a k (if count < kMaxHandOverTime then .handing else .resetting))
  | hand {a : GlobalAddress} {k : ℕ} {caller : Caller} {r : Unit} : Proceeds (.busy a k .handing)
      ⟨.release caller, .storeFlag a ((k + 1) % 2 ^ 32 % kHandoverFlagSlots) true⟩ r (.busy a k .counting)
  | count {a : GlobalAddress} {k : ℕ} {caller : Caller} {r : Unit} :
      Proceeds (.busy a k .counting) ⟨.release caller, .addCount a⟩ r (.busy a k .passing)
  | pass {a : GlobalAddress} {k : ℕ} {caller : Caller} {r : Unit} :
      Proceeds (.busy a k .passing) ⟨.release caller, .advance a⟩ r (.busy a k (.left true))
  | reset {a : GlobalAddress} {k : ℕ} {caller : Caller} {r : Unit} :
      Proceeds (.busy a k .resetting) ⟨.release caller, .storeCount a 0⟩ r (.busy a k .departing)
  | depart {a : GlobalAddress} {k : ℕ} {caller : Caller} {r : Unit} :
      Proceeds (.busy a k .departing) ⟨.release caller, .advance a⟩ r (.busy a k (.left false))

def turnMachine : Machine signature ℕ Visit Bool Desk Turn where
  idle := .idle
  begins t visit _ d g := match visit with
    | .acquire a => g = .busy a 0 .asking
    | .release a => g = .busy a (d.ticket t) .called
  permits t gs _ o r _ g := Proceeds (gs t) o r g
  ends _ visit b g := match visit with
    | .acquire a => ∃ k, g = .busy a k (.entered b)
    | .release a => ∃ k, g = .busy a k (.left b)

section
variable {loopBound : ℕ} {inv : (ℕ → Turn) → Desk → Prop} {t : ℕ} {A : Type} {a : GlobalAddress} {k : ℕ}

abbrev Turning (loopBound : ℕ) (inv : (ℕ → Turn) → Desk → Prop) (t : ℕ) (post : A → Turn → Prop) (p : Lock A) (g : Turn) : Prop :=
  Follows turnMachine.permits (Desk.exec loopBound) inv t post p g

theorem turning_op {post : A → Turn → Prop} {o : Op} {f : o.act.Reply → Lock A} {g : Turn} (after : o.act.Reply → Turn)
    (permitted : ∀ r, Proceeds g o r (after r)) (later : ∀ r, Turning loopBound inv t post (f r) (after r)) :
    Turning loopBound inv t post (Program.perform o .value >>= f) g := by
  refine follows_operation after ?_ later
  rintro gs s r s' rfl
  exact permitted r

theorem turning_awaitTurn {bound : ℕ} :
    Turning loopBound inv t (fun _ g => g = .busy a k .served) (awaitTurn a k bound) (.busy a k .waiting) := by
  induction bound with
  | zero => trivial
  | succ bound ih =>
    unfold awaitTurn
    refine turning_op (fun (v : ℕ) => .busy a k (if k = v / 2 ^ 32 then .served else .waiting)) ?_ ?_
    · intro (v : ℕ)
      split_ifs with same
      · exact .turn same
      · exact .spin same
    · intro (v : ℕ)
      split_ifs with same
      · exact rfl
      · exact ih

theorem turning_acquire {k : ℕ} :
    Turning loopBound inv t (fun b g => ∃ k, g = .busy a k (.entered b)) (acquire (sameServer loopBound) a) (.busy a k .asking) := by
  unfold acquire
  refine turning_op _ (fun (v : ℕ) => .draw) fun (v : ℕ) => follows_bind (follows_mono turning_awaitTurn ?_)
  rintro _ _ rfl
  refine turning_op _ (fun (b : Bool) => .flag) fun (b : Bool) => ?_
  refine turning_op _ (fun _ => .enter) fun _ => ?_
  exact ⟨v % 2 ^ 32, rfl⟩

theorem turning_release {k : ℕ} (caller : Caller) :
    Turning loopBound inv t (fun b g => ∃ k, g = .busy a k (.left b)) (release caller a) (.busy a k .called) := by
  have leave : ∀ k, Turning loopBound inv t (fun b g => ∃ k, g = .busy a k (.left b))
      (storeCount (.release caller) a 0 >>= fun _ => advance (.release caller) a >>= fun _ => pure false) (.busy a k .resetting) :=
    fun k => turning_op _ (fun _ => .reset) fun _ => turning_op _ (fun _ => .depart) fun _ => ⟨k, rfl⟩
  unfold release
  refine turning_op (fun (v : ℕ) => .busy a (v / 2 ^ 32) (if 0 < waiters v then .weighing else .resetting))
    (fun (v : ℕ) => .weigh) ?_
  intro (v : ℕ)
  unfold mayHandOver
  by_cases some' : 0 < waiters v
  · rw [if_pos some', if_pos some', bind_assoc]
    refine turning_op _ (fun (count : ℕ) => .decide) fun (count : ℕ) => ?_
    rw [pure_bind]
    by_cases few : count < kMaxHandOverTime
    · rw [if_pos (decide_eq_true few), if_pos few]
      exact turning_op _ (fun _ => .hand) fun _ => turning_op _ (fun _ => .count) fun _ =>
        turning_op _ (fun _ => .pass) fun _ => ⟨_, rfl⟩
    · rw [if_neg (by simp [few]), if_neg few]
      exact leave _
  · rw [if_neg some', if_neg some', pure_bind]
    exact leave _

theorem implements_turns {pages : GlobalAddress → Prop} : Implements (lockManager loopBound pages) turnMachine inv := by
  intro gs d t visit _ _ _
  cases visit with
  | acquire a => exact ⟨.busy a 0 .asking, rfl, turning_acquire⟩
  | release a => exact ⟨.busy a (d.ticket t) .called, rfl, turning_release _⟩

end

/-! ## Who has which ticket -/

def Desk.seat (d : Desk) (t : ℕ) : Option (GlobalAddress × ℕ) := if d.standing t = .away then none else some (d.page t, d.ticket t)

def Moment.standing : Moment → Standing
  | .asking => .away
  | .waiting => .waiting
  | .served => .waiting
  | .flagged _ => .waiting
  | .entered _ => .waiting
  | .left _ => .away
  | _ => .inside

/-- Behind the wait of `acquire`, before the end of `release`. -/
def Moment.turned : Moment → Bool
  | .asking => false
  | .waiting => false
  | .left _ => false
  | _ => true

structure Seated (gs : ℕ → Turn) (d : Desk) : Prop where
  queue : Queue (sameServer 0) d.seat d.state.nodes
  idle : ∀ t, gs t = .idle → d.standing t ≠ .waiting
  busy : ∀ t a k m, gs t = .busy a k m → d.standing t = m.standing ∧ (m ≠ .asking → d.page t = a ∧ d.ticket t = k)
  inside : ∀ t, d.standing t = .inside → (d.node (d.page t)).serving = d.ticket t
  turn : ∀ t a k m, gs t = .busy a k m → m.turned = true → (d.node a).serving = k
  next : ∀ i, (d.state.nodes 0 i).next ≤ d.drawn

section
variable {gs : ℕ → Turn} {d d' : Desk} {t u : ℕ} {a b : GlobalAddress} {k : ℕ} {m m' : Moment}

theorem turn_cases {g g' : Turn} (found : Function.update gs t g u = g') : u = t ∧ g' = g ∨ u ≠ t ∧ gs u = g' := by
  by_cases own : u = t
  · subst own
    rw [Function.update_self] at found
    exact .inl ⟨rfl, found.symm⟩
  · rw [Function.update_of_ne own] at found
    exact .inr ⟨own, found⟩

theorem Seated.seat_busy (seated : Seated gs d) (own : gs t = .busy a k m) (present : m.standing ≠ .away) :
    d.seat t = some (a, k) := by
  obtain ⟨standing, known⟩ := seated.busy t a k m own
  obtain ⟨rfl, rfl⟩ := known (by rintro rfl; exact present rfl)
  unfold Desk.seat
  rw [if_neg (by rw [standing]; exact present)]

theorem Seated.quiet (seated : Seated gs d) (own : gs t = .busy a k m)
    (tickets : ∀ c i, (d'.state.nodes c i).ticketLock = (d.state.nodes c i).ticketLock ∧
      (d'.state.nodes c i).drawnFor = (d.state.nodes c i).drawnFor)
    (standing : d'.standing = d.standing) (page : d'.page = d.page) (ticket : d'.ticket = d.ticket) (drawn : d'.drawn = d.drawn)
    (present : m.standing ≠ .away) (stays : m'.standing = m.standing) (turn : m'.turned = true → (d.node a).serving = k) :
    Seated (Function.update gs t (.busy a k m')) d' := by
  -- an operation that changes neither the tickets of the nodes nor who has which
  have seats : d'.seat = d.seat := by
    funext u
    simp only [Desk.seat, standing, page, ticket]
  have serving : ∀ b, (d'.node b).serving = (d.node b).serving := fun b => by
    simp only [Desk.node, LockNode.serving, (tickets 0 _).1]
  constructor
  · rw [seats]
    exact seated.queue.congr tickets
  · intro u found
    rw [standing]
    rcases turn_cases found with ⟨rfl, eq⟩ | ⟨_, old⟩
    · cases eq
    · exact seated.idle u old
  · intro u b k' m'' found
    rw [standing, page, ticket]
    rcases turn_cases found with ⟨rfl, eq⟩ | ⟨_, old⟩
    · cases eq
      obtain ⟨stood, known⟩ := seated.busy u a k m own
      exact ⟨by rw [stood, stays], fun _ => known (by rintro rfl; exact present rfl)⟩
    · exact seated.busy u b k' m'' old
  · intro u stood
    rw [standing] at stood
    rw [page, ticket, serving]
    exact seated.inside u stood
  · intro u b k' m'' found turned
    rw [serving]
    rcases turn_cases found with ⟨rfl, eq⟩ | ⟨_, old⟩
    · cases eq
      exact turn turned
    · exact seated.turn u b k' m'' old turned
  · intro i
    rw [drawn]
    simp only [LockNode.next, (tickets 0 i).1]
    exact seated.next i

theorem Seated.alone (seated : Seated gs d) (seat : d.seat t = some (a, k)) (turn : (d.node a).serving = k) {k' : ℕ}
    (other : d.seat u = some (b, k')) (turn' : (d.node b).serving = k') (index : getLockIndex b = getLockIndex a) : u = t := by
  have same : k' = k := by
    rw [← turn', ← turn]
    simp only [Desk.node, index]
  subst same
  exact seated.queue.distinct t u a b k' seat other rfl index

def Desk.draws (d : Desk) (t : ℕ) (a : GlobalAddress) : Desk :=
  { d.note t (.takeTicket a) (d.node a).ticketLock with state := d.state.setNode 0 a ((d.node a).drawn a) }

def Desk.advances (d : Desk) (t : ℕ) (a : GlobalAddress) : Desk :=
  { d.note t (.advance a) () with state := d.state.setNode 0 a (d.node a).advanced }

theorem node_setNode (d : Desk) (a b : GlobalAddress) (n : LockNode) :
    (d.state.setNode 0 a n).nodes 0 (getLockIndex b) = if getLockIndex b = getLockIndex a then n else d.node b := by
  simp only [nodes_setNode, true_and, Desk.node]

theorem seat_draws (d : Desk) (t : ℕ) (a : GlobalAddress) :
    (d.draws t a).seat = Function.update d.seat t (some (a, (d.node a).next)) := by
  funext u
  by_cases own : u = t
  · subst own
    simp [Desk.seat, Desk.draws, Desk.note, LockNode.next]
  · simp [Desk.seat, Desk.draws, Desk.note, Function.update_of_ne own]

theorem seat_advances (d : Desk) (t : ℕ) (a : GlobalAddress) : (d.advances t a).seat = Function.update d.seat t none := by
  funext u
  by_cases own : u = t
  · subst own
    simp [Desk.seat, Desk.advances, Desk.note]
  · simp [Desk.seat, Desk.advances, Desk.note, Function.update_of_ne own]

theorem Seated.room (seated : Seated gs d) (few : d.drawn + 1 < 2 ^ 32) (a : GlobalAddress) : (d.node a).next + 1 < 2 ^ 32 := by
  have bound : (d.node a).next ≤ d.drawn := seated.next _
  omega

theorem draws_serving (seated : Seated gs d) (few : d.drawn + 1 < 2 ^ 32) (b : GlobalAddress) :
    ((d.draws t a).node b).serving = (d.node b).serving := by
  have drawn := LockNode.drawn_ticket (a := a) (seated.queue.order 0 (getLockIndex a)) (seated.room few a)
  change ((d.state.setNode 0 a ((d.node a).drawn a)).nodes 0 (getLockIndex b)).serving = _
  rw [node_setNode]
  split_ifs with same
  · rw [Desk.node, Desk.node, same]
    exact drawn.1
  · rfl

theorem Seated.draw (seated : Seated gs d) (own : gs t = .busy a k .asking) (few : d.drawn + 1 < 2 ^ 32) :
    Seated (Function.update gs t (.busy a (d.node a).next .waiting)) (d.draws t a) := by
  have room := seated.room few a
  have serving : ∀ b, ((d.draws t a).node b).serving = (d.node b).serving := draws_serving seated few
  have away : d.standing t = .away := (seated.busy t a k _ own).1
  constructor
  · rw [seat_draws]
    exact seated.queue.draw (by simp [Desk.seat, away]) room
  · intro u found
    rcases turn_cases found with ⟨rfl, eq⟩ | ⟨other, old⟩
    · cases eq
    · simp only [Desk.draws, Desk.note, Function.update_of_ne other]
      exact seated.idle u old
  · intro u b k' m found
    rcases turn_cases found with ⟨rfl, eq⟩ | ⟨other, old⟩
    · cases eq
      simp [Desk.draws, Desk.note, Moment.standing, LockNode.next]
    · simp only [Desk.draws, Desk.note, Function.update_of_ne other]
      exact seated.busy u b k' m old
  · intro u stood
    rw [serving]
    by_cases same : u = t
    · subst same
      simp [Desk.draws, Desk.note] at stood
    · simp only [Desk.draws, Desk.note, Function.update_of_ne same] at stood ⊢
      exact seated.inside u stood
  · intro u b k' m found turned
    rw [serving]
    rcases turn_cases found with ⟨rfl, eq⟩ | ⟨other, old⟩
    · cases eq
      cases turned
    · exact seated.turn u b k' m old turned
  · intro i
    have before := seated.next i
    change ((d.state.setNode 0 a ((d.node a).drawn a)).nodes 0 i).next ≤ d.drawn + 1
    rw [nodes_setNode]
    split_ifs with here
    · have drawn := LockNode.drawn_ticket (a := a) (seated.queue.order 0 (getLockIndex a)) room
      have after : ((d.node a).drawn a).next = (d.node a).next + 1 := drawn.2
      have bound : (d.node a).next ≤ d.drawn := seated.next _
      omega
    · omega

theorem Seated.leave (seated : Seated gs d) (own : gs t = .busy a k m) (present : m.standing = .inside) (turned : m.turned = true)
    (away : m'.standing = .away) (passed : m'.turned = false) : Seated (Function.update gs t (.busy a k m')) (d.advances t a) := by
  -- the thread whose ticket is served leaves
  have seat := seated.seat_busy own (by rw [present]; decide)
  have turn := seated.turn t a k m own turned
  -- nobody else on the node is behind the wait
  have elsewhere : ∀ u b k', u ≠ t → d.seat u = some (b, k') → (d.node b).serving = k' → getLockIndex b ≠ getLockIndex a := by
    intro u b k' other seat' turn' index
    exact other (seated.alone seat turn seat' turn' index)
  have serving : ∀ b, getLockIndex b ≠ getLockIndex a → ((d.advances t a).node b).serving = (d.node b).serving := by
    intro b apart
    change ((d.state.setNode 0 a _).nodes 0 (getLockIndex b)).serving = _
    rw [node_setNode, if_neg apart]
  constructor
  · rw [seat_advances]
    exact seated.queue.leave seat turn
  · intro u found
    rcases turn_cases found with ⟨rfl, eq⟩ | ⟨other, old⟩
    · cases eq
    · simp only [Desk.advances, Desk.note, Function.update_of_ne other]
      exact seated.idle u old
  · intro u b k' m found
    rcases turn_cases found with ⟨rfl, eq⟩ | ⟨other, old⟩
    · cases eq
      obtain ⟨-, known⟩ := seated.busy u a k _ own
      refine ⟨by simp [Desk.advances, Desk.note, away], fun _ => ?_⟩
      exact known (by rintro rfl; cases turned)
    · simp only [Desk.advances, Desk.note, Function.update_of_ne other]
      exact seated.busy u b k' m old
  · intro u stood
    by_cases same : u = t
    · subst same
      simp [Desk.advances, Desk.note] at stood
    · simp only [Desk.advances, Desk.note, Function.update_of_ne same] at stood
      have before := seated.inside u stood
      have seat' : d.seat u = some (d.page u, d.ticket u) := by simp [Desk.seat, stood]
      change ((d.advances t a).node (d.page u)).serving = d.ticket u
      rw [serving _ (elsewhere u _ _ same seat' before), before]
  · intro u b k' m'' found turned'
    rcases turn_cases found with ⟨rfl, eq⟩ | ⟨other, old⟩
    · cases eq
      rw [passed] at turned'
      cases turned'
    · have before := seated.turn u b k' m'' old turned'
      have seat' := seated.seat_busy old (by cases m'' <;> simp_all [Moment.standing, Moment.turned])
      rw [serving b (elsewhere u b k' other seat' before), before]
  · intro i
    have before := seated.next i
    change ((d.state.setNode 0 a (d.node a).advanced).nodes 0 i).next ≤ d.drawn
    rw [nodes_setNode]
    split_ifs with here
    · have ahead : (d.node a).serving < (d.node a).next := turn ▸ (seated.queue.ticket t a k seat).2
      have bound : (d.node a).next ≤ d.drawn := seated.next _
      rw [(LockNode.advanced_ticket ahead).2]
      exact bound
    · exact before

theorem exec_loadTicket {loopBound : ℕ} {site : Site} {c : Unit} {v : ℕ}
    (performed : Desk.exec loopBound t ⟨site, .loadTicket a⟩ c d = some (v, d')) : v = (d.node a).ticketLock ∧ d' = d := by
  cases performed
  exact ⟨rfl, rfl⟩

theorem Seated.act {loopBound : ℕ} {o : Op} {c : Unit} {r : o.act.Reply} {g : Turn} (seated : Seated gs d) (few : d'.drawn < 2 ^ 32)
    (performed : Desk.exec loopBound t o c d = some (r, d')) (permitted : Proceeds (gs t) o r g) :
    Seated (Function.update gs t g) d' := by
  generalize own : gs t = g₀ at permitted
  cases permitted with
  | draw =>
    cases performed
    exact seated.draw own few
  | spin _ =>
    cases performed
    exact seated.quiet own (fun _ _ => ⟨rfl, rfl⟩) rfl rfl rfl rfl (by decide) rfl (by simp [Moment.turned])
  | turn same =>
    cases performed
    exact seated.quiet own (fun _ _ => ⟨rfl, rfl⟩) rfl rfl rfl rfl (by decide) rfl fun _ => same.symm
  | flag =>
    cases performed
    exact seated.quiet own (fun _ _ => ⟨rfl, rfl⟩) rfl rfl rfl rfl (by decide) rfl fun _ => seated.turn _ _ _ _ own rfl
  | enter =>
    cases performed
    exact seated.quiet own (setNode_tickets rfl rfl) rfl rfl rfl rfl (by simp [Moment.standing]) rfl fun _ =>
      seated.turn _ _ _ _ own rfl
  | weigh =>
    obtain ⟨rfl, rfl⟩ := exec_loadTicket performed
    have turn := seated.turn _ _ _ _ own rfl
    rw [← LockNode.serving, turn]
    refine seated.quiet own (fun _ _ => ⟨rfl, rfl⟩) rfl rfl rfl rfl (by decide) ?_ fun _ => turn
    split_ifs <;> rfl
  | decide =>
    cases performed
    refine seated.quiet own (fun _ _ => ⟨rfl, rfl⟩) rfl rfl rfl rfl (by decide) ?_ fun _ => seated.turn _ _ _ _ own rfl
    split_ifs <;> rfl
  | hand =>
    cases performed
    exact seated.quiet own (setNode_tickets rfl rfl) rfl rfl rfl rfl (by decide) rfl fun _ => seated.turn _ _ _ _ own rfl
  | count =>
    cases performed
    exact seated.quiet own (setNode_tickets rfl rfl) rfl rfl rfl rfl (by decide) rfl fun _ => seated.turn _ _ _ _ own rfl
  | pass =>
    cases performed
    exact seated.leave own rfl rfl rfl rfl
  | reset =>
    cases performed
    exact seated.quiet own (setNode_tickets rfl rfl) rfl rfl rfl rfl (by decide) rfl fun _ => seated.turn _ _ _ _ own rfl
  | depart =>
    cases performed
    exact seated.leave own rfl rfl rfl rfl

theorem Seated.invoke (seated : Seated gs d) {visit : Visit} {g : Turn} {pages : GlobalAddress → Prop} {loopBound : ℕ}
    (idle : gs t = .idle)
    (admitted : (lockManager loopBound pages).admits d t visit) (begins : turnMachine.begins t visit gs d g) :
    Seated (Function.update gs t g) d := by
  have begun : ∃ a k m, g = .busy a k m ∧ d.standing t = m.standing ∧
    (m ≠ .asking → d.page t = a ∧ d.ticket t = k ∧ m.standing = .inside) := by
    cases visit with
    | acquire a => exact ⟨a, 0, .asking, begins, admitted.2, fun h => absurd rfl h⟩
    | release a => exact ⟨a, d.ticket t, .called, begins, admitted.1, fun _ => ⟨admitted.2, rfl, rfl⟩⟩
  obtain ⟨a, k, m, rfl, stood, known⟩ := begun
  refine ⟨seated.queue, ?_, ?_, seated.inside, ?_, seated.next⟩
  · intro u found
    rcases turn_cases found with ⟨rfl, eq⟩ | ⟨_, old⟩
    · cases eq
    · exact seated.idle u old
  · intro u b k' m' found
    rcases turn_cases found with ⟨rfl, eq⟩ | ⟨_, old⟩
    · cases eq
      exact ⟨stood, fun asked => ⟨(known asked).1, (known asked).2.1⟩⟩
    · exact seated.busy u b k' m' old
  · intro u b k' m' found turned
    rcases turn_cases found with ⟨rfl, eq⟩ | ⟨_, old⟩
    · cases eq
      obtain ⟨rfl, rfl, inside⟩ := known (by rintro rfl; cases turned)
      exact seated.inside u (stood.trans inside)
    · exact seated.turn u b k' m' old turned

/-- A call returns: an `acquire` takes its thread inside. -/
theorem Seated.finish (seated : Seated gs d) {visit : Visit} {r : Bool} {pages : GlobalAddress → Prop} {loopBound : ℕ}
    (ends : turnMachine.ends t visit r (gs t)) :
    Seated (Function.update gs t .idle) ((lockManager loopBound pages).returned t visit r d) := by
  cases visit with
  | acquire a =>
    obtain ⟨k, own⟩ := ends
    obtain ⟨stood, known⟩ := seated.busy t a k _ own
    obtain ⟨rfl, rfl⟩ := known (by simp)
    have turn := seated.turn t _ _ _ own rfl
    have standing : ∀ u, u ≠ t → ((lockManager loopBound pages).returned t (.acquire (d.page t)) r d).standing u = d.standing u :=
      fun u other => Function.update_of_ne other _ _
    have seats : ((lockManager loopBound pages).returned t (.acquire (d.page t)) r d).seat = d.seat := by
      funext u
      by_cases same : u = t
      · subst same
        simp [Desk.seat, lockManager, stood, Moment.standing]
      · simp only [Desk.seat, standing u same]
        rfl
    constructor
    · rw [seats]
      exact seated.queue
    · intro u found
      rcases turn_cases found with ⟨rfl, -⟩ | ⟨other, old⟩
      · simp [lockManager]
      · rw [standing u other]
        exact seated.idle u old
    · intro u b k' m' found
      rcases turn_cases found with ⟨rfl, eq⟩ | ⟨other, old⟩
      · cases eq
      · rw [standing u other]
        exact seated.busy u b k' m' old
    · intro u inside
      by_cases same : u = t
      · subst same
        exact turn
      · rw [standing u same] at inside
        exact seated.inside u inside
    · intro u b k' m' found turned
      rcases turn_cases found with ⟨rfl, eq⟩ | ⟨_, old⟩
      · cases eq
      · exact seated.turn u b k' m' old turned
    · exact seated.next
  | release a =>
    obtain ⟨k, own⟩ := ends
    have away := (seated.busy t a k _ own).1
    refine ⟨seated.queue, ?_, ?_, seated.inside, ?_, seated.next⟩
    · intro u found
      rcases turn_cases found with ⟨rfl, -⟩ | ⟨_, old⟩
      · change d.standing u ≠ .waiting
        rw [away]
        simp [Moment.standing]
      · exact seated.idle u old
    · intro u b k' m' found
      rcases turn_cases found with ⟨rfl, eq⟩ | ⟨_, old⟩
      · cases eq
      · exact seated.busy u b k' m' old
    · intro u b k' m' found turned
      rcases turn_cases found with ⟨rfl, eq⟩ | ⟨_, old⟩
      · cases eq
      · exact seated.turn u b k' m' old turned

theorem seated_start : Seated (fun _ => .idle) .start := by
  refine ⟨⟨?_, ?_, ?_, ?_, ?_⟩, ?_, ?_, ?_, ?_, ?_⟩
  all_goals simp [Desk.seat, Desk.start, initial, LockNode.serving, LockNode.next]

theorem drawn_mono {loopBound : ℕ} {o : Op} {c : Unit} {r : o.act.Reply}
    (performed : Desk.exec loopBound t o c d = some (r, d')) : d.drawn ≤ d'.drawn := by
  obtain ⟨reply, -, eq⟩ := Option.map_eq_some_iff.1 performed
  cases eq
  change d.drawn ≤ (d.note t o.act reply.1).drawn
  obtain ⟨site, act⟩ := o
  cases act with
  | takeTicket a => exact Nat.le_succ _
  | storeFlag a slot flag => cases flag <;> exact Nat.le_refl _
  | _ => exact Nat.le_refl _

/-- Tickets are in order as long as their numbers do not run out. -/
def InOrder (gs : ℕ → Turn) (d : Desk) : Prop := d.drawn < 2 ^ 32 → Seated gs d

theorem preserves_inOrder {loopBound : ℕ} {pages : GlobalAddress → Prop} :
    Preserves (lockManager loopBound pages) turnMachine InOrder anything where
  invoke _ _ _ _ _ inOrder idle admitted begins few := (inOrder few).invoke idle admitted begins
  act _ _ _ _ _ _ _ _ inOrder performed _ permitted few := (inOrder (lt_of_le_of_lt (drawn_mono performed) few)).act few
    performed permitted
  finish _ d t visit r inOrder ends := by
    cases visit <;> exact fun few => (inOrder few).finish ends
  env _ _ _ _ moved := moved.elim

/-- On the node at most one thread is inside, and when none is, one of the waiting threads has the ticket that is served. -/
structure Exclusive (i : ℕ) (d : Desk) : Prop where
  one : ∀ t u, d.standing t = .inside → getLockIndex (d.page t) = i → d.standing u = .inside → getLockIndex (d.page u) = i → t = u
  served : (∃ t, d.standing t = .waiting ∧ getLockIndex (d.page t) = i) →
    (∀ t, d.standing t = .inside → getLockIndex (d.page t) ≠ i) →
    ∃ t, d.standing t = .waiting ∧ getLockIndex (d.page t) = i ∧ d.ticket t = (d.state.nodes 0 i).serving

theorem Seated.exclusive (seated : Seated gs d) (i : ℕ) : Exclusive i d := by
  constructor
  · intro t u inside here inside' here'
    have seat : d.seat u = some (d.page u, d.ticket u) := by simp [Desk.seat, inside']
    have seat' : d.seat t = some (d.page t, d.ticket t) := by simp [Desk.seat, inside]
    exact seated.alone seat (seated.inside u inside') seat' (seated.inside t inside) (here.trans here'.symm)
  · rintro ⟨t, waits, here⟩ empty
    have seat : d.seat t = some (d.page t, d.ticket t) := by simp [Desk.seat, waits]
    obtain ⟨low, high⟩ := seated.queue.ticket t _ _ seat
    rw [here] at low high
    obtain ⟨u, b, first, -, index⟩ := seated.queue.total 0 i _ le_rfl (lt_of_le_of_lt low high)
    unfold Desk.seat at first
    split_ifs at first with away
    obtain ⟨rfl, ticket⟩ := Prod.mk.inj (Option.some.inj first)
    have standing : d.standing u = .waiting := by
      cases stood : d.standing u with
      | away => exact absurd stood away
      | waiting => rfl
      | inside => exact absurd index (empty u stood)
    exact ⟨u, standing, index, ticket⟩

end

def nodePages (a : GlobalAddress) (b : GlobalAddress) : Prop := getLockIndex b = getLockIndex a

theorem exclusive_few {loopBound : ℕ} {pages : GlobalAddress → Prop} {P : Pool signature ℕ Visit Bool Desk}
    (run : Reaches (lockManager loopBound pages) anything (.start .start) P) (few : P.shared.drawn < 2 ^ 32) (i : ℕ) :
    Exclusive i P.shared := by
  obtain ⟨gs, explains⟩ := (explains_start (M := turnMachine) fun _ => seated_start).reaches implements_turns preserves_inOrder run
  exact (explains.holds few).exclusive i

/-! ## When the tickets run out

The ticket 2^32 - 1 carries into the upper half of the word: it serves itself, whoever is inside. -/

section
variable {n : ℕ} {site : Site} {a : GlobalAddress} {A : Type} {t : ℕ} {choices : List Unit} {d : Desk}

theorem run_takeTicket {f : ℕ → Lock A} : (takeTicket site a >>= f).run (Desk.exec n) t (() :: choices) d =
    (f (d.node a).ticketLock).run (Desk.exec n) t choices (d.draws t a) := rfl

theorem run_loadTicket {f : ℕ → Lock A} : (loadTicket site a >>= f).run (Desk.exec n) t (() :: choices) d =
    (f (d.node a).ticketLock).run (Desk.exec n) t choices d := rfl

theorem node_self (d : Desk) (t : ℕ) (a : GlobalAddress) : (d.draws t a).node a = (d.node a).drawn a := by
  change (d.state.setNode 0 a _).nodes 0 (getLockIndex a) = _
  rw [node_setNode, if_pos rfl]

/-- An `acquire` whose ticket is served at once. -/
theorem run_acquire (served : ((d.node a).ticketLock + 1) % 2 ^ 64 / 2 ^ 32 = (d.node a).next) :
    ∃ b d', (acquire (sameServer 1) a).run (Desk.exec 1) t [(), (), (), ()] d = some (b, d') ∧
      (d'.node a).ticketLock = ((d.node a).ticketLock + 1) % 2 ^ 64 ∧ d'.standing = Function.update d.standing t .waiting ∧
        d'.page = Function.update d.page t a ∧ d'.drawn = d.drawn + 1 ∧
          d'.ticket = Function.update d.ticket t (d.node a).next ∧ (d'.node a).handoverCount = (d.node a).handoverCount := by
  have await : ∀ k, awaitTurn a k 1 = loadTicket .acquire a >>= fun v => if k = v / 2 ^ 32 then pure () else .stuck := fun _ => rfl
  have turn : (d.node a).ticketLock % 2 ^ 32 = ((d.draws t a).node a).ticketLock / 2 ^ 32 := by
    rw [node_self]
    exact served.symm
  unfold acquire
  rw [run_takeTicket]
  simp only [sameServer, await, bind_assoc]
  rw [run_loadTicket, if_pos turn]
  refine ⟨_, _, rfl, ?_, rfl, rfl, rfl, rfl, ?_⟩
  · change ((_ : State).nodes 0 (getLockIndex a)).ticketLock = _
    rw [nodes_setNode, if_pos ⟨rfl, rfl⟩]
    change ((d.draws t a).node a).ticketLock = _
    rw [node_self]
    rfl
  · change ((_ : State).nodes 0 (getLockIndex a)).handoverCount = _
    rw [nodes_setNode, if_pos ⟨rfl, rfl⟩]
    change ((d.draws t a).node a).handoverCount = _
    rw [node_self]
    rfl

/-- A `release` that finds no waiters. -/
theorem run_release (alone : waiters (d.node a).ticketLock = 0) :
    ∃ b d', (release .unlockAddress a).run (Desk.exec 1) t [(), (), ()] d = some (b, d') ∧
      (d'.node a).ticketLock = ((d.node a).ticketLock + 2 ^ 32) % 2 ^ 64 ∧ d'.standing = Function.update d.standing t .away ∧
        d'.page = d.page ∧ d'.drawn = d.drawn := by
  unfold release
  rw [run_loadTicket]
  unfold mayHandOver
  rw [if_neg (by omega)]
  refine ⟨_, _, rfl, ?_, rfl, rfl, rfl⟩
  change ((_ : State).nodes 0 (getLockIndex a)).ticketLock = _
  rw [nodes_setNode, if_pos ⟨rfl, rfl⟩]
  have kept : ∀ n : LockNode, n.ticketLock = (d.node a).ticketLock →
    ((d.state.setNode 0 a n).nodes 0 (getLockIndex a)).ticketLock = (d.node a).ticketLock := by
    intro n same
    rw [nodes_setNode, if_pos ⟨rfl, rfl⟩, same]
  exact congrArg (fun v => (v + 2 ^ 32) % 2 ^ 64) (kept { d.node a with handoverCount := 0 } rfl)

/-! ## Runs of a thread by itself -/

variable {pages : GlobalAddress → Prop} {P : Pool signature ℕ Visit Bool Desk}

theorem reaches_acquire (free : P.threads t = none) (member : pages a) (away : P.shared.standing t = .away)
    (served : ((P.shared.node a).ticketLock + 1) % 2 ^ 64 / 2 ^ 32 = (P.shared.node a).next) :
    ∃ d, Reaches (lockManager 1 pages) anything P ⟨d, P.threads⟩ ∧
    (d.node a).ticketLock = ((P.shared.node a).ticketLock + 1) % 2 ^ 64 ∧
      d.standing = Function.update P.shared.standing t .inside ∧ d.page = Function.update P.shared.page t a ∧
        d.drawn = P.shared.drawn + 1 ∧
        d.ticket = Function.update P.shared.ticket t (P.shared.node a).next ∧
          (d.node a).handoverCount = (P.shared.node a).handoverCount := by
  obtain ⟨b, d, ran, ticketLock, standing, page, drawn, ticket, count⟩ := run_acquire (t := t) served
  have goes : Reaches (lockManager 1 pages) anything P ⟨(lockManager 1 pages).returned t (.acquire a) b d, P.threads⟩ :=
    reaches_call free ⟨member, away⟩ ran
  refine ⟨_, goes, ticketLock, ?_, page, drawn, ticket, count⟩
  change Function.update d.standing t .inside = _
  rw [standing, Function.update_idem]

theorem reaches_release (free : P.threads t = none) (inside : P.shared.standing t = .inside) (here : P.shared.page t = a)
    (alone : waiters (P.shared.node a).ticketLock = 0) :
    ∃ d, Reaches (lockManager 1 pages) anything P ⟨d, P.threads⟩ ∧
    (d.node a).ticketLock = ((P.shared.node a).ticketLock + 2 ^ 32) % 2 ^ 64 ∧
      d.standing = Function.update P.shared.standing t .away ∧ d.page = P.shared.page ∧ d.drawn = P.shared.drawn := by
  obtain ⟨b, d, ran, ticketLock, standing, page, drawn⟩ := run_release (t := t) alone
  have goes : Reaches (lockManager 1 pages) anything P ⟨(lockManager 1 pages).returned t (.release a) b d, P.threads⟩ :=
    reaches_call free ⟨inside, here⟩ ran
  exact ⟨_, goes, ticketLock, standing, page, drawn⟩

theorem halves {k r : ℕ} (low : r < 2 ^ 32) : (k * 2 ^ 32 + r) / 2 ^ 32 = k ∧ (k * 2 ^ 32 + r) % 2 ^ 32 = r := by
  omega

/-- One thread has come and gone so many times. -/
structure Rests (a : GlobalAddress) (k : ℕ) (d : Desk) : Prop where
  ticketLock : (d.node a).ticketLock = k * 2 ^ 32 + k
  away : d.standing = fun _ => .away
  drawn : d.drawn = k

theorem reaches_rests (member : pages a) {k : ℕ} (room : k < 2 ^ 32) :
    ∃ d, Reaches (lockManager 1 pages) anything (.start .start) ⟨d, fun _ => none⟩ ∧ Rests a k d := by
  induction k with
  | zero => exact ⟨.start, .refl, rfl, rfl, rfl⟩
  | succ k ih =>
    obtain ⟨d, run, rests⟩ := ih (by omega)
    have lock := rests.ticketLock
    have word : (k * 2 ^ 32 + k + 1) % 2 ^ 64 = k * 2 ^ 32 + (k + 1) := by omega
    have word' : (k * 2 ^ 32 + (k + 1) + 2 ^ 32) % 2 ^ 64 = (k + 1) * 2 ^ 32 + (k + 1) := by
      rw [Nat.mod_eq_of_lt (by omega)]
      omega
    have served : ((d.node a).ticketLock + 1) % 2 ^ 64 / 2 ^ 32 = (d.node a).next := by
      rw [LockNode.next, lock, word, (halves room).1, (halves (by omega)).2]
    obtain ⟨d₁, enters, lock₁, standing₁, page₁, drawn₁, -⟩ := reaches_acquire (t := 0)
      (P := ⟨d, fun _ => none⟩) rfl member (by rw [rests.away]) served
    have lock₁' : (d₁.node a).ticketLock = k * 2 ^ 32 + (k + 1) := by
      rw [lock₁, lock, word]
    have alone : waiters (d₁.node a).ticketLock = 0 := by
      rw [lock₁', waiters, (halves room).1, (halves room).2]
      omega
    obtain ⟨d₂, leaves, lock₂, standing₂, page₂, drawn₂⟩ := reaches_release (t := 0) (a := a) (P := ⟨d₁, fun _ => none⟩) rfl
      (by simp [standing₁]) (by simp [page₁]) alone
    refine ⟨d₂, (run.trans enters).trans leaves, ?_, ?_, ?_⟩
    · rw [lock₂, lock₁', word']
    · rw [standing₂]
      simp only [standing₁, Function.update_idem, rests.away]
      exact Function.update_eq_self_iff.2 rfl
    · rw [drawn₂]
      simp only [drawn₁, rests.drawn]

theorem overlaps_carry (member : pages a) : ∃ P : Pool signature ℕ Visit Bool Desk,
    Reaches (lockManager 1 pages) anything (.start .start) P ∧
    P.shared.drawn = 2 ^ 32 ∧ ¬ Exclusive (getLockIndex a) P.shared := by
  -- one thread is inside with the ticket before the last, and the last ticket lets another one in
  obtain ⟨d, run, rests⟩ := reaches_rests member (show 2 ^ 32 - 2 < 2 ^ 32 by omega)
  have lock := rests.ticketLock
  obtain ⟨d₁, enters, lock₁, standing₁, page₁, drawn₁, -⟩ := reaches_acquire (t := 0)
    (P := ⟨d, fun _ => none⟩) rfl member (by rw [rests.away])
    (by simp only [LockNode.next, lock]; omega)
  have away : d₁.standing 1 = .away := by simp [standing₁, rests.away]
  obtain ⟨d₂, enters', -, standing₂, page₂, drawn₂, -⟩ := reaches_acquire (t := 1) (P := ⟨d₁, fun _ => none⟩) rfl member away
    (by simp only [LockNode.next, lock₁, lock]; omega)
  refine ⟨_, (run.trans enters).trans enters', ?_, ?_⟩
  · simp only [drawn₂, drawn₁, rests.drawn]
    omega
  · intro exclusive
    have both := exclusive.one 0 1 (by simp [standing₂, standing₁]) (by simp [page₂, page₁]) (by simp [standing₂]) (by simp [page₂])
    cases both

end

/-- A lock node excludes in every state with at most so many acquisitions if and only if these are fewer than 2^32. -/
theorem lock_excludes (a : GlobalAddress) (acquisitions : ℕ) :
    (∀ (loopBound : ℕ) (P : Pool signature ℕ Visit Bool Desk), Reaches (lockManager loopBound (nodePages a)) anything
      (.start .start) P →
      P.shared.drawn ≤ acquisitions → Exclusive (getLockIndex a) P.shared) ↔ acquisitions < 2 ^ 32 := by
  constructor
  · intro excludes
    by_contra many
    obtain ⟨P, run, drawn, overlap⟩ : ∃ P, Reaches (lockManager 1 (nodePages a)) anything (.start .start) P ∧ _ :=
      overlaps_carry (a := a) rfl
    exact overlap (excludes 1 P run (by omega))
  · intro few loopBound P run bound
    exact exclusive_few run (by omega) _

/-- The 2^32nd acquisition enters beside the one before it. -/
theorem lock_overlaps_carry : ¬ ∀ (a : GlobalAddress) (loopBound : ℕ) (P : Pool signature ℕ Visit Bool Desk),
    Reaches (lockManager loopBound (nodePages a)) anything (.start .start) P → Exclusive (getLockIndex a) P.shared := by
  intro claimed
  obtain ⟨P, run, -, overlap⟩ : ∃ P, Reaches (lockManager 1 (nodePages ⟨1024⟩)) anything (.start .start) P ∧ _ :=
    overlaps_carry (a := ⟨1024⟩) rfl
  exact overlap (claimed ⟨1024⟩ 1 P run)

end Faunus.Sherman.Locks
