import Faunus.Sherman.LockMachine

/-! What holds of page locks while the threads keep out of each other's way.

The tickets of a node are held by different threads, and only the thread whose ticket is
served works on the node. A thread bears the remote word of a page from the moment it has
taken it, or found it handed over, until it clears it or lets the next ticket have it.
-/

set_option autoImplicit false

namespace Faunus.Sherman.Locks

open Interleaving

/-! ## The queue of a lock node -/

theorem waiters_eq {v : ℕ} (ahead : v / 2 ^ 32 < v % 2 ^ 32) : waiters v = v % 2 ^ 32 - v / 2 ^ 32 - 1 := by
  unfold waiters
  omega

theorem waiters_pos {n : LockNode} (ahead : n.serving < n.next) : 0 < waiters n.ticketLock ↔ n.serving + 1 < n.next := by
  rw [waiters_eq ahead]
  simp only [LockNode.serving, LockNode.next] at *
  omega

theorem LockNode.next_lt (n : LockNode) : n.next < 2 ^ 32 := Nat.mod_lt _ (by decide)

def Phase.seat : Phase → Option (GlobalAddress × ℕ)
  | .queued a k _ => some (a, k)
  | _ => none

theorem Phase.of_seat {g : Phase} {a : GlobalAddress} {k : ℕ} (seat : g.seat = some (a, k)) : ∃ stage, g = .queued a k stage := by
  cases g with
  | idle => cases seat
  | pending b => cases seat
  | queued b k' stage =>
    cases seat
    exact ⟨stage, rfl⟩

structure Queue (cfg : Config) (seats : ℕ → Option (GlobalAddress × ℕ)) (nodes : ℕ → ℕ → LockNode) : Prop where
  order : ∀ c i, (nodes c i).serving ≤ (nodes c i).next
  ticket : ∀ t a k, seats t = some (a, k) →
    (nodes (cfg.home t) (getLockIndex a)).serving ≤ k ∧ k < (nodes (cfg.home t) (getLockIndex a)).next
  distinct : ∀ t u a b k, seats t = some (a, k) → seats u = some (b, k) → cfg.home u = cfg.home t →
    getLockIndex b = getLockIndex a → u = t
  total : ∀ c i k, (nodes c i).serving ≤ k → k < (nodes c i).next → ∃ t a, seats t = some (a, k) ∧ cfg.home t = c ∧
    getLockIndex a = i
  drawn : ∀ t a k, seats t = some (a, k) → (nodes (cfg.home t) (getLockIndex a)).drawnFor k = some a

section
variable {cfg : Config} {seats : ℕ → Option (GlobalAddress × ℕ)} {s : State} {t : ℕ} {a : GlobalAddress} {k : ℕ}

theorem nodes_setNode (s : State) (c : ℕ) (a : GlobalAddress) (n : LockNode) (c' i : ℕ) :
    (s.setNode c a n).nodes c' i = if c' = c ∧ i = getLockIndex a then n else s.nodes c' i := by
  simp only [State.setNode, Function.update_apply]
  by_cases here : c' = c
  · subst here
    by_cases same : i = getLockIndex a <;> simp [same]
  · simp [here]

theorem Queue.congr (queue : Queue cfg seats s.nodes) {nodes : ℕ → ℕ → LockNode}
    (same : ∀ c i, (nodes c i).ticketLock = (s.nodes c i).ticketLock ∧ (nodes c i).drawnFor = (s.nodes c i).drawnFor) :
    Queue cfg seats nodes := by
  -- only tickets matter
  have serving : ∀ c i, (nodes c i).serving = (s.nodes c i).serving := fun c i => by
    simp only [LockNode.serving, (same c i).1]
  have next : ∀ c i, (nodes c i).next = (s.nodes c i).next := fun c i => by
    simp only [LockNode.next, (same c i).1]
  constructor
  · intro c i
    rw [serving, next]
    exact queue.order c i
  · intro u b k seat
    rw [serving, next]
    exact queue.ticket u b k seat
  · exact queue.distinct
  · intro c i k
    rw [serving, next]
    exact queue.total c i k
  · intro u b k seat
    rw [(same _ _).2]
    exact queue.drawn u b k seat

theorem setNode_tickets {n : LockNode} (tickets : n.ticketLock = (s.nodes (cfg.home t) (getLockIndex a)).ticketLock)
    (drawn : n.drawnFor = (s.nodes (cfg.home t) (getLockIndex a)).drawnFor) (c i : ℕ) :
    ((s.setNode (cfg.home t) a n).nodes c i).ticketLock = (s.nodes c i).ticketLock ∧
      ((s.setNode (cfg.home t) a n).nodes c i).drawnFor = (s.nodes c i).drawnFor := by
  rw [nodes_setNode]
  split_ifs with here
  · rw [here.1, here.2]
    exact ⟨tickets, drawn⟩
  · exact ⟨rfl, rfl⟩

theorem Queue.setNode (queue : Queue cfg seats s.nodes) {n : LockNode}
    (tickets : n.ticketLock = (s.nodes (cfg.home t) (getLockIndex a)).ticketLock)
    (drawn : n.drawnFor = (s.nodes (cfg.home t) (getLockIndex a)).drawnFor) : Queue cfg seats (s.setNode (cfg.home t) a n).nodes :=
  queue.congr (setNode_tickets tickets drawn)

def LockNode.drawn (n : LockNode) (a : GlobalAddress) : LockNode :=
  { n with
    ticketLock := (n.ticketLock + 1) % 2 ^ 64
    drawnFor := Function.update n.drawnFor n.next (some a) }

def LockNode.advanced (n : LockNode) : LockNode := { n with ticketLock := (n.ticketLock + 2 ^ 32) % 2 ^ 64 }

theorem LockNode.drawn_ticket {n : LockNode} (order : n.serving ≤ n.next) (room : n.next + 1 < 2 ^ 32) :
    (n.drawn a).serving = n.serving ∧ (n.drawn a).next = n.next + 1 := by
  simp only [LockNode.serving, LockNode.next, LockNode.drawn] at *
  omega

theorem LockNode.advanced_ticket {n : LockNode} (ahead : n.serving < n.next) :
    n.advanced.serving = n.serving + 1 ∧ n.advanced.next = n.next := by
  simp only [LockNode.serving, LockNode.next, LockNode.advanced] at *
  omega

theorem seat_cases {u : ℕ} {b : GlobalAddress} {k' : ℕ} (seat : Function.update seats t (some (a, k)) u = some (b, k')) :
    u = t ∧ b = a ∧ k' = k ∨ u ≠ t ∧ seats u = some (b, k') := by
  by_cases own : u = t
  · subst own
    rw [Function.update_self] at seat
    cases seat
    exact .inl ⟨rfl, rfl, rfl⟩
  · rw [Function.update_of_ne own] at seat
    exact .inr ⟨own, seat⟩

theorem Queue.draw (queue : Queue cfg seats s.nodes) (free : seats t = none)
    (room : (s.nodes (cfg.home t) (getLockIndex a)).next + 1 < 2 ^ 32) :
    Queue cfg (Function.update seats t (some (a, (s.nodes (cfg.home t) (getLockIndex a)).next)))
      (s.setNode (cfg.home t) a ((s.nodes (cfg.home t) (getLockIndex a)).drawn a)).nodes := by
  obtain ⟨serving, next⟩ := LockNode.drawn_ticket (a := a) (queue.order (cfg.home t) (getLockIndex a)) room
  constructor
  · intro c i
    rw [nodes_setNode]
    split_ifs with here
    · rw [serving, next]
      exact Nat.le_succ_of_le (queue.order _ _)
    · exact queue.order c i
  · intro u b k seat
    rw [nodes_setNode]
    rcases seat_cases seat with ⟨rfl, rfl, rfl⟩ | ⟨own, seat⟩
    · rw [if_pos ⟨rfl, rfl⟩, serving, next]
      exact ⟨queue.order _ _, Nat.lt_succ_self _⟩
    · obtain ⟨low, high⟩ := queue.ticket u b k seat
      split_ifs with here
      · rw [here.1, here.2] at low high
        rw [serving, next]
        exact ⟨low, by omega⟩
      · exact ⟨low, high⟩
  · intro u v b b' k seat seat' home index
    -- the new ticket is larger than all others of the node
    have fresh : ∀ w b k, w ≠ t → seats w = some (b, k) → cfg.home w = cfg.home t → getLockIndex b = getLockIndex a →
        k ≠ (s.nodes (cfg.home t) (getLockIndex a)).next := by
      intro w b k _ seat home index
      have := (queue.ticket w b k seat).2
      rw [home, index] at this
      omega
    rcases seat_cases seat with ⟨rfl, rfl, rfl⟩ | ⟨own, old⟩
    · rcases seat_cases seat' with ⟨rfl, -, -⟩ | ⟨other, old⟩
      · rfl
      · exact absurd rfl (fresh v b' _ other old home index)
    · rcases seat_cases seat' with ⟨rfl, rfl, rfl⟩ | ⟨other, old'⟩
      · exact absurd rfl (fresh u b _ own old home.symm index.symm)
      · exact queue.distinct u v b b' k old old' home index
  · intro c i k low high
    rw [nodes_setNode] at low high
    have old : ∀ {u b}, seats u = some (b, k) →
      Function.update seats t (some (a, (s.nodes (cfg.home t) (getLockIndex a)).next)) u = some (b, k) := by
      intro u b seat
      rw [Function.update_of_ne (by rintro rfl; rw [free] at seat; cases seat)]
      exact seat
    split_ifs at low high with here
    · obtain ⟨rfl, rfl⟩ := here
      rw [serving] at low
      rw [next] at high
      by_cases new : k = (s.nodes (cfg.home t) (getLockIndex a)).next
      · subst new
        exact ⟨t, a, Function.update_self .., rfl, rfl⟩
      · obtain ⟨u, b, seat, home, index⟩ := queue.total _ _ k low (by omega)
        exact ⟨u, b, old seat, home, index⟩
    · obtain ⟨u, b, seat, home, index⟩ := queue.total c i k low high
      exact ⟨u, b, old seat, home, index⟩
  · intro u b k seat
    rw [nodes_setNode]
    rcases seat_cases seat with ⟨rfl, rfl, rfl⟩ | ⟨own, seat⟩
    · rw [if_pos ⟨rfl, rfl⟩]
      exact Function.update_self ..
    · have before := queue.drawn u b k seat
      have less := (queue.ticket u b k seat).2
      split_ifs with here
      · rw [here.1, here.2] at before less
        simp only [LockNode.drawn]
        rwa [Function.update_of_ne (by omega)]
      · exact before

theorem Queue.leave (queue : Queue cfg seats s.nodes) (seat : seats t = some (a, k))
    (turn : (s.nodes (cfg.home t) (getLockIndex a)).serving = k) :
    Queue cfg (Function.update seats t none) (s.setNode (cfg.home t) a (s.nodes (cfg.home t) (getLockIndex a)).advanced).nodes := by
  have ahead := (queue.ticket t a k seat).2
  obtain ⟨serving, next⟩ := LockNode.advanced_ticket (show (s.nodes (cfg.home t) (getLockIndex a)).serving < _ from turn ▸ ahead)
  have others : ∀ {u b k'}, Function.update seats t none u = some (b, k') → u ≠ t ∧ seats u = some (b, k') := by
    intro u b k' seat'
    by_cases own : u = t
    · subst own
      rw [Function.update_self] at seat'
      cases seat'
    · rw [Function.update_of_ne own] at seat'
      exact ⟨own, seat'⟩
  constructor
  · intro c i
    rw [nodes_setNode]
    split_ifs with here
    · rw [serving, next, turn]
      exact ahead
    · exact queue.order c i
  · intro u b k' seat'
    obtain ⟨other, seat'⟩ := others seat'
    obtain ⟨low, high⟩ := queue.ticket u b k' seat'
    rw [nodes_setNode]
    split_ifs with here
    · have apart : k' ≠ k := by
        rintro rfl
        exact other (queue.distinct t u a b k' seat seat' here.1 here.2)
      rw [here.1, here.2] at low high
      rw [serving, next]
      exact ⟨by omega, high⟩
    · exact ⟨low, high⟩
  · intro u v b b' k' seat' seat'' home index
    exact queue.distinct u v b b' k' (others seat').2 (others seat'').2 home index
  · intro c i k' low high
    rw [nodes_setNode] at low high
    have stays : ∀ {u b}, k' ≠ k ∨ ¬ (c = cfg.home t ∧ i = getLockIndex a) → seats u = some (b, k') → cfg.home u = c →
      getLockIndex b = i →
        Function.update seats t none u = some (b, k') := by
      intro u b apart seat' home index
      rw [Function.update_of_ne ?_]
      · exact seat'
      · rintro rfl
        obtain ⟨rfl, rfl⟩ := Prod.mk.inj (Option.some.inj (seat.symm.trans seat'))
        exact apart.elim (fun ne => ne rfl) fun elsewhere => elsewhere ⟨home.symm, index.symm⟩
    split_ifs at low high with here
    · rw [serving] at low
      rw [next] at high
      obtain ⟨u, b, seat', home, index⟩ := queue.total (cfg.home t) (getLockIndex a) k' (by omega) high
      rw [← here.1] at home
      rw [← here.2] at index
      exact ⟨u, b, stays (.inl (by omega)) seat' home index, home, index⟩
    · obtain ⟨u, b, seat', home, index⟩ := queue.total c i k' low high
      exact ⟨u, b, stays (.inr here) seat' home index, home, index⟩
  · intro u b k' seat'
    have before := queue.drawn u b k' (others seat').2
    rw [nodes_setNode]
    split_ifs with here
    · rw [here.1, here.2] at before
      exact before
    · exact before

end

/-! ## The remote word -/

/-- The thread at the stage has the remote word, or finds it handed over when its turn comes. -/
def Stage.Bears (n : LockNode) (k : ℕ) : Stage → Prop
  | .waiting => n.serving = k ∧ n.handoverFlags (k % kHandoverFlagSlots) = true
  | .served => n.handoverFlags (k % kHandoverFlagSlots) = true
  | .flagged b => b = true
  | .contending => False
  | .holding _ => True
  | .asked _ => True
  | .answered _ _ => True
  | .cleared => False
  | .weighing mode => mode ≠ .cleared
  | .handing mode => mode ≠ .cleared
  | .counting mode => mode ≠ .cleared
  | .passing mode => mode ≠ .cleared
  | .resetting mode => mode ≠ .cleared
  | .departing mode => mode ≠ .cleared

/-- The flag a thread at the stage may have set or find set. -/
def Stage.Flags (k j : ℕ) : Stage → Prop
  | .waiting => k % kHandoverFlagSlots = j
  | .served => k % kHandoverFlagSlots = j
  | .flagged _ => k % kHandoverFlagSlots = j
  | .counting _ => (k + 1) % kHandoverFlagSlots = j
  | .passing _ => (k + 1) % kHandoverFlagSlots = j
  | _ => False

/-- What a thread at the stage has found out about the node. -/
def Stage.Ready (n : LockNode) (a : GlobalAddress) (k : ℕ) : Stage → Prop
  | .asked _ => k + 1 < n.next
  | .answered _ b => b = true → k + 1 < n.next ∧ n.handoverCount < kMaxHandOverTime
  | .weighing mode => k + 1 < n.next ∧ (mode = .kept → n.handoverCount < kMaxHandOverTime) ∧
      (mode = .cleared → ¬ n.handoverCount < kMaxHandOverTime)
  | .handing mode => k + 1 < n.next ∧ mode ≠ .cleared
  | .counting mode => k + 1 < n.next ∧ mode ≠ .cleared ∧ n.drawnFor (k + 1) = some a ∧
      n.handoverFlags ((k + 1) % kHandoverFlagSlots) = true
  | .passing mode => k + 1 < n.next ∧ mode ≠ .cleared ∧ n.drawnFor (k + 1) = some a ∧
      n.handoverFlags ((k + 1) % kHandoverFlagSlots) = true
  | .resetting mode => mode ≠ .kept
  | .departing mode => mode ≠ .kept
  | _ => True

def Stage.image : Stage → Option (BitVec 64)
  | .holding image => image
  | .asked image => image
  | .answered image _ => image
  | _ => none

theorem Stage.Bears.congr {n n' : LockNode} (serving : n'.serving = n.serving) (flags : n'.handoverFlags = n.handoverFlags)
    (k : ℕ) (stage : Stage) :
    stage.Bears n' k ↔ stage.Bears n k := by
  cases stage <;> simp [Stage.Bears, serving, flags]

theorem Stage.Ready.drawn {n : LockNode} {a b : GlobalAddress} {k : ℕ} {stage : Stage} (ready : stage.Ready n b k)
    (next : (n.drawn a).next = n.next + 1) : stage.Ready (n.drawn a) b k := by
  -- a new ticket changes nothing of what a thread has found out
  have later : k + 1 < n.next → k + 1 < (n.drawn a).next := by
    rw [next]
    exact Nat.lt_succ_of_lt
  have kept : k + 1 < n.next → (n.drawn a).drawnFor (k + 1) = n.drawnFor (k + 1) := fun less => by
    simp only [LockNode.drawn]
    exact Function.update_of_ne less.ne _ _
  cases stage with
  | asked => exact later ready
  | answered image b => exact fun yes => ⟨later (ready yes).1, (ready yes).2⟩
  | weighing mode => exact ⟨later ready.1, ready.2⟩
  | handing mode => exact ⟨later ready.1, ready.2⟩
  | counting mode => exact ⟨later ready.1, ready.2.1, (kept ready.1).trans ready.2.2.1, ready.2.2.2⟩
  | passing mode => exact ⟨later ready.1, ready.2.1, (kept ready.1).trans ready.2.2.1, ready.2.2.2⟩
  | resetting mode => exact ready
  | departing mode => exact ready
  | _ => trivial

theorem Stage.image_bears {stage : Stage} {word : BitVec 64} (image : stage.image = some word) (n : LockNode) (k : ℕ) :
    stage.Bears n k := by
  cases stage <;> simp_all [Stage.image, Stage.Bears]

def Phase.Bears (cfg : Config) (s : State) (t : ℕ) (a : GlobalAddress) : Phase → Prop
  | .idle => False
  | .queued b k stage => b = a ∧ stage.Bears (s.nodes (cfg.home t) (getLockIndex b)) k
  | .pending b => b = a

/-- The word of a page is set exactly while a thread bears it, by that thread's compute server. -/
structure Borne (cfg : Config) (bears : ℕ → GlobalAddress → Prop) (s : State) : Prop where
  word : ∀ t a, bears t a → s.words a ≠ 0 ∧ s.setter a = some (cfg.home t)
  unique : ∀ t u a, bears t a → bears u a → u = t
  held : ∀ a, s.words a ≠ 0 → ∃ t, bears t a

structure Locked (cfg : Config) (gs : ℕ → Phase) (s : State) : Prop where
  queue : Queue cfg (fun t => (gs t).seat) s.nodes
  turns : Turns cfg gs s
  flags : ∀ c i j, (s.nodes c i).handoverFlags j = true →
    ∃ t a k stage, gs t = .queued a k stage ∧ cfg.home t = c ∧ getLockIndex a = i ∧ (s.nodes c i).serving = k ∧ stage.Flags k j
  ready : ∀ t a k stage, gs t = .queued a k stage → stage.Ready (s.nodes (cfg.home t) (getLockIndex a)) a k
  image : ∀ t a k stage word, gs t = .queued a k stage → stage.image = some word → s.words a = word
  borne : Borne cfg (fun t a => (gs t).Bears cfg s t a) s

section
variable {cfg : Config} {gs : ℕ → Phase} {s s' : State} {t u : ℕ} {a b : GlobalAddress} {k : ℕ} {stage stage' : Stage}

theorem phase_cases {g g' : Phase} (found : Function.update gs t g u = g') : u = t ∧ g' = g ∨ u ≠ t ∧ gs u = g' := by
  by_cases own : u = t
  · subst own
    rw [Function.update_self] at found
    exact .inl ⟨rfl, found.symm⟩
  · rw [Function.update_of_ne own] at found
    exact .inr ⟨own, found⟩

theorem seats_update (gs : ℕ → Phase) (t : ℕ) (g : Phase) :
    (fun u => (Function.update gs t g u).seat) = Function.update (fun u => (gs u).seat) t g.seat := by
  funext u
  by_cases own : u = t
  · subst own
    simp
  · simp [own]

theorem Locked.seats (locked : Locked cfg gs s) (own : gs t = .queued a k stage) :
    Queue cfg (fun u => (Function.update gs t (.queued a k stage') u).seat) s.nodes := by
  rw [seats_update, show (Phase.queued a k stage').seat = (gs t).seat by rw [own]; rfl, Function.update_eq_self]
  exact locked.queue

theorem Locked.alone (locked : Locked cfg gs s) (own : gs t = .queued a k stage) (inside : stage ≠ .waiting) (apart : u ≠ t)
    {k' : ℕ} (other : gs u = .queued b k' stage') (home : cfg.home u = cfg.home t) (index : getLockIndex b = getLockIndex a) :
    stage' = .waiting ∧ (s.nodes (cfg.home t) (getLockIndex a)).serving ≠ k' := by
  have turn := locked.turns t a k stage own inside
  have differ : (s.nodes (cfg.home t) (getLockIndex a)).serving ≠ k' := by
    rintro rfl
    rw [turn] at other
    refine apart (locked.queue.distinct t u a b k ?_ ?_ home index)
    · simp [own, Phase.seat]
    · simp [other, Phase.seat]
  refine ⟨?_, differ⟩
  by_contra waits
  have turn' := locked.turns u b k' stage' other waits
  rw [home, index] at turn'
  exact differ turn'

theorem Locked.quiet (locked : Locked cfg gs s) (own : gs t = .queued a k stage)
    (turn : stage' ≠ .waiting → (s.nodes (cfg.home t) (getLockIndex a)).serving = k)
    (bears : stage'.Bears (s.nodes (cfg.home t) (getLockIndex a)) k ↔ stage.Bears (s.nodes (cfg.home t) (getLockIndex a)) k)
    (flags : ∀ j, stage.Flags k j → stage'.Flags k j ∨ (s.nodes (cfg.home t) (getLockIndex a)).handoverFlags j = false)
    (ready : stage'.Ready (s.nodes (cfg.home t) (getLockIndex a)) a k)
    (image : ∀ word, stage'.image = some word → s.words a = word) :
    Locked cfg (Function.update gs t (.queued a k stage')) s := by
  -- a step of a thread that changes neither the nodes nor the words
  have same : (fun u b => (Function.update gs t (.queued a k stage') u).Bears cfg s u b) = fun u b => (gs u).Bears cfg s u b := by
    funext u b
    by_cases here : u = t
    · subst here
      simp only [Function.update_self, own, Phase.Bears, bears]
    · simp only [Function.update_of_ne here]
  refine ⟨locked.seats own, ?_, ?_, ?_, ?_, ?_⟩
  · intro u b k' stage'' found inside
    rcases phase_cases found with ⟨rfl, eq⟩ | ⟨_, old⟩
    · cases eq
      exact turn inside
    · exact locked.turns u b k' stage'' old inside
  · intro c i j set
    obtain ⟨u, b, k', stage'', found, home, index, serving, flag⟩ := locked.flags c i j set
    by_cases here : u = t
    · subst here
      rw [own] at found
      cases found
      rcases flags j flag with flag | unset
      · exact ⟨u, a, k, stage', Function.update_self .., home, index, serving, flag⟩
      · rw [home, index, set] at unset
        cases unset
    · exact ⟨u, b, k', stage'', by rw [Function.update_of_ne here, found], home, index, serving, flag⟩
  · intro u b k' stage'' found
    rcases phase_cases found with ⟨rfl, eq⟩ | ⟨_, old⟩
    · cases eq
      exact ready
    · exact locked.ready u b k' stage'' old
  · intro u b k' stage'' word found
    rcases phase_cases found with ⟨rfl, eq⟩ | ⟨_, old⟩
    · cases eq
      exact image word
    · exact locked.image u b k' stage'' word old
  · rw [same]
    exact locked.borne

theorem bears_setNode (locked : Locked cfg gs s) (own : gs t = .queued a k stage) (inside : stage ≠ .waiting) {n : LockNode}
    (serving : n.serving = (s.nodes (cfg.home t) (getLockIndex a)).serving) (apart : u ≠ t) :
    (gs u).Bears cfg (s.setNode (cfg.home t) a n) u b ↔ (gs u).Bears cfg s u b := by
  cases found : gs u with
  | idle => rfl
  | pending c => rfl
  | queued c k' stage' =>
    simp only [Phase.Bears]
    rw [nodes_setNode]
    split_ifs with here
    · -- a waiting thread whose turn has not come
      obtain ⟨rfl, differ⟩ := locked.alone own inside apart found here.1 here.2
      rw [here.1, here.2]
      simp only [Stage.Bears, serving]
      exact and_congr_right fun _ => ⟨fun ⟨turn, _⟩ => absurd turn differ, fun ⟨turn, _⟩ => absurd turn differ⟩
    · rfl

theorem Locked.rewrite (locked : Locked cfg gs s) (own : gs t = .queued a k stage) (inside : stage ≠ .waiting)
    {n : LockNode} (tickets : n.ticketLock = (s.nodes (cfg.home t) (getLockIndex a)).ticketLock)
    (drawn : n.drawnFor = (s.nodes (cfg.home t) (getLockIndex a)).drawnFor)
    (bears : stage'.Bears n k ↔ stage.Bears (s.nodes (cfg.home t) (getLockIndex a)) k)
    (flags : ∀ j, n.handoverFlags j = true → stage'.Flags k j) (ready : stage'.Ready n a k) (image : stage'.image = none) :
    Locked cfg (Function.update gs t (.queued a k stage')) (s.setNode (cfg.home t) a n) := by
  -- a step of the thread that is served on the flags or the count of its node
  have turn := locked.turns t a k stage own inside
  have serving : n.serving = (s.nodes (cfg.home t) (getLockIndex a)).serving := by
    simp only [LockNode.serving, tickets]
  have same : (fun u b => (Function.update gs t (.queued a k stage') u).Bears cfg (s.setNode (cfg.home t) a n) u b) =
      fun u b => (gs u).Bears cfg s u b := by
    funext u b
    by_cases here : u = t
    · subst here
      simp only [Function.update_self, own, Phase.Bears, nodes_setNode]
      by_cases this : a = b
      · subst this
        simp [bears]
      · simp [this]
    · simp only [Function.update_of_ne here]
      exact propext (bears_setNode locked own inside serving here)
  refine ⟨(locked.seats own).setNode tickets drawn, ?_, ?_, ?_, ?_, ?_⟩
  · intro u b k' stage'' found in'
    rw [nodes_setNode]
    rcases phase_cases found with ⟨rfl, eq⟩ | ⟨_, old⟩
    · cases eq
      rw [if_pos ⟨rfl, rfl⟩, serving, turn]
    · split_ifs with here
      · rw [serving, ← here.1, ← here.2]
        exact locked.turns u b k' stage'' old in'
      · exact locked.turns u b k' stage'' old in'
  · intro c i j set
    rw [nodes_setNode] at set ⊢
    split_ifs at set ⊢ with here
    · exact ⟨t, a, k, stage', Function.update_self .., here.1.symm, here.2.symm, serving.trans turn, flags j set⟩
    · obtain ⟨u, b, k', stage'', found, home, index, serving', flag⟩ := locked.flags c i j set
      have apart : u ≠ t := by
        rintro rfl
        rw [own] at found
        cases found
        exact here ⟨home.symm, index.symm⟩
      exact ⟨u, b, k', stage'', by rw [Function.update_of_ne apart, found], home, index, serving', flag⟩
  · intro u b k' stage'' found
    rw [nodes_setNode]
    rcases phase_cases found with ⟨rfl, eq⟩ | ⟨apart, old⟩
    · cases eq
      rw [if_pos ⟨rfl, rfl⟩]
      exact ready
    · split_ifs with here
      · obtain ⟨rfl, -⟩ := locked.alone own inside apart old here.1 here.2
        trivial
      · exact locked.ready u b k' stage'' old
  · intro u b k' stage'' word found
    rcases phase_cases found with ⟨rfl, eq⟩ | ⟨_, old⟩
    · cases eq
      rw [image]
      rintro ⟨⟩
    · exact locked.image u b k' stage'' word old
  · rw [same]
    exact ⟨locked.borne.word, locked.borne.unique, locked.borne.held⟩

theorem Locked.flags_of_served (locked : Locked cfg gs s) (own : gs t = .queued a k stage) (inside : stage ≠ .waiting) {j : ℕ}
    (set : (s.nodes (cfg.home t) (getLockIndex a)).handoverFlags j = true) : stage.Flags k j := by
  obtain ⟨u, b, k', stage', found, home, index, serving, flag⟩ := locked.flags _ _ j set
  by_cases here : u = t
  · subst here
    rw [own] at found
    cases found
    exact flag
  · obtain ⟨-, differ⟩ := locked.alone own inside here found home index
    exact absurd serving differ

theorem Locked.draw (locked : Locked cfg gs s) (own : gs t = .idle)
    (room : (s.nodes (cfg.home t) (getLockIndex a)).next + 1 < 2 ^ 32) :
    Locked cfg (Function.update gs t (.queued a (s.nodes (cfg.home t) (getLockIndex a)).next .waiting))
      (s.setNode (cfg.home t) a ((s.nodes (cfg.home t) (getLockIndex a)).drawn a)) := by
  -- a thread takes the next ticket of a node
  obtain ⟨serving, next⟩ := LockNode.drawn_ticket (a := a) (locked.queue.order (cfg.home t) (getLockIndex a)) room
  -- where nobody is served no flag is set
  have unset : (s.nodes (cfg.home t) (getLockIndex a)).serving = (s.nodes (cfg.home t) (getLockIndex a)).next →
      ∀ j, (s.nodes (cfg.home t) (getLockIndex a)).handoverFlags j ≠ true := by
    intro empty j set
    obtain ⟨u, b, k', stage', found, home, index, turn, -⟩ := locked.flags _ _ j set
    have less := (locked.queue.ticket u b k' (by simp [found, Phase.seat])).2
    rw [home, index] at less
    omega
  have same : (fun u b => (Function.update gs t (.queued a (s.nodes (cfg.home t) (getLockIndex a)).next .waiting) u).Bears cfg
      (s.setNode (cfg.home t) a ((s.nodes (cfg.home t) (getLockIndex a)).drawn a)) u b) = fun u b => (gs u).Bears cfg s u b := by
    funext u b
    by_cases here : u = t
    · subst here
      simp only [Function.update_self, own, Phase.Bears, nodes_setNode, and_self, if_true, Stage.Bears, serving,
        eq_iff_iff, iff_false]
      rintro ⟨-, empty, set⟩
      exact unset empty _ set
    · simp only [Function.update_of_ne here]
      cases found : gs u with
      | idle => rfl
      | pending c => rfl
      | queued c k' stage' =>
        simp only [Phase.Bears]
        rw [nodes_setNode]
        split_ifs with node
        · rw [node.1, node.2, Stage.Bears.congr serving rfl]
        · rfl
  refine ⟨?_, ?_, ?_, ?_, ?_, ?_⟩
  · rw [seats_update]
    exact locked.queue.draw (by simp [own, Phase.seat]) room
  · intro u b k' stage' found inside
    rcases phase_cases found with ⟨rfl, eq⟩ | ⟨_, old⟩
    · cases eq
      exact absurd rfl inside
    · have turn := locked.turns u b k' stage' old inside
      rw [nodes_setNode]
      split_ifs with here
      · rw [here.1, here.2] at turn
        rw [serving, turn]
      · exact turn
  · intro c i j set
    rw [nodes_setNode] at set ⊢
    have old : ∀ {c i}, (s.nodes c i).handoverFlags j = true → ∃ u b k' stage',
        Function.update gs t (.queued a (s.nodes (cfg.home t) (getLockIndex a)).next .waiting) u = .queued b k' stage' ∧
          cfg.home u = c ∧
          getLockIndex b = i ∧ (s.nodes c i).serving = k' ∧ stage'.Flags k' j := by
      intro c i set
      obtain ⟨u, b, k', stage', found, rest⟩ := locked.flags c i j set
      refine ⟨u, b, k', stage', ?_, rest⟩
      rw [Function.update_of_ne (by rintro rfl; rw [own] at found; cases found), found]
    split_ifs at set ⊢ with here
    · obtain ⟨rfl, rfl⟩ := here
      rw [serving]
      exact old set
    · exact old set
  · intro u b k' stage' found
    rcases phase_cases found with ⟨rfl, eq⟩ | ⟨_, old⟩
    · cases eq
      trivial
    · have ready := locked.ready u b k' stage' old
      rw [nodes_setNode]
      split_ifs with here
      · rw [here.1, here.2] at ready
        exact ready.drawn next
      · exact ready
  · intro u b k' stage' word found
    rcases phase_cases found with ⟨rfl, eq⟩ | ⟨_, old⟩
    · cases eq
      rintro ⟨⟩
    · exact locked.image u b k' stage' word old
  · rw [same]
    exact ⟨locked.borne.word, locked.borne.unique, locked.borne.held⟩

theorem Locked.leave (locked : Locked cfg gs s) (own : gs t = .queued a k stage) (inside : stage ≠ .waiting) {g : Phase}
    (standing : g.seat = none)
    (flags : ∀ j, (s.nodes (cfg.home t) (getLockIndex a)).handoverFlags j = true →
      (k + 1) % kHandoverFlagSlots = j ∧ k + 1 < (s.nodes (cfg.home t) (getLockIndex a)).next)
    (borne : Borne cfg (fun u b => (Function.update gs t g u).Bears cfg
      (s.setNode (cfg.home t) a (s.nodes (cfg.home t) (getLockIndex a)).advanced) u b)
      (s.setNode (cfg.home t) a (s.nodes (cfg.home t) (getLockIndex a)).advanced)) :
    Locked cfg (Function.update gs t g) (s.setNode (cfg.home t) a (s.nodes (cfg.home t) (getLockIndex a)).advanced) := by
  -- the thread that is served lets the next ticket in
  have turn := locked.turns t a k stage own inside
  have seat : (gs t).seat = some (a, k) := by simp [own, Phase.seat]
  have ahead := (locked.queue.ticket t a k seat).2
  obtain ⟨serving, next⟩ := LockNode.advanced_ticket (show (s.nodes (cfg.home t) (getLockIndex a)).serving < _ from turn ▸ ahead)
  have others : ∀ {u b k' stage'}, Function.update gs t g u = .queued b k' stage' → u ≠ t ∧ gs u = .queued b k' stage' := by
    intro u b k' stage' found
    rcases phase_cases found with ⟨rfl, rfl⟩ | old
    · cases standing
    · exact old
  refine ⟨?_, ?_, ?_, ?_, ?_, borne⟩
  · rw [seats_update, standing]
    exact locked.queue.leave seat turn
  · intro u b k' stage' found in'
    obtain ⟨apart, found⟩ := others found
    rw [nodes_setNode]
    split_ifs with here
    · exact absurd (locked.alone own inside apart found here.1 here.2).1 in'
    · exact locked.turns u b k' stage' found in'
  · intro c i j set
    rw [nodes_setNode] at set ⊢
    split_ifs at set ⊢ with here
    · -- the flag is for the ticket that comes next
      obtain ⟨slot, waiter⟩ := flags j set
      obtain ⟨u, b, seat', home, index⟩ := locked.queue.total (cfg.home t) (getLockIndex a) (k + 1) (by omega) waiter
      obtain ⟨stage', found⟩ := Phase.of_seat seat'
      have apart : u ≠ t := by
        rintro rfl
        rw [own] at found
        cases found
      obtain ⟨rfl, -⟩ := locked.alone own inside apart found home index
      exact ⟨u, b, k + 1, .waiting, by rw [Function.update_of_ne apart, found], home.trans here.1.symm, index.trans here.2.symm,
        serving.trans (by rw [turn]), slot⟩
    · obtain ⟨u, b, k', stage', found, home, index, rest⟩ := locked.flags c i j set
      have apart : u ≠ t := by
        rintro rfl
        rw [own] at found
        cases found
        exact here ⟨home.symm, index.symm⟩
      exact ⟨u, b, k', stage', by rw [Function.update_of_ne apart, found], home, index, rest⟩
  · intro u b k' stage' found
    obtain ⟨apart, found⟩ := others found
    rw [nodes_setNode]
    split_ifs with here
    · obtain ⟨rfl, -⟩ := locked.alone own inside apart found here.1 here.2
      trivial
    · exact locked.ready u b k' stage' found
  · intro u b k' stage' word found
    exact locked.image u b k' stage' word (others found).2

theorem bears_advanced (locked : Locked cfg gs s) (own : gs t = .queued a k stage) (inside : stage ≠ .waiting) (apart : u ≠ t) :
    (gs u).Bears cfg (s.setNode (cfg.home t) a (s.nodes (cfg.home t) (getLockIndex a)).advanced) u b ↔
      (gs u).Bears cfg s u b ∨ gs u = .queued b (k + 1) .waiting ∧ cfg.home u = cfg.home t ∧ getLockIndex b = getLockIndex a ∧
        (s.nodes (cfg.home t) (getLockIndex a)).handoverFlags ((k + 1) % kHandoverFlagSlots) = true := by
  -- who bears a word once the next ticket was let in
  have turn := locked.turns t a k stage own inside
  have ahead := (locked.queue.ticket t a k (by simp [own, Phase.seat])).2
  obtain ⟨serving, -⟩ := LockNode.advanced_ticket (show (s.nodes (cfg.home t) (getLockIndex a)).serving < _ from turn ▸ ahead)
  cases found : gs u with
  | idle => simp [Phase.Bears]
  | pending c => simp [Phase.Bears]
  | queued c k' stage' =>
    simp only [Phase.Bears]
    rw [nodes_setNode]
    split_ifs with here
    · obtain ⟨rfl, differ⟩ := locked.alone own inside apart found here.1 here.2
      rw [here.1, here.2]
      simp only [Stage.Bears, serving, turn] at differ ⊢
      constructor
      · rintro ⟨rfl, rfl, flag⟩
        exact .inr ⟨rfl, trivial, here.2, flag⟩
      · rintro (⟨-, rfl, -⟩ | ⟨eq, -, -, flag⟩)
        · exact absurd rfl differ
        · cases eq
          exact ⟨rfl, rfl, flag⟩
    · constructor
      · exact .inl
      · rintro (old | ⟨eq, home, index, -⟩)
        · exact old
        · cases eq
          exact absurd ⟨home, index⟩ here

theorem Locked.depart (locked : Locked cfg gs s) {mode : Mode} (own : gs t = .queued a k (.departing mode)) :
    Locked cfg (Function.update gs t (mode.departed a))
    (s.setNode (cfg.home t) a (s.nodes (cfg.home t) (getLockIndex a)).advanced) := by
  -- without a flag the word stays where it is
  have inside : Stage.departing mode ≠ .waiting := by rintro ⟨⟩
  have unset : ∀ j, (s.nodes (cfg.home t) (getLockIndex a)).handoverFlags j ≠ true := fun j set =>
    locked.flags_of_served own inside set
  have notKept : mode ≠ .kept := locked.ready t a k _ own
  have same : (fun u b => (Function.update gs t (mode.departed a) u).Bears cfg
      (s.setNode (cfg.home t) a (s.nodes (cfg.home t) (getLockIndex a)).advanced) u b) = fun u b => (gs u).Bears cfg s u b := by
    funext u b
    by_cases here : u = t
    · subst here
      cases mode with
      | kept => exact absurd rfl notKept
      | unlock => simp [own, Phase.Bears, Stage.Bears, Mode.departed]
      | cleared => simp [own, Phase.Bears, Stage.Bears, Mode.departed]
    · simp only [Function.update_of_ne here, eq_iff_iff]
      rw [bears_advanced locked own inside here]
      exact or_iff_left fun ⟨_, _, _, set⟩ => unset _ set
  refine locked.leave own inside ?_ (fun j set => absurd set (unset j)) ?_
  · cases mode <;> rfl
  · rw [same]
    exact ⟨locked.borne.word, locked.borne.unique, locked.borne.held⟩

theorem Locked.pass (locked : Locked cfg gs s) {mode : Mode} (own : gs t = .queued a k (.passing mode)) :
    Locked cfg (Function.update gs t .idle) (s.setNode (cfg.home t) a (s.nodes (cfg.home t) (getLockIndex a)).advanced) := by
  -- with the flag the next thread in line has the word
  have inside : Stage.passing mode ≠ .waiting := by rintro ⟨⟩
  obtain ⟨waiter, notCleared, drawn, flag⟩ := locked.ready t a k _ own
  have turn := locked.turns t a k _ own inside
  have mine : (gs t).Bears cfg s t a := by
    rw [own]
    exact ⟨rfl, notCleared⟩
  obtain ⟨u, b, seat, home, index⟩ := locked.queue.total (cfg.home t) (getLockIndex a) (k + 1) (by omega) waiter
  obtain rfl : b = a := by
    have := locked.queue.drawn u b (k + 1) seat
    rw [home, index, drawn] at this
    exact (Option.some.inj this).symm
  obtain ⟨stage', found⟩ := Phase.of_seat seat
  have apart : u ≠ t := by
    rintro rfl
    rw [own] at found
    cases found
  obtain ⟨rfl, -⟩ := locked.alone own inside apart found home index
  -- the word goes from the one thread to the other
  have moved : ∀ v c, (Function.update gs t .idle v).Bears cfg
    (s.setNode (cfg.home t) b (s.nodes (cfg.home t) (getLockIndex b)).advanced) v c ↔
      v = u ∧ c = b ∨ v ≠ t ∧ (gs v).Bears cfg s v c := by
    intro v c
    by_cases here : v = t
    · subst here
      simp [Phase.Bears, apart.symm]
    · rw [Function.update_of_ne here, bears_advanced locked own inside here]
      constructor
      · rintro (old | ⟨waits, home', index', -⟩)
        · exact .inr ⟨here, old⟩
        · have same := locked.queue.distinct u v b c (k + 1) seat (by simp [waits, Phase.seat]) (home'.trans home.symm) index'
          subst same
          rw [found] at waits
          cases waits
          exact .inl ⟨rfl, rfl⟩
      · rintro (⟨rfl, rfl⟩ | ⟨_, old⟩)
        · exact .inr ⟨found, home, rfl, flag⟩
        · exact .inl old
  refine locked.leave own inside rfl (fun j set => ⟨locked.flags_of_served own inside set, waiter⟩) ⟨?_, ?_, ?_⟩
  · intro v c bears
    rcases (moved v c).1 bears with ⟨rfl, rfl⟩ | ⟨_, old⟩
    · rw [home]
      exact locked.borne.word t _ mine
    · exact locked.borne.word v c old
  · intro v w c bears bears'
    rcases (moved v c).1 bears with ⟨rfl, rfl⟩ | ⟨other, old⟩
    · rcases (moved w _).1 bears' with ⟨rfl, -⟩ | ⟨other', old'⟩
      · rfl
      · exact absurd (locked.borne.unique t w _ mine old') other'
    · rcases (moved w c).1 bears' with ⟨rfl, rfl⟩ | ⟨-, old'⟩
      · exact absurd (locked.borne.unique t v _ mine old) other
      · exact locked.borne.unique v w c old old'
  · intro c set
    obtain ⟨v, bears⟩ := locked.borne.held c set
    by_cases here : v = t
    · subst here
      have eq : b = c := by
        rw [own] at bears
        exact bears.1
      exact ⟨u, (moved u c).2 (.inl ⟨rfl, eq.symm⟩)⟩
    · exact ⟨v, (moved v c).2 (.inr ⟨here, bears⟩)⟩

/-! ## Writing the word -/

theorem Locked.take (locked : Locked cfg gs s) (own : gs t = .queued a k .contending) (free : s.words a = 0) {tag : BitVec 64}
    (tagged : tag ≠ 0) :
    Locked cfg (Function.update gs t (.queued a k (.holding none))) (s.setWord a tag (cfg.home t)) := by
  -- a thread sets the word of a page that nobody bears
  have nobody : ∀ u, ¬ (gs u).Bears cfg s u a := fun u bears => (locked.borne.word u a bears).1 free
  have bears : ∀ u b, (Function.update gs t (.queued a k (.holding none)) u).Bears cfg (s.setWord a tag (cfg.home t)) u b ↔
      u = t ∧ b = a ∨ (gs u).Bears cfg s u b := by
    intro u b
    by_cases here : u = t
    · subst here
      simp only [Function.update_self, own, Phase.Bears, Stage.Bears, and_true, and_false, or_false, true_and]
      exact eq_comm
    · rw [Function.update_of_ne here]
      exact ⟨.inr, fun old => old.resolve_left fun ⟨same, _⟩ => here same⟩
  refine ⟨locked.seats own, ?_, ?_, ?_, ?_, ?_, ?_, ?_⟩
  · intro u b k' stage' found inside
    rcases phase_cases found with ⟨rfl, eq⟩ | ⟨_, old⟩
    · cases eq
      exact locked.turns u a k _ own (by rintro ⟨⟩)
    · exact locked.turns u b k' stage' old inside
  · intro c i j set
    obtain ⟨u, b, k', stage', found, rest⟩ := locked.flags c i j set
    by_cases here : u = t
    · subst here
      rw [own] at found
      cases found
      exact rest.2.2.2.elim
    · exact ⟨u, b, k', stage', by rw [Function.update_of_ne here, found], rest⟩
  · intro u b k' stage' found
    rcases phase_cases found with ⟨rfl, eq⟩ | ⟨_, old⟩
    · cases eq
      trivial
    · exact locked.ready u b k' stage' old
  · intro u b k' stage' word found image
    rcases phase_cases found with ⟨rfl, eq⟩ | ⟨_, old⟩
    · cases eq
      cases image
    · have before := locked.image u b k' stage' word old image
      have apart : b ≠ a := by
        rintro rfl
        refine nobody u ?_
        rw [old]
        exact ⟨rfl, Stage.image_bears image _ _⟩
      simp only [State.setWord]
      rwa [Function.update_of_ne apart]
  · intro u b holds
    simp only [State.setWord]
    by_cases page : b = a
    · subst page
      rcases (bears u b).1 holds with ⟨rfl, -⟩ | old
      · rw [Function.update_self, Function.update_self, if_neg tagged]
        exact ⟨tagged, rfl⟩
      · exact absurd old (nobody u)
    · rw [Function.update_of_ne page, Function.update_of_ne page]
      exact locked.borne.word u b (((bears u b).1 holds).resolve_left fun ⟨_, same⟩ => page same)
  · intro u v b holds holds'
    rcases (bears u b).1 holds with ⟨rfl, rfl⟩ | old
    · exact (((bears v _).1 holds').resolve_right (nobody v)).1
    · rcases (bears v b).1 holds' with ⟨rfl, rfl⟩ | old'
      · exact absurd old (nobody u)
      · exact locked.borne.unique u v b old old'
  · intro b set
    by_cases page : b = a
    · exact ⟨t, (bears t b).2 (.inl ⟨rfl, page⟩)⟩
    · simp only [State.setWord] at set
      rw [Function.update_of_ne page] at set
      obtain ⟨u, old⟩ := locked.borne.held b set
      exact ⟨u, (bears u b).2 (.inr old)⟩

theorem Locked.drop (locked : Locked cfg gs s) {g : Phase} (mine : (gs t).Bears cfg s t a) (seat : g.seat = (gs t).seat)
    (only : ∀ b, (gs t).Bears cfg s t b → b = a) (off : ∀ b, ¬ g.Bears cfg s t b)
    (unflagged : ∀ b k stage j, gs t = .queued b k stage → ¬ stage.Flags k j)
    (stands : ∀ b k stage, g = .queued b k stage → (s.nodes (cfg.home t) (getLockIndex b)).serving = k ∧
      stage.Ready (s.nodes (cfg.home t) (getLockIndex b)) b k ∧ stage.image = none) :
    Locked cfg (Function.update gs t g) (s.setWord a 0 (cfg.home t)) := by
  -- the thread that bears the word of a page clears it
  have bears : ∀ u b, (Function.update gs t g u).Bears cfg (s.setWord a 0 (cfg.home t)) u b ↔ u ≠ t ∧ (gs u).Bears cfg s u b := by
    intro u b
    by_cases here : u = t
    · subst here
      simp only [Function.update_self, ne_eq, not_true_eq_false, false_and, iff_false]
      exact off b
    · rw [Function.update_of_ne here]
      exact ⟨fun old => ⟨here, old⟩, fun old => old.2⟩
  have nobody : ∀ u, u ≠ t → ¬ (gs u).Bears cfg s u a := fun u apart old => apart (locked.borne.unique t u a mine old)
  refine ⟨?_, ?_, ?_, ?_, ?_, ?_, ?_, ?_⟩
  · rw [seats_update, seat, Function.update_eq_self]
    exact locked.queue
  · intro u b k' stage' found inside
    rcases phase_cases found with ⟨rfl, eq⟩ | ⟨_, old⟩
    · exact (stands b k' stage' eq.symm).1
    · exact locked.turns u b k' stage' old inside
  · intro c i j set
    obtain ⟨u, b, k', stage', found, home, index, serving, flag⟩ := locked.flags c i j set
    have apart : u ≠ t := by
      rintro rfl
      exact unflagged b k' stage' j found flag
    exact ⟨u, b, k', stage', by rw [Function.update_of_ne apart, found], home, index, serving, flag⟩
  · intro u b k' stage' found
    rcases phase_cases found with ⟨rfl, eq⟩ | ⟨_, old⟩
    · exact (stands b k' stage' eq.symm).2.1
    · exact locked.ready u b k' stage' old
  · intro u b k' stage' word found image
    rcases phase_cases found with ⟨rfl, eq⟩ | ⟨other, old⟩
    · rw [(stands b k' stage' eq.symm).2.2] at image
      cases image
    · have apart : b ≠ a := by
        rintro rfl
        refine nobody u other ?_
        rw [old]
        exact ⟨rfl, Stage.image_bears image _ _⟩
      simp only [State.setWord]
      rw [Function.update_of_ne apart]
      exact locked.image u b k' stage' word old image
  · intro u b holds
    obtain ⟨other, old⟩ := (bears u b).1 holds
    have apart : b ≠ a := by
      rintro rfl
      exact nobody u other old
    simp only [State.setWord]
    rw [Function.update_of_ne apart, Function.update_of_ne apart]
    exact locked.borne.word u b old
  · intro u v b holds holds'
    exact locked.borne.unique u v b ((bears u b).1 holds).2 ((bears v b).1 holds').2
  · intro b set
    simp only [State.setWord] at set
    have apart : b ≠ a := by
      rintro rfl
      exact set (Function.update_self ..)
    rw [Function.update_of_ne apart] at set
    obtain ⟨u, old⟩ := locked.borne.held b set
    refine ⟨u, (bears u b).2 ⟨?_, old⟩⟩
    rintro rfl
    exact apart (only b old)

/-! ## Steps -/

/-- Nobody draws the last ticket, takes the page for its own because of the tag in the word, hands over after it has
cleared the word, or hands over to a thread that waits for another page; and no tag is 0. -/
def Orderly (cfg : Config) : Condition signature ℕ State := fun t o _ s =>
  match o with
  | ⟨_, .takeTicket a⟩ => (s.nodes (cfg.home t) (getLockIndex a)).next + 1 < 2 ^ 32
  | ⟨_, .casWord a tag⟩ => tag ≠ 0 ∧ (s.words a = 0 ∨ owner (s.words a) ≠ owner tag)
  | ⟨.release (.writePageAndUnlock false), .loadTicket a⟩ =>
    ¬ (0 < waiters (s.nodes (cfg.home t) (getLockIndex a)).ticketLock ∧
      (s.nodes (cfg.home t) (getLockIndex a)).handoverCount < kMaxHandOverTime)
  | ⟨.release _, .storeFlag a _ _⟩ =>
    (s.nodes (cfg.home t) (getLockIndex a)).drawnFor ((s.nodes (cfg.home t) (getLockIndex a)).serving + 1) = some a
  | _ => True

theorem setWord_self {word : BitVec 64} {server : ℕ} (same : s.words a = word) (set : word ≠ 0) (setter : s.setter a = some server) :
    s.setWord a word server = s := by
  subst same
  simp only [State.setWord, if_neg set, ← setter, Function.update_eq_self]

theorem casWord_eq {site : Site} {tag found : BitVec 64} {c : Unit}
    (performed : exec cfg t ⟨site, .casWord a tag⟩ c s = some (found, s')) :
    found = s.words a ∧ (s.words a = 0 ∧ s' = s.setWord a tag (cfg.home t) ∨ s.words a ≠ 0 ∧ s' = s) := by
  simp only [exec] at performed
  split at performed
  · rename_i zero
    cases performed
    exact ⟨rfl, .inl ⟨zero, rfl⟩⟩
  · rename_i set
    cases performed
    exact ⟨rfl, .inr ⟨set, rfl⟩⟩

theorem Locked.waiters (locked : Locked cfg gs s) (own : gs t = .queued a k stage) (inside : stage ≠ .waiting) :
    0 < Locks.waiters (s.nodes (cfg.home t) (getLockIndex a)).ticketLock ↔ k + 1 < (s.nodes (cfg.home t) (getLockIndex a)).next := by
  have turn := locked.turns t a k stage own inside
  have ahead := (locked.queue.ticket t a k (by simp [own, Phase.seat])).2
  rw [waiters_pos (turn ▸ ahead), turn]

section Steps
variable (locked : Locked cfg gs s)
include locked

theorem Locked.turn (own : gs t = .queued a k .waiting) (turn : k = (s.nodes (cfg.home t) (getLockIndex a)).ticketLock / 2 ^ 32) :
    Locked cfg (Function.update gs t (.queued a k .served)) s := by
  have serving : (s.nodes (cfg.home t) (getLockIndex a)).serving = k := turn.symm
  refine locked.quiet own (fun _ => serving) ?_ (fun j flag => .inl flag) trivial (by rintro _ ⟨⟩)
  simp only [Stage.Bears, serving, true_and]

theorem Locked.enter {handedOver : Bool} (own : gs t = .queued a k (.flagged handedOver)) :
    Locked cfg (Function.update gs t (.queued a k (if handedOver then .holding none else .contending)))
      (s.setNode (cfg.home t) a
        { s.nodes (cfg.home t) (getLockIndex a) with
          handoverFlags := Function.update (s.nodes (cfg.home t) (getLockIndex a)).handoverFlags (k % kHandoverFlagSlots)
            false }) := by
  have inside : Stage.flagged handedOver ≠ .waiting := by rintro ⟨⟩
  refine locked.rewrite own inside rfl rfl ?_ (fun j set => ?_) ?_ ?_
  · cases handedOver <;> simp [Stage.Bears]
  · exfalso
    simp only [Function.update_apply] at set
    split_ifs at set with here
    exact here (locked.flags_of_served own inside set).symm
  · cases handedOver <;> trivial
  · cases handedOver <;> rfl

theorem Locked.ask {image : Option (BitVec 64)} (own : gs t = .queued a k (.holding image)) :
    Locked cfg (Function.update gs t (.queued a k
      (if 0 < Locks.waiters (s.nodes (cfg.home t) (getLockIndex a)).ticketLock then .asked image else .answered image false)))
        s := by
  have inside : Stage.holding image ≠ .waiting := by rintro ⟨⟩
  have waiters := locked.waiters own inside
  split_ifs with some'
  · exact locked.quiet own (fun _ => locked.turns t a k _ own inside) Iff.rfl (fun j flag => flag.elim) (waiters.1 some')
      fun word image => locked.image t a k _ word own image
  · exact locked.quiet own (fun _ => locked.turns t a k _ own inside) Iff.rfl (fun j flag => flag.elim) (by rintro ⟨⟩)
      fun word image => locked.image t a k _ word own image

theorem Locked.weigh {mode : Mode} (releases : Releases stage mode) (own : gs t = .queued a k stage)
    (orderly : Orderly cfg t ⟨.release mode.caller, .loadTicket a⟩ (s.nodes (cfg.home t) (getLockIndex a)).ticketLock s) :
    Locked cfg (Function.update gs t (.queued a k
      (if 0 < Locks.waiters (s.nodes (cfg.home t) (getLockIndex a)).ticketLock then .weighing mode else .resetting mode))) s := by
  have inside : stage ≠ .waiting := by cases releases <;> rintro ⟨⟩
  have waiters := locked.waiters own inside
  have ready := locked.ready t a k stage own
  have bears : mode ≠ .cleared ↔ stage.Bears (s.nodes (cfg.home t) (getLockIndex a)) k := by
    cases releases <;> simp [Stage.Bears]
  have unflagged : ∀ j, ¬ stage.Flags k j := by
    cases releases <;> simp [Stage.Flags]
  split_ifs with some'
  · refine locked.quiet own (fun _ => locked.turns t a k _ own inside) bears (fun j flag => absurd flag (unflagged j)) ?_
      (by rintro _ ⟨⟩)
    refine ⟨waiters.1 some', ?_, ?_⟩
    · rintro rfl
      cases releases
      exact (ready rfl).2
    · rintro rfl few
      exact orderly ⟨some', few⟩
  · refine locked.quiet own (fun _ => locked.turns t a k _ own inside) bears (fun j flag => absurd flag (unflagged j)) ?_
      (by rintro _ ⟨⟩)
    rintro rfl
    cases releases
    exact some' (waiters.2 (ready rfl).1)

theorem Locked.decide {mode : Mode} (own : gs t = .queued a k (.weighing mode)) :
    Locked cfg (Function.update gs t (.queued a k
      (if (s.nodes (cfg.home t) (getLockIndex a)).handoverCount < kMaxHandOverTime then .handing mode else .resetting mode))) s := by
  have inside : Stage.weighing mode ≠ .waiting := by rintro ⟨⟩
  obtain ⟨waiter, kept, cleared⟩ := locked.ready t a k _ own
  split_ifs with few
  · exact locked.quiet own (fun _ => locked.turns t a k _ own inside) Iff.rfl (fun j flag => flag.elim)
      ⟨waiter, fun eq => cleared eq few⟩ (by rintro _ ⟨⟩)
  · exact locked.quiet own (fun _ => locked.turns t a k _ own inside) Iff.rfl (fun j flag => flag.elim)
      (fun eq => few (kept eq)) (by rintro _ ⟨⟩)

theorem Locked.hand {mode : Mode} (own : gs t = .queued a k (.handing mode))
    (same : (s.nodes (cfg.home t) (getLockIndex a)).drawnFor ((s.nodes (cfg.home t) (getLockIndex a)).serving + 1) = some a) :
    Locked cfg (Function.update gs t (.queued a k (.counting mode)))
      (s.setNode (cfg.home t) a
        { s.nodes (cfg.home t) (getLockIndex a) with
          handoverFlags := Function.update (s.nodes (cfg.home t) (getLockIndex a)).handoverFlags
            ((k + 1) % 2 ^ 32 % kHandoverFlagSlots) true }) := by
  have inside : Stage.handing mode ≠ .waiting := by rintro ⟨⟩
  obtain ⟨waiter, notCleared⟩ := locked.ready t a k _ own
  have turn := locked.turns t a k _ own inside
  have small := (s.nodes (cfg.home t) (getLockIndex a)).next_lt
  rw [Nat.mod_eq_of_lt (waiter.trans small)]
  refine locked.rewrite own inside rfl rfl Iff.rfl (fun j set => ?_) ⟨waiter, notCleared, turn ▸ same, Function.update_self ..⟩ rfl
  simp only [Function.update_apply] at set
  split_ifs at set with here
  · exact here.symm
  · exact (locked.flags_of_served own inside set).elim

end Steps

theorem Locked.step (locked : Locked cfg gs s) {o : Op} {c : Unit} {r : o.act.Reply} {g : Phase}
    (performed : exec cfg t o c s = some (r, s'))
    (orderly : Orderly cfg t o r s) (permitted : Permits (gs t) o r g) : Locked cfg (Function.update gs t g) s' := by
  generalize own : gs t = before at permitted
  cases permitted with
  | draw =>
    cases performed
    exact locked.draw own orderly
  | spin =>
    cases performed
    exact locked.quiet own (fun wrong => absurd rfl wrong) Iff.rfl (fun j flag => .inl flag) trivial (by rintro _ ⟨⟩)
  | turn turn =>
    cases performed
    exact locked.turn own turn
  | flag =>
    cases performed
    exact locked.quiet own (fun _ => locked.turns t _ _ _ own (by rintro ⟨⟩)) Iff.rfl (fun j flag => .inl flag) trivial
      (by rintro _ ⟨⟩)
  | enter =>
    cases performed
    exact locked.enter own
  | retry set other =>
    obtain ⟨rfl, ⟨zero, -⟩ | ⟨-, rfl⟩⟩ := casWord_eq performed
    · exact absurd zero set
    · exact locked.quiet own (fun _ => locked.turns t _ _ _ own (by rintro ⟨⟩)) Iff.rfl (fun j flag => .inl flag) trivial
        (by rintro _ ⟨⟩)
  | lock mine =>
    obtain ⟨rfl, ⟨zero, rfl⟩ | ⟨set, -⟩⟩ := casWord_eq performed
    · exact locked.take own zero orderly.1
    · rcases mine with zero | mine
      · exact absurd zero set
      · exact absurd mine (orderly.2.resolve_left set)
  | read =>
    cases performed
    refine locked.quiet own (fun _ => locked.turns t _ _ _ own (by rintro ⟨⟩)) Iff.rfl (fun j flag => flag.elim) trivial ?_
    rintro word ⟨⟩
    rfl
  | ask =>
    cases performed
    exact locked.ask own
  | answer =>
    cases performed
    refine locked.quiet own (fun _ => locked.turns t _ _ _ own (by rintro ⟨⟩)) Iff.rfl (fun j flag => flag.elim) ?_
      fun word image => locked.image t _ _ _ word own image
    exact fun few => ⟨locked.ready t _ _ _ own, of_decide_eq_true few⟩
  | @image a k word b =>
    cases performed
    have same := locked.image t a k _ word own rfl
    obtain ⟨set, setter⟩ := locked.borne.word t a (by rw [own]; exact ⟨rfl, trivial⟩)
    rw [setWord_self same (same ▸ set) setter]
    exact locked.quiet own (fun _ => locked.turns t _ _ _ own (by rintro ⟨⟩)) Iff.rfl (fun j flag => .inl flag)
      (locked.ready t a k _ own)
      fun word image => locked.image t _ _ _ word own image
  | @clear a k image =>
    cases performed
    refine locked.drop (by rw [own]; exact ⟨rfl, trivial⟩) (by rw [own]; rfl) ?_ (fun b bears => bears.2) ?_ ?_
    · rw [own]
      exact fun b bears => bears.1.symm
    · intro b k' stage' j eq
      rw [own] at eq
      cases eq
      exact id
    · rintro b k' stage' ⟨⟩
      exact ⟨locked.turns t a k _ own (by rintro ⟨⟩), trivial, rfl⟩
  | weigh releases =>
    cases performed
    exact locked.weigh releases own orderly
  | decide =>
    cases performed
    exact locked.decide own
  | @hand a k mode =>
    cases performed
    refine locked.hand own ?_
    cases mode <;> exact orderly
  | @count a k mode =>
    cases performed
    have ready := locked.ready t a k _ own
    exact locked.rewrite own (by rintro ⟨⟩) rfl rfl Iff.rfl (fun j set => locked.flags_of_served own (by rintro ⟨⟩) set) ready rfl
  | pass =>
    cases performed
    exact locked.pass own
  | @reset a k mode =>
    cases performed
    have ready := locked.ready t a k _ own
    exact locked.rewrite own (by rintro ⟨⟩) rfl rfl Iff.rfl
      (fun j set => (locked.flags_of_served own (by rintro ⟨⟩) set).elim) ready rfl
  | depart =>
    cases performed
    exact locked.depart own
  | @free a =>
    cases performed
    refine locked.drop (by rw [own]; rfl) (by rw [own]; rfl) ?_ (fun b bears => bears) ?_ (by rintro _ _ _ ⟨⟩)
    · rw [own]
      exact fun b bears => bears.symm
    · intro b k' stage' j eq
      rw [own] at eq
      cases eq

theorem locked_initial : Locked cfg (fun _ => .idle) initial where
  queue := by
    refine ⟨fun c i => by simp [initial, LockNode.serving, LockNode.next], ?_, ?_, ?_, ?_⟩
    · rintro _ _ _ ⟨⟩
    · rintro _ _ _ _ _ ⟨⟩
    · intro c i k low high
      simp [initial, LockNode.next] at high
    · rintro _ _ _ ⟨⟩
  turns := by rintro _ _ _ _ ⟨⟩
  flags := by rintro _ _ _ ⟨⟩
  ready := by rintro _ _ _ _ ⟨⟩
  image := by rintro _ _ _ _ _ ⟨⟩
  borne := by
    refine ⟨?_, ?_, ?_⟩
    · rintro _ _ ⟨⟩
    · rintro _ _ _ ⟨⟩
    · intro a set
      exact absurd rfl set

end

end Faunus.Sherman.Locks
