import Faunus.Sherman.Tickets

/-! Handovers between the tickets of a lock node.

A release hands over by the flag of the next ticket. While the numbers of the tickets do
not run out, the next owner finds exactly what the release before it has decided, and the
count of handovers in a row is the one the node keeps.
-/

set_option autoImplicit false

namespace Faunus.Sherman.Locks

open Interleaving

/-! ## Decisions -/

/-- The number of handovers in a row before the ticket. -/
def streak (decided : ℕ → Bool) : ℕ → ℕ
  | 0 => 0
  | k + 1 => if decided k then streak decided k + 1 else 0

def pending (decided : ℕ → Bool) : ℕ → Bool
  | 0 => false
  | k + 1 => decided k

section
variable {decided decided' : ℕ → Bool} {s k : ℕ}

theorem streak_congr (same : ∀ j < s, decided' j = decided j) (low : k ≤ s) : streak decided' k = streak decided k := by
  induction k with
  | zero => rfl
  | succ k ih => simp only [streak, same k low, ih (by omega)]

theorem pending_congr (same : ∀ j < s, decided' j = decided j) (low : k ≤ s) : pending decided' k = pending decided k := by
  cases k with
  | zero => rfl
  | succ k => exact same k low

theorem streak_true (n : ℕ) (all : ∀ j < n, decided (k + j) = true) : n ≤ streak decided (k + n) := by
  induction n with
  | zero => exact Nat.zero_le _
  | succ n ih =>
    have before := ih fun j less => all j (by omega)
    rw [← Nat.add_assoc, streak, if_pos (all n (by omega))]
    omega

end

def Marked (n : LockNode) (set : Bool) (k : ℕ) : Prop := ∀ j, n.handoverFlags j = (set && decide (j = k % kHandoverFlagSlots))

/-- What the owner of the ticket that is served knows about the node. -/
def Moment.Sees (n : LockNode) (decided : ℕ → Bool) (k : ℕ) : Moment → Prop
  | .asking => True
  | .waiting => Marked n (pending decided k) k ∧ n.handoverCount = streak decided k
  | .served => Marked n (pending decided k) k ∧ n.handoverCount = streak decided k
  | .flagged b => b = pending decided k ∧ Marked n (pending decided k) k ∧ n.handoverCount = streak decided k
  | .entered b => b = pending decided k ∧ Marked n false k ∧ n.handoverCount = streak decided k
  | .called => Marked n false k ∧ n.handoverCount = streak decided k
  | .weighing => Marked n false k ∧ n.handoverCount = streak decided k ∧ k + 1 < n.next
  | .handing => Marked n false k ∧ n.handoverCount = streak decided k ∧ k + 1 < n.next ∧ streak decided k < kMaxHandOverTime
  | .counting => Marked n true (k + 1) ∧ n.handoverCount = streak decided k ∧ k + 1 < n.next ∧ streak decided k < kMaxHandOverTime
  | .passing => Marked n true (k + 1) ∧ n.handoverCount = streak decided (k + 1) ∧ k + 1 < n.next ∧
    streak decided (k + 1) ≤ kMaxHandOverTime ∧
      decided k = true
  | .resetting => Marked n false k
  | .departing => Marked n false k ∧ n.handoverCount = 0 ∧ decided k = false
  | .left _ => True

/-- Between its calls a thread is where `release` begins. -/
def Turn.moment : Turn → Moment
  | .idle => .called
  | .busy _ _ m => m

structure Delivered (gs : ℕ → Turn) (d : Desk) : Prop where
  holder : ∀ t a k, d.seat t = some (a, k) → (d.node a).serving = k → (gs t).moment.Sees (d.node a) (d.decided (getLockIndex a)) k
  rest : ∀ a, (d.node a).serving = (d.node a).next → Moment.Sees (d.node a) (d.decided (getLockIndex a))
    (d.node a).serving .waiting ∧
    pending (d.decided (getLockIndex a)) (d.node a).serving = false
  short : ∀ a k, k ≤ (d.node a).serving → streak (d.decided (getLockIndex a)) k ≤ kMaxHandOverTime
  known : ∀ a k b, d.outcomes (getLockIndex a) k = some b → k < (d.node a).serving ∧ d.decided (getLockIndex a) k = b
  gone : ∀ t a k b, gs t = .busy a k (.left b) → k < (d.node a).serving ∧ d.decided (getLockIndex a) k = b
  entered : ∀ a, ∀ e ∈ d.entries (getLockIndex a), e.ticket ≤ (d.node a).serving ∧
    e.handedOver = pending (d.decided (getLockIndex a)) e.ticket
  order : ∀ a, (d.entries (getLockIndex a)).map Entry.ticket = (List.range (d.entries (getLockIndex a)).length).reverse
  inside : ∀ t, d.standing t = .inside → (d.entries (getLockIndex (d.page t))).length = d.ticket t + 1
  outside : ∀ a, (∀ t, d.standing t = .inside → getLockIndex (d.page t) ≠ getLockIndex a) →
    (d.entries (getLockIndex a)).length = (d.node a).serving

section
variable {gs : ℕ → Turn} {d d' : Desk} {t u : ℕ} {a b : GlobalAddress} {k : ℕ} {m m' : Moment}

/-- The owner of the ticket that is served works on its node, and decides about no ticket before its own. -/
theorem Delivered.work (delivered : Delivered gs d) (seated : Seated gs d) (own : gs t = .busy a k m) (turn : (d.node a).serving = k)
    (present : m.standing ≠ .away) (elsewhere : ∀ b, getLockIndex b ≠ getLockIndex a → d'.node b = d.node b)
    (serving : (d'.node a).serving = (d.node a).serving) (next : (d'.node a).next = (d.node a).next)
    (standing : d'.standing = d.standing) (page : d'.page = d.page) (ticket : d'.ticket = d.ticket)
    (entries : d'.entries = d.entries) (outcomes : d'.outcomes = d.outcomes)
    (decisions : ∀ i, i ≠ getLockIndex a → d'.decided i = d.decided i)
    (before : ∀ j < k, d'.decided (getLockIndex a) j = d.decided (getLockIndex a) j)
    (stays : ∀ b, m' ≠ .left b) (sees : m'.Sees (d'.node a) (d'.decided (getLockIndex a)) k) :
    Delivered (Function.update gs t (.busy a k m')) d' := by
  have seats : d'.seat = d.seat := by
    funext u
    simp only [Desk.seat, standing, page, ticket]
  have seat := seated.seat_busy own present
  have same : ∀ b, getLockIndex b = getLockIndex a → d'.node b = d'.node a ∧ d.node b = d.node a := fun b index => by
    simp only [Desk.node, index, and_self]
  have served : ∀ b, (d'.node b).serving = (d.node b).serving := by
    intro b
    by_cases index : getLockIndex b = getLockIndex a
    · rw [(same b index).1, (same b index).2, serving]
    · rw [elsewhere b index]
  have earlier : ∀ b, ∀ j < (d.node b).serving, d'.decided (getLockIndex b) j = d.decided (getLockIndex b) j := by
    intro b j less
    by_cases index : getLockIndex b = getLockIndex a
    · rw [(same b index).2, turn] at less
      rw [index]
      exact before j less
    · rw [decisions _ index]
  constructor
  · intro u b k' seat' turn'
    rw [seats] at seat'
    rw [served] at turn'
    by_cases index : getLockIndex b = getLockIndex a
    · obtain rfl := seated.alone seat turn seat' turn' index
      obtain ⟨rfl, rfl⟩ := Prod.mk.inj (Option.some.inj (seat.symm.trans seat'))
      rw [Function.update_self]
      exact sees
    · have other : u ≠ t := by
        rintro rfl
        obtain ⟨rfl, -⟩ := Prod.mk.inj (Option.some.inj (seat.symm.trans seat'))
        exact index rfl
      rw [Function.update_of_ne other, elsewhere b index, decisions _ index]
      exact delivered.holder u b k' seat' turn'
  · intro b free
    by_cases index : getLockIndex b = getLockIndex a
    · have high := (seated.queue.ticket t a k seat).2
      change k < (d.node a).next at high
      rw [(same b index).1, serving, next, turn] at free
      omega
    · rw [elsewhere b index] at free
      rw [elsewhere b index, decisions _ index]
      exact delivered.rest b free
  · intro b k' low
    rw [served] at low
    rw [streak_congr (earlier b) low]
    exact delivered.short b k' low
  · intro b k' r recorded
    rw [outcomes] at recorded
    obtain ⟨less, eq⟩ := delivered.known b k' r recorded
    rw [served, earlier b k' less]
    exact ⟨less, eq⟩
  · intro u b k' r found
    rcases turn_cases found with ⟨rfl, eq⟩ | ⟨_, old⟩
    · cases eq
      exact absurd rfl (stays r)
    · obtain ⟨less, eq⟩ := delivered.gone u b k' r old
      rw [served, earlier b k' less]
      exact ⟨less, eq⟩
  · intro b e listed
    rw [entries] at listed
    obtain ⟨low, eq⟩ := delivered.entered b e listed
    rw [served, pending_congr (earlier b) low]
    exact ⟨low, eq⟩
  · intro b
    rw [entries]
    exact delivered.order b
  · intro u inside
    rw [standing] at inside
    rw [entries, page, ticket]
    exact delivered.inside u inside
  · intro b out
    rw [standing, page] at out
    rw [entries, served]
    exact delivered.outside b out

theorem Moment.Sees.drawn {n : LockNode} {decided : ℕ → Bool} (sees : m.Sees n decided k) (next : (n.drawn a).next = n.next + 1) :
    m.Sees (n.drawn a) decided k := by
  have later : k + 1 < n.next → k + 1 < (n.drawn a).next := by
    rw [next]
    exact Nat.lt_succ_of_lt
  cases m with
  | weighing => exact ⟨sees.1, sees.2.1, later sees.2.2⟩
  | handing => exact ⟨sees.1, sees.2.1, later sees.2.2.1, sees.2.2.2⟩
  | counting => exact ⟨sees.1, sees.2.1, later sees.2.2.1, sees.2.2.2⟩
  | passing => exact ⟨sees.1, sees.2.1, later sees.2.2.1, sees.2.2.2⟩
  | _ => exact sees

theorem Delivered.draw (delivered : Delivered gs d) (seated : Seated gs d) (own : gs t = .busy a k .asking)
    (few : d.drawn + 1 < 2 ^ 32) :
    Delivered (Function.update gs t (.busy a (d.node a).next .waiting)) (d.draws t a) := by
  have drawn := LockNode.drawn_ticket (a := a) (seated.queue.order 0 (getLockIndex a)) (seated.room few a)
  have serving : ∀ b, ((d.draws t a).node b).serving = (d.node b).serving := draws_serving seated few
  have away : d.standing t = .away := (seated.busy t a k _ own).1
  have node : ∀ b, getLockIndex b = getLockIndex a → (d.draws t a).node b = (d.node a).drawn a ∧ d.node b = d.node a := by
    intro b index
    refine ⟨?_, by simp only [Desk.node, index]⟩
    change (d.state.setNode 0 a _).nodes 0 (getLockIndex b) = _
    rw [node_setNode, if_pos index]
  have elsewhere : ∀ b, getLockIndex b ≠ getLockIndex a → (d.draws t a).node b = d.node b := by
    intro b index
    change (d.state.setNode 0 a _).nodes 0 (getLockIndex b) = _
    rw [node_setNode, if_neg index]
  have sees : ∀ b k' m, Moment.Sees (d.node b) (d.decided (getLockIndex b)) k' m → m.Sees ((d.draws t a).node b)
    (d.decided (getLockIndex b)) k' := by
    intro b k' m before
    by_cases index : getLockIndex b = getLockIndex a
    · rw [(node b index).2] at before
      rw [(node b index).1]
      exact before.drawn drawn.2
    · rwa [elsewhere b index]
  have standing : ∀ u, (d.draws t a).standing u = .inside → u ≠ t ∧ d.standing u = .inside := by
    intro u inside
    by_cases same : u = t
    · subst same
      simp [Desk.draws, Desk.note] at inside
    · simpa [Desk.draws, Desk.note, same] using inside
  have pages : ∀ u, u ≠ t → (d.draws t a).page u = d.page u ∧ (d.draws t a).ticket u = d.ticket u := by
    intro u other
    simp [Desk.draws, Desk.note, other]
  constructor
  · intro u b k' seat turn
    rw [serving] at turn
    rw [seat_draws] at seat
    rcases seat_cases seat with ⟨rfl, rfl, rfl⟩ | ⟨other, old⟩
    · -- the ticket is served at once if nobody is there
      rw [Function.update_self]
      have free := (delivered.rest b turn).1
      rw [turn] at free
      exact sees b _ _ free
    · rw [Function.update_of_ne other]
      exact sees b k' _ (delivered.holder u b k' old turn)
  · intro b free
    rw [serving] at free ⊢
    by_cases index : getLockIndex b = getLockIndex a
    · have order : (d.node a).serving ≤ (d.node a).next := seated.queue.order 0 _
      have after : ((d.node a).drawn a).next = (d.node a).next + 1 := drawn.2
      rw [(node b index).1, after, (node b index).2] at free
      omega
    · rw [elsewhere b index] at free
      obtain ⟨before, none⟩ := delivered.rest b free
      exact ⟨sees b _ _ before, none⟩
  · intro b k' low
    rw [serving] at low
    exact delivered.short b k' low
  · intro b k' r recorded
    rw [serving]
    exact delivered.known b k' r recorded
  · intro u b k' r found
    rw [serving]
    rcases turn_cases found with ⟨rfl, eq⟩ | ⟨_, old⟩
    · cases eq
    · exact delivered.gone u b k' r old
  · intro b e listed
    rw [serving]
    exact delivered.entered b e listed
  · exact delivered.order
  · intro u inside
    obtain ⟨other, before⟩ := standing u inside
    rw [(pages u other).1, (pages u other).2]
    exact delivered.inside u before
  · intro b out
    rw [serving]
    refine delivered.outside b fun u inside => ?_
    have other : u ≠ t := by
      rintro rfl
      rw [away] at inside
      cases inside
    have still : (d.draws t a).standing u = .inside := by simpa [Desk.draws, Desk.note, other] using inside
    have apart := out u still
    rwa [(pages u other).1] at apart

theorem LockNode.advanced_handoverFlags (n : LockNode) : n.advanced.handoverFlags = n.handoverFlags := by
  rw [LockNode.advanced]

theorem LockNode.advanced_handoverCount (n : LockNode) : n.advanced.handoverCount = n.handoverCount := by
  rw [LockNode.advanced]

theorem Seated.moment_waiting (seated : Seated gs d) (seat : d.seat t = some (a, k)) (early : (d.node a).serving ≠ k) :
    (gs t).moment = .waiting := by
  -- a thread whose ticket is not served yet is in its wait
  have present : d.standing t ≠ .away := by
    intro away
    simp [Desk.seat, away] at seat
  obtain ⟨rfl, rfl⟩ : d.page t = a ∧ d.ticket t = k := by simpa [Desk.seat, present] using seat
  have standing : d.standing t = .waiting := by
    cases stood : d.standing t with
    | away => exact absurd stood present
    | waiting => rfl
    | inside => exact absurd (seated.inside t stood) early
  cases ghost : gs t with
  | idle => exact absurd standing (seated.idle t ghost)
  | busy b k m =>
    obtain ⟨stood, known⟩ := seated.busy t b k m ghost
    rw [standing] at stood
    obtain ⟨rfl, rfl⟩ := known (by rintro rfl; cases stood)
    have notTurned : m.turned = false := by
      cases turned : m.turned with
      | false => rfl
      | true => exact absurd (seated.turn t _ _ m ghost turned) early
    cases m with
    | waiting => rfl
    | served | flagged | entered => cases notTurned
    | _ => cases stood

theorem Delivered.leave (delivered : Delivered gs d) (seated : Seated gs d) (own : gs t = .busy a k m)
    (present : m.standing = .inside)
    (turned : m.turned = true) {handover : Bool} (marked : Marked (d.node a) handover (k + 1))
    (count : (d.node a).handoverCount = streak (d.decided (getLockIndex a)) (k + 1))
    (short : streak (d.decided (getLockIndex a)) (k + 1) ≤ kMaxHandOverTime) (decision : d.decided (getLockIndex a) k = handover)
    (someone : handover = true → k + 1 < (d.node a).next) :
    Delivered (Function.update gs t (.busy a k (.left handover))) (d.advances t a) := by
  have seat := seated.seat_busy own (by rw [present]; decide)
  have turn := seated.turn t a k m own turned
  have ahead : (d.node a).serving < (d.node a).next := turn ▸ (seated.queue.ticket t a k seat).2
  obtain ⟨stood, known⟩ := seated.busy t a k m own
  obtain ⟨here, mine⟩ := known (by rintro rfl; cases turned)
  rw [present] at stood
  have node : ∀ b, getLockIndex b = getLockIndex a → (d.advances t a).node b = (d.node a).advanced ∧ d.node b = d.node a := by
    intro b index
    refine ⟨?_, by simp only [Desk.node, index]⟩
    change (d.state.setNode 0 a _).nodes 0 (getLockIndex b) = _
    rw [node_setNode, if_pos index]
  have elsewhere : ∀ b, getLockIndex b ≠ getLockIndex a → (d.advances t a).node b = d.node b := by
    intro b index
    change (d.state.setNode 0 a _).nodes 0 (getLockIndex b) = _
    rw [node_setNode, if_neg index]
  have after : ∀ b, getLockIndex b = getLockIndex a → ((d.advances t a).node b).serving = k + 1 := by
    intro b index
    rw [(node b index).1, (LockNode.advanced_ticket ahead).1, turn]
  have passed : ∀ b, (d.node b).serving ≤ ((d.advances t a).node b).serving := by
    intro b
    by_cases index : getLockIndex b = getLockIndex a
    · rw [after b index, (node b index).2, turn]
      exact Nat.le_succ _
    · rw [elsewhere b index]
  have sees : Moment.Sees (d.node a).advanced (d.decided (getLockIndex a)) (k + 1) .waiting := by
    refine ⟨?_, (LockNode.advanced_handoverCount _).trans count⟩
    unfold Marked
    rw [LockNode.advanced_handoverFlags, pending, decision]
    exact marked
  have standing : ∀ u, (d.advances t a).standing u = .inside ↔ u ≠ t ∧ d.standing u = .inside := by
    intro u
    by_cases same : u = t <;> simp [Desk.advances, Desk.note, same]
  constructor
  · intro u b k' seat' turn'
    rw [seat_advances] at seat'
    have other : u ≠ t := by
      rintro rfl
      simp at seat'
    rw [Function.update_of_ne other] at seat' ⊢
    by_cases index : getLockIndex b = getLockIndex a
    · rw [after b index] at turn'
      subst turn'
      rw [seated.moment_waiting seat' (by rw [(node b index).2, turn]; omega), (node b index).1, index]
      exact sees
    · rw [elsewhere b index] at turn' ⊢
      exact delivered.holder u b k' seat' turn'
  · intro b free
    by_cases index : getLockIndex b = getLockIndex a
    · rw [after b index, (node b index).1, (LockNode.advanced_ticket ahead).2] at free
      rw [after b index, (node b index).1, index]
      refine ⟨sees, ?_⟩
      change d.decided (getLockIndex a) k = false
      cases handover with
      | false => exact decision
      | true => exact absurd free (Nat.ne_of_lt (someone rfl))
    · rw [elsewhere b index] at free ⊢
      exact delivered.rest b free
  · intro b k' low
    by_cases index : getLockIndex b = getLockIndex a
    · rw [after b index] at low
      rcases Nat.lt_or_eq_of_le low with less | rfl
      · refine delivered.short b k' ?_
        rw [(node b index).2, turn]
        omega
      · rw [index]
        exact short
    · rw [elsewhere b index] at low
      exact delivered.short b k' low
  · intro b k' r recorded
    obtain ⟨less, eq⟩ := delivered.known b k' r recorded
    exact ⟨Nat.lt_of_lt_of_le less (passed b), eq⟩
  · intro u b k' r found
    rcases turn_cases found with ⟨rfl, eq⟩ | ⟨_, old⟩
    · cases eq
      rw [after _ rfl]
      exact ⟨Nat.lt_succ_self k, decision⟩
    · obtain ⟨less, eq⟩ := delivered.gone u b k' r old
      exact ⟨Nat.lt_of_lt_of_le less (passed b), eq⟩
  · intro b e listed
    obtain ⟨low, eq⟩ := delivered.entered b e listed
    exact ⟨low.trans (passed b), eq⟩
  · exact delivered.order
  · intro u inside
    exact delivered.inside u ((standing u).1 inside).2
  · intro b out
    by_cases index : getLockIndex b = getLockIndex a
    · have length := delivered.inside t stood
      rw [here, mine] at length
      rw [after b index, index]
      exact length
    · rw [elsewhere b index]
      refine delivered.outside b fun u inside => ?_
      by_cases same : u = t
      · subst same
        rw [here]
        exact fun eq => index eq.symm
      · exact out u ((standing u).2 ⟨same, inside⟩)

theorem Delivered.sees (delivered : Delivered gs d) (seated : Seated gs d) (own : gs t = .busy a k m) (present : m.standing ≠ .away)
    (turn : (d.node a).serving = k) : m.Sees (d.node a) (d.decided (getLockIndex a)) k := by
  have sees := delivered.holder t a k (seated.seat_busy own present) turn
  rwa [own] at sees

theorem Delivered.store {n : LockNode} (delivered : Delivered gs d) (seated : Seated gs d) (own : gs t = .busy a k m)
    (turn : (d.node a).serving = k) (present : m.standing ≠ .away) (state : d'.state = d.state.setNode 0 a n)
    (lock : n.ticketLock = (d.node a).ticketLock) (standing : d'.standing = d.standing) (page : d'.page = d.page)
    (ticket : d'.ticket = d.ticket) (entries : d'.entries = d.entries) (outcomes : d'.outcomes = d.outcomes)
    (decisions : ∀ i, i ≠ getLockIndex a → d'.decided i = d.decided i)
    (before : ∀ j < k, d'.decided (getLockIndex a) j = d.decided (getLockIndex a) j) (stays : ∀ b, m' ≠ .left b)
    (sees : m'.Sees n (d'.decided (getLockIndex a)) k) :
    Delivered (Function.update gs t (.busy a k m')) d' := by
  have here : d'.node a = n := by
    rw [Desk.node, state, node_setNode, if_pos rfl]
  refine delivered.work seated own turn present ?_ ?_ ?_ standing page ticket entries outcomes decisions before stays ?_
  · intro b index
    rw [Desk.node, state, node_setNode, if_neg index]
  · rw [here, LockNode.serving, lock]
    rfl
  · rw [here, LockNode.next, lock]
    rfl
  · rw [here]
    exact sees

theorem put_other {A : Type} {f : ℕ → ℕ → A} {i j : ℕ} {x : A} (other : j ≠ i) :
    put f i k x j = f j := Function.update_of_ne other _ _

theorem put_self {A : Type} {f : ℕ → ℕ → A} {i : ℕ} {x : A} : put f i k x i = Function.update (f i) k x := Function.update_self _ _ _

theorem put_apart {A : Type} {f : ℕ → ℕ → A} {i j l : ℕ} {x : A} (ticket : l = k) (less : j < k) : put f i l x i j = f i j := by
  rw [put_self, Function.update_of_ne (by omega)]

theorem put_here {A : Type} {f : ℕ → ℕ → A} {i l : ℕ} {x : A} (ticket : l = k) : put f i l x i k = x := by
  rw [put_self, ticket, Function.update_self]

theorem put_cases {A : Type} {f : ℕ → ℕ → A} {i j l : ℕ} {x y : A} (found : put f i k x j l = y) :
    (j = i ∧ l = k ∧ y = x) ∨ (¬ (j = i ∧ l = k) ∧ f j l = y) := by
  by_cases index : j = i
  · subst index
    rw [put_self] at found
    by_cases same : l = k
    · subst same
      rw [Function.update_self] at found
      exact .inl ⟨rfl, rfl, found.symm⟩
    · rw [Function.update_of_ne same] at found
      exact .inr ⟨fun both => same both.2, found⟩
  · rw [put_other index] at found
    exact .inr ⟨fun both => index both.1, found⟩

theorem counted_room {count : ℕ} (low : count < kMaxHandOverTime) : count + 1 < 2 ^ 8 := by
  unfold kMaxHandOverTime at low
  omega

theorem Marked.clear {n : LockNode} {set : Bool} (marked : Marked n set k) :
    Marked { n with handoverFlags := Function.update n.handoverFlags (k % kHandoverFlagSlots) false } false k := by
  intro j
  by_cases slot : j = k % kHandoverFlagSlots
  · simp [slot]
  · simp [slot, marked j]

theorem Marked.set {n : LockNode} (marked : Marked n false k) (slot : ℕ) (same : slot = (k + 1) % kHandoverFlagSlots) :
    Marked { n with handoverFlags := Function.update n.handoverFlags slot true } true (k + 1) := by
  intro j
  by_cases here : j = slot
  · simp [here, same]
  · simp [here, marked j, ← same]

theorem Delivered.act {loopBound : ℕ} {o : Op} {c : Unit} {r : o.act.Reply} {g : Turn} (delivered : Delivered gs d)
    (seated : Seated gs d)
    (few : d'.drawn < 2 ^ 32) (performed : Desk.exec loopBound t o c d = some (r, d')) (permitted : Proceeds (gs t) o r g) :
    Delivered (Function.update gs t g) d' := by
  generalize own : gs t = g₀ at permitted
  cases permitted with
  | draw =>
    cases performed
    exact delivered.draw seated own few
  | spin _ =>
    cases performed
    rw [← own, Function.update_eq_self]
    exact delivered
  | turn same =>
    cases performed
    have sees := delivered.sees seated own (by decide) same.symm
    exact delivered.work seated own same.symm (by decide) (fun _ _ => rfl) rfl rfl rfl rfl rfl rfl rfl (fun _ _ => rfl)
      (fun _ _ => rfl) (by simp) sees
  | @flag a k b =>
    cases performed
    have turn := seated.turn _ _ _ _ own rfl
    obtain ⟨marked, count⟩ := delivered.sees seated own (by decide) turn
    have loaded : (d.node a).handoverFlags (k % kHandoverFlagSlots) = pending (d.decided (getLockIndex a)) k := by
      rw [marked]
      simp
    exact delivered.work seated own turn (by decide) (fun _ _ => rfl) rfl rfl rfl rfl rfl rfl rfl (fun _ _ => rfl)
      (fun _ _ => rfl) (by simp)
      ⟨loaded, marked, count⟩
  | enter =>
    cases performed
    have turn := seated.turn _ _ _ _ own rfl
    obtain ⟨found, marked, count⟩ := delivered.sees seated own (by simp [Moment.standing]) turn
    exact delivered.store seated own turn (by simp [Moment.standing]) rfl rfl rfl rfl rfl rfl rfl (fun _ _ => rfl)
      (fun _ _ => rfl) (by simp)
      ⟨found, marked.clear, count⟩
  | @weigh a k v caller =>
    obtain ⟨rfl, rfl⟩ := exec_loadTicket performed
    have turn := seated.turn _ _ _ _ own rfl
    have ahead : (d'.node a).serving < (d'.node a).next := turn ▸ (seated.queue.ticket _ _ _ (seated.seat_busy own (by decide))).2
    obtain ⟨marked, count⟩ := delivered.sees seated own (by decide) turn
    rw [← LockNode.serving, turn]
    refine delivered.work seated own turn (by decide) (fun _ _ => rfl) rfl rfl rfl rfl rfl rfl rfl (fun _ _ => rfl)
      (fun _ _ => rfl) ?_ ?_
    · intro b
      split_ifs <;> simp
    · by_cases some' : 0 < waiters (d'.node a).ticketLock
      · rw [if_pos some']
        rw [waiters_pos ahead, turn] at some'
        exact ⟨marked, count, some'⟩
      · rw [if_neg some']
        exact marked
  | @decide a k count caller =>
    cases performed
    have turn := seated.turn _ _ _ _ own rfl
    obtain ⟨marked, counted, more⟩ := delivered.sees seated own (by decide) turn
    refine delivered.work seated own turn (by decide) (fun _ _ => rfl) rfl rfl rfl rfl rfl rfl rfl (fun _ _ => rfl)
      (fun _ _ => rfl) ?_ ?_
    · intro b
      split_ifs <;> simp
    · split_ifs with low
      · exact ⟨marked, counted, more, counted ▸ low⟩
      · exact marked
  | @hand a k caller r =>
    cases performed
    have turn := seated.turn _ _ _ _ own rfl
    obtain ⟨marked, count, more, low⟩ := delivered.sees seated own (by decide) turn
    have slot : (k + 1) % 2 ^ 32 = k + 1 := Nat.mod_eq_of_lt (more.trans (LockNode.next_lt _))
    exact delivered.store seated own turn (by decide) rfl rfl rfl rfl rfl rfl rfl (fun _ _ => rfl) (fun _ _ => rfl) (by simp)
      ⟨marked.set _ (by rw [slot]), count, more, low⟩
  | @count a k caller r =>
    cases performed
    have turn := seated.turn _ _ _ _ own rfl
    obtain ⟨marked, count, more, low⟩ := delivered.sees seated own (by decide) turn
    obtain ⟨-, known⟩ := seated.busy _ _ _ _ own
    obtain ⟨-, ticket⟩ := known (by simp)
    refine delivered.store seated own turn (by decide) rfl rfl rfl rfl rfl rfl rfl (fun _ other => put_other other) ?_ (by simp) ?_
    · intro j less
      exact put_apart ticket less
    · have next : streak (put d.decided (getLockIndex a) (d.ticket t) true (getLockIndex a))
        (k + 1) = streak (d.decided (getLockIndex a)) k + 1 := by
        rw [streak, if_pos (put_here ticket), streak_congr (fun j less => put_apart ticket less) le_rfl]
      refine ⟨marked, ?_, more, ?_, put_here ticket⟩
      · refine Eq.trans ?_ next.symm
        rw [← count]
        exact Nat.mod_eq_of_lt (counted_room (count.trans_lt low))
      · exact next.trans_le low
  | pass =>
    cases performed
    have turn := seated.turn _ _ _ _ own rfl
    obtain ⟨marked, count, more, low, decision⟩ := delivered.sees seated own (by decide) turn
    exact delivered.leave seated own rfl rfl marked count low decision fun _ => more
  | @reset a k caller r =>
    cases performed
    have turn := seated.turn _ _ _ _ own rfl
    have marked := delivered.sees seated own (by decide) turn
    obtain ⟨-, known⟩ := seated.busy _ _ _ _ own
    obtain ⟨-, ticket⟩ := known (by simp)
    refine delivered.store seated own turn (by decide) rfl rfl rfl rfl rfl rfl rfl (fun _ other => put_other other) ?_ (by simp) ?_
    · intro j less
      exact put_apart ticket less
    · refine ⟨marked, rfl, ?_⟩
      exact put_here ticket
  | depart =>
    cases performed
    have turn := seated.turn _ _ _ _ own rfl
    obtain ⟨marked, count, decision⟩ := delivered.sees seated own (by decide) turn
    have ended : streak (d.decided (getLockIndex _)) (_ + 1) = 0 := if_neg (by rw [decision]; decide)
    exact delivered.leave seated own rfl rfl marked (by rw [count, ended]) (by rw [ended]; exact Nat.zero_le _) decision (by simp)

theorem Delivered.invoke (delivered : Delivered gs d) {visit : Visit} {g : Turn} {pages : GlobalAddress → Prop}
    {loopBound : ℕ} (idle : gs t = .idle)
    (admitted : (lockManager loopBound pages).admits d t visit) (begins : turnMachine.begins t visit gs d g) :
    Delivered (Function.update gs t g) d := by
  have begun : ∃ a k m, g = .busy a k m ∧ (d.standing t = .away ∨ m = .called) ∧ ∀ b, m ≠ .left b := by
    cases visit with
    | acquire a => exact ⟨a, 0, .asking, begins, .inl admitted.2, by simp⟩
    | release a => exact ⟨a, d.ticket t, .called, begins, .inr rfl, by simp⟩
  obtain ⟨a, k, m, rfl, comes, stays⟩ := begun
  refine ⟨?_, delivered.rest, delivered.short, delivered.known, ?_, delivered.entered, delivered.order, delivered.inside,
    delivered.outside⟩
  · intro u b k' seat turn
    by_cases same : u = t
    · subst same
      have before := delivered.holder u b k' seat turn
      rw [idle] at before
      rw [Function.update_self]
      rcases comes with away | rfl
      · simp [Desk.seat, away] at seat
      · exact before
    · rw [Function.update_of_ne same]
      exact delivered.holder u b k' seat turn
  · intro u b k' r found
    rcases turn_cases found with ⟨rfl, eq⟩ | ⟨_, old⟩
    · cases eq
      exact absurd rfl (stays r)
    · exact delivered.gone u b k' r old

/-- A return of `acquire` is the newest entry of its node. -/
theorem Delivered.admit (delivered : Delivered gs d) (seated : Seated gs d) {r : Bool} {pages : GlobalAddress → Prop} {loopBound : ℕ}
    (own : gs t = .busy a k (.entered r)) :
    Delivered (Function.update gs t .idle) ((lockManager loopBound pages).returned t (.acquire a) r d) := by
  have turn := seated.turn t a k _ own rfl
  have seat := seated.seat_busy own (by simp [Moment.standing])
  obtain ⟨found, marked, count⟩ := delivered.sees seated own (by simp [Moment.standing]) turn
  obtain ⟨stood, known⟩ := seated.busy t a k _ own
  obtain ⟨rfl, rfl⟩ := known (by simp)
  -- nobody is inside yet
  have empty : ∀ u, d.standing u = .inside → getLockIndex (d.page u) ≠ getLockIndex (d.page t) := by
    intro u inside index
    have seat' : d.seat u = some (d.page u, d.ticket u) := by simp [Desk.seat, inside]
    obtain rfl := seated.alone seat turn seat' (seated.inside u inside) index
    rw [stood] at inside
    cases inside
  have length : (d.entries (getLockIndex (d.page t))).length = d.ticket t := (delivered.outside _ empty).trans turn
  set d' := (lockManager loopBound pages).returned t (.acquire (d.page t)) r d with returned
  have here : d'.entries (getLockIndex (d.page t)) = ⟨d.ticket t, d.page t, r, d.handedBy t⟩ :: d.entries
    (getLockIndex (d.page t)) :=
    Function.update_self _ _ _
  have elsewhere : ∀ i, i ≠ getLockIndex (d.page t) → d'.entries i = d.entries i := fun i other => Function.update_of_ne other _ _
  have standing : ∀ u, u ≠ t → d'.standing u = d.standing u := fun u other => Function.update_of_ne other _ _
  have seats : d'.seat = d.seat := by
    funext u
    by_cases same : u = t
    · subst same
      simp [Desk.seat, returned, lockManager, stood, Moment.standing]
    · simp only [Desk.seat, standing u same]
      rfl
  refine ⟨?_, delivered.rest, delivered.short, delivered.known, ?_, ?_, ?_, ?_, ?_⟩
  · intro u b k' seat' turn'
    rw [seats] at seat'
    by_cases same : u = t
    · subst same
      obtain ⟨rfl, rfl⟩ := Prod.mk.inj (Option.some.inj (seat.symm.trans seat'))
      rw [Function.update_self]
      exact ⟨marked, count⟩
    · rw [Function.update_of_ne same]
      exact delivered.holder u b k' seat' turn'
  · intro u b k' r' left
    rcases turn_cases left with ⟨rfl, eq⟩ | ⟨_, old⟩
    · cases eq
    · exact delivered.gone u b k' r' old
  · intro b e listed
    by_cases index : getLockIndex b = getLockIndex (d.page t)
    · have node : d'.node b = d.node (d.page t) := congrArg (d.state.nodes 0) index
      rw [index, here] at listed
      rw [node, index]
      rcases List.mem_cons.1 listed with rfl | old
      · exact ⟨turn.ge, found⟩
      · exact delivered.entered _ e old
    · rw [elsewhere _ index] at listed
      exact delivered.entered b e listed
  · intro b
    by_cases index : getLockIndex b = getLockIndex (d.page t)
    · have before := delivered.order (d.page t)
      rw [length] at before
      rw [index, here, List.map_cons, List.length_cons, length, List.range_succ, List.reverse_append, before]
      rfl
    · rw [elsewhere _ index]
      exact delivered.order b
  · intro u inside
    by_cases same : u = t
    · subst same
      change (d'.entries (getLockIndex (d.page u))).length = d.ticket u + 1
      rw [here, List.length_cons, length]
    · rw [standing u same] at inside
      change (d'.entries (getLockIndex (d.page u))).length = d.ticket u + 1
      rw [elsewhere _ (empty u inside)]
      exact delivered.inside u inside
  · intro b out
    have index : getLockIndex b ≠ getLockIndex (d.page t) := (out t (Function.update_self _ _ _)).symm
    rw [elsewhere _ index]
    refine delivered.outside b fun u inside => ?_
    have other : u ≠ t := by
      rintro rfl
      rw [stood] at inside
      cases inside
    rw [← standing u other] at inside
    exact out u inside

/-- A return of `release` is the decision it has made. -/
theorem Delivered.report (delivered : Delivered gs d) (seated : Seated gs d) {r : Bool} {pages : GlobalAddress → Prop}
    {loopBound : ℕ} (own : gs t = .busy a k (.left r)) :
    Delivered (Function.update gs t .idle) ((lockManager loopBound pages).returned t (.release a) r d) := by
  obtain ⟨stood, known⟩ := seated.busy t a k _ own
  obtain ⟨-, ticket⟩ := known (by simp)
  refine ⟨?_, delivered.rest, delivered.short, ?_, ?_, delivered.entered, delivered.order, delivered.inside, delivered.outside⟩
  · intro u b k' seat turn
    have other : u ≠ t := by
      rintro rfl
      have away : d.standing u = .away := stood
      change d.seat u = _ at seat
      simp [Desk.seat, away] at seat
    rw [Function.update_of_ne other]
    exact delivered.holder u b k' seat turn
  · intro b k' r' recorded
    change put d.outcomes (getLockIndex a) (d.ticket t) (some r) (getLockIndex b) k' = some r' at recorded
    rcases put_cases recorded with ⟨index, rfl, eq⟩ | ⟨-, old⟩
    · cases eq
      have node : d.node b = d.node a := congrArg (d.state.nodes 0) index
      change d.ticket t < (d.node b).serving ∧ d.decided (getLockIndex b) (d.ticket t) = r
      rw [node, index, ticket]
      exact delivered.gone t a k r own
    · exact delivered.known b k' r' old
  · intro u b k' r' left
    rcases turn_cases left with ⟨rfl, eq⟩ | ⟨_, old⟩
    · cases eq
    · exact delivered.gone u b k' r' old

theorem delivered_start : Delivered (fun _ => .idle) .start := by
  refine ⟨?_, ?_, ?_, ?_, ?_, ?_, ?_, ?_, ?_⟩
  all_goals simp [Desk.seat, Desk.start, Desk.node, initial, LockNode.serving, LockNode.next, Moment.Sees, Marked, pending, streak]

/-- Tickets are in order and handovers are delivered as long as the numbers of the tickets do not run out. -/
def InTurn (gs : ℕ → Turn) (d : Desk) : Prop := d.drawn < 2 ^ 32 → Seated gs d ∧ Delivered gs d

theorem preserves_inTurn {loopBound : ℕ} {pages : GlobalAddress → Prop} :
    Preserves (lockManager loopBound pages) turnMachine InTurn anything where
  invoke _ _ _ _ _ inTurn idle admitted begins few := by
    obtain ⟨seated, delivered⟩ := inTurn few
    exact ⟨seated.invoke idle admitted begins, delivered.invoke idle admitted begins⟩
  act _ _ _ _ _ _ _ _ inTurn performed _ permitted few := by
    obtain ⟨seated, delivered⟩ := inTurn (lt_of_le_of_lt (drawn_mono performed) few)
    exact ⟨seated.act few performed permitted, delivered.act seated few performed permitted⟩
  finish _ d t visit r inTurn ends := by
    cases visit with
    | acquire a =>
      intro few
      obtain ⟨seated, delivered⟩ := inTurn few
      refine ⟨seated.finish ends, ?_⟩
      obtain ⟨k, own⟩ := ends
      exact delivered.admit seated own
    | release a =>
      intro few
      obtain ⟨seated, delivered⟩ := inTurn few
      refine ⟨seated.finish ends, ?_⟩
      obtain ⟨k, own⟩ := ends
      exact delivered.report seated own
  env _ _ _ _ moved := moved.elim

end

/-! ## The next owner -/

/-- What the returns of `acquire` and `release` on a lock node have to do with each other. -/
structure InSequence (i : ℕ) (d : Desk) : Prop where
  tickets : (d.entries i).map Entry.ticket = (List.range (d.entries i).length).reverse
  first : ∀ e ∈ d.entries i, e.ticket = 0 → e.handedOver = false
  /-- The owner of the next ticket sees a handover exactly if the release before it returned one. -/
  next : ∀ e ∈ d.entries i, ∀ k b, e.ticket = k + 1 → d.outcomes i k = some b → (e.handedOver = true ↔ b = true)
  few : ∀ k, ∃ j ≤ kMaxHandOverTime, d.outcomes i (k + j) ≠ some true

section
variable {gs : ℕ → Turn} {d : Desk}

theorem Delivered.inSequence (delivered : Delivered gs d) (a : GlobalAddress) : InSequence (getLockIndex a) d := by
  constructor
  · exact delivered.order a
  · intro e listed zero
    rw [(delivered.entered a e listed).2, zero]
    rfl
  · intro e listed k b ticket outcome
    rw [(delivered.entered a e listed).2, ticket]
    change d.decided (getLockIndex a) k = true ↔ b = true
    rw [(delivered.known a k b outcome).2]
  · intro k
    by_contra none
    push Not at none
    -- the last of so many is already behind the ticket that is served
    have last := (delivered.known a _ _ (none kMaxHandOverTime le_rfl)).1
    have all : kMaxHandOverTime + 1 ≤ streak (d.decided (getLockIndex a)) (k + (kMaxHandOverTime + 1)) :=
      streak_true _ fun j less => (delivered.known a _ _ (none j (Nat.lt_succ_iff.1 less))).2
    have short := delivered.short a (k + (kMaxHandOverTime + 1)) last
    omega

end

section
variable {a b : GlobalAddress} {t : ℕ} {d : Desk}

def Desk.stores (d noted : Desk) (a : GlobalAddress) (n : LockNode) : Desk := { noted with state := d.state.setNode 0 a n }

theorem node_stores {noted : Desk} {n : LockNode} : (d.stores noted a n).node a = n := by
  change (d.state.setNode 0 a n).nodes 0 (getLockIndex a) = n
  rw [node_setNode, if_pos rfl]

section
variable {n : ℕ} {site : Site} {A : Type} {choices : List Unit}

theorem run_loadCount {f : ℕ → Lock A} : (loadCount site a >>= f).run (Desk.exec n) t (() :: choices) d =
    (f (d.node a).handoverCount).run (Desk.exec n) t choices d := rfl

theorem run_loadFlag {slot : ℕ} {f : Bool → Lock A} : (loadFlag site a slot >>= f).run (Desk.exec n) t (() :: choices) d =
    (f ((d.node a).handoverFlags slot)).run (Desk.exec n) t choices
    (d.note t (.loadFlag a slot) ((d.node a).handoverFlags slot)) := rfl

theorem run_storeFlag {slot : ℕ} {flag : Bool} {f : Unit → Lock A} :
    (storeFlag site a slot flag >>= f).run (Desk.exec n) t (() :: choices) d =
    (f ()).run (Desk.exec n) t choices (d.stores (d.note t (.storeFlag a slot flag) ()) a
      { d.node a with handoverFlags := Function.update (d.node a).handoverFlags slot flag }) := rfl

theorem run_addCount {f : Unit → Lock A} : (addCount site a >>= f).run (Desk.exec n) t (() :: choices) d =
    (f ()).run (Desk.exec n) t choices
    (d.stores (d.note t (.addCount a) ()) a { d.node a with handoverCount := ((d.node a).handoverCount + 1) % 2 ^ 8 }) := rfl

theorem run_advance {f : Unit → Lock A} : (advance site a >>= f).run (Desk.exec n) t (() :: choices) d =
    (f ()).run (Desk.exec n) t choices (d.stores (d.note t (.advance a) ()) a (d.node a).advanced) := rfl

end

/-- A `release` that hands over. -/
theorem run_release_handing (some' : 0 < waiters (d.node a).ticketLock) (few : (d.node a).handoverCount < kMaxHandOverTime) :
    ∃ d', (release .unlockAddress a).run (Desk.exec 1) t [(), (), (), (), ()] d = some (true, d') ∧
      (d'.node a).ticketLock = ((d.node a).ticketLock + 2 ^ 32) % 2 ^ 64 ∧
        (d'.node a).handoverFlags = Function.update (d.node a).handoverFlags
          (((d.node a).serving + 1) % 2 ^ 32 % kHandoverFlagSlots) true ∧
          d'.setBy = put d.setBy (getLockIndex a) (((d.node a).serving + 1) % 2 ^ 32 % kHandoverFlagSlots) (some a) ∧
            d'.ticket = d.ticket ∧ d'.drawn = d.drawn ∧ d'.outcomes = d.outcomes := by
  unfold release
  rw [run_loadTicket]
  unfold mayHandOver
  rw [if_pos some', bind_assoc, run_loadCount, pure_bind, if_pos (decide_eq_true few), run_storeFlag, run_addCount, run_advance]
  simp only [node_stores]
  refine ⟨_, rfl, ?_, ?_, rfl, rfl, rfl, rfl⟩
  · rw [node_stores, LockNode.advanced]
  · rw [node_stores, LockNode.advanced]
    rfl

/-- What `acquire` does once it has its ticket. -/
def enter (a : GlobalAddress) (k : ℕ) : Lock Bool := do
  awaitTurn a k 1
  let wasHandedOver ← loadFlag .acquire a (k % kHandoverFlagSlots)
  storeFlag .acquire a (k % kHandoverFlagSlots) false
  pure wasHandedOver

theorem run_enter {k : ℕ} (served : k = (d.node a).ticketLock / 2 ^ 32)
    (flag : (d.node a).handoverFlags (k % kHandoverFlagSlots) = true) :
    ∃ d', (enter a k).run (Desk.exec 1) t [(), (), ()] d = some (true, d') ∧
      d'.handedBy t = d.setBy (getLockIndex a) (k % kHandoverFlagSlots) ∧ d'.ticket = d.ticket ∧ d'.drawn = d.drawn ∧
        d'.outcomes = d.outcomes := by
  unfold enter
  have await : awaitTurn a k 1 = loadTicket .acquire a >>= fun v => if k = v / 2 ^ 32 then pure () else .stuck := rfl
  rw [await, bind_assoc, run_loadTicket, if_pos served, pure_bind, run_loadFlag, run_storeFlag, flag]
  refine ⟨_, rfl, ?_, rfl, rfl, rfl⟩
  change Function.update d.handedBy t _ t = _
  rw [Function.update_self, if_pos rfl]

variable {pages : GlobalAddress → Prop} {P : Pool signature ℕ Visit Bool Desk}

theorem reaches_release_handing (free : P.threads t = none) (inside : P.shared.standing t = .inside) (here : P.shared.page t = a)
    (some' : 0 < waiters (P.shared.node a).ticketLock) (few : (P.shared.node a).handoverCount < kMaxHandOverTime) :
    ∃ d, Reaches (lockManager 1 pages) anything P ⟨d, P.threads⟩ ∧
    (d.node a).ticketLock = ((P.shared.node a).ticketLock + 2 ^ 32) % 2 ^ 64 ∧
      (d.node a).handoverFlags (((P.shared.node a).serving + 1) % 2 ^ 32 % kHandoverFlagSlots) = true ∧
        d.setBy (getLockIndex a) (((P.shared.node a).serving + 1) % 2 ^ 32 % kHandoverFlagSlots) = some a ∧
          d.ticket = P.shared.ticket ∧ d.drawn = P.shared.drawn ∧ d.outcomes = put P.shared.outcomes (getLockIndex a)
            (P.shared.ticket t) (some true) := by
  obtain ⟨d, ran, lock, flags, setBy, ticket, drawn, outcomes⟩ := run_release_handing (t := t) some' few
  have goes : Reaches (lockManager 1 pages) anything P ⟨(lockManager 1 pages).returned t (.release a) true d, P.threads⟩ :=
    reaches_call free ⟨inside, here⟩ ran
  refine ⟨_, goes, lock, ?_, ?_, ticket, drawn, ?_⟩
  · exact (congrFun flags _).trans (Function.update_self _ _ _)
  · change d.setBy (getLockIndex a) _ = some a
    rw [setBy, put_self, Function.update_self]
  · change put d.outcomes (getLockIndex a) (d.ticket t) (some true) = _
    rw [outcomes, ticket]

theorem reaches_enter {k : ℕ} {done : List (Sigma signature.Reply)} (running : P.threads t = some ⟨.acquire a, enter a k, done⟩)
    (served : k = (P.shared.node a).ticketLock / 2 ^ 32) (flag : (P.shared.node a).handoverFlags (k % kHandoverFlagSlots) = true) :
    ∃ P', Reaches (lockManager 1 pages) anything P P' ∧ P'.shared.drawn = P.shared.drawn ∧ P'.shared.outcomes = P.shared.outcomes ∧
      ⟨P.shared.ticket t, a, true, P.shared.setBy (getLockIndex a) (k % kHandoverFlagSlots)⟩ ∈ P'.shared.entries
        (getLockIndex a) := by
  obtain ⟨d, ran, handedBy, ticket, drawn, outcomes⟩ := run_enter (t := t) served flag
  refine ⟨_, reaches_return running ran, drawn, outcomes, ?_⟩
  change _ ∈ Function.update d.entries (getLockIndex a) (⟨d.ticket t, a, true, d.handedBy t⟩ :: _) (getLockIndex a)
  rw [Function.update_self, handedBy, ticket]
  exact List.mem_cons_self

theorem reaches_handover (member : pages a) (member' : pages b) (index : getLockIndex b = getLockIndex a) :
    ∃ P : Pool signature ℕ Visit Bool Desk, Reaches (lockManager 1 pages) anything (.start .start) P ∧ P.shared.drawn = 2 ∧
      P.shared.outcomes (getLockIndex a) 0 = some true ∧ ⟨1, b, true, some a⟩ ∈ P.shared.entries (getLockIndex a) := by
  -- one thread hands a page over to another one that waits for a page of the same node
  have node : ∀ d : Desk, d.node b = d.node a := fun d => congrArg (d.state.nodes 0) index
  have served : (0 + 1) % 2 ^ 64 / 2 ^ 32 = 0 % 2 ^ 32 := by decide
  obtain ⟨d₁, enters, lock₁, standing₁, page₁, drawn₁, ticket₁, count₁⟩ :
    ∃ d, Reaches (lockManager 1 pages) anything (.start .start) ⟨d, fun _ => none⟩ ∧ _ :=
    reaches_acquire (a := a) (t := 0) (P := .start .start) rfl member rfl served
  have lock₁' : (d₁.node a).ticketLock = 1 := lock₁
  have count₁' : (d₁.node a).handoverCount = 0 := count₁
  -- the other thread draws its ticket
  have away : d₁.standing 1 = .away := by
    rw [standing₁]
    rfl
  have admitted : (lockManager 1 pages).admits d₁ 1 (.acquire b) := ⟨member', away⟩
  have opens : (lockManager 1 pages).body (.acquire b) = .perform ⟨.acquire, .takeTicket b⟩ fun (v : ℕ) =>
    enter b (v % 2 ^ 32) := rfl
  have performed : (lockManager 1 pages).exec 1 ⟨.acquire, .takeTicket b⟩ () d₁ = some ((d₁.node b).ticketLock, d₁.draws 1 b) := rfl
  have draws := enters.trans (reaches_opening (P := ⟨d₁, fun _ => none⟩) rfl admitted opens performed)
  rw [node, lock₁'] at draws
  obtain ⟨Q, shared, idle, running, reached⟩ : ∃ Q : Pool signature ℕ Visit Bool Desk, Q.shared = d₁.draws 1 b ∧ Q.threads 0 = none ∧
      Q.threads 1 = some ⟨.acquire b, enter b 1, [⟨⟨.acquire, .takeTicket b⟩, (1 : ℕ)⟩]⟩ ∧
        Reaches (lockManager 1 pages) anything (.start .start) Q :=
    ⟨_, rfl, rfl, rfl, draws⟩
  have lock : (Q.shared.node a).ticketLock = 2 := by
    rw [shared, ← node, node_self, LockNode.drawn, node, lock₁']
    exact (by decide : (1 + 1) % 2 ^ 64 = 2)
  have count : (Q.shared.node a).handoverCount = 0 := by
    rw [shared, ← node, node_self, LockNode.drawn, node, count₁']
  have inside : Q.shared.standing 0 = .inside := by
    rw [shared]
    change Function.update d₁.standing 1 .waiting 0 = .inside
    rw [Function.update_of_ne (by decide), standing₁]
    rfl
  have here : Q.shared.page 0 = a := by
    rw [shared]
    change Function.update d₁.page 1 b 0 = a
    rw [Function.update_of_ne (by decide), page₁]
    rfl
  have tickets : Q.shared.ticket 0 = 0 ∧ Q.shared.ticket 1 = 1 := by
    rw [shared]
    change Function.update d₁.ticket 1 ((d₁.node b).ticketLock % 2 ^ 32) 0 = 0 ∧
      Function.update d₁.ticket 1 ((d₁.node b).ticketLock % 2 ^ 32) 1 = 1
    rw [Function.update_of_ne (by decide), Function.update_self, ticket₁, node, lock₁']
    exact ⟨rfl, by decide⟩
  -- the first one hands over
  obtain ⟨d₂, leaves, lock₂, flags₂, setBy₂, ticket₂, drawn₂, outcomes₂⟩ :
    ∃ d, Reaches (lockManager 1 pages) anything Q ⟨d, Q.threads⟩ ∧ _ :=
    reaches_release_handing idle inside here (by rw [lock]; decide) (by rw [count]; decide)
  have slot : ((Q.shared.node a).serving + 1) % 2 ^ 32 % kHandoverFlagSlots = 1 % kHandoverFlagSlots := by
    rw [LockNode.serving, lock]
    decide
  rw [slot] at flags₂ setBy₂
  have turn : 1 = (d₂.node b).ticketLock / 2 ^ 32 := by
    rw [node, lock₂, lock]
    decide
  have flag : (d₂.node b).handoverFlags (1 % kHandoverFlagSlots) = true := by
    rw [node]
    exact flags₂
  obtain ⟨P, finishes, drawn, outcomes, listed⟩ : ∃ P, Reaches (lockManager 1 pages) anything ⟨d₂, Q.threads⟩ P ∧ _ :=
    reaches_enter running turn flag
  refine ⟨P, (reached.trans leaves).trans finishes, ?_, ?_, ?_⟩
  · rw [drawn, drawn₂, shared]
    exact congrArg (· + 1) drawn₁
  · rw [outcomes, outcomes₂, put_self, tickets.1, Function.update_self]
  · rw [index, setBy₂, ticket₂, tickets.2] at listed
    exact listed

end

/-- On a lock node with fewer than 2^32 acquisitions a handover reaches exactly the next owner, and not more than
`kMaxHandOverTime` follow each other. -/
theorem handover_next {loopBound : ℕ} {a : GlobalAddress} {P : Pool signature ℕ Visit Bool Desk}
    (run : Reaches (lockManager loopBound (nodePages a)) anything (.start .start) P) (few : P.shared.drawn < 2 ^ 32) :
    InSequence (getLockIndex a) P.shared := by
  obtain ⟨gs, explains⟩ := (explains_start (M := turnMachine) fun _ => ⟨seated_start, delivered_start⟩).reaches
    implements_turns preserves_inTurn run
  exact (explains.holds few).2.inSequence a

/-- One thread hands over to another one. -/
theorem handover_next_two : ∃ P : Pool signature ℕ Visit Bool Desk, Reaches (lockManager 1 (nodePages ⟨1024⟩)) anything
    (.start .start) P ∧
    P.shared.drawn = 2 ∧ P.shared.outcomes (getLockIndex ⟨1024⟩) 0 = some true ∧
      (∃ e ∈ P.shared.entries (getLockIndex ⟨1024⟩), e.ticket = 1 ∧ e.handedOver = true) ∧
        InSequence (getLockIndex ⟨1024⟩) P.shared := by
  obtain ⟨P, run, drawn, outcome, listed⟩ : ∃ P, Reaches (lockManager 1 (nodePages ⟨1024⟩)) anything (.start .start) P ∧ _ :=
    reaches_handover (a := ⟨1024⟩) rfl rfl rfl
  exact ⟨P, run, drawn, outcome, ⟨_, listed, rfl, rfl⟩, handover_next run (by omega)⟩

end Faunus.Sherman.Locks
