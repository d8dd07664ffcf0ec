import Faunus.Rdma.Regions
import Faunus.Sherman.Handover

/-! Handovers from one page to another.

Lock nodes are chosen by the offset of a page modulo their number, so pages can share one.
The flag of a ticket says that some page of the node was handed over, not which one.
-/

set_option autoImplicit false

namespace Faunus.Sherman.Locks

open Interleaving

/-- Every handover comes from a page of the set on the same lock node. -/
structure Attributed (pages : GlobalAddress → Prop) (gs : ℕ → Turn) (d : Desk) : Prop where
  setBy : ∀ i slot b, d.setBy i slot = some b → pages b ∧ getLockIndex b = i
  flags : ∀ i slot, (d.state.nodes 0 i).handoverFlags slot = true → ∃ b, d.setBy i slot = some b
  busy : ∀ t a k m, gs t = .busy a k m → pages a ∧ (m ≠ .asking → d.page t = a)
  inside : ∀ t, d.standing t = .inside → pages (d.page t)
  handed : ∀ t a k m, gs t = .busy a k m → m = .flagged true ∨ m = .entered true →
    ∃ b, d.handedBy t = some b ∧ pages b ∧ getLockIndex b = getLockIndex a
  entries : ∀ i, ∀ e ∈ d.entries i, e.handedOver = true → pages e.page ∧ ∃ b, e.handedBy = some b ∧ pages b ∧
    getLockIndex b = getLockIndex e.page

section
variable {pages : GlobalAddress → Prop} {gs : ℕ → Turn} {d d' : Desk} {t : ℕ} {a : GlobalAddress} {k k' : ℕ} {m m' : Moment}

theorem Attributed.step (attributed : Attributed pages gs d) (own : gs t = .busy a k m)
    (setBy : ∀ i slot b, d'.setBy i slot = some b → pages b ∧ getLockIndex b = i)
    (flags : ∀ i slot, (d'.state.nodes 0 i).handoverFlags slot = true → ∃ b, d'.setBy i slot = some b)
    (page : ∀ u, u ≠ t → d'.page u = d.page u) (here : d'.page t = a)
    (standing : ∀ u, d'.standing u = .inside → d.standing u = .inside)
    (handedBy : ∀ u, u ≠ t → d'.handedBy u = d.handedBy u)
    (handed : m' = .flagged true ∨ m' = .entered true → ∃ b, d'.handedBy t = some b ∧ pages b ∧ getLockIndex b = getLockIndex a)
    (entries : d'.entries = d.entries) : Attributed pages (Function.update gs t (.busy a k' m')) d' := by
  -- an operation that tells no other thread about another page
  have member : pages a := (attributed.busy t a k m own).1
  refine ⟨setBy, flags, ?_, ?_, ?_, ?_⟩
  · intro u b l n found
    rcases turn_cases found with ⟨rfl, eq⟩ | ⟨other, old⟩
    · cases eq
      exact ⟨member, fun _ => here⟩
    · rw [page u other]
      exact attributed.busy u b l n old
  · intro u inside
    by_cases same : u = t
    · subst same
      rw [here]
      exact member
    · rw [page u same]
      exact attributed.inside u (standing u inside)
  · intro u b l n found flagged
    rcases turn_cases found with ⟨rfl, eq⟩ | ⟨other, old⟩
    · cases eq
      exact handed flagged
    · rw [handedBy u other]
      exact attributed.handed u b l n old flagged
  · rw [entries]
    exact attributed.entries

theorem Attributed.quiet (attributed : Attributed pages gs d) (own : gs t = .busy a k m) (asked : m ≠ .asking)
    (setBy : d'.setBy = d.setBy) (flags : ∀ i, (d'.state.nodes 0 i).handoverFlags = (d.state.nodes 0 i).handoverFlags)
    (page : d'.page = d.page) (standing : ∀ u, d'.standing u = .inside → d.standing u = .inside)
    (handedBy : d'.handedBy = d.handedBy)
    (unflagged : m' ≠ .flagged true ∧ m' ≠ .entered true) (entries : d'.entries = d.entries) :
    Attributed pages (Function.update gs t (.busy a k' m')) d' := by
  refine attributed.step own ?_ ?_ (fun u _ => by rw [page]) ?_ standing (fun u _ => by rw [handedBy]) ?_ entries
  · rw [setBy]
    exact attributed.setBy
  · intro i slot
    rw [setBy, flags]
    exact attributed.flags i slot
  · rw [page]
    exact (attributed.busy t a k m own).2 asked
  · rintro (flagged | entered)
    · exact absurd flagged unflagged.1
    · exact absurd entered unflagged.2

theorem flags_setNode {n : LockNode} (same : n.handoverFlags = (d.node a).handoverFlags) (i : ℕ) :
    ((d.state.setNode 0 a n).nodes 0 i).handoverFlags = (d.state.nodes 0 i).handoverFlags := by
  rw [nodes_setNode]
  split_ifs with here
  · rw [same, here.2]
    rfl
  · rfl

theorem flag_stored {slot i j : ℕ} {flag : Bool} (set : ((d.state.setNode 0 a
    { d.node a with handoverFlags := Function.update (d.node a).handoverFlags slot flag }).nodes 0 i).handoverFlags j = true) :
    i = getLockIndex a ∧ j = slot ∧ flag = true ∨ (d.state.nodes 0 i).handoverFlags j = true := by
  rw [nodes_setNode] at set
  split_ifs at set with here
  · obtain ⟨-, rfl⟩ := here
    change Function.update (d.node a).handoverFlags slot flag j = true at set
    by_cases same : j = slot
    · subst same
      rw [Function.update_self] at set
      exact .inl ⟨rfl, rfl, set⟩
    · rw [Function.update_of_ne same] at set
      exact .inr set
  · exact .inr set

theorem still_inside {standing : ℕ → Standing} {place : Standing} (other : place ≠ .inside) (u : ℕ)
    (inside : Function.update standing t place u = .inside) :
    standing u = .inside := by
  by_cases same : u = t
  · subst same
    rw [Function.update_self] at inside
    exact absurd inside other
  · rwa [Function.update_of_ne same] at inside

theorem Attributed.act {loopBound : ℕ} {o : Op} {c : Unit} {r : o.act.Reply} {g : Turn} (attributed : Attributed pages gs d)
    (performed : Desk.exec loopBound t o c d = some (r, d')) (permitted : Proceeds (gs t) o r g) :
    Attributed pages (Function.update gs t g) d' := by
  generalize own : gs t = g₀ at permitted
  cases permitted with
  | @draw a k v =>
    cases performed
    refine attributed.step own attributed.setBy ?_ ?_ (Function.update_self _ _ _) ?_ (fun _ _ => rfl) (by simp) rfl
    · intro i slot set
      have same := congrFun (flags_setNode (n := (d.node a).drawn a) (by rw [LockNode.drawn]) i) slot
      exact attributed.flags i slot (same.symm.trans set)
    · intro u other
      exact Function.update_of_ne other _ _
    · exact still_inside (by simp)
  | spin _ =>
    cases performed
    exact attributed.quiet own (by simp) rfl (fun _ => rfl) rfl (fun _ same => same) rfl (by simp) rfl
  | turn _ =>
    cases performed
    exact attributed.quiet own (by simp) rfl (fun _ => rfl) rfl (fun _ same => same) rfl (by simp) rfl
  | @flag a k b =>
    cases performed
    refine attributed.step own attributed.setBy attributed.flags (fun _ _ => rfl) ?_ (fun _ same => same) ?_ ?_ rfl
    · exact (attributed.busy t a k _ own).2 (by simp)
    · intro u other
      exact Function.update_of_ne other _ _
    · intro flagged
      have loaded : (d.node a).handoverFlags (k % kHandoverFlagSlots) = true := by
        rcases flagged with eq | eq
        · exact Moment.flagged.inj eq
        · cases eq
      -- whoever set the flag is on record
      obtain ⟨b, set⟩ := attributed.flags _ _ loaded
      obtain ⟨member, index⟩ := attributed.setBy _ _ _ set
      refine ⟨b, ?_, member, index⟩
      exact (Function.update_self _ _ _).trans ((if_pos loaded).trans set)
  | @enter a k b r =>
    cases performed
    refine attributed.step own attributed.setBy ?_ (fun _ _ => rfl) ?_ (fun _ same => same) (fun _ _ => rfl) ?_ rfl
    · intro i slot set
      rcases flag_stored set with ⟨-, -, cleared⟩ | old
      · cases cleared
      · exact attributed.flags i slot old
    · exact (attributed.busy t a k _ own).2 (by simp)
    · intro entered
      refine attributed.handed t a k _ own (.inl ?_)
      simpa using entered
  | weigh =>
    obtain ⟨rfl, rfl⟩ := exec_loadTicket performed
    exact attributed.quiet own (by simp) rfl (fun _ => rfl) rfl (fun _ same => same) rfl (by split_ifs <;> simp) rfl
  | decide =>
    cases performed
    exact attributed.quiet own (by simp) rfl (fun _ => rfl) rfl (fun _ same => same) rfl (by split_ifs <;> simp) rfl
  | @hand a k caller r =>
    cases performed
    obtain ⟨member, here⟩ := attributed.busy t a k _ own
    refine attributed.step own ?_ ?_ (fun _ _ => rfl) (here (by simp)) (fun _ same => same) (fun _ _ => rfl) (by simp) rfl
    · intro i slot b set
      rcases put_cases set with ⟨rfl, -, eq⟩ | ⟨-, old⟩
      · cases eq
        exact ⟨member, rfl⟩
      · exact attributed.setBy i slot b old
    · intro i slot set
      -- the flag is the new one, or it was set before
      rcases flag_stored set with ⟨rfl, rfl, -⟩ | old
      · exact ⟨a, put_here rfl⟩
      · obtain ⟨b, before⟩ := attributed.flags i slot old
        rcases put_cases (rfl : put d.setBy (getLockIndex a) _ (some a) i slot = _) with ⟨-, -, eq⟩ | ⟨-, kept⟩
        · exact ⟨a, eq⟩
        · exact ⟨b, kept.symm.trans before⟩
  | count =>
    cases performed
    exact attributed.quiet own (by simp) rfl (flags_setNode rfl) rfl (fun _ same => same) rfl (by simp) rfl
  | pass =>
    cases performed
    exact attributed.quiet own (by simp) rfl (flags_setNode rfl) rfl (still_inside (by simp)) rfl (by simp) rfl
  | reset =>
    cases performed
    exact attributed.quiet own (by simp) rfl (flags_setNode rfl) rfl (fun _ same => same) rfl (by simp) rfl
  | depart =>
    cases performed
    exact attributed.quiet own (by simp) rfl (flags_setNode rfl) rfl (still_inside (by simp)) rfl (by simp) rfl

theorem Attributed.invoke (attributed : Attributed pages gs d) {visit : Visit} {g : Turn} {loopBound : ℕ}
    (admitted : (lockManager loopBound pages).admits d t visit) (begins : turnMachine.begins t visit gs d g) :
    Attributed pages (Function.update gs t g) d := by
  have begun : ∃ a k m, g = .busy a k m ∧ pages a ∧ (m ≠ .asking → d.page t = a) ∧ ¬ (m = .flagged true ∨ m = .entered true) := by
    cases visit with
    | acquire a => exact ⟨a, 0, .asking, begins, admitted.1, fun asked => absurd rfl asked, by simp⟩
    | release a =>
      have here : d.page t = a := admitted.2
      refine ⟨a, d.ticket t, .called, begins, ?_, fun _ => here, by simp⟩
      rw [← here]
      exact attributed.inside t admitted.1
  obtain ⟨a, k, m, rfl, member, here, unflagged⟩ := begun
  refine ⟨attributed.setBy, attributed.flags, ?_, attributed.inside, ?_, attributed.entries⟩
  · intro u b l n found
    rcases turn_cases found with ⟨rfl, eq⟩ | ⟨_, old⟩
    · cases eq
      exact ⟨member, here⟩
    · exact attributed.busy u b l n old
  · intro u b l n found flagged
    rcases turn_cases found with ⟨rfl, eq⟩ | ⟨_, old⟩
    · cases eq
      exact absurd flagged unflagged
    · exact attributed.handed u b l n old flagged

theorem Attributed.finish (attributed : Attributed pages gs d) {visit : Visit} {r : Bool} {loopBound : ℕ}
    (ends : turnMachine.ends t visit r (gs t)) : Attributed pages (Function.update gs t .idle)
    ((lockManager loopBound pages).returned t visit r d) := by
  have busy : ∀ u b l n, Function.update gs t .idle u = .busy b l n → gs u = .busy b l n := by
    intro u b l n found
    rcases turn_cases found with ⟨-, eq⟩ | ⟨_, old⟩
    · cases eq
    · exact old
  cases visit with
  | acquire a =>
    obtain ⟨k, own⟩ := ends
    obtain ⟨member, here⟩ := attributed.busy t a k _ own
    refine ⟨attributed.setBy, attributed.flags, fun u b l n found => attributed.busy u b l n (busy u b l n found), ?_,
      fun u b l n found => attributed.handed u b l n (busy u b l n found), ?_⟩
    · intro u inside
      by_cases same : u = t
      · subst same
        change pages (d.page u)
        rw [here (by simp)]
        exact member
      · change Function.update d.standing t .inside u = .inside at inside
        rw [Function.update_of_ne same] at inside
        exact attributed.inside u inside
    · intro i e listed handedOver
      change e ∈ Function.update d.entries (getLockIndex a)
        (⟨d.ticket t, a, r, d.handedBy t⟩ :: d.entries (getLockIndex a)) i at listed
      by_cases index : i = getLockIndex a
      · subst index
        rw [Function.update_self] at listed
        rcases List.mem_cons.1 listed with rfl | old
        · obtain rfl : r = true := handedOver
          exact ⟨member, attributed.handed t a k _ own (.inr rfl)⟩
        · exact attributed.entries _ e old handedOver
      · rw [Function.update_of_ne index] at listed
        exact attributed.entries i e listed handedOver
  | release a =>
    exact ⟨attributed.setBy, attributed.flags, fun u b l n found => attributed.busy u b l n (busy u b l n found), attributed.inside,
      fun u b l n found => attributed.handed u b l n (busy u b l n found), attributed.entries⟩

theorem attributed_start : Attributed pages (fun _ => .idle) .start := by
  refine ⟨?_, ?_, ?_, ?_, ?_, ?_⟩
  all_goals simp [Desk.start, initial]

theorem preserves_attributed {loopBound : ℕ} : Preserves (lockManager loopBound pages) turnMachine (Attributed pages) anything where
  invoke _ _ _ _ _ attributed _ admitted begins := attributed.invoke admitted begins
  act _ _ _ _ _ _ _ _ attributed performed _ permitted := attributed.act performed permitted
  finish _ _ _ _ _ attributed ends := attributed.finish ends
  env _ _ _ _ moved := moved.elim

end

/-- Whenever `acquire` returned a handover, it came from a release of the same page. -/
def OnOnePage (d : Desk) : Prop := ∀ i, ∀ e ∈ d.entries i, e.handedOver = true → e.handedBy = some e.page

/-- Handovers stay on one page, in every interleaving, if and only if no two pages of the set share a lock node. -/
theorem handover_one_page (pages : GlobalAddress → Prop) :
    (∀ (loopBound : ℕ) (P : Pool signature ℕ Visit Bool Desk), Reaches (lockManager loopBound pages) anything (.start .start)
      P → OnOnePage P.shared) ↔
      ∀ a b, pages a → pages b → getLockIndex a = getLockIndex b → a = b := by
  constructor
  · intro stays a b member member' index
    obtain ⟨P, run, -, -, listed⟩ := reaches_handover member member' index.symm
    exact Option.some.inj (stays 1 P run _ _ listed rfl)
  · intro apart loopBound P run i e listed handedOver
    obtain ⟨gs, explains⟩ := (explains_start (M := turnMachine) attributed_start).reaches implements_turns preserves_attributed run
    obtain ⟨member, b, handedBy, member', index⟩ := explains.holds.entries i e listed handedOver
    rw [handedBy, apart b e.page member' member index]

/-- The pages of 1024 bytes that are allocated. -/
def allocatedPages (h : Allocation.Heap) (a : GlobalAddress) : Prop := (1024, a.raw.toNat) ∈ h.live

/-- A client takes the last and the first of 33 pages of one server. -/
def twoPages : Pool Allocation.signature ℕ Allocation.Call (Option ℕ) Allocation.Heap :=
  (Pool.start .empty).drive (Allocation.allocators 1) (fun h _ call => call.admitted h) freely
    (List.flatten [Move.whole 0 (.construct 0 [1024] 33) 0 37, Move.whole 0 (.allocate 0 1024) 0 2,
      Move.whole 0 (.allocate 0 1024) 31 2])

theorem handover_crosses_pages : ¬ ∀ (servers : ℕ) (H : Pool Allocation.signature ℕ Allocation.Call (Option ℕ) Allocation.Heap),
    Reaches (Allocation.allocators servers) anything (.start .empty) H → ∀ (loopBound : ℕ) (P : Pool signature ℕ Visit Bool Desk),
      Reaches (lockManager loopBound (allocatedPages H.shared)) anything (.start .start) P → OnOnePage P.shared := by
  intro claimed
  have allocates : Reaches (Allocation.allocators 1) anything (.start .empty) twoPages :=
    reaches_drive (fun _ _ _ ok => ok) (fun _ _ _ _ _ => trivial) _ _
  have live : twoPages.shared.live = [(1024, 0), (1024, 32768)] := by rfl
  obtain ⟨P, run, -, -, listed⟩ : ∃ P, Reaches (lockManager 1 (allocatedPages twoPages.shared)) anything (.start .start) P ∧ _ :=
    reaches_handover (a := ⟨0⟩) (b := ⟨32768⟩) (by rw [allocatedPages, live]; simp) (by rw [allocatedPages, live]; simp) (by decide)
  have crossed := claimed 1 twoPages allocates 1 P run _ _ listed rfl
  simp at crossed

end Faunus.Sherman.Locks
