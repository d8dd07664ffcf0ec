import Faunus.Index.Maintenance
import Faunus.Index.System
import Faunus.Interleaving.Census

/-! Every request is resolved once, and every worker stops.

Requests wait in the queue of their leaf, are in the hands of one worker, or have a
result. Each worker takes one stop and no more, so there are enough for all of them.
-/

set_option autoImplicit false

namespace Faunus.Maintenance

open Interleaving

/-! ## The books -/

/-- Where the requests and the stops are. -/
structure Books (cfg : Config) (gs : ℕ → Role) (s : State) : Prop where
  roles : ∀ t, gs t = roleOf cfg t s.history
  kept : ∀ q wanted, s.enqueued q wanted = s.waiting q wanted + s.taken q wanted
  home : ∀ q, ∀ rpc ∈ s.queues q, rpc = stopRpc ∨ rpc.op = .split ∧ queueIdx cfg rpc.leafAddress = q
  own : ∀ t q leaf, gs t = .splitting q leaf → queueIdx cfg leaf = q
  asked : 0 < cfg.queues → ∀ leaf, ∃ n, Census gs (fun g => g.asked = some leaf) n ∧
    s.calls (.request leaf) = n + s.enqueued (queueIdx cfg leaf) (Rpc.isSplit leaf)
  busy : ∀ leaf, ∃ n, Census gs (fun g => g.item = some leaf) n ∧ s.taken (queueIdx cfg leaf)
    (Rpc.isSplit leaf) = n + s.resolved leaf
  duty : ∀ q < cfg.queues, ∃ n, Census gs (fun g => g.station = some q) n ∧ s.calls (.work q) = n + s.taken q Rpc.isStop
  sent : ∀ t q, (gs t).sent q ≤ s.enqueued q Rpc.isStop
  finalized : ∀ t n result, .returned t (.finalize n) result ∈ s.history → ∀ q < cfg.queues, n ≤ s.enqueued q Rpc.isStop

section
variable {cfg : Config} {gs : ℕ → Role} {s s' : State} {t q : ℕ} {o : Act} {c : Choice} {r : o.Reply} {g : Role}
    {wanted : Rpc → Bool}

theorem exec_history (performed : State.exec t o c s = some (r, s')) : s'.history = .performed t ⟨o, r⟩ :: s.history := by
  cases o with
  | tryDequeue q =>
    obtain ⟨_, _, same⟩ := Option.map_eq_some_iff.1 performed
    cases same
    rfl
  | _ =>
    cases performed
    rfl

theorem exec_enqueue {rpc : Rpc} {u : Unit} (performed : State.exec t (.enqueue q rpc) c s = some (u, s')) :
    s'.queues = Function.update s.queues q (s.queues q ++ [rpc]) := by
  cases performed
  rfl

theorem exec_tryDequeue {found : Option Rpc} (performed : State.exec t (.tryDequeue q) c s = some (found, s')) :
    found = none ∧ s'.queues = s.queues ∨
      ∃ rpc rest, found = some rpc ∧ (s.queues q).Perm (rpc :: rest) ∧ s'.queues = Function.update s.queues q rest := by
  obtain ⟨⟨reply, queue⟩, took, same⟩ := Option.map_eq_some_iff.1 performed
  cases same
  cases c with
  | take i =>
    obtain ⟨rpc, here, got⟩ := Option.map_eq_some_iff.1 took
    cases got
    obtain ⟨bound, rfl⟩ := List.getElem?_eq_some_iff.1 here
    exact .inr ⟨_, _, rfl, (List.getElem_cons_eraseIdx_perm bound).symm, rfl⟩
  | _ =>
    cases took
    exact .inl ⟨rfl, Function.update_eq_self ..⟩

section Counts
variable {e : Event} (history : s'.history = e :: s.history)
include history

theorem calls_cons (call : Call) : s'.calls call = s.calls call + if e.isInvoked call then 1 else 0 := by
  rw [State.calls, history, List.countP_cons]
  rfl

theorem enqueued_cons (q : ℕ) (wanted : Rpc → Bool) :
    s'.enqueued q wanted = s.enqueued q wanted + if e.isEnqueue q wanted then 1 else 0 := by
  rw [State.enqueued, history, List.countP_cons]
  rfl

theorem taken_cons (q : ℕ) (wanted : Rpc → Bool) : s'.taken q wanted = s.taken q wanted + if e.isTaken q wanted then 1 else 0 := by
  rw [State.taken, history, List.countP_cons]
  rfl

theorem resolved_cons (leaf : GlobalAddress) : s'.resolved leaf = s.resolved leaf + if e.isResult leaf then 1 else 0 := by
  rw [State.resolved, history, List.countP_cons]
  rfl

end Counts

theorem enqueued_le (performed : State.exec t o c s = some (r, s')) (q : ℕ) (wanted : Rpc → Bool) :
    s.enqueued q wanted ≤ s'.enqueued q wanted := by
  rw [enqueued_cons (exec_history performed)]
  exact Nat.le_add_right _ _

theorem exec_waiting (performed : State.exec t o c s = some (r, s')) (q : ℕ) (wanted : Rpc → Bool) :
    s.waiting q wanted + (if (Event.performed t ⟨o, r⟩).isEnqueue q wanted then 1 else 0) =
      s'.waiting q wanted + if (Event.performed t ⟨o, r⟩).isTaken q wanted then 1 else 0 := by
  -- what waits after an operation
  unfold State.waiting
  cases o with
  | enqueue q' rpc =>
    rw [exec_enqueue performed]
    by_cases here : q' = q
    · subst here
      simp [Event.isEnqueue, Event.isTaken, List.countP_cons]
    · rw [Function.update_of_ne (Ne.symm here)]
      simp [Event.isEnqueue, Event.isTaken, here]
  | tryDequeue q' =>
    rcases exec_tryDequeue performed with ⟨rfl, queues⟩ | ⟨rpc, rest, rfl, perm, queues⟩
    · rw [queues]
      simp [Event.isEnqueue, Event.isTaken]
    · rw [queues]
      by_cases here : q' = q
      · subst here
        rw [perm.countP_eq, Function.update_self, List.countP_cons]
        simp [Event.isEnqueue, Event.isTaken]
      · rw [Function.update_of_ne (Ne.symm here)]
        simp [Event.isEnqueue, Event.isTaken, here]
  | splitLeaf leaf =>
    cases performed
    rfl
  | setResult rpc result =>
    cases performed
    rfl

theorem kept_act (kept : ∀ q wanted, s.enqueued q wanted = s.waiting q wanted + s.taken q wanted)
    (performed : State.exec t o c s = some (r, s')) (q : ℕ) (wanted : Rpc → Bool) :
    s'.enqueued q wanted = s'.waiting q wanted + s'.taken q wanted := by
  have history := exec_history performed
  have waiting := exec_waiting performed q wanted
  rw [enqueued_cons history, taken_cons history, kept]
  omega

theorem Books.taken (books : Books cfg gs s) {rpc : Rpc}
    (performed : State.exec t (.tryDequeue q) c s = some ((some rpc : Option Rpc), s'))
    (other : rpc.op ≠ .stop) : rpc.op = .split ∧ queueIdx cfg rpc.leafAddress = q := by
  rcases exec_tryDequeue performed with ⟨none, -⟩ | ⟨first, rest, same, perm, -⟩
  · cases none
  · cases same
    rcases books.home q rpc (perm.mem_iff.2 List.mem_cons_self) with rfl | split
    · exact absurd rfl other
    · exact split

section Acts
variable (books : Books cfg gs s) (performed : State.exec t o c s = some (r, s')) (permitted : Permits cfg (gs t) o r g)
include books performed permitted

theorem Books.roles_act : ∀ u, Function.update gs t g u = roleOf cfg u s'.history := by
  rw [exec_history performed]
  apply (Function.forall_update_iff gs fun u g => g = roleOf cfg u (.performed t ⟨o, r⟩ :: s.history)).2
  constructor
  · rw [roleOf, if_pos rfl, ← books.roles, permitted.next]
  · intro u other
    rw [roleOf, if_neg (Ne.symm other), books.roles]

theorem Books.home_act (q : ℕ) : ∀ rpc ∈ s'.queues q, rpc = stopRpc ∨ rpc.op = .split ∧ queueIdx cfg rpc.leafAddress = q := by
  generalize gs t = role at permitted
  intro rpc inside
  cases o with
  | enqueue q' new =>
    rw [exec_enqueue performed] at inside
    by_cases here : q = q'
    · subst here
      rw [Function.update_self, List.mem_append, List.mem_singleton] at inside
      rcases inside with old | rfl
      · exact books.home q rpc old
      · cases permitted with
        | ask => exact .inr ⟨rfl, rfl⟩
        | stop => exact .inl rfl
    · rw [Function.update_of_ne here] at inside
      exact books.home q rpc inside
  | tryDequeue q' =>
    rcases exec_tryDequeue performed with ⟨-, queues⟩ | ⟨first, rest, -, perm, queues⟩
    · rw [queues] at inside
      exact books.home q rpc inside
    · rw [queues] at inside
      by_cases here : q = q'
      · subst here
        rw [Function.update_self] at inside
        exact books.home q rpc (perm.mem_iff.2 (List.mem_cons_of_mem _ inside))
      · rw [Function.update_of_ne here] at inside
        exact books.home q rpc inside
  | splitLeaf leaf =>
    cases performed
    exact books.home q rpc inside
  | setResult new result =>
    cases performed
    exact books.home q rpc inside

theorem Books.own_act : ∀ u q leaf, Function.update gs t g u = .splitting q leaf → queueIdx cfg leaf = q := by
  apply (Function.forall_update_iff gs fun _ g => ∀ q leaf, g = .splitting q leaf → queueIdx cfg leaf = q).2
  constructor
  · rintro q leaf rfl
    generalize here : gs t = role at permitted
    cases permitted with
    | take other => exact (books.taken performed other).2
    | split => exact books.own t q leaf here
  · exact fun u _ => books.own u

theorem Books.asked_act (enabled : 0 < cfg.queues) (leaf : GlobalAddress) :
    ∃ n, Census (Function.update gs t g) (fun g => g.asked = some leaf) n ∧
      s'.calls (.request leaf) = n + s'.enqueued (queueIdx cfg leaf) (Rpc.isSplit leaf) := by
  obtain ⟨n, census, count⟩ := books.asked enabled leaf
  have history := exec_history performed
  rw [calls_cons history, enqueued_cons history, count]
  generalize here : gs t = role at permitted
  cases permitted with
  | @ask other =>
    -- the request leaves the client for the queue
    by_cases same : other = leaf
    · subst same
      have inside : (gs t).asked = some other := by rw [here, Role.asked]
      have := census.pos inside
      refine ⟨n - 1, census.leave inside (by simp [Role.asked]), ?_⟩
      simp [Event.isInvoked, Event.isEnqueue, Rpc.isSplit]
      omega
    · refine ⟨n, census.keep (by simp [here, Role.asked, same]), ?_⟩
      simp [Event.isInvoked, Event.isEnqueue, Rpc.isSplit, same]
  | stop =>
    refine ⟨n, census.keep (by simp [here, Role.asked]), ?_⟩
    simp [Event.isInvoked, Event.isEnqueue, Rpc.isSplit, stopRpc]
  | _ => exact ⟨n, census.keep (by simp [here, Role.asked]), rfl⟩

theorem Books.busy_act (leaf : GlobalAddress) :
    ∃ n, Census (Function.update gs t g) (fun g => g.item = some leaf) n ∧
      s'.taken (queueIdx cfg leaf) (Rpc.isSplit leaf) = n + s'.resolved leaf := by
  obtain ⟨n, census, count⟩ := books.busy leaf
  have history := exec_history performed
  rw [taken_cons history, resolved_cons history, count]
  generalize here : gs t = role at permitted
  cases permitted with
  | @leave q rpc stop =>
    have other : Rpc.isSplit leaf rpc = false := by
      obtain ⟨op, a⟩ := rpc
      cases stop
      simp [Rpc.isSplit]
    refine ⟨n, census.keep (by simp [here, Role.item]), ?_⟩
    simp [Event.isTaken, Event.isResult, other]
  | @take q rpc other =>
    -- the worker was polling, so it had nothing else in its hands
    obtain ⟨split, rfl⟩ := books.taken performed other
    obtain ⟨op, a⟩ := rpc
    cases split
    by_cases same : a = leaf
    · subst same
      refine ⟨n + 1, census.enter (by simp [here, Role.item]) (by simp [Role.item]), ?_⟩
      simp [Event.isTaken, Event.isResult, Rpc.isSplit]
      omega
    · refine ⟨n, census.keep (by simp [here, Role.item, same]), ?_⟩
      simp [Event.isTaken, Event.isResult, Rpc.isSplit, same]
  | @resolve q rpc result u =>
    -- the result ends the work on the request
    by_cases same : rpc.leafAddress = leaf
    · subst same
      have inside : (gs t).item = some rpc.leafAddress := by rw [here, Role.item]
      have := census.pos inside
      refine ⟨n - 1, census.leave inside (by simp [Role.item]), ?_⟩
      simp [Event.isTaken, Event.isResult]
      omega
    · refine ⟨n, census.keep (by simp [here, Role.item, same]), ?_⟩
      simp [Event.isTaken, Event.isResult, same]
  | miss =>
    refine ⟨n, census.keep (by simp [here, Role.item]), ?_⟩
    simp [Event.isTaken, Event.isResult]
  | _ => exact ⟨n, census.keep (by simp [here, Role.item]), rfl⟩

theorem Books.duty_act (q : ℕ) (bound : q < cfg.queues) :
    ∃ n, Census (Function.update gs t g) (fun g => g.station = some q) n ∧ s'.calls (.work q) = n + s'.taken q Rpc.isStop := by
  obtain ⟨n, census, count⟩ := books.duty q bound
  have history := exec_history performed
  rw [calls_cons history, taken_cons history, count]
  generalize here : gs t = role at permitted
  cases permitted with
  | @leave q' rpc stop =>
    -- the worker goes off duty with the stop it takes
    by_cases same : q' = q
    · subst same
      have inside : (gs t).station = some q' := by rw [here, Role.station]
      have := census.pos inside
      refine ⟨n - 1, census.leave inside (by simp [Role.station]), ?_⟩
      simp [Event.isTaken, Event.isInvoked, Rpc.isStop, stop]
      omega
    · refine ⟨n, census.keep (by simp [here, Role.station, same]), ?_⟩
      simp [Event.isTaken, Event.isInvoked, same]
  | @take q' rpc other =>
    refine ⟨n, census.keep (by simp [here, Role.station]), ?_⟩
    simp [Event.isTaken, Event.isInvoked, Rpc.isStop, other]
  | miss =>
    refine ⟨n, census.keep (by simp [here, Role.station]), ?_⟩
    simp [Event.isTaken, Event.isInvoked]
  | _ => exact ⟨n, census.keep (by simp [here, Role.station]), rfl⟩

theorem Books.sent_act : ∀ u q, (Function.update gs t g u).sent q ≤ s'.enqueued q Rpc.isStop := by
  apply (Function.forall_update_iff gs fun _ g => ∀ q, g.sent q ≤ s'.enqueued q Rpc.isStop).2
  constructor
  · intro q
    have before := books.sent t q
    generalize gs t = role at permitted before
    cases permitted with
    | @stop sent q' =>
      rw [enqueued_cons (exec_history performed)]
      by_cases same : q' = q
      · subst same
        simpa [Role.sent, Event.isEnqueue, Rpc.isStop, stopRpc] using before
      · simpa [Role.sent, Event.isEnqueue, same, Ne.symm same] using before
    | _ => exact Nat.zero_le _
  · exact fun u _ q => Nat.le_trans (books.sent u q) (enqueued_le performed q Rpc.isStop)

omit permitted in
theorem Books.finalized_act (u n : ℕ) (result : Bool) (returned : .returned u (.finalize n) result ∈ s'.history) (q : ℕ)
    (bound : q < cfg.queues) :
    n ≤ s'.enqueued q Rpc.isStop := by
  rw [exec_history performed] at returned
  rcases List.mem_cons.1 returned with new | old
  · cases new
  · exact Nat.le_trans (books.finalized u n result old q bound) (enqueued_le performed q _)

theorem Books.act : Books cfg (Function.update gs t g) s' where
  roles := books.roles_act performed permitted
  kept := kept_act books.kept performed
  home := books.home_act performed permitted
  own := books.own_act performed permitted
  asked := books.asked_act performed permitted
  busy := books.busy_act performed permitted
  duty := books.duty_act performed permitted
  sent := books.sent_act performed permitted
  finalized := books.finalized_act performed

end Acts

theorem Books.start (cfg : Config) : Books cfg (fun _ => .idle) .initial where
  roles _ := rfl
  kept _ _ := rfl
  home _ := List.forall_mem_nil _
  own _ _ _ splits := Role.noConfusion splits
  asked _ _ := ⟨0, census_none fun _ => by simp [Role.asked], rfl⟩
  busy _ := ⟨0, census_none fun _ => by simp [Role.item], rfl⟩
  duty _ _ := ⟨0, census_none fun _ => by simp [Role.station], rfl⟩
  sent _ _ := Nat.le_refl 0
  finalized _ _ _ returned := absurd returned List.not_mem_nil

theorem begin_item (call : Call) : (Role.begin cfg call).item = none := by
  cases call with
  | request leaf =>
    rw [Role.begin]
    split <;> rfl
  | work csId =>
    rw [Role.begin]
    split <;> rfl
  | finalize n => rfl

theorem begin_asked (enabled : 0 < cfg.queues) (call : Call) (leaf : GlobalAddress) :
    (Role.begin cfg call).asked = some leaf ↔ call = .request leaf := by
  cases call with
  | request other =>
    rw [Role.begin, if_neg (Nat.ne_of_gt enabled)]
    simp [Role.asked]
  | work csId =>
    rw [Role.begin]
    split <;> simp [Role.asked]
  | finalize n => simp [Role.begin, Role.asked]

theorem begin_station (bound : q < cfg.queues) (call : Call) : (Role.begin cfg call).station = some q ↔ call = .work q := by
  cases call with
  | request leaf =>
    rw [Role.begin]
    split <;> simp [Role.station]
  | work csId =>
    rw [Role.begin]
    split_ifs with served
    · simp [Role.station]
    · simp only [Role.station, reduceCtorEq, Call.work.injEq, false_iff]
      exact fun same => served (same ▸ bound)
  | finalize n => simp [Role.begin, Role.station]

theorem begin_sent (call : Call) (q : ℕ) : (Role.begin cfg call).sent q = 0 := by
  cases call with
  | request leaf =>
    rw [Role.begin]
    split <;> rfl
  | work csId =>
    rw [Role.begin]
    split <;> rfl
  | finalize n => rfl

section Ends
variable (books : Books cfg gs s)
include books

theorem Books.invoke (free : gs t = .idle) (call : Call) : Books cfg (Function.update gs t (.begin cfg call))
    (s.note (.invoked t call)) := by
  have history : (s.note (.invoked t call)).history = .invoked t call :: s.history := rfl
  constructor
  · apply (Function.forall_update_iff gs fun u g => g = roleOf cfg u (.invoked t call :: s.history)).2
    constructor
    · rw [roleOf, if_pos rfl]
    · intro u other
      rw [roleOf, if_neg (Ne.symm other), books.roles]
  · exact books.kept
  · exact books.home
  · apply (Function.forall_update_iff gs fun _ g => ∀ q leaf, g = .splitting q leaf → queueIdx cfg leaf = q).2
    constructor
    · intro q leaf splits
      have nothing := @begin_item cfg call
      rw [splits] at nothing
      cases nothing
    · exact fun u _ => books.own u
  · intro enabled leaf
    obtain ⟨n, census, count⟩ := books.asked enabled leaf
    rw [calls_cons history, enqueued_cons history, count]
    have begins := begin_asked enabled call leaf
    by_cases asks : call = .request leaf
    · refine ⟨n + 1, census.enter (by simp [free, Role.asked]) (begins.2 asks), ?_⟩
      simp [Event.isInvoked, Event.isEnqueue, asks]
      omega
    · refine ⟨n, census.keep (iff_of_false (fun own => asks (begins.1 own)) (by simp [free, Role.asked])), ?_⟩
      simp [Event.isInvoked, Event.isEnqueue, asks]
  · intro leaf
    obtain ⟨n, census, count⟩ := books.busy leaf
    exact ⟨n, census.keep (by rw [begin_item, free]; rfl), count⟩
  · intro q bound
    obtain ⟨n, census, count⟩ := books.duty q bound
    rw [calls_cons history, taken_cons history, count]
    have begins := begin_station bound call
    by_cases works : call = .work q
    · refine ⟨n + 1, census.enter (by simp [free, Role.station]) (begins.2 works), ?_⟩
      simp [Event.isInvoked, Event.isTaken, works]
      omega
    · refine ⟨n, census.keep (iff_of_false (fun own => works (begins.1 own)) (by simp [free, Role.station])), ?_⟩
      simp [Event.isInvoked, Event.isTaken, works]
  · apply (Function.forall_update_iff gs fun _ g => ∀ q, g.sent q ≤ s.enqueued q Rpc.isStop).2
    constructor
    · intro q
      rw [begin_sent]
      exact Nat.zero_le _
    · exact fun u _ => books.sent u
  · intro u n result returned
    rcases List.mem_cons.1 returned with new | old
    · cases new
    · exact books.finalized u n result old

theorem Books.finish {call : Call} (ends : Ends cfg call (gs t)) (result : Bool) :
    Books cfg (Function.update gs t .idle) (s.note (.returned t call result)) := by
  have done : (gs t).asked = none ∧ (gs t).item = none ∧ (gs t).station = none := by
    cases call with
    | finalize n =>
      obtain ⟨sent, stopping, -⟩ := ends
      rw [stopping]
      exact ⟨rfl, rfl, rfl⟩
    | _ =>
      rw [show gs t = .idle from ends]
      exact ⟨rfl, rfl, rfl⟩
  constructor
  · apply (Function.forall_update_iff gs fun u g => g = roleOf cfg u (.returned t call result :: s.history)).2
    constructor
    · rw [roleOf, if_pos rfl]
    · intro u other
      rw [roleOf, if_neg (Ne.symm other), books.roles]
  · exact books.kept
  · exact books.home
  · apply (Function.forall_update_iff gs fun _ g => ∀ q leaf, g = .splitting q leaf → queueIdx cfg leaf = q).2
    constructor
    · intro q leaf splits
      cases splits
    · exact fun u _ => books.own u
  · intro enabled leaf
    obtain ⟨n, census, count⟩ := books.asked enabled leaf
    exact ⟨n, census.keep (by rw [done.1]; rfl), count⟩
  · intro leaf
    obtain ⟨n, census, count⟩ := books.busy leaf
    exact ⟨n, census.keep (by rw [done.2.1]; rfl), count⟩
  · intro q bound
    obtain ⟨n, census, count⟩ := books.duty q bound
    exact ⟨n, census.keep (by rw [done.2.2]; rfl), count⟩
  · apply (Function.forall_update_iff gs fun _ g => ∀ q, g.sent q ≤ s.enqueued q Rpc.isStop).2
    constructor
    · exact fun q => Nat.zero_le _
    · exact fun u _ => books.sent u
  · intro u n result' returned q bound
    rcases List.mem_cons.1 returned with new | old
    · cases new
      -- the finalizer returns: what it has sent is on record
      obtain ⟨sent, stopping, all⟩ := ends
      have before := books.sent t q
      rw [stopping] at before
      exact Nat.le_trans (all q bound) before
    · exact books.finalized u n result' old q bound

end Ends

theorem preserves : Preserves (system cfg) (machine cfg) (Books cfg) anything where
  invoke gs s t call g books free _ begins := by
    cases begins
    exact books.invoke free call
  act gs s t o c r s' g books performed _ permitted := books.act performed permitted
  finish gs s t call result books ends := books.finish ends result
  env gs s s' books same := by
    cases same
    exact books

end

abbrev MaintenancePool := Pool signature ℕ Call Bool State

/-! ## Two queues -/

def crew : Config := ⟨2, 4⟩

def firstLeaf : GlobalAddress := ⟨4096⟩

def MaintenancePool.go (P : MaintenancePool) (moves : List (Move ℕ Choice Call)) : MaintenancePool :=
  P.drive (system crew) (fun _ _ _ => true) freely moves

theorem reaches_go (P : MaintenancePool) (moves : List (Move ℕ Choice Call)) : Reaches (system crew) anything P (P.go moves) :=
  reaches_drive (fun _ _ _ _ => trivial) (fun _ _ _ _ _ => trivial) P moves

def crewStart : MaintenancePool := Pool.start .initial

/-- The worker has taken the request of the client. -/
def busyCrew : MaintenancePool :=
  crewStart.go [.invoke 0 (.work 0), .invoke 1 (.request firstLeaf), .act 0 .miss, .act 1 .miss, .return 1, .act 0 (.take 0)]

theorem busyCrew_splits : (roleOf crew 0 busyCrew.shared.history).item = some firstLeaf := by decide +kernel

/-! ## Results -/

section
variable {cfg : Config} {P : MaintenancePool} (run : Reaches (system cfg) anything (Pool.start .initial) P)
include run

theorem explains_reaches : ∃ gs, Explains (system cfg) (machine cfg) (Books cfg) gs P :=
  (explains_start (Books.start cfg)).reaches implements preserves run

theorem explained : Explains (system cfg) (machine cfg) (Books cfg) (fun t => roleOf cfg t P.shared.history) P := by
  obtain ⟨gs, explains⟩ := explains_reaches run
  have same : gs = fun t => roleOf cfg t P.shared.history := funext explains.holds.roles
  exact same ▸ explains

theorem station_of_item {t : ℕ} {leaf : GlobalAddress} (holds : (roleOf cfg t P.shared.history).item = some leaf) :
    (roleOf cfg t P.shared.history).station = some (queueIdx cfg leaf) := by
  cases role : roleOf cfg t P.shared.history with
  | splitting q other =>
    rw [role] at holds
    cases holds
    rw [(explained run).holds.own t q leaf role]
    rfl
  | _ =>
    rw [role] at holds
    cases holds

/-- No request is lost or served twice: each one waits in the queue of its leaf, is in the hands of one
worker of this queue, or has a result. -/
theorem requests_accounted (enabled : 0 < cfg.queues) :
    (∀ q, ∀ rpc ∈ P.shared.queues q, rpc = stopRpc ∨ rpc.op = .split ∧ queueIdx cfg rpc.leafAddress = q) ∧
    (∀ t leaf, (roleOf cfg t P.shared.history).item = some leaf →
      (roleOf cfg t P.shared.history).station = some (queueIdx cfg leaf)) ∧
    (∀ leaf, ∃ asking splitting,
      Census (fun t => roleOf cfg t P.shared.history) (fun g => g.asked = some leaf) asking ∧
      Census (fun t => roleOf cfg t P.shared.history) (fun g => g.item = some leaf) splitting ∧
      P.shared.calls (.request leaf) =
        asking + P.shared.waiting (queueIdx cfg leaf) (Rpc.isSplit leaf) + splitting + P.shared.resolved leaf) ∧
    (P.Quiescent → ∀ leaf, P.shared.calls (.request leaf) =
      P.shared.waiting (queueIdx cfg leaf) (Rpc.isSplit leaf) + P.shared.resolved leaf) := by
  have explains := explained run
  have books := explains.holds
  have all : ∀ leaf, ∃ asking splitting,
      Census (fun t => roleOf cfg t P.shared.history) (fun g => g.asked = some leaf) asking ∧
      Census (fun t => roleOf cfg t P.shared.history) (fun g => g.item = some leaf) splitting ∧
      P.shared.calls (.request leaf) =
        asking + P.shared.waiting (queueIdx cfg leaf) (Rpc.isSplit leaf) + splitting + P.shared.resolved leaf := by
    intro leaf
    obtain ⟨asking, askers, called⟩ := books.asked enabled leaf
    obtain ⟨splitting, splitters, taken⟩ := books.busy leaf
    have kept := books.kept (queueIdx cfg leaf) (Rpc.isSplit leaf)
    exact ⟨asking, splitting, askers, splitters, by omega⟩
  refine ⟨books.home, fun t leaf => station_of_item run, all, ?_⟩
  · intro quiescent leaf
    obtain ⟨asking, splitting, askers, splitters, count⟩ := all leaf
    have idle : ∀ t, roleOf cfg t P.shared.history = .idle := fun t => explains.idle t (quiescent t)
    have nobody : asking = 0 := askers.eq_zero fun t => by
      rw [idle t]
      simp [Role.asked]
    have nothing : splitting = 0 := splitters.eq_zero fun t => by
      rw [idle t]
      simp [Role.item]
    omega

omit run in
theorem requests_accounted_busyCrew :
    busyCrew.shared.calls (.request firstLeaf) = 1 ∧ (roleOf crew 0 busyCrew.shared.history).station = some
    (queueIdx crew firstLeaf) :=
  ⟨by decide +kernel, (requests_accounted (reaches_go crewStart _) (by decide)).2.1 0 firstLeaf busyCrew_splits⟩

/-- With one worker on each queue, a leaf is split by one worker at a time. -/
theorem splits_apart (leaf : GlobalAddress) (enabled : 0 < cfg.queues) (alone : P.shared.calls (.work (queueIdx cfg leaf)) ≤ 1)
    {t u : ℕ} (one : (roleOf cfg t P.shared.history).item = some leaf)
    (two : (roleOf cfg u P.shared.history).item = some leaf) : t = u := by
  obtain ⟨n, census, count⟩ := (explained run).holds.duty (queueIdx cfg leaf) (Nat.mod_lt _ enabled)
  exact census.unique (by omega) (station_of_item run one) (station_of_item run two)

omit run in
theorem splits_apart_busyCrew :
    busyCrew.shared.calls (.work 0) = 1 ∧ ∀ u, (roleOf crew u busyCrew.shared.history).item = some firstLeaf → 0 = u :=
  ⟨by decide +kernel, fun _ two =>
    splits_apart (reaches_go crewStart _) firstLeaf (by decide) (by decide +kernel) busyCrew_splits two⟩

end

/-! ## The queue of the index -/

def Rpc.split? (rpc : Rpc) : Option GlobalAddress := if rpc.op = .split then some rpc.leafAddress else none

def requested : Sigma signature.Reply → Option GlobalAddress
  | ⟨.enqueue _ rpc, _⟩ => rpc.split?
  | _ => none

def received : Sigma signature.Reply → Option GlobalAddress
  | ⟨.tryDequeue _, (found : Option Rpc)⟩ => found.bind Rpc.split?
  | _ => none

section
variable {Key Value : Type} (usable : GlobalAddress → Bool) (who : ℕ → Thread)

/-- The memory of the index does the same with its one queue. -/
inductive Mirrors (start : Memory Key Value) : List Event → Memory Key Value → Prop where
  | start : Mirrors start [] start
  | enqueue {history : List Event} {m m' : Memory Key Value} {t : ℕ} {e : Sigma signature.Reply} {leaf : GlobalAddress}
    {c : BitVec 64} :
      Mirrors start history m → requested e = some leaf → Memory.exec usable (who t) ⟨.insert, .enqueue leaf⟩ c m = some ((), m') →
      Mirrors start (.performed t e :: history) m'
  | dequeue {history : List Event} {m m' : Memory Key Value} {t : ℕ} {e : Sigma signature.Reply} {leaf : GlobalAddress}
    {c : BitVec 64} :
      Mirrors start history m → received e = some leaf → Memory.exec usable (who t) ⟨.maintenanceWorker, .dequeue⟩ c m = some
        (leaf, m') →
      Mirrors start (.performed t e :: history) m'
  | quiet {history : List Event} {m : Memory Key Value} {t : ℕ} {e : Sigma signature.Reply} :
      Mirrors start history m → requested e = none → received e = none → Mirrors start (.performed t e :: history) m
  | invoked {history : List Event} {m : Memory Key Value} {t : ℕ} {call : Call} :
      Mirrors start history m → Mirrors start (.invoked t call :: history) m
  | returned {history : List Event} {m : Memory Key Value} {t : ℕ} {call : Call} {result : Bool} :
      Mirrors start history m → Mirrors start (.returned t call result :: history) m

/-- The queue of the index is a bag of all requests that wait. -/
def Mirrored (cfg : Config) (start : Memory Key Value) (s : State) : Prop :=
  ∃ m, Mirrors usable who start s.history m ∧ ∀ leaf, m.queue.count leaf = s.waiting (queueIdx cfg leaf) (Rpc.isSplit leaf)

variable {usable who} {cfg : Config} {start : Memory Key Value} {gs : ℕ → Role} {s s' : State} {t : ℕ} {o : Act} {c : Choice}
    {r : o.Reply} {g : Role}

theorem ofAddress_setWidth (a : GlobalAddress) : GlobalAddress.ofAddress (a.raw.setWidth 64) = a := by
  rw [GlobalAddress.ofAddress, BitVec.setWidth_setWidth_of_le _ (by decide), BitVec.setWidth_eq]

theorem exec_dequeue {m : Memory Key Value} {thread : Thread} {site : Site} {a : GlobalAddress} (inside : a ∈ m.queue) :
    Memory.exec usable thread ⟨site, .dequeue⟩ (a.raw.setWidth 64) m = some (a, { m with queue := m.queue.erase a }) := by
  show (if GlobalAddress.ofAddress (a.raw.setWidth 64) ∈ m.queue then some
    (GlobalAddress.ofAddress (a.raw.setWidth 64), _) else none) = _
  rw [ofAddress_setWidth, if_pos inside]

theorem Mirrored.quiet (mirrored : Mirrored usable who cfg start s) (performed : State.exec t o c s = some (r, s'))
    (asks : requested ⟨o, r⟩ = none) (gets : received ⟨o, r⟩ = none)
    (same : ∀ leaf, s'.waiting (queueIdx cfg leaf) (Rpc.isSplit leaf) = s.waiting (queueIdx cfg leaf) (Rpc.isSplit leaf)) :
    Mirrored usable who cfg start s' := by
  obtain ⟨m, mirrors, count⟩ := mirrored
  refine ⟨m, ?_, fun leaf => ?_⟩
  · rw [exec_history performed]
    exact mirrors.quiet asks gets
  · rw [same, count]

theorem Mirrored.act (mirrored : Mirrored usable who cfg start s) (books : Books cfg gs s)
    (performed : State.exec t o c s = some (r, s'))
    (permitted : Permits cfg (gs t) o r g) : Mirrored usable who cfg start s' := by
  have history := exec_history performed
  have waiting := fun leaf => exec_waiting performed (queueIdx cfg leaf) (Rpc.isSplit leaf)
  generalize gs t = role at permitted
  cases permitted with
  | @ask new u =>
    obtain ⟨m, mirrors, count⟩ := mirrored
    refine ⟨{ m with queue := new :: m.queue }, ?_, fun leaf => ?_⟩
    · rw [history]
      exact .enqueue (c := 0) mirrors rfl rfl
    · have waits := waiting leaf
      rw [List.count_cons, count]
      by_cases same : new = leaf
      · subst same
        simpa [Event.isEnqueue, Event.isTaken, Rpc.isSplit] using waits
      · simpa [Event.isEnqueue, Event.isTaken, Rpc.isSplit, same] using waits
  | stop =>
    refine mirrored.quiet performed rfl rfl fun leaf => ?_
    simpa [Event.isEnqueue, Event.isTaken, Rpc.isSplit, stopRpc] using (waiting leaf).symm
  | miss =>
    refine mirrored.quiet performed rfl rfl fun leaf => ?_
    simpa [Event.isEnqueue, Event.isTaken] using (waiting leaf).symm
  | @leave q rpc stop =>
    obtain ⟨op, a⟩ := rpc
    cases stop
    refine mirrored.quiet performed rfl rfl fun leaf => ?_
    simpa [Event.isEnqueue, Event.isTaken, Rpc.isSplit] using (waiting leaf).symm
  | @take q rpc other =>
    obtain ⟨split, rfl⟩ := books.taken performed other
    obtain ⟨op, a⟩ := rpc
    cases split
    obtain ⟨m, mirrors, count⟩ := mirrored
    have taken := waiting a
    simp only [Event.isEnqueue, Event.isTaken, Rpc.isSplit, decide_true, Option.any_some, Bool.and_self, Bool.false_eq_true,
      if_false, if_true] at taken
    have inside : a ∈ m.queue := List.count_pos_iff.1 (by rw [count]; omega)
    refine ⟨{ m with queue := m.queue.erase a }, ?_, fun leaf => ?_⟩
    · rw [history]
      exact .dequeue mirrors rfl (exec_dequeue inside)
    · have waits := waiting leaf
      by_cases same : a = leaf
      · subst same
        rw [List.count_erase_self, count]
        omega
      · rw [List.count_erase_of_ne (Ne.symm same), count]
        simpa [Event.isEnqueue, Event.isTaken, Rpc.isSplit, same] using waits
  | split => exact mirrored.quiet performed rfl rfl fun leaf => (waiting leaf).symm
  | resolve => exact mirrored.quiet performed rfl rfl fun leaf => (waiting leaf).symm

/-- The queues together are the queue of the index. -/
theorem queues_refine {P : MaintenancePool} (empty : start.queue = [])
    (run : Reaches (system cfg) anything (Pool.start .initial) P) :
    Mirrored usable who cfg start P.shared := by
  have preserves : Preserves (system cfg) (machine cfg) (fun gs s => Books cfg gs s ∧ Mirrored usable who cfg start s) anything := by
    constructor
    · rintro gs s t call g ⟨books, m, mirrors, count⟩ free _ begins
      cases begins
      exact ⟨books.invoke free call, m, mirrors.invoked, count⟩
    · rintro gs s t o c r s' g ⟨books, mirrored⟩ performed _ permitted
      exact ⟨books.act performed permitted, mirrored.act books performed permitted⟩
    · rintro gs s t call result ⟨books, m, mirrors, count⟩ ends
      exact ⟨books.finish ends result, m, mirrors.returned, count⟩
    · rintro gs s _ holds rfl
      exact holds
  have initial : Mirrored usable who cfg start .initial := ⟨start, .start, fun leaf => by rw [empty]; rfl⟩
  obtain ⟨gs, explains⟩ := (explains_start ⟨Books.start cfg, initial⟩).reaches implements preserves run
  exact explains.holds.2

theorem queues_refine_busyCrew : Mirrored smallConfig.usable (fun t => ⟨0, t⟩) crew smallMemory busyCrew.shared :=
  queues_refine rfl (reaches_go crewStart _)

end

end Faunus.Maintenance
