import Faunus.Data.KVBlock
import Faunus.Interleaving.Invariant

/-! Maintenance queues and their workers.

A client that fills a leaf leaves a request in the queue to which the leaf is hashed.
Workers poll one queue each, until `finalize` stops them.
-/

set_option autoImplicit false

namespace Faunus.Maintenance

open Interleaving

inductive OpType where
  | split
  | merge
  | stop
  deriving DecidableEq

/-- A `FaunusMaintenanceRPC`; nobody waits for its promise. -/
structure Rpc where
  op : OpType
  leafAddress : GlobalAddress
  deriving DecidableEq

structure Config where
  /-- The queues that `initialize` has created. -/
  queues : ℕ
  loopBound : ℕ

/-! ## Operations -/

inductive Act where
  | enqueue (q : ℕ) (rpc : Rpc)
  | tryDequeue (q : ℕ)
  | splitLeaf (leaf : GlobalAddress)
  | setResult (rpc : Rpc) (result : Bool)
  deriving DecidableEq

def Act.Reply : Act → Type
  | .enqueue _ _ => Unit
  | .tryDequeue _ => Option Rpc
  | .splitLeaf _ => Bool
  | .setResult _ _ => Unit

def signature : Signature := ⟨Act, Act.Reply⟩

abbrev Chore (A : Type) := Program signature A

def hashInt (x : BitVec 64) : BitVec 64 :=
  let x := (x ^^^ (x >>> 30)) * 0xbf58476d1ce4e5b9#64
  let x := (x ^^^ (x >>> 27)) * 0x94d049bb133111eb#64
  x ^^^ (x >>> 31)

section
variable (cfg : Config)

def getMaintenanceQueue (csId : ℕ) : Option ℕ := if csId < cfg.queues then some csId else none

def queueIdx (leaf : GlobalAddress) : ℕ := (hashInt (leaf.raw.setWidth 64)).toNat % cfg.queues

def requestSmo (op : OpType) (leaf : GlobalAddress) : Chore Bool :=
  if cfg.queues = 0 then pure false
  else
    match getMaintenanceQueue cfg (queueIdx cfg leaf) with
    | none => pure false
    | some q => .perform (.enqueue q ⟨op, leaf⟩) fun _ => pure true

def stopRpc : Rpc := ⟨.stop, ⟨0⟩⟩

def stopThreads (q : ℕ) : ℕ → Chore Unit
  | 0 => pure ()
  | threads + 1 => .perform (.enqueue q stopRpc) fun _ => stopThreads q threads

def stopQueues (threadsPerQueue : ℕ) : List ℕ → Chore Unit
  | [] => pure ()
  | q :: rest => do
    stopThreads q threadsPerQueue
    stopQueues threadsPerQueue rest

def stopMaintenance (threadsPerQueue : ℕ) : Chore Unit := stopQueues threadsPerQueue (List.range cfg.queues)

/-- Yields and sleeps between two attempts take no step. -/
def waitDequeue (q : ℕ) : ℕ → Chore Rpc
  | 0 => .stuck
  | bound + 1 => .perform (.tryDequeue q) fun (found : Option Rpc) =>
    match found with
    | some rpc => pure rpc
    | none => waitDequeue q bound

def workerLoop (q : ℕ) : ℕ → Chore Unit
  | 0 => .stuck
  | rounds + 1 => do
    let rpc ← waitDequeue q cfg.loopBound
    match rpc.op with
    | .stop => pure ()
    -- assert(false && "Merge not implemented yet")
    | .merge => .stuck
    | .split =>
      .perform (.splitLeaf rpc.leafAddress) fun (result : Bool) => .perform (.setResult rpc result) fun _ => workerLoop q rounds

def maintenanceWorker (csId : ℕ) : Chore Unit :=
  match getMaintenanceQueue cfg csId with
  | none => pure ()
  | some q => workerLoop cfg q cfg.loopBound

end

/-! ## Threads -/

inductive Call where
  /-- `insert` requests nothing but splits. -/
  | request (leaf : GlobalAddress)
  | work (csId : ℕ)
  | finalize (threadsPerQueue : ℕ)
  deriving DecidableEq

def Call.body (cfg : Config) : Call → Chore Bool
  | .request leaf => requestSmo cfg .split leaf
  | .work csId => do
    maintenanceWorker cfg csId
    pure true
  | .finalize threadsPerQueue => do
    stopMaintenance cfg threadsPerQueue
    pure true

inductive Event where
  | invoked (t : ℕ) (call : Call)
  | performed (t : ℕ) (e : Sigma signature.Reply)
  | returned (t : ℕ) (call : Call) (result : Bool)

structure State where
  queues : ℕ → List Rpc
  history : List Event

def State.initial : State := ⟨fun _ => [], []⟩

/-- What the state does not determine. -/
inductive Choice where
  /-- `try_dequeue` finds nothing, also while others add to the queue. -/
  | miss
  /-- The queue keeps no order between producers. -/
  | take (i : ℕ)
  | split (result : Bool)

def Choice.result : Choice → Bool
  | .split result => result
  | _ => false

def tryDequeue (queue : List Rpc) : Choice → Option (Option Rpc × List Rpc)
  | .take i => (queue[i]?).map fun rpc => (some rpc, queue.eraseIdx i)
  | _ => some (none, queue)

def State.setQueue (s : State) (q : ℕ) (queue : List Rpc) : State := { s with queues := Function.update s.queues q queue }

def State.note (s : State) (e : Event) : State := { s with history := e :: s.history }

def State.exec : Exec signature ℕ Choice State :=
  fun t o c s =>
    match o with
    | .enqueue q rpc => some ((), (s.setQueue q (s.queues q ++ [rpc])).note (.performed t ⟨.enqueue q rpc, ()⟩))
    | .tryDequeue q => (tryDequeue (s.queues q) c).map fun (found, queue) =>
      (found, (s.setQueue q queue).note (.performed t ⟨.tryDequeue q, found⟩))
    | .splitLeaf leaf => some (c.result, s.note (.performed t ⟨.splitLeaf leaf, c.result⟩))
    | .setResult rpc result => some ((), s.note (.performed t ⟨.setResult rpc result, ()⟩))

def system (cfg : Config) : System signature ℕ Choice Call Bool State where
  exec := State.exec
  body := Call.body cfg
  admits _ _ _ := True
  env s s' := s' = s
  invoked t call s := s.note (.invoked t call)
  returned t call result s := s.note (.returned t call result)

/-! ## Roles -/

/-- What a thread has to do with the queues. -/
inductive Role where
  | idle
  | asking (leaf : GlobalAddress)
  /-- How many stops each queue got from the call. -/
  | stopping (sent : ℕ → ℕ)
  | polling (q : ℕ)
  | splitting (q : ℕ) (leaf : GlobalAddress)

def Role.station : Role → Option ℕ
  | .polling q => some q
  | .splitting q _ => some q
  | _ => none

def Role.item : Role → Option GlobalAddress
  | .splitting _ leaf => some leaf
  | _ => none

def Role.asked : Role → Option GlobalAddress
  | .asking leaf => some leaf
  | _ => none

def Role.sent (q : ℕ) : Role → ℕ
  | .stopping sent => sent q
  | _ => 0

section
variable (cfg : Config)

def Role.begin : Call → Role
  | .request leaf => if cfg.queues = 0 then .idle else .asking leaf
  | .work csId => if csId < cfg.queues then .polling csId else .idle
  | .finalize _ => .stopping fun _ => 0

def Role.next : Role → Sigma signature.Reply → Role
  | .asking _, ⟨.enqueue _ _, _⟩ => .idle
  | .stopping sent, ⟨.enqueue q _, _⟩ => .stopping (Function.update sent q (sent q + 1))
  | .polling q, ⟨.tryDequeue _, (found : Option Rpc)⟩ =>
    match found with
    | none => .polling q
    | some rpc => if rpc.op = .stop then .idle else .splitting q rpc.leafAddress
  | .splitting q _, ⟨.setResult _ _, _⟩ => .polling q
  | role, _ => role

def roleOf (t : ℕ) : List Event → Role
  | [] => .idle
  | .invoked u call :: rest => if u = t then .begin cfg call else roleOf t rest
  | .performed u e :: rest => if u = t then (roleOf t rest).next e else roleOf t rest
  | .returned u _ _ :: rest => if u = t then .idle else roleOf t rest

end

/-! ## What is on record -/

def Event.isInvoked (call : Call) : Event → Bool
  | .invoked _ made => made = call
  | _ => false

def Event.isEnqueue (q : ℕ) (wanted : Rpc → Bool) : Event → Bool
  | .performed _ ⟨.enqueue q' rpc, _⟩ => q' = q && wanted rpc
  | _ => false

def Event.isTaken (q : ℕ) (wanted : Rpc → Bool) : Event → Bool
  | .performed _ ⟨.tryDequeue q', (found : Option Rpc)⟩ => q' = q && found.any wanted
  | _ => false

def Event.isResult (leaf : GlobalAddress) : Event → Bool
  | .performed _ ⟨.setResult rpc _, _⟩ => rpc.leafAddress = leaf
  | _ => false

def Rpc.isStop (rpc : Rpc) : Bool := rpc.op = .stop

def Rpc.isSplit (leaf : GlobalAddress) (rpc : Rpc) : Bool := rpc = ⟨.split, leaf⟩

section
variable (s : State)

def State.calls (call : Call) : ℕ := s.history.countP (Event.isInvoked call)

def State.enqueued (q : ℕ) (wanted : Rpc → Bool) : ℕ := s.history.countP (Event.isEnqueue q wanted)

def State.taken (q : ℕ) (wanted : Rpc → Bool) : ℕ := s.history.countP (Event.isTaken q wanted)

def State.resolved (leaf : GlobalAddress) : ℕ := s.history.countP (Event.isResult leaf)

def State.waiting (q : ℕ) (wanted : Rpc → Bool) : ℕ := (s.queues q).countP wanted

end

/-! ## What a thread may do next -/

inductive Permits (cfg : Config) : Role → (o : Act) → o.Reply → Role → Prop where
  | ask {leaf : GlobalAddress} {u : Unit} : Permits cfg (.asking leaf) (.enqueue (queueIdx cfg leaf) ⟨.split, leaf⟩) u .idle
  | stop {sent : ℕ → ℕ} {q : ℕ} {u : Unit} :
      Permits cfg (.stopping sent) (.enqueue q stopRpc) u (.stopping (Function.update sent q (sent q + 1)))
  | miss {q : ℕ} : Permits cfg (.polling q) (.tryDequeue q) (none : Option Rpc) (.polling q)
  | leave {q : ℕ} {rpc : Rpc} : rpc.op = .stop → Permits cfg (.polling q) (.tryDequeue q) (some rpc : Option Rpc) .idle
  | take {q : ℕ} {rpc : Rpc} : rpc.op ≠ .stop → Permits cfg (.polling q) (.tryDequeue q) (some rpc : Option Rpc)
    (.splitting q rpc.leafAddress)
  | split {q : ℕ} {leaf : GlobalAddress} {result : Bool} :
    Permits cfg (.splitting q leaf) (.splitLeaf leaf) result (.splitting q leaf)
  | resolve {q : ℕ} {rpc : Rpc} {result : Bool} {u : Unit} : Permits cfg (.splitting q rpc.leafAddress)
    (.setResult rpc result) u (.polling q)

/-- A finalizer has stopped every queue; all others have nothing left to do. -/
def Ends (cfg : Config) : Call → Role → Prop
  | .finalize threadsPerQueue, g => ∃ sent, g = .stopping sent ∧ ∀ q < cfg.queues, threadsPerQueue ≤ sent q
  | _, g => g = .idle

def machine (cfg : Config) : Machine signature ℕ Call Bool State Role where
  idle := .idle
  begins _ call _ _ g := g = .begin cfg call
  permits t gs _ o r _ g := Permits cfg (gs t) o r g
  ends _ call _ g := Ends cfg call g

theorem Permits.next {cfg : Config} {g g' : Role} {o : Act} {r : o.Reply} (permitted : Permits cfg g o r g') :
    g.next ⟨o, r⟩ = g' := by
  cases permitted with
  | leave stop => exact if_pos stop
  | take other => exact if_neg other
  | _ => rfl

section
variable {cfg : Config} {inv : (ℕ → Role) → State → Prop} {t : ℕ} {A : Type} {post : A → Role → Prop}

abbrev WorkFollows (cfg : Config) (inv : (ℕ → Role) → State → Prop) (t : ℕ) (post : A → Role → Prop) (p : Chore A)
    (g : Role) : Prop :=
  Follows (machine cfg).permits State.exec inv t post p g

theorem follows_act {o : Act} {next : o.Reply → Chore A} {g : Role} (after : o.Reply → Role)
    (permitted : ∀ r, Permits cfg g o r (after r)) (later : ∀ r, WorkFollows cfg inv t post (next r) (after r)) :
    WorkFollows cfg inv t post (.perform o next) g := by
  intro gs s _ own c r s' _
  refine ⟨after r, ?_, later r⟩
  show Permits cfg (gs t) o r (after r)
  rw [own]
  exact permitted r

theorem follows_requestSmo {leaf : GlobalAddress} :
    WorkFollows cfg inv t (fun _ g => g = .idle) (requestSmo cfg .split leaf) (.begin cfg (.request leaf)) := by
  unfold requestSmo Role.begin
  split_ifs with disabled
  · rfl
  · have bound : queueIdx cfg leaf < cfg.queues := Nat.mod_lt _ (Nat.pos_of_ne_zero disabled)
    rw [getMaintenanceQueue, if_pos bound]
    exact follows_act (fun _ => .idle) (fun _ => .ask) fun _ => rfl

theorem follows_stopThreads {q threads : ℕ} {sent : ℕ → ℕ} :
    WorkFollows cfg inv t (fun _ g => g = .stopping (Function.update sent q (sent q + threads))) (stopThreads q threads)
    (.stopping sent) := by
  induction threads generalizing sent with
  | zero =>
    show Role.stopping sent = .stopping (Function.update sent q (sent q + 0))
    rw [Nat.add_zero, Function.update_eq_self]
  | succ threads ih =>
    apply follows_act (fun _ => .stopping (Function.update sent q (sent q + 1))) fun _ => .stop
    intro _
    apply follows_mono ih
    rintro _ _ rfl
    rw [Function.update_idem, Function.update_self, Nat.add_right_comm, Nat.add_assoc]

theorem follows_stopQueues {threads : ℕ} {queues : List ℕ} {sent : ℕ → ℕ} :
    WorkFollows cfg inv t (fun _ g => ∃ sent', g = .stopping sent' ∧ (∀ q, sent q ≤ sent' q) ∧ ∀ q ∈ queues, threads ≤ sent' q)
      (stopQueues threads queues) (.stopping sent) := by
  induction queues generalizing sent with
  | nil => exact ⟨sent, rfl, fun _ => Nat.le_refl _, fun _ inside => absurd inside List.not_mem_nil⟩
  | cons q rest ih =>
    apply follows_bind
    apply follows_mono follows_stopThreads
    rintro _ _ rfl
    apply follows_mono ih
    rintro _ _ ⟨sent', rfl, more, all⟩
    have here : sent q + threads ≤ sent' q := by simpa using more q
    refine ⟨sent', rfl, fun q' => ?_, fun q' inside => ?_⟩
    · by_cases same : q' = q
      · subst same
        omega
      · simpa [same] using more q'
    · rcases List.mem_cons.1 inside with rfl | later
      · omega
      · exact all q' later

theorem follows_waitDequeue {q bound : ℕ} :
    WorkFollows cfg inv t (fun rpc g => g = if rpc.op = .stop then .idle else .splitting q rpc.leafAddress)
    (waitDequeue q bound) (.polling q) := by
  induction bound with
  | zero => trivial
  | succ bound ih =>
    apply follows_act (o := .tryDequeue q) fun found => (Role.polling q).next ⟨.tryDequeue q, found⟩
    · intro (found : Option Rpc)
      cases found with
      | none => exact .miss
      | some rpc =>
        by_cases stop : rpc.op = .stop
        · simpa [Role.next, stop] using Permits.leave stop
        · simpa [Role.next, stop] using Permits.take stop
    · intro (found : Option Rpc)
      cases found with
      | none => exact ih
      | some rpc => rfl

theorem follows_workerLoop {q rounds : ℕ} : WorkFollows cfg inv t (fun _ g => g = .idle) (workerLoop cfg q rounds) (.polling q) := by
  induction rounds with
  | zero => trivial
  | succ rounds ih =>
    apply follows_bind
    apply follows_mono follows_waitDequeue
    rintro ⟨op, leaf⟩ _ rfl
    cases op with
    | stop => rfl
    | merge => trivial
    | split =>
      apply follows_act (fun _ => .splitting q leaf) fun _ => .split
      intro result
      exact follows_act (fun _ => .polling q) (fun _ => @Permits.resolve _ q ⟨.split, leaf⟩ _ _) fun _ => ih

theorem follows_maintenanceWorker {csId : ℕ} :
    WorkFollows cfg inv t (fun _ g => g = .idle) (maintenanceWorker cfg csId) (.begin cfg (.work csId)) := by
  unfold maintenanceWorker getMaintenanceQueue
  by_cases served : csId < cfg.queues
  · rw [if_pos served, Role.begin, if_pos served]
    exact follows_workerLoop
  · rw [if_neg served, Role.begin, if_neg served]
    rfl

theorem follows_body (call : Call) : WorkFollows cfg inv t (fun _ g => Ends cfg call g) (call.body cfg) (.begin cfg call) := by
  cases call with
  | request leaf => exact follows_requestSmo
  | work csId =>
    apply follows_bind
    apply follows_mono follows_maintenanceWorker
    exact fun _ _ ended => ended
  | finalize threads =>
    apply follows_bind
    apply follows_mono follows_stopQueues
    rintro _ _ ⟨sent, rfl, -, all⟩
    exact ⟨sent, rfl, fun q bound => all q (List.mem_range.2 bound)⟩

theorem implements : Implements (system cfg) (machine cfg) inv :=
  fun _ _ _ call _ _ _ => ⟨_, rfl, follows_body call⟩

end

end Faunus.Maintenance
