import Faunus.Interleaving.Traces
import Faunus.Queueing.Link
import Faunus.Rdma.Verbs
import Faunus.Rounding.Binary

/-! The delays that `RDMAManager` simulates.

Each server has one link. A verb reserves the link in `get_server_time_delay`, and its
client sleeps until the transfer is done. The clock of the host runs on by itself; it
stands for `steady_clock` and for `high_resolution_clock`. Each server has its entry in
`server_finish_times_` from the start.
-/

set_option autoImplicit false

namespace Faunus.Rdma.Timed

open Interleaving Queueing Rounding

structure Config where
  servers : ℕ
  baseRttNs : ℕ
  sleepEnabled : Bool
  loopBound : ℕ

/-- `SIMULATED_BW_BPS`: 100 Gbps. -/
def simulatedBwBps : ℕ := 12500000000

/-- Addition of `uint64_t`. -/
def add (a b : ℕ) : ℕ := (a + b) % 2 ^ 64

/-! ## Operations -/

inductive Act where
  | currentTime
  | loadFinish (server : ℕ)
  /-- The transfer time is what `desired` adds to the time at which the server is free. -/
  | compareExchange (server tTrans expected desired : ℕ)
  | startSleep
  | wake (target : ℕ)
  | execute (op : RDMAOp)
  /-- The counters of the thread get one more operation with this latency. -/
  | record (op : RDMAOp) (rtt : ℕ)

def Act.Reply : Act → Type
  | .currentTime => ℕ
  | .loadFinish _ => ℕ
  | .compareExchange _ _ _ _ => Bool × ℕ
  | .startSleep => ℕ
  | .wake _ => Unit
  | .execute _ => Bool
  | .record _ _ => Unit

def signature : Signature := ⟨Act, Act.Reply⟩

abbrev Delayed (A : Type) := Program signature A

section
variable (cfg : Config)

/-- Whole nanoseconds; the `long double` of the source is exact for transfers below 16 GiB. -/
def calculateBwDelayNs (op : RDMAOp) : ℕ :=
  let bytes := match op.verb with
    | .read _ bytes => bytes.toNat
    | .write _ bytes => bytes.toNat
    | .cas _ _ => 8
    | .faa _ => 8
  bytes * 1000000000 / simulatedBwBps

/-- The nanoseconds that `precise_sleep_ns` waits, to microseconds and back in doubles. -/
def preciseSleepNs (interval : ℕ) : ℕ := ⌊double (double (double interval / 1000) * 1000)⌋₊

/-- To sleep is to wait until the clock has reached its target; a sleep of 0 ns waits for now. -/
def sleepNs (interval : ℕ) : Delayed Unit :=
  if cfg.sleepEnabled then .perform .startSleep fun (start : ℕ) => .perform (.wake (start + preciseSleepNs interval)) .value
  else pure ()

/-- When the server can start, by the finish time that was found. -/
def serverFree (prev now : ℕ) : ℕ := if now < prev then prev else now

def queueDelay (prev now : ℕ) : ℕ := if now < prev then prev - now else 0

/-- The loop around `compare_exchange_weak`, which may fail without a reason. -/
def reserve (server tTrans now : ℕ) : ℕ → ℕ → Delayed ℕ
  | 0, _ => .stuck
  | bound + 1, prev => .perform (.compareExchange server tTrans prev (add (serverFree prev now) tTrans)) fun (found : Bool × ℕ) =>
    if found.1 then pure (add (queueDelay prev now) tTrans) else reserve server tTrans now bound found.2

/-- The time that the transfer waits for the link of the server and takes it. -/
def getServerTimeDelay (server tTrans : ℕ) : Delayed ℕ :=
  .perform .currentTime fun (now : ℕ) => .perform (.loadFinish server) fun (prev : ℕ) => reserve server tTrans now cfg.loopBound prev

def oneWayNs : ℕ := cfg.baseRttNs / 2

def returnDelay (op : RDMAOp) : ℕ :=
  match op.verb with
  | .read _ _ => calculateBwDelayNs op
  | _ => 0

def performOp (op : RDMAOp) : Delayed Bool :=
  if cfg.servers ≤ op.addr.serverIndex.toNat then pure false
  else do
    let serverDelay ← getServerTimeDelay cfg op.addr.serverIndex.toNat (calculateBwDelayNs op)
    let preOpSleep := add (oneWayNs cfg) serverDelay
    sleepNs cfg preOpSleep
    let result : Bool ← Program.perform (.execute op) .value
    let postOpSleep := add (oneWayNs cfg) (returnDelay op)
    sleepNs cfg postOpSleep
    Program.perform (.record op (add preOpSleep postOpSleep)) fun _ => pure result

/-- The operations one by one, then the way back of the slowest. -/
def performAll : List RDMAOp → ℕ → Delayed Bool
  | [], maxServerPath => do
    sleepNs cfg (add maxServerPath (oneWayNs cfg))
    pure true
  | op :: ops, maxServerPath =>
    if cfg.servers ≤ op.addr.serverIndex.toNat then pure false
    else do
      let serverDelay ← getServerTimeDelay cfg op.addr.serverIndex.toNat (calculateBwDelayNs op)
      let result : Bool ← Program.perform (.execute op) .value
      if result then
        Program.perform (.record op (add (add (oneWayNs cfg) serverDelay) (oneWayNs cfg))) fun _ =>
          performAll ops (max maxServerPath serverDelay)
      else pure false

def performBatch (ops : List RDMAOp) : Delayed Bool :=
  if ops = [] then pure true
  else do
    sleepNs cfg (oneWayNs cfg)
    performAll cfg ops 0

end

/-! ## Clients -/

inductive Call where
  | single (op : RDMAOp)
  | batch (ops : List RDMAOp)

def Call.ops : Call → List RDMAOp
  | .single op => [op]
  | .batch ops => ops

def Call.body (cfg : Config) : Call → Delayed Bool
  | .single op => performOp cfg op
  | .batch ops => performBatch cfg ops

abbrev Done := Sigma signature.Reply

/-- Invocations and returns carry the time. -/
inductive Event where
  | invoked (t : ℕ) (call : Call) (time : ℕ)
  | performed (t : ℕ) (e : Done)
  | returned (t : ℕ) (call : Call) (result : Bool) (time : ℕ)

structure State where
  clock : ℕ
  finishTimes : ℕ → ℕ
  fabric : Fabric
  history : List Event

def State.note (s : State) (e : Event) : State := { s with history := e :: s.history }

/-- A sleeping thread waits for the clock; the choice lets `compare_exchange_weak` fail. -/
def State.exec : Exec signature ℕ Bool State :=
  fun t o c s =>
    match o with
    | .currentTime => some (s.clock, s.note (.performed t ⟨.currentTime, s.clock⟩))
    | .loadFinish server => some (s.finishTimes server, s.note (.performed t ⟨.loadFinish server, s.finishTimes server⟩))
    | .compareExchange server tTrans expected desired =>
      if s.finishTimes server = expected ∧ c then
        some ((true, expected), { s with finishTimes := Function.update s.finishTimes server desired }.note
          (.performed t ⟨.compareExchange server tTrans expected desired, (true, expected)⟩))
      else
        some ((false, s.finishTimes server), s.note
          (.performed t ⟨.compareExchange server tTrans expected desired, (false, s.finishTimes server)⟩))
    | .startSleep => some (s.clock, s.note (.performed t ⟨.startSleep, s.clock⟩))
    | .wake target => if target ≤ s.clock then some ((), s.note (.performed t ⟨.wake target, ()⟩)) else none
    | .execute op =>
      match executeRdma op s.fabric with
      | some (result, fabric) => some (result, { s with fabric }.note (.performed t ⟨.execute op, result⟩))
      | none => none
    | .record op rtt => some ((), s.note (.performed t ⟨.record op rtt, ()⟩))

def system (cfg : Config) : System signature ℕ Bool Call Bool State where
  exec := State.exec
  body := Call.body cfg
  admits _ _ _ := True
  env s s' := ∃ c, s.clock ≤ c ∧ s' = { s with clock := c }
  invoked t call s := s.note (.invoked t call s.clock)
  returned t call result s := s.note (.returned t call result s.clock)

/-! ## What is on record -/

/-- What the thread has done since its last invocation, newest first. -/
def operations (t : ℕ) : List Event → List Done
  | [] => []
  | .invoked u _ _ :: rest => if t = u then [] else operations t rest
  | .performed u e :: rest => if t = u then e :: operations t rest else operations t rest
  | .returned _ _ _ _ :: rest => operations t rest

def invokedAt (t : ℕ) : List Event → ℕ
  | [] => 0
  | .invoked u _ time :: rest => if t = u then time else invokedAt t rest
  | _ :: rest => invokedAt t rest

/-- `T_now` of the delay that is computed. -/
def lastAsked : List Done → ℕ
  | [] => 0
  | ⟨.currentTime, (now : ℕ)⟩ :: _ => now
  | _ :: rest => lastAsked rest

structure Transfer extends Job where
  server : ℕ
  tTrans : ℕ

/-- What an operation reserves after those before it. -/
def transferOf : Done → List Done → Option Transfer
  | ⟨.compareExchange server tTrans expected desired, (found : Bool × ℕ)⟩, before =>
    if found.1 then some ⟨⟨lastAsked before, serverFree expected (lastAsked before), desired⟩, server, tTrans⟩ else none
  | _, _ => none

def transfers : List Done → List Transfer
  | [] => []
  | e :: before => (transferOf e before).toList ++ transfers before

/-- The transfers of all threads, newest first. -/
def allTransfers : List Event → List Transfer
  | [] => []
  | .performed t e :: rest => (transferOf e (operations t rest)).toList ++ allTransfers rest
  | _ :: rest => allTransfers rest

def jobsOn (server : ℕ) (history : List Event) : List Job :=
  ((allTransfers history).filter fun x => x.server = server).map Transfer.toJob

theorem exec_history {t : ℕ} {o : Act} {c : Bool} {s s' : State} {r : o.Reply} (performed : State.exec t o c s = some (r, s')) :
    s'.history = .performed t ⟨o, r⟩ :: s.history := by
  cases o with
  | compareExchange server tTrans expected desired =>
    simp only [State.exec] at performed
    split at performed <;> cases performed <;> rfl
  | wake target =>
    obtain ⟨-, done⟩ := Option.ite_none_right_eq_some.1 performed
    cases done
    rfl
  | execute op =>
    simp only [State.exec] at performed
    split at performed <;> cases performed
    rfl
  | _ =>
    cases performed
    rfl

theorem recorded_operations (cfg : Config) : Recorded (system cfg) fun t (s : State) => operations t s.history where
  invoke t call s u := rfl
  act t o c s r s' u performed := by
    rw [exec_history performed]
    rfl
  finish t call a s u := rfl
  env s s' u moved := by
    obtain ⟨c, -, rfl⟩ := moved
    rfl

/-! ## A small fabric -/

def lab : Config := ⟨1, 2000, true, 3⟩

/-- A read of 25 bytes takes the link for 2 ns. -/
def smallRead : RDMAOp := ⟨⟨0⟩, .read 4096 25⟩

def State.idle (clock : ℕ) (fabric : Fabric) : State := ⟨clock, fun _ => 0, fabric, []⟩

def labStart : State := .idle 5 ⟨[List.replicate 32 0], fun _ => 0⟩

end Faunus.Rdma.Timed
