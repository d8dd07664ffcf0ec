import Faunus.Rdma.Delays

/-! Links without overlaps, and calls that last as long as their transfers.

A call reserves the link of a server for each of its operations. Whatever clients do at
the same time, the transfers of a link never overlap, and a call that succeeds returns when
its transfers are done and the messages have travelled both ways.
-/

set_option autoImplicit false

namespace Faunus.Rdma.Timed

open Interleaving Queueing Rounding

/-! ## What a call has done -/

/-- The times at which, or after which, the thread has been. -/
def stampOf : Done → List ℕ
  | ⟨.currentTime, (now : ℕ)⟩ => [now]
  | ⟨.startSleep, (now : ℕ)⟩ => [now]
  | ⟨.wake target, _⟩ => [target]
  | _ => []

def stamps (done : List Done) : List ℕ := done.flatMap stampOf

def executions : List Done → List RDMAOp
  | [] => []
  | ⟨.execute op, _⟩ :: before => op :: executions before
  | _ :: before => executions before

/-- What the call adds to `total_rtt_ns`, one by one. -/
def latencies : List Done → List ℕ
  | [] => []
  | ⟨.record _ rtt, _⟩ :: before => rtt :: latencies before
  | _ :: before => latencies before

def latest (done : List Done) : ℕ := (stamps done).headD 0

def begun (done : List Done) : ℕ := (stamps done).getLastD 0

/-- `precise_sleep_ns` loses at most a nanosecond by rounding. -/
theorem le_preciseSleepNs (n : ℕ) (short : n < 2 ^ 52) : n ≤ preciseSleepNs n + 1 := by
  rcases Nat.eq_zero_or_pos n with rfl | positive
  · exact Nat.zero_le _
  have least : (1 : ℚ) ≤ n := by exact_mod_cast positive
  have most : (n : ℚ) ≤ 2 ^ 52 := by exact_mod_cast short.le
  have tiny : (2 : ℚ) ^ (-1022 : ℤ) ≤ 1 / 2000 := by
    have power : (2 : ℚ) ^ (-1022 : ℤ) ≤ 2 ^ (-11 : ℤ) := zpow_le_zpow_right₀ (by norm_num) (by norm_num)
    exact power.trans (by norm_num)
  have there : (n : ℚ) / 1000 - n / 1000 / 2 ^ 53 ≤ double (n / 1000) := sub_le_double (tiny.trans (by linarith))
  have back : double (n / 1000) * 1000 - double (n / 1000) * 1000 / 2 ^ 53 ≤ double (double (n / 1000) * 1000) :=
    sub_le_double (tiny.trans (by linarith))
  -- each of the two roundings loses less than half a nanosecond
  have close : ((n - 1 : ℕ) : ℚ) ≤ double (double (n / 1000) * 1000) := by
    rw [Nat.cast_sub positive]
    push_cast
    linarith
  have floor := Nat.le_floor close
  rw [preciseSleepNs, double_natCast (by omega)]
  omega

/-- Sleeps are enabled, and they are short enough for doubles. -/
structure Config.Steady (cfg : Config) : Prop where
  enabled : cfg.sleepEnabled = true
  rtt : cfg.baseRttNs < 2 ^ 52

section
variable (cfg : Config)

/-- What a call that succeeds has done for its operations. -/
structure Completed (ops : List RDMAOp) (done : List Done) : Prop where
  reserved : (transfers done).reverse.map (fun x => (x.server, x.tTrans)) = ops.map fun op =>
    (op.addr.serverIndex.toNat, calculateBwDelayNs op)
  executed : (executions done).reverse = ops
  stamped : cfg.Steady → done = [] ∨ stamps done ≠ []
  waited : cfg.Steady → ∀ x ∈ transfers done, begun done ≤ x.asked ∧ x.finish + oneWayNs cfg ≤ latest done + 2 ∧
    begun done + 2 * oneWayNs cfg + (x.finish - x.asked) ≤ latest done + 2
  counted : cfg.Steady → ∀ rtt ∈ latencies done, begun done + rtt ≤ latest done + 2

def finishing : Condition signature ℕ State := fun t o _ s =>
  match o with
  | .compareExchange _ tTrans expected _ => serverFree expected (lastAsked (operations t s.history)) + tTrans < 2 ^ 64
  | _ => True

/-- The finish time fits its word, and the sleeps are short enough for doubles. -/
structure Moderate (tTrans expected now : ℕ) : Prop where
  finish : serverFree expected now + tTrans < 2 ^ 64
  wait : queueDelay expected now + 2 * tTrans + cfg.baseRttNs < 2 ^ 52

/-- Reservations are for times that the code can represent. -/
def representable : Condition signature ℕ State := fun t o _ s =>
  match o with
  | .compareExchange _ tTrans expected _ => Moderate cfg tTrans expected (lastAsked (operations t s.history))
  | _ => True

def fits (done : List Done) : Act → Prop
  | .compareExchange _ tTrans expected desired => desired = add (serverFree expected (lastAsked done)) tTrans
  | .wake target => ∃ c ∈ stamps done, c ≤ target
  | _ => True

def expects (done : List Done) : (o : Act) → o.Reply → Prop
  | .currentTime, (now : ℕ) => ∀ c ∈ stamps done, c ≤ now
  | .startSleep, (now : ℕ) => ∀ c ∈ stamps done, c ≤ now
  | .compareExchange _ tTrans expected _, _ => Moderate cfg tTrans expected (lastAsked done)
  | _, _ => True

abbrev Traced {A : Type} (post : A → List Done → Prop) (p : Delayed A) (done : List Done) : Prop :=
  p.Traced fits (expects cfg) post done

end

/-- What some operations add to what was done. -/
structure Adds (new : List Transfer) (times : List ℕ) (done done' : List Done) : Prop where
  transfers : transfers done' = new ++ transfers done
  stamps : stamps done' = times ++ stamps done
  executions : executions done' = executions done
  latencies : latencies done' = latencies done

section
variable {A : Type} {cfg : Config} {post : A → List Done → Prop} {done : List Done}

theorem serverFree_eq (prev now : ℕ) : serverFree prev now = max now prev := by
  unfold serverFree
  split <;> omega

theorem queueDelay_eq (prev now : ℕ) : now + queueDelay prev now = serverFree prev now := by
  unfold serverFree queueDelay
  split <;> omega

theorem add_eq {a b : ℕ} (fit : a + b < 2 ^ 64) : add a b = a + b := Nat.mod_eq_of_lt fit

theorem traced_sleepNs {f : Unit → Delayed A} {n : ℕ}
    (next : ∀ done' start times, Adds [] times done done' →
      (cfg.sleepEnabled = true → times = [start + preciseSleepNs n, start] ∧ ∀ c ∈ stamps done, c ≤ start) →
        Traced cfg post (f ()) done') :
    Traced cfg post (sleepNs cfg n >>= f) done := by
  unfold sleepNs
  split
  · rename_i enabled
    refine ⟨trivial, fun (start : ℕ) after => ⟨⟨start, List.mem_cons_self, Nat.le_add_right _ _⟩, fun _ _ => ?_⟩⟩
    exact next _ start [start + preciseSleepNs n, start] ⟨rfl, rfl, rfl, rfl⟩ fun _ => ⟨rfl, after⟩
  · rename_i disabled
    exact next done 0 [] ⟨rfl, rfl, rfl, rfl⟩ fun enabled => absurd enabled disabled

/-- What a reservation ends with. -/
structure Reserves (cfg : Config) (server tTrans delay : ℕ) (x : Transfer) : Prop where
  on : x.server = server
  takes : x.tTrans = tTrans
  late : x.finish = x.asked + delay
  wait : delay + tTrans + cfg.baseRttNs < 2 ^ 52

theorem traced_reserve {f : ℕ → Delayed A} {server tTrans now bound prev : ℕ} {d : List Done} (asked : lastAsked done = now)
    (same : Adds [] [now] d done)
    (next : ∀ done' delay x, Reserves cfg server tTrans delay x → x.asked = now → Adds [x] [now] d done' →
      Traced cfg post (f delay) done') :
    Traced cfg post (reserve server tTrans now bound prev >>= f) done := by
  induction bound generalizing done prev with
  | zero => trivial
  | succ bound ih =>
    refine ⟨congrArg (fun now => add (serverFree prev now) tTrans) asked.symm, fun (found : Bool × ℕ) moderate => ?_⟩
    obtain ⟨ok, value⟩ := found
    cases ok with
    | false => exact ih asked ⟨same.transfers, same.stamps, same.executions, same.latencies⟩
    | true =>
      obtain ⟨finish, wait⟩ : Moderate cfg tTrans prev now := asked ▸ moderate
      have later := queueDelay_eq prev now
      have delay : add (queueDelay prev now) tTrans = queueDelay prev now + tTrans := add_eq (by omega)
      refine next _ _ ⟨⟨now, serverFree prev now, add (serverFree prev now) tTrans⟩, server, tTrans⟩ ⟨rfl, rfl, ?_, by omega⟩ rfl
        ⟨?_, same.stamps, same.executions, same.latencies⟩
      · show add (serverFree prev now) tTrans = now + add (queueDelay prev now) tTrans
        rw [add_eq finish]
        omega
      · show [Transfer.mk ⟨lastAsked done, serverFree prev (lastAsked done), _⟩ server tTrans] ++ transfers done = _
        rw [asked, same.transfers, List.nil_append]

theorem traced_delay {f : ℕ → Delayed A} {server tTrans : ℕ}
    (next : ∀ done' delay x, Reserves cfg server tTrans delay x → (∀ c ∈ stamps done, c ≤ x.asked) → Adds [x] [x.asked] done done' →
      Traced cfg post (f delay) done') :
    Traced cfg post (getServerTimeDelay cfg server tTrans >>= f) done := by
  refine ⟨trivial, fun (now : ℕ) after => ⟨trivial, fun (prev : ℕ) _ => ?_⟩⟩
  refine traced_reserve rfl (d := done) ⟨rfl, rfl, rfl, rfl⟩ fun done' delay x reserves asked adds => ?_
  exact next done' delay x reserves (asked ▸ after) (asked ▸ adds)

/-! ## The functions -/

theorem completed_single {op : RDMAOp} {x : Transfer} {delay rtt : ℕ}
    (reserves : Reserves cfg op.addr.serverIndex.toNat (calculateBwDelayNs op) delay x)
    (one : transfers done = [x]) (executed : executions done = [op]) (counted : latencies done = [rtt])
    (timely : cfg.Steady →
      stamps done ≠ [] ∧ begun done = x.asked ∧ x.finish + 2 * oneWayNs cfg ≤ latest done + 2 ∧
        x.asked + rtt ≤ latest done + 2) : Completed cfg [op] done := by
  refine ⟨?_, ?_, fun on => .inr (timely on).1, fun on y inside => ?_, fun on r inside => ?_⟩
  · rw [one]
    simp [reserves.on, reserves.takes]
  · rw [executed]
    rfl
  · obtain ⟨-, first, back, -⟩ := timely on
    rw [one] at inside
    obtain rfl := List.mem_singleton.1 inside
    have late := reserves.late
    omega
  · obtain ⟨-, first, -, last⟩ := timely on
    rw [counted] at inside
    obtain rfl := List.mem_singleton.1 inside
    omega

theorem traced_performOp (op : RDMAOp) :
    Traced cfg (fun result done => result = true → Completed cfg [op] done) (performOp cfg op) [] := by
  unfold performOp
  split
  · exact fun returned => nomatch returned
  refine traced_delay fun d₁ delay x reserves _ reserved => ?_
  refine traced_sleepNs fun d₂ s₁ times₁ slept enabled => ⟨trivial, fun (result : Bool) _ => ?_⟩
  refine traced_sleepNs fun d₃ s₂ times₂ slept' enabled' => ⟨trivial, fun _ _ _ => ?_⟩
  have half : 2 * oneWayNs cfg ≤ cfg.baseRttNs := Nat.mul_div_le _ _
  have wait := reserves.wait
  have back : returnDelay op ≤ calculateBwDelayNs op := by
    unfold returnDelay
    split
    · exact Nat.le_refl _
    · exact Nat.zero_le _
  have pre : add (oneWayNs cfg) delay = oneWayNs cfg + delay := add_eq (by omega)
  have post : add (oneWayNs cfg) (returnDelay op) = oneWayNs cfg + returnDelay op := add_eq (by omega)
  have both : add (oneWayNs cfg + delay) (oneWayNs cfg + returnDelay op) = oneWayNs cfg + delay +
    (oneWayNs cfg + returnDelay op) := add_eq (by omega)
  have one : transfers d₃ = [x] := by
    rw [slept'.transfers]
    exact slept.transfers.trans reserved.transfers
  have executed : executions d₃ = [op] := by
    rw [slept'.executions]
    exact congrArg (op :: ·) (slept.executions.trans reserved.executions)
  have counted : latencies d₃ = [] := slept'.latencies.trans (slept.latencies.trans reserved.latencies)
  refine completed_single reserves one executed (congrArg (_ :: ·) counted) fun steady => ?_
  obtain ⟨rfl, after⟩ := enabled steady.enabled
  obtain ⟨rfl, after'⟩ := enabled' steady.enabled
  have all : stamps d₃ =
    [s₂ + preciseSleepNs (add (oneWayNs cfg) (returnDelay op)), s₂, s₁ + preciseSleepNs (add (oneWayNs cfg) delay), s₁,
      x.asked] := by
    rw [slept'.stamps]
    show _ ++ stamps d₂ = _
    rw [slept.stamps, reserved.stamps]
    rfl
  have first := after x.asked (by rw [reserved.stamps]; exact List.mem_cons_self)
  have second := after' (s₁ + preciseSleepNs (add (oneWayNs cfg) delay))
    (by show _ ∈ stamps d₂; rw [slept.stamps]; exact List.mem_cons_self)
  have long := le_preciseSleepNs (oneWayNs cfg + delay) (by omega)
  have long' := le_preciseSleepNs (oneWayNs cfg + returnDelay op) (by omega)
  have late := reserves.late
  show stamps d₃ ≠ [] ∧ begun d₃ = _ ∧ _ ≤ latest d₃ + 2 ∧ _ ≤ latest d₃ + 2
  rw [pre, post] at all ⊢
  rw [pre] at second
  rw [both, begun, latest, all]
  simp only [List.headD_cons, List.getLastD_cons, List.getLastD_nil, ne_eq, reduceCtorEq, not_false_eq_true, true_and]
  omega

/-- A batch whose first operations are done. -/
structure Halfway (cfg : Config) (past : List RDMAOp) (maxPath : ℕ) (done : List Done) : Prop where
  reserved : (transfers done).reverse.map (fun x => (x.server, x.tTrans)) = past.map fun op =>
    (op.addr.serverIndex.toNat, calculateBwDelayNs op)
  executed : (executions done).reverse = past
  path : cfg.Steady → maxPath + cfg.baseRttNs < 2 ^ 52
  sent : cfg.Steady → stamps done ≠ [] ∧ begun done + oneWayNs cfg ≤ latest done + 1
  queued : cfg.Steady → ∀ x ∈ transfers done,
    begun done + oneWayNs cfg ≤ x.asked + 1 ∧ begun done ≤ x.asked ∧ x.asked ≤ latest done ∧ x.finish ≤ x.asked + maxPath
  counted : ∀ rtt ∈ latencies done, rtt ≤ 2 * oneWayNs cfg + maxPath

theorem begun_append {done' : List Done} {l : List ℕ} (some : stamps done ≠ []) (eq : stamps done' = l ++ stamps done) :
    begun done' = begun done := by
  rw [begun, begun, eq, List.getLastD_eq_getLast?, List.getLastD_eq_getLast?, List.getLast?_append_of_ne_nil _ some]

theorem latest_mem (some : stamps done ≠ []) : latest done ∈ stamps done := by
  obtain ⟨c, rest, eq⟩ := List.exists_cons_of_ne_nil some
  rw [latest, eq]
  exact List.mem_cons_self

theorem begun_mem (some : stamps done ≠ []) : begun done ∈ stamps done := by
  rw [begun, List.getLastD_eq_getLast?, List.getLast?_eq_some_getLast some]
  exact List.getLast_mem some

theorem Halfway.more {past : List RDMAOp} {maxPath delay : ℕ} {op : RDMAOp} {x : Transfer} {done' : List Done}
    (halfway : Halfway cfg past maxPath done)
    (reserves : Reserves cfg op.addr.serverIndex.toNat (calculateBwDelayNs op) delay x) (after : ∀ c ∈ stamps done, c ≤ x.asked)
    (reserved : transfers done' = x :: transfers done) (executed : executions done' = op :: executions done)
    (stamped : stamps done' = x.asked :: stamps done) (counted : latencies done' = (2 * oneWayNs cfg + delay) :: latencies done) :
    Halfway cfg (past ++ [op]) (max maxPath delay) done' := by
  -- one more operation of the batch is done
  have wait := reserves.wait
  have late := reserves.late
  refine ⟨?_, ?_, fun steady => ?_, fun on => ?_, fun on y inside => ?_, fun rtt inside => ?_⟩
  · rw [reserved, List.reverse_cons, List.map_append, List.map_append, halfway.reserved]
    simp [reserves.on, reserves.takes]
  · rw [executed, List.reverse_cons, halfway.executed]
  · have path := halfway.path steady
    omega
  · obtain ⟨some, sent⟩ := halfway.sent on
    refine ⟨by rw [stamped]; exact List.cons_ne_nil _ _, ?_⟩
    have last := after _ (latest_mem some)
    rw [begun_append (l := [x.asked]) some stamped, latest, stamped, List.headD_cons]
    omega
  · obtain ⟨some, sent⟩ := halfway.sent on
    have last := after _ (latest_mem some)
    rw [begun_append (l := [x.asked]) some stamped, latest, stamped, List.headD_cons]
    rw [reserved] at inside
    rcases List.mem_cons.1 inside with rfl | old
    · have first := after _ (begun_mem some)
      omega
    · have before := halfway.queued on y old
      omega
  · rw [counted] at inside
    rcases List.mem_cons.1 inside with rfl | old
    · omega
    · have before := halfway.counted rtt old
      omega

theorem traced_performAll {past ops : List RDMAOp} {maxPath : ℕ} (halfway : Halfway cfg past maxPath done) :
    Traced cfg (fun result done => result = true → Completed cfg (past ++ ops) done) (performAll cfg ops maxPath) done := by
  have half : 2 * oneWayNs cfg ≤ cfg.baseRttNs := Nat.mul_div_le _ _
  induction ops generalizing past maxPath done with
  | nil =>
    refine traced_sleepNs fun d start times slept enabled _ => ?_
    rw [List.append_nil]
    have timely : cfg.Steady → begun d = begun done ∧ latest done + maxPath + oneWayNs cfg ≤ latest d + 1 ∧
        begun done + oneWayNs cfg ≤ latest done + 1 := by
      intro steady
      have path := halfway.path steady
      have sum : add maxPath (oneWayNs cfg) = maxPath + oneWayNs cfg := add_eq (by omega)
      obtain ⟨some, sent⟩ := halfway.sent steady
      obtain ⟨rfl, after⟩ := enabled steady.enabled
      have last := after _ (latest_mem some)
      have long := le_preciseSleepNs (maxPath + oneWayNs cfg) (by omega)
      refine ⟨begun_append some slept.stamps, ?_, sent⟩
      show latest done + maxPath + oneWayNs cfg ≤ (stamps d).headD 0 + 1
      rw [slept.stamps, sum]
      simp only [List.cons_append, List.headD_cons]
      omega
    refine ⟨?_, ?_, fun steady => .inr ?_, fun on x inside => ?_, fun on rtt inside => ?_⟩
    · rw [slept.transfers]
      exact halfway.reserved
    · rw [slept.executions]
      exact halfway.executed
    · rw [slept.stamps]
      exact List.append_ne_nil_of_right_ne_nil _ (halfway.sent steady).1
    · rw [slept.transfers] at inside
      obtain ⟨first, last, -⟩ := timely on
      have queued := halfway.queued on x inside
      omega
    · rw [slept.latencies] at inside
      obtain ⟨first, last, sent⟩ := timely on
      have counted := halfway.counted rtt inside
      omega
  | cons op ops ih =>
    unfold performAll
    split
    · exact fun returned => nomatch returned
    refine traced_delay fun d delay x reserves after reserved => ⟨trivial, fun (result : Bool) _ => ?_⟩
    cases result with
    | false => exact fun returned => nomatch returned
    | true =>
      refine ⟨trivial, fun _ _ => ?_⟩
      have wait := reserves.wait
      have first : add (oneWayNs cfg) delay = oneWayNs cfg + delay := add_eq (by omega)
      have rtt : add (add (oneWayNs cfg) delay) (oneWayNs cfg) = 2 * oneWayNs cfg + delay := by
        rw [first, add_eq (by omega)]
        omega
      have split : past ++ op :: ops = past ++ [op] ++ ops := by simp
      rw [split]
      refine ih (halfway.more reserves after reserved.transfers ?_ reserved.stamps ?_)
      · exact congrArg (op :: ·) reserved.executions
      · rw [← rtt]
        exact congrArg (_ :: ·) reserved.latencies

theorem traced_performBatch (ops : List RDMAOp) :
    Traced cfg (fun result done => result = true → Completed cfg ops done) (performBatch cfg ops) [] := by
  unfold performBatch
  split
  · rename_i empty
    exact fun _ => ⟨by rw [empty]; rfl, empty.symm, fun _ => .inl rfl, fun _ x inside => (nomatch inside),
      fun _ rtt inside => (nomatch inside)⟩
  refine traced_sleepNs fun d start times slept enabled => ?_
  have half : 2 * oneWayNs cfg ≤ cfg.baseRttNs := Nat.mul_div_le _ _
  have halfway : Halfway cfg [] 0 d := by
    refine ⟨by rw [slept.transfers]; rfl, by rw [slept.executions]; rfl, fun steady => ?_, fun steady => ?_,
      fun _ x inside => ?_, fun rtt inside => ?_⟩
    · have := steady.rtt
      omega
    · obtain ⟨rfl, -⟩ := enabled steady.enabled
      have small := steady.rtt
      have long := le_preciseSleepNs (oneWayNs cfg) (by omega)
      refine ⟨by rw [slept.stamps]; exact List.cons_ne_nil _ _, ?_⟩
      rw [begun, latest, slept.stamps]
      show start + oneWayNs cfg ≤ start + preciseSleepNs (oneWayNs cfg) + 1
      omega
    · rw [slept.transfers] at inside
      cases inside
    · rw [slept.latencies] at inside
      cases inside
  exact traced_performAll halfway

end

/-! ## Every run -/

section
variable {cfg : Config} {t : ℕ} {s s' : State}

theorem exec_stamps {o : Act} {c : Bool} {r : o.Reply} (performed : State.exec t o c s = some (r, s')) :
    s'.clock = s.clock ∧ ∀ c ∈ stampOf ⟨o, r⟩, c = s.clock ∨ o = .wake c ∧ c ≤ s.clock := by
  -- the stamps of an operation are read from the clock or waited for
  cases o with
  | compareExchange server tTrans expected desired =>
    simp only [State.exec] at performed
    split at performed <;> cases performed <;> exact ⟨rfl, List.forall_mem_nil _⟩
  | wake target =>
    obtain ⟨reached, done⟩ := Option.ite_none_right_eq_some.1 performed
    cases done
    refine ⟨rfl, fun c inside => .inr ?_⟩
    obtain rfl := List.mem_singleton.1 inside
    exact ⟨rfl, reached⟩
  | execute op =>
    simp only [State.exec] at performed
    split at performed <;> cases performed
    exact ⟨rfl, List.forall_mem_nil _⟩
  | currentTime =>
    cases performed
    exact ⟨rfl, fun c inside => .inl (List.mem_singleton.1 inside)⟩
  | startSleep =>
    cases performed
    exact ⟨rfl, fun c inside => .inl (List.mem_singleton.1 inside)⟩
  | _ =>
    cases performed
    exact ⟨rfl, List.forall_mem_nil _⟩

/-- Only a `compare_exchange_weak` that succeeds reserves a link. -/
theorem exec_transfer {o : Act} {c : Bool} {r : o.Reply} (performed : State.exec t o c s = some (r, s')) :
    (∀ before, transferOf ⟨o, r⟩ before = none) ∧ s'.finishTimes = s.finishTimes ∨
      ∃ server tTrans desired, o = .compareExchange server tTrans (s.finishTimes server) desired ∧
        s'.finishTimes = Function.update s.finishTimes server desired ∧
        ∀ before, transferOf ⟨o, r⟩ before =
          some ⟨⟨lastAsked before, serverFree (s.finishTimes server) (lastAsked before), desired⟩, server, tTrans⟩ := by
  cases o with
  | compareExchange server tTrans expected desired =>
    simp only [State.exec] at performed
    split at performed
    · rename_i found
      cases performed
      obtain ⟨rfl, -⟩ := found
      exact .inr ⟨server, tTrans, desired, rfl, rfl, fun _ => rfl⟩
    · cases performed
      exact .inl ⟨fun _ => rfl, rfl⟩
  | wake target =>
    obtain ⟨-, done⟩ := Option.ite_none_right_eq_some.1 performed
    cases done
    exact .inl ⟨fun _ => rfl, rfl⟩
  | execute op =>
    simp only [State.exec] at performed
    split at performed <;> cases performed
    exact .inl ⟨fun _ => rfl, rfl⟩
  | _ =>
    cases performed
    exact .inl ⟨fun _ => rfl, rfl⟩

theorem jobsOn_performed (server : ℕ) (e : Done) (history : List Event) :
    jobsOn server (.performed t e :: history) =
      (((transferOf e (operations t history)).toList.filter fun x => x.server = server).map Transfer.toJob) ++ jobsOn server
        history := by
  simp only [jobsOn, allTransfers, List.filter_append, List.map_append]

/-! ## The links -/

/-- An exchange tries to set the end of the transfer that it reserves. -/
def orders (done : List Done) : Act → Prop
  | .compareExchange _ tTrans expected desired => desired = add (serverFree expected (lastAsked done)) tTrans
  | _ => True

section
variable {A B : Type}

/-- Whatever the replies, the exchanges are in order. -/
abbrev Orders (p : Delayed A) (done : List Done) : Prop := p.Traced orders (fun _ _ _ => True) (fun _ _ => True) done

theorem orders_bind {p : Delayed A} {f : A → Delayed B} {done : List Done} (first : Orders p done)
    (later : ∀ a done, Orders (f a) done) : Orders (p >>= f) done :=
  traced_bind (traced_mono first fun a done _ => later a done)

theorem orders_reserve {server tTrans now bound prev : ℕ} {done : List Done} (asked : lastAsked done = now) :
    Orders (reserve server tTrans now bound prev) done := by
  induction bound generalizing done prev with
  | zero => trivial
  | succ bound ih =>
    refine ⟨congrArg (fun now => add (serverFree prev now) tTrans) asked.symm, fun (found : Bool × ℕ) _ => ?_⟩
    show Orders (if found.1 then _ else _) _
    split
    · trivial
    · exact ih asked

theorem orders_delay (server tTrans : ℕ) (done : List Done) : Orders (getServerTimeDelay cfg server tTrans) done :=
  ⟨trivial, fun (_ : ℕ) _ => ⟨trivial, fun (_ : ℕ) _ => orders_reserve rfl⟩⟩

theorem orders_sleepNs (interval : ℕ) (done : List Done) : Orders (sleepNs cfg interval) done := by
  unfold sleepNs
  split
  · exact ⟨trivial, fun (_ : ℕ) _ => ⟨trivial, fun _ _ => trivial⟩⟩
  · trivial

theorem orders_performOp (op : RDMAOp) (done : List Done) : Orders (performOp cfg op) done := by
  unfold performOp
  split
  · trivial
  refine orders_bind (orders_delay ..) fun delay _ => orders_bind (orders_sleepNs ..) fun _ _ => ?_
  refine orders_bind ⟨trivial, fun _ _ => trivial⟩ fun result _ => ?_
  exact orders_bind (orders_sleepNs ..) fun _ _ => ⟨trivial, fun _ _ => trivial⟩

theorem orders_performAll (ops : List RDMAOp) (maxServerPath : ℕ) (done : List Done) :
    Orders (performAll cfg ops maxServerPath) done := by
  induction ops generalizing maxServerPath done with
  | nil => exact orders_bind (orders_sleepNs ..) fun _ _ => trivial
  | cons op ops ih =>
    unfold performAll
    split
    · trivial
    refine orders_bind (orders_delay ..) fun _ _ => ⟨trivial, fun (result : Bool) _ => ?_⟩
    cases result with
    | true => exact ⟨trivial, fun _ _ => ih _ _⟩
    | false => trivial

theorem orders_body (call : Call) : Orders (call.body cfg) [] := by
  cases call with
  | single op => exact orders_performOp op []
  | batch ops =>
    show Orders (if ops = [] then _ else _) []
    split
    · trivial
    · exact orders_bind (orders_sleepNs ..) fun _ _ => orders_performAll ops 0 _

end

/-- What every state keeps of the links. -/
structure Paced (s : State) : Prop where
  served : ∀ server, Served (jobsOn server s.history) (s.finishTimes server)
  exact : ∀ x ∈ allTransfers s.history, x.finish = x.start + x.tTrans

theorem Paced.act (paced : Paced s) {o : Act} {c : Bool} {r : o.Reply} (performed : State.exec t o c s = some (r, s'))
    (met : finishing t o r s) (fit : orders (operations t s.history) o) : Paced s' := by
  have history := exec_history performed
  refine ⟨fun server => ?_, fun x inside => ?_⟩
  · rw [history, jobsOn_performed]
    rcases exec_transfer performed with ⟨none, same⟩ | ⟨target, tTrans, desired, rfl, finishTimes, some⟩
    · rw [none, same]
      exact paced.served server
    · obtain rfl : desired = _ := fit
      have finish : serverFree (s.finishTimes target) (lastAsked (operations t s.history)) + tTrans < 2 ^ 64 := met
      rw [some, finishTimes, Option.toList_some]
      by_cases here : target = server
      · subst here
        rw [Function.update_self, List.filter_cons_of_pos (by simp), List.filter_nil, List.map_singleton]
        rw [add_eq finish]
        exact .serve (j := ⟨_, _, _⟩) (paced.served target) (serverFree_eq _ _) (Nat.le_add_right _ _)
      · rw [Function.update_of_ne (Ne.symm here), List.filter_cons_of_neg (by simpa using here)]
        exact paced.served server
  · rw [history, allTransfers] at inside
    rcases List.mem_append.1 inside with new | old
    · rcases exec_transfer performed with ⟨none, -⟩ | ⟨target, tTrans, desired, rfl, -, some⟩
      · rw [none] at new
        cases new
      · obtain rfl : desired = _ := fit
        have finish : serverFree (s.finishTimes target) (lastAsked (operations t s.history)) + tTrans < 2 ^ 64 := met
        rw [some] at new
        obtain rfl := List.mem_singleton.1 new
        exact add_eq finish
    · exact paced.exact x old

theorem upholds_paced : Upholds (system cfg) (fun t s => operations t s.history) Paced orders (fun _ _ _ => True)
    (fun _ _ _ => True) finishing where
  invoke _ _ _ paced := ⟨paced.served, paced.exact⟩
  act _ _ _ _ _ _ paced performed met fit := ⟨paced.act performed met fit, trivial⟩
  finish _ _ _ _ paced _ := ⟨paced.served, paced.exact⟩
  env _ _ paced moved := by
    obtain ⟨clock, -, rfl⟩ := moved
    exact ⟨paced.served, paced.exact⟩

/-- The transfers of a link follow one another without overlaps, each starts when the one before is done or when its
client asks, and no window has more work than it is long. -/
theorem transfers_never_overlap {clock : ℕ} {fabric : Fabric} {P : Pool signature ℕ Call Bool State}
    (run : Reaches (system cfg) finishing (Pool.start (.idle clock fabric)) P) :
    (∀ x ∈ allTransfers P.shared.history, x.finish = x.start + x.tTrans) ∧ ∀ server,
      Served (jobsOn server P.shared.history) (P.shared.finishTimes server) ∧
      (jobsOn server P.shared.history).Pairwise (fun newer older => older.finish ≤ newer.start) ∧
      ∀ x y, work x y (jobsOn server P.shared.history) ≤ y - x := by
  have start : Paced (State.idle clock fabric) := ⟨fun _ => .none, fun _ inside => (nomatch inside)⟩
  have paced := (keeping_reaches (recorded_operations cfg) upholds_paced (fun _ _ call _ => orders_body call) start run).holds
  refine ⟨paced.exact, fun server => ⟨paced.served server, (paced.served server).apart, fun x y => ?_⟩⟩
  have bound : work x y (jobsOn server P.shared.history) ≤ min (P.shared.finishTimes server) y - x := (paced.served server).work_le
  omega

/-! ## The calls -/

variable (cfg) in
/-- What every state keeps of the calls. -/
structure Keeps (s : State) : Prop where
  stamped : ∀ t, invokedAt t s.history ≤ s.clock ∧ ∀ c ∈ stamps (operations t s.history), invokedAt t s.history ≤ c ∧ c ≤ s.clock
  returned : ∀ later earlier t call time, s.history = later ++ .returned t call true time :: earlier →
    Completed cfg call.ops (operations t earlier) ∧ ∀ c ∈ stamps (operations t earlier), invokedAt t earlier ≤ c ∧ c ≤ time

theorem returned_cons {e : Event} {history later earlier : List Event} {call : Call} {time : ℕ}
    (eq : e :: history = later ++ .returned t call true time :: earlier) :
    e = .returned t call true time ∧ history = earlier ∨ ∃ later', history = later' ++ .returned t call true time :: earlier := by
  cases later with
  | nil =>
    cases eq
    exact .inl ⟨rfl, rfl⟩
  | cons _ later' =>
    obtain ⟨-, rest⟩ := List.cons.inj eq
    exact .inr ⟨later', rest⟩

theorem Keeps.act (keeps : Keeps cfg s) {o : Act} {c : Bool} {r : o.Reply} (performed : State.exec t o c s = some (r, s'))
    (met : representable cfg t o r s) (fit : fits (operations t s.history) o) :
    Keeps cfg s' ∧ expects cfg (operations t s.history) o r := by
  have history := exec_history performed
  obtain ⟨clock, stamp⟩ := exec_stamps performed
  refine ⟨⟨fun u => ?_, fun later earlier u call time eq => ?_⟩, ?_⟩
  · obtain ⟨invoked, old⟩ := keeps.stamped u
    rw [history, clock]
    refine ⟨invoked, fun k inside => ?_⟩
    have kept : k ∈ stamps (operations u s.history) → invokedAt u s.history ≤ k ∧ k ≤ s.clock := old k
    by_cases same : u = t
    · subst same
      rw [operations, if_pos rfl, stamps, List.flatMap_cons] at inside
      rcases List.mem_append.1 inside with new | before
      · rcases stamp k new with rfl | ⟨rfl, reached⟩
        · exact ⟨invoked, Nat.le_refl _⟩
        · obtain ⟨j, earlier, le⟩ := fit
          exact ⟨le_trans (old j earlier).1 le, reached⟩
      · exact kept before
    · rw [operations, if_neg same] at inside
      exact kept inside
  · rw [history] at eq
    rcases returned_cons eq with ⟨same, -⟩ | ⟨later', before⟩
    · cases same
    · exact keeps.returned later' earlier u call time before
  · cases o with
    | currentTime =>
      cases performed
      exact fun c inside => ((keeps.stamped t).2 c inside).2
    | startSleep =>
      cases performed
      exact fun c inside => ((keeps.stamped t).2 c inside).2
    | compareExchange server tTrans expected desired => exact met
    | _ => trivial

theorem Keeps.invoke (keeps : Keeps cfg s) (call : Call) : Keeps cfg (s.note (.invoked t call s.clock)) := by
  refine ⟨fun u => ?_, fun later earlier u call time eq => ?_⟩
  · simp only [State.note, operations, invokedAt]
    split
    · exact ⟨Nat.le_refl _, fun k inside => nomatch inside⟩
    · exact keeps.stamped u
  · rcases returned_cons eq with ⟨same, -⟩ | ⟨later', before⟩
    · cases same
    · exact keeps.returned later' earlier u call time before

theorem Keeps.finish (keeps : Keeps cfg s) {call : Call} {result : Bool}
    (completed : result = true → Completed cfg call.ops (operations t s.history)) :
    Keeps cfg (s.note (.returned t call result s.clock)) := by
  refine ⟨keeps.stamped, fun later earlier u call time eq => ?_⟩
  rcases returned_cons eq with ⟨same, rfl⟩ | ⟨later', before⟩
  · cases same
    exact ⟨completed rfl, (keeps.stamped t).2⟩
  · exact keeps.returned later' earlier u call time before

theorem Keeps.tick (keeps : Keeps cfg s) {clock : ℕ} (later : s.clock ≤ clock) : Keeps cfg { s with clock } := by
  refine ⟨fun u => ?_, keeps.returned⟩
  obtain ⟨invoked, stamped⟩ := keeps.stamped u
  exact ⟨le_trans invoked later, fun k inside => ⟨(stamped k inside).1, le_trans (stamped k inside).2 later⟩⟩

theorem transfers_operations {history : List Event} {x : Transfer} (inside : x ∈ transfers (operations t history)) :
    x ∈ allTransfers history := by
  induction history with
  | nil => cases inside
  | cons e rest ih =>
    cases e with
    | invoked u call time =>
      rw [operations] at inside
      split at inside
      · cases inside
      · exact ih inside
    | performed u e =>
      rw [operations] at inside
      split at inside
      · rename_i same
        subst same
        rcases List.mem_append.1 inside with new | old
        · exact List.mem_append_left _ new
        · exact List.mem_append_right _ (ih old)
      · exact List.mem_append_right _ (ih inside)
    | returned u call result time => exact ih inside

theorem allTransfers_append (later : List Event) {earlier : List Event} {x : Transfer} (inside : x ∈ allTransfers earlier) :
    x ∈ allTransfers (later ++ earlier) := by
  induction later with
  | nil => exact inside
  | cons e rest ih =>
    cases e with
    | performed u e => exact List.mem_append_right _ ih
    | _ => exact ih

theorem upholds_keeps : Upholds (system cfg) (fun t s => operations t s.history) (Keeps cfg) fits (expects cfg)
    (fun call result done => result = true → Completed cfg call.ops done) (representable cfg) where
  invoke _ call _ keeps := keeps.invoke call
  act _ _ _ _ _ _ keeps performed met fit := keeps.act performed met fit
  finish _ _ _ _ keeps completed := keeps.finish completed
  env _ _ keeps moved := by
    obtain ⟨clock, later, rfl⟩ := moved
    exact keeps.tick later

theorem traced_body (call : Call) : Traced cfg (fun result done => result = true → Completed cfg call.ops done)
    (call.body cfg) [] := by
  cases call with
  | single op => exact traced_performOp op
  | batch ops => exact traced_performBatch ops

variable {clock : ℕ} {fabric : Fabric} {P : Pool signature ℕ Call Bool State}

theorem keeps_reaches (run : Reaches (system cfg) (representable cfg) (Pool.start (.idle clock fabric)) P) : Keeps cfg P.shared := by
  have start : Keeps cfg (State.idle clock fabric) := by
    refine ⟨fun _ => ⟨Nat.zero_le _, fun _ inside => (nomatch inside)⟩, fun later _ _ _ _ eq => ?_⟩
    cases later <;> cases eq
  exact (keeping_reaches (recorded_operations cfg) upholds_keeps (fun _ _ call _ => traced_body call) start run).holds

/-- A call that returns true has reserved one transfer for each of its operations, and has waited for them and for both ways. -/
theorem calls_wait (steady : cfg.Steady) (run : Reaches (system cfg) (representable cfg) (Pool.start (.idle clock fabric)) P)
    {later earlier : List Event} {t time : ℕ} {call : Call}
    (returned : P.shared.history = later ++ .returned t call true time :: earlier) :
    (executions (operations t earlier)).reverse = call.ops ∧
    (transfers (operations t earlier)).reverse.map (fun x => (x.server, x.tTrans)) =
      call.ops.map (fun op => (op.addr.serverIndex.toNat, calculateBwDelayNs op)) ∧
    (∀ x ∈ transfers (operations t earlier), x ∈ allTransfers P.shared.history ∧ invokedAt t earlier ≤ x.asked ∧
      x.finish + oneWayNs cfg ≤ time + 2 ∧ invokedAt t earlier + 2 * oneWayNs cfg + (x.finish - x.asked) ≤ time + 2) ∧
    ∀ rtt ∈ latencies (operations t earlier), invokedAt t earlier + rtt ≤ time + 2 := by
  have keeps := keeps_reaches run
  obtain ⟨completed, within⟩ := keeps.returned later earlier t call time returned
  have span : operations t earlier ≠ [] → invokedAt t earlier ≤ begun (operations t earlier) ∧
    latest (operations t earlier) ≤ time := by
    intro some
    rcases completed.stamped steady with none | some
    · exact absurd none some
    · exact ⟨(within _ (begun_mem some)).1, (within _ (latest_mem some)).2⟩
  refine ⟨completed.executed, completed.reserved, fun x inside => ⟨?_, ?_⟩, fun rtt inside => ?_⟩
  · rw [returned]
    exact allTransfers_append later (transfers_operations inside)
  · obtain ⟨first, last⟩ := span (by rintro none; rw [none] at inside; cases inside)
    have waited := completed.waited steady x inside
    omega
  · obtain ⟨first, last⟩ := span (by rintro none; rw [none] at inside; cases inside)
    have counted := completed.counted steady rtt inside
    omega

end

/-! ## Two clients of one server -/

/-- The reservations for which the times are representable. -/
def modest (cfg : Config) : Test signature ℕ State := fun t o _ s =>
  match o with
  | .compareExchange _ tTrans expected _ =>
    decide (serverFree expected (lastAsked (operations t s.history)) + tTrans < 2 ^ 64 ∧
      queueDelay expected (lastAsked (operations t s.history)) + 2 * tTrans + cfg.baseRttNs < 2 ^ 52)
  | _ => true

theorem modest_representable {cfg : Config} (t : ℕ) (o : signature.Op) (r : signature.Reply o) (s : State)
    (allowed : modest cfg t o r s = true) :
    representable cfg t o r s := by
  cases o with
  | compareExchange server tTrans expected desired =>
    obtain ⟨finish, wait⟩ := of_decide_eq_true allowed
    exact ⟨finish, wait⟩
  | _ => trivial

theorem finishing_of_representable {cfg : Config} (t : ℕ) (o : signature.Op) (r : signature.Reply o) (s : State)
    (met : representable cfg t o r s) : finishing t o r s := by
  cases o with
  | compareExchange server tTrans expected desired => exact Moderate.finish met
  | _ => trivial

abbrev Lab := Pool signature ℕ Call Bool State

def Lab.go (P : Lab) (moves : List (Move ℕ Bool Call)) : Lab := P.drive (system lab) (fun _ _ _ => true) (modest lab) moves

def Lab.wait (P : Lab) (n : ℕ) : Lab := ⟨{ P.shared with clock := P.shared.clock + n }, P.threads⟩

theorem reaches_go (P : Lab) (moves : List (Move ℕ Bool Call)) : Reaches (system lab) (representable lab) P (P.go moves) :=
  reaches_drive (fun _ _ _ _ => trivial) modest_representable P moves

theorem reaches_wait (P : Lab) (n : ℕ) : Reaches (system lab) (representable lab) P (P.wait n) :=
  .single (.environment ⟨_, Nat.le_add_right _ _, rfl⟩)

def Lab.start : Lab := Pool.start labStart

/-- Both clients find the link free; the second one has to try again. -/
def contended : Lab :=
  Lab.start.go [.invoke 0 (.single smallRead), .invoke 1 (.single smallRead), .act 0 true, .act 1 true, .act 0 true,
    .act 1 true, .act 0 true,
    .act 1 true, .act 1 true]

theorem transfers_never_overlap_contended :
    (jobsOn 0 contended.shared.history).map (fun job => (job.start, job.finish)) = [(7, 9), (5, 7)] ∧
    work 5 9 (jobsOn 0 contended.shared.history) ≤ 4 := by
  have jobs : (jobsOn 0 contended.shared.history).map (fun job => (job.start, job.finish)) = [(7, 9), (5, 7)] := by decide +kernel
  have run : Reaches (system lab) finishing Lab.start contended := reaches_stronger (reaches_go Lab.start _)
    fun _ t _ o _ _ _ r s _ _ _ met => finishing_of_representable t o r _ met
  exact ⟨jobs, ((transfers_never_overlap run).2 0).2.2 5 9⟩

def slowRead : Lab :=
  (((Lab.start.go (Move.part 0 (.single smallRead) true 4)).wait 1002).go [.act 0 true, .act 0 true, .act 0 true]).wait 1002 |>.go
    [.act 0 true, .act 0 true, .return 0]

def Event.isReturn (time : ℕ) : Event → Bool
  | .returned _ _ result at' => result && decide (at' = time)
  | _ => false

theorem Event.of_isReturn {e : Event} {time : ℕ} (returned : e.isReturn time = true) : ∃ t call, e = .returned t call true time := by
  cases e with
  | returned t call result k =>
    obtain ⟨rfl, same⟩ := Bool.and_eq_true_iff.1 returned
    exact ⟨t, call, by rw [of_decide_eq_true same]⟩
  | _ => cases returned

theorem calls_wait_slowRead : ∃ earlier t call time, slowRead.shared.history = .returned t call true time :: earlier ∧ time = 2009 ∧
    ∀ x ∈ transfers (operations t earlier), x.finish + 1000 ≤ time + 2 := by
  have newest : slowRead.shared.history.head?.any (Event.isReturn 2009) = true := by decide +kernel
  have run : Reaches (system lab) (representable lab) Lab.start slowRead :=
    ((((reaches_go Lab.start _).trans (reaches_wait _ 1002)).trans (reaches_go _ _)).trans (reaches_wait _ 1002)).trans
      (reaches_go _ _)
  obtain ⟨e, first, returned⟩ := (Option.any_eq_true _ _).1 newest
  obtain ⟨t, call, rfl⟩ := Event.of_isReturn returned
  obtain ⟨earlier, eq⟩ := List.head?_eq_some_iff.1 first
  obtain ⟨-, -, waited, -⟩ := calls_wait ⟨rfl, by decide⟩ run (show _ = [] ++ _ :: earlier from eq)
  exact ⟨earlier, t, call, 2009, eq, rfl, fun x inside => (waited x inside).2.2.1⟩

end Faunus.Rdma.Timed
