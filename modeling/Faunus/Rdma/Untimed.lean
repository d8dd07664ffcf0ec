import Faunus.Interleaving.Logs
import Faunus.Rdma.Delays

/-! The simulated delays only cost time.

A call that no other thread disturbs does to the memory and returns what it does when
all delays are left out.
-/

set_option autoImplicit false

namespace Faunus.Rdma.Timed

open Interleaving

section
variable {A B : Type} {cfg : Config} {t : ℕ} {s s' : State}

variable (cfg t) in
/-- A run of one thread during which only time passes. -/
inductive Alone : Delayed A → State → A → State → Prop where
  | value {a : A} {s : State} : Alone (.value a) s a s
  | perform {o : Act} {next : o.Reply → Delayed A} {c : Bool} {r : o.Reply} {s s₁ s₂ s' : State} {a : A} :
      State.exec t o c s = some (r, s₁) → (system cfg).env s₁ s₂ → Alone (next r) s₂ a s' → Alone (.perform o next) s a s'

/-- Everything but `execute_rdma`. -/
def Act.Waits (o : Act) : Prop := ∀ op, o ≠ .execute op

theorem exec_fabric {o : Act} {c : Bool} {r : o.Reply} (waits : o.Waits) (performed : State.exec t o c s = some (r, s')) :
    s'.fabric = s.fabric := by
  cases o with
  | compareExchange server tTrans expected desired =>
    simp only [State.exec] at performed
    split at performed <;> cases performed <;> rfl
  | wake target =>
    obtain ⟨-, done⟩ := Option.ite_none_right_eq_some.1 performed
    cases done
    rfl
  | execute op => exact absurd rfl (waits op)
  | _ =>
    cases performed
    rfl

theorem alone_waits {p : Delayed B} {f : B → Delayed A} (only : p.Only Act.Waits) {a : A} (ran : Alone cfg t (p >>= f) s a s') :
    ∃ b s₁, Alone cfg t (f b) s₁ a s' ∧ s₁.fabric = s.fabric := by
  induction p generalizing s with
  | value b => exact ⟨b, s, ran, rfl⟩
  | stuck => cases ran
  | perform o next ih =>
    cases ran with
    | perform performed moved later =>
      obtain ⟨clock, -, rfl⟩ := moved
      obtain ⟨b, s₂, ran', same⟩ := ih _ (only.2 _) later
      have kept := exec_fabric only.1 performed
      exact ⟨b, s₂, ran', same.trans kept⟩

theorem alone_execute {op : RDMAOp} {f : Bool → Delayed A} {a : A} (ran : Alone cfg t (.perform (.execute op) f) s a s') :
    ∃ result fabric s₁, executeRdma op s.fabric = some (result, fabric) ∧ s₁.fabric = fabric ∧ Alone cfg t (f result) s₁ a s' := by
  cases ran with
  | perform performed moved later =>
    obtain ⟨clock, -, rfl⟩ := moved
    simp only [State.exec] at performed
    split at performed
    · rename_i fabric executed
      cases performed
      exact ⟨_, fabric, _, executed, rfl, later⟩
    · cases performed

theorem only_sleepNs (n : ℕ) : (sleepNs cfg n).Only Act.Waits := by
  unfold sleepNs
  split
  · exact ⟨nofun, fun _ => ⟨nofun, fun _ => trivial⟩⟩
  · trivial

theorem only_getServerTimeDelay (server tTrans : ℕ) : (getServerTimeDelay cfg server tTrans).Only Act.Waits := by
  refine ⟨nofun, fun (now : ℕ) => ⟨nofun, fun (prev : ℕ) => ?_⟩⟩
  induction cfg.loopBound generalizing prev with
  | zero => trivial
  | succ bound ih =>
    exact ⟨nofun, fun (found : Bool × ℕ) => only_ite trivial (ih found.2)⟩

theorem waits_record {op : RDMAOp} {rtt : ℕ} : Act.Waits (.record op rtt) := nofun

theorem executeRdma_servers {op : RDMAOp} {f f' : Fabric} {result : Bool} (executed : executeRdma op f = some (result, f')) :
    f'.memServers.length = f.memServers.length := by
  unfold executeRdma at executed
  split at executed
  · cases executed
    rfl
  · split at executed
    · obtain ⟨r, -, eq⟩ := Option.map_eq_some_iff.1 executed
      cases eq
      rfl
    · obtain ⟨r, -, eq⟩ := Option.map_eq_some_iff.1 executed
      cases eq
      exact List.length_set
    · cases executed
      exact List.length_set
    · cases executed
      exact List.length_set

theorem getServer_none {f : Fabric} {op : RDMAOp} (servers : f.memServers.length = cfg.servers) :
    f.getServer op.addr = none ↔ cfg.servers ≤ op.addr.serverIndex.toNat := by
  rw [Fabric.getServer, List.getElem?_eq_none_iff, servers]

theorem alone_performAll {ops : List RDMAOp} {maxServerPath : ℕ} {result : Bool}
    (servers : s.fabric.memServers.length = cfg.servers) (ran : Alone cfg t (performAll cfg ops maxServerPath) s result s') :
    Rdma.performBatch ops s.fabric = some (result, s'.fabric) := by
  induction ops generalizing maxServerPath s with
  | nil =>
    obtain ⟨_, s₁, done, same⟩ := alone_waits (only_sleepNs _) ran
    cases done
    rw [same]
    rfl
  | cons op ops ih =>
    unfold performAll at ran
    rw [Rdma.performBatch]
    split at ran
    · rename_i missing
      cases ran
      rw [(getServer_none servers).2 missing]
    · rename_i there
      obtain ⟨memory, server⟩ := Option.ne_none_iff_exists'.1 fun missing => there ((getServer_none servers).1 missing)
      obtain ⟨delay, s₁, ran₁, same₁⟩ := alone_waits (only_getServerTimeDelay _ _) ran
      obtain ⟨ok, fabric, s₂, executed, same₂, ran₂⟩ := alone_execute ran₁
      rw [same₁] at executed
      rw [server, executed]
      cases ok with
      | false =>
        cases ran₂
        rw [same₂]
      | true =>
        obtain ⟨_, s₃, ran₃, same₃⟩ := alone_waits (p := .perform (.record op _) .value) ⟨waits_record, fun _ => trivial⟩ ran₂
        have fabric₃ : s₃.fabric = fabric := same₃.trans same₂
        have servers₃ : s₃.fabric.memServers.length = cfg.servers := by
          rw [fabric₃, executeRdma_servers executed, servers]
        rw [← fabric₃]
        exact ih servers₃ ran₃

theorem alone_call {call : Call} {result : Bool} (servers : s.fabric.memServers.length = cfg.servers)
    (ran : Alone cfg t (call.body cfg) s result s') : Rdma.performBatch call.ops s.fabric = some (result, s'.fabric) := by
  cases call with
  | single op =>
    simp only [Call.ops, Rdma.performBatch]
    simp only [Call.body, performOp] at ran
    split at ran
    · rename_i missing
      cases ran
      rw [(getServer_none servers).2 missing]
    · rename_i there
      obtain ⟨memory, server⟩ := Option.ne_none_iff_exists'.1 fun missing => there ((getServer_none servers).1 missing)
      obtain ⟨delay, s₁, ran₁, same₁⟩ := alone_waits (only_getServerTimeDelay _ _) ran
      obtain ⟨_, s₂, ran₂, same₂⟩ := alone_waits (only_sleepNs _) ran₁
      obtain ⟨ok, fabric, s₃, executed, same₃, ran₃⟩ := alone_execute ran₂
      obtain ⟨_, s₄, ran₄, same₄⟩ := alone_waits (only_sleepNs _) ran₃
      obtain ⟨_, s₅, done, same₅⟩ := alone_waits (p := .perform (.record op _) .value) ⟨waits_record, fun _ => trivial⟩ ran₄
      rw [same₂, same₁] at executed
      rw [server, executed]
      have fabric₅ : s₅.fabric = fabric := same₅.trans (same₄.trans same₃)
      cases done
      rw [fabric₅]
      cases result <;> rfl
  | batch ops =>
    simp only [Call.body, performBatch] at ran
    split at ran
    · rename_i empty
      cases ran
      rw [Call.ops, empty]
      rfl
    · obtain ⟨_, s₁, ran₁, same⟩ := alone_waits (only_sleepNs _) ran
      rw [← same] at servers ⊢
      exact alone_performAll servers ran₁

/-! ## Runs that end -/

variable (cfg t) in
/-- The program can run alone, and this is what it leaves. -/
def Ends (p : Delayed A) (s : State) (a : A) (fabric : Fabric) : Prop := ∃ s', Alone cfg t p s a s' ∧ s'.fabric = fabric

variable {a : A} {fabric : Fabric}

theorem ends_perform {o : Act} {next : o.Reply → Delayed A} {c : Bool} {r : o.Reply} {s₁ : State}
    (performed : State.exec t o c s = some (r, s₁))
    (wait : ℕ) (later : Ends cfg t (next r) { s₁ with clock := s₁.clock + wait } a fabric) :
    Ends cfg t (.perform o next) s a fabric := by
  obtain ⟨s', ran, same⟩ := later
  exact ⟨s', .perform performed ⟨_, Nat.le_add_right _ _, rfl⟩ ran, same⟩

theorem ends_sleepNs {f : Unit → Delayed A} {n : ℕ} (later : ∀ s₁ : State, s₁.fabric = s.fabric → Ends cfg t (f ()) s₁ a fabric) :
    Ends cfg t (sleepNs cfg n >>= f) s a fabric := by
  unfold sleepNs
  split
  · refine ends_perform (c := true) rfl (preciseSleepNs n) ?_
    refine ends_perform (c := true) (if_pos le_rfl) 0 ?_
    exact later _ rfl
  · exact later s rfl

theorem ends_delay {f : ℕ → Delayed A} {server tTrans : ℕ} (tries : 0 < cfg.loopBound)
    (later : ∀ delay (s₁ : State), s₁.fabric = s.fabric → Ends cfg t (f delay) s₁ a fabric) :
    Ends cfg t (getServerTimeDelay cfg server tTrans >>= f) s a fabric := by
  refine ends_perform (c := true) rfl 0 (ends_perform (c := true) rfl 0 ?_)
  obtain ⟨bound, eq⟩ := Nat.exists_eq_add_of_lt tries
  rw [eq]
  refine ends_perform (c := true) (if_pos ⟨rfl, rfl⟩) 0 ?_
  exact later _ _ rfl

theorem ends_execute {op : RDMAOp} {f : Bool → Delayed A} {result : Bool} {fabric₁ : Fabric}
    (executed : executeRdma op s.fabric = some (result, fabric₁))
    (later : ∀ s₁ : State, s₁.fabric = fabric₁ → Ends cfg t (f result) s₁ a fabric) :
    Ends cfg t (.perform (.execute op) f) s a fabric := by
  have performed : State.exec t (.execute op) true s = some
    (result, { s with fabric := fabric₁ }.note (.performed t ⟨.execute op, result⟩)) := by
    simp only [State.exec, executed]
    rfl
  exact ends_perform performed 0 (later _ rfl)

theorem ends_performAll {ops : List RDMAOp} {maxServerPath : ℕ} {result : Bool} (tries : 0 < cfg.loopBound)
    (servers : s.fabric.memServers.length = cfg.servers) (done : Rdma.performBatch ops s.fabric = some (result, fabric)) :
    Ends cfg t (performAll cfg ops maxServerPath) s result fabric := by
  induction ops generalizing maxServerPath s with
  | nil =>
    cases done
    exact ends_sleepNs fun s₁ same => ⟨s₁, .value, same⟩
  | cons op ops ih =>
    rw [Rdma.performBatch] at done
    unfold performAll
    split at done
    · rename_i missing
      cases done
      rw [if_pos ((getServer_none servers).1 missing)]
      exact ⟨s, .value, rfl⟩
    · rename_i memory there
      rw [if_neg fun missing => absurd ((getServer_none servers).2 missing) (by rw [there]; exact Option.some_ne_none _)]
      refine ends_delay tries fun delay s₁ same₁ => ?_
      split at done
      · cases done
      · rename_i fabric₂ executed
        refine ends_execute (same₁ ▸ executed) fun s₂ same₂ => ends_perform (c := true) rfl 0 (ih ?_ ?_)
        · exact (congrArg (fun f => f.memServers.length) same₂).trans ((executeRdma_servers executed).trans servers)
        · exact (congrArg (Rdma.performBatch ops) same₂).trans done
      · rename_i fabric₂ executed
        cases done
        exact ends_execute (same₁ ▸ executed) fun s₂ same₂ => ⟨s₂, .value, same₂⟩

theorem ends_performOp {op : RDMAOp} {result : Bool} (tries : 0 < cfg.loopBound) (servers : s.fabric.memServers.length = cfg.servers)
    (done : Rdma.performBatch [op] s.fabric = some (result, fabric)) : Ends cfg t (performOp cfg op) s result fabric := by
  simp only [Rdma.performBatch] at done
  unfold performOp
  split at done
  · rename_i missing
    cases done
    rw [if_pos ((getServer_none servers).1 missing)]
    exact ⟨s, .value, rfl⟩
  · rename_i memory there
    have executed : executeRdma op s.fabric = some (result, fabric) := by
      split at done <;> cases done <;> assumption
    rw [if_neg fun missing => absurd ((getServer_none servers).2 missing) (by rw [there]; exact Option.some_ne_none _)]
    refine ends_delay tries fun delay s₁ same₁ => ends_sleepNs fun s₂ same₂ => ?_
    refine ends_execute ((same₂.trans same₁) ▸ executed) fun s₃ same₃ => ends_sleepNs fun s₄ same₄ => ?_
    exact ends_perform (c := true) rfl 0 ⟨_, .value, same₄.trans same₃⟩

theorem ends_call {call : Call} {result : Bool} (tries : 0 < cfg.loopBound) (servers : s.fabric.memServers.length = cfg.servers)
    (done : Rdma.performBatch call.ops s.fabric = some (result, fabric)) : Ends cfg t (call.body cfg) s result fabric := by
  cases call with
  | single op => exact ends_performOp tries servers done
  | batch ops =>
    change Rdma.performBatch ops s.fabric = _ at done
    show Ends cfg t (performBatch cfg ops) s result fabric
    unfold performBatch
    split
    · rename_i empty
      rw [empty] at done
      cases done
      exact ⟨s, .value, rfl⟩
    · refine ends_sleepNs fun s₁ same => ?_
      rw [← same] at servers done
      exact ends_performAll tries servers done

/-- A call that is not disturbed does to the memory what it does without delays, and it can always come to its end. -/
theorem alone_untimed {call : Call} {result : Bool} (servers : s.fabric.memServers.length = cfg.servers) :
    (∀ s', Alone cfg t (call.body cfg) s result s' → Rdma.performBatch call.ops s.fabric = some (result, s'.fabric)) ∧
    (0 < cfg.loopBound → ∀ fabric, Rdma.performBatch call.ops s.fabric = some (result, fabric) →
      ∃ s', Alone cfg t (call.body cfg) s result s' ∧ s'.fabric = fabric) :=
  ⟨fun _ ran => alone_call servers ran, fun tries _ done => ends_call tries servers done⟩

end

theorem alone_untimed_smallRead : ∃ s' fabric, Alone lab 0 ((Call.single smallRead).body lab) labStart true s' ∧ s'.fabric = fabric ∧
    Rdma.performBatch [smallRead] labStart.fabric = some (true, fabric) := by
  have done : (Rdma.performBatch [smallRead] labStart.fabric).map (·.1) = some true := by decide +kernel
  obtain ⟨⟨result, fabric⟩, done, rfl⟩ := Option.map_eq_some_iff.1 done
  have untimed := @alone_untimed lab 0 labStart (.single smallRead) true rfl
  obtain ⟨s', ran, same⟩ := untimed.2 (by decide) fabric done
  exact ⟨s', fabric, ran, same, same ▸ untimed.1 s' ran⟩

end Faunus.Rdma.Timed
