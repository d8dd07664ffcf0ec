import Faunus.Index.ConformInsert

/-! Runs of the index and what every reachable state satisfies. -/

set_option autoImplicit false

namespace Faunus

open Interleaving

variable {Key Value : Type}

/-! ## The tree in memory -/

/-- The internal node at `a` has `b` as a child. -/
def Child (m : Memory Key Value) (a b : GlobalAddress) : Prop :=
  ∃ n : InternalNode Key, m.nodes a = some (.internal n) ∧ ∃ i ≤ n.header.lastIndex, (n.entries i).child = b

def Reachable (m : Memory Key Value) (a : GlobalAddress) : Prop := Relation.ReflTransGen (Child m) m.rootOffset a

def ReachableLeaf (m : Memory Key Value) (a : GlobalAddress) : Prop := Reachable m a ∧ ∃ leaf, m.nodes a = some (.leaf leaf)

theorem Levels.reachable {gs : Thread → Local Key Value} {m : Memory Key Value} {a : GlobalAddress} (inv : Levels gs m)
    (reachable : Reachable m a) : ∃ level, Known gs m a level := by
  induction reachable with
  | refl => exact inv.root
  | tail _ child ih =>
    obtain ⟨level, ⟨n, born, -⟩, -⟩ := ih
    obtain ⟨node, there, i, bound, rfl⟩ := child
    obtain rfl : n = .internal node := Option.some.inj (born.1.symm.trans there)
    obtain ⟨below, -, children⟩ := inv.sound _ _ born
    exact ⟨below, children i bound⟩

theorem Levels.reachableLeaf {gs : Thread → Local Key Value} {m : Memory Key Value} {a : GlobalAddress} (inv : Levels gs m)
    (reachable : ReachableLeaf m a) : Known gs m a 0 := by
  obtain ⟨level, known⟩ := inv.reachable reachable.1
  obtain ⟨n, born, rfl⟩ := known.1
  obtain ⟨leaf, there⟩ := reachable.2
  obtain rfl : n = .leaf leaf := Option.some.inj (born.1.symm.trans there)
  have bottom : leaf.header.level = 0 := inv.sound _ _ born
  exact bottom ▸ known

/-- Any call may be made; a split names a leaf of the tree. -/
def calls (s : State Key Value) (_ : Thread) (call : Call Key Value) : Prop :=
  ∀ a, call = .split a → ReachableLeaf s.memory a

/-- Calls that are seen to be possible: a split of a root that is a leaf. -/
def rootCalls (s : State Key Value) (_ : Thread) : Call Key Value → Bool
  | .split a => decide (a = s.memory.rootOffset) && match s.memory.nodes a with
    | some (.leaf _) => true
    | _ => false
  | _ => true

theorem calls_of_rootCalls (s : State Key Value) (t : Thread) (call : Call Key Value) (possible : rootCalls s t call = true) :
    calls s t call := by
  rintro a rfl
  simp only [rootCalls, Bool.and_eq_true, decide_eq_true_eq] at possible
  obtain ⟨rfl, leaf⟩ := possible
  refine ⟨.refl, ?_⟩
  split at leaf
  · exact ⟨_, by assumption⟩
  · cases leaf

/-! ## What a thread has done -/

/-- Fold the operations of a thread's call in progress. -/
def since {X : Type} (t : Thread) (next : (o : Op Key Value) → o.act.Reply → X → X) (start : X) :
    List (Event Key Value) → X
  | [] => start
  | .invoked u _ :: rest => if u = t then start else since t next start rest
  | .performed u o r _ :: rest => if u = t then next o r (since t next start rest) else since t next start rest
  | .returned u _ _ :: rest => if u = t then start else since t next start rest

/-- The locks a thread holds, the latest first. -/
def heldBy (t : Thread) (history : List (Event Key Value)) : List GlobalAddress := since t heldNext [] history

def waitsOn (t : Thread) (history : List (Event Key Value)) : Option GlobalAddress := since t waitsNext none history

section
variable {X : Type} {t : Thread} {next : (o : Op Key Value) → o.act.Reply → X → X} {start : X} (track : Local Key Value → X)
  {gs : Thread → Local Key Value} {g : Local Key Value} {history : List (Event Key Value)}

theorem since_performed (tracked : ∀ u, track (gs u) = since u next start history) {o : Op Key Value} {r : o.act.Reply}
    {m : Memory Key Value} (own : track g = next o r (track (gs t))) (u : Thread) :
    track (Function.update gs t g u) = since u next start (.performed t o r m :: history) := by
  by_cases same : u = t
  · subst same
    rw [Function.update_self, own, tracked, since, if_pos rfl]
  · rw [Function.update_of_ne same, tracked, since, if_neg (Ne.symm same)]

theorem since_invoked (tracked : ∀ u, track (gs u) = since u next start history) {call : Call Key Value}
    (own : track g = start) (u : Thread) :
    track (Function.update gs t g u) = since u next start (.invoked t call :: history) := by
  by_cases same : u = t
  · subst same
    rw [Function.update_self, own, since, if_pos rfl]
  · rw [Function.update_of_ne same, tracked, since, if_neg (Ne.symm same)]

theorem since_returned (tracked : ∀ u, track (gs u) = since u next start history) {call : Call Key Value}
    {outcome : Outcome Value} (own : track g = start) (u : Thread) :
    track (Function.update gs t g u) = since u next start (.returned t call outcome :: history) := by
  by_cases same : u = t
  · subst same
    rw [Function.update_self, own, since, if_pos rfl]
  · rw [Function.update_of_ne same, tracked, since, if_neg (Ne.symm same)]

end

section
variable [LinearOrder Key] [BoundedOrder Key] [KeyBytes Key] {cfg : Config} {t : Thread}
  {gs : Thread → Local Key Value} {m m' : Memory Key Value} {o : Op Key Value} {r : o.act.Reply} {g : Local Key Value}

theorem Permits.held (permitted : Permits cfg t gs m o r m' g) : g.smo.held = heldNext o r (gs t).smo.held := by
  cases permitted <;> simp_all [heldNext]

theorem Permits.waiting (permitted : Permits cfg t gs m o r m' g) : g.view.waiting = waitsNext o r (gs t).view.waiting := by
  cases permitted with
  | readLeaf from_ => rcases from_ with rfl | rfl <;> rfl
  | _ => simp_all [waitsNext]

theorem Permits.drafts (permitted : Permits cfg t gs m o r m' g)
    (drafts : ∀ a n, (gs t).smo.fresh = some (a, some n) → n.Unlocked cfg) :
    ∀ a n, g.smo.fresh = some (a, some n) → n.Unlocked cfg := by
  cases permitted with
  | writeFresh _ _ unlocked =>
    rintro a n ⟨⟩
    exact unlocked
  | _ => simp_all

end

/-! ## Every reachable state -/

section
variable [LinearOrder Key] [BoundedOrder Key] [KeyBytes Key] {cfg : Config}

/-- The discipline holds and the ghosts agree with the history. -/
structure Disciplined (cfg : Config) (gs : Thread → Local Key Value) (s : State Key Value) : Prop where
  discipline : Discipline gs s.memory cfg
  held : ∀ t, (gs t).smo.held = heldBy t s.history
  waiting : ∀ t, (gs t).view.waiting = waitsOn t s.history
  drafts : ∀ t a n, (gs t).smo.fresh = some (a, some n) → n.Unlocked cfg

theorem implements_machine {admits : State Key Value → Thread → Call Key Value → Prop}
    {env : Memory Key Value → Memory Key Value → Prop} {inv : (Thread → Local Key Value) → State Key Value → Prop}
    (disciplined : ∀ gs s, inv gs s → Discipline gs s.memory cfg) (admitted : ∀ s t call, admits s t call → calls s t call) :
    Implements (system cfg admits env) (machine cfg) inv := by
  -- every call conforms wherever the discipline holds
  intro gs s t call holds idle admits
  have levels := (disciplined gs s holds).levels
  obtain ⟨target, known, named⟩ : ∃ target : Option (GlobalAddress × ℕ),
      (∀ a level, target = some (a, level) → Known gs s.memory a level) ∧ ∀ b, call = .split b → target = some (b, 0) := by
    cases call with
    | split b =>
      refine ⟨some (b, 0), ?_, fun c is => by cases is; rfl⟩
      rintro a level ⟨⟩
      exact levels.reachableLeaf (admitted s t _ admits b rfl)
    | insert key value => exact ⟨none, by simp, by simp⟩
    | read key => exact ⟨none, by simp, by simp⟩
    | maintain => exact ⟨none, by simp, by simp⟩
  exact ⟨_, ⟨target, rfl, known⟩,
    follows_stronger disciplined (conforms_body call { View.idle with target } named)⟩

omit [LinearOrder Key] [BoundedOrder Key] [KeyBytes Key] in
theorem Discipline.invoke {gs : Thread → Local Key Value} {m : Memory Key Value} {t : Thread} {target : Option (GlobalAddress × ℕ)}
    {put : Put Key Value} (inv : Discipline gs m cfg) (idle : gs t = .idle)
    (known : ∀ a level, target = some (a, level) → Known gs m a level) :
    Discipline (Function.update gs t ⟨.idle, { View.idle with target }, put⟩) m cfg :=
  inv.look (by rw [idle]; rfl) rfl rfl rfl inv.levels.queue known (by simp [View.idle]) (by simp [View.idle])

omit [LinearOrder Key] [BoundedOrder Key] [KeyBytes Key] in
theorem Discipline.finish {gs : Thread → Local Key Value} {m : Memory Key Value} {t : Thread}
    (inv : Discipline gs m cfg) (smo : (gs t).smo = .idle) : Discipline (Function.update gs t .idle) m cfg :=
  inv.look (by rw [smo]; rfl) rfl rfl rfl inv.levels.queue (by simp [Local.idle, View.idle])
    (by simp [Local.idle, View.idle]) (by simp [Local.idle, View.idle])

theorem Disciplined.invoke {gs : Thread → Local Key Value} {s : State Key Value} {t : Thread} {call : Call Key Value}
    {g : Local Key Value} (inv : Disciplined cfg gs s) (idle : gs t = .idle) (begins : (machine cfg).begins t call gs s g) :
    Disciplined cfg (Function.update gs t g) { s with history := .invoked t call :: s.history } := by
  obtain ⟨target, rfl, known⟩ := begins
  refine ⟨inv.discipline.invoke idle known, since_invoked (fun l => l.smo.held) inv.held rfl,
    since_invoked (fun l => l.view.waiting) inv.waiting rfl, ?_⟩
  exact (Function.forall_update_iff gs (p := fun _ l => ∀ a n, l.smo.fresh = some (a, some n) → n.Unlocked cfg)).2
    ⟨by simp [Smo.idle], fun u _ => inv.drafts u⟩

theorem Disciplined.act {gs : Thread → Local Key Value} {s s' : State Key Value} {t : Thread} {o : Op Key Value}
    {r : o.act.Reply} {g : Local Key Value} (inv : Disciplined cfg gs s) (permits : (machine cfg).permits t gs s o r s' g) :
    Disciplined cfg (Function.update gs t g) s' := by
  obtain ⟨permitted, history⟩ := permits
  refine ⟨inv.discipline.permits permitted, ?_, ?_, ?_⟩
  · rw [history]
    exact since_performed (fun l => l.smo.held) inv.held permitted.held
  · rw [history]
    exact since_performed (fun l => l.view.waiting) inv.waiting permitted.waiting
  · exact (Function.forall_update_iff gs (p := fun _ l => ∀ a n, l.smo.fresh = some (a, some n) → n.Unlocked cfg)).2
      ⟨permitted.drafts (inv.drafts t), fun u _ => inv.drafts u⟩

theorem Disciplined.finish {gs : Thread → Local Key Value} {s : State Key Value} {t : Thread} {call : Call Key Value}
    {outcome : Outcome Value} (inv : Disciplined cfg gs s) (ends : (machine cfg).ends t call outcome (gs t)) :
    Disciplined cfg (Function.update gs t .idle) { s with history := .returned t call outcome :: s.history } := by
  refine ⟨inv.discipline.finish ends.1, since_returned (fun l => l.smo.held) inv.held rfl,
    since_returned (fun l => l.view.waiting) inv.waiting rfl, ?_⟩
  exact (Function.forall_update_iff gs (p := fun _ l => ∀ a n, l.smo.fresh = some (a, some n) → n.Unlocked cfg)).2
    ⟨by simp [Local.idle, Smo.idle], fun u _ => inv.drafts u⟩

theorem preserves_disciplined {admits : State Key Value → Thread → Call Key Value → Prop} :
    Preserves (system cfg admits fun _ _ => False) (machine cfg) (Disciplined cfg) anything where
  invoke _ _ _ _ _ inv idle _ begins := inv.invoke idle begins
  act _ _ _ _ _ _ _ _ inv _ _ permits := inv.act permits
  finish _ _ _ _ _ inv ends := inv.finish ends
  env _ _ _ _ moved := moved.1.elim

omit [KeyBytes Key] in
theorem discipline_initialized {m : Memory Key Value} (initialized : m.Initialized) :
    Discipline (fun _ => .idle) m cfg := by
  have only : ∀ a n, m.nodes a = some n → a = m.rootOffset ∧ n = .leaf (.init (⊥, ⊤)) := by
    intro a n there
    rw [initialized.nodes] at there
    by_cases same : a = m.rootOffset
    · subst same
      exact ⟨rfl, by simpa using there.symm⟩
    · simp [same] at there
  have born : ∀ a n, Born (fun _ => (.idle : Local Key Value)) m a n → a = m.rootOffset ∧ n = .leaf (.init (⊥, ⊤)) :=
    fun a n born => only a n born.1
  have root : Known (fun _ => (.idle : Local Key Value)) m m.rootOffset 0 := by
    refine ⟨⟨.leaf (.init (⊥, ⊤)), ⟨by rw [initialized.nodes, Function.update_self], ?_⟩, rfl⟩, ?_⟩
    · rintro ⟨t, content, own⟩
      cases own
    · rintro ⟨t, level, key, own⟩
      cases own
  refine ⟨⟨fun a n there => ?_, ?_, ?_, ?_, ?_, fun a n present => ?_, ⟨0, root⟩, ?_, ?_, ?_⟩, ⟨?_, ?_⟩,
    ⟨?_, fun a n present _ => ?_⟩, ⟨?_, fun a leaf present _ i _ => ?_, fun _ _ _ => rfl⟩, ⟨?_, ?_, ?_, ?_⟩, ⟨?_, ?_, ?_⟩⟩
  · simp [initialized.nodesIssued, (only a n there).1]
  · simp [Local.idle, Smo.idle]
  · simp [Local.idle, Smo.idle]
  · simp [Local.idle, Smo.idle]
  · simp [Local.idle, Smo.idle]
  · rw [(born a n present).2]
    rfl
  · rintro a level top ⟨n, present, rfl⟩ -
    rw [(born a n present).2]
    exact Nat.zero_le _
  · rintro a level ⟨⟨n, present, -⟩, -⟩ -
    exact (born a n present).1
  · simp [initialized.queue]
  · simp [Local.idle, Smo.idle]
  · simp [Local.idle, Smo.idle]
  · simp [Local.idle, Smo.idle]
  · rw [(born a n present).2]
    rfl
  · simp [Local.idle, Smo.idle]
  · have eq := (born a _ present).2
    cases eq
    simp [LeafNode.init, KVBlock.empty]
  · simp [Local.idle, Smo.idle]
  · simp [Local.idle, Smo.idle]
  · simp [Local.idle, Smo.idle]
  · simp [Local.idle, Smo.idle]
  · simp [Local.idle, View.idle]
  · simp [Local.idle, View.idle]
  · simp [Local.idle, View.idle]

omit [KeyBytes Key] in
theorem disciplined_initialized {m : Memory Key Value} (initialized : m.Initialized) :
    Disciplined cfg (fun _ => .idle) ⟨m, []⟩ :=
  ⟨discipline_initialized initialized, fun _ => rfl, fun _ => rfl, by simp [Local.idle, Smo.idle]⟩

theorem disciplined_reaches {m : Memory Key Value} (initialized : m.Initialized)
    {P : IndexPool Key Value} (run : Reaches (system cfg calls fun _ _ => False) anything (Pool.start ⟨m, []⟩) P) :
    ∃ gs, Explains (system cfg calls fun _ _ => False) (machine cfg) (Disciplined cfg) gs P :=
  (explains_start (disciplined_initialized initialized)).reaches
    (implements_machine (fun _ _ inv => inv.discipline) fun _ _ _ admitted => admitted) preserves_disciplined run

end

end Faunus
