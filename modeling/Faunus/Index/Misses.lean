import Faunus.Index.Contents

/-! Reads find what was inserted before they began.

A reader fetches the items of a leaf some time after it has read the leaf. It
misses a key only if the item was given back and written again in between.
-/

set_option autoImplicit false

namespace Faunus

open Interleaving

variable {Key Value : Type}

/-! ## What the history says -/

def callOf (t : Thread) : List (Event Key Value) → Option (Call Key Value)
  | [] => none
  | .invoked u call :: rest => if u = t then some call else callOf t rest
  | .performed _ _ _ _ :: rest => callOf t rest
  | .returned u _ _ :: rest => if u = t then none else callOf t rest

def completed [DecidableEq Key] (key : Key) : List (Event Key Value) → Bool
  | [] => false
  | .returned _ (.insert k _) outcome :: rest => decide (k = key) && outcome.ok || completed key rest
  | _ :: rest => completed key rest

/-- An insert of the key had returned true when the thread's call began. -/
def due [DecidableEq Key] (t : Thread) (key : Key) : List (Event Key Value) → Bool
  | [] => false
  | .invoked u _ :: rest => if u = t then completed key rest else due t key rest
  | .performed _ _ _ _ :: rest => due t key rest
  | .returned _ _ _ :: rest => due t key rest

def Op.writes (x : GlobalAddress) : Op Key Value → Bool
  | ⟨_, .writeItem y _⟩ => decide (y = x)
  | _ => false

/-- The item was written since the thread last read a leaf. -/
def rewritten (t : Thread) (x : GlobalAddress) : List (Event Key Value) → Bool
  | [] => false
  | .performed u o _ _ :: rest => o.writes x || !(o.readsLeaf && decide (u = t)) && rewritten t x rest
  | .invoked _ _ :: rest => rewritten t x rest
  | .returned _ _ _ :: rest => rewritten t x rest

/-- A read fetches no item that was written since it read the leaf. -/
def Op.timely (t : Thread) (history : List (Event Key Value)) (o : Op Key Value) : Bool :=
  match callOf t history with
  | some (.read _) =>
    match o with
    | ⟨.getCandidateKvs, .readItem x⟩ => !rewritten t x history
    | ⟨.getCandidateKvs, .readKey x⟩ => !rewritten t x history
    | _ => true
  | _ => true

section
variable [DecidableEq Key] {t : Thread} {key : Key} {rest history : List (Event Key Value)}

theorem completed_later {e : Event Key Value} (before : completed key rest = true) : completed key (e :: rest) = true := by
  cases e with
  | returned u call outcome => cases call <;> simp [completed, before]
  | _ => exact before

theorem completed_returned {u : Thread} {call : Call Key Value} {outcome : Outcome Value}
    (after : completed key (.returned u call outcome :: rest) = true) :
    completed key rest = true ∨ ∃ value, call = .insert key value ∧ outcome.ok = true := by
  cases call with
  | insert k value =>
    simp only [completed, Bool.or_eq_true, Bool.and_eq_true, decide_eq_true_eq] at after
    rcases after with ⟨rfl, ok⟩ | before
    · exact Or.inr ⟨value, rfl, ok⟩
    · exact Or.inl before
  | _ => exact Or.inl after

theorem completed_of_due (waits : due t key history = true) : completed key history = true := by
  induction history with
  | nil => cases waits
  | cons event rest ih =>
    cases event with
    | invoked u call =>
      unfold due at waits
      split_ifs at waits
      · exact completed_later waits
      · exact completed_later (ih waits)
    | performed => exact completed_later (ih waits)
    | returned => exact completed_later (ih waits)

end

theorem reaches_callOf [LinearOrder Key] [BoundedOrder Key] [KeyBytes Key] {cfg : Config}
    {admits : State Key Value → Thread → Call Key Value → Prop}
    {assume : Condition (signature Key Value) Thread (State Key Value)} {m : Memory Key Value} {P : IndexPool Key Value}
    (run : Reaches (system cfg admits fun _ _ => False) assume (Pool.start ⟨m, []⟩) P) {t : Thread}
    {activity : Activity (signature Key Value) (Call Key Value) (Outcome Value)} (running : P.threads t = some activity) :
    callOf t P.shared.history = some activity.call := by
  -- a running call is the one its thread began
  induction run generalizing activity with
  | refl => cases running
  | tail _ step ih =>
    cases step with
    | @invoke u call free admitted =>
      by_cases same : u = t
      · subst same
        simp only [Pool.set_threads, Function.update_self, Option.some.injEq] at running
        subst running
        simp [system, callOf]
      · simp only [Pool.set_threads, Function.update_of_ne (Ne.symm same)] at running
        simpa [system, callOf, same] using ih running
    | @act u call o next done c r s before performed met =>
      obtain ⟨-, history⟩ := State.exec_eq_some performed
      simp only [Pool.set_shared, history, callOf]
      by_cases same : t = u
      · subst same
        simp only [Pool.set_threads, Function.update_self, Option.some.injEq] at running
        subst running
        have call := ih before
        exact call
      · exact ih (by simpa [Function.update_of_ne same] using running)
    | @«return» u call b done before =>
      by_cases same : u = t
      · subst same
        simp at running
      · simp only [Pool.set_threads, Function.update_of_ne (Ne.symm same)] at running
        simpa [system, callOf, same] using ih running
    | environment moved => exact moved.1.elim

/-! ## Readers -/

section
variable [LinearOrder Key] [KeyBytes Key] {cfg : Config} {m m' : Memory Key Value} {t u : Thread} {key : Key}
  {history : List (Event Key Value)} {gs : Thread → Local Key Value} {g : Local Key Value} {o : Op Key Value} {r : o.act.Reply}

/-- The leaf a reader has read has a slot with the key, which the reader finds there or cannot trust any more. -/
def Reading (cfg : Config) (put : Put Key Value) (m : Memory Key Value) (t : Thread) (key : Key)
    (history : List (Event Key Value)) : Prop :=
  ∀ a snap, put.seen = some (a, snap) → snap.header.covers key → ∃ i, candidate cfg snap key i ∧
    ((m.items (snap.kvBlocks i).getAddr).key = key ∨ rewritten t (snap.kvBlocks i).getAddr history = true) ∧
    ∀ other, (i, other) ∈ put.looked → other = key

theorem Effect.items (effect : Effect cfg t gs m o r m' g) (x : GlobalAddress) : m'.items x = m.items x ∨ o.writes x = true := by
  cases effect with
  | quiet _ _ _ _ items => exact Or.inl (by rw [items])
  | allocItem allocated =>
    refine Or.inl ?_
    unfold Memory.allocItem at allocated
    split_ifs at allocated <;> cases allocated <;> rfl
  | @writeItem a =>
    by_cases same : a = x
    · exact Or.inr (by simp [Op.writes, same])
    · exact Or.inl (by simp [Memory.setItem, Function.update_of_ne (Ne.symm same)])
  | _ => exact Or.inl rfl

theorem Owned.placed_effect (owned : Owned cfg gs m) (effect : Effect cfg t gs m o r m' g) :
    g.put.placed = (gs t).put.placed ∨
      ∃ item, g.put.placed = some item ∧ Present cfg (Function.update gs t g) m' item.key := by
  cases effect with
  | quiet _ _ _ put => exact Or.inl (by rw [put])
  | leafSplit _ _ _ _ _ _ _ _ _ put => exact Or.inl (by rw [put])
  | slotFilled born _ ready bound => exact Or.inr ⟨_, rfl, owned.present born bound ready.written rfl⟩
  | slotUpdated born ready candidate => exact Or.inr ⟨_, rfl, owned.present born candidate.1 ready.written rfl⟩
  | _ => exact Or.inl rfl

theorem Reading.step {put : Put Key Value} (reading : Reading cfg (gs u).put m u key history) (effect : Effect cfg t gs m o r m' g)
    (seen : put.seen = (gs u).put.seen) (looked : put.looked = (gs u).put.looked) (same : u = t → o.readsLeaf = false) :
    Reading cfg put m' u key (.performed t o r m :: history) := by
  intro a snap is covers
  obtain ⟨i, candidate, found, known⟩ := reading a snap (seen ▸ is) covers
  refine ⟨i, candidate, ?_, fun other member => known other (looked ▸ member)⟩
  rcases effect.items (snap.kvBlocks i).getAddr with kept | written
  · rw [kept]
    refine found.imp id fun before => ?_
    by_cases mine : t = u
    · simp [rewritten, before, same mine.symm]
    · simp [rewritten, before, mine]
  · exact Or.inr (by simp [rewritten, written])

theorem Reading.look {a : GlobalAddress} {leaf : LeafNode Key} {j : ℕ} (reading : Reading cfg (gs t).put m t key history)
    (seen : (gs t).put.seen = some (a, leaf)) (timely : rewritten t (leaf.kvBlocks j).getAddr history = false)
    (quietly : o.readsLeaf = false) :
    Reading cfg { (gs t).put with looked := (gs t).put.looked ++ [(j, (m.items (leaf.kvBlocks j).getAddr).key)] } m t key
      (.performed t o r m :: history) := by
  intro b snap is covers
  obtain ⟨i, candidate, found, known⟩ := reading b snap is covers
  refine ⟨i, candidate, found.imp id fun before => by simp [rewritten, before, quietly], fun other member => ?_⟩
  rcases List.mem_append.1 member with old | new
  · exact known other old
  · cases List.mem_singleton.1 new
    cases Option.some.inj (seen.symm.trans is)
    exact found.resolve_right fun stale => by simp [timely] at stale

end

/-! ## Runs -/

section
variable [LinearOrder Key] [BoundedOrder Key] [KeyBytes Key] {cfg : Config}

/-- Addresses fit, every exchange hits what it was meant for, and reads fetch items in time. -/
def steady : Condition (signature Key Value) Thread (State Key Value) := fun t o r s =>
  Op.fits o r = true ∧ Op.lands s.memory o r = true ∧ Op.matches s.memory o r = true ∧ Op.spares s.memory o r = true ∧
    Op.timely t s.history o = true

structure Finding (cfg : Config) (gs : Thread → Local Key Value) (s : State Key Value) : Prop where
  storing : Storing cfg gs s
  placed : ∀ t item, (gs t).put.placed = some item → Present cfg gs s.memory item.key
  completed : ∀ key, completed key s.history = true → Present cfg gs s.memory key
  reading : ∀ t key, callOf t s.history = some (.read key) → due t key s.history = true →
    Reading cfg (gs t).put s.memory t key s.history

section
variable {gs : Thread → Local Key Value} {s s' : State Key Value} {t : Thread} {call : Call Key Value} {g : Local Key Value}

theorem Finding.present_reset (inv : Finding cfg gs s) (smo : g.smo = (gs t).smo) {key : Key}
    (present : Present cfg gs s.memory key) : Present cfg (Function.update gs t g) s.memory key :=
  present.keep inv.storing.discipline (sameLeaves_look smo rfl).after fun _ _ _ _ _ => rfl

theorem Finding.invoke (inv : Finding cfg gs s) (idle : gs t = .idle) (begins : (machine cfg).begins t call gs s g) :
    Finding cfg (Function.update gs t g) { s with history := .invoked t call :: s.history } := by
  have storing := inv.storing.invoke idle begins
  obtain ⟨target, rfl, -⟩ := begins
  have smo : Smo.idle = (gs t).smo := by rw [idle]; rfl
  refine ⟨storing, ?_, fun key done => ?_, fun u key reads waits => ?_⟩
  · refine (Function.forall_update_iff gs (p := fun _ l => ∀ item, l.put.placed = some item →
      Present cfg (Function.update gs t _) s.memory item.key)).2 ⟨fun item own => ?_, fun u _ item own => ?_⟩
    · cases own
    · exact inv.present_reset smo (inv.placed u item own)
  · exact inv.present_reset smo (inv.completed key done)
  · by_cases same : u = t
    · subst same
      intro a snap seen
      simp [Put.idle] at seen
    · simp only [Function.update_of_ne same]
      exact inv.reading u key (by simpa [callOf, Ne.symm same] using reads) (by simpa [due, Ne.symm same] using waits)

theorem Finding.reading_own {o : Op Key Value} {r : o.act.Reply} {m' : Memory Key Value} {key : Key} (inv : Finding cfg gs s)
    (effect : Effect cfg t gs s.memory o r m' g) (reads : callOf t s.history = some (.read key)) (waits : due t key s.history = true)
    (timely : o.timely t s.history = true) : Reading cfg g.put m' t key (.performed t o r s.memory :: s.history) := by
  have before := inv.reading t key reads waits
  have whole := effect
  cases effect with
  | quiet quietly _ _ put => exact before.step whole (by rw [put]) (by rw [put]) fun _ => quietly
  | leafSplit _ _ _ _ _ _ _ _ _ put => exact before.step whole (by rw [put]) (by rw [put]) fun _ => rfl
  | readLeaf from_ born =>
    rintro a snap ⟨⟩ covers
    obtain ⟨i, found, item⟩ := inv.storing.present_here (inv.completed key (completed_of_due waits)) born covers
    exact ⟨i, found, Or.inl item, by simp⟩
  | lookItem seen => exact before.look seen (by simpa [Op.timely, reads] using timely) rfl
  | lookKey seen => exact before.look seen (by simpa [Op.timely, reads] using timely) rfl
  | _ => exact before.step whole rfl rfl fun _ => rfl

theorem Finding.act {o : Op Key Value} {r : o.act.Reply} (wide : 2 ≤ cfg.branchFactor) (inv : Finding cfg gs s)
    (permits : (machine cfg).permits t gs s o r s' g) (met : steady t o r s) : Finding cfg (Function.update gs t g) s' := by
  obtain ⟨fits, lands, hits, spares, timely⟩ := met
  have discipline := inv.storing.discipline
  have effect := discipline.effect permits.1
  have history := permits.2
  have keep : ∀ {key}, Present cfg gs s.memory key → Present cfg (Function.update gs t g) s'.memory key := fun present =>
    present.effect inv.storing.contents inv.storing.owning.owned discipline effect hits spares
  refine ⟨inv.storing.act wide permits fits lands hits, ?_, fun key done => ?_, fun u key reads waits => ?_⟩
  · refine (Function.forall_update_iff gs (p := fun _ l => ∀ item, l.put.placed = some item →
      Present cfg (Function.update gs t g) s'.memory item.key)).2
        ⟨fun item own => ?_, fun u _ item own => keep (inv.placed u item own)⟩
    rcases inv.storing.owning.owned.placed_effect effect with same | ⟨new, is, present⟩
    · exact keep (inv.placed t item (same ▸ own))
    · cases Option.some.inj (is.symm.trans own)
      exact present
  · rw [history] at done
    exact keep (inv.completed key done)
  · rw [history] at reads waits ⊢
    have before := inv.reading u key reads waits
    by_cases same : u = t
    · subst same
      rw [Function.update_self]
      exact inv.reading_own effect reads waits timely
    · rw [Function.update_of_ne same]
      exact before.step effect rfl rfl fun is => absurd is same

theorem Finding.finish {outcome : Outcome Value} (inv : Finding cfg gs s) (ends : (machine cfg).ends t call outcome (gs t)) :
    Finding cfg (Function.update gs t .idle) { s with history := .returned t call outcome :: s.history } := by
  have smo : Smo.idle = (gs t).smo := ends.1.symm
  refine ⟨inv.storing.finish ends, ?_, fun key done => ?_, fun u key reads waits => ?_⟩
  · refine (Function.forall_update_iff gs (p := fun _ l => ∀ item, l.put.placed = some item →
      Present cfg (Function.update gs t .idle) s.memory item.key)).2 ⟨fun item own => ?_, fun u _ item own => ?_⟩
    · cases own
    · exact inv.present_reset smo (inv.placed u item own)
  · refine inv.present_reset smo ?_
    rcases completed_returned done with before | ⟨value, rfl, ok⟩
    · exact inv.completed key before
    · exact inv.placed t _ (ends.2 ok)
  · by_cases same : u = t
    · subst same
      simp [callOf] at reads
    · simp only [Function.update_of_ne same]
      exact inv.reading u key (by simpa [callOf, Ne.symm same] using reads) waits

end

theorem finding_initialized [Nontrivial Key] {m : Memory Key Value} (initialized : m.Initialized) :
    Finding cfg (fun _ => .idle) ⟨m, []⟩ := by
  exact ⟨storing_initialized initialized, fun t item own => (by cases own), fun key done => (by cases done),
    fun t key _ waits => (by cases waits)⟩

theorem preserves_finding (wide : 2 ≤ cfg.branchFactor) :
    Preserves (system cfg calls fun _ _ => False) (machine cfg)
      (Finding cfg : (Thread → Local Key Value) → State Key Value → Prop) steady where
  invoke _ _ _ _ _ inv idle _ begins := inv.invoke idle begins
  act _ _ _ _ _ _ _ _ inv _ met permits := inv.act wide permits met
  finish _ _ _ _ _ inv ends := inv.finish ends
  env _ _ _ _ moved := moved.1.elim

/-- In every run of steady operations, a read of a key that was inserted before the read began finds it. -/
theorem no_false_miss [Nontrivial Key] (wide : 2 ≤ cfg.branchFactor) {m : Memory Key Value} (initialized : m.Initialized)
    {P : IndexPool Key Value} (run : Reaches (system cfg calls fun _ _ => False) steady (Pool.start ⟨m, []⟩) P)
    {t : Thread} {key : Key} {outcome : Outcome Value} {done : List (Sigma (signature Key Value).Reply)}
    (returns : P.threads t = some ⟨.read key, .value outcome, done⟩) (waits : due t key P.shared.history = true) :
    outcome.ok = true := by
  obtain ⟨gs, explains⟩ := (explains_start (finding_initialized initialized)).reaches
    (implements_machine (fun _ _ inv => inv.storing.discipline) fun _ _ _ admitted => admitted) (preserves_finding wide) run
  have ends := explains.ends returns
  cases ok : outcome.ok with
  | true => rfl
  | false =>
    obtain ⟨a, snap, seen, covers, missed⟩ := ends.2 ok
    obtain ⟨i, candidate, -, known⟩ := explains.holds.reading t key (reaches_callOf run returns) waits a snap seen covers
    obtain ⟨other, looked, different⟩ := missed i candidate.1 candidate
    exact absurd (known other looked) different

end

/-! ## A read beside inserts -/

def steadily [LinearOrder Key] : Test (signature Key Value) Thread (State Key Value) := fun t o r s =>
  Op.fits o r && (Op.lands s.memory o r && (Op.matches s.memory o r && (Op.spares s.memory o r && Op.timely t s.history o)))

theorem steady_of_steadily [LinearOrder Key] (t : Thread) (o : Op Key Value) (r : o.act.Reply) (s : State Key Value)
    (met : steadily t o r s = true) : steady t o r s := by
  simpa [steadily, steady] using met

def insertThenRead : IndexPool (Fin 256) ℕ :=
  (Pool.start ⟨smallMemory, []⟩).drive (system smallConfig calls fun _ _ => False) rootCalls steadily
    (List.flatten [insertAlone ⟨0, 1⟩ firstKey 10 1#64, Move.part ⟨0, 0⟩ (.read firstKey) 0#64 4])

set_option maxRecDepth 8000 in
theorem no_false_miss_insertThenRead : ∃ done,
    insertThenRead.threads ⟨0, 0⟩ = some ⟨.read firstKey, .value ⟨true, some 10⟩, done⟩ ∧
      due ⟨0, 0⟩ firstKey insertThenRead.shared.history = true ∧ (⟨true, some 10⟩ : Outcome ℕ).ok = true :=
  ⟨_, rfl, rfl, no_false_miss (show 2 ≤ smallConfig.branchFactor by decide)
    (show smallMemory.Initialized from Memory.emptyTree_initialized _ _)
    (reaches_drive calls_of_rootCalls steady_of_steadily _ _ : Reaches _ _ _ insertThenRead) (t := ⟨0, 0⟩) rfl rfl⟩

/-- A read that has read the leaf when its key is updated and the item it is about to fetch goes to another key. -/
def readRecycled : IndexPool (Fin 256) ℕ :=
  (Pool.start ⟨smallMemory, []⟩).drive (system smallConfig calls fun _ _ => False) rootCalls freely
    (List.flatten [insertAlone ⟨0, 1⟩ firstKey 10 1#64, Move.part ⟨0, 0⟩ (.read firstKey) 0#64 3,
      insertAlone ⟨0, 1⟩ firstKey 11 2#64, insertAlone ⟨0, 1⟩ secondKey 20 1#64, [.act ⟨0, 0⟩ 0#64]])

set_option maxRecDepth 20000 in
theorem false_miss_readRecycled :
    Reaches (system smallConfig calls fun _ _ => False) anything (Pool.start ⟨smallMemory, []⟩) readRecycled ∧
      due ⟨0, 0⟩ firstKey readRecycled.shared.history = true ∧
      ∃ done, readRecycled.threads ⟨0, 0⟩ = some ⟨.read firstKey, .value ⟨false, none⟩, done⟩ :=
  ⟨reaches_drive calls_of_rootCalls (fun _ _ _ _ _ => trivial) _ _, rfl, _, rfl⟩

end Faunus
