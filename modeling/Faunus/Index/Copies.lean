import Faunus.Index.Misses

/-! Which copies of a key a deletion spares.

A deletion goes by a snapshot of the leaf in which a lower slot has the key as well. As
long as no split writes the leaf in between, some slot up to that one keeps the key: who
deletes it there knows an even lower one.
-/

set_option autoImplicit false

namespace Faunus

open Interleaving

variable {Key Value : Type}

/-! ## Lower copies -/

/-- The leaf has a live block of the key in a slot up to the bound. -/
def Lower (cfg : Config) (gs : Thread → Local Key Value) (m : Memory Key Value) (key : Key) (a : GlobalAddress) (bound : ℕ) : Prop :=
  ∃ leaf i, Born gs m a (.leaf leaf) ∧ i ≤ bound ∧ i < cfg.branchFactor ∧ (leaf.kvBlocks i).isFree = false ∧
    (m.items (leaf.kvBlocks i).getAddr).key = key

def Op.rewrites (a : GlobalAddress) : Op Key Value → Bool
  | ⟨_, .writeNode b _⟩ => decide (b = a)
  | _ => false

section
variable {cfg : Config} {gs gs' : Thread → Local Key Value} {m m' : Memory Key Value} {t : Thread} {g : Local Key Value}
  {a : GlobalAddress} {key : Key} {bound : ℕ}

theorem Lower.keep (lower : Lower cfg gs m key a bound) (inv : Discipline gs m cfg)
    (after : ∀ b old, Born gs m b (.leaf old) → ∃ now, Born gs' m' b (.leaf now) ∧ LikeLeaf cfg old now)
    (items : ∀ b i x fp, Live cfg gs m b i x fp → m'.items x = m.items x) : Lower cfg gs' m' key a bound := by
  obtain ⟨leaf, i, born, low, small, taken, rfl⟩ := lower
  obtain ⟨now, there, like⟩ := after a leaf born
  refine ⟨now, i, there, low, small, (like.isFree small).trans taken, ?_⟩
  rw [like.getAddr small, items a i _ _ (inv.live_of_born born small taken)]

theorem Lower.setBlock {b : GlobalAddress} {leaf : LeafNode Key} {i : ℕ} {block : KVBlock} (lower : Lower cfg gs m key a bound)
    (born : Born gs m b (.leaf leaf)) (fresh : g.smo.fresh = (gs t).smo.fresh)
    (here : b = a → i ≤ bound → (leaf.kvBlocks i).isFree = false → (m.items (leaf.kvBlocks i).getAddr).key = key →
      Lower cfg (Function.update gs t g) (m.setNode b (.leaf (leaf.setBlock i block))) key a bound) :
    Lower cfg (Function.update gs t g) (m.setNode b (.leaf (leaf.setBlock i block))) key a bound := by
  obtain ⟨now, j, there, low, small, taken, item⟩ := lower
  by_cases same : a = b
  · subst same
    obtain rfl := Node.leaf.inj (born_unique there born)
    by_cases at_ : j = i
    · subst at_
      exact here rfl low taken item
    · refine ⟨_, j, (born_update fresh).2 ((born_setNode born).2 (Or.inl ⟨rfl, rfl⟩)), low, small, ?_⟩
      simpa only [LeafNode.setBlock, Function.update_of_ne at_] using ⟨taken, item⟩
  · exact ⟨now, j, (born_update fresh).2 ((born_setNode born).2 (Or.inr ⟨same, there⟩)), low, small, taken, item⟩

variable [LinearOrder Key] [KeyBytes Key] {o : Op Key Value} {r : o.act.Reply}

theorem Lower.effect (lower : Lower cfg gs m key a bound) (owned : Owned cfg gs m) (inv : Discipline gs m cfg)
    (effect : Effect cfg t gs m o r m' g) (hits : o.matches m r = true) (spares : o.spares m r = true)
    (kept : o.rewrites a = false) :
    Lower cfg (Function.update gs t g) m' key a bound := by
  -- a lower copy stays, unless the leaf is written as a whole
  have items : ∀ b i x fp, Live cfg gs m b i x fp → m'.items x = m.items x := fun _ _ _ _ => owned.live_item effect
  have look : g.smo = (gs t).smo → m'.nodes = m.nodes → Lower cfg (Function.update gs t g) m' key a bound :=
    fun smo nodes => lower.keep inv (sameLeaves_look smo nodes).after items
  cases effect with
  | quiet _ same => exact lower.keep inv same.after items
  | readKept =>
    exact lower.keep inv (sameLeaves_of_born fun _ _ => born_update (by rfl)).after fun _ _ _ _ _ => rfl
  | readKeptKey =>
    exact lower.keep inv (sameLeaves_of_born fun _ _ => born_update (by rfl)).after fun _ _ _ _ _ => rfl
  | @leafSplit b new leaf _ _ _ _ _ _ only noted all sorted middle distributes fresh published =>
    obtain ⟨c, now, only', born, -, -⟩ := inv.notes.kept t leaf noted
    obtain rfl : b = c := by simpa [only] using only'
    have other : a ≠ b := by simpa [Op.rewrites, eq_comm] using kept
    obtain ⟨x, i, there, low, small, block⟩ := lower
    exact ⟨x, i, (inv.levels.born_split born fresh published).2 (Or.inr ⟨other, Or.inl there⟩), low, small, block⟩
  | allocItem allocated => exact look rfl (Memory.allocItem_frame allocated).1
  | writeItem => exact look rfl rfl
  | readLeaf => exact look rfl rfl
  | lookItem => exact look rfl rfl
  | lookKey => exact look rfl rfl
  | slotFilled born eq ready small free =>
    refine lower.setBlock born rfl fun _ _ taken _ => ?_
    rw [eq, free] at taken
    cases taken
  | @slotUpdated b x leaf snap i item born ready candidate taken unlocked =>
    refine lower.setBlock born rfl fun same low _ is => ?_
    subst same
    have new := owned.replacing ready.written hits
    refine ⟨_, i, (born_update (by rfl)).2 ((born_setNode born).2 (Or.inl ⟨rfl, rfl⟩)), low, candidate.1, ?_, ?_⟩
    · simp [LeafNode.setBlock]
    · simp only [LeafNode.setBlock, Function.update_self, Memory.setNode, owned.placing ready.written]
      exact new.symm.trans is
  | @slotDeleted b leaf snap i _ _ _ born eq seen covers candidate =>
    refine lower.setBlock born rfl fun same low _ item => ?_
    subst same
    obtain ⟨j, less, live, is⟩ : ∃ j < i, (leaf.kvBlocks j).isFree = false ∧
        (m.items (leaf.kvBlocks j).getAddr).key = (m.items (leaf.kvBlocks i).getAddr).key := by
      simpa [Op.spares, born.1, eq] using spares
    refine ⟨_, j, (born_update (by rfl)).2 ((born_setNode born).2 (Or.inl ⟨rfl, rfl⟩)), by omega, lt_trans less candidate.1, ?_⟩
    simpa only [LeafNode.setBlock, Function.update_of_ne (ne_of_lt less)] using ⟨live, is.trans item⟩
  | freeReplaced => exact look rfl rfl
  | freeDeleted => exact look rfl rfl

end

/-! ## What a snapshot is good for -/

/-- A split wrote the leaf since the thread last read a leaf. -/
def resplit (t : Thread) (a : GlobalAddress) : List (Event Key Value) → Bool
  | [] => false
  | .performed u o _ _ :: rest => o.rewrites a || !(o.readsLeaf && decide (u = t)) && resplit t a rest
  | .invoked _ _ :: rest => resplit t a rest
  | .returned _ _ _ :: rest => resplit t a rest

/-- A thread fetches no item that was written since it read the leaf. -/
def Op.prompt (t : Thread) (history : List (Event Key Value)) : Op Key Value → Bool
  | ⟨.getCandidateKvs, .readItem x⟩ => !rewritten t x history
  | ⟨.getCandidateKvs, .readKey x⟩ => !rewritten t x history
  | _ => true

/-- Since a thread that deletes a block has read the leaf, no split wrote the leaf and the block's item was not written. -/
def Op.undisturbed (t : Thread) (history : List (Event Key Value)) : (o : Op Key Value) → o.act.Reply → Bool
  | ⟨.tryDeleteKvblock, .casBlock a _ expected _⟩, (found : KVBlock) =>
    decide (found ≠ expected) || !rewritten t expected.getAddr history && !resplit t a history
  | _, _ => true

section
variable {t u : Thread} {x a : GlobalAddress} {o : Op Key Value} {r : o.act.Reply} {m : Memory Key Value}
    {history : List (Event Key Value)}

theorem rewritten_later (before : rewritten u x history = true) (same : u = t → o.readsLeaf = false) :
    rewritten u x (.performed t o r m :: history) = true := by
  by_cases mine : t = u
  · simp [rewritten, before, same mine.symm]
  · simp [rewritten, before, mine]

theorem resplit_later (before : resplit u a history = true) (same : u = t → o.readsLeaf = false) :
    resplit u a (.performed t o r m :: history) = true := by
  by_cases mine : t = u
  · simp [resplit, before, same mine.symm]
  · simp [resplit, before, mine]

end

/-- A key that was fetched is the key of the item, unless the item was written again. -/
def Fetched (put : Put Key Value) (m : Memory Key Value) (t : Thread) (history : List (Event Key Value)) : Prop :=
  ∀ a snap i key, put.seen = some (a, snap) → (i, key) ∈ put.looked →
    rewritten t (snap.kvBlocks i).getAddr history = true ∨ (m.items (snap.kvBlocks i).getAddr).key = key

section
variable [LinearOrder Key] [KeyBytes Key] {cfg : Config} {gs : Thread → Local Key Value} {m m' : Memory Key Value} {t u : Thread}
  {g : Local Key Value} {o : Op Key Value} {r : o.act.Reply} {history : List (Event Key Value)} {old put : Put Key Value}

theorem Fetched.step (fetched : Fetched old m u history) (effect : Effect cfg t gs m o r m' g) (seen : put.seen = old.seen)
    (looked : put.looked = old.looked) (same : u = t → o.readsLeaf = false) : Fetched put m' u (.performed t o r m :: history) := by
  intro a snap i key is member
  rcases fetched a snap i key (seen ▸ is) (looked ▸ member) with again | before
  · exact Or.inl (rewritten_later again same)
  · rcases effect.items (snap.kvBlocks i).getAddr with kept | written
    · rw [kept]
      exact Or.inr before
    · exact Or.inl (by simp [rewritten, written])

omit [LinearOrder Key] [KeyBytes Key] in
theorem Fetched.look {a : GlobalAddress} {snap : LeafNode Key} {i : ℕ} (fetched : Fetched put m t history)
    (seen : put.seen = some (a, snap)) :
    Fetched { put with looked := put.looked ++ [(i, (m.items (snap.kvBlocks i).getAddr).key)] } m t history := by
  intro b now j key is member
  rcases List.mem_append.1 member with before | new
  · exact fetched b now j key is before
  · cases List.mem_singleton.1 new
    cases seen.symm.trans is
    exact Or.inr rfl

theorem Fetched.act (fetched : Fetched (gs t).put m t history) (effect : Effect cfg t gs m o r m' g) :
    Fetched g.put m' t (.performed t o r m :: history) := by
  have whole := effect
  cases effect with
  | quiet quietly _ _ put => exact fetched.step whole (by rw [put]) (by rw [put]) fun _ => quietly
  | leafSplit _ _ _ _ _ _ _ _ _ put => exact fetched.step whole (by rw [put]) (by rw [put]) fun _ => rfl
  | readLeaf =>
    rintro _ _ i key ⟨⟩ ⟨⟩
  | lookItem seen => exact (fetched.look seen).step whole rfl rfl fun _ => rfl
  | lookKey seen => exact (fetched.look seen).step whole rfl rfl fun _ => rfl
  | _ => exact fetched.step whole rfl rfl fun _ => rfl

end

/-- For each live block of the leaf a thread has read, and for each key it has fetched since, the leaf has a copy up to that slot,
unless a split wrote the leaf or the item was written again. -/
structure Vouches (cfg : Config) (put : Put Key Value) (gs : Thread → Local Key Value) (m : Memory Key Value) (t : Thread)
    (history : List (Event Key Value)) : Prop where
  seen : ∀ a snap i, put.seen = some (a, snap) → i < cfg.branchFactor → (snap.kvBlocks i).isFree = false →
    rewritten t (snap.kvBlocks i).getAddr history = true ∨ resplit t a history = true ∨
      Lower cfg gs m (m.items (snap.kvBlocks i).getAddr).key a i
  looked : ∀ a snap i key, put.seen = some (a, snap) → (i, key) ∈ put.looked → resplit t a history = true ∨ Lower cfg gs m key a i

section
variable [LinearOrder Key] [KeyBytes Key] {cfg : Config} {gs : Thread → Local Key Value} {m m' : Memory Key Value} {t u : Thread}
  {g : Local Key Value} {o : Op Key Value} {r : o.act.Reply} {history : List (Event Key Value)}

theorem Vouches.step {old put : Put Key Value} (vouches : Vouches cfg old gs m u history) (owned : Owned cfg gs m)
    (inv : Discipline gs m cfg) (effect : Effect cfg t gs m o r m' g) (hits : o.matches m r = true) (spares : o.spares m r = true)
    (seen : put.seen = old.seen) (looked : put.looked = old.looked) (same : u = t → o.readsLeaf = false) :
    Vouches cfg put (Function.update gs t g) m' u (.performed t o r m :: history) := by
  -- what a snapshot is good for stays until the thread reads a leaf again
  have lower : ∀ {a key bound}, Lower cfg gs m key a bound → resplit u a (.performed t o r m :: history) = true ∨
      Lower cfg (Function.update gs t g) m' key a bound := by
    intro a key bound before
    cases wrote : o.rewrites a with
    | true => exact Or.inl (by simp [resplit, wrote])
    | false => exact Or.inr (before.effect owned inv effect hits spares wrote)
  refine ⟨fun a snap i is small live => ?_, fun a snap i key is member => ?_⟩
  · rcases vouches.seen a snap i (seen ▸ is) small live with again | again | before
    · exact Or.inl (rewritten_later again same)
    · exact Or.inr (Or.inl (resplit_later again same))
    · rcases effect.items (snap.kvBlocks i).getAddr with kept | written
      · rw [kept]
        exact Or.inr (lower before)
      · exact Or.inl (by simp [rewritten, written])
  · rcases vouches.looked a snap i key (seen ▸ is) (looked ▸ member) with again | before
    · exact Or.inl (resplit_later again same)
    · exact lower before

omit [LinearOrder Key] [KeyBytes Key] in
theorem Vouches.look {put : Put Key Value} {a : GlobalAddress} {snap : LeafNode Key} {i : ℕ}
    (vouches : Vouches cfg put gs m t history) (seen : put.seen = some (a, snap)) (small : i < cfg.branchFactor)
    (live : (snap.kvBlocks i).isFree = false) (prompt : rewritten t (snap.kvBlocks i).getAddr history = false) :
    Vouches cfg { put with looked := put.looked ++ [(i, (m.items (snap.kvBlocks i).getAddr).key)] } gs m t history := by
  refine ⟨vouches.seen, fun b now j key is member => ?_⟩
  · rcases List.mem_append.1 member with old | new
    · exact vouches.looked b now j key is old
    · cases List.mem_singleton.1 new
      cases seen.symm.trans is
      exact (vouches.seen a snap i seen small live).resolve_left (by simp [prompt])

omit [LinearOrder Key] [KeyBytes Key] in
theorem Vouches.reset {put : Put Key Value} {event : Event Key Value} (vouches : Vouches cfg put gs m u history)
    (inv : Discipline gs m cfg)
    (smo : g.smo = (gs t).smo) (written : ∀ x, rewritten u x (event :: history) = rewritten u x history)
    (split : ∀ a, resplit u a (event :: history) = resplit u a history) :
    Vouches cfg put (Function.update gs t g) m u (event :: history) := by
  have lower : ∀ {a key bound}, Lower cfg gs m key a bound → Lower cfg (Function.update gs t g) m key a bound := fun before =>
    before.keep inv (sameLeaves_look smo rfl).after fun _ _ _ _ _ => rfl
  refine ⟨fun a snap i is small live => ?_, fun a snap i key is member => ?_⟩
  · rw [written, split]
    exact (vouches.seen a snap i is small live).imp_right (Or.imp_right lower)
  · rw [split]
    exact (vouches.looked a snap i key is member).imp_right lower

theorem Vouches.act (vouches : Vouches cfg (gs t).put gs m t history) (owned : Owned cfg gs m) (inv : Discipline gs m cfg)
    (effect : Effect cfg t gs m o r m' g) (hits : o.matches m r = true) (spares : o.spares m r = true)
    (prompt : o.prompt t history = true) : Vouches cfg g.put (Function.update gs t g) m' t (.performed t o r m :: history) := by
  have whole := effect
  cases effect with
  | quiet quietly _ _ put => exact vouches.step owned inv whole hits spares (by rw [put]) (by rw [put]) fun _ => quietly
  | leafSplit _ _ _ _ _ _ _ _ _ put => exact vouches.step owned inv whole hits spares (by rw [put]) (by rw [put]) fun _ => rfl
  | @readLeaf site a leaf from_ born =>
    refine ⟨?_, by simp⟩
    rintro _ _ i ⟨⟩ small live
    exact Or.inr (Or.inr ⟨leaf, i, (born_update (by rfl)).2 born, le_rfl, small, live, rfl⟩)
  | lookItem seen small live =>
    exact (vouches.look seen small live (by simpa [Op.prompt] using prompt)).step owned inv whole hits spares rfl rfl fun _ => rfl
  | lookKey seen small live =>
    exact (vouches.look seen small live (by simpa [Op.prompt] using prompt)).step owned inv whole hits spares rfl rfl fun _ => rfl
  | _ => exact vouches.step owned inv whole hits spares rfl rfl fun _ => rfl

end

/-! ## Runs -/

section
variable [LinearOrder Key] [BoundedOrder Key] [KeyBytes Key] {cfg : Config}

/-- Addresses fit, inserts and updates hit what they were meant for, items are fetched in time, and deletions are not disturbed. -/
def careful : Condition (signature Key Value) Thread (State Key Value) := fun t o r s =>
  Op.fits o r = true ∧ Op.lands s.memory o r = true ∧ Op.matches s.memory o r = true ∧ Op.prompt t s.history o = true ∧
    Op.undisturbed t s.history o r = true

structure Copying (cfg : Config) (gs : Thread → Local Key Value) (s : State Key Value) : Prop where
  storing : Storing cfg gs s
  vouches : ∀ t, Vouches cfg (gs t).put gs s.memory t s.history
  fetched : ∀ t, Fetched (gs t).put s.memory t s.history

section
variable {gs : Thread → Local Key Value} {s s' : State Key Value} {t : Thread} {call : Call Key Value} {g : Local Key Value}
  {o : Op Key Value} {r : o.act.Reply}

theorem Permits.deleting {m m' : Memory Key Value} {a : GlobalAddress} {i : ℕ} {expected desired found : KVBlock}
    (permitted : Permits cfg t gs m ⟨.tryDeleteKvblock, .casBlock a i expected desired⟩ found m' g) (hits : found = expected) :
    (gs t).view.target = some (a, 0) ∧ i < cfg.branchFactor ∧ expected.isFree = false := by
  cases permitted with
  | slotMissed there missed => exact absurd hits missed
  | slotDeleted there target eq seen covers high => exact ⟨target, high.1, high.2.1⟩

omit [BoundedOrder Key] [KeyBytes Key] in
theorem spares_of_act {m : Memory Key Value} (other : ∀ a i expected desired, o.act ≠ .casBlock a i expected desired) :
    o.spares m r = true := by
  unfold Op.spares
  split
  · exact absurd rfl (other _ _ _ _)
  · rfl

theorem Copying.spares (inv : Copying cfg gs s) {m' : Memory Key Value} (permitted : Permits cfg t gs s.memory o r m' g)
    (undisturbed : o.undisturbed t s.history r = true) : o.spares s.memory r = true := by
  -- an undisturbed deletion leaves a copy in a lower slot
  cases permitted with
  | @slotMissed site a leaf i expected desired there missed => cases site <;> simp [Op.spares, there, missed]
  | @slotDeleted a leaf snap i j key desired there target eq seen covers high low less one two =>
    have born := (inv.storing.discipline.born_of_target target there).1
    obtain ⟨current, whole⟩ : rewritten t (snap.kvBlocks i).getAddr s.history = false ∧ resplit t a s.history = false := by
      simpa [Op.undisturbed, eq] using undisturbed
    have item := (inv.fetched t a snap i key seen one).resolve_left (by simp [current])
    obtain ⟨now, k, also, below, -, live, same⟩ := ((inv.vouches t).looked a snap j key seen two).resolve_left (by simp [whole])
    obtain rfl := Node.leaf.inj (born_unique also born)
    simp only [Op.spares, there, Bool.or_eq_true, List.any_eq_true, List.mem_range, Bool.and_eq_true, Bool.not_eq_true',
      decide_eq_true_eq]
    exact Or.inr ⟨k, by omega, live, same.trans item.symm⟩
  | slotFilled => rfl
  | slotUpdated => rfl
  | _ => exact spares_of_act (by rintro _ _ _ _ ⟨⟩)

theorem Copying.invoke (inv : Copying cfg gs s) (idle : gs t = .idle) (begins : (machine cfg).begins t call gs s g) :
    Copying cfg (Function.update gs t g) { s with history := .invoked t call :: s.history } := by
  have storing := inv.storing.invoke idle begins
  obtain ⟨target, rfl, -⟩ := begins
  have smo : Smo.idle = (gs t).smo := by rw [idle]; rfl
  refine ⟨storing, fun u => ?_, fun u => ?_⟩ <;> by_cases same : u = t
  · subst same
    rw [Function.update_self]
    exact ⟨by simp [Put.idle], by simp [Put.idle]⟩
  · rw [Function.update_of_ne same]
    exact (inv.vouches u).reset inv.storing.discipline smo (fun _ => rfl) fun _ => rfl
  · subst same
    rw [Function.update_self]
    rintro _ _ _ _ ⟨⟩
  · rw [Function.update_of_ne same]
    exact inv.fetched u

theorem Copying.act (wide : 2 ≤ cfg.branchFactor) (inv : Copying cfg gs s) (permits : (machine cfg).permits t gs s o r s' g)
    (met : careful t o r s) : Copying cfg (Function.update gs t g) s' := by
  obtain ⟨fits, lands, hits, prompt, undisturbed⟩ := met
  have discipline := inv.storing.discipline
  have owned := inv.storing.owning.owned
  have effect := discipline.effect permits.1
  have spares := inv.spares permits.1 undisturbed
  refine ⟨inv.storing.act wide permits fits lands hits, fun u => ?_, fun u => ?_⟩ <;> rw [permits.2] <;> by_cases same : u = t
  · subst same
    rw [Function.update_self]
    exact (inv.vouches u).act owned discipline effect hits spares prompt
  · rw [Function.update_of_ne same]
    exact (inv.vouches u).step owned discipline effect hits spares rfl rfl fun is => absurd is same
  · subst same
    rw [Function.update_self]
    exact (inv.fetched u).act effect
  · rw [Function.update_of_ne same]
    exact (inv.fetched u).step effect rfl rfl fun is => absurd is same

theorem Copying.finish {outcome : Outcome Value} (inv : Copying cfg gs s) (ends : (machine cfg).ends t call outcome (gs t)) :
    Copying cfg (Function.update gs t .idle) { s with history := .returned t call outcome :: s.history } := by
  have smo : Smo.idle = (gs t).smo := ends.1.symm
  refine ⟨inv.storing.finish ends, fun u => ?_, fun u => ?_⟩ <;> by_cases same : u = t
  · subst same
    rw [Function.update_self]
    exact ⟨by simp [Local.idle, Put.idle], by simp [Local.idle, Put.idle]⟩
  · rw [Function.update_of_ne same]
    exact (inv.vouches u).reset inv.storing.discipline smo (fun _ => rfl) fun _ => rfl
  · subst same
    rw [Function.update_self]
    rintro _ _ _ _ ⟨⟩
  · rw [Function.update_of_ne same]
    exact inv.fetched u

end

theorem copying_initialized [Nontrivial Key] {m : Memory Key Value} (initialized : m.Initialized) :
    Copying cfg (fun _ => .idle) ⟨m, []⟩ :=
  ⟨storing_initialized initialized, fun _ =>
    ⟨by simp [Local.idle, Put.idle], by simp [Local.idle, Put.idle]⟩, by rintro _ _ _ _ _ ⟨⟩⟩

theorem preserves_copying (wide : 2 ≤ cfg.branchFactor) :
    Preserves (system cfg calls fun _ _ => False) (machine cfg)
      (Copying cfg : (Thread → Local Key Value) → State Key Value → Prop) careful where
  invoke _ _ _ _ _ inv idle _ begins := inv.invoke idle begins
  act _ _ _ _ _ _ _ _ inv _ met permits := inv.act wide permits met
  finish _ _ _ _ _ inv ends := inv.finish ends
  env _ _ _ _ moved := moved.1.elim

/-- In every careful run, a deletion that hits its block leaves a live block of the same key in a lower slot, in the
leaf that covers the key. -/
theorem deletion_spares_copy [Nontrivial Key] (wide : 2 ≤ cfg.branchFactor) {m : Memory Key Value} (initialized : m.Initialized)
    {P : IndexPool Key Value} (run : Reaches (system cfg calls fun _ _ => False) careful (Pool.start ⟨m, []⟩) P)
    {t : Thread} {call : Call Key Value} {a : GlobalAddress} {i : ℕ} {expected desired : KVBlock}
    {next : KVBlock → Index Key Value (Outcome Value)} {done : List (Sigma (signature Key Value).Reply)}
    (running : P.threads t = some ⟨call, .perform ⟨.tryDeleteKvblock, .casBlock a i expected desired⟩ next, done⟩)
    (met : careful t ⟨.tryDeleteKvblock, .casBlock a i expected desired⟩ expected P.shared)
    {leaf : LeafNode Key} (there : P.shared.memory.nodes a = some (.leaf leaf)) (hits : leaf.kvBlocks i = expected) :
    leaf.header.covers (P.shared.memory.items expected.getAddr).key ∧ ∃ j < i, (leaf.kvBlocks j).isFree = false ∧
      (P.shared.memory.items (leaf.kvBlocks j).getAddr).key = (P.shared.memory.items expected.getAddr).key := by
  obtain ⟨gs, explains⟩ := (explains_start (copying_initialized initialized)).reaches
    (implements_machine (fun _ _ inv => inv.storing.discipline) fun _ _ _ admitted => admitted) (preserves_copying wide) run
  have inv := explains.holds
  obtain ⟨s', performed⟩ :
    ∃ s', (system cfg calls fun _ _ => False).exec t ⟨.tryDeleteKvblock, .casBlock a i expected desired⟩ 0 P.shared =
      some (expected, s') := by
    simp only [system, State.exec, Memory.exec, there, hits, if_true]
    exact ⟨_, rfl⟩
  obtain ⟨g, ⟨permitted, -⟩, -⟩ := explains.permits running performed
  obtain ⟨target, small, live⟩ := permitted.deleting rfl
  have born := (inv.storing.discipline.born_of_target target there).1
  constructor
  · subst hits
    exact inv.storing.contents.inside a leaf born i _ _ (inv.storing.discipline.live_of_born born small live)
  · simpa [Op.spares, there, hits] using inv.spares permitted met.2.2.2.2

end

/-! ## A deletion beside a split -/

def eightConfig : Config := { smallConfig with branchFactor := 8, splitThreshold := 7 }

/-- Two inserts of a key that both find the leaf empty: the second takes slot 1 and comes to delete its own block. -/
def twoCopies : List (Move Thread (BitVec 64) (Call (Fin 256) ℕ)) :=
  .invoke ⟨0, 1⟩ (.insert secondKey 20) :: .act ⟨0, 1⟩ 1#64 :: List.replicate 4 (.act ⟨0, 1⟩ 0#64) ++ [.act ⟨0, 1⟩ 19#64] ++
    insertAlone ⟨0, 0⟩ secondKey 21 2#64 ++ List.replicate 6 (.act ⟨0, 1⟩ 7#64)

def carefully [LinearOrder Key] : Test (signature Key Value) Thread (State Key Value) := fun t o r s =>
  Op.fits o r && (Op.lands s.memory o r && (Op.matches s.memory o r && (Op.prompt t s.history o && Op.undisturbed t s.history o r)))

theorem careful_of_carefully [LinearOrder Key] (t : Thread) (o : Op Key Value) (r : o.act.Reply) (s : State Key Value)
    (met : carefully t o r s = true) : careful t o r s := by
  simpa [carefully, careful] using met

def deletingCopy : IndexPool (Fin 256) ℕ :=
  (Pool.start ⟨smallMemory, []⟩).drive (system eightConfig calls fun _ _ => False) rootCalls carefully twoCopies

theorem deletion_spares_copy_deletingCopy : ∃ leaf, deletingCopy.shared.memory.nodes ⟨0⟩ = some (.leaf leaf) ∧
    (leaf.kvBlocks 1).isFree = false ∧ ∃ j < 1, (leaf.kvBlocks j).isFree = false ∧
      (deletingCopy.shared.memory.items (leaf.kvBlocks j).getAddr).key =
        (deletingCopy.shared.memory.items (leaf.kvBlocks 1).getAddr).key :=
  ⟨_, rfl, rfl, (deletion_spares_copy (show 2 ≤ eightConfig.branchFactor by decide)
    (show smallMemory.Initialized from Memory.emptyTree_initialized _ _)
    (reaches_drive calls_of_rootCalls careful_of_carefully _ _ : Reaches _ _ _ deletingCopy) (t := ⟨0, 1⟩) rfl
    (careful_of_carefully _ _ _ _ (by decide +kernel)) rfl rfl).2⟩

/-- Besides the slot, a leaf that covers the key has a live block of it, or a thread that splits the leaf has yet to write it. -/
def Backed [LinearOrder Key] (cfg : Config) (P : IndexPool Key Value) (a : GlobalAddress) (i : ℕ) (key : Key) : Prop :=
  (∃ b leaf j, P.shared.memory.nodes b = some (.leaf leaf) ∧ leaf.header.covers key ∧ ¬ (b = a ∧ j = i) ∧ j < cfg.branchFactor ∧
    (leaf.kvBlocks j).isFree = false ∧ (P.shared.memory.items (leaf.kvBlocks j).getAddr).key = key) ∨
  ∃ u activity, P.threads u = some activity ∧ a ∈ heldBy u P.shared.history ∧ ∀ d ∈ activity.done, Op.rewrites a d.1 = false

/-- Four more keys come in, and a split puts the block back into slot 1. -/
def deletingKept : IndexPool (Fin 256) ℕ :=
  (Pool.start ⟨smallMemory, []⟩).drive (system eightConfig calls fun _ _ => False) rootCalls freely
    (twoCopies ++ insertAlone ⟨0, 2⟩ firstKey 10 3#64 ++ insertAlone ⟨0, 2⟩ thirdKey 30 4#64 ++
      insertAlone ⟨0, 2⟩ fourthKey 40 5#64 ++ insertAlone ⟨0, 2⟩ fifthKey 50 6#64 ++ Move.part ⟨0, 3⟩ (.split ⟨0⟩) 7#64 41)

/-- No other slot of the node has a live block of the key. -/
def lacks (P : IndexPool (Fin 256) ℕ) (b : GlobalAddress) (i : ℕ) (key : Fin 256) : Bool :=
  match P.shared.memory.nodes b with
  | some (.leaf leaf) => (List.range eightConfig.branchFactor).all fun j => decide (b = ⟨0⟩ ∧ j = i) || (leaf.kvBlocks j).isFree ||
      decide ((P.shared.memory.items (leaf.kvBlocks j).getAddr).key ≠ key)
  | _ => true

theorem deletion_fails_deletingKept :
    ¬ ∀ P : IndexPool (Fin 256) ℕ, Reaches (system eightConfig calls fun _ _ => False) anything (Pool.start ⟨smallMemory, []⟩) P →
      ∀ t call a i expected desired next done,
        P.threads t = some ⟨call, .perform ⟨.tryDeleteKvblock, .casBlock a i expected desired⟩ next, done⟩ →
        ∀ leaf, P.shared.memory.nodes a = some (.leaf leaf) → leaf.kvBlocks i = expected → expected.isFree = false →
        Backed eightConfig P a i (P.shared.memory.items expected.getAddr).key := by
  intro claim
  have run : Reaches (system eightConfig calls fun _ _ => False) anything (Pool.start ⟨smallMemory, []⟩) deletingKept :=
    reaches_drive calls_of_rootCalls (fun _ _ _ _ _ => trivial) _ _
  obtain ⟨gs, explains⟩ := disciplined_reaches (Memory.emptyTree_initialized _ _) run
  have inv := explains.holds
  obtain ⟨call, expected, desired, next, done, now, deletes, present, hits, taken, item⟩ : ∃ call expected desired next done now,
      deletingKept.threads ⟨0, 1⟩ = some ⟨call, .perform ⟨.tryDeleteKvblock, .casBlock ⟨0⟩ 1 expected desired⟩ next, done⟩ ∧
      deletingKept.shared.memory.nodes ⟨0⟩ = some (.leaf now) ∧ now.kvBlocks 1 = expected ∧ expected.isFree = false ∧
      (deletingKept.shared.memory.items expected.getAddr).key = secondKey :=
    ⟨_, _, _, _, _, _, rfl, rfl, rfl, by decide +kernel, by decide +kernel⟩
  rcases claim deletingKept run ⟨0, 1⟩ call ⟨0⟩ 1 expected desired next done deletes now present hits taken with
    ⟨b, leaf, j, there, -, apart, small, live, key⟩ | ⟨u, activity, running, held, unwritten⟩
  · rw [item] at key
    have nodes : deletingKept.shared.memory.nodesIssued = [⟨7⟩, ⟨0⟩] := by decide +kernel
    have missing : ∀ b ∈ [(⟨7⟩ : GlobalAddress), ⟨0⟩], lacks deletingKept b 1 secondKey = true := by decide +kernel
    have none := missing b (nodes ▸ inv.discipline.levels.issued b _ there)
    simp only [lacks, there, List.all_eq_true, List.mem_range, Bool.or_eq_true, decide_eq_true_eq] at none
    rcases none j small with (same | free) | other
    · exact apart same
    · simp [live] at free
    · exact other key
  · have splitting : (⟨0⟩ : GlobalAddress) ∈ heldBy ⟨0, 3⟩ deletingKept.shared.history := by decide +kernel
    rw [← inv.held] at held splitting
    obtain rfl := inv.discipline.chains.owner _ _ _ held splitting
    have wrote : (deletingKept.threads ⟨0, 3⟩).map (fun activity => activity.done.any fun d => Op.rewrites ⟨0⟩ d.1) = some
      true := by decide +kernel
    rw [running, Option.map_some, Option.some.injEq, List.any_eq_true] at wrote
    obtain ⟨d, member, wrote⟩ := wrote
    rw [unwritten d member] at wrote
    cases wrote

end Faunus
