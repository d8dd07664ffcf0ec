import Faunus.Index.Machine

/-! The lock discipline of the index.

What the tree looks like to a thread that descends or climbs, who holds which
lock, and what the holders remember. Nothing here depends on the keys in the
tree, so the discipline holds however items are reused.
-/

set_option autoImplicit false

namespace Faunus

open Interleaving

variable {Key Value : Type}

section
variable (gs : Thread → Local Key Value) (m : Memory Key Value)

/-- A leaf has level 0, and the children of an internal node stand one level below it. -/
def Sound : Node Key → Prop
  | .leaf n => n.header.level = 0
  | .internal n => ∃ below, n.header.level = below + 1 ∧ ∀ i ≤ n.header.lastIndex, Known gs m (n.entries i).child below

/-- Levels and links, as far as descending and climbing threads rely on them. -/
structure Levels : Prop where
  issued : ∀ a n, m.nodes a = some n → a ∈ m.nodesIssued
  fresh : ∀ t a content, (gs t).smo.fresh = some (a, content) → a ∈ m.nodesIssued ∧ m.nodes a = content
  freshOwner : ∀ t u a content content', (gs t).smo.fresh = some (a, content) →
    (gs u).smo.fresh = some (a, content') → t = u
  pending : ∀ t a level key, (gs t).smo.pending = some (a, level, key) → HasLevel gs m a level
  pendingOwner : ∀ t u a level key level' key', (gs t).smo.pending = some (a, level, key) →
    (gs u).smo.pending = some (a, level', key') → t = u
  sound : ∀ a n, Born gs m a n → Sound gs m n
  root : ∃ level, Known gs m m.rootOffset level
  below : ∀ a level top, HasLevel gs m a level → HasLevel gs m m.rootOffset top → level ≤ top
  topmost : ∀ a level, Known gs m a level → HasLevel gs m m.rootOffset level → a = m.rootOffset
  queue : ∀ a ∈ m.queue, Known gs m a 0

/-- The locks of a thread stand on consecutive levels from 0 on, and no lock has two holders. -/
structure Chains : Prop where
  chain : ∀ t above a rest, (gs t).smo.held = above ++ a :: rest → Known gs m a rest.length
  owner : ∀ t u a, a ∈ (gs t).smo.held → a ∈ (gs u).smo.held → t = u

structure LockWords : Prop where
  taken : ∀ a n t, Born gs m a n → a ∈ (gs t).smo.held → n.header.lock = 1
  free : ∀ a n, Born gs m a n → (∀ t, a ∉ (gs t).smo.held) → n.header.lock = 0

structure SlotBits (cfg : Config) : Prop where
  taken : ∀ a leaf t, Born gs m a (.leaf leaf) → a ∈ (gs t).smo.held →
    ∀ i < cfg.branchFactor, (leaf.kvBlocks i).isLocked = (gs t).smo.slots i
  free : ∀ a leaf, Born gs m a (.leaf leaf) → (∀ t, a ∉ (gs t).smo.held) →
    ∀ i < cfg.branchFactor, (leaf.kvBlocks i).isLocked = false
  none : ∀ t, (gs t).smo.held = [] → ∀ i, (gs t).smo.slots i = false

/-- What holders remember of what they read. A kept leaf only loses blocks, by deletions. -/
structure Notes (cfg : Config) : Prop where
  pending : ∀ t a level key, (gs t).smo.pending = some (a, level, key) →
    (∀ i, (gs t).smo.slots i = false) ∧
      ((gs t).smo.held.length = level + 1 ∨ (gs t).smo.held.length = level + 2)
  node : ∀ t n, (gs t).smo.node = some n → ∃ a, (gs t).smo.held.head? = some a ∧ Born gs m a (.internal n)
  keptSlots : ∀ t snap, (gs t).smo.kept = some snap → ∀ i < cfg.branchFactor, (gs t).smo.slots i = true
  kept : ∀ t snap, (gs t).smo.kept = some snap →
    ∃ a leaf, (gs t).smo.held = [a] ∧ Born gs m a (.leaf leaf) ∧ leaf.header = snap.header ∧
      ∀ i, leaf.kvBlocks i = snap.kvBlocks i ∨ (leaf.kvBlocks i).isFree = true ∧ (snap.kvBlocks i).isFree = false

structure Views : Prop where
  target : ∀ t a level, (gs t).view.target = some (a, level) → Known gs m a level
  atTop : ∀ t, (gs t).view.atTop = true → (gs t).smo.held.head? = some m.rootOffset
  waiting : ∀ t a, (gs t).view.waiting = some a → ∃ level, Known gs m a level ∧ (gs t).smo.held.length ≤ level

structure Discipline (cfg : Config) : Prop where
  levels : Levels gs m
  chains : Chains gs m
  words : LockWords gs m
  bits : SlotBits gs m cfg
  notes : Notes gs m cfg
  views : Views gs m

end

/-! ## Changes that leave the tree alone -/

section
variable {gs gs' : Thread → Local Key Value} {m m' : Memory Key Value}

theorem born_unique {a : GlobalAddress} {n n' : Node Key} (one : Born gs m a n) (two : Born gs m a n') : n = n' :=
  Option.some.inj (one.1.symm.trans two.1)

theorem hasLevel_unique {a : GlobalAddress} {l l' : ℕ} (one : HasLevel gs m a l) (two : HasLevel gs m a l') : l = l' := by
  obtain ⟨n, born, rfl⟩ := one
  obtain ⟨n', born', rfl⟩ := two
  rw [born_unique born born']

/-- The tree contains the same nodes, with the same ones pending. -/
structure SameTree (gs gs' : Thread → Local Key Value) (m m' : Memory Key Value) : Prop where
  born : ∀ a n, Born gs' m' a n ↔ Born gs m a n
  pending : ∀ u, (gs' u).smo.pending = (gs u).smo.pending
  root : m'.rootOffset = m.rootOffset

theorem SameTree.update {t : Thread} {g : Local Key Value} (fresh : g.smo.fresh = (gs t).smo.fresh)
    (pending : g.smo.pending = (gs t).smo.pending) (nodes : m'.nodes = m.nodes) (root : m'.rootOffset = m.rootOffset) :
    SameTree gs (Function.update gs t g) m m' := by
  have sameFresh : ∀ u, (Function.update gs t g u).smo.fresh = (gs u).smo.fresh :=
    (Function.forall_update_iff gs (p := fun u l => l.smo.fresh = (gs u).smo.fresh)).2 ⟨fresh, fun _ _ => rfl⟩
  refine ⟨fun a n => by simp only [Born, Fresh, nodes, sameFresh], ?_, root⟩
  exact (Function.forall_update_iff gs (p := fun u l => l.smo.pending = (gs u).smo.pending)).2 ⟨pending, fun _ _ => rfl⟩

theorem SameTree.hasLevel (same : SameTree gs gs' m m') {a : GlobalAddress} {level : ℕ} :
    HasLevel gs' m' a level ↔ HasLevel gs m a level := by
  simp only [HasLevel, same.born]

theorem SameTree.known (same : SameTree gs gs' m m') {a : GlobalAddress} {level : ℕ} :
    Known gs' m' a level ↔ Known gs m a level := by
  simp only [Known, Pending, same.hasLevel, same.pending]

theorem SameTree.sound (same : SameTree gs gs' m m') {n : Node Key} : Sound gs' m' n ↔ Sound gs m n := by
  cases n <;> simp only [Sound, same.known]

theorem Levels.of_sameTree (inv : Levels gs m) (same : SameTree gs gs' m m')
    (issued : ∀ a n, m'.nodes a = some n → a ∈ m'.nodesIssued)
    (fresh : ∀ t a content, (gs' t).smo.fresh = some (a, content) → a ∈ m'.nodesIssued ∧ m'.nodes a = content)
    (freshOwner : ∀ t u a content content', (gs' t).smo.fresh = some (a, content) →
      (gs' u).smo.fresh = some (a, content') → t = u)
    (queue : ∀ a ∈ m'.queue, Known gs m a 0) : Levels gs' m' := by
  refine ⟨issued, fresh, freshOwner, ?_, ?_, ?_, ?_, ?_, ?_, fun a queued => same.known.2 (queue a queued)⟩ <;>
    simp only [same.root, same.pending, same.known, same.born, same.hasLevel, same.sound]
  · exact inv.pending
  · exact inv.pendingOwner
  · exact inv.sound
  · exact inv.root
  · exact inv.below
  · exact inv.topmost

theorem Chains.of_sameTree (inv : Chains gs m) (same : SameTree gs gs' m m')
    (held : ∀ u, (gs' u).smo.held = (gs u).smo.held) : Chains gs' m' := by
  constructor <;> simp only [held, same.known]
  · exact inv.chain
  · exact inv.owner

theorem LockWords.of_sameTree (inv : LockWords gs m) (same : SameTree gs gs' m m')
    (held : ∀ u, (gs' u).smo.held = (gs u).smo.held) : LockWords gs' m' := by
  constructor <;> simp only [held, same.born]
  · exact inv.taken
  · exact inv.free

theorem SlotBits.of_sameTree {cfg : Config} (inv : SlotBits gs m cfg) (same : SameTree gs gs' m m')
    (held : ∀ u, (gs' u).smo.held = (gs u).smo.held)
    (slots : ∀ u, (gs' u).smo.slots = (gs u).smo.slots) : SlotBits gs' m' cfg := by
  constructor <;> simp only [held, slots, same.born]
  · exact inv.taken
  · exact inv.free
  · exact inv.none

theorem Discipline.look {cfg : Config} {t : Thread} {g : Local Key Value} (inv : Discipline gs m cfg)
    (smo : g.smo = (gs t).smo) (nodes : m'.nodes = m.nodes) (issued : m'.nodesIssued = m.nodesIssued)
    (root : m'.rootOffset = m.rootOffset) (queue : ∀ a ∈ m'.queue, Known gs m a 0)
    (target : ∀ a level, g.view.target = some (a, level) → Known gs m a level)
    (atTop : g.view.atTop = true → (gs t).smo.held.head? = some m.rootOffset)
    (waiting : ∀ a, g.view.waiting = some a → ∃ level, Known gs m a level ∧ (gs t).smo.held.length ≤ level) :
    Discipline (Function.update gs t g) m' cfg := by
  -- one thread moves in the tree, and nothing else changes that the discipline speaks about
  have own : ∀ u, (Function.update gs t g u).smo = (gs u).smo :=
    (Function.forall_update_iff gs (p := fun u l => l.smo = (gs u).smo)).2 ⟨smo, fun _ _ => rfl⟩
  have same : SameTree gs (Function.update gs t g) m m' := .update (by rw [smo]) (by rw [smo]) nodes root
  refine ⟨inv.levels.of_sameTree same ?_ ?_ ?_ queue, inv.chains.of_sameTree same (fun u => by rw [own]),
    inv.words.of_sameTree same (fun u => by rw [own]),
    inv.bits.of_sameTree same (fun u => by rw [own]) (fun u => by rw [own]), ?_, ?_⟩
  · simpa only [nodes, issued] using inv.levels.issued
  · simpa only [nodes, issued, own] using inv.levels.fresh
  · simpa only [own] using inv.levels.freshOwner
  · constructor <;> simp only [own, same.born]
    · exact inv.notes.pending
    · exact inv.notes.node
    · exact inv.notes.keptSlots
    · exact inv.notes.kept
  · constructor <;> simp only [own, same.known, root]
    · exact (Function.forall_update_iff gs (p := fun _ l => ∀ a level, l.view.target = some (a, level) →
        Known gs m a level)).2 ⟨target, fun u _ => inv.views.target u⟩
    · exact (Function.forall_update_iff gs (p := fun u l => l.view.atTop = true →
        (gs u).smo.held.head? = some m.rootOffset)).2 ⟨atTop, fun u _ => inv.views.atTop u⟩
    · exact (Function.forall_update_iff gs (p := fun u l => ∀ a, l.view.waiting = some a →
        ∃ level, Known gs m a level ∧ (gs u).smo.held.length ≤ level)).2 ⟨waiting, fun u _ => inv.views.waiting u⟩

theorem Discipline.stay {cfg : Config} {t : Thread} {g : Local Key Value} (inv : Discipline gs m cfg)
    (smo : g.smo = (gs t).smo) (view : g.view = (gs t).view) (nodes : m'.nodes = m.nodes)
    (issued : m'.nodesIssued = m.nodesIssued) (root : m'.rootOffset = m.rootOffset) (queue : m'.queue = m.queue) :
    Discipline (Function.update gs t g) m' cfg :=
  inv.look smo nodes issued root (queue ▸ inv.levels.queue) (view ▸ inv.views.target t) (view ▸ inv.views.atTop t)
    (view ▸ inv.views.waiting t)

end

/-! ## Changes of one node -/

section
variable {gs : Thread → Local Key Value} {m : Memory Key Value} {a : GlobalAddress} {n n' : Node Key}

theorem born_setNode (born : Born gs m a n) {b : GlobalAddress} {x : Node Key} :
    Born gs (m.setNode a n') b x ↔ b = a ∧ x = n' ∨ b ≠ a ∧ Born gs m b x := by
  by_cases same : b = a
  · subst same
    simp [Born, Memory.setNode, born.2, eq_comm]
  · simp [Born, Memory.setNode, same]

theorem hasLevel_setNode (born : Born gs m a n) (level : n'.header.level = n.header.level)
    {b : GlobalAddress} {l : ℕ} : HasLevel gs (m.setNode a n') b l ↔ HasLevel gs m b l := by
  simp only [HasLevel, born_setNode born]
  constructor
  · rintro ⟨x, ⟨rfl, rfl⟩ | ⟨-, other⟩, rfl⟩
    · exact ⟨n, born, level.symm⟩
    · exact ⟨x, other, rfl⟩
  · rintro ⟨x, other, rfl⟩
    by_cases same : b = a
    · subst same
      exact ⟨n', Or.inl ⟨rfl, rfl⟩, born_unique born other ▸ level⟩
    · exact ⟨x, Or.inr ⟨same, other⟩, rfl⟩

theorem known_setNode (born : Born gs m a n) (level : n'.header.level = n.header.level)
    {b : GlobalAddress} {l : ℕ} : Known gs (m.setNode a n') b l ↔ Known gs m b l := by
  simp only [Known, hasLevel_setNode born level]

theorem sound_setNode (born : Born gs m a n) (level : n'.header.level = n.header.level) {x : Node Key} :
    Sound gs (m.setNode a n') x ↔ Sound gs m x := by
  cases x <;> simp only [Sound, known_setNode born level]

theorem Levels.setNode (inv : Levels gs m) (born : Born gs m a n) (level : n'.header.level = n.header.level)
    (sound : Sound gs m n') : Levels gs (m.setNode a n') := by
  have known : ∀ {b l}, Known gs (m.setNode a n') b l ↔ Known gs m b l := known_setNode born level
  have hasLevel : ∀ {b l}, HasLevel gs (m.setNode a n') b l ↔ HasLevel gs m b l := hasLevel_setNode born level
  refine ⟨fun b x there => ?_, fun t b content own => ?_, inv.freshOwner,
    fun t b l key own => hasLevel.2 (inv.pending t b l key own), inv.pendingOwner, fun b x present => ?_, ?_,
    fun b l top one two => inv.below b l top (hasLevel.1 one) (hasLevel.1 two),
    fun b l one two => inv.topmost b l (known.1 one) (hasLevel.1 two), fun b queued => known.2 (inv.queue b queued)⟩
  · by_cases same : b = a
    · subst same
      exact inv.issued b n born.1
    · exact inv.issued b x (by simpa [Memory.setNode, Function.update_of_ne same] using there)
  · have other : b ≠ a := by
      rintro rfl
      exact born.2 ⟨t, content, own⟩
    simpa [Memory.setNode, Function.update_of_ne other] using inv.fresh t b content own
  · rcases (born_setNode born).1 present with ⟨rfl, rfl⟩ | ⟨-, other⟩
    · exact (sound_setNode born level).2 sound
    · exact (sound_setNode born level).2 (inv.sound b x other)
  · obtain ⟨l, top⟩ := inv.root
    exact ⟨l, known.2 top⟩

end

/-! ## Changes of what a thread plans -/

section
variable {gs : Thread → Local Key Value} {m : Memory Key Value} {t : Thread} {g : Local Key Value}

theorem Levels.settle {c p : GlobalAddress} {level : ℕ} {key : Key} (inv : Levels gs m)
    (pending : (gs t).smo.pending = some (c, level, key)) (parent : Known gs m p (level + 1))
    (fresh : g.smo.fresh = (gs t).smo.fresh) (settled : g.smo.pending = none) :
    Levels (Function.update gs t g) m ∧ (∀ a l, Known gs m a l → Known (Function.update gs t g) m a l) ∧
      Known (Function.update gs t g) m c level := by
  -- a pending node that stands below some linked node becomes linked
  have sameFresh : ∀ u, (Function.update gs t g u).smo.fresh = (gs u).smo.fresh :=
    (Function.forall_update_iff gs (p := fun u l => l.smo.fresh = (gs u).smo.fresh)).2 ⟨fresh, fun _ _ => rfl⟩
  have born : ∀ {a n}, Born (Function.update gs t g) m a n ↔ Born gs m a n := by
    simp only [Born, Fresh, sameFresh, implies_true]
  have hasLevel : ∀ {a l}, HasLevel (Function.update gs t g) m a l ↔ HasLevel gs m a l := by
    simp only [HasLevel, born, implies_true]
  have pendingOld : ∀ u a l k, (Function.update gs t g u).smo.pending = some (a, l, k) →
      u ≠ t ∧ (gs u).smo.pending = some (a, l, k) := by
    refine (Function.forall_update_iff gs (p := fun u x => ∀ a l k, x.smo.pending = some (a, l, k) →
      u ≠ t ∧ (gs u).smo.pending = some (a, l, k))).2 ⟨?_, fun u other a l k own => ⟨other, own⟩⟩
    simp [settled]
  have known : ∀ {a l}, Known (Function.update gs t g) m a l ↔ Known gs m a l ∨ a = c ∧ HasLevel gs m a l := by
    intro a l
    constructor
    · rintro ⟨leveled, notPending⟩
      by_cases same : a = c
      · exact Or.inr ⟨same, hasLevel.1 leveled⟩
      · refine Or.inl ⟨hasLevel.1 leveled, ?_⟩
        rintro ⟨u, l', k, own⟩
        by_cases mine : u = t
        · subst mine
          rw [pending] at own
          exact same (by simpa using (congrArg (Option.map Prod.fst) own).symm)
        · exact notPending ⟨u, l', k, by rw [Function.update_of_ne mine]; exact own⟩
    · rintro (⟨leveled, notPending⟩ | ⟨rfl, leveled⟩)
      · refine ⟨hasLevel.2 leveled, ?_⟩
        rintro ⟨u, l', k, own⟩
        exact notPending ⟨u, l', k, (pendingOld u a l' k own).2⟩
      · refine ⟨hasLevel.2 leveled, ?_⟩
        rintro ⟨u, l', k, own⟩
        exact (pendingOld u a l' k own).1 (inv.pendingOwner u t a l' k level key (pendingOld u a l' k own).2 pending)
  have weaken : ∀ a l, Known gs m a l → Known (Function.update gs t g) m a l := fun a l old => known.2 (Or.inl old)
  refine ⟨⟨inv.issued, ?_, ?_, ?_, ?_, fun a n present => ?_, ?_, ?_, fun a l linked top => ?_, ?_⟩, weaken,
    known.2 (Or.inr ⟨rfl, inv.pending t c level key pending⟩)⟩
  · simpa only [sameFresh] using inv.fresh
  · simpa only [sameFresh] using inv.freshOwner
  · intro u a l k own
    exact hasLevel.2 (inv.pending u a l k (pendingOld u a l k own).2)
  · intro u v a l k l' k' one two
    exact inv.pendingOwner u v a l k l' k' (pendingOld u a l k one).2 (pendingOld v a l' k' two).2
  · have sound := inv.sound a n (born.1 present)
    cases n with
    | leaf leaf => exact sound
    | internal node =>
      obtain ⟨below, eq, children⟩ := sound
      exact ⟨below, eq, fun i bound => weaken _ _ (children i bound)⟩
  · obtain ⟨l, top⟩ := inv.root
    exact ⟨l, weaken _ _ top⟩
  · simpa only [hasLevel] using inv.below
  · rcases known.1 linked with old | ⟨rfl, leveled⟩
    · exact inv.topmost a l old (hasLevel.1 top)
    · -- a node below a linked one does not reach the root's level
      have high := inv.below p (level + 1) l parent.1 (hasLevel.1 top)
      have := hasLevel_unique leveled (inv.pending t a level key pending)
      omega
  · exact fun a queued => weaken a 0 (inv.queue a queued)

theorem fresh_publish (published : g.smo.fresh = none) (u : Thread) (a : GlobalAddress) (content : Option (Node Key))
    (own : (Function.update gs t g u).smo.fresh = some (a, content)) : u ≠ t ∧ (gs u).smo.fresh = some (a, content) := by
  by_cases same : u = t
  · subst same
    simp [published] at own
  · rw [Function.update_of_ne same] at own
    exact ⟨same, own⟩

theorem Levels.born_publish {new : GlobalAddress} {n : Node Key} (inv : Levels gs m)
    (fresh : (gs t).smo.fresh = some (new, some n)) (published : g.smo.fresh = none) (a : GlobalAddress) (x : Node Key) :
    Born (Function.update gs t g) m a x ↔ Born gs m a x ∨ a = new ∧ x = n := by
  have isFresh : Fresh (Function.update gs t g) a ↔ Fresh gs a ∧ a ≠ new := by
    constructor
    · rintro ⟨u, content, own⟩
      obtain ⟨other, old⟩ := fresh_publish published u a content own
      refine ⟨⟨u, content, old⟩, ?_⟩
      rintro rfl
      exact other (inv.freshOwner u t a _ _ old fresh)
    · rintro ⟨⟨u, content, old⟩, other⟩
      have away : u ≠ t := by
        rintro rfl
        rw [fresh] at old
        exact other (by simpa using (congrArg (Option.map Prod.fst) old).symm)
      exact ⟨u, content, by rw [Function.update_of_ne away]; exact old⟩
  simp only [Born, isFresh]
  by_cases same : a = new
  · subst same
    have : Fresh gs a := ⟨t, _, fresh⟩
    simp [this, (inv.fresh t a _ fresh).2, eq_comm]
  · simp [same]

theorem Levels.hasLevel_publish {new : GlobalAddress} {n : Node Key} (inv : Levels gs m)
    (fresh : (gs t).smo.fresh = some (new, some n)) (published : g.smo.fresh = none) {a : GlobalAddress} {l : ℕ} :
    HasLevel (Function.update gs t g) m a l ↔ HasLevel gs m a l ∨ a = new ∧ l = n.header.level := by
  simp only [HasLevel, inv.born_publish fresh published]
  constructor
  · rintro ⟨x, old | ⟨rfl, rfl⟩, rfl⟩
    · exact Or.inl ⟨x, old, rfl⟩
    · exact Or.inr ⟨rfl, rfl⟩
  · rintro (⟨x, old, rfl⟩ | ⟨rfl, rfl⟩)
    · exact ⟨x, Or.inl old, rfl⟩
    · exact ⟨n, Or.inr ⟨rfl, rfl⟩, rfl⟩

theorem not_hasLevel_fresh {new : GlobalAddress} {content : Option (Node Key)}
    (fresh : (gs t).smo.fresh = some (new, content)) {l : ℕ} : ¬ HasLevel gs m new l := by
  rintro ⟨x, ⟨-, settled⟩, -⟩
  exact settled ⟨t, _, fresh⟩

theorem Levels.publish {new : GlobalAddress} {n : Node Key} {key : Key} {b : GlobalAddress} (inv : Levels gs m)
    (fresh : (gs t).smo.fresh = some (new, some n)) (pending : (gs t).smo.pending = none)
    (sound : Sound gs m n) (sibling : HasLevel gs m b n.header.level)
    (published : g.smo.fresh = none) (planned : g.smo.pending = some (new, n.header.level, key)) :
    Levels (Function.update gs t g) m ∧ ∀ a l, Known (Function.update gs t g) m a l ↔ Known gs m a l := by
  -- a written fresh node enters the tree as a pending one
  have hasLevel : ∀ {a l}, HasLevel (Function.update gs t g) m a l ↔
    HasLevel gs m a l ∨ a = new ∧ l = n.header.level := inv.hasLevel_publish fresh published
  have unborn : ∀ {l}, ¬ HasLevel gs m new l := not_hasLevel_fresh fresh
  have isPending : ∀ u a l k, (Function.update gs t g u).smo.pending = some (a, l, k) →
      u = t ∧ a = new ∧ l = n.header.level ∨ u ≠ t ∧ (gs u).smo.pending = some (a, l, k) := by
    refine (Function.forall_update_iff gs (p := fun u x => ∀ a l k, x.smo.pending = some (a, l, k) →
      u = t ∧ a = new ∧ l = n.header.level ∨ u ≠ t ∧ (gs u).smo.pending = some (a, l, k))).2
      ⟨fun a l k own => ?_, fun u other a l k own => Or.inr ⟨other, own⟩⟩
    rw [planned] at own
    cases own
    exact Or.inl ⟨rfl, rfl, rfl⟩
  have known : ∀ a l, Known (Function.update gs t g) m a l ↔ Known gs m a l := by
    intro a l
    constructor
    · rintro ⟨leveled, settled⟩
      rcases hasLevel.1 leveled with old | ⟨rfl, -⟩
      · refine ⟨old, ?_⟩
        rintro ⟨u, l', k, own⟩
        have away : u ≠ t := by
          rintro rfl
          simp [pending] at own
        exact settled ⟨u, l', k, by rw [Function.update_of_ne away]; exact own⟩
      · exact absurd ⟨t, n.header.level, key, by rw [Function.update_self]; exact planned⟩ settled
    · rintro ⟨leveled, settled⟩
      refine ⟨hasLevel.2 (Or.inl leveled), ?_⟩
      rintro ⟨u, l', k, own⟩
      rcases isPending u a l' k own with ⟨-, rfl, -⟩ | ⟨-, old⟩
      · exact unborn leveled
      · exact settled ⟨u, l', k, old⟩
  have soundSame : ∀ {x : Node Key}, Sound (Function.update gs t g) m x ↔ Sound gs m x := by
    intro x
    cases x <;> simp only [Sound, known]
  have rootLevel : ∀ {l}, HasLevel (Function.update gs t g) m m.rootOffset l → HasLevel gs m m.rootOffset l := by
    intro l leveled
    rcases hasLevel.1 leveled with old | ⟨eq, -⟩
    · exact old
    · obtain ⟨top, rootKnown⟩ := inv.root
      rw [eq] at rootKnown
      exact absurd rootKnown.1 unborn
  refine ⟨⟨inv.issued, fun u a content own => inv.fresh u a content (fresh_publish published u a content own).2, ?_,
    fun u a l k own => ?_, ?_, fun a x present => ?_, ?_, fun a l top leveled rootTop => ?_, fun a l linked rootTop => ?_, ?_⟩,
    known⟩
  · intro u v a content content' one two
    exact inv.freshOwner u v a content content' (fresh_publish published u a content one).2
      (fresh_publish published v a content' two).2
  · rcases isPending u a l k own with ⟨-, rfl, rfl⟩ | ⟨-, old⟩
    · exact hasLevel.2 (Or.inr ⟨rfl, rfl⟩)
    · exact hasLevel.2 (Or.inl (inv.pending u a l k old))
  · intro u v a l k l' k' one two
    rcases isPending u a l k one with ⟨rfl, rfl, rfl⟩ | ⟨-, old⟩ <;>
      rcases isPending v a l' k' two with ⟨rfl, eq, rfl⟩ | ⟨-, old'⟩
    · rfl
    · exact absurd (inv.pending v _ l' k' old') unborn
    · exact absurd (inv.pending u _ l k old) (eq ▸ unborn)
    · exact inv.pendingOwner u v a l k l' k' old old'
  · rcases (inv.born_publish fresh published a x).1 present with old | ⟨rfl, rfl⟩
    · exact soundSame.2 (inv.sound a x old)
    · exact soundSame.2 sound
  · obtain ⟨top, rootKnown⟩ := inv.root
    exact ⟨top, (known _ _).2 rootKnown⟩
  · rcases hasLevel.1 leveled with old | ⟨rfl, rfl⟩
    · exact inv.below a l top old (rootLevel rootTop)
    · exact inv.below b _ top sibling (rootLevel rootTop)
  · exact inv.topmost a l ((known a l).1 linked) (rootLevel rootTop)
  · exact fun a queued => (known a 0).2 (inv.queue a queued)

theorem Levels.grow {new c : GlobalAddress} {r : InternalNode Key} {level : ℕ} {key : Key} (inv : Levels gs m)
    (fresh : (gs t).smo.fresh = some (new, some (.internal r))) (pending : (gs t).smo.pending = some (c, level, key))
    (root : HasLevel gs m m.rootOffset level) (above : r.header.level = level + 1)
    (children : ∀ i ≤ r.header.lastIndex, (r.entries i).child = m.rootOffset ∨ (r.entries i).child = c)
    (published : g.smo.fresh = none) (settled : g.smo.pending = none) :
    Levels (Function.update gs t g) { m with rootOffset := new } ∧
      ∀ a l, Known gs m a l → Known (Function.update gs t g) { m with rootOffset := new } a l := by
  -- a written fresh node becomes the root, with the old root and the pending node below it
  have hasLevel : ∀ {a l}, HasLevel (Function.update gs t g) { m with rootOffset := new } a l ↔
      HasLevel gs m a l ∨ a = new ∧ l = level + 1 := by
    intro a l
    rw [← above]
    exact inv.hasLevel_publish fresh published
  have unborn : ∀ {l}, ¬ HasLevel gs m new l := not_hasLevel_fresh fresh
  have pendingOld : ∀ u a l k, (Function.update gs t g u).smo.pending = some (a, l, k) →
      u ≠ t ∧ (gs u).smo.pending = some (a, l, k) := by
    refine (Function.forall_update_iff gs (p := fun u x => ∀ a l k, x.smo.pending = some (a, l, k) →
      u ≠ t ∧ (gs u).smo.pending = some (a, l, k))).2 ⟨?_, fun u other a l k own => ⟨other, own⟩⟩
    simp [settled]
  have weaken : ∀ a l, Known gs m a l → Known (Function.update gs t g) { m with rootOffset := new } a l := by
    rintro a l ⟨leveled, linked⟩
    refine ⟨hasLevel.2 (Or.inl leveled), ?_⟩
    rintro ⟨u, l', k, own⟩
    exact linked ⟨u, l', k, (pendingOld u a l' k own).2⟩
  have child : Known (Function.update gs t g) { m with rootOffset := new } c level := by
    refine ⟨hasLevel.2 (Or.inl (inv.pending t c level key pending)), ?_⟩
    rintro ⟨u, l', k, own⟩
    obtain ⟨other, old⟩ := pendingOld u c l' k own
    exact other (inv.pendingOwner u t c l' k level key old pending)
  obtain ⟨top, rootKnown⟩ := inv.root
  obtain rfl := hasLevel_unique rootKnown.1 root
  have newLevel : ∀ {l}, HasLevel (Function.update gs t g) { m with rootOffset := new } new l → l = top + 1 := by
    intro l leveled
    rcases hasLevel.1 leveled with old | ⟨-, eq⟩
    · exact absurd old unborn
    · exact eq
  refine ⟨⟨inv.issued, fun u a content own => inv.fresh u a content (fresh_publish published u a content own).2, ?_,
    fun u a l k own => hasLevel.2 (Or.inl (inv.pending u a l k (pendingOld u a l k own).2)), ?_, fun a x present => ?_, ?_,
    fun a l high leveled rootTop => ?_, fun a l linked rootTop => ?_,
    fun a queued => weaken a 0 (inv.queue a queued)⟩, weaken⟩
  · intro u v a content content' one two
    exact inv.freshOwner u v a content content' (fresh_publish published u a content one).2
      (fresh_publish published v a content' two).2
  · intro u v a l k l' k' one two
    exact inv.pendingOwner u v a l k l' k' (pendingOld u a l k one).2 (pendingOld v a l' k' two).2
  · rcases (inv.born_publish fresh published a x).1 present with old | ⟨rfl, rfl⟩
    · have sound := inv.sound a x old
      cases x with
      | leaf leaf => exact sound
      | internal node =>
        obtain ⟨below, eq, linked⟩ := sound
        exact ⟨below, eq, fun i bound => weaken _ _ (linked i bound)⟩
    · refine ⟨top, above, fun i bound => ?_⟩
      rcases children i bound with eq | eq
      · rw [eq]
        exact weaken _ _ rootKnown
      · rw [eq]
        exact child
  · refine ⟨top + 1, hasLevel.2 (Or.inr ⟨rfl, rfl⟩), ?_⟩
    rintro ⟨u, l', k, own⟩
    exact absurd (inv.pending u new l' k (pendingOld u new l' k own).2) unborn
  · rw [newLevel rootTop]
    rcases hasLevel.1 leveled with old | ⟨-, rfl⟩
    · exact Nat.le_succ_of_le (inv.below a l top old root)
    · exact le_refl _
  · have eq := newLevel rootTop
    subst eq
    rcases hasLevel.1 linked.1 with old | ⟨rfl, -⟩
    · exact absurd (inv.below a _ top old root) (by omega)
    · rfl

end

/-! ## Single steps of the discipline -/

section
variable {cfg : Config} {gs : Thread → Local Key Value} {m : Memory Key Value} {t : Thread} {g : Local Key Value}

theorem Discipline.note (inv : Discipline gs m cfg) (held : g.smo.held = (gs t).smo.held)
    (slots : g.smo.slots = (gs t).smo.slots) (fresh : g.smo.fresh = (gs t).smo.fresh)
    (pending : g.smo.pending = (gs t).smo.pending) (view : g.view = (gs t).view)
    (node : ∀ n, g.smo.node = some n → ∃ a, (gs t).smo.held.head? = some a ∧ Born gs m a (.internal n))
    (keptSlots : ∀ snap, g.smo.kept = some snap → ∀ i < cfg.branchFactor, (gs t).smo.slots i = true)
    (kept : ∀ snap, g.smo.kept = some snap →
      ∃ a leaf, (gs t).smo.held = [a] ∧ Born gs m a (.leaf leaf) ∧ leaf.header = snap.header ∧
        ∀ i, leaf.kvBlocks i = snap.kvBlocks i ∨ (leaf.kvBlocks i).isFree = true ∧ (snap.kvBlocks i).isFree = false) :
    Discipline (Function.update gs t g) m cfg := by
  -- a thread takes a note of what it read
  have sameHeld : ∀ u, (Function.update gs t g u).smo.held = (gs u).smo.held :=
    (Function.forall_update_iff gs (p := fun u l => l.smo.held = (gs u).smo.held)).2 ⟨held, fun _ _ => rfl⟩
  have sameSlots : ∀ u, (Function.update gs t g u).smo.slots = (gs u).smo.slots :=
    (Function.forall_update_iff gs (p := fun u l => l.smo.slots = (gs u).smo.slots)).2 ⟨slots, fun _ _ => rfl⟩
  have sameFresh : ∀ u, (Function.update gs t g u).smo.fresh = (gs u).smo.fresh :=
    (Function.forall_update_iff gs (p := fun u l => l.smo.fresh = (gs u).smo.fresh)).2 ⟨fresh, fun _ _ => rfl⟩
  have sameView : ∀ u, (Function.update gs t g u).view = (gs u).view :=
    (Function.forall_update_iff gs (p := fun u l => l.view = (gs u).view)).2 ⟨view, fun _ _ => rfl⟩
  have same : SameTree gs (Function.update gs t g) m m := .update fresh pending rfl rfl
  refine ⟨inv.levels.of_sameTree same inv.levels.issued ?_ ?_ inv.levels.queue, inv.chains.of_sameTree same sameHeld,
    inv.words.of_sameTree same sameHeld, inv.bits.of_sameTree same sameHeld sameSlots, ?_, ?_⟩
  · simpa only [sameFresh] using inv.levels.fresh
  · simpa only [sameFresh] using inv.levels.freshOwner
  · constructor <;> simp only [same.pending, sameHeld, sameSlots, same.born]
    · exact inv.notes.pending
    · exact (Function.forall_update_iff gs (p := fun u l => ∀ n, l.smo.node = some n →
        ∃ a, (gs u).smo.held.head? = some a ∧ Born gs m a (.internal n))).2 ⟨node, fun u _ => inv.notes.node u⟩
    · exact (Function.forall_update_iff gs (p := fun u l => ∀ snap, l.smo.kept = some snap →
        ∀ i < cfg.branchFactor, (gs u).smo.slots i = true)).2 ⟨keptSlots, fun u _ => inv.notes.keptSlots u⟩
    · exact (Function.forall_update_iff gs (p := fun u l => ∀ snap, l.smo.kept = some snap →
        ∃ a leaf, (gs u).smo.held = [a] ∧ Born gs m a (.leaf leaf) ∧ leaf.header = snap.header ∧
          ∀ i, leaf.kvBlocks i = snap.kvBlocks i ∨
            (leaf.kvBlocks i).isFree = true ∧ (snap.kvBlocks i).isFree = false)).2 ⟨kept, fun u _ => inv.notes.kept u⟩
  · constructor <;> simp only [sameView, sameHeld, same.known]
    · exact inv.views.target
    · exact inv.views.atTop
    · exact inv.views.waiting

theorem Views.of_known {gs' : Thread → Local Key Value} {m' : Memory Key Value} (inv : Views gs m)
    (known : ∀ a l, Known gs m a l → Known gs' m' a l) (view : ∀ u, (gs' u).view = (gs u).view)
    (held : ∀ u, (gs' u).smo.held = (gs u).smo.held) (root : m'.rootOffset = m.rootOffset) : Views gs' m' := by
  constructor <;> simp only [view, held, root]
  · exact fun u a l own => known a l (inv.target u a l own)
  · exact inv.atTop
  · intro u a own
    obtain ⟨l, linked, high⟩ := inv.waiting u a own
    exact ⟨l, known a l linked, high⟩

theorem Chains.of_known {gs' : Thread → Local Key Value} {m' : Memory Key Value} (inv : Chains gs m)
    (known : ∀ a l, Known gs m a l → Known gs' m' a l) (held : ∀ u, (gs' u).smo.held = (gs u).smo.held) :
    Chains gs' m' := by
  constructor <;> simp only [held]
  · exact fun u above a rest eq => known _ _ (inv.chain u above a rest eq)
  · exact inv.owner

theorem Discipline.settle {c p : GlobalAddress} {level : ℕ} {key : Key} (inv : Discipline gs m cfg)
    (pending : (gs t).smo.pending = some (c, level, key)) (parent : Known gs m p (level + 1)) :
    Discipline (Function.update gs t { gs t with smo := { (gs t).smo with pending := none } }) m cfg ∧
      Known (Function.update gs t { gs t with smo := { (gs t).smo with pending := none } }) m c level := by
  -- the pending node is linked, or left out below a linked one
  set g : Local Key Value := { gs t with smo := { (gs t).smo with pending := none } } with eq
  obtain ⟨levels, known, child⟩ := inv.levels.settle (g := g) pending parent rfl rfl
  have same : ∀ u, (Function.update gs t g u).smo = { (gs u).smo with pending := (Function.update gs t g u).smo.pending } :=
    (Function.forall_update_iff gs (p := fun u l => l.smo = { (gs u).smo with pending := l.smo.pending })).2
      ⟨rfl, fun _ _ => rfl⟩
  have held : ∀ u, (Function.update gs t g u).smo.held = (gs u).smo.held := fun u => by rw [same]
  have slots : ∀ u, (Function.update gs t g u).smo.slots = (gs u).smo.slots := fun u => by rw [same]
  have fresh : ∀ u, (Function.update gs t g u).smo.fresh = (gs u).smo.fresh := fun u => by rw [same]
  have view : ∀ u, (Function.update gs t g u).view = (gs u).view :=
    (Function.forall_update_iff gs (p := fun u l => l.view = (gs u).view)).2 ⟨rfl, fun _ _ => rfl⟩
  have born : ∀ {a n}, Born (Function.update gs t g) m a n ↔ Born gs m a n := by
    simp only [Born, Fresh, fresh, implies_true]
  refine ⟨⟨levels, inv.chains.of_known known held, ?_, ?_, ?_, inv.views.of_known known view held rfl⟩, child⟩
  · constructor <;> simp only [held, born]
    · exact inv.words.taken
    · exact inv.words.free
  · constructor <;> simp only [held, slots, born]
    · exact inv.bits.taken
    · exact inv.bits.free
    · exact inv.bits.none
  · refine ⟨?_, ?_, ?_, ?_⟩
    · simp only [held, slots]
      exact (Function.forall_update_iff gs (p := fun u l => ∀ a level key, l.smo.pending = some (a, level, key) →
        (∀ i, (gs u).smo.slots i = false) ∧ ((gs u).smo.held.length = level + 1 ∨ (gs u).smo.held.length = level + 2))).2
        ⟨by simp [eq], fun u _ => inv.notes.pending u⟩
    · intro u n own
      rw [same] at own
      simpa only [held, born] using inv.notes.node u n own
    · intro u snap own
      rw [same] at own
      simpa only [slots] using inv.notes.keptSlots u snap own
    · intro u snap own
      rw [same] at own
      simpa only [held, born] using inv.notes.kept u snap own

theorem Chains.known {a : GlobalAddress} (inv : Chains gs m) (held : a ∈ (gs t).smo.held) : ∃ l, Known gs m a l := by
  obtain ⟨above, rest, eq⟩ := List.append_of_mem held
  exact ⟨rest.length, inv.chain t above a rest eq⟩

theorem Discipline.not_held_fresh {a : GlobalAddress} {content : Option (Node Key)} {u : Thread}
    (inv : Discipline gs m cfg) (fresh : (gs t).smo.fresh = some (a, content)) : a ∉ (gs u).smo.held := by
  intro held
  obtain ⟨l, linked⟩ := inv.chains.known held
  exact not_hasLevel_fresh fresh linked.1

section
variable {gs' : Thread → Local Key Value} {m' : Memory Key Value} {new : GlobalAddress} {n : Node Key}

theorem LockWords.more (inv : LockWords gs m) (held : ∀ u, (gs' u).smo.held = (gs u).smo.held)
    (born : ∀ a x, Born gs' m' a x ↔ Born gs m a x ∨ a = new ∧ x = n) (away : ∀ u, new ∉ (gs u).smo.held)
    (unlocked : n.header.lock = 0) : LockWords gs' m' := by
  constructor <;> simp only [held, born]
  · rintro a x u (old | ⟨rfl, rfl⟩) own
    · exact inv.taken a x u old own
    · exact absurd own (away u)
  · rintro a x (old | ⟨rfl, rfl⟩) none
    · exact inv.free a x old none
    · exact unlocked

theorem SlotBits.more (inv : SlotBits gs m cfg) (held : ∀ u, (gs' u).smo.held = (gs u).smo.held)
    (slots : ∀ u, (gs' u).smo.slots = (gs u).smo.slots)
    (born : ∀ a x, Born gs' m' a x ↔ Born gs m a x ∨ a = new ∧ x = n) (away : ∀ u, new ∉ (gs u).smo.held)
    (bits : ∀ leaf, n = .leaf leaf → ∀ i < cfg.branchFactor, (leaf.kvBlocks i).isLocked = false) :
    SlotBits gs' m' cfg := by
  constructor <;> simp only [held, slots, born]
  · rintro a leaf u (old | ⟨rfl, -⟩) own
    · exact inv.taken a leaf u old own
    · exact absurd own (away u)
  · rintro a leaf (old | ⟨rfl, is⟩) none
    · exact inv.free a leaf old none
    · exact bits leaf is.symm
  · exact inv.none

theorem Notes.of_born (inv : Notes gs m cfg) (held : ∀ u, (gs' u).smo.held = (gs u).smo.held)
    (slots : ∀ u, (gs' u).smo.slots = (gs u).smo.slots) (node : ∀ u, (gs' u).smo.node = (gs u).smo.node)
    (kept : ∀ u, (gs' u).smo.kept = (gs u).smo.kept) (born : ∀ a x, Born gs m a x → Born gs' m' a x)
    (pending : ∀ u a level key, (gs' u).smo.pending = some (a, level, key) → (∀ i, (gs u).smo.slots i = false) ∧
      ((gs u).smo.held.length = level + 1 ∨ (gs u).smo.held.length = level + 2)) : Notes gs' m' cfg := by
  refine ⟨?_, ?_, ?_, ?_⟩ <;> simp only [held, slots, node, kept]
  · exact pending
  · intro u x own
    obtain ⟨a, head, old⟩ := inv.node u x own
    exact ⟨a, head, born _ _ old⟩
  · exact inv.keptSlots
  · intro u snap own
    obtain ⟨a, leaf, only, old, rest⟩ := inv.kept u snap own
    exact ⟨a, leaf, only, born _ _ old, rest⟩

end

theorem smo_replan (gs : Thread → Local Key Value) (t : Thread) (g : Local Key Value)
    {fresh : Option (GlobalAddress × Option (Node Key))} {pending : Option (GlobalAddress × ℕ × Key)}
    (smo : g.smo = { (gs t).smo with fresh, pending }) (u : Thread) :
    (Function.update gs t g u).smo.held = (gs u).smo.held ∧ (Function.update gs t g u).smo.slots = (gs u).smo.slots ∧
      (Function.update gs t g u).smo.node = (gs u).smo.node ∧ (Function.update gs t g u).smo.kept = (gs u).smo.kept := by
  by_cases same : u = t
  · subst same
    simp [smo]
  · simp [Function.update_of_ne same]

theorem Discipline.publish {new b : GlobalAddress} {n : Node Key} {key : Key} (inv : Discipline gs m cfg)
    (fresh : (gs t).smo.fresh = some (new, some n)) (pending : (gs t).smo.pending = none)
    (sound : Sound gs m n) (sibling : HasLevel gs m b n.header.level) (unlocked : n.header.lock = 0)
    (bits : ∀ leaf, n = .leaf leaf → ∀ i < cfg.branchFactor, (leaf.kvBlocks i).isLocked = false)
    (slots : ∀ i, (gs t).smo.slots i = false) (length : (gs t).smo.held.length = n.header.level + 1) :
    Discipline (Function.update gs t { gs t with smo :=
      { (gs t).smo with fresh := none, pending := some (new, n.header.level, key) } }) m cfg := by
  -- an unlocked node enters the tree
  set g : Local Key Value := { gs t with smo :=
    { (gs t).smo with fresh := none, pending := some (new, n.header.level, key) } } with eq
  obtain ⟨levels, known⟩ := inv.levels.publish (g := g) fresh pending sound sibling rfl rfl
  have born : ∀ a x, Born (Function.update gs t g) m a x ↔ Born gs m a x ∨ a = new ∧ x = n :=
    inv.levels.born_publish fresh rfl
  have same := smo_replan gs t g rfl
  have view : ∀ u, (Function.update gs t g u).view = (gs u).view :=
    (Function.forall_update_iff gs (p := fun u l => l.view = (gs u).view)).2 ⟨rfl, fun _ _ => rfl⟩
  have away : ∀ u, new ∉ (gs u).smo.held := fun u => inv.not_held_fresh fresh
  have weaken : ∀ a l, Known gs m a l → Known (Function.update gs t g) m a l := fun a l => (known a l).2
  refine ⟨levels, inv.chains.of_known weaken (fun u => (same u).1),
    inv.words.more (fun u => (same u).1) born away unlocked,
    inv.bits.more (fun u => (same u).1) (fun u => (same u).2.1) born away bits,
    inv.notes.of_born (fun u => (same u).1) (fun u => (same u).2.1) (fun u => (same u).2.2.1) (fun u => (same u).2.2.2)
      (fun a x old => (born a x).2 (Or.inl old)) ?_,
    inv.views.of_known weaken view (fun u => (same u).1) rfl⟩
  refine (Function.forall_update_iff gs (p := fun u l => ∀ a level key, l.smo.pending = some (a, level, key) →
    (∀ i, (gs u).smo.slots i = false) ∧ ((gs u).smo.held.length = level + 1 ∨ (gs u).smo.held.length = level + 2))).2
    ⟨fun a level k own => ?_, fun u _ => inv.notes.pending u⟩
  cases own
  exact ⟨slots, Or.inl length⟩

theorem Discipline.grow {new c a : GlobalAddress} {r : InternalNode Key} {rest : List GlobalAddress} {level : ℕ} {key : Key}
    (inv : Discipline gs m cfg) (fresh : (gs t).smo.fresh = some (new, some (.internal r)))
    (pending : (gs t).smo.pending = some (c, level, key)) (held : (gs t).smo.held = a :: rest) (root : m.rootOffset = a)
    (length : rest.length = level) (above : r.header.level = level + 1) (unlocked : r.header.lock = 0)
    (children : ∀ i ≤ r.header.lastIndex, (r.entries i).child = a ∨ (r.entries i).child = c) :
    Discipline (Function.update gs t
      { gs t with
        smo := { (gs t).smo with fresh := none, pending := none }
        view := { (gs t).view with atTop := false } }) { m with rootOffset := new } cfg := by
  -- the holder of the root's lock puts a new root above it
  set g : Local Key Value := { gs t with
    smo := { (gs t).smo with fresh := none, pending := none }
    view := { (gs t).view with atTop := false } } with eq
  have top : Known gs m a level := length ▸ inv.chains.chain t [] a rest held
  obtain ⟨levels, known⟩ := inv.levels.grow (g := g) fresh pending (root ▸ top.1) above (root ▸ children) rfl rfl
  have born : ∀ b x, Born (Function.update gs t g) { m with rootOffset := new } b x ↔
    Born gs m b x ∨ b = new ∧ x = .internal r := inv.levels.born_publish fresh rfl
  have same := smo_replan gs t g rfl
  have away : ∀ u, new ∉ (gs u).smo.held := fun u => inv.not_held_fresh fresh
  refine ⟨levels, inv.chains.of_known known (fun u => (same u).1),
    inv.words.more (fun u => (same u).1) born away unlocked,
    inv.bits.more (fun u => (same u).1) (fun u => (same u).2.1) born away (by rintro leaf ⟨⟩),
    inv.notes.of_born (fun u => (same u).1) (fun u => (same u).2.1) (fun u => (same u).2.2.1) (fun u => (same u).2.2.2)
      (fun a x old => (born a x).2 (Or.inl old)) ?_, ⟨?_, ?_, ?_⟩⟩
  · exact (Function.forall_update_iff gs (p := fun u l => ∀ a level key, l.smo.pending = some (a, level, key) →
      (∀ i, (gs u).smo.slots i = false) ∧ ((gs u).smo.held.length = level + 1 ∨ (gs u).smo.held.length = level + 2))).2
      ⟨by simp [eq], fun u _ => inv.notes.pending u⟩
  · refine (Function.forall_update_iff gs (p := fun u l => ∀ b level, l.view.target = some (b, level) →
      Known (Function.update gs t g) { m with rootOffset := new } b level)).2 ⟨?_, ?_⟩
    · exact fun b l own => known b l (inv.views.target t b l own)
    · exact fun u _ b l own => known b l (inv.views.target u b l own)
  · simp only [same]
    refine (Function.forall_update_iff gs (p := fun u l => l.view.atTop = true →
      (gs u).smo.held.head? = some new)).2 ⟨by simp [eq], fun u other own => ?_⟩
    -- only the holder of the root's lock is at the top
    have top := inv.views.atTop u own
    have mine : a ∈ (gs t).smo.held := by rw [held]; exact List.mem_cons_self
    have theirs : a ∈ (gs u).smo.held := by
      rw [root] at top
      exact List.mem_of_mem_head? top
    exact absurd (inv.chains.owner u t a theirs mine) other
  · simp only [same]
    refine (Function.forall_update_iff gs (p := fun u l => ∀ b, l.view.waiting = some b → ∃ level,
      Known (Function.update gs t g) { m with rootOffset := new } b level ∧ (gs u).smo.held.length ≤ level)).2
      ⟨fun b own => ?_, fun u _ b own => ?_⟩
    · obtain ⟨l, linked, high⟩ := inv.views.waiting t b own
      exact ⟨l, known b l linked, high⟩
    · obtain ⟨l, linked, high⟩ := inv.views.waiting u b own
      exact ⟨l, known b l linked, high⟩

theorem Discipline.draft {m' : Memory Key Value} {a : GlobalAddress} {content : Option (Node Key)}
    (inv : Discipline gs m cfg) (same : SameTree gs (Function.update gs t
      { gs t with smo := { (gs t).smo with fresh := some (a, content) } }) m m')
    (issued : ∀ b n, m'.nodes b = some n → b ∈ m'.nodesIssued)
    (kept : ∀ u b old, u ≠ t → (gs u).smo.fresh = some (b, old) → b ≠ a ∧ b ∈ m'.nodesIssued ∧ m'.nodes b = old)
    (own : a ∈ m'.nodesIssued ∧ m'.nodes a = content) (queue : m'.queue = m.queue) :
    Discipline (Function.update gs t { gs t with smo := { (gs t).smo with fresh := some (a, content) } }) m' cfg := by
  -- a thread changes only what it has allocated
  set g : Local Key Value := { gs t with smo := { (gs t).smo with fresh := some (a, content) } } with eq
  have plan := smo_replan gs t g rfl
  have view : ∀ u, (Function.update gs t g u).view = (gs u).view :=
    (Function.forall_update_iff gs (p := fun u l => l.view = (gs u).view)).2 ⟨rfl, fun _ _ => rfl⟩
  have fresh : ∀ u b x, (Function.update gs t g u).smo.fresh = some (b, x) →
      u = t ∧ b = a ∧ x = content ∨ u ≠ t ∧ (gs u).smo.fresh = some (b, x) := by
    refine (Function.forall_update_iff gs (p := fun u l => ∀ b x, l.smo.fresh = some (b, x) →
      u = t ∧ b = a ∧ x = content ∨ u ≠ t ∧ (gs u).smo.fresh = some (b, x))).2
      ⟨fun b x is => ?_, fun u other b x is => Or.inr ⟨other, is⟩⟩
    cases is
    exact Or.inl ⟨rfl, rfl, rfl⟩
  refine ⟨inv.levels.of_sameTree same issued ?_ ?_ (queue ▸ inv.levels.queue),
    inv.chains.of_sameTree same (fun u => (plan u).1), inv.words.of_sameTree same (fun u => (plan u).1),
    inv.bits.of_sameTree same (fun u => (plan u).1) (fun u => (plan u).2.1),
    inv.notes.of_born (fun u => (plan u).1) (fun u => (plan u).2.1) (fun u => (plan u).2.2.1) (fun u => (plan u).2.2.2)
      (fun b x old => (same.born b x).2 old) (by simpa only [same.pending] using inv.notes.pending),
    inv.views.of_known (fun b l => same.known.2) view (fun u => (plan u).1) same.root⟩
  · intro u b x is
    rcases fresh u b x is with ⟨-, rfl, rfl⟩ | ⟨other, old⟩
    · exact own
    · exact (kept u b x other old).2
  · intro u v b x y one two
    rcases fresh u b x one with ⟨rfl, rfl, rfl⟩ | ⟨other, old⟩ <;>
      rcases fresh v b y two with ⟨rfl, is, rfl⟩ | ⟨other', old'⟩
    · rfl
    · exact absurd rfl (kept v _ y other' old').1
    · exact absurd is (kept u _ x other old).1
    · exact inv.levels.freshOwner u v b x y old old'

theorem Levels.sameTree_alloc {a : GlobalAddress} (inv : Levels gs m) (unused : a ∉ m.nodesIssued)
    (fresh : (gs t).smo.fresh = none) :
    SameTree gs (Function.update gs t { gs t with smo := { (gs t).smo with fresh := some (a, none) } }) m
      { m with nodesIssued := a :: m.nodesIssued } := by
  refine ⟨fun b x => ?_, ?_, rfl⟩
  · have isFresh : Fresh (Function.update gs t { gs t with smo := { (gs t).smo with fresh := some (a, none) } }) b ↔
        Fresh gs b ∨ b = a := by
      constructor
      · rintro ⟨u, content, own⟩
        by_cases same : u = t
        · subst same
          simp only [Function.update_self, Option.some.injEq, Prod.mk.injEq] at own
          exact Or.inr own.1.symm
        · rw [Function.update_of_ne same] at own
          exact Or.inl ⟨u, content, own⟩
      · rintro (⟨u, content, own⟩ | rfl)
        · have other : u ≠ t := by
            rintro rfl
            simp [fresh] at own
          exact ⟨u, content, by rw [Function.update_of_ne other]; exact own⟩
        · exact ⟨t, none, by simp⟩
    simp only [Born, isFresh]
    constructor
    · exact fun ⟨there, not⟩ => ⟨there, fun is => not (Or.inl is)⟩
    · rintro ⟨there, not⟩
      refine ⟨there, ?_⟩
      rintro (is | rfl)
      · exact not is
      · exact unused (inv.issued b x there)
  · exact (Function.forall_update_iff gs (p := fun u l => l.smo.pending = (gs u).smo.pending)).2
      ⟨rfl, fun _ _ => rfl⟩

theorem Discipline.alloc {a : GlobalAddress} (inv : Discipline gs m cfg) (unused : a ∉ m.nodesIssued)
    (fresh : (gs t).smo.fresh = none) :
    Discipline (Function.update gs t { gs t with smo := { (gs t).smo with fresh := some (a, none) } })
      { m with nodesIssued := a :: m.nodesIssued } cfg := by
  have absent : m.nodes a = none := by
    cases there : m.nodes a with
    | none => rfl
    | some n => exact absurd (inv.levels.issued a n there) unused
  refine inv.draft (inv.levels.sameTree_alloc unused fresh) ?_ ?_ ⟨List.mem_cons_self, absent⟩ rfl
  · exact fun b n there => List.mem_cons_of_mem _ (inv.levels.issued b n there)
  · intro u b old other own
    have issued := inv.levels.fresh u b old own
    refine ⟨?_, List.mem_cons_of_mem _ issued.1, issued.2⟩
    rintro rfl
    exact unused issued.1

theorem sameTree_write {a : GlobalAddress} {n : Node Key} (fresh : (gs t).smo.fresh = some (a, none)) :
    SameTree gs (Function.update gs t { gs t with smo := { (gs t).smo with fresh := some (a, some n) } }) m
      (m.setNode a n) := by
  refine ⟨fun b x => ?_, ?_, rfl⟩
  · have isFresh : Fresh (Function.update gs t { gs t with smo := { (gs t).smo with fresh := some (a, some n) } }) b ↔
        Fresh gs b := by
      constructor
      · rintro ⟨u, content, own⟩
        by_cases same : u = t
        · subst same
          simp only [Function.update_self, Option.some.injEq, Prod.mk.injEq] at own
          exact ⟨u, none, own.1 ▸ fresh⟩
        · rw [Function.update_of_ne same] at own
          exact ⟨u, content, own⟩
      · rintro ⟨u, content, own⟩
        by_cases same : u = t
        · subst same
          rw [fresh] at own
          cases own
          exact ⟨u, some n, by simp⟩
        · exact ⟨u, content, by rw [Function.update_of_ne same]; exact own⟩
    simp only [Born, isFresh]
    by_cases same : b = a
    · subst same
      have : Fresh gs b := ⟨t, none, fresh⟩
      simp [this]
    · simp [Memory.setNode, same]
  · exact (Function.forall_update_iff gs (p := fun u l => l.smo.pending = (gs u).smo.pending)).2
      ⟨rfl, fun _ _ => rfl⟩

theorem Discipline.write {a : GlobalAddress} {n : Node Key} (inv : Discipline gs m cfg)
    (fresh : (gs t).smo.fresh = some (a, none)) :
    Discipline (Function.update gs t { gs t with smo := { (gs t).smo with fresh := some (a, some n) } })
      (m.setNode a n) cfg := by
  have issued := (inv.levels.fresh t a none fresh).1
  refine inv.draft (sameTree_write fresh) ?_ ?_ ⟨issued, by simp [Memory.setNode]⟩ rfl
  · intro b x there
    by_cases same : b = a
    · exact same ▸ issued
    · exact inv.levels.issued b x (by simpa [Memory.setNode, same] using there)
  · intro u b old other own
    have away : b ≠ a := by
      rintro rfl
      exact other (inv.levels.freshOwner u t b old none own fresh)
    simpa [Memory.setNode, away] using inv.levels.fresh u b old own

theorem Discipline.rewrite {a : GlobalAddress} {n n' : Node Key} (inv : Discipline gs m cfg) (born : Born gs m a n)
    (level : n'.header.level = n.header.level) (lock : n'.header.lock = n.header.lock) (sound : Sound gs m n')
    (held : g.smo.held = (gs t).smo.held) (fresh : g.smo.fresh = (gs t).smo.fresh)
    (pending : g.smo.pending = (gs t).smo.pending) (view : g.view = (gs t).view)
    (slots : g.smo.slots = (gs t).smo.slots ∨ (gs t).smo.held = [a] ∧ (gs t).smo.pending = none)
    (bits : ∀ leaf, n' = .leaf leaf → ∀ i < cfg.branchFactor,
      (∀ u, a ∈ (gs u).smo.held → (leaf.kvBlocks i).isLocked = (Function.update gs t g u).smo.slots i) ∧
        ((∀ u, a ∉ (gs u).smo.held) → (leaf.kvBlocks i).isLocked = false))
    (node : ∀ u x, (Function.update gs t g u).smo.node = some x → (gs u).smo.node = some x ∧ (gs u).smo.held.head? ≠ some a)
    (keptSlots : ∀ snap, g.smo.kept = some snap → ∀ i < cfg.branchFactor, g.smo.slots i = true)
    (kept : ∀ u snap, (Function.update gs t g u).smo.kept = some snap → (gs u).smo.kept = some snap ∧
      ((gs u).smo.held = [a] → ∃ leaf, n' = .leaf leaf ∧ leaf.header = snap.header ∧
        ∀ i, leaf.kvBlocks i = snap.kvBlocks i ∨ (leaf.kvBlocks i).isFree = true ∧ (snap.kvBlocks i).isFree = false)) :
    Discipline (Function.update gs t g) (m.setNode a n') cfg := by
  -- a linked node changes under locks that stay as they are
  have sameHeld : ∀ u, (Function.update gs t g u).smo.held = (gs u).smo.held :=
    (Function.forall_update_iff gs (p := fun u l => l.smo.held = (gs u).smo.held)).2 ⟨held, fun _ _ => rfl⟩
  have sameView : ∀ u, (Function.update gs t g u).view = (gs u).view :=
    (Function.forall_update_iff gs (p := fun u l => l.view = (gs u).view)).2 ⟨view, fun _ _ => rfl⟩
  have sameFresh : ∀ u, (Function.update gs t g u).smo.fresh = (gs u).smo.fresh :=
    (Function.forall_update_iff gs (p := fun u l => l.smo.fresh = (gs u).smo.fresh)).2 ⟨fresh, fun _ _ => rfl⟩
  have same : SameTree gs (Function.update gs t g) (m.setNode a n') (m.setNode a n') := .update fresh pending rfl rfl
  have known : ∀ {b l}, Known (Function.update gs t g) (m.setNode a n') b l ↔ Known gs m b l :=
    same.known.trans (known_setNode born level)
  have isBorn : ∀ {b x}, Born (Function.update gs t g) (m.setNode a n') b x ↔ b = a ∧ x = n' ∨ b ≠ a ∧ Born gs m b x :=
    fun {b x} => (same.born b x).trans (born_setNode born)
  have levels := inv.levels.setNode born level sound
  have otherSlots : ∀ u b, b ≠ a → b ∈ (gs u).smo.held → (Function.update gs t g u).smo.slots = (gs u).smo.slots := by
    intro u b away own
    by_cases mine : u = t
    · subst mine
      rw [Function.update_self]
      rcases slots with eq | ⟨only, -⟩
      · exact eq
      · rw [only, List.mem_singleton] at own
        exact absurd own away
    · rw [Function.update_of_ne mine]
  refine ⟨levels.of_sameTree same levels.issued ?_ ?_ levels.queue, ?_, ?_, ⟨?_, ?_, ?_⟩, ⟨?_, ?_, ?_, ?_⟩, ?_⟩
  · simpa only [sameFresh] using levels.fresh
  · simpa only [sameFresh] using levels.freshOwner
  · constructor <;> simp only [sameHeld, known]
    · exact inv.chains.chain
    · exact inv.chains.owner
  · constructor <;> simp only [sameHeld, isBorn]
    · rintro b x u (⟨rfl, rfl⟩ | ⟨-, old⟩) own
      · rw [lock]
        exact inv.words.taken b n u born own
      · exact inv.words.taken b x u old own
    · rintro b x (⟨rfl, rfl⟩ | ⟨-, old⟩) none
      · rw [lock]
        exact inv.words.free b n born none
      · exact inv.words.free b x old none
  · simp only [sameHeld, isBorn]
    rintro b leaf u (⟨rfl, is⟩ | ⟨away, old⟩) own i bound
    · exact (bits leaf is.symm i bound).1 u own
    · rw [otherSlots u b away own]
      exact inv.bits.taken b leaf u old own i bound
  · simp only [sameHeld, isBorn]
    rintro b leaf (⟨rfl, is⟩ | ⟨away, old⟩) none i bound
    · exact (bits leaf is.symm i bound).2 none
    · exact inv.bits.free b leaf old none i bound
  · simp only [sameHeld]
    intro u none
    by_cases mine : u = t
    · subst mine
      rw [Function.update_self]
      rcases slots with eq | ⟨only, -⟩
      · rw [eq]
        exact inv.bits.none u none
      · simp [only] at none
    · rw [Function.update_of_ne mine]
      exact inv.bits.none u none
  · simp only [sameHeld, same.pending]
    intro u b l key own
    refine ⟨?_, (inv.notes.pending u b l key own).2⟩
    by_cases mine : u = t
    · subst mine
      rw [Function.update_self]
      rcases slots with eq | ⟨-, none⟩
      · rw [eq]
        exact (inv.notes.pending u b l key own).1
      · simp [none] at own
    · rw [Function.update_of_ne mine]
      exact (inv.notes.pending u b l key own).1
  · simp only [sameHeld, isBorn]
    intro u x own
    obtain ⟨old, away⟩ := node u x own
    obtain ⟨b, head, there⟩ := inv.notes.node u x old
    refine ⟨b, head, Or.inr ⟨?_, there⟩⟩
    rintro rfl
    exact away head
  · refine (Function.forall_update_iff gs (p := fun _ l => ∀ snap, l.smo.kept = some snap →
      ∀ i < cfg.branchFactor, l.smo.slots i = true)).2 ⟨keptSlots, fun u _ => inv.notes.keptSlots u⟩
  · simp only [sameHeld, isBorn]
    intro u snap own
    obtain ⟨old, changed⟩ := kept u snap own
    obtain ⟨b, leaf, only, there, header, blocks⟩ := inv.notes.kept u snap old
    by_cases mine : b = a
    · subst mine
      obtain ⟨leaf', is, header', blocks'⟩ := changed only
      exact ⟨b, leaf', only, Or.inl ⟨rfl, is.symm⟩, header', blocks'⟩
    · exact ⟨b, leaf, only, Or.inr ⟨mine, there⟩, header, blocks⟩
  · constructor <;> simp only [sameView, sameHeld, known]
    · exact inv.views.target
    · exact inv.views.atTop
    · exact inv.views.waiting

theorem sound_setLock {n : Node Key} {lock : BitVec 64} : Sound gs m (n.setLock lock) ↔ Sound gs m n := by
  cases n <;> rfl

theorem setLock_eq_leaf {n : Node Key} {lock : BitVec 64} {leaf : LeafNode Key} (eq : n.setLock lock = .leaf leaf) :
    ∃ old, n = .leaf old ∧ leaf.kvBlocks = old.kvBlocks := by
  cases n with
  | leaf old =>
    cases eq
    exact ⟨old, rfl, rfl⟩
  | internal node => cases eq

theorem Discipline.relock {a : GlobalAddress} {n : Node Key} {lock : BitVec 64} (inv : Discipline gs m cfg)
    (born : Born gs m a n) (fresh : g.smo.fresh = (gs t).smo.fresh) (pending : g.smo.pending = (gs t).smo.pending)
    (slots : g.smo.slots = (gs t).smo.slots) (node : g.smo.node = none) (kept : g.smo.kept = none)
    (target : g.view.target = (gs t).view.target) (waiting : g.view.waiting = none) (atTop : g.view.atTop = false)
    (others : ∀ u ≠ t, a ∉ (gs u).smo.held) (elsewhere : ∀ b ≠ a, (b ∈ g.smo.held ↔ b ∈ (gs t).smo.held))
    (chain : ∀ above b rest, g.smo.held = above ++ b :: rest → Known gs m b rest.length)
    (word : lock = 1 ∧ a ∈ g.smo.held ∨ lock = 0 ∧ a ∉ g.smo.held) (clear : ∀ i, (gs t).smo.slots i = false)
    (length : ∀ c level key, (gs t).smo.pending = some (c, level, key) →
      g.smo.held.length = level + 1 ∨ g.smo.held.length = level + 2) :
    Discipline (Function.update gs t g) (m.setNode a (n.setLock lock)) cfg := by
  -- a thread takes or gives back one lock
  have sameFresh : ∀ u, (Function.update gs t g u).smo.fresh = (gs u).smo.fresh :=
    (Function.forall_update_iff gs (p := fun u l => l.smo.fresh = (gs u).smo.fresh)).2 ⟨fresh, fun _ _ => rfl⟩
  have sameSlots : ∀ u, (Function.update gs t g u).smo.slots = (gs u).smo.slots :=
    (Function.forall_update_iff gs (p := fun u l => l.smo.slots = (gs u).smo.slots)).2 ⟨slots, fun _ _ => rfl⟩
  have same : SameTree gs (Function.update gs t g) (m.setNode a (n.setLock lock)) (m.setNode a (n.setLock lock)) :=
    .update fresh pending rfl rfl
  have level : (n.setLock lock).header.level = n.header.level := by simp
  have known : ∀ {b l}, Known (Function.update gs t g) (m.setNode a (n.setLock lock)) b l ↔ Known gs m b l :=
    same.known.trans (known_setNode born level)
  have isBorn : ∀ {b x}, Born (Function.update gs t g) (m.setNode a (n.setLock lock)) b x ↔
      b = a ∧ x = n.setLock lock ∨ b ≠ a ∧ Born gs m b x :=
    fun {b x} => (same.born b x).trans (born_setNode born)
  have levels := inv.levels.setNode born level (sound_setLock.2 (inv.levels.sound a n born))
  have holds : ∀ u b, b ≠ a → (b ∈ (Function.update gs t g u).smo.held ↔ b ∈ (gs u).smo.held) := by
    intro u b away
    by_cases mine : u = t
    · subst mine
      rw [Function.update_self]
      exact elsewhere b away
    · rw [Function.update_of_ne mine]
  have holder : ∀ u, a ∈ (Function.update gs t g u).smo.held → u = t := by
    intro u own
    by_contra mine
    rw [Function.update_of_ne mine] at own
    exact others u mine own
  -- the bits of the leaf itself are clear before and after
  have bits : ∀ leaf, n = .leaf leaf → ∀ i < cfg.branchFactor, (leaf.kvBlocks i).isLocked = false := by
    rintro leaf rfl i bound
    by_cases own : a ∈ (gs t).smo.held
    · rw [inv.bits.taken a leaf t born own i bound]
      exact clear i
    · refine inv.bits.free a leaf born (fun u => ?_) i bound
      by_cases mine : u = t
      · exact mine ▸ own
      · exact others u mine
  refine ⟨levels.of_sameTree same levels.issued ?_ ?_ levels.queue, ⟨?_, ?_⟩, ⟨?_, ?_⟩, ⟨?_, ?_, ?_⟩, ⟨?_, ?_, ?_, ?_⟩,
    ⟨?_, ?_, ?_⟩⟩
  · simpa only [sameFresh] using levels.fresh
  · simpa only [sameFresh] using levels.freshOwner
  · simp only [known]
    exact (Function.forall_update_iff gs (p := fun _ l => ∀ above b rest, l.smo.held = above ++ b :: rest →
      Known gs m b rest.length)).2 ⟨chain, fun u _ => inv.chains.chain u⟩
  · intro u v b one two
    by_cases away : b = a
    · subst away
      rw [holder u one, holder v two]
    · exact inv.chains.owner u v b ((holds u b away).1 one) ((holds v b away).1 two)
  · simp only [isBorn]
    rintro b x u (⟨rfl, rfl⟩ | ⟨away, old⟩) own
    · have mine := holder u own
      subst mine
      rw [Function.update_self] at own
      rcases word with ⟨is, -⟩ | ⟨-, not⟩
      · simp [is]
      · exact absurd own not
    · exact inv.words.taken b x u old ((holds u b away).1 own)
  · simp only [isBorn]
    rintro b x (⟨rfl, rfl⟩ | ⟨away, old⟩) none
    · have mine := none t
      rw [Function.update_self] at mine
      rcases word with ⟨-, own⟩ | ⟨is, -⟩
      · exact absurd own mine
      · simp [is]
    · exact inv.words.free b x old (fun u own => none u ((holds u b away).2 own))
  · simp only [isBorn, sameSlots]
    rintro b leaf u (⟨rfl, is⟩ | ⟨away, old⟩) own i bound
    · obtain ⟨before, was, blocks⟩ := setLock_eq_leaf is.symm
      rw [blocks, bits before was i bound, holder u own, clear]
    · exact inv.bits.taken b leaf u old ((holds u b away).1 own) i bound
  · simp only [isBorn]
    rintro b leaf (⟨rfl, is⟩ | ⟨away, old⟩) none i bound
    · obtain ⟨before, was, blocks⟩ := setLock_eq_leaf is.symm
      rw [blocks, bits before was i bound]
    · exact inv.bits.free b leaf old (fun u own => none u ((holds u b away).2 own)) i bound
  · simp only [sameSlots]
    exact (Function.forall_update_iff gs (p := fun u l => l.smo.held = [] → ∀ i, (gs u).smo.slots i = false)).2
      ⟨fun _ => clear, fun u _ => inv.bits.none u⟩
  · simp only [sameSlots, same.pending]
    exact (Function.forall_update_iff gs (p := fun u l => ∀ b l' k, (gs u).smo.pending = some (b, l', k) →
      (∀ i, (gs u).smo.slots i = false) ∧ (l.smo.held.length = l' + 1 ∨ l.smo.held.length = l' + 2))).2
      ⟨fun b l' k own => ⟨clear, length b l' k own⟩, fun u _ => inv.notes.pending u⟩
  · simp only [isBorn]
    refine (Function.forall_update_iff gs (p := fun _ l => ∀ x, l.smo.node = some x → ∃ b, l.smo.held.head? = some b ∧
      (b = a ∧ Node.internal x = n.setLock lock ∨ b ≠ a ∧ Born gs m b (.internal x)))).2
      ⟨by simp [node], fun u other x own => ?_⟩
    obtain ⟨b, head, there⟩ := inv.notes.node u x own
    refine ⟨b, head, Or.inr ⟨?_, there⟩⟩
    rintro rfl
    exact others u other (List.mem_of_mem_head? head)
  · simp only [sameSlots]
    exact (Function.forall_update_iff gs (p := fun u l => ∀ snap, l.smo.kept = some snap →
      ∀ i < cfg.branchFactor, (gs u).smo.slots i = true)).2 ⟨by simp [kept], fun u _ => inv.notes.keptSlots u⟩
  · simp only [isBorn]
    refine (Function.forall_update_iff gs (p := fun _ l => ∀ snap, l.smo.kept = some snap → ∃ b leaf,
      l.smo.held = [b] ∧ (b = a ∧ Node.leaf leaf = n.setLock lock ∨ b ≠ a ∧ Born gs m b (.leaf leaf)) ∧
        leaf.header = snap.header ∧ ∀ i, leaf.kvBlocks i = snap.kvBlocks i ∨
          (leaf.kvBlocks i).isFree = true ∧ (snap.kvBlocks i).isFree = false)).2
      ⟨by simp [kept], fun u other snap own => ?_⟩
    obtain ⟨b, leaf, only, there, rest⟩ := inv.notes.kept u snap own
    refine ⟨b, leaf, only, Or.inr ⟨?_, there⟩, rest⟩
    rintro rfl
    exact others u other (by simp [only])
  · simp only [known]
    exact (Function.forall_update_iff gs (p := fun _ l => ∀ b level, l.view.target = some (b, level) →
      Known gs m b level)).2 ⟨target ▸ inv.views.target t, fun u _ => inv.views.target u⟩
  · exact (Function.forall_update_iff gs (p := fun _ l => l.view.atTop = true →
      l.smo.held.head? = some m.rootOffset)).2 ⟨by simp [atTop], fun u _ => inv.views.atTop u⟩
  · simp only [known]
    exact (Function.forall_update_iff gs (p := fun _ l => ∀ b, l.view.waiting = some b →
      ∃ level, Known gs m b level ∧ l.smo.held.length ≤ level)).2
      ⟨by simp [waiting], fun u _ => inv.views.waiting u⟩

end

end Faunus
