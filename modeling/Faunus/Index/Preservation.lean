import Faunus.Index.Discipline
import Faunus.Index.Separators

/-! Every permitted operation keeps the lock discipline. -/

set_option autoImplicit false

namespace Faunus

open Interleaving

variable {Key Value : Type} {cfg : Config} {gs : Thread → Local Key Value} {m : Memory Key Value} {t : Thread}

/-! ## Slots -/

theorem Discipline.born_of_target {a : GlobalAddress} {level : ℕ} {n : Node Key} (inv : Discipline gs m cfg)
    (target : (gs t).view.target = some (a, level)) (there : m.nodes a = some n) :
    Born gs m a n ∧ n.header.level = level := by
  obtain ⟨⟨n', born, eq⟩, -⟩ := inv.views.target t a level target
  obtain rfl : n' = n := Option.some.inj (born.1.symm.trans there)
  exact ⟨born, eq⟩

theorem Discipline.born_of_held {a : GlobalAddress} {n : Node Key} (inv : Discipline gs m cfg)
    (held : a ∈ (gs t).smo.held) (there : m.nodes a = some n) : Born gs m a n := by
  obtain ⟨l, ⟨n', born, -⟩, -⟩ := inv.chains.known held
  obtain rfl : n' = n := Option.some.inj (born.1.symm.trans there)
  exact born

theorem Discipline.node_not_leaf {a : GlobalAddress} {leaf : LeafNode Key} {u : Thread} {x : InternalNode Key}
    (inv : Discipline gs m cfg) (born : Born gs m a (.leaf leaf)) (own : (gs u).smo.node = some x) :
    (gs u).smo.held.head? ≠ some a := by
  intro head
  obtain ⟨b, head', there⟩ := inv.notes.node u x own
  obtain rfl : a = b := Option.some.inj (head.symm.trans head')
  cases born_unique born there

theorem Discipline.exchange {a : GlobalAddress} {leaf : LeafNode Key} {i : ℕ} {b : KVBlock} {g : Local Key Value}
    (inv : Discipline gs m cfg) (born : Born gs m a (.leaf leaf)) (smo : g.smo = (gs t).smo) (view : g.view = (gs t).view)
    (lock : b.isLocked = (leaf.kvBlocks i).isLocked) (bound : i < cfg.branchFactor)
    (freed : (leaf.kvBlocks i).isLocked = true → b.isFree = true ∧ (leaf.kvBlocks i).isFree = false) :
    Discipline (Function.update gs t g) (m.setNode a (.leaf (leaf.setBlock i b))) cfg := by
  -- a block is exchanged for one with the same lock bit; a locked one only to free it
  have own : ∀ u, (Function.update gs t g u).smo = (gs u).smo :=
    (Function.forall_update_iff gs (p := fun u l => l.smo = (gs u).smo)).2 ⟨smo, fun _ _ => rfl⟩
  have same : ∀ j, ((leaf.setBlock i b).kvBlocks j).isLocked = (leaf.kvBlocks j).isLocked := by
    intro j
    by_cases here : j = i
    · subst here
      simp [LeafNode.setBlock, lock]
    · simp [LeafNode.setBlock, Function.update_of_ne here]
  have sound : leaf.header.level = 0 := inv.levels.sound a _ born
  refine inv.rewrite born rfl rfl sound (by rw [smo]) (by rw [smo]) (by rw [smo]) view
    (Or.inl (by rw [smo])) ?_ ?_ ?_ ?_
  · rintro _ ⟨⟩ j small
    simp only [own, same]
    exact ⟨fun u held => inv.bits.taken a leaf u born held j small, fun none => inv.bits.free a leaf born none j small⟩
  · simp only [own]
    exact fun u x noted => ⟨noted, inv.node_not_leaf born noted⟩
  · rw [smo]
    exact inv.notes.keptSlots t
  · simp only [own]
    intro u snap noted
    refine ⟨noted, fun only => ⟨_, rfl, ?_⟩⟩
    obtain ⟨b', leaf', only', there, header, blocks⟩ := inv.notes.kept u snap noted
    obtain rfl : a = b' := List.singleton_inj.1 (only.symm.trans only')
    obtain rfl := Node.leaf.inj (born_unique born there)
    refine ⟨header, fun j => ?_⟩
    by_cases here : j = i
    · subst here
      -- the slot is locked, so the exchange frees it
      have locked : (leaf.kvBlocks j).isLocked = true := by
        rw [inv.bits.taken a leaf u born (by simp [only]) j bound]
        exact inv.notes.keptSlots u snap noted j bound
      obtain ⟨now, before⟩ := freed locked
      refine Or.inr ⟨by simpa [LeafNode.setBlock] using now, ?_⟩
      rcases blocks j with eq | ⟨free, -⟩
      · rw [← eq]
        exact before
      · simp [before] at free
    · simpa [LeafNode.setBlock, Function.update_of_ne here] using blocks j

theorem Discipline.rewriteLeaf {a : GlobalAddress} {leaf leaf' : LeafNode Key} {g : Local Key Value}
    (inv : Discipline gs m cfg) (there : m.nodes a = some (.leaf leaf)) (only : (gs t).smo.held = [a])
    (pending : (gs t).smo.pending = none) (level : leaf'.header.level = leaf.header.level)
    (lock : leaf'.header.lock = leaf.header.lock) (held : g.smo.held = (gs t).smo.held)
    (fresh : g.smo.fresh = (gs t).smo.fresh) (plan : g.smo.pending = (gs t).smo.pending) (view : g.view = (gs t).view)
    (node : g.smo.node = (gs t).smo.node) (kept : g.smo.kept = none)
    (bits : ∀ i < cfg.branchFactor, (leaf'.kvBlocks i).isLocked = g.smo.slots i) :
    Discipline (Function.update gs t g) (m.setNode a (.leaf leaf')) cfg := by
  -- the splitting thread rewrites its leaf, with its slots locked as it says
  have own : a ∈ (gs t).smo.held := by simp [only]
  have born := inv.born_of_held own there
  have sound : leaf.header.level = 0 := inv.levels.sound a _ born
  have alone : ∀ u, a ∈ (gs u).smo.held → u = t := fun u theirs => inv.chains.owner u t a theirs own
  refine inv.rewrite born level lock (by rw [Sound, level]; exact sound) held fresh plan view (Or.inr ⟨only, pending⟩) ?_ ?_
    (by simp [kept]) ?_
  · rintro _ ⟨⟩ i bound
    refine ⟨fun u theirs => ?_, fun none => absurd own (none t)⟩
    rw [alone u theirs, Function.update_self]
    exact bits i bound
  · refine (Function.forall_update_iff gs (p := fun u l => ∀ x, l.smo.node = some x →
      (gs u).smo.node = some x ∧ (gs u).smo.held.head? ≠ some a)).2 ⟨fun x noted => ?_, fun u _ x noted => ?_⟩
    · rw [node] at noted
      exact ⟨noted, inv.node_not_leaf born noted⟩
    · exact ⟨noted, inv.node_not_leaf born noted⟩
  · refine (Function.forall_update_iff gs (p := fun u l => ∀ snap, l.smo.kept = some snap →
      (gs u).smo.kept = some snap ∧ ((gs u).smo.held = [a] → ∃ x, Node.leaf leaf' = .leaf x ∧ x.header = snap.header ∧
        ∀ i, x.kvBlocks i = snap.kvBlocks i ∨ (x.kvBlocks i).isFree = true ∧ (snap.kvBlocks i).isFree = false))).2
      ⟨by simp [kept], fun u other snap noted => ⟨noted, fun theirs => ?_⟩⟩
    exact absurd (alone u (by simp [theirs])) other

theorem Discipline.slotLock {a : GlobalAddress} {leaf : LeafNode Key} {i : ℕ} (inv : Discipline gs m cfg)
    (there : m.nodes a = some (.leaf leaf)) (only : (gs t).smo.held = [a]) (unlocked : (gs t).smo.slots i = false)
    (bound : i < cfg.branchFactor) (kept : (gs t).smo.kept = none) (pending : (gs t).smo.pending = none) :
    Discipline (Function.update gs t
      { gs t with smo := { (gs t).smo with slots := Function.update (gs t).smo.slots i true } })
      (m.setNode a (.leaf (leaf.setBlock i ((leaf.kvBlocks i).add 1)))) cfg := by
  have own : a ∈ (gs t).smo.held := by simp [only]
  have bits := inv.bits.taken a leaf t (inv.born_of_held own there) own
  refine inv.rewriteLeaf there only pending rfl rfl rfl rfl rfl rfl rfl kept fun j small => ?_
  by_cases here : j = i
  · subst here
    have before : (leaf.kvBlocks j).isLocked = false := (bits j small).trans unlocked
    simp only [LeafNode.setBlock, Function.update_self, KVBlock.add_one before, KVBlock.isLocked_setLocked]
  · simp [LeafNode.setBlock, here, bits j small]

theorem Discipline.slotUnlock {a : GlobalAddress} {leaf : LeafNode Key} {i : ℕ} (inv : Discipline gs m cfg)
    (there : m.nodes a = some (.leaf leaf)) (only : (gs t).smo.held = [a]) (locked : (gs t).smo.slots i = true)
    (bound : i < cfg.branchFactor) (pending : (gs t).smo.pending = none) :
    Discipline (Function.update gs t
      { gs t with smo := { (gs t).smo with slots := Function.update (gs t).smo.slots i false, kept := none, keyed := [] } })
      (m.setNode a (.leaf (leaf.setBlock i ((leaf.kvBlocks i).add (-1))))) cfg := by
  have own : a ∈ (gs t).smo.held := by simp [only]
  have bits := inv.bits.taken a leaf t (inv.born_of_held own there) own
  refine inv.rewriteLeaf there only pending rfl rfl rfl rfl rfl rfl rfl rfl fun j small => ?_
  by_cases here : j = i
  · subst here
    have before : (leaf.kvBlocks j).isLocked = true := (bits j small).trans locked
    simp only [LeafNode.setBlock, Function.update_self, KVBlock.add_minus_one before, KVBlock.isLocked_setLocked]
  · simp [LeafNode.setBlock, here, bits j small]

/-! ## Internal nodes -/

theorem Discipline.rewriteNode {a : GlobalAddress} {n n' : InternalNode Key} {rest : List GlobalAddress}
    {g : Local Key Value} (inv : Discipline gs m cfg) (noted : (gs t).smo.node = some n) (own : (gs t).smo.held = a :: rest)
    (level : n'.header.level = n.header.level) (lock : n'.header.lock = n.header.lock) (sound : Sound gs m (.internal n'))
    (held : g.smo.held = (gs t).smo.held) (fresh : g.smo.fresh = (gs t).smo.fresh)
    (plan : g.smo.pending = (gs t).smo.pending) (view : g.view = (gs t).view) (slots : g.smo.slots = (gs t).smo.slots)
    (node : g.smo.node = none) (kept : g.smo.kept = (gs t).smo.kept) :
    Discipline (Function.update gs t g) (m.setNode a (.internal n')) cfg := by
  -- the holder of an internal node rewrites it, with linked children below it
  obtain ⟨b, head, born⟩ := inv.notes.node t n noted
  obtain rfl : a = b := by simpa [own] using head
  have mine : a ∈ (gs t).smo.held := by simp [own]
  have alone : ∀ u, a ∈ (gs u).smo.held → u = t := fun u theirs => inv.chains.owner u t a theirs mine
  refine inv.rewrite born level lock sound held fresh plan view (Or.inl slots) (by rintro leaf ⟨⟩) ?_ ?_ ?_
  · refine (Function.forall_update_iff gs (p := fun u l => ∀ x, l.smo.node = some x →
      (gs u).smo.node = some x ∧ (gs u).smo.held.head? ≠ some a)).2 ⟨by simp [node], fun u other x theirs => ⟨theirs, ?_⟩⟩
    exact fun head => other (alone u (List.mem_of_mem_head? head))
  · rw [slots, kept]
    exact inv.notes.keptSlots t
  · have notLeaf : ∀ u snap, (gs u).smo.kept = some snap → (gs u).smo.held ≠ [a] := by
      intro u snap theirs only
      obtain ⟨b, leaf, only', there, -⟩ := inv.notes.kept u snap theirs
      obtain rfl : a = b := List.singleton_inj.1 (only.symm.trans only')
      cases born_unique born there
    refine (Function.forall_update_iff gs (p := fun u l => ∀ snap, l.smo.kept = some snap →
      (gs u).smo.kept = some snap ∧ ((gs u).smo.held = [a] → ∃ x, Node.internal n' = .leaf x ∧ x.header = snap.header ∧
        ∀ i, x.kvBlocks i = snap.kvBlocks i ∨ (x.kvBlocks i).isFree = true ∧ (snap.kvBlocks i).isFree = false))).2
      ⟨fun snap theirs => ?_, fun u _ snap theirs => ⟨theirs, fun only => absurd only (notLeaf u snap theirs)⟩⟩
    rw [kept] at theirs
    exact ⟨theirs, fun only => absurd only (notLeaf t snap theirs)⟩

theorem Discipline.settleBelow {a c : GlobalAddress} {n : InternalNode Key} {rest : List GlobalAddress} {level : ℕ} {key : Key}
    (inv : Discipline gs m cfg) (noted : (gs t).smo.node = some n) (own : (gs t).smo.held = a :: rest)
    (pending : (gs t).smo.pending = some (c, level, key)) (length : rest.length = level + 1) :
    n.header.level = level + 1 ∧
      Discipline (Function.update gs t { gs t with smo := { (gs t).smo with pending := none } }) m cfg ∧
      ∀ b, b = c ∨ (∃ j ≤ n.header.lastIndex, b = (n.entries j).child) →
        Known (Function.update gs t { gs t with smo := { (gs t).smo with pending := none } }) m b level := by
  -- linking the pending node below the noted one leaves a sound node to write
  have above : Known gs m a (level + 1) := length ▸ inv.chains.chain t [] a rest own
  obtain ⟨after, child⟩ := inv.settle pending above
  set g : Local Key Value := { gs t with smo := { (gs t).smo with pending := none } }
  have noted' : (Function.update gs t g t).smo.node = some n := by
    rw [Function.update_self]
    exact noted
  obtain ⟨b, head, born⟩ := after.notes.node t n noted'
  obtain rfl : a = b := by simpa [g, own] using head
  obtain ⟨b', head', old⟩ := inv.notes.node t n noted
  obtain rfl : a = b' := by simpa [own] using head'
  have leveled : n.header.level = level + 1 := hasLevel_unique ⟨_, old, rfl⟩ above.1
  obtain ⟨below, eq, children⟩ := after.levels.sound a _ born
  obtain rfl : below = level := by omega
  refine ⟨leveled, after, ?_⟩
  rintro b (rfl | ⟨j, bound, rfl⟩)
  · exact child
  · exact children j bound

theorem known_rewrite {a b : GlobalAddress} {n n' : Node Key} {l : ℕ} {g : Local Key Value} (born : Born gs m a n)
    (level : n'.header.level = n.header.level) (fresh : g.smo.fresh = (gs t).smo.fresh)
    (pending : g.smo.pending = (gs t).smo.pending) :
    Known (Function.update gs t g) (m.setNode a n') b l ↔ Known gs m b l :=
  (SameTree.update fresh pending rfl rfl).known.trans (known_setNode born level)

theorem Distributes.left_unlocked {leaf left right : LeafNode Key} {entries : List (Key × KVBlock)} {middleKey : Key}
    (distributes : Distributes cfg leaf entries middleKey left right) {i : ℕ} (bound : i < cfg.branchFactor) :
    (left.kvBlocks i).isLocked = false := by
  by_cases low : i < entries.length / 2
  · have inside : i < entries.length := by omega
    rw [distributes.leftKept i low entries[i] (List.getElem?_eq_getElem inside), KVBlock.isLocked_setLocked]
  · exact (distributes.leftFree i (by omega) bound).2

theorem Distributes.right_unlocked {leaf left right : LeafNode Key} {entries : List (Key × KVBlock)} {middleKey : Key}
    (distributes : Distributes cfg leaf entries middleKey left right) {i : ℕ} (bound : i < cfg.branchFactor) :
    (right.kvBlocks i).isLocked = false := by
  by_cases low : i + entries.length / 2 < entries.length
  · rw [distributes.rightKept i low _ (List.getElem?_eq_getElem low), KVBlock.isLocked_setLocked]
  · exact (distributes.rightFree i (by omega) bound).2

theorem Discipline.splitLeaf {a new : GlobalAddress} {leaf left right : LeafNode Key} {entries : List (Key × KVBlock)}
    {middleKey : Key} (inv : Discipline gs m cfg) (only : (gs t).smo.held = [a]) (kept : (gs t).smo.kept = some leaf)
    (pending : (gs t).smo.pending = none) (distributes : Distributes cfg leaf entries middleKey left right)
    (fresh : (gs t).smo.fresh = some (new, some (.leaf right))) :
    Discipline (Function.update gs t { gs t with smo :=
      { (gs t).smo with
        slots := fun _ => false, kept := none, keyed := [], fresh := none, pending := some (new, 0, middleKey) } })
      (m.setNode a (.leaf left)) cfg := by
  obtain ⟨b, now, only', born, header, -⟩ := inv.notes.kept t leaf kept
  obtain rfl : a = b := List.singleton_inj.1 (only.symm.trans only')
  have bottom : now.header.level = 0 := inv.levels.sound a _ born
  have level : left.header.level = now.header.level := by rw [distributes.leftHeader, header]
  set g : Local Key Value := { gs t with smo := { (gs t).smo with slots := fun _ => false, kept := none, keyed := [] } }
  have step : Discipline (Function.update gs t g) (m.setNode a (.leaf left)) cfg := by
    refine inv.rewriteLeaf born.1 only pending level (by rw [distributes.leftHeader, header]) rfl rfl rfl rfl rfl rfl ?_
    exact fun i bound => distributes.left_unlocked bound
  have flat : (Node.leaf right).header.level = 0 := by
    simp [Node.header, distributes.rightHeader, Header.zero]
  have last : Discipline (Function.update (Function.update gs t g) t { Function.update gs t g t with smo :=
      { (Function.update gs t g t).smo with
        fresh := none, pending := some (new, (Node.leaf right).header.level, middleKey) } })
      (m.setNode a (.leaf left)) cfg := by
    refine step.publish (b := a) (by simpa [g] using fresh) (by simpa [g] using pending) ?_ ?_ ?_ ?_ (by simp [g]) ?_
    · exact flat
    · rw [flat]
      obtain ⟨l, linked⟩ := step.chains.known (t := t) (a := a) (by simp [g, only])
      have born' : Born (Function.update gs t g) (m.setNode a (.leaf left)) a (.leaf left) :=
        step.born_of_held (t := t) (by simp [g, only]) (by simp [Memory.setNode])
      exact ⟨_, born', level.trans bottom⟩
    · simp [Node.header, distributes.rightHeader, Header.zero]
    · rintro _ ⟨⟩ i bound
      exact distributes.right_unlocked bound
    · rw [flat]
      simp [g, only]
  simpa only [Function.update_idem, Function.update_self, g, flat] using last

/-! ## Giving locks back -/

section
variable {a c : GlobalAddress} {rest : List GlobalAddress} {level : ℕ} {key : Key}

theorem Discipline.not_mem_rest (inv : Discipline gs m cfg) (held : (gs t).smo.held = a :: rest) : a ∉ rest := by
  intro again
  obtain ⟨above, below, eq⟩ := List.append_of_mem again
  have high := inv.chains.chain t [] a rest held
  have low := inv.chains.chain t (a :: above) a below (by rw [held, eq, List.cons_append])
  have same := hasLevel_unique high.1 low.1
  rw [eq] at same
  simp at same
  omega

theorem Discipline.release {n : Node Key} (inv : Discipline gs m cfg) (there : m.nodes a = some n)
    (held : (gs t).smo.held = a :: rest) (clear : ∀ i, (gs t).smo.slots i = false)
    (length : ∀ c level key, (gs t).smo.pending = some (c, level, key) → rest.length = level + 1) :
    Discipline (Function.update gs t
      { gs t with
        smo := { (gs t).smo with held := rest, node := none, kept := none, keyed := [] }
        view := { (gs t).view with waiting := none, atTop := false } })
      (m.setNode a (n.setLock (n.header.lock + -1))) cfg := by
  have mine : a ∈ (gs t).smo.held := by simp [held]
  have born := inv.born_of_held mine there
  have locked := inv.words.taken a n t born mine
  refine inv.relock born rfl rfl rfl rfl rfl rfl rfl rfl ?_ ?_ ?_ (Or.inr ⟨?_, inv.not_mem_rest held⟩) clear ?_
  · exact fun u other theirs => other (inv.chains.owner u t a theirs mine)
  · intro b away
    simp [held, away]
  · intro above b below eq
    exact inv.chains.chain t (a :: above) b below (by rw [held]; exact congrArg (a :: ·) eq)
  · rw [locked]
    decide
  · exact fun c level key pending => Or.inl (length c level key pending)

theorem Discipline.abandon {n : InternalNode Key} (inv : Discipline gs m cfg) (there : m.nodes a = some (.internal n))
    (held : (gs t).smo.held = a :: rest) (noted : (gs t).smo.node = some n)
    (pending : (gs t).smo.pending = some (c, level, key)) (length : rest.length = level + 1) :
    Discipline (Function.update gs t
      { gs t with
        smo := { (gs t).smo with held := rest, node := none, kept := none, keyed := [], pending := none }
        view := { (gs t).view with waiting := none, atTop := false } })
      (m.setNode a ((Node.internal n).setLock (n.header.lock + -1))) cfg := by
  have clear := (inv.notes.pending t c level key pending).1
  obtain ⟨-, after, -⟩ := inv.settleBelow noted held pending length
  set g : Local Key Value := { gs t with smo := { (gs t).smo with pending := none } }
  have step := after.release (t := t) there (by simpa [g] using held) (by simpa [g] using clear) (by simp [g])
  simpa only [Function.update_idem, Function.update_self, g, Node.header] using step

end

variable [LinearOrder Key] [BoundedOrder Key]

theorem splitEntries_children {n : InternalNode Key} {key : Key} {c : GlobalAddress} {i : ℕ}
    (bound : i ≤ n.header.lastIndex + 1) :
    (n.splitEntries key c i).child = c ∨ ∃ j ≤ n.header.lastIndex, (n.splitEntries key c i).child = (n.entries j).child := by
  rcases insertSeparator_children n.grown n.header.lastIndex key c i bound with eq | ⟨j, small, eq⟩
  · exact Or.inl eq
  · refine Or.inr ⟨j, small, eq.trans ?_⟩
    rw [InternalNode.grown, if_pos small]

section
variable {a c new : GlobalAddress} {n : InternalNode Key} {rest : List GlobalAddress} {level : ℕ} {key : Key}

theorem Discipline.link (inv : Discipline gs m cfg) (own : (gs t).smo.held = a :: rest) (noted : (gs t).smo.node = some n)
    (pending : (gs t).smo.pending = some (c, level, key)) (length : rest.length = level + 1) :
    Discipline (Function.update gs t { gs t with smo := { (gs t).smo with node := none, pending := none } })
      (m.setNode a (.internal (n.withSeparator key c))) cfg := by
  obtain ⟨leveled, after, known⟩ := inv.settleBelow noted own pending length
  set g : Local Key Value := { gs t with smo := { (gs t).smo with pending := none } }
  have step : Discipline (Function.update (Function.update gs t g) t
      { gs t with smo := { (gs t).smo with node := none, pending := none } })
      (m.setNode a (.internal (n.withSeparator key c))) cfg := by
    refine after.rewriteNode (n := n) (by simpa [g] using noted) (by simpa [g] using own) rfl rfl ?_ (by simp [g]) (by simp [g])
      (by simp [g]) (by simp [g]) (by simp [g]) rfl (by simp [g])
    exact ⟨level, leveled, fun i bound => known _ (insertSeparator_children n.entries n.header.lastIndex key c i bound)⟩
  rwa [Function.update_idem] at step

theorem Discipline.splitNode (inv : Discipline gs m cfg) (own : (gs t).smo.held = a :: rest)
    (noted : (gs t).smo.node = some n) (pending : (gs t).smo.pending = some (c, level, key))
    (length : rest.length = level + 1) (full : n.header.lastIndex + 1 = cfg.branchFactor)
    (middle : splitMiddle cfg.branchFactor < cfg.branchFactor - 1)
    (fresh : (gs t).smo.fresh = some (new, some (.internal (n.splitRight cfg.branchFactor key c)))) :
    Discipline (Function.update gs t { gs t with smo :=
      { (gs t).smo with
        node := none, fresh := none, pending := some (new, level + 1, n.middleKey cfg.branchFactor key c) } })
      (m.setNode a (.internal (n.splitLeft cfg.branchFactor key c))) cfg := by
  have clear := (inv.notes.pending t c level key pending).1
  obtain ⟨leveled, after, known⟩ := inv.settleBelow noted own pending length
  set g : Local Key Value := { gs t with smo := { (gs t).smo with pending := none } }
  set g' : Local Key Value := { gs t with smo := { (gs t).smo with node := none, pending := none } }
  have step : Discipline (Function.update (Function.update gs t g) t g')
      (m.setNode a (.internal (n.splitLeft cfg.branchFactor key c))) cfg := by
    refine after.rewriteNode (n := n) (by simpa [g] using noted) (by simpa [g] using own) rfl rfl ?_ (by simp [g, g'])
      (by simp [g, g']) (by simp [g, g']) (by simp [g, g']) (by simp [g, g']) rfl (by simp [g, g'])
    refine ⟨level, leveled, fun i bound => known _ ?_⟩
    have inside : i ≤ splitMiddle cfg.branchFactor := bound
    simp only [InternalNode.splitLeft, if_pos inside]
    exact splitEntries_children (by omega)
  obtain ⟨b, head, born⟩ := after.notes.node t n (by simpa [g] using noted)
  obtain rfl : a = b := by simpa [g, own] using head
  have known' : ∀ b l, Known (Function.update (Function.update gs t g) t g')
      (m.setNode a (.internal (n.splitLeft cfg.branchFactor key c))) b l ↔ Known (Function.update gs t g) m b l :=
    fun b l => known_rewrite born rfl (by simp [g, g']) (by simp [g, g'])
  rw [Function.update_idem] at step known'
  have right : (Node.internal (n.splitRight cfg.branchFactor key c)).header.level = level + 1 := leveled
  have above : HasLevel (Function.update gs t g) m a (level + 1) := ⟨_, born, leveled⟩
  have linked : ¬ Pending (Function.update gs t g) a :=
    (after.chains.known (t := t) (a := a) (by simp [g, own])).elim fun _ is => is.2
  have last : Discipline (Function.update (Function.update gs t g') t { Function.update gs t g' t with smo :=
      { (Function.update gs t g' t).smo with
        fresh := none
        pending := some (new, (Node.internal (n.splitRight cfg.branchFactor key c)).header.level,
          n.middleKey cfg.branchFactor key c) } })
      (m.setNode a (.internal (n.splitLeft cfg.branchFactor key c))) cfg := by
    refine step.publish (b := a) (by simpa [g'] using fresh) (by simp [g']) ?_ ?_ rfl (by rintro leaf ⟨⟩)
      (by simpa [g'] using clear) ?_
    · refine ⟨level, leveled, fun i bound => (known' _ _).2 (known _ ?_)⟩
      have inside : i ≤ cfg.branchFactor - splitMiddle cfg.branchFactor - 1 := bound
      simp only [InternalNode.splitRight, if_pos (show i + splitMiddle cfg.branchFactor + 1 < cfg.branchFactor + 1 by omega)]
      exact splitEntries_children (by omega)
    · rw [right]
      exact ((known' a (level + 1)).2 ⟨above, linked⟩).1
    · rw [right]
      simp [g', own, length]
  simpa only [Function.update_idem, Function.update_self, g', right] using last

end

/-! ## Every permitted operation -/

omit [LinearOrder Key] [BoundedOrder Key] in
theorem waitsNext_readNode {site : Site} {a b : GlobalAddress} {n : Node Key} {waiting : Option GlobalAddress}
    (waits : waitsNext (⟨site, .readNode a⟩ : Op Key Value) n waiting = some b) :
    waiting = some b ∨ b = a ∧ ∃ level, site = .findNode level true ∧ n.header.lock ≠ 0 ∧ level < n.header.level := by
  cases site with
  | findNode level fromSmo =>
    cases fromSmo with
    | false => exact Or.inl waits
    | true =>
      simp only [waitsNext] at waits
      split at waits
      · rename_i blocked
        exact Or.inr ⟨(Option.some.inj waits).symm, level, rfl, blocked⟩
      · exact Or.inl waits
  | _ => exact Or.inl waits

omit [LinearOrder Key] [BoundedOrder Key] in
theorem waitsNext_casLock {site : Site} {a b : GlobalAddress} {found : BitVec 64} {waiting : Option GlobalAddress}
    (waits : waitsNext (⟨site, .casLock a 0 1⟩ : Op Key Value) found waiting = some b) : waiting = some b ∨ b = a := by
  cases site <;> simp only [waitsNext] at waits <;> split at waits <;> simp_all

theorem newRoot_children (key : Key) (left right : GlobalAddress) (level : ℕ) {i : ℕ}
    (bound : i ≤ (newRoot key left right level).header.lastIndex) :
    ((newRoot key left right level).entries i).child = left ∨ ((newRoot key left right level).entries i).child = right := by
  have small : i ≤ 1 := bound
  rcases Nat.le_one_iff_eq_zero_or_eq_one.1 small with rfl | rfl
  · exact Or.inl rfl
  · exact Or.inr rfl

variable [KeyBytes Key]

theorem Discipline.permits {o : Op Key Value} {r : o.act.Reply} {m' : Memory Key Value} {g : Local Key Value}
    (inv : Discipline gs m cfg) (permitted : Permits cfg t gs m o r m' g) :
    Discipline (Function.update gs t g) m' cfg := by
  cases permitted with
  | readRoot target atTop site =>
    exact inv.look rfl rfl rfl rfl inv.levels.queue target atTop (inv.views.waiting t)
  | readNode there target waits =>
    refine inv.look rfl rfl rfl rfl inv.levels.queue target (inv.views.atTop t) fun b waiting => ?_
    rcases @waitsNext_readNode Key Value _ _ _ _ _ waiting with old | ⟨rfl, level, site, locked, high⟩
    · exact inv.views.waiting t b old
    · exact waits level site locked high
  | dequeue queued =>
    refine inv.look rfl rfl rfl rfl (fun a later => inv.levels.queue a (List.mem_of_mem_erase later)) ?_
      (inv.views.atTop t) (inv.views.waiting t)
    rintro a level ⟨⟩
    exact inv.levels.queue _ queued
  | enqueue target =>
    refine inv.look rfl rfl rfl rfl (fun a later => ?_) (inv.views.target t) (inv.views.atTop t) (inv.views.waiting t)
    rcases List.mem_cons.1 later with rfl | old
    · exact inv.views.target t a 0 target
    · exact inv.levels.queue a old
  | randFingerprint => exact inv.stay rfl rfl rfl rfl rfl rfl
  | randAddr => exact inv.stay rfl rfl rfl rfl rfl rfl
  | threadHash => exact inv.stay rfl rfl rfl rfl rfl rfl
  | lockFailed there locked target =>
    refine inv.look rfl rfl rfl rfl inv.levels.queue (inv.views.target t) (inv.views.atTop t) fun b waiting => ?_
    rcases @waitsNext_casLock Key Value _ _ _ _ _ waiting with old | rfl
    · exact inv.views.waiting t b old
    · exact ⟨_, inv.views.target t b _ target, le_refl _⟩
  | @lockTaken site a n there unlocked target clear length =>
    have known := inv.views.target t a _ target
    have born := (inv.born_of_target target there).1
    have free : ∀ u, a ∉ (gs u).smo.held := by
      intro u held
      have := inv.words.taken a n u born held
      simp [unlocked] at this
    refine inv.relock born rfl rfl rfl rfl rfl rfl rfl rfl (fun u _ => free u) ?_ ?_ (Or.inl ⟨rfl, List.mem_cons_self⟩)
      clear ?_
    · exact fun b away => by simp [away]
    · intro above b rest eq
      cases above with
      | nil =>
        simp only [List.nil_append, List.cons.injEq] at eq
        rw [← eq.1, ← eq.2]
        exact known
      | cons c above =>
        simp only [List.cons_append, List.cons.injEq] at eq
        exact inv.chains.chain t above b rest eq.2
    · intro c level key pending
      exact Or.inr (by simpa using length c level key pending)
  | released there held clear length => exact inv.release there held clear length
  | abandoned there held noted pending length covers bound eq =>
    exact inv.abandon there held noted pending length
  | @readHeld level a n there head =>
    refine inv.note rfl rfl rfl rfl rfl ?_ (inv.notes.keptSlots t) (inv.notes.kept t)
    rintro _ ⟨⟩
    exact ⟨a, head, inv.born_of_held (List.mem_of_mem_head? head) there⟩
  | slotLocked there only unlocked bound kept pending => exact inv.slotLock there only unlocked bound kept pending
  | slotUnlocked there only locked bound pending => exact inv.slotUnlock there only locked bound pending
  | @readKept a leaf there only slots =>
    refine inv.note rfl rfl rfl rfl rfl (inv.notes.node t) (fun _ _ => slots) ?_
    rintro _ ⟨⟩
    exact ⟨a, leaf, only, inv.born_of_held (t := t) (by simp [only]) there, rfl, fun i => Or.inl rfl⟩
  | readKeptKey only kept taken =>
    exact inv.note rfl rfl rfl rfl rfl (inv.notes.node t) (inv.notes.keptSlots t) (inv.notes.kept t)
  | allocNode unused fresh site => exact inv.alloc unused fresh
  | writeFresh fresh site unlocked => exact inv.write fresh
  | leafSplit only kept pending keyed entries long middle distributes fresh =>
    exact inv.splitLeaf only kept pending distributes fresh
  | linked own noted pending length covers absent room => exact inv.link own noted pending length
  | nodeSplit own noted pending length covers absent full middle fresh =>
    exact inv.splitNode own noted pending length full middle fresh
  | @rootGrown a c new rest level key own atTop root pending length fresh =>
    exact inv.grow fresh pending own root length rfl rfl fun i bound => newRoot_children key a c (level + 1) bound
  | allocItem usable allocated =>
    obtain ⟨nodes, issued, root, queue⟩ := Memory.allocItem_frame allocated
    exact inv.stay rfl rfl nodes issued root queue
  | writeItem item => exact inv.stay rfl rfl rfl rfl rfl rfl
  | readLeaf site there target => exact inv.stay rfl rfl rfl rfl rfl rfl
  | lookItem seen bound taken => exact inv.stay rfl rfl rfl rfl rfl rfl
  | lookKey seen bound taken => exact inv.stay rfl rfl rfl rfl rfl rfl
  | slotMissed there differs => exact inv.stay rfl rfl rfl rfl rfl rfl
  | slotFilled there target same ready bound free missed =>
    have unlocked := ready.slots _ bound
    rw [← same] at unlocked
    exact inv.exchange (inv.born_of_target target there).1 rfl rfl (by simp [unlocked]) bound (by simp [unlocked])
  | slotUpdated there target ready taken live unlocked fp looked missed =>
    exact inv.exchange (inv.born_of_target target there).1 rfl rfl (by simp [unlocked]) taken.1 (by simp [unlocked])
  | slotDeleted there target same seen covers high low less one two free lock =>
    exact inv.exchange (inv.born_of_target target there).1 rfl rfl (by rw [lock, same]) high.1
      (fun _ => ⟨free, by rw [same]; exact high.2.1⟩)
  | freeReplaced freeing => exact inv.stay rfl rfl rfl rfl rfl rfl
  | freeDeleted seen bound taken pointer => exact inv.stay rfl rfl rfl rfl rfl rfl

end Faunus
