import Faunus.Index.LeafSplit
import Faunus.Index.Shelves

/-! Splits by the only client.

No lock is taken by anybody else, so every lock is free when it is asked for and every
descent arrives at once. A split climbs one level at a time with the locks below it held.
-/

set_option autoImplicit false

namespace Faunus

open Interleaving Tiling

variable {Key Value A : Type}

/-- Allocations may wait; the memory may be full. -/
def Op.Allocates (o : Op Key Value) : Prop := o.act = .allocNode ∨ o.act = .allocItem

/-- Total correctness of a client that runs alone. -/
abbrev Alone (cfg : Config) (t : Thread) (post : A → Memory Key Value → Prop) (p : Index Key Value A) (m : Memory Key Value) :
    Prop :=
  p.Total (Memory.exec cfg.usable) t (fun s s' => s' = s) Op.Allocates post m

theorem alone_run {cfg : Config} {t : Thread} {post : A → Memory Key Value → Prop} {p : Index Key Value A} {m m' : Memory Key Value}
    {choices : List (BitVec 64)} {a : A} (total : Alone cfg t post p m)
    (ran : p.run (Memory.exec cfg.usable) t choices m = some (a, m')) :
    post a m' := by
  refine total_run ?_ total ran
  exact fun _ => rfl

theorem alone_not_fails {cfg : Config} {t : Thread} {post : A → Memory Key Value → Prop} {p : Index Key Value A}
    {m : Memory Key Value}
    {choices : List (BitVec 64)} (total : Alone cfg t post p m) : p.fails (Memory.exec cfg.usable) t choices m = false := by
  refine total_not_fails ?_ total
  exact fun _ => rfl

section Verbs
variable {cfg : Config} {t : Thread} {site : Site} {m : Memory Key Value} {post : A → Memory Key Value → Prop} {a : GlobalAddress}

theorem alone_perform {o : Op Key Value} {next : o.act.Reply → Index Key Value A} {r : o.act.Reply} {m' : Memory Key Value}
    (performed : ∀ c, Memory.exec cfg.usable t o c m = some (r, m')) (later : Alone cfg t post (next r) m') :
    Alone cfg t post (.perform o next) m := by
  refine total_perform performed 0 ?_
  rintro _ rfl
  exact later

theorem alone_readRoot {f : GlobalAddress → Index Key Value A} (next : Alone cfg t post (f m.rootOffset) m) :
    Alone cfg t post (readRoot site >>= f) m :=
  alone_perform (fun _ => rfl) next

theorem alone_casRoot {f : GlobalAddress → Index Key Value A} {desired : GlobalAddress}
    (next : Alone cfg t post (f m.rootOffset) { m with rootOffset := desired }) :
    Alone cfg t post (casRoot site m.rootOffset desired >>= f) m :=
  alone_perform (fun _ => if_pos rfl) next

theorem alone_readNode {f : Node Key → Index Key Value A} {n : Node Key} (there : m.nodes a = some n)
    (next : Alone cfg t post (f n) m) :
    Alone cfg t post (readNode site a >>= f) m :=
  alone_perform (r := n) (fun _ => by simp only [Memory.exec, there]; rfl) next

theorem alone_writeNode {f : Unit → Index Key Value A} {n : Node Key} (next : Alone cfg t post (f ()) (m.setNode a n)) :
    Alone cfg t post (writeNode site a n >>= f) m :=
  alone_perform (fun _ => rfl) next

theorem alone_casLock {f : BitVec 64 → Index Key Value A} {n : Node Key} (there : m.nodes a = some n) (free : n.header.lock = 0)
    (next : Alone cfg t post (f 0) (m.setNode a (n.setLock 1))) : Alone cfg t post (casLock site a 0 1 >>= f) m := by
  refine alone_perform (o := ⟨site, .casLock a 0 1⟩) (r := (0 : BitVec 64)) (fun _ => ?_) next
  simp only [Memory.exec, there, free, if_true]
  rfl

theorem alone_faaLock {f : Unit → Index Key Value A} {n : Node Key} {increment : BitVec 64} (there : m.nodes a = some n)
    (next : Alone cfg t post (f ()) (m.setNode a (n.setLock (n.header.lock + increment)))) :
    Alone cfg t post (faaLock site a increment >>= f) m :=
  alone_perform (r := ()) (fun _ => by simp only [Memory.exec, there]; rfl) next

theorem alone_casBlock {f : KVBlock → Index Key Value A} {leaf : LeafNode Key} {i : ℕ} {desired : KVBlock}
    (there : m.nodes a = some (.leaf leaf))
    (next : Alone cfg t post (f (leaf.kvBlocks i)) (m.setNode a (.leaf (leaf.setBlock i desired)))) :
    Alone cfg t post (casBlock site a i (leaf.kvBlocks i) desired >>= f) m := by
  refine alone_perform (o := ⟨site, .casBlock a i (leaf.kvBlocks i) desired⟩) (r := leaf.kvBlocks i) (fun _ => ?_) next
  simp only [Memory.exec, there, if_true]
  rfl

theorem alone_faaBlock {f : Unit → Index Key Value A} {leaf : LeafNode Key} {i : ℕ} {increment : BitVec 64}
    (there : m.nodes a = some (.leaf leaf))
    (next : Alone cfg t post (f ()) (m.setNode a (.leaf (leaf.setBlock i ((leaf.kvBlocks i).add increment))))) :
    Alone cfg t post (faaBlock site a i increment >>= f) m :=
  alone_perform (r := ()) (fun _ => by simp only [Memory.exec, there]; rfl) next

theorem alone_readItem {f : KVItem Key Value → Index Key Value A} (next : Alone cfg t post (f (m.items a)) m) :
    Alone cfg t post (readItem site a >>= f) m :=
  alone_perform (fun _ => rfl) next

theorem alone_readKey {f : Key → Index Key Value A} (next : Alone cfg t post (f (m.items a).key) m) :
    Alone cfg t post (readKey site a >>= f) m :=
  alone_perform (fun _ => rfl) next

theorem alone_writeItem {f : Unit → Index Key Value A} {item : KVItem Key Value}
    (next : Alone cfg t post (f ()) (m.setItem a item)) :
    Alone cfg t post (writeItem site a item >>= f) m :=
  alone_perform (fun _ => rfl) next

theorem alone_freeItem {f : Unit → Index Key Value A} (next : Alone cfg t post (f ()) (m.freeItem t.server a)) :
    Alone cfg t post (freeItem site a >>= f) m :=
  alone_perform (fun _ => rfl) next

theorem alone_allocNode {f : GlobalAddress → Index Key Value A}
    (next : ∀ new, new ∉ m.nodesIssued → Alone cfg t post (f new) (m.issueNode new)) :
    Alone cfg t post (allocNode site >>= f) m := by
  refine ⟨.inr (.inl rfl), ?_⟩
  rintro c r m' performed _ rfl
  simp only [Memory.exec] at performed
  split_ifs at performed with used
  obtain ⟨rfl, rfl⟩ := Prod.mk.inj (Option.some.inj performed)
  exact next _ used

theorem alone_allocItem {f : GlobalAddress → Index Key Value A}
    (next : ∀ x m', cfg.usable x = true → m.allocItem t.server x = some m' → Alone cfg t post (f x) m') :
    Alone cfg t post (allocItem site >>= f) m := by
  refine ⟨.inr (.inr rfl), ?_⟩
  rintro c r m' performed _ rfl
  simp only [Memory.exec] at performed
  split_ifs at performed with usable
  split at performed
  · rename_i m₁ allocated
    obtain ⟨rfl, rfl⟩ := Prod.mk.inj (Option.some.inj performed)
    exact next _ _ usable allocated
  · cases performed

theorem alone_draw {o : Op Key Value} {f : o.act.Reply → Index Key Value A}
    (draws : ∃ c r, Memory.exec cfg.usable t o c m = some (r, m))
    (only : ∀ c r m', Memory.exec cfg.usable t o c m = some (r, m') → m' = m) (next : ∀ r, Alone cfg t post (f r) m) :
    Alone cfg t post (.perform o f) m := by
  obtain ⟨c, r, draws⟩ := draws
  refine ⟨.inl ⟨c, r, m, draws⟩, ?_⟩
  rintro c r m' performed _ rfl
  obtain rfl := only c r _ performed
  exact next r

theorem alone_threadHash {f : BitVec 64 → Index Key Value A} (next : ∀ hash, Alone cfg t post (f hash) m) :
    Alone cfg t post (threadHash site >>= f) m := by
  refine alone_draw (o := ⟨site, .threadHash⟩) ⟨0, (0 : BitVec 64), rfl⟩ ?_ next
  intro c r m' performed
  cases performed
  rfl

theorem alone_setDifferentRandomFpAddr {b : KVBlock} {f : KVBlock → Index Key Value A}
    (next : ∀ random, Alone cfg t post (f random) m) :
    Alone cfg t post (setDifferentRandomFpAddr site b >>= f) m := by
  refine alone_draw (o := ⟨site, .randFingerprint b.getFingerprint⟩) ?_ ?_ fun fp =>
    alone_draw (o := ⟨site, .randAddr (b.setFingerprint fp).getAddr⟩) ?_ ?_ fun addr => next _
  · obtain ⟨c, other⟩ := exists_fingerprint b.getFingerprint
    exact ⟨c, _, if_neg other⟩
  · intro c r m' drawn
    simp only [Memory.exec] at drawn
    split_ifs at drawn
    cases drawn
    rfl
  · obtain ⟨c, other⟩ := exists_address (b.setFingerprint fp).getAddr
    exact ⟨c, _, if_neg other⟩
  · intro c r m' drawn
    simp only [Memory.exec] at drawn
    split_ifs at drawn
    cases drawn
    rfl

end Verbs

/-! ## Descending -/

variable [LinearOrder Key] [BoundedOrder Key]

omit [LinearOrder Key] [BoundedOrder Key] in
def Memory.Open (m : Memory Key Value) (level : ℕ) : Prop := ∀ a n, m.nodes a = some n → level ≤ n.header.level → n.header.lock = 0

section
variable {cfg : Config} {t : Thread} {m : Memory Key Value} {pending : Set GlobalAddress} {top level : ℕ} {key : Key}
  {fromSmo : Bool} {post : A → Memory Key Value → Prop} {f : FindNodeResult × GlobalAddress → Index Key Value A}

theorem alone_findNodeLoop (standing : Standing cfg.branchFactor m pending top)
    (alone : ∀ b ∈ pending, ∀ x, m.nodes b = some x → x.header.level < level) (opened : m.Open level)
    (next : ∀ a n, m.nodes a = some n → n.header.level = level → n.header.covers key → Alone cfg t post (f (.found, a)) m)
    {bound : ℕ} {a : GlobalAddress} {n : Node Key} {inRoot : Bool} (there : m.nodes a = some n) (high : level ≤ n.header.level)
    (covers : n.header.covers key) (long : n.header.level - level < bound) :
    Alone cfg t post (findNodeLoop key level fromSmo bound a inRoot >>= f) m := by
  induction bound generalizing a n inRoot with
  | zero => omega
  | succ bound ih =>
    unfold findNodeLoop
    rw [bind_assoc]
    refine alone_readNode there ?_
    have unlocked : ¬ (n.header.lock ≠ 0 ∧ (fromSmo = false ∨ level < n.header.level)) := fun locked =>
      locked.1 (opened a n there high)
    rw [if_neg unlocked]
    by_cases here : n.header.level = level
    · rw [if_pos here]
      exact next a n there here covers
    have deeper : level < n.header.level := lt_of_le_of_ne high (Ne.symm here)
    rw [if_neg here, if_neg (not_lt.2 high)]
    obtain ⟨x, rfl⟩ := standing.internal_of_level there (by omega)
    have levels : (Node.internal x).header.level = x.header.level := rfl
    obtain ⟨y, child, down, covers'⟩ := standing.descend there covers fun b waits z found => by
      have := alone b waits z found
      omega
    have other : x.nextAddress key ≠ a := by
      intro same
      rw [same, there] at child
      obtain rfl := Option.some.inj child
      omega
    dsimp only [Node.asInternal]
    rw [if_neg other]
    by_cases last : (Node.internal x).header.level = level + 1
    · rw [if_pos last]
      exact next _ y child (by omega) covers'
    · rw [if_neg last]
      exact ih child (by omega) covers' (by omega)

theorem alone_findNode (standing : Standing cfg.branchFactor m pending top)
    (alone : ∀ b ∈ pending, ∀ x, m.nodes b = some x → x.header.level < level) (opened : m.Open level) (within : level ≤ top)
    (short : top < cfg.loopBound) (below : key < ⊤)
    (next : ∀ a n, m.nodes a = some n → n.header.level = level → n.header.covers key → Alone cfg t post (f (.found, a)) m) :
    Alone cfg t post (findNode cfg key level fromSmo >>= f) m := by
  obtain ⟨n, there, level, covers⟩ :=
    standing.root_covers (fun b waits x found => lt_of_lt_of_le (alone b waits x found) within) below
  rw [findNode, bind_assoc]
  exact alone_readRoot (alone_findNodeLoop standing alone opened next there (by omega) covers (by omega))

theorem alone_findNode_noSuchLevel (standing : Standing cfg.branchFactor m pending top) (some : 0 < cfg.loopBound)
    (next : Alone cfg t post (f (.noSuchLevel, m.rootOffset)) m) : Alone cfg t post (findNode cfg key (top + 1) true >>= f) m := by
  obtain ⟨y, found, level, -⟩ := standing.forest.rooted
  obtain ⟨n, there, rfl⟩ := Memory.tiles_eq_some.1 found
  rw [Node.tile_level] at level
  obtain ⟨bound, eq⟩ : ∃ k, cfg.loopBound = k + 1 := ⟨cfg.loopBound - 1, by omega⟩
  rw [findNode, bind_assoc, eq]
  refine alone_readRoot ?_
  unfold findNodeLoop
  rw [bind_assoc]
  refine alone_readNode there ?_
  rw [level, if_neg (by simp), if_neg (by omega), if_pos (Nat.lt_succ_self top), if_pos rfl]
  exact next

end

/-! ## Separators on their way up -/

omit [LinearOrder Key] [BoundedOrder Key] in
/-- Only nodes from a level on change. -/
structure Lifts (level : ℕ) (m m' : Memory Key Value) : Prop where
  below : ∀ a n, n.header.level < level → (m'.nodes a = some n ↔ m.nodes a = some n)
  items : m'.items = m.items
  itemsIssued : m'.itemsIssued = m.itemsIssued
  freeItems : m'.freeItems = m.freeItems

section
variable {cfg : Config} {t : Thread} {m m' : Memory Key Value} {pending : Set GlobalAddress} {top level : ℕ} {a v : GlobalAddress}
  {n y : Node Key}

omit [LinearOrder Key] [BoundedOrder Key] in
theorem lifts_setNode (there : m.nodes a = some n) (high : level ≤ n.header.level) {n' : Node Key}
    (high' : level ≤ n'.header.level) :
    Lifts level m (m.setNode a n') := by
  refine ⟨fun b x low => ⟨fun found => ?_, fun found => ?_⟩, rfl, rfl, rfl⟩
  · rcases Memory.setNode_cases found with ⟨-, rfl⟩ | ⟨-, old⟩
    · omega
    · exact old
  · rw [Memory.setNode_other, found]
    rintro rfl
    obtain rfl := Option.some.inj (there.symm.trans found)
    omega

omit [LinearOrder Key] [BoundedOrder Key] in
theorem Lifts.trans {m'' : Memory Key Value} (one : Lifts level m m') (two : Lifts level m' m'') : Lifts level m m'' where
  below a n low := (two.below a n low).trans (one.below a n low)
  items := two.items.trans one.items
  itemsIssued := two.itemsIssued.trans one.itemsIssued
  freeItems := two.freeItems.trans one.freeItems

omit [LinearOrder Key] [BoundedOrder Key] in
theorem Lifts.mono {level' : ℕ} (lifts : Lifts level m m') (low : level' ≤ level) : Lifts level' m m' where
  below a n lower := lifts.below a n (by omega)
  items := lifts.items
  itemsIssued := lifts.itemsIssued
  freeItems := lifts.freeItems

/-- What a finished `insert_internal_entry` leaves behind. -/
structure Ascended (cfg : Config) (level top : ℕ) (m m' : Memory Key Value) : Prop where
  standing : ∃ top' ≤ top + 1, Standing cfg.branchFactor m' ∅ top'
  opened : m'.Open level
  lifts : Lifts level m m'

theorem alone_setupNewRoot (standing : Standing cfg.branchFactor m {v} top) (found : m.nodes v = some y)
    (level : y.header.level = top) (two : 1 < cfg.branchFactor) :
    Alone cfg t (fun ok m' => ok = true ∧ Ascended cfg (top + 1) top m m') (setupNewRoot y.header.fence.1 v (top + 1)) m := by
  unfold setupNewRoot
  refine alone_allocNode fun new unissued => alone_readRoot (alone_writeNode (alone_readRoot (alone_casRoot ?_)))
  rw [if_pos rfl]
  have unused := standing.unused unissued
  have grown := standing.growRoot (Set.mem_singleton v) found level two unissued
  rw [Set.sdiff_self] at grown
  refine ⟨rfl, ⟨top + 1, le_refl _, grown⟩, fun b x there high => ?_, fun b x low => ⟨fun there => ?_, fun there => ?_⟩,
    rfl, rfl, rfl⟩
  · rcases Memory.setNode_cases (m := m.issueNode new) there with ⟨-, rfl⟩ | ⟨-, old⟩
    · rfl
    · have := standing.level_le old
      omega
  · rcases Memory.setNode_cases (m := m.issueNode new) there with ⟨-, rfl⟩ | ⟨-, old⟩
    · exact absurd low (lt_irrefl _)
    · exact old
  · refine (Memory.setNode_other (m := m.issueNode new) ?_).trans there
    exact standing.ne_new there unissued

theorem ascended_link {x : InternalNode Key} (standing : Standing cfg.branchFactor m {v} top)
    (there : m.nodes a = some (.internal x))
    (found : m.nodes v = some y) (under : y.header.level + 1 = level) (on : x.header.level = level)
    (covers : x.header.covers y.header.fence.1) (room : x.header.lastIndex + 1 < cfg.branchFactor)
    (others : ∀ b z, b ≠ a → m.nodes b = some z → level ≤ z.header.level → z.header.lock = 0) :
    Ascended cfg level top m (m.setNode a ((Node.internal (x.withSeparator y.header.fence.1 v)).setLock 0)) := by
  have linked := standing.link there (Set.mem_singleton v) found (under.trans on.symm) covers room
  rw [Set.sdiff_self] at linked
  have unlocked := linked.setLock (Memory.setNode_self ..) 0
  rw [Memory.setNode_setNode] at unlocked
  refine ⟨⟨top, Nat.le_succ top, unlocked⟩, fun b z is high => ?_, lifts_setNode there (le_of_eq on.symm) (le_of_eq on.symm)⟩
  rcases Memory.setNode_cases is with ⟨-, rfl⟩ | ⟨other, old⟩
  · rfl
  · exact others b z other old high

theorem ascended_split {x : InternalNode Key} {new : GlobalAddress} (standing : Standing cfg.branchFactor m {v} top)
    (there : m.nodes a = some (.internal x)) (on : x.header.level = level)
    (others : ∀ b z, b ≠ a → m.nodes b = some z → level ≤ z.header.level → z.header.lock = 0) (unissued : new ∉ m.nodesIssued)
    {left right : InternalNode Key} (leftOn : left.header.level = level) (rightOn : right.header.level = level)
    (free : right.header.lock = 0)
    (above : Ascended cfg (level + 1) top (m.divided a new (.internal left) (.internal right)) m') :
    m'.nodes a = some (.internal left) ∧ Ascended cfg level top m (m'.setNode a ((Node.internal left).setLock 0)) := by
  -- the locked node is split, and what is above takes the next separator
  have apart := standing.ne_new there unissued
  have now : m'.nodes a = some (.internal left) := by
    refine (above.lifts.below a _ ?_).2 (Memory.divided_left ..)
    rw [Node.header, leftOn]
    exact Nat.lt_succ_self level
  obtain ⟨top', bound, stands⟩ := above.standing
  have same : ∀ b z, b ≠ a → b ≠ new → z.header.level < level + 1 → (m'.nodes b = some z ↔ m.nodes b = some z) := by
    intro b z notLeft notNew low
    rw [above.lifts.below b z low, Memory.divided_other notNew notLeft]
  refine ⟨now, ⟨top', bound, stands.setLock now 0⟩, fun b z is high => ?_, fun b z low => ⟨fun is => ?_, fun is => ?_⟩,
    above.lifts.items, above.lifts.itemsIssued, above.lifts.freeItems⟩
  · rcases Memory.setNode_cases is with ⟨-, rfl⟩ | ⟨notLeft, is⟩
    · rfl
    rcases Nat.lt_or_ge level z.header.level with upper | lower
    · exact above.opened b z is upper
    -- on the level of the split node
    by_cases isNew : b = new
    · subst isNew
      have half := (above.lifts.below b z (by omega)).1 is
      rw [Memory.divided_right apart] at half
      obtain rfl := Option.some.inj half
      exact free
    · exact others b z notLeft ((same b z notLeft isNew (by omega)).1 is) high
  · rcases Memory.setNode_cases is with ⟨-, rfl⟩ | ⟨notLeft, is⟩
    · have low : left.header.level < level := low
      omega
    have notNew : b ≠ new := by
      rintro rfl
      have half := (above.lifts.below b z (by omega)).1 is
      rw [Memory.divided_right apart] at half
      obtain rfl := Option.some.inj half
      have low : right.header.level < level := low
      omega
    exact (same b z notLeft notNew (by omega)).1 is
  · have notLeft : b ≠ a := by
      rintro rfl
      obtain rfl := Option.some.inj (there.symm.trans is)
      have low : x.header.level < level := low
      omega
    rw [Memory.setNode_other notLeft]
    exact (same b z notLeft (standing.ne_new is unissued) (by omega)).2 is

omit [LinearOrder Key] [BoundedOrder Key] in
theorem release_lock (x : Node Key) (locked : x.header.lock = 1) : x.setLock (x.header.lock + -1) = x.setLock 0 := by
  rw [locked]
  congr 1

theorem alone_insertInternalEntry {depth : ℕ} (four : 4 ≤ cfg.branchFactor) (tries : 0 < cfg.maxAttempts)
    (standing : Standing cfg.branchFactor m {v} top) (found : m.nodes v = some y) (under : y.header.level + 1 = level)
    (short : top < cfg.loopBound) (opened : m.Open level) (deep : top + 1 - level < depth) :
    Alone cfg t (fun ok m' => ok = true ∧ Ascended cfg level top m m')
    (insertInternalEntry cfg depth y.header.fence.1 v level) m := by
  -- the separator of a pending node is put into the node above it, and so on upwards
  induction depth generalizing m v y level with
  | zero => omega
  | succ depth ih =>
    obtain ⟨attempts, eq⟩ : ∃ k, cfg.maxAttempts = k + 1 := ⟨cfg.maxAttempts - 1, by omega⟩
    have low := standing.level_le found
    have nonempty := standing.forest.nonempty v _ (Memory.tiles_node found)
    rw [Node.tile_lo, Node.tile_hi] at nonempty
    have below : y.header.fence.1 < ⊤ := lt_of_lt_of_le nonempty le_top
    unfold insertInternalEntry
    rw [eq]
    unfold insertInternalEntryLoop
    by_cases atTop : level = top + 1
    · subst atTop
      refine alone_findNode_noSuchLevel standing (by omega) ?_
      exact alone_setupNewRoot standing found (by omega) (by omega)
    have alone : ∀ b ∈ ({v} : Set GlobalAddress), ∀ x, m.nodes b = some x → x.header.level < level := by
      rintro b rfl x there
      obtain rfl := Option.some.inj (found.symm.trans there)
      omega
    refine alone_findNode standing alone opened (by omega) short below fun a n there on covers => ?_
    obtain ⟨x, rfl⟩ := standing.internal_of_level there (by omega)
    refine alone_casLock there (opened a _ there (le_of_eq on.symm)) (alone_readNode (Memory.setNode_self ..) ?_)
    rw [if_neg (not_not.2 rfl)]
    -- from here on the node is locked
    obtain ⟨x', locked⟩ : ∃ x', x' = { x with header := { x.header with lock := 1 } } := ⟨_, rfl⟩
    have node : (Node.internal x).setLock 1 = .internal x' := by rw [locked]; rfl
    have standing' := standing.setLock there 1
    rw [node] at standing'
    rw [node]
    have on' : x'.header.level = level := by rw [locked]; exact on
    have covers' : x'.header.covers y.header.fence.1 := by rw [locked]; exact covers
    have held : x'.header.lock = 1 := by rw [locked]
    have inner : v ≠ a := by
      rintro rfl
      obtain rfl := Option.some.inj (found.symm.trans there)
      omega
    have found' : (m.setNode a (.internal x')).nodes v = some y := by rw [Memory.setNode_other inner, found]
    have there' : (m.setNode a (.internal x')).nodes a = some (.internal x') := Memory.setNode_self ..
    have others : ∀ b z, b ≠ a → (m.setNode a (.internal x')).nodes b = some z → level ≤ z.header.level → z.header.lock = 0 := by
      intro b z other is high
      rw [Memory.setNode_other other] at is
      exact opened b z is high
    have lifts : Lifts level m (m.setNode a (.internal x')) := lifts_setNode there (le_of_eq on.symm) (le_of_eq on'.symm)
    obtain ⟨-, absent⟩ := standing'.separator there' (Set.mem_singleton v) found' (under.trans on'.symm) covers'
    have isNew : (List.range (x'.header.lastIndex + 1)).any (fun i => decide ((x'.entries i).key = y.header.fence.1)) = false := by
      simp [absent]
    have last : x'.header.lastIndex < cfg.branchFactor := (standing'.nodes a _ there').2.2.2
    rw [if_neg (not_not.2 (show (Node.internal x').header.level = level from on')), 
      if_neg (not_not.2 (show (Node.internal x').header.covers y.header.fence.1 from covers'))]
    dsimp only [Node.asInternal]
    rw [isNew, if_neg Bool.false_ne_true]
    by_cases full : cfg.branchFactor ≤ x'.header.lastIndex + 1
    swap
    · rw [if_neg full]
      refine alone_writeNode (alone_faaLock (Memory.setNode_self ..) ⟨rfl, ?_⟩)
      rw [release_lock (.internal (x'.withSeparator y.header.fence.1 v)) held, Memory.setNode_setNode]
      have linked := ascended_link standing' there' found' under on' covers' (by omega) others
      exact ⟨linked.standing, linked.opened, lifts.trans linked.lifts⟩
    rw [if_pos full]
    have middle : ¬ (x'.header.lastIndex + 2 ≠ cfg.branchFactor + 1 ∨ cfg.branchFactor - 1 ≤ splitMiddle cfg.branchFactor) := by
      unfold splitMiddle
      omega
    unfold splitInternalNode
    rw [if_neg middle]
    simp only [bind_assoc]
    refine alone_allocNode fun new unissued => alone_writeNode (alone_writeNode ?_)
    have split := standing'.splitNode there' (Set.mem_singleton v) found' (under.trans on'.symm) covers' four (by omega) unissued
    rw [Set.sdiff_self, insert_empty_eq] at split
    have apart := standing'.ne_new there' unissued
    have right : (Node.internal (x'.splitRight cfg.branchFactor y.header.fence.1 v)).header.level + 1 = x'.header.level + 1 := rfl
    have opened' : ((m.setNode a (.internal x')).divided a new (.internal (x'.splitLeft cfg.branchFactor y.header.fence.1 v))
        (.internal (x'.splitRight cfg.branchFactor y.header.fence.1 v))).Open (x'.header.level + 1) := by
      intro b z is high
      rcases Memory.divided_cases is with ⟨-, rfl⟩ | ⟨-, rfl⟩ | ⟨notLeft, -, old⟩
      · exact absurd high (Nat.not_succ_le_self _)
      · exact absurd high (Nat.not_succ_le_self _)
      · exact others b z notLeft old (by omega)
    refine total_bind (total_mono (ih split (Memory.divided_right apart) right opened' (by omega)) ?_)
    rintro ok m₁ ⟨rfl, above⟩
    rw [if_pos rfl, pure_bind]
    rw [on'] at above
    have leftOn : (x'.splitLeft cfg.branchFactor y.header.fence.1 v).header.level = level := on'
    have rightOn : (x'.splitRight cfg.branchFactor y.header.fence.1 v).header.level = level := on'
    have free : (x'.splitRight cfg.branchFactor y.header.fence.1 v).header.lock = 0 := rfl
    obtain ⟨now, ascended⟩ := ascended_split standing' there' on' others unissued leftOn rightOn free above
    refine alone_faaLock now ⟨rfl, ?_⟩
    rw [release_lock (.internal (x'.splitLeft cfg.branchFactor y.header.fence.1 v)) held]
    exact ⟨ascended.standing, ascended.opened, lifts.trans ascended.lifts⟩

end

/-! ## Up to the write-back -/

section
variable {cfg : Config} {t : Thread} {m : Memory Key Value} {a : GlobalAddress} {leaf : LeafNode Key}
    {post : A → Memory Key Value → Prop}

omit [LinearOrder Key] [BoundedOrder Key] in
theorem alone_lockUnlockKvblocks {toLock : Bool} {f : Unit → Index Key Value A} {l : List ℕ}
    (next : Alone cfg t post (f ()) (m.setNode a (.leaf (leaf.addSlots (if toLock then 1 else -1) l)))) :
    Alone cfg t post (lockUnlockKvblocks a toLock l >>= f) (m.setNode a (.leaf leaf)) := by
  induction l generalizing leaf with
  | nil => exact next
  | cons i rest ih =>
    rw [lockUnlockKvblocks, bind_assoc]
    refine alone_faaBlock (Memory.setNode_self ..) ?_
    rw [Memory.setNode_setNode]
    exact ih next

omit [LinearOrder Key] [BoundedOrder Key] in
theorem alone_readLeafKeys {snap : LeafNode Key} {f : List (Key × KVBlock) → Index Key Value A} {l : List ℕ}
    (next : Alone cfg t post (f (l.map fun i => ((m.items (snap.kvBlocks i).getAddr).key, snap.kvBlocks i))) m) :
    Alone cfg t post (readLeafKeys a snap l >>= f) m := by
  induction l generalizing f with
  | nil => exact next
  | cons i rest ih =>
    rw [readLeafKeys, bind_assoc]
    refine alone_readKey ?_
    rw [bind_assoc]
    exact ih next

omit [LinearOrder Key] [BoundedOrder Key] in
theorem alone_clearSlots {odd : Bool} {middle : ℕ} (l : List ℕ) (left right : ℕ → KVBlock) :
    Alone cfg t (fun _ m' => m' = m) (clearSlots a odd middle l left right : Index Key Value _) m := by
  induction l generalizing left right with
  | nil => rfl
  | cons i rest ih =>
    unfold clearSlots
    refine alone_setDifferentRandomFpAddr fun random => ?_
    split
    · exact alone_setDifferentRandomFpAddr fun random' => ih _ _
    · exact ih _ _

omit [LinearOrder Key] [BoundedOrder Key] in
theorem alone_distribute {snap : LeafNode Key} {entries : List (Key × KVBlock)} {middleKey : Key} :
    Alone cfg t (fun leaves m' => m' = m ∧ Distributes cfg snap entries middleKey leaves.1 leaves.2)
      (distribute cfg a snap entries middleKey) m := by
  have quiet : Alone cfg t (fun _ m' => m' = m) (distribute cfg a snap entries middleKey) m :=
    total_bind (total_mono (alone_clearSlots _ _ _) fun _ _ same => same)
  refine total_mono (total_yields quiet) ?_
  rintro leaves m' ⟨same, trace, yields⟩
  exact ⟨same, yields_distribute yields⟩

/-- How the write-back of a split ends. -/
inductive Halved (cfg : Config) (a : GlobalAddress) (leaf : LeafNode Key) (m : Memory Key Value) :
    Option (Key × GlobalAddress) → Memory Key Value → Prop where
  | kept : (leaf.keys cfg.branchFactor fun b => (m.items b).key).card ≤ cfg.branchFactor / 2 → Halved cfg a leaf m none m
  | split {mid : Key} {new : GlobalAddress} {left right : LeafNode Key} :
      cfg.branchFactor / 2 < (leaf.keys cfg.branchFactor fun b => (m.items b).key).card → new ∉ m.nodesIssued →
      Partition cfg.branchFactor (fun b => (m.items b).key) leaf left right mid →
      left.header.level = leaf.header.level ∧ left.header.lock = 1 → right.header.level = 0 ∧ right.header.lock = 0 →
      Halved cfg a leaf m (some (mid, new)) (m.divided a new (.leaf left) (.leaf right))

omit [LinearOrder Key] [BoundedOrder Key] in
theorem divided_setNode {new : GlobalAddress} (apart : a ≠ new) (n left right : Node Key) :
    (m.setNode a n).divided a new left right = m.divided a new left right := by
  simp only [Memory.divided, Memory.setNode, Memory.issueNode, Function.update_comm apart, Function.update_idem]

omit [BoundedOrder Key] in
theorem alone_writeBack (large : 2 ≤ cfg.branchFactor) (there : m.nodes a = some (.leaf leaf)) (issued : a ∈ m.nodesIssued)
    (unlocked : (Node.leaf leaf).Unlocked cfg)
    (inside : ∀ i, leaf.Live cfg.branchFactor i → leaf.header.covers (m.items (leaf.kvBlocks i).getAddr).key) :
    Alone cfg t (Halved cfg a leaf m) (writeBack cfg a) m := by
  have reads := LeafNode.lockedBy_locked unlocked.2
  have header : (leaf.locked cfg.branchFactor).header = { leaf.header with lock := 1 } := by
    rw [LeafNode.locked, LeafNode.addSlots_header]
  have count := entries_length (fun b => (m.items b).key) reads
  unfold writeBack
  refine alone_casLock there unlocked.1 ?_
  rw [if_neg (not_not.2 rfl)]
  have locking : (Node.leaf leaf).setLock 1 = .leaf { leaf with header := { leaf.header with lock := 1 } } := rfl
  rw [locking]
  refine alone_lockUnlockKvblocks ?_
  change Alone cfg t _ _ (m.setNode a (.leaf (leaf.locked cfg.branchFactor)))
  refine alone_readNode (Memory.setNode_self ..) ?_
  dsimp only [Node.asLeaf]
  have all : ¬ ((leaf.locked cfg.branchFactor).header.lock = 0 ∨
      (List.range cfg.branchFactor).any (fun i => !((leaf.locked cfg.branchFactor).kvBlocks i).isLocked)) := by
    rintro (zero | unset)
    · rw [header] at zero
      have zero : (1 : BitVec 64) = 0 := zero
      exact absurd zero (by decide)
    · obtain ⟨i, bound, is⟩ := List.any_eq_true.1 unset
      rw [(reads.2 i (List.mem_range.1 bound)).1, KVBlock.isLocked_setLocked] at is
      exact Bool.noConfusion is
  rw [if_neg all]
  refine alone_readLeafKeys ?_
  have entries : (takenIndices cfg.branchFactor (leaf.locked cfg.branchFactor)).map (fun i =>
      (((m.setNode a (.leaf (leaf.locked cfg.branchFactor))).items ((leaf.locked cfg.branchFactor).kvBlocks i).getAddr).key,
        (leaf.locked cfg.branchFactor).kvBlocks i)) =
      splitBindings cfg.branchFactor (fun b => (m.items b).key) (leaf.locked cfg.branchFactor) := rfl
  rw [entries]
  split_ifs with few
  · -- every word is as before once the locks are released
    refine alone_lockUnlockKvblocks ?_
    rw [if_neg Bool.false_ne_true, LeafNode.unlock_locked unlocked.2]
    refine alone_faaLock (Memory.setNode_self ..) ?_
    have restored : (Node.leaf { leaf with header := { leaf.header with lock := 1 } }).setLock ((1 : BitVec 64) + -1) =
      .leaf leaf := by
      have lock : (1 : BitVec 64) + -1 = leaf.header.lock := by rw [unlocked.1]; decide
      rw [lock]
      rfl
    rw [Memory.setNode_setNode]
    change Halved cfg a leaf m none
      (m.setNode a ((Node.leaf { leaf with header := { leaf.header with lock := 1 } }).setLock ((1 : BitVec 64) + -1)))
    rw [restored, Memory.setNode, Function.update_eq_self_iff.2 there.symm]
    rw [count] at few
    exact .kept few
  · rw [count, not_le] at few
    refine alone_allocNode fun new unissued => ?_
    have apart : a ≠ new := by
      rintro rfl
      exact unissued issued
    split
    · rename_i none
      rw [count, List.getElem?_eq_none_iff] at none
      omega
    · rename_i middleKey block middle
      rw [count] at middle
      refine total_bind (total_mono alone_distribute ?_)
      rintro ⟨left, right⟩ m' ⟨rfl, distributes⟩
      refine alone_writeNode (alone_writeNode ?_)
      change Halved cfg a leaf m _ ((m.setNode a _).divided a new (.leaf left) (.leaf right))
      rw [divided_setNode apart]
      refine .split few unissued (distributes.partition reads middle inside (by omega)) ?_ ?_
      · rw [distributes.leftHeader, header]
        exact ⟨rfl, rfl⟩
      · rw [distributes.rightHeader]
        exact ⟨rfl, rfl⟩

end

/-! ## The whole split -/

variable [KeyBytes Key]

/-- A tree between two calls of the only client. -/
structure Settled (cfg : Config) (t : Thread) (m : Memory Key Value) (top : ℕ) : Prop where
  stocked : Stocked cfg t m ∅ top
  opened : m.Open 0
  room : ∀ a leaf, m.nodes a = some (.leaf leaf) → ∃ i < cfg.branchFactor, (leaf.kvBlocks i).isFree = true

section
variable {cfg : Config} {t : Thread} {m m' : Memory Key Value} {pending pending' : Set GlobalAddress} {top top' : ℕ}
  {a : GlobalAddress} {leaf : LeafNode Key} {map : Key → Option Value}

theorem Stocked.lifted (stocked : Stocked cfg t m pending top) (lifts : Lifts 1 m m')
    (standing : Standing cfg.branchFactor m' pending' top') :
    Stocked cfg t m' pending' top' ∧ ∀ x, m'.Refers cfg x ↔ m.Refers cfg x := by
  -- changes above the leaves
  have same : ∀ b x, m'.nodes b = some (.leaf x) ↔ m.nodes b = some (.leaf x) := by
    intro b x
    constructor
    · intro there
      have bottom : x.header.level = 0 := (standing.nodes b _ there).2
      exact (lifts.below b _ (bottom ▸ Nat.zero_lt_one)).1 there
    · intro there
      have bottom : x.header.level = 0 := (stocked.standing.nodes b _ there).2
      exact (lifts.below b _ (bottom ▸ Nat.zero_lt_one)).2 there
  refine ⟨⟨standing, fun b x there => ?_, ?_⟩, fun x => ?_⟩
  · have shelved := stocked.shelved b x ((same b x).1 there)
    refine shelved.frame fun i live => ⟨?_, ?_⟩
    · rw [Memory.InUse, lifts.itemsIssued, lifts.freeItems]
      exact shelved.inUse i live
    · rw [Memory.keyAt, lifts.items]
      rfl
  · refine ⟨?_, ?_, ?_⟩
    · rw [lifts.freeItems, lifts.itemsIssued]
      exact stocked.recycles.issued
    · rw [lifts.freeItems]
      exact stocked.recycles.nodup
    · rw [lifts.freeItems]
      exact stocked.recycles.others
  · simp only [Memory.Refers, same]

theorem Stocked.unlock (stocked : Stocked cfg t m pending top) (there : m.nodes a = some (.leaf leaf)) :
    Stocked cfg t (m.setNode a ((Node.leaf leaf).setLock 0)) pending top ∧
      ∀ x, (m.setNode a ((Node.leaf leaf).setLock 0)).Refers cfg x ↔ m.Refers cfg x := by
  refine ⟨⟨stocked.standing.setLock there 0, fun b x found => ?_, ?_⟩, fun x => ⟨?_, ?_⟩⟩
  · rcases Memory.setNode_cases found with ⟨rfl, eq⟩ | ⟨-, old⟩
    · obtain rfl := Node.leaf.inj eq
      have shelved := stocked.shelved b leaf there
      exact ⟨shelved.unlocked, shelved.once, shelved.covered, shelved.fingerprint, shelved.inUse⟩
    · have shelved := stocked.shelved b x old
      exact ⟨shelved.unlocked, shelved.once, shelved.covered, shelved.fingerprint, shelved.inUse⟩
  · exact ⟨stocked.recycles.issued, stocked.recycles.nodup, stocked.recycles.others⟩
  · rintro ⟨b, x, i, found, live, rfl⟩
    rcases Memory.setNode_cases found with ⟨rfl, eq⟩ | ⟨-, old⟩
    · obtain rfl := Node.leaf.inj eq
      exact ⟨b, leaf, i, there, live, rfl⟩
    · exact ⟨b, x, i, old, live, rfl⟩
  · rintro ⟨b, x, i, found, live, rfl⟩
    by_cases here : b = a
    · subst here
      obtain rfl : leaf = x := Node.leaf.inj (Option.some.inj (there.symm.trans found))
      exact ⟨b, _, i, Memory.setNode_self .., live, rfl⟩
    · exact ⟨b, x, i, by rw [Memory.setNode_other here, found], live, rfl⟩

omit [LinearOrder Key] [BoundedOrder Key] [KeyBytes Key] in
theorem Represents.of_refers (represents : Represents cfg m map) (refers : ∀ x, m'.Refers cfg x ↔ m.Refers cfg x)
    (items : m'.items = m.items) :
    Represents cfg m' map := by
  intro k v
  simp only [represents k v, refers, items]

theorem alone_splitLeaf (four : 4 ≤ cfg.branchFactor) (tries : 0 < cfg.maxAttempts) (short : top < cfg.loopBound)
    (stocked : Stocked cfg t m ∅ top) (opened : m.Open 0) (there : m.nodes a = some (.leaf leaf))
    (room : ∀ b x, b ≠ a → m.nodes b = some (.leaf x) → ∃ i < cfg.branchFactor, (x.kvBlocks i).isFree = true)
    (represents : Represents cfg m map) :
    Alone cfg t (fun _ m' => (∃ top' ≤ top + 1, Settled cfg t m' top') ∧ Represents cfg m' map) (splitLeaf cfg a) m := by
  -- the leaf that is split may be full
  have shelved := stocked.shelved a leaf there
  have bottom : leaf.header.level = 0 := (stocked.standing.nodes a _ there).2
  have unlocked : (Node.leaf leaf).Unlocked cfg := ⟨opened a _ there (Nat.zero_le _), shelved.unlocked⟩
  rw [splitLeaf_eq]
  refine total_bind (total_mono (alone_writeBack (by omega) there (stocked.standing.nodes a _ there).1 unlocked shelved.covered) ?_)
  intro written m₁ halved
  cases halved with
  | kept few =>
    refine ⟨⟨top, Nat.le_succ top, stocked, opened, fun b x found => ?_⟩, represents⟩
    by_cases here : b = a
    · subst here
      obtain rfl : leaf = x := Node.leaf.inj (Option.some.inj (there.symm.trans found))
      exact shelved.room (by omega)
    · exact room b x here found
  | @split mid new left right many unissued partition lefts rights =>
    have apart := stocked.standing.ne_new there unissued
    have divided := stocked.splitLeaf there unissued partition ⟨lefts.1.trans bottom, rights.1⟩
    have carried := stocked.split_represents there unissued partition represents
    rw [insert_empty_eq] at divided
    have separator : mid = (Node.leaf right).header.fence.1 := by
      rw [Node.header, partition.upper.fence]
    have above : (m.divided a new (.leaf left) (.leaf right)).Open 1 := by
      intro b x found high
      rcases Memory.divided_cases found with ⟨-, rfl⟩ | ⟨-, rfl⟩ | ⟨-, -, old⟩
      · rw [Node.header, lefts.1, bottom] at high
        exact absurd high (by decide)
      · rw [Node.header, rights.1] at high
        exact absurd high (by decide)
      · exact opened b x old (Nat.zero_le _)
    dsimp only [propagate]
    rw [separator]
    refine total_bind (total_mono (alone_insertInternalEntry four tries divided.standing (Memory.divided_right apart)
      (show (Node.leaf right).header.level + 1 = 1 by rw [Node.header, rights.1]) short above (by omega)) ?_)
    rintro ok m₂ ⟨rfl, ascended⟩
    rw [if_pos rfl]
    obtain ⟨top', height, standing⟩ := ascended.standing
    obtain ⟨stocked', refers⟩ := divided.lifted ascended.lifts standing
    have now : m₂.nodes a = some (.leaf left) := by
      refine (ascended.lifts.below a _ ?_).2 (Memory.divided_left ..)
      rw [Node.header, lefts.1, bottom]
      exact Nat.zero_lt_one
    refine alone_faaLock now ?_
    rw [release_lock (.leaf left) lefts.2]
    obtain ⟨released, refers'⟩ := stocked'.unlock now
    -- the leaves are those after the write-back, apart from the lock
    have leaves : ∀ b x, b ≠ a → m₂.nodes b = some x → x.header.level = 0 → b = new ∧ x = .leaf right ∨ m.nodes b = some x := by
      intro b x other found low
      rcases Memory.divided_cases ((ascended.lifts.below b x (by omega)).1 found) with ⟨here, -⟩ | here | ⟨-, -, old⟩
      · exact absurd here other
      · exact .inl here
      · exact .inr old
    have slots : (OrderedMap.ofList
      (splitBindings cfg.branchFactor (fun b => (m.items b).key) (leaf.locked cfg.branchFactor))).length ≤
      cfg.branchFactor := entries_room
    rw [entries_length _ (LeafNode.lockedBy_locked unlocked.2)] at slots
    refine ⟨⟨top', height, released, fun b x found _ => ?_, fun b x found => ?_⟩, ?_⟩
    · rcases Memory.setNode_cases found with ⟨-, rfl⟩ | ⟨other, found⟩
      · rfl
      rcases Nat.eq_zero_or_pos x.header.level with low | high
      · rcases leaves b x other found low with ⟨-, rfl⟩ | old
        · exact rights.2
        · exact opened b x old (Nat.zero_le _)
      · exact ascended.opened b x found high
    · rcases Memory.setNode_cases found with ⟨-, eq⟩ | ⟨other, found⟩
      · obtain rfl := Node.leaf.inj eq
        have count := partition.lowerCount
        exact (divided.shelved a left (Memory.divided_left ..)).room (lt_of_eq_of_lt count (by omega))
      rcases leaves b _ other found (standing.nodes b _ found).2 with ⟨rfl, eq⟩ | old
      · obtain rfl := Node.leaf.inj eq
        have count := partition.upperCount
        exact (divided.shelved b x (Memory.divided_right apart)).room (lt_of_eq_of_lt count (by omega))
      · exact room b x other old
    · exact (carried.of_refers refers ascended.lifts.items).of_refers refers' rfl

end

end Faunus
