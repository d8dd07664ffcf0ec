import Faunus.Index.Conformance

/-! Descending and splitting conform to the machine. -/

set_option autoImplicit false

namespace Faunus

open Interleaving

variable {Key Value : Type} [LinearOrder Key] [BoundedOrder Key] [KeyBytes Key] {cfg : Config} {t : Thread}

/-! ## Descending -/

omit [BoundedOrder Key] [KeyBytes Key] in
theorem nextAddress_child (n : InternalNode Key) (key : Key) :
    ∃ i ≤ n.header.lastIndex, n.nextAddress key = (n.entries i).child := by
  unfold InternalNode.nextAddress
  split
  · rename_i i found
    have inside := List.mem_range.1 (List.mem_of_find?_eq_some found)
    exact ⟨i, by omega, rfl⟩
  · exact ⟨_, le_refl _, rfl⟩

omit [LinearOrder Key] [BoundedOrder Key] [KeyBytes Key] in
theorem Levels.children {gs : Thread → Local Key Value} {m : Memory Key Value} {a : GlobalAddress} {n : Node Key} {l : ℕ}
    (inv : Levels gs m) (born : Born gs m a n) (level : n.header.level = l + 1) :
    ∃ node, n = .internal node ∧ ∀ i ≤ node.header.lastIndex, Known gs m (node.entries i).child l := by
  have sound := inv.sound a n born
  cases n with
  | leaf leaf =>
    have flat : leaf.header.level = 0 := sound
    simp only [Node.header] at level
    omega
  | internal node =>
    obtain ⟨below, eq, children⟩ := sound
    simp only [Node.header] at level
    obtain rfl : below = l := by omega
    exact ⟨node, rfl, children⟩

/-- What a descent to the level has found; only the thread's view has changed. -/
def Descended (g : Local Key Value) (level : ℕ) (reply : FindNodeResult × GlobalAddress) (g' : Local Key Value) : Prop :=
  ∃ view, g' = { g with view } ∧ (reply.1 = .found → view.target = some (reply.2, level)) ∧
    (reply.1 = .noSuchLevel → view.atTop = true)

theorem conforms_findNodeLoop (key : Key) (level : ℕ) (fromSmo : Bool) (bound : ℕ) (a : GlobalAddress) (inRoot : Bool)
    (l : ℕ) (g : Local Key Value) (target : g.view.target = some (a, l))
    (length : fromSmo = true → g.smo.held.length = level) (high : level ≤ l ∨ inRoot = true ∧ g.view.atTop = true) :
    Conforms cfg t (Descended g level) (findNodeLoop key level fromSmo bound a inRoot) g := by
  induction bound generalizing a inRoot l g with
  | zero => exact ⟨g.view, rfl, by simp, by simp⟩
  | succ bound ih =>
    unfold findNodeLoop
    refine conforms_readNode fun gs m n inv own there => ?_
    subst own
    obtain ⟨born, leveled⟩ := inv.born_of_target target there
    have linked := inv.views.target t a l target
    -- a locked ancestor stands above every lock the thread holds
    have waits : ∀ level', Site.findNode level fromSmo = .findNode level' true → n.header.lock ≠ 0 →
        level' < n.header.level → ∃ above, Known gs m a above ∧ (gs t).smo.held.length ≤ above := by
      rintro level' ⟨⟩ - above
      exact ⟨l, linked, by rw [length rfl]; omega⟩
    -- descending one level, or staying at the node
    have step : ∀ target', (∀ b level, target' = some (b, level) → Known gs m b level) →
        Permits cfg t gs m ⟨.findNode level fromSmo, .readNode a⟩ n m { gs t with view :=
          { (gs t).view with
            target := target'
            waiting := waitsNext (⟨.findNode level fromSmo, .readNode a⟩ : Op Key Value) n (gs t).view.waiting } } :=
      fun _ known => .readNode there known waits (by simp) (by simp)
    split
    · exact ⟨_, step _ (inv.views.target t), _, rfl, by simp, by simp⟩
    split
    · rename_i same
      refine ⟨_, step (some (a, l)) (by rintro b l' ⟨⟩; exact linked), _, rfl, fun _ => ?_, by simp⟩
      simp [← leveled, same]
    split
    · rename_i low
      split
      · rename_i root
        refine ⟨_, step _ (inv.views.target t), _, rfl, by simp, fun _ => ?_⟩
        rcases high with above | ⟨-, top⟩
        · omega
        · exact top
      · exact ⟨_, step _ (inv.views.target t), trivial⟩
    · rename_i notHere notBelow
      obtain ⟨below, eq⟩ : ∃ below, n.header.level = below + 1 := ⟨n.header.level - 1, by omega⟩
      obtain ⟨node, rfl, children⟩ := inv.levels.children born eq
      obtain ⟨i, inside, next⟩ := nextAddress_child node key
      have child : Known gs m (node.nextAddress key) below := by
        rw [next]
        exact children i inside
      have known : ∀ b l', some (node.nextAddress key, below) = some (b, l') → Known gs m b l' := by
        rintro b l' ⟨⟩
        exact child
      refine ⟨_, step (some (node.nextAddress key, below)) known, ?_⟩
      dsimp only [Node.asInternal]
      split
      · trivial
      split
      · rename_i above
        refine ⟨_, rfl, fun _ => ?_, by simp⟩
        obtain rfl : below = level := by omega
        rfl
      · rename_i notAbove
        exact conforms_mono (ih _ false below _ rfl length (Or.inl (by omega))) fun _ _ descended => descended

theorem conforms_findNode (key : Key) (level : ℕ) (fromSmo : Bool) (g : Local Key Value)
    (length : fromSmo = true → g.smo.held.length = level) (bottom : fromSmo = false → level = 0) :
    Conforms cfg t (Descended g level) (findNode cfg key level fromSmo) g := by
  unfold findNode
  refine conforms_readRoot fun gs m inv own => ?_
  subst own
  obtain ⟨top, root⟩ := inv.levels.root
  have known : ∀ a l, some (m.rootOffset, top) = some (a, l) → Known gs m a l := by
    rintro a l ⟨⟩
    exact root
  by_cases high : level ≤ top
  · refine ⟨_, .readRoot known (inv.views.atTop t) (by simp), ?_⟩
    refine conforms_mono (conforms_findNodeLoop key level fromSmo cfg.loopBound m.rootOffset true top _ rfl length
      (Or.inl high)) fun _ _ descended => descended
  · -- the thread's highest lock is the root's: nothing linked stands higher
    have smo : fromSmo = true := by
      cases fromSmo with
      | true => rfl
      | false => exact absurd (bottom rfl) (by omega)
    have head : (gs t).smo.held.head? = some m.rootOffset := by
      cases held : (gs t).smo.held with
      | nil => simp [held] at length; have := length smo; omega
      | cons b rest =>
        have size := length smo
        rw [held, List.length_cons] at size
        have chained := inv.chains.chain t [] b rest held
        have low := inv.levels.below b _ top chained.1 root.1
        obtain rfl : rest.length = top := by omega
        rw [List.head?_cons, inv.levels.topmost b _ chained root.1]
    refine ⟨_, .readRoot known (fun _ : true = true => head) (by simp), ?_⟩
    refine conforms_mono (conforms_findNodeLoop key level fromSmo cfg.loopBound m.rootOffset true top _ rfl length
      (Or.inr ⟨rfl, rfl⟩)) fun _ _ descended => descended

/-! ## Climbing -/

/-- A thread that holds the locks and has the node to link, if any. -/
def climbing (held : List GlobalAddress) (pending : Option (GlobalAddress × ℕ × Key)) : Smo Key :=
  ⟨held, fun _ => false, none, none, [], none, pending⟩

/-- The pending node is linked and nothing else has changed but the thread's view. -/
def Climbed (held : List GlobalAddress) (put : Put Key Value) (g : Local Key Value) : Prop :=
  ∃ view, g = ⟨climbing held none, view, put⟩

section
variable {A : Type} {post : A → Local Key Value → Prop} {a c new : GlobalAddress} {rest : List GlobalAddress} {key : Key}
  {g : Local Key Value}

theorem conforms_readRoot_atTop {site : Site} {f : GlobalAddress → Index Key Value A} (atTop : g.view.atTop = true)
    (held : g.smo.held = a :: rest) (next : Conforms cfg t post (f a) g) :
    Conforms cfg t post (readRoot site >>= f) g := by
  refine conforms_readRoot fun gs m inv own => ?_
  subst own
  have root : m.rootOffset = a := by
    have head := inv.views.atTop t atTop
    simpa [held] using head.symm
  refine ⟨_, .readRoot (inv.views.target t) (inv.views.atTop t) (fun _ => atTop), ?_⟩
  rw [root]
  exact next

theorem conforms_writeFresh {site : Site} {n : Node Key} {f : Unit → Index Key Value A}
    (fresh : g.smo.fresh = some (new, none)) (atTop : site = .setupNewRoot → g.view.atTop = true)
    (unlocked : n.Unlocked cfg) (next : Conforms cfg t post (f ()) { g with smo := { g.smo with fresh := some (new, some n) } }) :
    Conforms cfg t post (writeNode site new n >>= f) g := by
  refine conforms_writeNode fun gs m inv own => ?_
  subst own
  exact ⟨_, .writeFresh fresh atTop unlocked, next⟩

theorem conforms_allocFresh {site : Site} {f : GlobalAddress → Index Key Value A}
    (fresh : g.smo.fresh = none) (atTop : site = .setupNewRoot → g.view.atTop = true)
    (next : ∀ new, Conforms cfg t post (f new) { g with smo := { g.smo with fresh := some (new, none) } }) :
    Conforms cfg t post (allocNode site >>= f) g := by
  refine conforms_allocNode fun gs m new inv own unused => ?_
  subst own
  exact ⟨_, .allocNode unused fresh atTop, next new⟩

theorem conforms_growRoot {level : ℕ} {f : GlobalAddress → Index Key Value A} (held : g.smo.held = a :: rest)
    (atTop : g.view.atTop = true) (pending : g.smo.pending = some (c, level, key)) (length : rest.length = level)
    (fresh : g.smo.fresh = some (new, some (.internal (newRoot key a c (level + 1)))))
    (next : Conforms cfg t post (f a)
      { g with smo := { g.smo with fresh := none, pending := none }, view := { g.view with atTop := false } }) :
    Conforms cfg t post (casRoot .setupNewRoot a new >>= f) g := by
  refine conforms_perform fun gs m choice r m' inv own done => ?_
  subst own
  have root : m.rootOffset = a := by
    have head := inv.views.atTop t atTop
    simpa [held] using head.symm
  simp only [Memory.exec, if_pos root] at done
  cases done
  rw [root]
  exact ⟨_, .rootGrown held atTop root pending length fresh, next⟩

theorem conforms_setupNewRoot {view : View} {put : Put Key Value} (atTop : view.atTop = true) :
    Conforms cfg t (fun _ => Climbed (a :: rest) put) (setupNewRoot key c (rest.length + 1))
      ⟨climbing (a :: rest) (some (c, rest.length, key)), view, put⟩ := by
  unfold setupNewRoot
  refine conforms_allocFresh rfl (fun _ => atTop) fun new => ?_
  refine conforms_readRoot_atTop atTop rfl ?_
  refine conforms_writeFresh rfl (fun _ => atTop) rfl ?_
  refine conforms_readRoot_atTop atTop rfl ?_
  refine conforms_growRoot rfl atTop rfl rfl rfl ?_
  rw [if_pos rfl]
  exact ⟨_, rfl⟩

theorem conforms_lock {site : Site} {f : BitVec 64 → Index Key Value A}
    (target : g.view.target = some (a, g.smo.held.length)) (clear : ∀ i, g.smo.slots i = false)
    (length : ∀ c level key, g.smo.pending = some (c, level, key) → g.smo.held.length = level + 1)
    (taken : Conforms cfg t post (f 0)
      { g with
        smo := { g.smo with held := a :: g.smo.held, node := none, kept := none, keyed := [] }
        view := { g.view with waiting := none, atTop := false } })
    (failed : ∀ found view, found ≠ 0 → Conforms cfg t post (f found) { g with view }) :
    Conforms cfg t post (casLock site a 0 1 >>= f) g := by
  refine conforms_casLock (fun gs m n inv own there unlocked => ?_) (fun gs m n inv own there locked => ?_)
  · subst own
    exact ⟨_, .lockTaken there unlocked target clear length, taken⟩
  · subst own
    exact ⟨_, .lockFailed there locked target, failed _ _ locked⟩

theorem conforms_release {site : Site} {f : Unit → Index Key Value A} (held : g.smo.held = a :: rest)
    (clear : ∀ i, g.smo.slots i = false)
    (length : ∀ c level key, g.smo.pending = some (c, level, key) → rest.length = level + 1)
    (next : Conforms cfg t post (f ())
      { g with
        smo := { g.smo with held := rest, node := none, kept := none, keyed := [] }
        view := { g.view with waiting := none, atTop := false } }) :
    Conforms cfg t post (faaLock site a (-1) >>= f) g := by
  refine conforms_faaLock fun gs m n inv own there => ?_
  subst own
  exact ⟨_, .released there held clear length, next⟩

theorem conforms_glance {level : ℕ} {f : Node Key → Index Key Value A}
    (next : ∀ n view, Conforms cfg t post (f n) { g with view }) :
    Conforms cfg t post (readNode (.insertInternalEntry level) a >>= f) g := by
  refine conforms_readNode fun gs m n inv own there => ?_
  subst own
  exact ⟨_, .readNode there (inv.views.target t) (by simp) (by simp) (by simp), next n _⟩

theorem conforms_readHeld {level : ℕ} {b : GlobalAddress} {f : Node Key → Index Key Value A}
    (held : g.smo.held = a :: b :: rest)
    (next : ∀ n, Conforms cfg t post (f (.internal n)) { g with smo := { g.smo with node := some n } }) :
    Conforms cfg t post (readNode (.insertInternalEntry level) a >>= f) g := by
  refine conforms_readNode fun gs m n inv own there => ?_
  subst own
  have mine : a ∈ (gs t).smo.held := by simp [held]
  have born := inv.born_of_held mine there
  have high : Known gs m a (rest.length + 1) := inv.chains.chain t [] a (b :: rest) held
  obtain ⟨node, rfl, -⟩ := inv.levels.children born (hasLevel_unique ⟨n, born, rfl⟩ high.1)
  exact ⟨_, .readHeld there (by simp [held]), next node⟩

section
variable {b p : GlobalAddress} {n : InternalNode Key} {level : ℕ}

theorem conforms_abandon {site : Site} {i : ℕ} {f : Unit → Index Key Value A} (held : g.smo.held = a :: rest)
    (noted : g.smo.node = some n) (pending : g.smo.pending = some (c, level, key)) (length : rest.length = level + 1)
    (covers : n.header.covers key) (bound : i ≤ n.header.lastIndex) (same : (n.entries i).key = key)
    (next : Conforms cfg t post (f ())
      { g with
        smo := { g.smo with held := rest, node := none, kept := none, keyed := [], pending := none }
        view := { g.view with waiting := none, atTop := false } }) :
    Conforms cfg t post (faaLock site a (-1) >>= f) g := by
  refine conforms_faaLock fun gs m x inv own there => ?_
  subst own
  obtain ⟨b, head, born⟩ := inv.notes.node t n noted
  obtain rfl : a = b := by simpa [held] using head
  obtain rfl : x = .internal n := Option.some.inj (there.symm.trans born.1)
  exact ⟨_, .abandoned there held noted pending length covers bound same, next⟩

theorem conforms_link {site : Site} {f : Unit → Index Key Value A} (held : g.smo.held = a :: rest)
    (noted : g.smo.node = some n) (pending : g.smo.pending = some (c, level, key)) (length : rest.length = level + 1)
    (covers : n.header.covers key) (absent : ∀ i ≤ n.header.lastIndex, (n.entries i).key ≠ key)
    (room : n.header.lastIndex + 1 < cfg.branchFactor) (fresh : g.smo.fresh = none)
    (next : Conforms cfg t post (f ()) { g with smo := { g.smo with node := none, pending := none } }) :
    Conforms cfg t post (writeNode site a (.internal (n.withSeparator key c)) >>= f) g := by
  refine conforms_writeNode fun gs m inv own => ?_
  subst own
  exact ⟨_, .linked held noted pending length covers absent room fresh, next⟩

theorem conforms_splitNode {site : Site} {f : Unit → Index Key Value A} (held : g.smo.held = a :: rest)
    (noted : g.smo.node = some n) (pending : g.smo.pending = some (c, level, key)) (length : rest.length = level + 1)
    (covers : n.header.covers key) (absent : ∀ i ≤ n.header.lastIndex, (n.entries i).key ≠ key)
    (full : n.header.lastIndex + 1 = cfg.branchFactor) (middle : splitMiddle cfg.branchFactor < cfg.branchFactor - 1)
    (fresh : g.smo.fresh = some (new, some (.internal (n.splitRight cfg.branchFactor key c))))
    (next : Conforms cfg t post (f ()) { g with smo :=
      { g.smo with
        node := none, fresh := none, pending := some (new, level + 1, n.middleKey cfg.branchFactor key c) } }) :
    Conforms cfg t post (writeNode site a (.internal (n.splitLeft cfg.branchFactor key c)) >>= f) g := by
  refine conforms_writeNode fun gs m inv own => ?_
  subst own
  exact ⟨_, .nodeSplit held noted pending length covers absent full middle fresh, next⟩

/-- What `insert_internal_entry` does one level up. -/
def Climbs (cfg : Config) (t : Thread) (insertAbove : Key → GlobalAddress → ℕ → Index Key Value Bool) : Prop :=
  ∀ key c b rest view (put : Put Key Value),
    Conforms cfg t (fun ok g => ok = true → Climbed (b :: rest) put g) (insertAbove key c (rest.length + 1))
      ⟨climbing (b :: rest) (some (c, rest.length, key)), view, put⟩

section
variable {insertAbove : Key → GlobalAddress → ℕ → Index Key Value Bool} (climbs : Climbs cfg t insertAbove)
include climbs

theorem conforms_splitInternalNode {view : View} {put : Put Key Value} (length : rest.length = level + 1)
    (covers : n.header.covers key) (absent : ∀ i ≤ n.header.lastIndex, (n.entries i).key ≠ key)
    (leveled : n.header.level = rest.length) :
    Conforms cfg t (fun _ => Climbed (a :: rest) put) (splitInternalNode cfg insertAbove a n key c)
      ⟨{ climbing (a :: rest) (some (c, level, key)) with node := some n }, view, put⟩ := by
  unfold splitInternalNode
  split
  · trivial
  rename_i shape
  simp only [not_or, not_not, not_le] at shape
  refine conforms_allocFresh rfl (by simp) fun new => ?_
  refine conforms_writeFresh rfl (by simp) rfl ?_
  refine conforms_splitNode rfl rfl rfl length covers absent (by omega) shape.2 rfl ?_
  rw [leveled, ← length]
  refine conforms_bind (conforms_mono (climbs _ new a rest view put) fun ok g climbed => ?_)
  cases ok with
  | false => trivial
  | true => exact climbed rfl

theorem conforms_insertInternalEntryLoop (attempts : ℕ) (view : View) (put : Put Key Value) :
    Conforms cfg t (fun ok g => ok = true → Climbed (b :: rest) put g)
      (insertInternalEntryLoop cfg insertAbove key c (rest.length + 1) attempts)
      ⟨climbing (b :: rest) (some (c, rest.length, key)), view, put⟩ := by
  induction attempts generalizing view with
  | zero => exact fun not => absurd not (by simp)
  | succ attempts ih =>
    unfold insertInternalEntryLoop
    refine conforms_bind (conforms_mono (conforms_findNode key (rest.length + 1) true _ (by simp [climbing]) (by simp)) ?_)
    rintro ⟨result, p⟩ g' ⟨view, rfl, found, top⟩
    cases result with
    | unknown => trivial
    | noSuchLevel => exact conforms_mono (conforms_setupNewRoot (top rfl)) fun _ _ climbed _ => climbed
    | locked => exact ih view
    | found =>
      refine conforms_lock (found rfl) (by simp [climbing]) (by simp [climbing]) ?_ ?_
      · refine conforms_readHeld rfl fun n => ?_
        rw [if_neg (not_not.2 rfl)]
        by_cases wrong : (Node.internal n).header.level ≠ rest.length + 1
        · rw [if_pos wrong]
          trivial
        rw [if_neg wrong]
        have leveled : n.header.level = rest.length + 1 := not_not.1 wrong
        by_cases covers : (Node.internal n).header.covers key
        swap
        · -- the fence has moved: give the lock back and descend again
          rw [if_pos covers]
          refine conforms_release rfl (by simp [climbing]) (by simp [climbing]) ?_
          exact ih _
        rw [if_neg (not_not.2 covers)]
        dsimp only [Node.asInternal]
        split
        · rename_i present
          obtain ⟨i, inside, same⟩ := List.any_eq_true.1 present
          refine conforms_abandon rfl rfl rfl rfl covers (Nat.lt_succ_iff.1 (List.mem_range.1 inside))
            (by simpa using same) ?_
          exact fun _ => ⟨_, rfl⟩
        rename_i absent
        have absent' : ∀ i ≤ n.header.lastIndex, (n.entries i).key ≠ key := by
          intro i bound same
          exact absent (List.any_eq_true.2 ⟨i, List.mem_range.2 (by omega), by simpa using same⟩)
        split
        · refine conforms_bind (conforms_mono (conforms_splitInternalNode climbs rfl covers absent' leveled) ?_)
          rintro - g' ⟨view, rfl⟩
          refine conforms_release rfl (by simp [climbing]) (by simp [climbing]) ?_
          exact fun _ => ⟨_, rfl⟩
        · refine conforms_link rfl rfl rfl rfl covers absent' (by omega) rfl ?_
          refine conforms_release rfl (by simp [climbing]) (by simp) ?_
          exact fun _ => ⟨_, rfl⟩
      · intro found view locked
        refine conforms_glance fun n view => ?_
        rw [if_pos locked]
        exact ih view

end

theorem conforms_insertInternalEntry (depth : ℕ) : 
    Climbs cfg t (insertInternalEntry cfg depth : Key → GlobalAddress → ℕ → Index Key Value Bool) := by
  induction depth with
  | zero => exact fun _ _ _ _ _ _ => trivial
  | succ depth ih => exact fun key c b rest view put => conforms_insertInternalEntryLoop ih cfg.maxAttempts view put

end

end

/-! ## Splitting a leaf -/

section
variable {A : Type} {post : A → Local Key Value → Prop} {a : GlobalAddress} {view : View} {put : Put Key Value}

/-- A thread that splits the leaf, with the slots it has locked. -/
def splitting (a : GlobalAddress) (slots : ℕ → Bool) (kept : Option (LeafNode Key)) (keyed : List (Key × KVBlock)) : Smo Key :=
  ⟨[a], slots, none, kept, keyed, none, none⟩

theorem conforms_lockSlots (slots : ℕ → Bool) (l : List ℕ) (distinct : l.Nodup)
    (free : ∀ i ∈ l, slots i = false ∧ i < cfg.branchFactor) :
    Conforms cfg t (fun _ g => ∃ locked, g = ⟨splitting a locked none [], view, put⟩ ∧
        ∀ i, locked i = (slots i || decide (i ∈ l)))
      (lockUnlockKvblocks a true l) ⟨splitting a slots none [], view, put⟩ := by
  induction l generalizing slots with
  | nil => exact ⟨slots, rfl, by simp⟩
  | cons i rest ih =>
    obtain ⟨new, distinct⟩ := List.nodup_cons.1 distinct
    obtain ⟨unlocked, bound⟩ := free i List.mem_cons_self
    unfold lockUnlockKvblocks
    refine conforms_faaBlock fun gs m leaf inv own there => ?_
    have step : Permits cfg t gs m ⟨.splitLeaf a, .faaBlock a i 1⟩ ()
        (m.setNode a (.leaf (leaf.setBlock i ((leaf.kvBlocks i).add 1))))
        { gs t with smo := { (gs t).smo with slots := Function.update (gs t).smo.slots i true } } :=
      .slotLocked there (by rw [own]; rfl) (by rw [own]; exact unlocked) bound (by rw [own]; rfl) (by rw [own]; rfl)
    rw [own] at step
    refine ⟨_, step, conforms_mono (ih (Function.update slots i true) distinct fun j later => ?_) ?_⟩
    · have other : j ≠ i := fun same => new (same ▸ later)
      rw [Function.update_of_ne other]
      exact free j (List.mem_cons_of_mem _ later)
    · rintro - g ⟨locked, rfl, eq⟩
      refine ⟨locked, rfl, fun j => ?_⟩
      rw [eq]
      by_cases same : j = i
      · subst same
        simp
      · simp [same]

theorem conforms_unlockSlots (slots : ℕ → Bool) (kept : Option (LeafNode Key)) (keyed : List (Key × KVBlock)) (l : List ℕ)
    (distinct : l.Nodup) (locked : ∀ i ∈ l, slots i = true ∧ i < cfg.branchFactor) :
    Conforms cfg t (fun _ g => ∃ left kept keyed, g = ⟨splitting a left kept keyed, view, put⟩ ∧
        ∀ i, left i = (slots i && !decide (i ∈ l)))
      (lockUnlockKvblocks a false l) ⟨splitting a slots kept keyed, view, put⟩ := by
  induction l generalizing slots kept keyed with
  | nil => exact ⟨slots, kept, keyed, rfl, by simp⟩
  | cons i rest ih =>
    obtain ⟨new, distinct⟩ := List.nodup_cons.1 distinct
    obtain ⟨taken, bound⟩ := locked i List.mem_cons_self
    unfold lockUnlockKvblocks
    refine conforms_faaBlock fun gs m leaf inv own there => ?_
    have step : Permits cfg t gs m ⟨.splitLeaf a, .faaBlock a i (-1)⟩ ()
        (m.setNode a (.leaf (leaf.setBlock i ((leaf.kvBlocks i).add (-1)))))
        { gs t with smo :=
          { (gs t).smo with slots := Function.update (gs t).smo.slots i false, kept := none, keyed := [] } } :=
      .slotUnlocked there (by rw [own]; rfl) (by rw [own]; exact taken) bound (by rw [own]; rfl)
    rw [own] at step
    refine ⟨_, step, conforms_mono (ih (Function.update slots i false) none [] distinct fun j later => ?_) ?_⟩
    · have other : j ≠ i := fun same => new (same ▸ later)
      rw [Function.update_of_ne other]
      exact locked j (List.mem_cons_of_mem _ later)
    · rintro - g ⟨left, kept, keyed, rfl, eq⟩
      refine ⟨left, kept, keyed, rfl, fun j => ?_⟩
      rw [eq]
      by_cases same : j = i
      · subst same
        simp
      · simp [same]

theorem conforms_readKept {slots : ℕ → Bool} {f : Node Key → Index Key Value A}
    (locked : ∀ i < cfg.branchFactor, slots i = true)
    (next : ∀ leaf, Conforms cfg t post (f (.leaf leaf)) ⟨splitting a slots (some leaf) [], view, put⟩) :
    Conforms cfg t post (readNode (.splitLeaf a) a >>= f) ⟨splitting a slots none [], view, put⟩ := by
  -- the locked node at the bottom of a chain is a leaf
  refine conforms_readNode fun gs m n inv own there => ?_
  have held : (gs t).smo.held = [a] := by rw [own]; rfl
  have born := inv.born_of_held (t := t) (by rw [held]; exact List.mem_singleton_self a) there
  have bottom := hasLevel_unique ⟨n, born, rfl⟩ (inv.chains.chain t [] a [] held).1
  cases n with
  | internal node =>
    obtain ⟨below, eq, -⟩ := inv.levels.sound a _ born
    rw [Node.header, eq] at bottom
    cases bottom
  | leaf leaf =>
    have step : Permits cfg t gs m ⟨.splitLeaf a, .readNode a⟩ (.leaf leaf) m
        { gs t with smo := { (gs t).smo with kept := some leaf, keyed := [] } } :=
      .readKept there held (by rw [own]; exact locked)
    rw [own] at step
    exact ⟨_, step, next leaf⟩

theorem conforms_readLeafKeys {slots : ℕ → Bool} {leaf : LeafNode Key} (keyed : List (Key × KVBlock)) (l : List ℕ)
    (taken : ∀ i ∈ l, i ∈ takenIndices cfg.branchFactor leaf) :
    Conforms cfg t (fun read g => g = ⟨splitting a slots (some leaf) (keyed ++ read), view, put⟩ ∧
        read.map Prod.snd = l.map leaf.kvBlocks)
      (readLeafKeys a leaf l) ⟨splitting a slots (some leaf) keyed, view, put⟩ := by
  induction l generalizing keyed with
  | nil => exact ⟨by simp, rfl⟩
  | cons i rest ih =>
    unfold readLeafKeys
    refine conforms_readKey fun gs m inv own => ?_
    have step : Permits cfg t gs m ⟨.splitLeaf a, .readKey (leaf.kvBlocks i).getAddr⟩
        (m.items (leaf.kvBlocks i).getAddr).key m
        { gs t with smo :=
          { (gs t).smo with
            keyed := (gs t).smo.keyed ++ [((m.items (leaf.kvBlocks i).getAddr).key, leaf.kvBlocks i)] } } :=
      .readKeptKey (by rw [own]; rfl) (by rw [own]; rfl) (taken i List.mem_cons_self)
    rw [own] at step
    refine ⟨_, step, conforms_bind (conforms_mono
      (ih (keyed ++ [((m.items (leaf.kvBlocks i).getAddr).key, leaf.kvBlocks i)])
        fun j later => taken j (List.mem_cons_of_mem _ later)) ?_)⟩
    rintro read g ⟨rfl, eq⟩
    refine ⟨by simp, ?_⟩
    simp [eq]

def Cleared (b : KVBlock) : Prop := b.isFree = true ∧ b.isLocked = false

omit [LinearOrder Key] [BoundedOrder Key] [KeyBytes Key] in
theorem cleared_clearedBlock (random : KVBlock) : Cleared (clearedBlock random) := by
  simp [Cleared, clearedBlock]

omit [LinearOrder Key] [BoundedOrder Key] [KeyBytes Key] in
theorem yields_setDifferentRandomFpAddr {site : Site} {b : KVBlock} {f : KVBlock → Index Key Value A}
    {trace : List (Sigma (signature Key Value).Reply)} {result : A}
    (yields : Yields (setDifferentRandomFpAddr site b >>= f) trace result) : ∃ random later, Yields (f random) later result := by
  obtain ⟨fp, rest, rfl, later⟩ := yields_perform yields
  obtain ⟨addr, last, rfl, latest⟩ := yields_perform later
  exact ⟨_, last, latest⟩

omit [LinearOrder Key] [BoundedOrder Key] [KeyBytes Key] in
/-- The listed slots are cleared, except that an odd count spares slot `middle` of the new leaf. -/
theorem yields_clearSlots {odd : Bool} {middle : ℕ} {l : List ℕ} {left right : ℕ → KVBlock} (distinct : l.Nodup)
    {trace : List (Sigma (signature Key Value).Reply)} {blocks : (ℕ → KVBlock) × (ℕ → KVBlock)}
    (yields : Yields (clearSlots a odd middle l left right : Index Key Value _) trace blocks) (i : ℕ) :
    (i ∉ l → blocks.1 i = left i ∧ blocks.2 i = right i) ∧
      (i ∈ l → Cleared (blocks.1 i) ∧ (middle < i ∨ odd = false → Cleared (blocks.2 i))) := by
  induction l generalizing left right trace with
  | nil =>
    obtain rfl := (yields_value yields).2
    simp
  | cons j rest ih =>
    obtain ⟨new, distinct⟩ := List.nodup_cons.1 distinct
    unfold clearSlots at yields
    obtain ⟨random, _, yields⟩ := yields_setDifferentRandomFpAddr yields
    split at yields
    · obtain ⟨random', _, yields⟩ := yields_setDifferentRandomFpAddr yields
      have spec := ih distinct yields
      refine ⟨fun outside => ?_, fun inside => ?_⟩
      · obtain ⟨other, later⟩ := not_or.1 (fun is => outside (List.mem_cons.2 is))
        obtain ⟨one, two⟩ := spec.1 later
        rw [one, two, Function.update_of_ne other, Function.update_of_ne other]
        exact ⟨rfl, rfl⟩
      · rcases List.mem_cons.1 inside with rfl | later
        · obtain ⟨one, two⟩ := spec.1 new
          rw [one, two, Function.update_self, Function.update_self]
          exact ⟨cleared_clearedBlock _, fun _ => cleared_clearedBlock _⟩
        · exact spec.2 later
    · rename_i spared
      have spec := ih distinct yields
      refine ⟨fun outside => ?_, fun inside => ?_⟩
      · obtain ⟨other, later⟩ := not_or.1 (fun is => outside (List.mem_cons.2 is))
        obtain ⟨one, two⟩ := spec.1 later
        rw [one, two, Function.update_of_ne other]
        exact ⟨rfl, rfl⟩
      · rcases List.mem_cons.1 inside with rfl | later
        · rw [(spec.1 new).1, Function.update_self]
          exact ⟨cleared_clearedBlock _, fun is => absurd is spared⟩
        · exact spec.2 later

omit [LinearOrder Key] [BoundedOrder Key] [KeyBytes Key] in
theorem distributes_blocks {leaf : LeafNode Key} {entries : List (Key × KVBlock)} {middleKey : Key} {left right : ℕ → KVBlock}
    (cleared : ∀ i, entries.length / 2 ≤ i → i < cfg.branchFactor →
      Cleared (left i) ∧ (entries.length / 2 < i ∨ entries.length % 2 = 0 → Cleared (right i))) :
    Distributes cfg leaf entries middleKey
      { header := { leaf.header with fence := (leaf.header.fence.1, middleKey) }
        kvBlocks := leftBlocks entries (entries.length / 2) left }
      { header := .zero (middleKey, leaf.header.fence.2)
        kvBlocks := rightBlocks entries (entries.length / 2) right } := by
  refine ⟨rfl, rfl, fun i low e there => ?_, fun i high bound => ?_, fun i inside e there => ?_, fun i high bound => ?_⟩
  · simp only [leftBlocks, there, if_pos low]
  · have eq : leftBlocks entries (entries.length / 2) left i = left i := by
      unfold leftBlocks
      split
      · rw [if_neg (by omega)]
      · rfl
    simp only [eq]
    exact (cleared i high bound).1
  · dsimp only
    unfold rightBlocks
    by_cases low : i < entries.length / 2
    · simp only [if_pos low, there]
    · -- an odd count leaves its last entry at the middle
      have here : i = entries.length / 2 := by omega
      have last : entries.getLast? = some e := by
        rw [List.getLast?_eq_getElem?, ← there]
        congr 1
        omega
      rw [if_neg low, if_pos ⟨here, by omega⟩]
      simp only [last]
  · have eq : rightBlocks entries (entries.length / 2) right i = right i := by
      unfold rightBlocks
      rw [if_neg (by omega), if_neg (by omega)]
    simp only [eq]
    exact (cleared i (by omega) bound).2 (by omega)

omit [LinearOrder Key] [BoundedOrder Key] [KeyBytes Key] in
theorem yields_distribute {leaf : LeafNode Key} {entries : List (Key × KVBlock)} {middleKey : Key}
    {trace : List (Sigma (signature Key Value).Reply)} {leaves : LeafNode Key × LeafNode Key}
    (yields : Yields (distribute cfg a leaf entries middleKey : Index Key Value _) trace leaves) :
    Distributes cfg leaf entries middleKey leaves.1 leaves.2 := by
  have distinct : ((List.range cfg.branchFactor).drop (entries.length / 2)).Nodup := List.nodup_range.sublist (List.drop_sublist _ _)
  obtain ⟨_, blocks, _, -, clears, rest⟩ := yields_bind yields
  obtain rfl := (yields_value rest).2
  refine distributes_blocks fun i high bound => ?_
  have inside : i ∈ (List.range cfg.branchFactor).drop (entries.length / 2) := by
    refine List.mem_iff_getElem.2 ⟨i - entries.length / 2, by simp; omega, ?_⟩
    simp
    omega
  obtain ⟨one, two⟩ := (yields_clearSlots distinct clears i).2 inside
  refine ⟨one, fun room => two ?_⟩
  rcases room with high | even
  · exact Or.inl high
  · exact Or.inr (by simp [even])

theorem conforms_clearSlots {g : Local Key Value} (odd : Bool) (middle : ℕ) (l : List ℕ) (left right : ℕ → KVBlock) :
    Conforms cfg t (fun _ g' => g' = g) (clearSlots a odd middle l left right) g := by
  induction l generalizing left right with
  | nil => rfl
  | cons i rest ih =>
    unfold clearSlots
    refine conforms_setDifferentRandomFpAddr fun random => ?_
    split
    · exact conforms_setDifferentRandomFpAddr fun random' => ih _ _
    · exact ih _ _

theorem conforms_distribute {g : Local Key Value} (leaf : LeafNode Key) (entries : List (Key × KVBlock)) (middleKey : Key) :
    Conforms cfg t (fun leaves g' => g' = g ∧ Distributes cfg leaf entries middleKey leaves.1 leaves.2)
      (distribute cfg a leaf entries middleKey) g := by
  have quiet : Conforms cfg t (fun _ g' => g' = g) (distribute cfg a leaf entries middleKey) g :=
    conforms_bind (conforms_mono (conforms_clearSlots _ _ _ _ _) fun _ _ same => same)
  refine conforms_mono (follows_yields quiet) ?_
  rintro leaves g' ⟨same, trace, yields⟩
  exact ⟨same, yields_distribute yields⟩

/-- What a split leaves of its thread's part in modifications. -/
def Rested (put : Put Key Value) (g : Local Key Value) : Prop := ∃ view, g = ⟨.idle, view, put⟩

theorem conforms_splitLeaf (target : view.target = some (a, 0)) :
    Conforms cfg t (fun _ => Rested put) (splitLeaf cfg a) ⟨.idle, view, put⟩ := by
  unfold splitLeaf
  refine conforms_lock target (fun _ => rfl) (by simp [Smo.idle]) ?_ ?_
  swap
  · intro found view locked
    rw [if_pos locked]
    exact ⟨view, rfl⟩
  rw [if_neg (not_not.2 rfl)]
  refine conforms_bind (conforms_mono (conforms_lockSlots (fun _ => false) _ List.nodup_range fun i inside =>
    ⟨rfl, List.mem_range.1 inside⟩) ?_)
  rintro - g ⟨slots, rfl, locked⟩
  have all : ∀ i < cfg.branchFactor, slots i = true := fun i bound => by simp [locked, bound]
  refine conforms_readKept all fun leaf => ?_
  dsimp only [Node.asLeaf]
  split
  · trivial
  refine conforms_bind (conforms_mono (conforms_readLeafKeys [] _ fun i inside => inside) ?_)
  rintro keyed g ⟨rfl, blocks⟩
  rw [List.nil_append]
  split
  · -- too few entries: unlock everything and give up
    refine conforms_bind (conforms_mono (conforms_unlockSlots _ _ _ _ List.nodup_range fun i inside =>
      ⟨all i (List.mem_range.1 inside), List.mem_range.1 inside⟩) ?_)
    rintro - g ⟨left, kept, keyed, rfl, unlocked⟩
    have none : left = fun _ => false := by
      funext i
      rw [unlocked, locked]
      simp
    subst none
    exact conforms_release rfl (fun _ => rfl) (by simp [splitting]) ⟨_, rfl⟩
  · rename_i long
    refine conforms_allocFresh rfl (by simp) fun new => ?_
    split
    · trivial
    rename_i middleKey block middle
    refine conforms_bind (conforms_mono (conforms_distribute leaf (OrderedMap.ofList keyed) middleKey) ?_)
    rintro ⟨left, right⟩ g ⟨rfl, distributes⟩
    refine conforms_writeFresh rfl (by simp) ⟨by rw [distributes.rightHeader]; rfl, fun _ => distributes.right_unlocked⟩ ?_
    refine conforms_writeNode fun gs m inv own => ?_
    have step : Permits cfg t gs m ⟨.splitLeaf a, .writeNode a (.leaf left)⟩ () (m.setNode a (.leaf left))
        { gs t with smo :=
          { (gs t).smo with
            slots := fun _ => false, kept := none, keyed := [], fresh := none, pending := some (new, 0, middleKey) } } :=
      .leafSplit (by rw [own]; rfl) (by rw [own]; rfl) (by rw [own]; rfl) (by rw [own]; exact blocks) (by rw [own]; rfl)
        (not_le.1 long) middle distributes (by rw [own])
    rw [own] at step
    refine ⟨_, step, ?_⟩
    refine conforms_bind (conforms_mono (conforms_insertInternalEntry cfg.loopBound middleKey new a [] _ put) ?_)
    rintro ok g climbed
    cases ok with
    | false => trivial
    | true =>
      obtain ⟨view, rfl⟩ := climbed rfl
      refine conforms_release rfl (fun _ => rfl) (by simp [climbing]) ⟨_, rfl⟩

end

end Faunus
