import Faunus.Sherman.Cached

/-! What a read through the cache returns.

Leaves stay leaves and keep their lower ends, so every old level-1 page still leads to a
leaf that starts at or before the key. From there a read steps to the right. The step sets
`slibing`, and nothing resets it: a key that is absent is then searched for ever.
-/

set_option autoImplicit false

namespace Faunus.Sherman

open Interleaving Tiling

variable {Key Value : Type} [LinearOrder Key] [BoundedOrder Key]

/-! ## Old pages -/

/-- The children of the page are leaves that start at the keys that it records. -/
structure CacheEntry.Valid (m : Memory Key Value) (entry : CacheEntry Key) : Prop where
  start : entry.start = entry.page.hdr.lowest
  ordered : entry.page.Ordered
  leaves : ∀ k b, (k, b) ∈ entry.page.kids → ∃ leaf, m.pages b = some (.leaf leaf) ∧ leaf.hdr.lowest = k

/-- The entry was added with a range around the key. -/
def CacheEntry.Takes (entry : CacheEntry Key) (key : Key) : Prop := entry.start ≤ key ∧ key < entry.stop

section
variable {m m' : Memory Key Value} {entry : CacheEntry Key} {key : Key} {top : ℕ} {a : GlobalAddress} {p : Page Key}

omit [BoundedOrder Key] in
theorem CacheEntry.Valid.kept (valid : entry.Valid m) (kept : Kept m m') : entry.Valid m' := by
  refine ⟨valid.start, valid.ordered, fun k b kid => ?_⟩
  obtain ⟨leaf, there, lowest⟩ := valid.leaves k b kid
  obtain ⟨leaf', there', same⟩ := kept b leaf there
  exact ⟨leaf', there', same.trans lowest⟩

theorem Linked.valid (linked : Linked m ∅ top) (there : m.pages a = some p) (inside : entry ∈ entryOf p) : entry.Valid m := by
  cases p with
  | leaf p => cases inside
  | internal p =>
    by_cases one : p.hdr.level = 1
    swap
    · rw [entryOf, if_neg one] at inside
      cases inside
    rw [entryOf, if_pos one] at inside
    obtain rfl := List.mem_singleton.1 inside
    refine ⟨rfl, (linked.internal a p there).2, fun k b kid => ?_⟩
    obtain ⟨q, page, level, lowest⟩ := linked.child there kid
    obtain ⟨leaf, rfl⟩ := linked.leaf_of_zero page (by omega)
    exact ⟨leaf, page, lowest⟩

omit [BoundedOrder Key] in
theorem CacheEntry.Valid.leaf (valid : entry.Valid m) (takes : entry.Takes key) :
    ∃ leaf, m.pages (getLeafFromCacheEntry entry key) = some (.leaf leaf) ∧ leaf.hdr.lowest ≤ key := by
  unfold getLeafFromCacheEntry
  rw [if_neg (not_or.2 ⟨not_lt.2 takes.1, not_le.2 takes.2⟩)]
  obtain ⟨k, kid, le, -⟩ := valid.ordered.nextLevel_kid (valid.start ▸ takes.1)
  obtain ⟨leaf, there, lowest⟩ := valid.leaves k _ kid
  exact ⟨leaf, there, lowest ▸ le⟩

end

/-! ## Inserts -/

omit [LinearOrder Key] [BoundedOrder Key] in
theorem solo_next {A : Type} {t : ℕ} {post : A → Memory Key Value → Prop} {o : Op Key Value} {next : o.act.Reply → Index Key Value A}
    {m m' : Memory Key Value} {c : BitVec 64} {r : o.act.Reply} (total : Solo t post (.perform o next) m)
    (performed : Memory.exec t o c m = some (r, m')) : Solo t post (next r) m' :=
  total.2 c r m' performed m' rfl

omit [LinearOrder Key] [BoundedOrder Key] in
theorem exec_page {t : ℕ} {site : Site} {m : Memory Key Value} {a : GlobalAddress} {p : Page Key} (c : BitVec 64)
    (there : m.pages a = some p) :
    Memory.exec t ⟨site, .readPage a⟩ c m = some (p, m) := by
  simp only [Memory.exec, there]
  rfl

omit [LinearOrder Key] [BoundedOrder Key] in
theorem solo_after {A B : Type} {t : ℕ} {mid : A → Memory Key Value → Prop} {post : B → Memory Key Value → Prop}
    {p : Index Key Value A} {f : A → Index Key Value B} {m : Memory Key Value}
    (prompt : p.Only fun o : Op Key Value => ¬ o.allocates) (known : Solo t mid p m)
    (total : Solo t post (p >>= f) m) : ∃ a m', mid a m' ∧ Solo t post (f a) m' := by
  refine total_after ?_ prompt known total
  exact fun _ => rfl

section
variable [KeyBytes Key] [Bot Value] {cfg : Config} {m : Memory Key Value} {top t : ℕ} {a : GlobalAddress} {p : LeafPage Key}
  {key : Key} {path : PathStack} {map : Key → Option Value} {value : Value} (three : 3 ≤ cfg.internalCardinality)
  (two : 2 ≤ cfg.leafCardinality) (sound : Sound cfg m ∅ top) (represents : Represents cfg m map)
include three two sound represents

/-- `insert_to_leaf` behind the checks that a page around the key passes. -/
theorem solo_fillLeaf (there : m.pages a = some (.leaf p)) (covers : p.hdr.covers key) (ascent : Ascent m key top path)
    (long : top < cfg.loopBound) :
    Solo t (fun _ m' => (∃ top', Sound cfg m' ∅ top') ∧ Represents cfg m' (m.store m' map key value) ∧ Kept m m')
      (fillLeaf cfg key value m.rootOffset 0 path a (.leaf p)) (m.setLock a true) := by
  have whole : Solo t (fun _ m' => (∃ top', Sound cfg m' ∅ top') ∧ Represents cfg m' (m.store m' map key value) ∧ Kept m m')
      (insertToLeaf cfg key value m.rootOffset 0 path 1 a) m :=
    solo_insertToLeaf three two sound represents there covers ascent long Nat.zero_lt_one
  have bottom : (Page.leaf p).hdr.level = 0 := (sound.linked.leaf a p there).1
  have covers' : (Page.leaf p).hdr.covers key := covers
  have locks : Memory.exec t ⟨.insertToLeaf, .lock a⟩ 0 m = some
    ((), m.setLock a true) := by simp only [Memory.exec, sound.free a]; rfl
  have locked : (m.setLock a true).pages a = some (.leaf p) := there
  -- an insert comes to the same point
  unfold insertToLeaf at whole
  rw [lockAndReadPage, bind_assoc] at whole
  have filled := solo_next (solo_next whole locks) (exec_page 0 locked)
  dsimp only [Program.bind] at filled
  rw [if_neg (not_not.2 bottom), if_neg (not_le.2 covers'.2), if_neg (not_lt.2 covers'.1)] at filled
  exact filled

theorem solo_insertCached (value : Value) {answer : Option (CacheEntry Key)} (short : top < kMaxLevelOfTree) (below : key < ⊤)
    (long : kMaxLevelOfTree ≤ cfg.loopBound)
    (retries : kMaxLevelOfTree ≤ cfg.maxRetries) (valid : ∀ e, answer = some e → e.Valid m ∧ e.Takes key) :
    Solo t (fun ok m' => ok = true ∧ (∃ top', Sound cfg m' ∅ top') ∧ Represents cfg m' (m.store m' map key value) ∧ Kept m m')
      (insertCached cfg key value answer) m := by
  -- an old page does no harm to an insert
  have again := solo_insert (t := t) sound represents short below long three two retries value
  cases answer with
  | none => exact again
  | some entry =>
    obtain ⟨valid, takes⟩ := valid entry rfl
    obtain ⟨leaf, there, low⟩ := valid.leaf takes
    have bottom : (Page.leaf leaf).hdr.level = 0 := (sound.linked.leaf _ leaf there).1
    have free := sound.free (getLeafFromCacheEntry entry key)
    refine solo_readRoot ?_
    rw [insertToLeafFromCache, bind_assoc, lockAndReadPage, bind_assoc]
    refine solo_lock free (solo_readPage there ?_)
    rw [if_neg (not_not.2 bottom)]
    by_cases behind : (Page.leaf leaf).hdr.highest ≤ key
    · rw [if_pos (.inr behind), bind_assoc]
      exact solo_release free again
    · have low : (Page.leaf leaf).hdr.lowest ≤ key := low
      rw [if_neg (not_or.2 ⟨not_lt.2 low, behind⟩), bind_assoc]
      refine total_bind (total_mono (solo_fillLeaf three two sound represents there ⟨low, not_le.1 behind⟩ (.inr ⟨rfl, short⟩)
        (by omega)) ?_)
      exact fun _ m' holds => ⟨rfl, holds⟩

end

/-! ## Reads -/

section
variable [KeyBytes Key] [Bot Value] [DecidableEq Value] {cfg : Config} {m : Memory Key Value} {top t n : ℕ}
  {a : GlobalAddress} {p : LeafPage Key} {key : Key} {path : PathStack} {map : Key → Option Value}
  {result : SearchResult Value} {post : Option Value → Memory Key Value → Prop} (sound : Sound cfg m ∅ top)
  (represents : Represents cfg m map) (below : key < ⊤)
include sound represents

theorem solo_readLoop_found (there : m.pages a = some (.leaf p)) (covers : p.hdr.covers key) {v : Value}
    (stored : map key = some v) (nonZero : v ≠ ⊥) :
    Solo t (fun found m' => m' = m ∧ found = map key) (readLoop cfg key (n + 1) a result path) m := by
  rw [(rounds_readLoop cfg key).round]
  refine total_bind (total_mono (solo_searchNode_leaf sound represents there covers) ?_)
  rintro r m' ⟨rfl, rfl⟩
  simp only [stored, Option.getD_some, if_true]
  rw [if_pos nonZero]
  exact ⟨rfl, rfl⟩

theorem solo_readLoop_missed (there : m.pages a = some (.leaf p)) (covers : p.hdr.covers key) (absent : map key = none)
    (fresh : result.slibing = .null) (unset : result.val = ⊥) :
    Solo t (fun found m' => m' = m ∧ found = map key) (readLoop cfg key (n + 1) a result path) m := by
  rw [(rounds_readLoop cfg key).round]
  refine total_bind (total_mono (solo_searchNode_leaf sound represents there covers) ?_)
  rintro r m' ⟨rfl, rfl⟩
  simp only [absent, Option.getD_none, if_true, unset, fresh, ne_eq, not_true, if_false]
  exact ⟨rfl, rfl⟩

omit represents [Bot Value] [DecidableEq Value] in
theorem Sound.searchPage_leaf_right (result : SearchResult Value) (path : PathStack) (there : m.pages a = some (.leaf p))
    (behind : p.hdr.highest ≤ key) (below : key < ⊤) :
    ∃ q, m.pages p.hdr.siblingPtr = some (.leaf q) ∧ q.hdr.lowest = p.hdr.highest ∧ p.hdr.siblingPtr ≠ .null ∧
      searchPage cfg a (.leaf p) key result path =
        pure ({ result with isLeaf := true, level := 0, slibing := p.hdr.siblingPtr }, Function.update path 0 a) := by
  have bottom : (Page.leaf p).hdr.level = 0 := (sound.linked.leaf a p there).1
  have leftmost : (Page.leaf p).hdr.leftmostPtr = .null := (sound.linked.leaf a p there).2
  have behind' : (Page.leaf p).hdr.highest ≤ key := behind
  obtain ⟨notNull, -, q, next, same, starts⟩ := sound.linked.next there behind' below
  obtain ⟨q, rfl⟩ := sound.linked.leaf_of_zero next (same.trans bottom)
  refine ⟨q, next, starts, notNull, ?_⟩
  rw [sound.linked.searchPage_right there (by rw [bottom]; decide) behind' below, bottom, decide_eq_true leftmost]
  rfl

include below

theorem solo_readLoop_hops {v : Value} (stored : map key = some v) (nonZero : v ≠ ⊥) (there : m.pages a = some (.leaf p))
    (low : p.hdr.lowest ≤ key) (unset : result.val = ⊥) (enough : ahead m p.hdr.lowest < n) :
    Solo t (fun found m' => m' = m ∧ found = map key) (readLoop cfg key n a result path) m := by
  induction n generalizing a p result path with
  | zero => omega
  | succ n ih =>
    by_cases behind : p.hdr.highest ≤ key
    · obtain ⟨q, next, starts, notNull, eq⟩ := sound.searchPage_leaf_right result path there behind below
      have closer : ahead m q.hdr.lowest < ahead m p.hdr.lowest := sound.linked.ahead_lt there next starts
      rw [(rounds_readLoop cfg key).round, searchNode, bind_assoc]
      refine solo_readPage there ?_
      rw [eq, pure_bind]
      simp only [if_true, unset, ne_eq, not_true, if_false, notNull, not_false_eq_true]
      exact ih next (starts ▸ behind) rfl (by omega)
    · exact solo_readLoop_found sound represents there ⟨low, not_le.1 behind⟩ stored nonZero

/-- Once the search has stepped to the right, or when it is about to, a key that is absent is searched for ever. -/
theorem readLoop_turns (absent : map key = none) (there : m.pages a = some (.leaf p)) (low : p.hdr.lowest ≤ key)
    (unset : result.val = ⊥)
    (turned : p.hdr.highest ≤ key ∨ ∃ q, m.pages result.slibing = some (.leaf q) ∧ q.hdr.lowest ≤ key) :
    ¬ Solo t post (readLoop cfg key n a result path) m := by
  induction n generalizing a p result path with
  | zero => exact id
  | succ n ih =>
    intro total
    rw [(rounds_readLoop cfg key).round] at total
    by_cases behind : p.hdr.highest ≤ key
    · obtain ⟨q, next, starts, notNull, eq⟩ := sound.searchPage_leaf_right result path there behind below
      rw [searchNode, bind_assoc] at total
      have later := solo_next total (exec_page 0 there)
      change Solo t post (searchPage cfg a (.leaf p) key result path >>= _) m at later
      rw [eq, pure_bind] at later
      simp only [if_true, unset, ne_eq, not_true, if_false, notNull, not_false_eq_true] at later
      exact ih next (starts ▸ behind) rfl (.inr ⟨q, next, starts ▸ behind⟩) later
    · obtain ⟨q, slibing, low'⟩ := turned.resolve_left behind
      have prompt : (searchNode cfg a key result path).Only fun o : Op Key Value => ¬ o.allocates := by
        refine only_searchNode ?_ ?_ <;> rintro _ (waits | waits) <;> cases waits
      obtain ⟨r, m', ⟨rfl, rfl⟩, later⟩ :=
        solo_after prompt (solo_searchNode_leaf sound represents there ⟨low, not_le.1 behind⟩) total
      simp only [if_true, absent, Option.getD_none, unset, ne_eq, not_true, if_false, sound.linked.not_null slibing,
        not_false_eq_true] at later
      exact absurd later (ih slibing low' rfl (.inr ⟨q, slibing, low'⟩))

end

/-! ## Histories -/

section
variable [KeyBytes Key] [Bot Value] [DecidableEq Value]

def Call.key : Call Key Value → Key
  | .insert key _ => key
  | .read key => key

/-- An answer that the cache may give: none, or an entry that it has learned with a range around the key. -/
def MayAnswer (known : List (CacheEntry Key)) (key : Key) (answer : Option (CacheEntry Key)) : Prop :=
  ∀ entry, answer = some entry → entry ∈ known ∧ entry.Takes key

/-- What was stored, memory and what the cache has learned, after `initialize` and calls that returned. The tree fits
into `path_stack`. -/
inductive Visited (keySize t : ℕ) : (Key → Option Value) → Memory Key Value → List (CacheEntry Key) → Prop where
  | start {m m' : Memory Key Value} {choices : List (BitVec 64)} {ok : Bool} : m.Fresh →
      initializeIndex.run Memory.exec t choices m = some (ok, m') → Visited keySize t (fun _ => none) m' []
  | call {map : Key → Option Value} {m m' : Memory Key Value} {known known' : List (CacheEntry Key)} {call : Call Key Value}
      {answer : Option (CacheEntry Key)} {bound : ℕ} {choices : List (BitVec 64)} {outcome : Outcome Value} :
        Visited keySize t map m known →
      m.levels ≤ kMaxLevelOfTree → kMaxLevelOfTree ≤ bound → call.Inner → call.NonZero → MayAnswer known call.key answer →
      (call.cachedBody (.ofKeySize keySize bound) answer).run recording t choices (m, known) = some (outcome, (m', known')) →
      Visited keySize t (call.store m m' map) m' known'

/-- No answer and a tree that fits into `path_stack`; or a page that leads to the leaf around the key; or a key that is there. -/
def Served (m : Memory Key Value) (map : Key → Option Value) (key : Key) : Option (CacheEntry Key) → Prop
  | none => m.levels ≤ kMaxLevelOfTree
  | some entry => map key ≠ none ∨ ∃ leaf, m.pages (getLeafFromCacheEntry entry key) = some (.leaf leaf) ∧ key < leaf.hdr.highest

variable {keySize t : ℕ} {m m' : Memory Key Value} {map : Key → Option Value} {known : List (CacheEntry Key)} {key : Key}
  {answer : Option (CacheEntry Key)} {top : ℕ}

omit [Bot Value] [DecidableEq Value] in
theorem Sound.bound {n : ℕ} (sound : Sound (.ofKeySize keySize n) m ∅ top) (n' : ℕ) : Sound (.ofKeySize keySize n') m ∅ top :=
  ⟨sound.linked, sound.room, sound.free, fun a p there =>
    ⟨⟨(sound.stocked a p there).distinct, (sound.stocked a p there).stored⟩, (sound.stocked a p there).room⟩⟩

def Op.Reads (o : Op Key Value) : Prop := o.act = .readRoot ∨ (∃ a, o.act = .readPage a) ∨ ∃ a, o.act = .readItem a

omit [LinearOrder Key] [BoundedOrder Key] [KeyBytes Key] [Bot Value] [DecidableEq Value] in
theorem exec_reads {o : Op Key Value} (reads : o.Reads) {c : BitVec 64} {r : o.act.Reply}
    (performed : Memory.exec t o c m = some (r, m')) : m' = m := by
  obtain ⟨site, act⟩ := o
  rcases reads with rfl | ⟨a, rfl⟩ | ⟨a, rfl⟩
  · cases performed
    rfl
  · simp only [Memory.exec] at performed
    split at performed <;> cases performed
    rfl
  · cases performed
    rfl

theorem readCached_run {cfg : Config} {choices : List (BitVec 64)} {outcome : Outcome Value}
    (ran : ((Call.read key).cachedBody cfg answer).run Memory.exec t choices m = some (outcome, m')) : m' = m := by
  have reads : (readCached cfg key answer : Index Key Value (Option Value)).Only Op.Reads :=
    ⟨.inl rfl, fun _ => only_readLoop (fun a => .inr (.inr ⟨a, rfl⟩)) fun a => .inr (.inl ⟨a, rfl⟩)⟩
  have only : ((Call.read key).cachedBody cfg answer : Index Key Value (Outcome Value)).Only Op.Reads :=
    only_bind reads fun _ => trivial
  exact run_only (fun _ _ _ _ _ reads performed => exec_reads reads performed) only ran

variable [Nontrivial Key]

/-- The tree stays in order and holds what was inserted, and what the cache has learned stays valid. -/
theorem Visited.sound (visited : Visited keySize t map m known) (three : 3 ≤ kInternalCardinality keySize) :
    ∃ top, Sound (.ofKeySize keySize 0) m ∅ top ∧ Represents (.ofKeySize keySize 0) m map ∧ (∀ entry ∈ known, entry.Valid m) ∧
      ∀ key, map key ≠ some ⊥ := by
  induction visited with
  | start fresh ran =>
    obtain ⟨-, sound, represents⟩ := solo_run (solo_initializeIndex (t := t) fresh (leafCardinality_pos three 0)) ran
    exact ⟨0, sound, represents, List.forall_mem_nil _, fun _ => by simp⟩
  | @call map m m' known known' call answer bound choices outcome _ low long inner nonZero allowed ran ih =>
    obtain ⟨top, sound, represents, valid, all⟩ := ih
    obtain ⟨p, root, level, -⟩ := sound.linked.root
    have short : top < kMaxLevelOfTree := by
      rw [Memory.levels, root] at low
      exact level ▸ low
    have familiar : Familiar {e | ∃ a p, m.pages a = some p ∧ e ∈ entryOf p} m.rootOffset m :=
      ⟨fun a p there e inside => ⟨a, p, there, inside⟩, rfl⟩
    obtain ⟨ran, origin⟩ := recording_run (sees_cachedBody familiar call) ran
    -- every entry was valid before the call
    have before : ∀ entry ∈ known', entry.Valid m := by
      intro entry inside
      rcases origin entry inside with old | ⟨a, p, there, new⟩
      · exact valid entry old
      · exact sound.linked.valid there new
    cases call with
    | insert key value =>
      have inserts := solo_insertCached (t := t) three (two_le_kLeafCardinality three)
        (sound.bound bound) represents value short inner.2 long
        (by decide : 7 ≤ 1000000) fun e is => ⟨valid e (allowed e is).1, (allowed e is).2⟩
      have returns : Solo t (fun _ m' => (∃ top', Sound (.ofKeySize keySize bound) m' ∅ top') ∧
          Represents (.ofKeySize keySize bound) m' (m.store m' map key value) ∧ Kept m m')
          ((Call.insert key value).cachedBody (.ofKeySize keySize bound) answer) m :=
        total_bind (total_mono inserts fun _ _ holds => holds.2)
      obtain ⟨⟨top', sound'⟩, represents', kept⟩ := solo_run returns ran
      exact ⟨top', sound'.bound 0, represents', fun entry inside => (before entry inside).kept kept, Call.NonZero.store nonZero all⟩
    | read key =>
      obtain rfl := readCached_run ran
      exact ⟨top, sound, represents, before, all⟩

theorem readCached_astray (visited : Visited keySize t map m known) (three : 3 ≤ kInternalCardinality keySize) (below : key < ⊤)
    {entry : CacheEntry Key} (allowed : MayAnswer known key (some entry)) (absent : map key = none) {leaf : LeafPage Key}
    (there : m.pages (getLeafFromCacheEntry entry key) = some (.leaf leaf)) (behind : leaf.hdr.highest ≤ key) {bound : ℕ}
    {post : Option Value → Memory Key Value → Prop} : ¬ Solo t post (readCached (.ofKeySize keySize bound) key (some entry)) m := by
  obtain ⟨top, sound, represents, valid, -⟩ := visited.sound three
  obtain ⟨inside, takes⟩ := allowed entry rfl
  obtain ⟨leaf', there', low⟩ := (valid entry inside).leaf takes
  obtain rfl : leaf = leaf' := Page.leaf.inj (Option.some.inj (there.symm.trans there'))
  intro total
  exact readLoop_turns (sound.bound bound) represents below absent there low rfl (.inl behind) (solo_next (c := 0) total rfl)

/-- A read with an answer of the cache comes back with what was inserted if and only if the answer is one that serves. -/
theorem cached_read_iff (visited : Visited keySize t map m known) (three : 3 ≤ kInternalCardinality keySize)
    (inner : ⊥ < key ∧ key < ⊤) (allowed : MayAnswer known key answer) :
    (∃ bound, Solo t (fun found m' => m' = m ∧ found = map key) (readCached (.ofKeySize keySize bound) key answer) m) ↔
      Served m map key answer := by
  obtain ⟨top, sound, represents, valid, all⟩ := visited.sound three
  obtain ⟨p, root, level, -⟩ := sound.linked.root
  cases answer with
  | none =>
    have levels : m.levels = top + 1 := by
      rw [Memory.levels, root]
      exact congrArg (· + 1) level
    constructor
    · rintro ⟨bound, total⟩
      show m.levels ≤ kMaxLevelOfTree
      by_contra tall
      have total := solo_next (c := 0) total rfl
      change Solo t _ (readLoop (.ofKeySize keySize bound) key bound m.rootOffset .init fun _ => .null) m at total
      cases bound with
      | zero => exact total
      | succ n =>
        rw [(rounds_readLoop _ key).round, searchNode, bind_assoc] at total
        have later := solo_next total (exec_page 0 root)
        change Solo t _ (searchPage _ m.rootOffset p key .init _ >>= _) m at later
        rw [searchPage_tall (by omega)] at later
        exact later
    · intro low
      have short : top < kMaxLevelOfTree := by
        have : m.levels ≤ kMaxLevelOfTree := low
        omega
      have reads := solo_read (t := t) (sound.bound kMaxLevelOfTree) represents short inner.2 (le_refl _)
      refine ⟨kMaxLevelOfTree, total_mono reads fun found m' holds => ⟨holds.1, holds.2.trans ?_⟩⟩
      exact congrFun (masked_eq all) key
  | some entry =>
    obtain ⟨inside, takes⟩ := allowed entry rfl
    obtain ⟨leaf, there, low⟩ := (valid entry inside).leaf takes
    constructor
    · rintro ⟨bound, total⟩
      by_contra not
      obtain ⟨absent, behind⟩ := not_or.1 not
      have behind : leaf.hdr.highest ≤ key := not_lt.1 fun covers => behind ⟨leaf, there, covers⟩
      exact readCached_astray visited three inner.2 allowed (not_not.1 absent) there behind total
    · intro served
      refine ⟨ahead m leaf.hdr.lowest + 1, solo_readRoot ?_⟩
      by_cases absent : map key = none
      · obtain ⟨leaf', there', covers⟩ := served.resolve_left (not_not.2 absent)
        obtain rfl : leaf = leaf' := Page.leaf.inj (Option.some.inj (there.symm.trans there'))
        exact solo_readLoop_missed (sound.bound _) represents there ⟨low, covers⟩ absent rfl rfl
      · obtain ⟨v, stored⟩ := Option.ne_none_iff_exists'.1 absent
        have nonZero : v ≠ ⊥ := fun zero => all key (zero ▸ stored)
        exact solo_readLoop_hops (sound.bound _) represents inner.2 stored nonZero there low rfl (Nat.lt_succ_self _)

end

/-! ## A page that was read before a split -/

/-- Insert the keys one after the other, without answers of the cache. -/
def loadCached : List LongKey → ℕ → Memory LongKey LongKey × List (CacheEntry LongKey) →
    Option (Memory LongKey LongKey × List (CacheEntry LongKey))
  | [], _, s => some s
  | key :: rest, from', s =>
    if ⊥ < key ∧ key < ⊤ ∧ s.1.levels ≤ kMaxLevelOfTree then
      match ((Call.insert key key).cachedBody (.ofKeySize 194 7) none).run recording 0 (addresses from' 200) s with
      | some (_, s') => loadCached rest (from' + 200) s'
      | none => none
    else none

theorem loadCached_visited {keys : List LongKey} {from' : ℕ} {map : LongKey → Option LongKey}
    {s s' : Memory LongKey LongKey × List (CacheEntry LongKey)}
    (visited : Visited 194 0 map s.1 s.2) (loaded : loadCached keys from' s = some s') :
    ∃ map', Visited 194 0 map' s'.1 s'.2 ∧ ∀ key, key ∉ keys → map' key = map key := by
  induction keys generalizing from' map s with
  | nil =>
    cases loaded
    exact ⟨map, visited, fun _ _ => rfl⟩
  | cons key rest ih =>
    unfold loadCached at loaded
    split_ifs at loaded with fits
    split at loaded
    · rename_i outcome s₁ ran
      have inserted : (Call.insert key key).Inner := ⟨fits.1, fits.2.1⟩
      have nonZero : (Call.insert key key).NonZero := ne_of_gt fits.1
      obtain ⟨map', visited', same⟩ := ih (.call visited fits.2.2 (le_refl 7) inserted nonZero (by rintro e ⟨⟩) ran) loaded
      refine ⟨map', visited', fun k other => ?_⟩
      obtain ⟨notKey, notRest⟩ := not_or.1 (mt List.mem_cons.2 other)
      rw [same k notRest]
      exact store_of_ne notKey
    · cases loaded

/-- The first leaf splits, and then its left half. -/
def twoSplits : List LongKey := longKeys 1 25 ++ longKeys 80 25 ++ longKeys 26 25

def absentKey : LongKey := ⟨60, by decide⟩

/-- The entry leads to a leaf that ends before the key. -/
def leadsAstray (m : Memory LongKey LongKey) (key : LongKey) (entry : CacheEntry LongKey) : Bool :=
  match m.pages (getLeafFromCacheEntry entry key) with
  | some (.leaf p) => decide (entry.start ≤ key ∧ key < entry.stop ∧ p.hdr.highest ≤ key ∧ m.levels ≤ kMaxLevelOfTree)
  | _ => false

theorem twoSplits_leadAstray :
    ((loadCached twoSplits 1000 (blankLong.planted ⟨1⟩, [])).any fun s => s.2.any (leadsAstray s.1 absentKey)) = true := by
  decide +kernel

theorem twoSplits_visited : ∃ (map : LongKey → Option LongKey) (m : Memory LongKey LongKey) (known : List (CacheEntry LongKey))
    (entry : CacheEntry LongKey) (p : LeafPage LongKey), Visited 194 0 map m known ∧ m.levels ≤ kMaxLevelOfTree ∧
      map absentKey = none ∧
      MayAnswer known absentKey (some entry) ∧ m.pages (getLeafFromCacheEntry entry absentKey) = some (.leaf p) ∧
        p.hdr.highest ≤ absentKey := by
  obtain ⟨⟨m, known⟩, loaded, leads⟩ := (Option.any_eq_true _ _).1 twoSplits_leadAstray
  obtain ⟨entry, inside, leads⟩ := List.any_eq_true.1 leads
  have planted : initializeIndex.run Memory.exec 0 [1, 0, 0] blankLong = some (true, blankLong.planted ⟨1⟩) := rfl
  obtain ⟨map, visited, same⟩ := loadCached_visited (.start ⟨rfl, fun _ => rfl, fun _ => rfl⟩ planted) loaded
  unfold leadsAstray at leads
  split at leads
  · rename_i p there
    obtain ⟨start, stop, behind, levels⟩ := of_decide_eq_true leads
    refine ⟨map, m, known, entry, p, visited, levels, same absentKey (by decide +kernel), ?_, there, behind⟩
    rintro e ⟨⟩
    exact ⟨inside, start, stop⟩
  · cases leads

theorem cached_read_iff_staleEntry :
    ∃ (map : LongKey → Option LongKey) (m : Memory LongKey LongKey) (known : List (CacheEntry LongKey))
    (entry : CacheEntry LongKey), Visited 194 0 map m known ∧ MayAnswer known absentKey (some entry) ∧
    ((∃ bound, Solo 0 (fun found m' => m' = m ∧ found = map absentKey)
      (readCached (.ofKeySize 194 bound) absentKey (some entry)) m) ↔
      Served m map absentKey (some entry)) := by
  obtain ⟨map, m, known, entry, -, visited, -, -, allowed, -⟩ := twoSplits_visited
  exact ⟨map, m, known, entry, visited, allowed, cached_read_iff visited (by decide) (by decide +kernel) allowed⟩

/-- With the page from before the second split the read of an absent key does not return. -/
theorem cached_read_astray :
    ¬ ∀ (map : LongKey → Option LongKey) (m : Memory LongKey LongKey) (known : List (CacheEntry LongKey)) (key : LongKey)
    (answer : Option (CacheEntry LongKey)), Visited 194 0 map m known → ⊥ < key ∧ key < ⊤ → m.levels ≤ kMaxLevelOfTree →
      MayAnswer known key answer →
      ∃ bound, Solo 0 (fun found m' => m' = m ∧ found = map key) (readCached (.ofKeySize 194 bound) key answer) m := by
  intro claimed
  obtain ⟨map, m, known, entry, p, visited, levels, absent, allowed, there, behind⟩ := twoSplits_visited
  have inner : ⊥ < absentKey ∧ absentKey < ⊤ := by decide +kernel
  obtain ⟨bound, total⟩ := claimed map m known absentKey (some entry) visited inner levels allowed
  exact readCached_astray visited (by decide) inner.2 allowed absent there behind total

end Faunus.Sherman
