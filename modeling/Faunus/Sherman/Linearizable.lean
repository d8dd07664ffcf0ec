import Faunus.Sherman.Conduct

/-! What clients of the Sherman tree see of one another.

Without a cache and with exclusive page locks, every history is one of an atomic map. When
no call is in progress the pages under the root are a tree at rest that stores this map.
-/

set_option autoImplicit false

namespace Faunus.Sherman

open Interleaving

variable {Key Value : Type} [LinearOrder Key] [BoundedOrder Key] [KeyBytes Key] [Bot Value] [DecidableEq Value]
  {cfg : Config} {m m' : Memory Key Value} {map : Key → Option Value} {top t : ℕ}
  {P : Pool (signature Key Value) ℕ (Call Key Value) (Outcome Value) (State Key Value)}

omit [Bot Value] [DecidableEq Value] in
theorem Sound.seen (sound : Sound cfg m ∅ top) :
    Sound cfg (m.seen (m.pagesIssued.filter fun a => (m.pages a).isSome) m.itemsIssued) ∅ top ∧
      (m.seen (m.pagesIssued.filter fun a => (m.pages a).isSome) m.itemsIssued).pages = m.pages := by
  -- a tree at rest is seen as a whole
  have pages : (m.seen (m.pagesIssued.filter fun a => (m.pages a).isSome) m.itemsIssued).pages = m.pages := by
    funext a
    cases there : m.pages a with
    | none =>
      refine seen_outside fun inside => ?_
      simp [there] at inside
    | some p => exact seen_pages.2 ⟨by simp [there, sound.linked.issued a p there], there⟩
  refine ⟨⟨?_, fun a p there => sound.room a p (pages ▸ there), fun _ => rfl, fun a p there => ?_⟩, pages⟩
  · have tiles' : tiles (m.seen (m.pagesIssued.filter fun a => (m.pages a).isSome) m.itemsIssued) = tiles m := by
      funext a
      rw [tiles, tiles, pages]
    refine .of_pages (tiles' ▸ sound.linked.forest) (by rw [pages, sound.linked.null]) fun a p there => ?_
    have before : m.pages a = some p := pages ▸ there
    refine ⟨by simp [before, sound.linked.issued a p before], sound.linked.proper before, ?_⟩
    simp only [NextPage, pages]
    exact sound.linked.sibling a p before
  · exact (sound.stocked a p (pages ▸ there)).frame (fun _ _ => rfl) fun _ inside => inside

theorem shared_start (sound : Sound cfg m ∅ top) (represents : Represents cfg m map) (reserved : .null ∈ m.itemsIssued) :
    Agrees cfg map (fun _ => Client.idle) ⟨m, []⟩ := by
  -- idle clients on a tree at rest
  obtain ⟨seen, pages⟩ := sound.seen
  have none : owed (fun _ : ℕ => (Client.idle : Client Key Value)) = ∅ := by
    ext a
    simp [owed, Client.idle]
  refine ⟨_, _, top, map,
    ⟨none ▸ seen, fun k v => ?_, .start, fun a inside => ?_, fun a inside => List.mem_of_mem_filter inside,
      fun _ inside => inside,
    reserved, fun a locked => ?_, fun _ => backs_idle .idle, fun _ _ _ => apart_idle _ .idle⟩⟩
  · rw [represents k v, Memory.shelf, Memory.shelf, pages]
    rfl
  · simp only [List.mem_filter, Option.isSome_iff_exists] at inside
    exact inside.2
  · rw [sound.free a] at locked
    cases locked

theorem agrees_reaches (three : 3 ≤ cfg.internalCardinality) (two : 2 ≤ cfg.leafCardinality) (sound : Sound cfg m ∅ top)
    (represents : Represents cfg m map) (reserved : .null ∈ m.itemsIssued)
    (run : Reaches (system cfg) anything (Pool.start ⟨m, []⟩) P) :
    ∃ gs, Agrees cfg map gs P.shared ∧ ∀ t, P.threads t = none → gs t = Client.idle := by
  have start : Explains (system cfg) (clientMachine cfg) (Agrees cfg map) (fun _ => (clientMachine cfg).idle) (Pool.start ⟨m, []⟩) :=
    explains_start (shared_start sound represents reserved)
  obtain ⟨gs, explains⟩ := start.reaches (implements_clientMachine two) (preserves_clientMachine three) run
  exact ⟨gs, explains.holds, explains.idle⟩

/-! ## Where a search goes -/

/-- The page that `search_node` sends a search of the key to next. -/
def Goes (m : Memory Key Value) (key : Key) (a b : GlobalAddress) : Prop :=
  ∃ p, m.pages a = some p ∧
    (p.hdr.highest ≤ key ∧ b = p.hdr.siblingPtr ∨ ∃ n, p = .internal n ∧ key < n.hdr.highest ∧ b = n.nextLevel key)

section
variable {pending : Set GlobalAddress} {a : GlobalAddress} {p : Page Key} {key : Key}

omit [KeyBytes Key] [Bot Value] [DecidableEq Value] in
theorem Linked.goes_right (linked : Linked m pending top) (there : m.pages a = some p) (low : p.hdr.lowest ≤ key) (below : key < ⊤) :
    ∃ b q, Relation.ReflTransGen (Goes m key) a b ∧ m.pages b = some q ∧ q.hdr.level = p.hdr.level ∧ q.hdr.covers key := by
  induction left : ahead m p.hdr.lowest using Nat.strong_induction_on generalizing a p with
  | _ n ih =>
    by_cases behind : p.hdr.highest ≤ key
    · obtain ⟨-, -, q, next, level, starts⟩ := linked.next there behind below
      have closer := linked.ahead_lt there next starts
      obtain ⟨b, r, goes, found, same, covers⟩ := ih _ (left ▸ closer) next (starts ▸ behind) rfl
      exact ⟨b, r, .head ⟨p, there, .inl ⟨behind, rfl⟩⟩ goes, found, same.trans level, covers⟩
    · exact ⟨a, p, .refl, there, rfl, low, not_le.1 behind⟩

omit [KeyBytes Key] [Bot Value] [DecidableEq Value] in
theorem Linked.goes_leaf (linked : Linked m pending top) (there : m.pages a = some p) (low : p.hdr.lowest ≤ key) (below : key < ⊤) :
    ∃ b n, Relation.ReflTransGen (Goes m key) a b ∧ m.pages b = some (.leaf n) ∧ n.hdr.covers key := by
  induction level : p.hdr.level generalizing a p with
  | zero =>
    obtain ⟨b, q, goes, found, same, covers⟩ := linked.goes_right there low below
    obtain ⟨n, rfl⟩ := linked.leaf_of_zero found (same.trans level)
    exact ⟨b, n, goes, found, covers⟩
  | succ l ih =>
    obtain ⟨b, q, goes, found, same, covers⟩ := linked.goes_right there low below
    obtain ⟨n, rfl⟩ := linked.internal_of_level found (show 0 < q.hdr.level by omega)
    obtain ⟨r, child, under, low'⟩ := linked.nextLevel_page found covers.1
    have down : Goes m key b (n.nextLevel key) := ⟨_, found, .inr ⟨n, rfl, covers.2, rfl⟩⟩
    have levels : n.hdr.level = p.hdr.level := same
    obtain ⟨c, n', goes', leaf, covers'⟩ := ih child low' (by omega)
    exact ⟨c, n', (goes.tail down).trans goes', leaf, covers'⟩

end

/-! ## The results -/

/-- Client 1 inserts the key while client 0 is on its way to the leaf; then client 2 reads it. -/
def overtaken : List (Move ℕ (BitVec 64) (Call (Fin 256) (Fin 256))) :=
  Move.part 0 (.insert firstKey secondKey) 3 2 ++ Move.whole 1 (.insert firstKey firstKey) 2 8 ++ List.replicate 5 (.act 0 3)
    ++ [.return 0] ++
    Move.whole 2 (.read firstKey) 0 3

def overtakenPool : Pool (signature (Fin 256) (Fin 256)) ℕ (Call (Fin 256) (Fin 256)) (Outcome (Fin 256))
    (State (Fin 256) (Fin 256)) :=
  (Pool.start ⟨blank.planted ⟨1⟩, []⟩).drive (system (.ofKeySize 1 7)) (fun _ _ _ => true) freely overtaken

theorem reaches_overtaken : Reaches (system (.ofKeySize 1 7)) anything (Pool.start ⟨blank.planted ⟨1⟩, []⟩) overtakenPool :=
  reaches_drive (fun _ _ _ _ => trivial) (fun _ _ _ _ _ => trivial) _ _

theorem planted_blank : initializeIndex.run Memory.exec 0 [1, 0, 0] blank = some (true, blank.planted ⟨1⟩) := rfl

theorem overtaken_returns : (overtakenPool.shared.history.head?.any fun
    | .returned t (.read key) outcome => decide (t = 2 ∧ key = firstKey ∧ outcome.value = some secondKey)
    | _ => false) = true := by
  decide +kernel

/-- Every call takes effect at one moment between its invocation and its return. -/
theorem history_linearizable [Nontrivial Key] {choices : List (BitVec 64)} {ok : Bool} (three : 3 ≤ cfg.internalCardinality)
    (two : 2 ≤ cfg.leafCardinality)
    (fresh : m.Fresh) (reserved : .null ∈ m.itemsIssued) (initialized : initializeIndex.run Memory.exec t choices m = some (ok, m'))
    (run : Reaches (system cfg) anything (Pool.start ⟨m', []⟩) P) :
    ∃ map progress, Atomic Behaves (fun _ => none) (signals P.shared.history) map progress ∧ ∀ t, P.threads t = none →
      progress t = .idle := by
  obtain ⟨⟨-, sound, represents⟩, more⟩ :=
    solo_run (solo_issued (solo_initializeIndex (t := t) fresh (Nat.lt_of_lt_of_le Nat.two_pos two))) initialized
  obtain ⟨gs, ⟨pages, items, top, map, shared⟩, idle⟩ := agrees_reaches three two sound represents (more reserved) run
  refine ⟨map, _, shared.atomic, fun t free => ?_⟩
  rw [idle t free]
  rfl

/-- The later of two inserts is read. -/
theorem history_linearizable_overtaken : (overtakenPool.shared.history.head?.any fun
      | .returned t (.read key) outcome => decide (t = 2 ∧ key = firstKey ∧ outcome.value = some secondKey)
      | _ => false) = true ∧
    ∃ map progress, Atomic Behaves (fun _ => none) (signals overtakenPool.shared.history) map progress ∧
      ∀ t, overtakenPool.threads t = none → progress t = .idle :=
  ⟨overtaken_returns, history_linearizable (by decide) (by decide) blank_fresh List.mem_cons_self planted_blank reaches_overtaken⟩

/-- In every reachable state a search of a key comes to the one leaf of the tree that takes it, this leaf stores what
the calls so far have made of the key, and only calls in progress lock pages. -/
theorem search_comes_to_leaf [Nontrivial Key] {choices : List (BitVec 64)} {ok : Bool} (three : 3 ≤ cfg.internalCardinality)
    (two : 2 ≤ cfg.leafCardinality)
    (fresh : m.Fresh) (reserved : .null ∈ m.itemsIssued) (initialized : initializeIndex.run Memory.exec t choices m = some (ok, m'))
    (run : Reaches (system cfg) anything (Pool.start ⟨m', []⟩) P) :
    ∃ pages items map progress, Atomic Behaves (fun _ => none) (signals P.shared.history) map progress ∧
    (∀ a, P.shared.memory.locks a = true → a ∈ pages ∧ ∃ t, P.threads t ≠ none) ∧
    ∀ key < ⊤, ∃ a n, Relation.ReflTransGen (Goes P.shared.memory key) P.shared.memory.rootOffset a ∧
      (P.shared.memory.seen pages items).pages a = some (.leaf n) ∧ n.hdr.covers key ∧
      (∀ b n', (P.shared.memory.seen pages items).pages b = some (.leaf n') → n'.hdr.covers key → b = a) ∧
      ∀ v, map key = some v ↔ ∃ r ∈ n.entries cfg.leafCardinality, P.shared.memory.items r.kvPtr = ⟨key, v⟩ := by
  obtain ⟨⟨-, sound, represents⟩, more⟩ :=
    solo_run (solo_issued (solo_initializeIndex (t := t) fresh (Nat.lt_of_lt_of_le Nat.two_pos two))) initialized
  obtain ⟨gs, ⟨pages, items, top, map, shared⟩, idle⟩ := agrees_reaches three two sound represents (more reserved) run
  refine ⟨pages, items, map, _, shared.atomic, fun a locked => ?_, fun key below => ?_⟩
  · obtain ⟨u, p, held⟩ := shared.locks a locked
    refine ⟨((shared.backs u).held a p held).1, u, fun free => ?_⟩
    rw [idle u free] at held
    cases held
  · obtain ⟨p, there, -, lowest⟩ := shared.sound.linked.root
    obtain ⟨a, n, goes, leaf, covers⟩ := shared.sound.linked.goes_leaf there (lowest ▸ bot_le) below
    have unique : ∀ b n', (P.shared.memory.seen pages items).pages b = some (.leaf n') → n'.hdr.covers key → b = a := by
      intro b n' leaf' covers'
      refine shared.sound.linked.forest.disjoint b a _ _ key (tiles_page leaf') (tiles_page leaf) ?_ covers' covers
      rw [Page.tile_level, Page.tile_level]
      exact (shared.sound.linked.leaf b n' leaf').1.trans (shared.sound.linked.leaf a n leaf).1.symm
    refine ⟨a, n, Relation.ReflTransGen.mono (fun b c go => ?_) _ _ goes, leaf, covers, unique, fun v => ?_⟩
    · obtain ⟨p, there, step⟩ := go
      exact ⟨p, (seen_pages.1 there).2, step⟩
    · rw [shared.represents key v]
      constructor
      · rintro ⟨r, ⟨b, n', leaf', inside⟩, eq⟩
        have covers' := ((shared.sound.stocked b n' leaf').stored r inside).1
        rw [show (P.shared.memory.seen pages items).keyAt r = key from congrArg KVItem.key eq] at covers'
        obtain rfl := unique b n' leaf' covers'
        obtain rfl := Page.leaf.inj (Option.some.inj (leaf.symm.trans leaf'))
        exact ⟨r, inside, eq⟩
      · rintro ⟨r, inside, eq⟩
        exact ⟨r, ⟨a, n, leaf, inside⟩, eq⟩

theorem search_comes_to_leaf_overtaken : firstKey < ⊤ ∧ ∃ a n,
    Relation.ReflTransGen (Goes overtakenPool.shared.memory firstKey) overtakenPool.shared.memory.rootOffset a ∧
      overtakenPool.shared.memory.pages a = some (.leaf n) ∧ n.hdr.covers firstKey := by
  have below : firstKey < ⊤ := by decide
  obtain ⟨pages, items, map, progress, -, -, search⟩ := search_comes_to_leaf (by decide) (by decide) blank_fresh
    List.mem_cons_self planted_blank reaches_overtaken
  obtain ⟨a, n, goes, leaf, covers, -⟩ := search firstKey below
  exact ⟨below, a, n, goes, (seen_pages.1 leaf).2, covers⟩

/-- When no call is in progress, the pages under the root are linked as they should be, they store the map that the
calls have made, and no page is locked. -/
theorem wellLinked_at_rest [Nontrivial Key] {choices : List (BitVec 64)} {ok : Bool} (three : 3 ≤ cfg.internalCardinality)
    (two : 2 ≤ cfg.leafCardinality)
    (fresh : m.Fresh) (reserved : .null ∈ m.itemsIssued) (initialized : initializeIndex.run Memory.exec t choices m = some (ok, m'))
    (run : Reaches (system cfg) anything (Pool.start ⟨m', []⟩) P) (rest : ∀ t, P.threads t = none) : ∃ pages items map progress,
    (∀ a, a ∈ pages ↔ Relation.ReflTransGen (Child P.shared.memory) P.shared.memory.rootOffset a) ∧
      WellLinked cfg (P.shared.memory.seen pages items) ∧ Represents cfg (P.shared.memory.seen pages items) map ∧
      Atomic Behaves (fun _ => none) (signals P.shared.history) map progress ∧ ∀ a, P.shared.memory.locks a = false := by
  obtain ⟨⟨-, sound, represents⟩, more⟩ :=
    solo_run (solo_issued (solo_initializeIndex (t := t) fresh (Nat.lt_of_lt_of_le Nat.two_pos two))) initialized
  obtain ⟨gs, ⟨pages, items, top, map, shared⟩, idle⟩ := agrees_reaches three two sound represents (more reserved) run
  have none : owed gs = ∅ := by
    refine Set.eq_empty_iff_forall_notMem.2 ?_
    rintro a ⟨u, d, debt, -⟩
    rw [idle u (rest u)] at debt
    cases debt
  have settled : Sound cfg (P.shared.memory.seen pages items) ∅ top := none ▸ shared.sound
  refine ⟨pages, items, map, _, fun a => ⟨fun inside => ?_, fun reached => ?_⟩, settled.wellLinked, shared.represents,
    shared.atomic, fun a => ?_⟩
  · obtain ⟨p, there⟩ := shared.there a inside
    refine Relation.ReflTransGen.mono (fun b c child => ?_) _ _ (settled.wellLinked.parents a p (seen_pages.2 ⟨inside, there⟩))
    obtain ⟨n, there, kid⟩ := child
    exact ⟨n, (seen_pages.1 there).2, kid⟩
  · induction reached with
    | refl =>
      obtain ⟨p, there, -, -⟩ := shared.sound.linked.root
      exact (seen_pages.1 there).1
    | @tail b c _ child ih =>
      obtain ⟨n, there, kid⟩ := child
      refine shared.pointers_inside ih there c (.inr ?_)
      exact kid
  · rw [Bool.eq_false_iff]
    intro locked
    obtain ⟨u, p, held⟩ := shared.locks a locked
    rw [idle u (rest u)] at held
    cases held


theorem overtaken_rests (t : ℕ) : overtakenPool.threads t = none := by
  have three : (List.range 3).all (fun t => (overtakenPool.threads t).isNone) = true := by decide +kernel
  by_cases low : t < 3
  · exact Option.isNone_iff_eq_none.1 (List.all_eq_true.1 three t (List.mem_range.2 low))
  · refine drive_untouched _ _ fun move inside same => low ?_
    have threads : ∀ move ∈ overtaken, move.thread < 3 := by decide
    rw [same]
    exact threads move inside

theorem wellLinked_at_rest_overtaken : (∀ t, overtakenPool.threads t = none) ∧
    ∃ pages items map, WellLinked (.ofKeySize 1 7) (overtakenPool.shared.memory.seen pages items) ∧
      Represents (.ofKeySize 1 7) (overtakenPool.shared.memory.seen pages items) map := by
  obtain ⟨pages, items, map, -, -, linked, represents, -⟩ := wellLinked_at_rest (by decide)
    (by decide) blank_fresh List.mem_cons_self planted_blank reaches_overtaken
    overtaken_rests
  exact ⟨overtaken_rests, pages, items, map, linked, represents⟩

end Faunus.Sherman
