import Faunus.Sherman.Sequential

/-! Histories of one client: the shape of the tree after every call, and the answers. -/

set_option autoImplicit false

namespace Faunus.Sherman

open Interleaving Tiling

variable {Key Value : Type} [LinearOrder Key] [BoundedOrder Key]

/-! ## The shape of the tree -/

/-- The page lists the other one, by `leftmost_ptr` or in a record. -/
def Child (m : Memory Key Value) (a b : GlobalAddress) : Prop :=
  ∃ p, m.pages a = some (.internal p) ∧ (b = p.hdr.leftmostPtr ∨ ∃ i < p.cnt, b = (p.records i).ptr)

/-- The page stands one level below another one and starts at a key. -/
def StartsAt (m : Memory Key Value) (p : InternalPage Key) (b : GlobalAddress) (key : Key) : Prop :=
  ∃ q, m.pages b = some q ∧ q.hdr.lowest = key ∧ q.hdr.level + 1 = p.hdr.level

/-- Pages linked level by level and through their parents, with every key in its place. -/
structure WellLinked (cfg : Config) (m : Memory Key Value) : Prop where
  /-- The last page of a level has no sibling; every other one is followed by the page that starts where it ends. -/
  siblings : ∀ a p, m.pages a = some p →
    (p.hdr.highest = ⊤ ↔ p.hdr.siblingPtr = .null) ∧ (p.hdr.siblingPtr ≠ .null → NextPage m a p.hdr.siblingPtr)
  /-- The siblings lead from the page that starts at `Key::min` to every page of the level. -/
  chains : ∀ b q, m.pages b = some q → ∃ a p, m.pages a = some p ∧ p.hdr.level = q.hdr.level ∧ p.hdr.lowest = ⊥ ∧
    Relation.ReflTransGen (NextPage m) a b
  records : ∀ a p, m.pages a = some (.internal p) → p.Ordered
  leftmost : ∀ a p, m.pages a = some (.internal p) → StartsAt m p p.hdr.leftmostPtr p.hdr.lowest
  children : ∀ a p, m.pages a = some (.internal p) → ∀ i < p.cnt, StartsAt m p (p.records i).ptr (p.records i).key
  parents : ∀ a p, m.pages a = some p → Relation.ReflTransGen (Child m) m.rootOffset a
  levels : ∀ a p, m.pages a = some p → (p.hdr.level = 0 ↔ ∃ leaf, p = .leaf leaf)
  space : ∀ a p, m.pages a = some (.leaf p) → ∃ i < cfg.leafCardinality, (p.records i).isEmpty = true
  inside : ∀ a p, m.pages a = some (.leaf p) → ∀ i ∈ p.used cfg.leafCardinality, p.hdr.covers (m.keyAt (p.records i))
  once : ∀ a b p q, m.pages a = some (.leaf p) → m.pages b = some (.leaf q) → ∀ i ∈ p.used cfg.leafCardinality,
    ∀ j ∈ q.used cfg.leafCardinality, m.keyAt (p.records i) = m.keyAt (q.records j) → a = b ∧ i = j

section
variable {cfg : Config} {m : Memory Key Value} {top : ℕ} {a b : GlobalAddress} {p q : Page Key}

theorem Linked.chain (linked : Linked m ∅ top) {n : ℕ} (near : ahead m p.hdr.lowest < n) (one : m.pages a = some p)
    (two : m.pages b = some q)
    (level : p.hdr.level = q.hdr.level) (order : p.hdr.lowest ≤ q.hdr.lowest) : Relation.ReflTransGen (NextPage m) a b := by
  -- the siblings lead to every later page of the level
  induction n generalizing a p with
  | zero => omega
  | succ n ih =>
    by_cases here : a = b
    · rw [here]
    have behind : p.hdr.highest ≤ q.hdr.lowest := by
      have := linked.forest.hi_le (tiles_page one) (tiles_page two) (by rwa [Page.tile_level, Page.tile_level]) here
        (by rwa [Page.tile_lo, Page.tile_lo])
      rwa [Page.tile_hi, Page.tile_lo] at this
    have below : q.hdr.lowest < ⊤ := lt_of_lt_of_le (linked.nonempty two) le_top
    rcases linked.sibling a p one with ⟨last, -⟩ | step
    · exact absurd (lt_of_le_of_lt behind below) (last ▸ lt_irrefl _)
    · obtain ⟨-, -, r, next, same, starts⟩ := linked.next one behind below
      have closer := linked.ahead_lt one next starts
      exact .head step (ih (by omega) next (same.trans level) (starts ▸ behind))

omit [LinearOrder Key] [BoundedOrder Key] in
theorem child_of_kid (kid : Forest.Kid (tiles m) a b) : Child m a b := by
  obtain ⟨x, k, there, kid⟩ := kid
  obtain ⟨p, page, rfl⟩ := tiles_eq_some.1 there
  cases p with
  | leaf p => exact kid.elim
  | internal p =>
    refine ⟨p, page, ?_⟩
    rcases kid with eq | ⟨i, bound, eq⟩
    · exact .inl (congrArg Prod.snd eq)
    · exact .inr ⟨i, bound, congrArg Prod.snd eq⟩

theorem Linked.startsAt (linked : Linked m ∅ top) {n : InternalPage Key} (there : m.pages a = some (.internal n)) {k : Key}
    (kid : (k, b) ∈ n.kids) : StartsAt m n b k := by
  obtain ⟨q, page, level, lowest⟩ := linked.child there kid
  exact ⟨q, page, lowest, level⟩

variable [KeyBytes Key]

theorem Sound.wellLinked (sound : Sound cfg m ∅ top) : WellLinked cfg m where
  siblings a p there := by
    rcases sound.linked.sibling a p there with ⟨last, null⟩ | step
    · exact ⟨iff_of_true last null, fun some => absurd null some⟩
    · obtain ⟨p', q, here, next, -, -, starts⟩ := id step
      obtain rfl : p = p' := Option.some.inj (there.symm.trans here)
      refine ⟨iff_of_false (fun last => ?_) (sound.linked.not_null next), fun _ => step⟩
      exact absurd (sound.linked.nonempty next) (not_lt.2 (starts.trans last ▸ le_top))
  chains b q there := by
    have low : (⊥ : Key) < ⊤ := lt_of_le_of_lt bot_le (lt_of_lt_of_le (sound.linked.nonempty there) le_top)
    obtain ⟨a, x, found, level, covers⟩ := sound.linked.forest.cover q.hdr.level (sound.linked.level_le there) ⊥ low
    obtain ⟨p, page, rfl⟩ := tiles_eq_some.1 found
    rw [Page.tile_level] at level
    have starts : p.hdr.lowest = ⊥ := le_bot_iff.1 ((Page.tile_covers p ⊥).1 covers).1
    exact ⟨a, p, page, level, starts, sound.linked.chain (Nat.lt_succ_self _) page there level (starts ▸ bot_le)⟩
  records a p there := (sound.linked.internal a p there).2
  leftmost a p there := sound.linked.startsAt there (.inl rfl)
  children a p there i bound := sound.linked.startsAt there (.inr ⟨i, bound, rfl⟩)
  parents a p there := by
    have height : p.tile.level + (top - p.hdr.level) = top := by
      have := sound.linked.level_le there
      rw [Page.tile_level]
      omega
    exact Relation.ReflTransGen.mono (fun _ _ kid => child_of_kid kid) _ _
      (sound.linked.forest.reachable (fun _ waits => waits) (tiles_page there) height)
  levels a p there := by
    cases p with
    | leaf leaf => exact iff_of_true (sound.linked.leaf a leaf there).1 ⟨leaf, rfl⟩
    | internal n =>
      refine iff_of_false (sound.linked.internal a n there).1 ?_
      rintro ⟨leaf, eq⟩
      cases eq
  space a p there := by
    obtain ⟨i, -, bound, empty⟩ := find_empty (sound.stocked a p there).room
    exact ⟨i, bound, empty⟩
  inside a p there i used := ((sound.stocked a p there).stored _ (List.mem_map.2 ⟨i, used, rfl⟩)).1
  once a b p q one two i here j there same := sound.once one two here there same

end

/-! ## Histories -/

section
variable [KeyBytes Key] [Bot Value] [DecidableEq Value]

/-- The key of a call, strictly between `Key::min` and `Key::max`. -/
def Call.Inner : Call Key Value → Prop
  | .insert key _ => ⊥ < key ∧ key < ⊤
  | .read key => ⊥ < key ∧ key < ⊤

/-- Memory after `initialize` and after every call that returned. -/
inductive Completed (cfg : Config) (t : ℕ) : Memory Key Value → Prop where
  | start {m m' : Memory Key Value} {choices : List (BitVec 64)} {ok : Bool} : m.Fresh →
      initializeIndex.run Memory.exec t choices m = some (ok, m') → Completed cfg t m'
  | call {m m' : Memory Key Value} {choices : List (BitVec 64)} {call : Call Key Value} {outcome : Outcome Value} :
    Completed cfg t m →
      call.Inner → (call.body cfg).run Memory.exec t choices m = some (outcome, m') → Completed cfg t m'

variable {cfg : Config} {m m' : Memory Key Value} {top t : ℕ} {map : Key → Option Value}

def Call.assign (map : Key → Option Value) : Call Key Value → Key → Option Value
  | .insert key value => Function.update map key (some value)
  | .read _ => map

/-- What a call does to the map that is stored. -/
def Call.store (m m' : Memory Key Value) (map : Key → Option Value) : Call Key Value → Key → Option Value
  | .insert key value => m.store m' map key value
  | .read _ => map

omit [BoundedOrder Key] [KeyBytes Key] [Bot Value] [DecidableEq Value] in
theorem Call.store_eq {call : Call Key Value} (reserved : .null ∈ m.itemsIssued) : call.store m m' map = call.assign map := by
  cases call with
  | insert key value => exact store_of_not_loses fun loses => List.not_mem_nil (loses.1 ▸ reserved)
  | read key => rfl

def Call.answer (map : Key → Option Value) : Call Key Value → Outcome Value
  | .insert _ _ => ⟨true, none⟩
  | .read key => ⟨(map key).isSome, map key⟩

/-- The map as the reads see it: a value that is `Value::min` is taken for absence. -/
def masked (map : Key → Option Value) (key : Key) : Option Value := (map key).filter fun v => decide (v ≠ ⊥)

theorem two_le_kLeafCardinality {keySize : ℕ} (three : 3 ≤ kInternalCardinality keySize) : 2 ≤ kLeafCardinality keySize := by
  unfold kInternalCardinality at three
  unfold kLeafCardinality
  rw [Nat.le_div_iff_mul_le (by omega)] at three ⊢
  omega

theorem leafCardinality_pos {keySize : ℕ} (three : 3 ≤ kInternalCardinality keySize) (loopBound : ℕ) :
    0 < (Config.ofKeySize keySize loopBound).leafCardinality :=
  lt_of_lt_of_le Nat.zero_lt_two (two_le_kLeafCardinality three)

theorem solo_call {keySize loopBound : ℕ} (three : 3 ≤ kInternalCardinality keySize) (long : kMaxLevelOfTree ≤ loopBound)
    (sound : Sound (.ofKeySize keySize loopBound) m ∅ top) (represents : Represents (.ofKeySize keySize loopBound) m map)
    (short : top < kMaxLevelOfTree) {call : Call Key Value} (inner : call.Inner) :
    Solo t (fun outcome m' => outcome = call.answer (masked map) ∧ (∃ top', Sound (.ofKeySize keySize loopBound) m' ∅ top') ∧
      Represents (.ofKeySize keySize loopBound) m' (call.store m m' map)) (call.body (.ofKeySize keySize loopBound)) m := by
  cases call with
  | insert key value =>
    refine total_bind (total_mono
      (solo_insert sound represents short inner.2 long three (two_le_kLeafCardinality three) ?_ value) ?_)
    · show kMaxLevelOfTree ≤ 1000000
      decide
    · rintro ok m' ⟨rfl, sound', represents', -⟩
      exact ⟨rfl, sound', represents'⟩
  | read key =>
    refine total_bind (total_mono (solo_read sound represents short inner.2 long) ?_)
    rintro found m' ⟨rfl, rfl⟩
    exact ⟨rfl, ⟨top, sound⟩, represents⟩

omit [LinearOrder Key] [BoundedOrder Key] [KeyBytes Key] [Bot Value] [DecidableEq Value] in
theorem run_stuck {A : Type} {site site' : Site} {k : GlobalAddress → Page Key → Index Key Value A} {p : Page Key}
    (there : m.pages m.rootOffset = some p) (stuck : k m.rootOffset p = .stuck) (choices : List (BitVec 64)) :
    (readRoot site >>= fun root => readPage site' root >>= k root).run Memory.exec t choices m = none := by
  cases choices with
  | nil => rfl
  | cons c rest =>
    cases rest with
    | nil => rfl
    | cons c rest =>
      have performed : Memory.exec t ⟨site', .readPage m.rootOffset⟩ c m = some (p, m) := by
        simp only [Memory.exec, there]
        rfl
      refine (run_perform rfl).trans ((run_perform performed).trans ?_)
      change (k m.rootOffset p).run Memory.exec t rest m = none
      rw [stuck]
      rfl

omit [Bot Value] [DecidableEq Value] in
theorem searchPage_tall {a : GlobalAddress} {p : Page Key} (tall : kMaxLevelOfTree ≤ p.hdr.level) (key : Key)
    (result : SearchResult Value)
    (path : PathStack) : searchPage cfg a p key result path = .stuck :=
  if_pos tall

/-- A tree that has outgrown `path_stack` answers no call. -/
theorem call_tall {p : Page Key} (there : m.pages m.rootOffset = some p) (tall : kMaxLevelOfTree ≤ p.hdr.level)
    (loops : 0 < cfg.loopBound) (retries : 0 < cfg.maxRetries) (call : Call Key Value) (choices : List (BitVec 64)) :
    (call.body cfg).run Memory.exec t choices m = none := by
  cases call with
  | insert key value =>
    obtain ⟨n, more⟩ : ∃ n, cfg.maxRetries = n + 1 := ⟨cfg.maxRetries - 1, by omega⟩
    simp only [Call.body, insert, more, insertLoop, searchNode, bind_assoc]
    refine run_stuck there ?_ choices
    rw [searchPage_tall tall]
    rfl
  | read key =>
    obtain ⟨n, more⟩ : ∃ n, cfg.loopBound = n + 1 := ⟨cfg.loopBound - 1, by omega⟩
    simp only [Call.body, read, more, readLoop, searchNode, bind_assoc]
    refine run_stuck there ?_ choices
    rw [searchPage_tall tall]
    rfl

variable [Nontrivial Key] {keySize loopBound : ℕ}

theorem Completed.sound (completed : Completed (.ofKeySize keySize loopBound) t m) (three : 3 ≤ kInternalCardinality keySize)
    (long : kMaxLevelOfTree ≤ loopBound) :
    ∃ top map, Sound (.ofKeySize keySize loopBound) m ∅ top ∧ Represents (.ofKeySize keySize loopBound) m map := by
  induction completed with
  | start fresh ran =>
    obtain ⟨-, sound, represents⟩ := solo_run
      (solo_initializeIndex (t := t) fresh (leafCardinality_pos three loopBound)) ran
    exact ⟨0, _, sound, represents⟩
  | call _ inner ran ih =>
    obtain ⟨top, map, sound, represents⟩ := ih
    obtain ⟨p, there, level, -⟩ := sound.linked.root
    rcases Nat.lt_or_ge top kMaxLevelOfTree with short | tall
    · obtain ⟨-, ⟨top', sound'⟩, represents'⟩ := solo_run (solo_call three long sound represents short inner) ran
      exact ⟨top', _, sound', represents'⟩
    · rw [call_tall there (level ▸ tall) (lt_of_lt_of_le (by decide) long) (by decide : 0 < 1000000)] at ran
      cases ran

end

/-- Keys of 194 bytes; the leading byte comes first. -/
abbrev LongKey := Fin (256 ^ 194)

instance longKeyBytes : KeyBytes LongKey := ⟨fun key => (List.range 194).map fun i => BitVec.ofNat 8 (key.val >>> (8 * (193 - i)))⟩

instance longBounds : BoundedOrder LongKey := inferInstance

instance longBot : Bot LongKey := longBounds.toBot

instance longTop : Top LongKey := longBounds.toTop

def blankLong : Memory LongKey LongKey where
  rootOffset := .null
  pages := fun _ => none
  items := fun _ => ⟨⊥, ⊥⟩
  locks := fun _ => false
  pagesIssued := []
  itemsIssued := []

def longKey (n : ℕ) : LongKey := Fin.ofNat _ n

def longKeys (from' count : ℕ) : List LongKey := (List.range count).map fun i => longKey (from' + i)

def addresses (from' count : ℕ) : List (BitVec 64) := (List.range count).map fun i => BitVec.ofNat 64 (from' + i)

def loadKeys : List LongKey → ℕ → Memory LongKey LongKey → Option (Memory LongKey LongKey)
  | [], _, m => some m
  | key :: rest, from', m =>
    if ⊥ < key ∧ key < ⊤ then
      match ((Call.insert key key).body (.ofKeySize 194 7)).run Memory.exec 0 (addresses from' 200) m with
      | some (_, m') => loadKeys rest (from' + 200) m'
      | none => none
    else none

theorem loadKeys_completed {keys : List LongKey} {from' : ℕ} {m m' : Memory LongKey LongKey}
    (completed : Completed (.ofKeySize 194 7) 0 m)
    (loaded : loadKeys keys from' m = some m') : Completed (.ofKeySize 194 7) 0 m' := by
  induction keys generalizing from' m with
  | nil =>
    cases loaded
    exact completed
  | cons key rest ih =>
    unfold loadKeys at loaded
    split_ifs at loaded with inner
    split at loaded
    · rename_i outcome m₁ ran
      have inserted : (Call.insert key key).Inner := inner
      exact ih (.call completed inserted ran) loaded
    · cases loaded

/-- The root gets three leaves with room for one more record each. -/
def threeLeaves : List LongKey :=
  longKeys 1 25 ++ longKeys 80 25 ++ longKeys 160 25 ++ longKeys 26 24 ++ longKeys 105 24 ++ longKeys 185 24

section
variable [KeyBytes Key] [Bot Value] [DecidableEq Value] {cfg : Config} {m m' : Memory Key Value} {top t : ℕ}
  {map : Key → Option Value} {keySize loopBound : ℕ}

def Memory.levels (m : Memory Key Value) : ℕ :=
  match m.pages m.rootOffset with
  | some p => p.hdr.level + 1
  | none => 0

/-- The calls are answered by what the reads see of the map, one after the other, while the levels fit into `path_stack`. -/
def Serves (cfg : Config) (t : ℕ) (view : (Key → Option Value) → Key → Option Value) :
    List (Call Key Value) → (Key → Option Value) → Memory Key Value → Prop
  | [], _, _ => True
  | call :: rest, map, m => m.levels ≤ kMaxLevelOfTree →
    Solo t (fun outcome m' => outcome = call.answer (view map) ∧ Serves cfg t view rest (call.assign map) m') (call.body cfg) m

theorem Sound.serves (sound : Sound (.ofKeySize keySize loopBound) m ∅ top)
    (represents : Represents (.ofKeySize keySize loopBound) m map)
    (three : 3 ≤ kInternalCardinality keySize) (long : kMaxLevelOfTree ≤ loopBound) (reserved : .null ∈ m.itemsIssued)
    {calls : List (Call Key Value)} (inner : ∀ call ∈ calls, call.Inner) :
    Serves (.ofKeySize keySize loopBound) t masked calls map m := by
  induction calls generalizing m map top with
  | nil => trivial
  | cons call rest ih =>
    intro low
    obtain ⟨p, there, level, -⟩ := sound.linked.root
    have short : top < kMaxLevelOfTree := by
      rw [Memory.levels, there] at low
      exact level ▸ low
    refine total_mono (solo_issued (solo_call three long sound represents short (inner call List.mem_cons_self))) ?_
    rintro outcome m' ⟨⟨eq, ⟨top', sound'⟩, represents'⟩, more⟩
    rw [Call.store_eq reserved] at represents'
    exact ⟨eq, ih sound' represents' (more reserved) fun call inside => inner call (List.mem_cons_of_mem _ inside)⟩

/-- The value of an insert is not `Value::min`. -/
def Call.NonZero : Call Key Value → Prop
  | .insert _ value => value ≠ ⊥
  | .read _ => True

omit [LinearOrder Key] [BoundedOrder Key] [KeyBytes Key] in
theorem masked_eq (nonZero : ∀ k, map k ≠ some ⊥) : masked map = map := by
  funext k
  cases stored : map k with
  | none => simp [masked, stored]
  | some v =>
    have : v ≠ ⊥ := fun zero => nonZero k (zero ▸ stored)
    simp [masked, stored, this, Option.filter]

omit [BoundedOrder Key] [KeyBytes Key] [DecidableEq Value] in
theorem Call.NonZero.assign {call : Call Key Value} (nonZero : call.NonZero) (all : ∀ k, map k ≠ some ⊥) (k : Key) :
    call.assign map k ≠ some ⊥ := by
  cases call with
  | insert key value =>
    by_cases here : k = key
    · subst here
      simp only [Call.assign, Function.update_self]
      exact fun same => nonZero (Option.some.inj same)
    · simpa [Call.assign, here] using all k
  | read key => exact all k

omit [KeyBytes Key] [BoundedOrder Key] [DecidableEq Value] in
theorem Call.NonZero.store {call : Call Key Value} (nonZero : call.NonZero) (all : ∀ k, map k ≠ some ⊥) (k : Key) :
    call.store m m' map k ≠ some ⊥ := by
  cases call with
  | insert key value =>
    simp only [Call.store, Memory.store]
    split
    · exact all k
    · exact Call.NonZero.assign nonZero all k
  | read key => exact all k

/-- Without `Value::min` the reads see the map itself. -/
theorem Serves.unmask {calls : List (Call Key Value)} (serves : Serves cfg t masked calls map m)
    (nonZero : ∀ call ∈ calls, call.NonZero)
    (all : ∀ k, map k ≠ some ⊥) : Serves cfg t id calls map m := by
  induction calls generalizing m map with
  | nil => trivial
  | cons call rest ih =>
    intro low
    have served := serves low
    rw [masked_eq all] at served
    refine total_mono served ?_
    rintro outcome m' ⟨eq, later⟩
    exact ⟨eq, ih later (fun call inside => nonZero call (List.mem_cons_of_mem _ inside))
      (Call.NonZero.assign (nonZero call List.mem_cons_self) all)⟩

/-- A client that runs alone finds a finite map: every insert succeeds, and a read returns the latest value of its key. -/
theorem index_refines_map [Nontrivial Key] (three : 3 ≤ kInternalCardinality keySize) (long : kMaxLevelOfTree ≤ loopBound)
    (fresh : m.Fresh) (reserved : .null ∈ m.itemsIssued) {calls : List (Call Key Value)}
    (inner : ∀ call ∈ calls, call.Inner) (nonZero : ∀ call ∈ calls, call.NonZero) :
    Solo t (fun ok m' => ok = true ∧ Serves (.ofKeySize keySize loopBound) t id calls (fun _ => none) m') initializeIndex m := by
  refine total_mono (solo_issued (solo_initializeIndex fresh (leafCardinality_pos three loopBound))) ?_
  rintro ok m' ⟨⟨rfl, sound, represents⟩, more⟩
  exact ⟨rfl, (sound.serves represents three long (more reserved) inner).unmask nonZero fun _ => by simp⟩

end

theorem index_refines_map_threeCalls :
    Solo 0 (fun ok m => ok = true ∧ Serves (.ofKeySize 1 7) 0 id [.insert firstKey secondKey, .read firstKey, .read secondKey]
      (fun _ => none) m) initializeIndex blank := by
  refine index_refines_map (by decide) (by decide) blank_fresh List.mem_cons_self ?_ ?_
  · simp only [List.forall_mem_cons, Call.Inner]
    exact ⟨by decide, by decide, by decide, by simp⟩
  · simp only [List.forall_mem_cons, Call.NonZero]
    exact ⟨by decide, trivial, trivial, by simp⟩

end Faunus.Sherman
