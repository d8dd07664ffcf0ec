import Faunus.Index.Answers
import Faunus.Index.Splits
import Mathlib.Algebra.Order.Floor.Semiring
import Mathlib.Data.Rat.Floor

/-! The histories of one client without a cache.

Every call is answered by a finite map, and between two calls the tree is in order, all
locks are free and every leaf has a free slot.
-/

set_option autoImplicit false

namespace Faunus

open Interleaving Tiling

/-! ## The empty tree -/

section
variable {Key Value : Type}

/-- Memory before `initialize`. -/
structure Memory.Fresh (m : Memory Key Value) : Prop where
  nodes : ∀ a, m.nodes a = none
  freeItems : ∀ server, m.freeItems server = []

variable [LinearOrder Key] [BoundedOrder Key]

/-- Memory after `initialize`. -/
def Memory.planted (m : Memory Key Value) (new : GlobalAddress) : Memory Key Value :=
  { (m.issueNode new).setNode new (.leaf (.init (⊥, ⊤))) with rootOffset := new }

variable {m : Memory Key Value} {new : GlobalAddress}

theorem Memory.Fresh.nodes_planted (fresh : m.Fresh) {a : GlobalAddress} {n : Node Key} :
    (m.planted new).nodes a = some n ↔ a = new ∧ n = .leaf (.init (⊥, ⊤)) := by
  constructor
  · intro there
    rcases Memory.setNode_cases (m := m.issueNode new) there with here | ⟨-, old⟩
    · exact here
    · cases (fresh.nodes a).symm.trans old
  · rintro ⟨rfl, rfl⟩
    exact Memory.setNode_self ..

variable [KeyBytes Key] [Nontrivial Key] {cfg : Config} {t : Thread}

theorem Memory.Fresh.settled (fresh : m.Fresh) (some : 0 < cfg.branchFactor) :
    Settled cfg t (m.planted new) 0 ∧ Represents cfg (m.planted new) fun _ => none := by
  have only : ∀ {a n}, (m.planted new).nodes a = .some n → a = new ∧ n = .leaf (.init (⊥, ⊤)) := fun there =>
    fresh.nodes_planted.1 there
  have free : ∀ i, ((LeafNode.init (⊥, ⊤) : LeafNode Key).kvBlocks i).isFree = true := fun _ => KVBlock.isFree_make ..
  have unlocked : ∀ i, ((LeafNode.init (⊥, ⊤) : LeafNode Key).kvBlocks i).isLocked = false := fun _ => KVBlock.isLocked_make ..
  have vacant : ∀ i, ¬ (LeafNode.init (⊥, ⊤) : LeafNode Key).Live cfg.branchFactor i := by
    rintro i ⟨-, taken⟩
    exact Bool.noConfusion ((free i).symm.trans taken)
  have standing : Standing cfg.branchFactor (m.planted new) ∅ 0 := by
    refine ⟨.single (fun a x => ⟨fun there => ?_, ?_⟩) fun _ => Set.notMem_empty _, fun a n there => ?_⟩
    · obtain ⟨n, found, rfl⟩ := Memory.tiles_eq_some.1 there
      obtain ⟨rfl, rfl⟩ := only found
      exact ⟨rfl, rfl⟩
    · rintro ⟨rfl, rfl⟩
      exact Memory.tiles_node (fresh.nodes_planted.2 ⟨rfl, rfl⟩)
    · obtain ⟨rfl, rfl⟩ := only there
      exact ⟨List.mem_cons_self, rfl⟩
  refine ⟨⟨⟨standing, fun a leaf there => ?_, ?_⟩, fun a n there _ => ?_, fun a leaf there => ?_⟩, fun k v => ?_⟩
  · obtain rfl := Node.leaf.inj (only there).2
    exact ⟨fun i _ => unlocked i, fun i j live => absurd live (vacant i), fun i live => absurd live (vacant i), fun i live =>
      absurd live (vacant i),
      fun i live => absurd live (vacant i)⟩
  · refine ⟨fun x inside => ?_, ?_, fun server _ => fresh.freeItems server⟩
    · have inside : x ∈ m.freeItems t.server := inside
      rw [fresh.freeItems] at inside
      cases inside
    · show (m.freeItems t.server).Nodup
      rw [fresh.freeItems]
      exact List.nodup_nil
  · obtain ⟨-, rfl⟩ := only there
    rfl
  · obtain rfl := Node.leaf.inj (only there).2
    exact ⟨0, some, free 0⟩
  · refine iff_of_false (by simp) ?_
    rintro ⟨x, ⟨a, leaf, i, there, live, rfl⟩, -⟩
    obtain rfl := Node.leaf.inj (only there).2
    exact vacant i live

theorem alone_initializeIndex (fresh : m.Fresh) (some : 0 < cfg.branchFactor) :
    Alone cfg t (fun ok m' => ok = true ∧ Settled cfg t m' 0 ∧ Represents cfg m' fun _ => none) initializeIndex m := by
  unfold initializeIndex
  refine alone_allocNode fun new unissued =>
    alone_writeNode (alone_readRoot (alone_casRoot ⟨decide_eq_true rfl, fresh.settled some⟩))

end

/-! ## Calls -/

section
variable {Key Value : Type} [LinearOrder Key] [BoundedOrder Key] [KeyBytes Key]

def Call.Client : Call Key Value → Prop
  | .insert key _ => key < ⊤
  | .read key => key < ⊤
  | .split _ => False
  | .maintain => False

def Call.assign (map : Key → Option Value) : Call Key Value → Key → Option Value
  | .insert key value => Function.update map key (some value)
  | _ => map

def Call.answer (map : Key → Option Value) : Call Key Value → Outcome Value
  | .read key => ⟨(map key).isSome, map key⟩
  | _ => ⟨true, none⟩

variable {cfg : Config} {t : Thread} {m m' : Memory Key Value} {top n : ℕ} {map : Key → Option Value}

theorem alone_call (inline : cfg.Inline) (settled : Settled cfg t m top) (represents : Represents cfg m map)
    (short : top < cfg.loopBound) {call : Call Key Value} (client : call.Client) :
    Alone cfg t (fun outcome m' => outcome = call.answer map ∧ (∃ top' ≤ top + 1, Settled cfg t m' top') ∧
      Represents cfg m' (call.assign map))
      (call.body cfg) m := by
  cases call with
  | insert key value =>
    refine total_bind (total_mono (alone_insert inline settled represents short client) ?_)
    rintro ok m' ⟨rfl, done⟩
    exact ⟨rfl, done⟩
  | read key =>
    refine total_mono (alone_read settled represents inline.tries short client) ?_
    rintro outcome m' ⟨rfl, rfl⟩
    exact ⟨rfl, ⟨top, Nat.le_succ top, settled⟩, represents⟩
  | split leaf => exact client.elim
  | maintain => exact client.elim

/-- Memory after `initialize` and a number of calls that returned. -/
inductive Completed (cfg : Config) (t : Thread) : ℕ → Memory Key Value → Prop where
  | start {m m' : Memory Key Value} {choices : List (BitVec 64)} {ok : Bool} : m.Fresh →
      initializeIndex.run (Memory.exec cfg.usable) t choices m = some (ok, m') → Completed cfg t 0 m'
  | call {n : ℕ} {m m' : Memory Key Value} {choices : List (BitVec 64)} {call : Call Key Value} {outcome : Outcome Value} :
      Completed cfg t n m → call.Client → (call.body cfg).run (Memory.exec cfg.usable) t choices m = some (outcome, m') →
      Completed cfg t (n + 1) m'

theorem Completed.settled [Nontrivial Key] (inline : cfg.Inline) (completed : Completed cfg t n m) (short : n ≤ cfg.loopBound) :
    (∃ top ≤ n, Settled cfg t m top) ∧ ∃ map, Represents cfg m map := by
  induction completed with
  | start fresh ran =>
    have four := inline.four
    obtain ⟨-, settled, represents⟩ := alone_run (alone_initializeIndex fresh (by omega)) ran
    exact ⟨⟨0, le_refl 0, settled⟩, _, represents⟩
  | call _ client ran ih =>
    obtain ⟨⟨top, low, settled⟩, map, represents⟩ := ih (by omega)
    obtain ⟨-, ⟨top', low', settled'⟩, represents'⟩ := alone_run (alone_call inline settled represents (by omega) client) ran
    exact ⟨⟨top', by omega, settled'⟩, _, represents'⟩

/-- The calls are answered by the map, one after the other. -/
def Answered (cfg : Config) (t : Thread) : List (Call Key Value) → (Key → Option Value) → Memory Key Value → Prop
  | [], _, _ => True
  | call :: rest, map, m =>
    Alone cfg t (fun outcome m' => outcome = call.answer map ∧ Answered cfg t rest (call.assign map) m') (call.body cfg) m

theorem Settled.answered (settled : Settled cfg t m top) (represents : Represents cfg m map) (inline : cfg.Inline)
    {calls : List (Call Key Value)}
    (client : ∀ call ∈ calls, call.Client) (short : top + calls.length ≤ cfg.loopBound) : Answered cfg t calls map m := by
  induction calls generalizing m map top with
  | nil => trivial
  | cons call rest ih =>
    rw [List.length_cons] at short
    refine total_mono (alone_call inline settled represents (by omega) (client call List.mem_cons_self)) ?_
    rintro outcome m' ⟨eq, ⟨top', low, settled'⟩, represents'⟩
    exact ⟨eq, ih settled' represents' (fun call inside => client call (List.mem_cons_of_mem _ inside)) (by omega)⟩

/-- One call after the other, each with its choices. -/
def inTurn (cfg : Config) (t : Thread) : List (Call Key Value × List (BitVec 64)) → Memory Key Value → Option (Memory Key Value)
  | [], m => some m
  | (call, choices) :: rest, m =>
    match (call.body cfg).run (Memory.exec cfg.usable) t choices m with
    | some (_, m') => inTurn cfg t rest m'
    | none => none

theorem Completed.inTurn {calls : List (Call Key Value × List (BitVec 64))} (completed : Completed cfg t n m)
    (client : ∀ c ∈ calls, c.1.Client)
    (ran : inTurn cfg t calls m = some m') : Completed cfg t (n + calls.length) m' := by
  induction calls generalizing n m with
  | nil =>
    cases ran
    exact completed
  | cons c rest ih =>
    obtain ⟨call, choices⟩ := c
    unfold Faunus.inTurn at ran
    split at ran
    · rename_i outcome m₁ returned
      have later := ih (.call completed (client _ List.mem_cons_self) returned)
        (fun c inside => client c (List.mem_cons_of_mem _ inside)) ran
      rw [List.length_cons, ← Nat.add_assoc, Nat.add_right_comm]
      exact later
    · cases ran

/-! ## Room in the leaves -/

/-- A build that the static assertions admit, with inline splits. The product of a watermark and a power of two is
exact, so its conversion to `size_t` is the floor. -/
structure Config.Builds (cfg : Config) (watermark : ℚ) : Prop where
  power : ∃ k, 2 ≤ k ∧ k ≤ 8 ∧ cfg.branchFactor = 2 ^ k
  admitted : 0 < watermark ∧ watermark ≤ 1
  threshold : cfg.splitThreshold = ⌊(cfg.branchFactor : ℚ) * watermark⌋₊
  inline : cfg.maintenance = false
  tries : 0 < cfg.maxAttempts

omit [LinearOrder Key] [BoundedOrder Key] [KeyBytes Key] in
theorem Config.Builds.toInline {watermark : ℚ} (builds : cfg.Builds watermark) (below : watermark < 1)
    (fits : ∀ a, cfg.usable a = true → a.Fits) :
    cfg.Inline := by
  obtain ⟨k, two, eight, power⟩ := builds.power
  refine ⟨⟨k, two, by omega, power⟩, ?_, builds.inline, builds.tries, fits⟩
  have some : 0 < cfg.branchFactor := by
    rw [power]
    exact Nat.two_pow_pos k
  have positive : (0 : ℚ) < cfg.branchFactor := Nat.cast_pos.2 some
  rw [builds.threshold, Nat.floor_lt (mul_nonneg positive.le builds.admitted.1.le)]
  calc (cfg.branchFactor : ℚ) * watermark < cfg.branchFactor * 1 := mul_lt_mul_of_pos_left below positive
    _ = cfg.branchFactor := mul_one _

def Memory.Roomy (m : Memory Key Value) (cfg : Config) : Prop :=
  ∀ a leaf, m.nodes a = some (.leaf leaf) → ∃ i < cfg.branchFactor, (leaf.kvBlocks i).isFree = true

/-- After every call of every history the leaves have room and the next insert succeeds. -/
def KeepsRoom (Key Value : Type) [LinearOrder Key] [BoundedOrder Key] [KeyBytes Key] (cfg : Config) (t : Thread) : Prop :=
  ∀ (n : ℕ) (m : Memory Key Value), n < cfg.loopBound → Completed cfg t n m →
    m.Roomy cfg ∧ ∀ key value, key < ⊤ → Alone cfg t (fun ok _ => ok = true) (insert cfg key value) m

theorem leaf_keeps_room [Nontrivial Key] {watermark : ℚ} (builds : cfg.Builds watermark) (below : watermark < 1)
    (fits : ∀ a, cfg.usable a = true → a.Fits) (t : Thread) : KeepsRoom Key Value cfg t := by
  have inline := builds.toInline below fits
  intro n m short completed
  obtain ⟨⟨top, low, settled⟩, map, represents⟩ := completed.settled inline (by omega)
  refine ⟨settled.room, fun key value low => total_mono (alone_insert inline settled represents (by omega) low) ?_⟩
  rintro ok m' ⟨rfl, -⟩
  rfl

end

section
variable {Key Value : Type} [LinearOrder Key] [BoundedOrder Key] [KeyBytes Key] {cfg : Config} {t : Thread}
    {m : Memory Key Value} {top n : ℕ}

/-! ## The tree between two calls -/

omit [KeyBytes Key] in
theorem Standing.shape (standing : Standing cfg.branchFactor m ∅ top) : Shape (fun _ => .idle) m := by
  -- a tree without splits under way, seen as a tree of idle threads
  have born : ∀ {a n}, Born (fun _ => (.idle : Local Key Value)) m a n ↔ m.nodes a = some n := born_at_rest fun _ => rfl
  have same : tiles (fun _ => .idle) m = m.tiles := by
    funext a
    refine Option.ext fun x => ?_
    rw [tiles_eq_some, Memory.tiles_eq_some]
    simp only [born]
  have settled : {a | Pending (fun _ => (.idle : Local Key Value)) a} = ∅ := by
    refine Set.eq_empty_iff_forall_notMem.2 ?_
    rintro a ⟨t, level, key, own⟩
    cases own
  refine ⟨⟨top, ?_⟩, fun a x there => ?_, fun t a level key own => (by cases own), fun t snap kept => (by cases kept)⟩
  · rw [same, settled]
    exact standing.forest
  · exact (standing.nodes a _ (born.1 there)).2.2.1

/-- What holds of the whole tree between two calls. -/
structure InOrder (cfg : Config) (m : Memory Key Value) : Prop where
  shape : WellShaped m
  above : ∀ a n, m.nodes a = some (.internal n) → n.header.level ≠ 0
  unlocked : ∀ a n, m.nodes a = some n → n.Unlocked cfg
  covered : ∀ a leaf i, m.nodes a = some (.leaf leaf) → leaf.Live cfg.branchFactor i → leaf.header.covers (m.keyAt leaf i)
  fingerprint : ∀ a leaf i, m.nodes a = some (.leaf leaf) → leaf.Live cfg.branchFactor i →
    (leaf.kvBlocks i).getFingerprint = .ofKey (m.keyAt leaf i)
  once : ∀ a b leaf leaf' i j, m.nodes a = some (.leaf leaf) → m.nodes b = some (.leaf leaf') → leaf.Live cfg.branchFactor i →
    leaf'.Live cfg.branchFactor j → m.keyAt leaf i = m.keyAt leaf' j → a = b ∧ i = j

theorem Settled.inOrder (settled : Settled cfg t m top) : InOrder cfg m := by
  have stocked := settled.stocked
  have bottom : ∀ a n, m.nodes a = some (.leaf n) → n.header.level = 0 := fun a n there => (stocked.standing.nodes a _ there).2
  have inner : ∀ a n, m.nodes a = some (.internal n) → n.header.level ≠ 0 := fun a n there => (stocked.standing.nodes a _ there).2.1
  refine ⟨stocked.standing.shape.wellShaped bottom inner fun _ => rfl, inner, fun a n there => ?_,
    fun a leaf i there live => (stocked.shelved a leaf there).covered i live,
    fun a leaf i there live => (stocked.shelved a leaf there).fingerprint i live,
    fun a b leaf leaf' i j one two live live' same => stocked.once one two live live' same⟩
  have free := settled.opened a n there (Nat.zero_le _)
  cases n with
  | leaf leaf => exact ⟨free, (stocked.shelved a leaf there).unlocked⟩
  | internal n => exact free

/-- After `initialize` and after every call that returned the tree is in order. -/
theorem completed_inOrder [Nontrivial Key] (inline : cfg.Inline) (completed : Completed cfg t n m)
    (short : n ≤ cfg.loopBound) : InOrder cfg m := by
  obtain ⟨⟨top, -, settled⟩, -⟩ := completed.settled inline short
  exact settled.inOrder

/-- Every call of every history is answered by the map that the inserts before it have made. -/
theorem calls_refine_map [Nontrivial Key] (inline : cfg.Inline) (fresh : m.Fresh) {calls : List (Call Key Value)}
    (client : ∀ call ∈ calls, call.Client) (short : calls.length ≤ cfg.loopBound) :
    Alone cfg t (fun ok m' => ok = true ∧ Answered cfg t calls (fun _ => none) m') initializeIndex m := by
  have four := inline.four
  refine total_mono (alone_initializeIndex fresh (by omega)) ?_
  rintro ok m' ⟨rfl, settled, represents⟩
  exact ⟨rfl, settled.answered represents inline client (by omega)⟩

end

/-- Leaves of four slots, split inline, and items at addresses that a block can store. -/
def inlineConfig (splitThreshold : ℕ) : Config :=
  { smallConfig with splitThreshold := splitThreshold, loopBound := 8, usable := fun a => decide a.Fits }

theorem inlineConfig_builds {splitThreshold : ℕ} {watermark : ℚ} (admitted : 0 < watermark ∧ watermark ≤ 1)
    (threshold : splitThreshold = ⌊(4 : ℚ) * watermark⌋₊) : (inlineConfig splitThreshold).Builds watermark := by
  refine ⟨⟨2, by decide, by decide, rfl⟩, admitted, ?_, rfl, Nat.succ_pos 3⟩
  exact threshold.trans (by norm_num [inlineConfig, smallConfig])

def unplanted : Memory (Fin 256) ℕ where
  rootOffset := ⟨0⟩
  nodes := fun _ => none
  items := fun _ => ⟨⊥, 0⟩
  nodesIssued := []
  itemsIssued := []
  freeItems := fun _ => []
  queue := []

theorem unplanted_fresh : unplanted.Fresh := ⟨fun _ => rfl, fun _ => rfl⟩

theorem leaf_keeps_room_threeQuarters : (inlineConfig 3).Builds (3 / 4) ∧ KeepsRoom (Fin 256) ℕ (inlineConfig 3) ⟨0, 0⟩ := by
  have builds : (inlineConfig 3).Builds (3 / 4) := inlineConfig_builds (by norm_num) (by norm_num)
  exact ⟨builds, leaf_keeps_room builds (by norm_num) (fun a usable => of_decide_eq_true usable) _⟩

theorem inlineConfig_inline : (inlineConfig 3).Inline :=
  have builds : (inlineConfig 3).Builds (3 / 4) := inlineConfig_builds (by norm_num) (by norm_num)
  builds.toInline (by norm_num) fun _ usable => of_decide_eq_true usable

/-- An insert that draws other addresses than the inserts of other keys. -/
def freshInsert (key : Fin 256) : Call (Fin 256) ℕ × List (BitVec 64) :=
  (.insert key 0, (List.range 100).map fun i => BitVec.ofNat 64 (100 * key.val + i))

/-- With watermark 1 four keys fill a leaf, and the insert of a fifth runs out of attempts. -/
theorem leaf_fills_watermarkOne :
    ¬ ∀ (cfg : Config) (watermark : ℚ), cfg.Builds watermark → ∀ t : Thread, KeepsRoom (Fin 256) ℕ cfg t := by
  intro claimed
  have builds : (inlineConfig 4).Builds 1 := inlineConfig_builds (by norm_num) (by norm_num)
  have planted : initializeIndex.run (Memory.exec (inlineConfig 4).usable) ⟨0, 0⟩ (List.replicate 4 1) unplanted = some
    (true, unplanted.planted ⟨1⟩) := rfl
  have fills : ((inTurn (inlineConfig 4) ⟨0, 0⟩ ([1, 2, 3, 4].map freshInsert) (unplanted.planted ⟨1⟩)).map fun m =>
      (insert (inlineConfig 4) 5 0).fails (Memory.exec (inlineConfig 4).usable) ⟨0, 0⟩ (List.replicate 60 5) m) = some
        true := by decide +kernel
  obtain ⟨m, ran, fails⟩ := Option.map_eq_some_iff.1 fills
  have completed : Completed (inlineConfig 4) ⟨0, 0⟩ 4 m := by
    refine (Completed.start unplanted_fresh planted).inTurn ?_ ran
    simp only [List.map_cons, List.map_nil, List.forall_mem_cons, freshInsert, Call.Client]
    exact ⟨by decide, by decide, by decide, by decide, by simp⟩
  have succeeds := (claimed _ 1 builds ⟨0, 0⟩ 4 m (by decide) completed).2 5 0 (by decide)
  rw [alone_not_fails succeeds] at fails
  cases fails

/-- The fourth of the inserts splits the leaf. -/
theorem completed_inOrder_fourInserts :
    ∃ m : Memory (Fin 256) ℕ, Completed (inlineConfig 3) ⟨0, 0⟩ 4 m ∧ m.rootOffset ≠ ⟨1⟩ ∧ InOrder (inlineConfig 3) m := by
  have planted : initializeIndex.run (Memory.exec (inlineConfig 3).usable) ⟨0, 0⟩ (List.replicate 4 1) unplanted = some
    (true, unplanted.planted ⟨1⟩) := rfl
  have splits : ((inTurn (inlineConfig 3) ⟨0, 0⟩ ([1, 2, 3, 4].map freshInsert) (unplanted.planted ⟨1⟩)).map fun m =>
      decide (m.rootOffset = ⟨1⟩)) = some false := by decide +kernel
  obtain ⟨m, ran, grown⟩ := Option.map_eq_some_iff.1 splits
  have completed : Completed (inlineConfig 3) ⟨0, 0⟩ 4 m := by
    refine (Completed.start unplanted_fresh planted).inTurn ?_ ran
    simp only [List.map_cons, List.map_nil, List.forall_mem_cons, freshInsert, Call.Client]
    exact ⟨by decide, by decide, by decide, by decide, by simp⟩
  exact ⟨m, completed, of_decide_eq_false grown, completed_inOrder inlineConfig_inline completed (by decide)⟩

theorem calls_refine_map_threeCalls :
    Alone (inlineConfig 3) ⟨0, 0⟩ (fun ok m => ok = true ∧
      Answered (inlineConfig 3) ⟨0, 0⟩ [.insert firstKey 7, .read firstKey, .read secondKey] (fun _ => none) m)
        initializeIndex unplanted := by
  refine calls_refine_map inlineConfig_inline unplanted_fresh ?_ (by decide)
  simp only [List.forall_mem_cons, Call.Client]
  exact ⟨by decide, by decide, by decide, by simp⟩

end Faunus
