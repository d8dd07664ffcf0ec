import Faunus.Sherman.Solo

/-! One client on a tree at rest.

The tree keeps its links and its records, and it is a finite map: an insert assigns a
value, a read looks it up. Only `Value::min` cannot be told from absence.
-/

set_option autoImplicit false

namespace Faunus.Sherman

open Interleaving Tiling

variable {Key Value : Type} [LinearOrder Key] [BoundedOrder Key]

/-! ## The operations -/

section
variable [KeyBytes Key] {cfg : Config} {m : Memory Key Value} {top t : ℕ} {a : GlobalAddress} {p : LeafPage Key} {key : Key}
  {path : PathStack} {map : Key → Option Value} {result : SearchResult Value}

theorem solo_searchNode_leaf (sound : Sound cfg m ∅ top) (represents : Represents cfg m map) (there : m.pages a = some (.leaf p))
    (covers : p.hdr.covers key) :
    Solo t (fun r m' => m' = m ∧
      r = ({ result with isLeaf := true, level := 0, val := (map key).getD result.val }, Function.update path 0 a))
      (searchNode cfg a key result path) m := by
  -- in a leaf the search looks the key up
  have covers' : (Page.leaf p).hdr.covers key := covers
  have stocked := sound.stocked a p there
  have level : (Page.leaf p).hdr.level = 0 := (sound.linked.leaf a p there).1
  have leftmost : (Page.leaf p).hdr.leftmostPtr = .null := (sound.linked.leaf a p there).2
  unfold searchNode
  refine solo_readPage there ?_
  unfold searchPage
  dsimp only
  rw [level, if_neg (by decide : ¬ kMaxLevelOfTree ≤ 0), if_neg (not_le.2 covers'.2), if_neg (not_lt.2 covers'.1), if_pos leftmost,
    if_neg (not_not.2 rfl), decide_eq_true leftmost]
  refine total_bind (total_mono (solo_searchRecords fun r inside => (stocked.stored r inside).2.1) ?_)
  rintro found m' ⟨rfl, ⟨r, inside, same, rfl⟩ | ⟨nowhere, rfl⟩⟩
  · have value : map key = some (m'.items r.kvPtr).value := by
      refine (represents key _).2 ⟨r, ⟨a, p, there, inside⟩, ?_⟩
      rw [← same]
      rfl
    exact ⟨rfl, by rw [value]; rfl⟩
  · have absent : map key = none := by
      refine Option.eq_none_iff_forall_ne_some.2 fun v stored => ?_
      obtain ⟨r, onShelf, eq⟩ := (represents key v).1 stored
      exact sound.absent there covers nowhere r onShelf (congrArg KVItem.key eq)
    exact ⟨rfl, by rw [absent]; rfl⟩

variable [Bot Value] (sound : Sound cfg m ∅ top) (represents : Represents cfg m map) (short : top < kMaxLevelOfTree)
  (below : key < ⊤) (long : kMaxLevelOfTree ≤ cfg.loopBound)
include sound represents short below long

theorem solo_insert (three : 3 ≤ cfg.internalCardinality) (two : 2 ≤ cfg.leafCardinality)
    (retries : kMaxLevelOfTree ≤ cfg.maxRetries) (value : Value) :
    Solo t (fun ok m' => ok = true ∧ (∃ top', Sound cfg m' ∅ top') ∧ Represents cfg m' (m.store m' map key value) ∧ Kept m m')
      (insert cfg key value) m := by
  obtain ⟨p, there, level, covers⟩ := sound.linked.root_covers below fun b waits => waits.elim
  have leaf : ∀ {a p path}, m.pages a = some (.leaf p) → p.hdr.covers key → Climb m key 1 top path →
      Solo t (fun ok m' => ok = true ∧ (∃ top', Sound cfg m' ∅ top') ∧ Represents cfg m' (m.store m' map key value) ∧ Kept m m')
        (insertToLeaf cfg key value m.rootOffset 0 path cfg.loopBound a >>= fun _ => pure true) m := by
    intro a p path there covers climb
    refine total_bind (total_mono (solo_insertToLeaf three two sound represents there covers (.inl climb) (by omega) ?_)
      fun _ m' holds => ⟨rfl, holds⟩)
    exact lt_of_lt_of_le (by decide) long
  refine solo_readRoot ((rounds_insertLoop cfg key value m.rootOffset).descends sound.linked (fun b waits => waits.elim) short
    (fun n a p result path there on covers climb _ _ => ?_)
      (fun n a result path q inner one fresh unset next on covers climb => ?_) there
    (show p.hdr.level = 0 + top by omega) covers (fun l above low => by omega) rfl rfl (by omega))
  · obtain ⟨p, rfl⟩ := sound.linked.leaf_of_zero there on
    rw [(rounds_insertLoop cfg key value m.rootOffset).round]
    refine total_bind (total_mono (solo_searchNode_leaf sound represents there covers) ?_)
    rintro r m' ⟨rfl, rfl⟩
    simp only [if_true]
    refine leaf there covers fun l above low => ?_
    rw [Function.update_of_ne (by omega)]
    exact climb l above low
  · obtain ⟨q, rfl⟩ := sound.linked.leaf_of_zero next on
    simp only [inner, one, fresh, Nat.zero_add, Bool.false_eq_true, if_false, Nat.one_ne_zero, ne_eq, not_true]
    exact leaf next covers climb

variable [DecidableEq Value]

theorem solo_read : Solo t (fun found m' => m' = m ∧ found = (map key).filter fun v => decide (v ≠ ⊥)) (read cfg key) m := by
  obtain ⟨p, there, level, covers⟩ := sound.linked.root_covers below fun b waits => waits.elim
  have leaf : ∀ n a p (result : SearchResult Value) path, m.pages a = some (.leaf p) → p.hdr.covers key →
    result.slibing = .null → result.val = ⊥ →
      Solo t (fun found m' => m' = m ∧ found = (map key).filter fun v => decide (v ≠ ⊥))
        (readLoop cfg key (n + 1) a result path) m := by
    intro n a p result path there covers fresh unset
    rw [(rounds_readLoop cfg key).round]
    refine total_bind (total_mono (solo_searchNode_leaf sound represents there covers) ?_)
    rintro r m' ⟨rfl, rfl⟩
    simp only [if_true, fresh, ne_eq, not_true, if_false, unset]
    cases map key with
    | none =>
      rw [Option.getD_none, if_neg (not_not.2 rfl)]
      exact ⟨rfl, rfl⟩
    | some v =>
      rw [Option.getD_some]
      by_cases zero : v = ⊥
      · rw [if_neg (not_not.2 zero)]
        exact ⟨rfl, by simp [zero, Option.filter]⟩
      · rw [if_pos zero]
        exact ⟨rfl, by simp [zero, Option.filter]⟩
  refine solo_readRoot ((rounds_readLoop cfg key).descends sound.linked (fun b waits => waits.elim) short
    (fun n a p result path there on covers _ fresh unset => ?_)
      (fun n a result path q inner _ fresh unset next on covers _ => ?_) there
    (show p.hdr.level = 0 + top by omega) covers (fun l above low => by omega) rfl rfl (by omega))
  · obtain ⟨p, rfl⟩ := sound.linked.leaf_of_zero there on
    exact leaf n a p result path there covers fresh unset
  · obtain ⟨q, rfl⟩ := sound.linked.leaf_of_zero next on
    simp only [inner, Bool.false_eq_true, if_false, fresh, if_true]
    exact leaf n _ q result path next covers fresh unset

end

/-! ## The empty tree -/

/-- Memory before `initialize`. -/
structure Memory.Fresh (m : Memory Key Value) : Prop where
  root : m.rootOffset = .null
  pages : ∀ a, m.pages a = none
  locks : ∀ a, m.locks a = false

/-- Memory after `initialize`. -/
def Memory.planted (m : Memory Key Value) (new : GlobalAddress) : Memory Key Value :=
  { (m.issuePage new).setPage new (.leaf .init) with rootOffset := new }

section
variable {m : Memory Key Value} {new : GlobalAddress}

theorem Memory.Fresh.pages_planted (fresh : m.Fresh) {a : GlobalAddress} {p : Page Key} (there : (m.planted new).pages a = some p) :
    a = new ∧ p = .leaf .init := by
  by_cases here : a = new
  · subst here
    exact ⟨rfl, by simpa [Memory.planted, Memory.setPage] using there.symm⟩
  · simp [Memory.planted, Memory.setPage, Memory.issuePage, here, fresh.pages] at there

theorem Memory.planted_new : (m.planted new).pages new = some (.leaf .init) := by
  simp [Memory.planted, Memory.setPage]

variable [Nontrivial Key]

theorem Memory.Fresh.linked (fresh : m.Fresh) (notNull : new ≠ .null) : Linked (m.planted new) ∅ 0 := by
  refine .of_pages (.single (fun a x => ⟨fun there => ?_, ?_⟩) fun _ => Set.notMem_empty _) ?_ fun a p there => ?_
  · obtain ⟨p, page, rfl⟩ := tiles_eq_some.1 there
    obtain ⟨rfl, rfl⟩ := fresh.pages_planted page
    exact ⟨rfl, rfl⟩
  · rintro ⟨rfl, rfl⟩
    exact tiles_page Memory.planted_new
  · simp [Memory.planted, Memory.setPage, Memory.issuePage, notNull.symm, fresh.pages]
  · obtain ⟨rfl, rfl⟩ := fresh.pages_planted there
    exact ⟨List.mem_cons_self, ⟨rfl, rfl⟩, .inl ⟨rfl, rfl⟩⟩

variable [KeyBytes Key] {cfg : Config} {t : ℕ}

omit [Nontrivial Key] [KeyBytes Key] in
theorem entries_init : (LeafPage.init : LeafPage Key).entries cfg.leafCardinality = [] :=
  entries_eq_of_getElem? (fun _ => rfl) (Nat.zero_le _) (by simp)

theorem solo_initializeIndex (fresh : m.Fresh) (some : 0 < cfg.leafCardinality) :
    Solo t (fun ok m' => ok = true ∧ Sound cfg m' ∅ 0 ∧ Represents cfg m' fun _ => none) initializeIndex m := by
  unfold initializeIndex
  refine solo_allocPage fun new notNull _ => solo_writePage ?_
  rw [show (GlobalAddress.null) = ((m.issuePage new).setPage new (.leaf .init)).rootOffset from fresh.root.symm]
  refine solo_casRoot ⟨rfl, ⟨fresh.linked notNull, fun a p there => ?_, fresh.locks, fun a p there => ?_⟩, fun k v => ?_⟩
  · cases (fresh.pages_planted there).2
  · obtain ⟨-, eq⟩ := fresh.pages_planted there
    obtain rfl := Page.leaf.inj eq
    refine ⟨⟨?_, ?_⟩, ?_⟩ <;> rw [entries_init]
    · exact List.nodup_nil
    · exact fun r inside => absurd inside List.not_mem_nil
    · exact some
  · refine iff_of_false (by simp) ?_
    rintro ⟨r, ⟨a, p, there, inside⟩, -⟩
    obtain ⟨-, eq⟩ := fresh.pages_planted there
    obtain rfl := Page.leaf.inj eq
    rw [entries_init] at inside
    exact absurd inside List.not_mem_nil

end

/-- Nothing was allocated yet, and no item will lie at the null address. -/
def blank : Memory (Fin 256) (Fin 256) where
  rootOffset := .null
  pages := fun _ => none
  items := fun _ => ⟨⊥, ⊥⟩
  locks := fun _ => false
  pagesIssued := []
  itemsIssued := [.null]

theorem blank_fresh : blank.Fresh := ⟨rfl, fun _ => rfl, fun _ => rfl⟩

end Faunus.Sherman
