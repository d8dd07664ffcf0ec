import Faunus.Index.System
import Faunus.Sherman.Tree
import Mathlib.Data.Finset.Card

/-! Descents through a tree with unfinished splits.

A search that steps to the right above its level never comes down again: the field
`slibing` of its result keeps the page it stepped to, and every later round goes there.
-/

set_option autoImplicit false

namespace Faunus.Sherman

open Interleaving Tiling

variable {Key Value : Type} [LinearOrder Key] [BoundedOrder Key]

/-- The operation reads the page of the level that takes the key. -/
def Visits (key : Key) (level : ℕ) (o : Op Key Value) (m : Memory Key Value) : Prop :=
  ∃ a p, o.act = .readPage a ∧ m.pages a = some p ∧ p.hdr.level = level ∧ p.hdr.covers key

/-- The child pointers lead from the page to the level through pages that take the key. -/
inductive Straight (m : Memory Key Value) (key : Key) (level : ℕ) : GlobalAddress → Prop where
  | here {a : GlobalAddress} {p : Page Key} : m.pages a = some p → p.hdr.level = level → Straight m key level a
  | down {a : GlobalAddress} {p : InternalPage Key} : m.pages a = some (.internal p) → level < p.hdr.level →
      key < p.hdr.highest → Straight m key level (p.nextLevel key) → Straight m key level a

/-! ## Stepping to the right -/

section
open Classical in
/-- How many pages start behind the key. -/
noncomputable def ahead (m : Memory Key Value) (k : Key) : ℕ :=
  (m.pagesIssued.toFinset.filter fun a => ∃ p, m.pages a = some p ∧ k < p.hdr.lowest).card

omit [BoundedOrder Key] in
theorem ahead_le (m : Memory Key Value) (k : Key) : ahead m k ≤ m.pagesIssued.length :=
  le_trans (Finset.card_filter_le _ _) (List.toFinset_card_le _)

variable {m : Memory Key Value} {pending : Set GlobalAddress} {top : ℕ} {a b : GlobalAddress} {p q : Page Key} {key : Key}

theorem Linked.ahead_lt (linked : Linked m pending top) (there : m.pages a = some p) (next : m.pages b = some q)
    (starts : q.hdr.lowest = p.hdr.highest) : ahead m q.hdr.lowest < ahead m p.hdr.lowest := by
  classical
  have less : p.hdr.lowest < q.hdr.lowest := starts ▸ linked.nonempty there
  apply Finset.card_lt_card
  refine ⟨fun c inside => ?_, fun all => ?_⟩
  · simp only [Finset.mem_filter] at inside ⊢
    obtain ⟨issued, r, found, behind⟩ := inside
    exact ⟨issued, r, found, lt_trans less behind⟩
  · have inside := all (Finset.mem_filter.2 ⟨List.mem_toFinset.2 (linked.issued b q next), q, next, less⟩)
    obtain ⟨-, r, found, behind⟩ := Finset.mem_filter.1 inside
    obtain rfl : q = r := Option.some.inj (next.symm.trans found)
    exact lt_irrefl _ behind

section
variable {A : Type} {t : ℕ} {site : Site} {goal : Op Key Value → Memory Key Value → Prop}

/-- The client comes to an operation with the goal. -/
abbrev Comes (t : ℕ) (goal : Op Key Value → Memory Key Value → Prop) (p : Index Key Value A) (m : Memory Key Value) : Prop :=
  p.Eventually Memory.exec t goal m

omit [LinearOrder Key] [BoundedOrder Key] in
theorem comes_readRoot {f : GlobalAddress → Index Key Value A} (next : Comes t goal (f m.rootOffset) m) :
    Comes t goal (readRoot site >>= f) m :=
  eventually_perform (fun _ => rfl) 0 next

omit [LinearOrder Key] [BoundedOrder Key] in
theorem comes_readPage {f : Page Key → Index Key Value A} (there : m.pages a = some p) (next : Comes t goal (f p) m) :
    Comes t goal (readPage site a >>= f) m := by
  have performed : ∀ c, Memory.exec t ⟨site, .readPage a⟩ c m = some (p, m) := fun c => by
    simp only [Memory.exec, there]
    rfl
  exact eventually_perform performed 0 next

omit [LinearOrder Key] [BoundedOrder Key] in
theorem comes_lock {f : Unit → Index Key Value A} (free : m.locks a = false) (next : Comes t goal (f ()) (m.setLock a true)) :
    Comes t goal (lock site a >>= f) m := by
  have performed : ∀ c, Memory.exec t ⟨site, .lock a⟩ c m = some ((), m.setLock a true) := fun c => by
    simp only [Memory.exec, free]
    rfl
  exact eventually_perform performed 0 next

omit [LinearOrder Key] [BoundedOrder Key] in
theorem comes_unlock {f : Unit → Index Key Value A} (next : Comes t goal (f ()) (m.setLock a false)) :
    Comes t goal (unlock site a >>= f) m :=
  eventually_perform (fun _ => rfl) 0 next

end

/-- `insert_to_leaf` and `insert_to_internal` step to the right under the lock of each page. -/
theorem eventually_hop {A : Type} {t : ℕ} {level : ℕ} {site : Site} {hop : ℕ → GlobalAddress → Index Key Value A}
    {rest : ℕ → GlobalAddress → Page Key → Index Key Value A} (linked : Linked m pending top) (free : ∀ a, m.locks a = false)
    (below : key < ⊤)
    (step : ∀ n a, hop (n + 1) a = lockAndReadPage site a >>= fun page =>
      if page.hdr.level ≠ level then .stuck
      else if page.hdr.highest ≤ key then unlock site a >>= fun _ =>
        if page.hdr.siblingPtr = .null then .stuck else hop n page.hdr.siblingPtr
      else rest n a page)
    {n : ℕ} (there : m.pages a = some p) (on : p.hdr.level = level) (low : p.hdr.lowest ≤ key) (enough : ahead m p.hdr.lowest < n) :
    (hop n a).Eventually Memory.exec t (Visits key level) m := by
  induction n generalizing a p with
  | zero => omega
  | succ n ih =>
    rw [step, lockAndReadPage, bind_assoc]
    refine comes_lock (free a) ?_
    by_cases behind : p.hdr.highest ≤ key
    · obtain ⟨notNull, -, q, next, same, starts⟩ := linked.next there behind below
      refine comes_readPage there ?_
      rw [if_neg (not_not.2 on), if_pos behind]
      refine comes_unlock ?_
      rw [if_neg notNull, Memory.setLock_setLock (free a)]
      refine ih next (same.trans on) (starts ▸ behind) ?_
      have := linked.ahead_lt there next starts
      omega
    · exact .inl ⟨a, p, rfl, there, on, low, not_le.1 behind⟩

end

/-! ## Rounds of a search -/

section
variable [KeyBytes Key] [Bot Value] [DecidableEq Value] {cfg : Config} {m : Memory Key Value} {pending : Set GlobalAddress} {top : ℕ}
  {a : GlobalAddress} {p : Page Key} {key : Key} {result : SearchResult Value} {path : PathStack} {A : Type} {t level : ℕ}
  {goal : Op Key Value → Memory Key Value → Prop}

omit [Bot Value] [DecidableEq Value] in
theorem Linked.searchPage_right (linked : Linked m pending top) (there : m.pages a = some p) (short : p.hdr.level < kMaxLevelOfTree)
    (behind : p.hdr.highest ≤ key) (below : key < ⊤) :
    searchPage cfg a p key result path =
      pure ({ result with isLeaf := p.hdr.leftmostPtr = .null, level := p.hdr.level, slibing := p.hdr.siblingPtr },
        Function.update path p.hdr.level a) := by
  obtain ⟨notNull, notSame, -⟩ := linked.next there behind below
  unfold searchPage
  rw [if_neg (not_le.2 short), if_pos behind, if_neg (not_or.2 ⟨notNull, notSame⟩)]

omit [Bot Value] [DecidableEq Value] in
theorem Linked.searchPage_down {n : InternalPage Key} (linked : Linked m pending top) (there : m.pages a = some (.internal n))
    (short : n.hdr.level < kMaxLevelOfTree) (covers : n.hdr.covers key) :
    searchPage cfg a (.internal n) key result path =
      pure ({ result with isLeaf := false, level := n.hdr.level, nextLevel := n.nextLevel key },
        Function.update path n.hdr.level a) := by
  unfold searchPage
  have inner : ¬ (Page.internal n).hdr.leftmostPtr = .null := linked.leftmost there
  rw [if_neg (show ¬ _ ≤ (Page.internal n).hdr.level from not_le.2 short),
    if_neg (show ¬ (Page.internal n).hdr.highest ≤ key from not_le.2 covers.2),
    if_neg (show ¬ key < (Page.internal n).hdr.lowest from not_lt.2 covers.1), if_neg inner,
    if_neg (show ¬ (Page.internal n).hdr.level = 0 from (linked.internal a n there).1), decide_eq_false inner]
  rfl

/-- A search loop above its level: once `slibing` is set it goes there, before that it goes down. -/
structure Rounds (cfg : Config) (key : Key) (level : ℕ)
    (loop : ℕ → GlobalAddress → SearchResult Value → PathStack → Index Key Value A)
    (next : ℕ → GlobalAddress → SearchResult Value → PathStack → Index Key Value A) : Prop where
  round : ∀ n a result path, loop (n + 1) a result path = searchNode cfg a key result path >>= fun r => next n a r.1 r.2
  right : ∀ n a result path, result.isLeaf = false → level < result.level → result.slibing ≠ .null →
    next n a result path = loop n result.slibing result path
  down : ∀ n a result path, result.isLeaf = false → level + 1 < result.level → result.slibing = .null →
    next n a result path = loop n result.nextLevel result path

section
variable {loop : ℕ → GlobalAddress → SearchResult Value → PathStack → Index Key Value A}
  {next : ℕ → GlobalAddress → SearchResult Value → PathStack → Index Key Value A}

omit [Bot Value] [DecidableEq Value] in
theorem Rounds.astray (rounds : Rounds cfg key level loop next) (linked : Linked m pending top) (short : top < kMaxLevelOfTree)
    (below : key < ⊤) (ends : ∀ a result path, ¬ Comes t (Visits key level) (loop 0 a result path) m) (n : ℕ) {q : Page Key}
    (there : m.pages a = some p) (high : level < p.hdr.level) (low : p.hdr.lowest ≤ key)
    (stale : m.pages result.slibing = some q) (above : level < q.hdr.level) (lowest : q.hdr.lowest ≤ key) :
    ¬ Comes t (Visits key level) (loop n a result path) m := by
  -- a search that has stepped to the right above its level stays there
  induction n generalizing a p q result path with
  | zero => exact ends a result path
  | succ n ih =>
    intro comes
    obtain ⟨page, rfl⟩ := linked.internal_of_level there high
    have bounded := lt_of_le_of_lt (linked.level_le there) short
    rw [rounds.round, searchNode, bind_assoc] at comes
    have performed : Memory.exec t ⟨.searchNode, .readPage a⟩ 0 m = some (Page.internal page, m) := by
      simp only [Memory.exec, there]
      rfl
    have later := eventually_after performed ?_ comes
    swap
    · rintro ⟨b, r, act, found, on, -⟩
      cases act
      obtain rfl : Page.internal page = r := Option.some.inj (there.symm.trans found)
      omega
    change Comes t (Visits key level) (searchPage cfg a (.internal page) key result path >>= fun r => next n a r.1 r.2) m at later
    by_cases behind : page.hdr.highest ≤ key
    · obtain ⟨notNull, -, r, found, same, starts⟩ := linked.next there behind below
      rw [linked.searchPage_right there bounded behind below, pure_bind, rounds.right] at later
      · exact ih found (same ▸ high) (starts ▸ behind) found (same ▸ high) (starts ▸ behind) later
      · exact decide_eq_false (linked.leftmost there)
      · exact high
      · exact notNull
    · rw [linked.searchPage_down there bounded ⟨low, not_le.1 behind⟩, pure_bind, rounds.right] at later
      · exact absurd later (ih stale above lowest stale above lowest)
      · rfl
      · exact high
      · exact linked.not_null stale

omit [Bot Value] [DecidableEq Value] in
theorem Rounds.never (rounds : Rounds cfg key level loop next) (linked : Linked m pending top) (short : top < kMaxLevelOfTree)
    (below : key < ⊤) (ends : ∀ a result path, ¬ Comes t (Visits key level) (loop 0 a result path) m) (n : ℕ)
    (there : m.pages a = some p) (high : level ≤ p.hdr.level) (low : p.hdr.lowest ≤ key) (crooked : ¬ Straight m key level a)
    (fresh : result.slibing = .null) : ¬ Comes t (Visits key level) (loop n a result path) m := by
  -- where the child pointers lead past the key, the search never comes down
  induction n generalizing a p result path with
  | zero => exact ends a result path
  | succ n ih =>
    intro comes
    have strict : level < p.hdr.level := lt_of_le_of_ne high fun same => crooked (.here there same.symm)
    obtain ⟨page, rfl⟩ := linked.internal_of_level there strict
    have bounded := lt_of_le_of_lt (linked.level_le there) short
    rw [rounds.round, searchNode, bind_assoc] at comes
    have performed : Memory.exec t ⟨.searchNode, .readPage a⟩ 0 m = some (Page.internal page, m) := by
      simp only [Memory.exec, there]
      rfl
    have later := eventually_after performed ?_ comes
    swap
    · rintro ⟨b, r, act, found, on, -⟩
      cases act
      obtain rfl : Page.internal page = r := Option.some.inj (there.symm.trans found)
      omega
    change Comes t (Visits key level) (searchPage cfg a (.internal page) key result path >>= fun r => next n a r.1 r.2) m at later
    by_cases behind : page.hdr.highest ≤ key
    · obtain ⟨notNull, -, r, found, same, starts⟩ := linked.next there behind below
      rw [linked.searchPage_right there bounded behind below, pure_bind, rounds.right] at later
      · exact rounds.astray linked short below ends n found (same ▸ strict) (starts ▸ behind) found (same ▸ strict)
          (starts ▸ behind) later
      · exact decide_eq_false (linked.leftmost there)
      · exact strict
      · exact notNull
    · obtain ⟨q, found, down, starts⟩ := linked.nextLevel_page there low
      have still : ¬ Straight m key level (page.nextLevel key) := fun straight =>
        crooked (.down there strict (not_le.1 behind) straight)
      have deeper : level + 1 < page.hdr.level := by
        refine lt_of_le_of_ne strict fun same => still (.here found ?_)
        omega
      rw [linked.searchPage_down there bounded ⟨low, not_le.1 behind⟩, pure_bind, rounds.down] at later
      · exact absurd later (ih found (by omega) starts still fresh)
      · rfl
      · exact deeper
      · exact fresh

omit [DecidableEq Value] in
theorem Rounds.comes (rounds : Rounds cfg key level loop next) (linked : Linked m pending top) (short : top < kMaxLevelOfTree)
    (enough : ℕ)
    (bottom : ∀ n a p (result : SearchResult Value) path, m.pages a = some p → p.hdr.level = level → p.hdr.lowest ≤ key →
      result.val = ⊥ → enough < n → Comes t (Visits key level) (loop n a result path) m)
    (last : ∀ n a (result : SearchResult Value) path q, result.isLeaf = false → result.level = level + 1 → result.slibing = .null →
      result.val = ⊥ → m.pages result.nextLevel = some q → q.hdr.level = level → q.hdr.lowest ≤ key → enough < n →
      Comes t (Visits key level) (next n a result path) m)
    (straight : Straight m key level a) (there : m.pages a = some p) (low : p.hdr.lowest ≤ key) {n : ℕ}
    (long : enough + p.hdr.level < n) (fresh : result.slibing = .null) (unset : result.val = ⊥) :
    Comes t (Visits key level) (loop n a result path) m := by
  -- where the child pointers lead to the level, the search gets there
  induction straight generalizing p n result path with
  | here found on =>
    obtain rfl := Option.some.inj (there.symm.trans found)
    exact bottom n _ p result path there on low unset (by omega)
  | @down a page found high inside rest ih =>
    obtain rfl := Option.some.inj (there.symm.trans found)
    obtain ⟨q, child, down, starts⟩ := linked.nextLevel_page there low
    obtain ⟨n, rfl⟩ : ∃ n', n = n' + 1 := ⟨n - 1, by omega⟩
    have levels : (Page.internal page).hdr.level = page.hdr.level := rfl
    rw [rounds.round, searchNode, bind_assoc]
    refine comes_readPage there ?_
    rw [linked.searchPage_down there (lt_of_le_of_lt (linked.level_le there) short) ⟨low, inside⟩, pure_bind]
    rcases Nat.lt_or_ge (level + 1) page.hdr.level with deep | shallow
    · rw [rounds.down]
      · exact ih child starts (by omega) fresh unset
      · rfl
      · exact deep
      · exact fresh
    · exact last n a _ _ q rfl (show page.hdr.level = _ by omega) fresh unset child (by omega) starts (by omega)

end

/-! ## The three searches -/

theorem rounds_readLoop (cfg : Config) (key : Key) :
    Rounds cfg key 0 (readLoop cfg key : ℕ → GlobalAddress → SearchResult Value → PathStack → Index Key Value (Option Value))
      fun bound _ result path =>
        if result.isLeaf then
          if result.val ≠ ⊥ then pure (some result.val)
          else if result.slibing ≠ .null then readLoop cfg key bound result.slibing result path
          else pure none
        else readLoop cfg key bound (if result.slibing = .null then result.nextLevel else result.slibing) result path := by
  refine ⟨fun _ _ _ _ => rfl, fun n a result path inner _ set => ?_, fun n a result path inner _ unset => ?_⟩
  · simp only [inner, Bool.false_eq_true, if_false, if_neg set]
  · simp only [inner, Bool.false_eq_true, if_false, if_pos unset]

omit [DecidableEq Value] in
theorem rounds_insertLoop (cfg : Config) (key : Key) (value : Value) (root : GlobalAddress) :
    Rounds cfg key 0 (insertLoop cfg key value root) fun retries a result path =>
      if result.isLeaf then insertToLeaf cfg key value root 0 path cfg.loopBound a >>= fun _ => pure true
      else if result.level = 0 then .stuck
      else if result.slibing ≠ .null then insertLoop cfg key value root retries result.slibing result path
      else if result.level ≠ 1 then insertLoop cfg key value root retries result.nextLevel result path
      else insertToLeaf cfg key value root 0 path cfg.loopBound result.nextLevel >>= fun _ => pure true := by
  refine ⟨fun _ _ _ _ => rfl, fun n a result path inner high set => ?_, fun n a result path inner high unset => ?_⟩
  · simp only [inner, Bool.false_eq_true, if_false, if_neg (Nat.ne_of_gt high), if_pos set]
  · simp only [inner, Bool.false_eq_true, if_false, if_neg (show result.level ≠ 0 by omega), if_neg (not_not.2 unset),
      if_pos (show result.level ≠ 1 by omega)]

omit [Bot Value] [DecidableEq Value] in
theorem rounds_searchAndInsertLoop (cfg : Config) (key : Key) (v root : GlobalAddress) (level : ℕ) :
    Rounds cfg key level (searchAndInsertLoop cfg key v root level : ℕ → GlobalAddress → SearchResult Value → PathStack → _)
      fun bound a result path =>
        if result.level = level then insertToInternal cfg key v root level path cfg.loopBound a
        else if result.level = 0 then .stuck
        else if result.slibing ≠ .null then searchAndInsertLoop cfg key v root level bound result.slibing result path
        else if result.level ≠ level + 1 then searchAndInsertLoop cfg key v root level bound result.nextLevel result path
        else insertToInternal cfg key v root level path cfg.loopBound result.nextLevel := by
  refine ⟨fun _ _ _ _ => rfl, fun n a result path inner high set => ?_, fun n a result path inner high unset => ?_⟩
  · simp only [if_neg (Nat.ne_of_gt high), if_neg (show result.level ≠ 0 by omega), if_pos set]
  · simp only [if_neg (show result.level ≠ level by omega), if_neg (show result.level ≠ 0 by omega), if_neg (not_not.2 unset),
      if_pos (show result.level ≠ level + 1 by omega)]

/-- On the level of the leaves `slibing` is what the search should follow. -/
theorem comes_readLoop (linked : Linked m pending top) (below : key < ⊤) (n : ℕ) (there : m.pages a = some p) (on : p.hdr.level = 0)
    (low : p.hdr.lowest ≤ key) (unset : result.val = ⊥) (enough : ahead m p.hdr.lowest < n) :
    Comes t (Visits key 0) (readLoop cfg key n a result path) m := by
  induction n generalizing a p result path with
  | zero => omega
  | succ n ih =>
    by_cases behind : p.hdr.highest ≤ key
    · obtain ⟨notNull, -, q, next, same, starts⟩ := linked.next there behind below
      have leaf : p.hdr.leftmostPtr = .null := linked.leaf_of_level there on
      have closer := linked.ahead_lt there next starts
      rw [(rounds_readLoop cfg key).round, searchNode, bind_assoc]
      refine comes_readPage there ?_
      rw [linked.searchPage_right there (by rw [on]; decide) behind below, pure_bind]
      simp only [leaf, decide_true, if_true, unset, ne_eq, not_true, if_false, notNull, not_false_eq_true]
      exact ih next (same.trans on) (starts ▸ behind) rfl (by omega)
    · exact .inl ⟨a, p, rfl, there, on, low, not_le.1 behind⟩

theorem read_reaches (linked : Linked m pending top) (short : top < kMaxLevelOfTree) (below : key < ⊤) (keySize : ℕ) :
    (∃ n, Comes t (Visits key 0) (read (.ofKeySize keySize n) key : Index Key Value _) m) ↔ Straight m key 0 m.rootOffset := by
  obtain ⟨p, there, level, lowest⟩ := linked.root
  have low : p.hdr.lowest ≤ key := lowest ▸ bot_le
  constructor
  · rintro ⟨n, comes⟩
    by_contra crooked
    refine (rounds_readLoop _ key).never (t := t) linked short below (fun _ _ _ => id) n there (Nat.zero_le _) low crooked rfl
      (eventually_after (c := 0) rfl ?_ comes)
    rintro ⟨a, p, act, -⟩
    cases act
  · intro straight
    refine ⟨m.pagesIssued.length + top + 1, comes_readRoot ?_⟩
    refine (rounds_readLoop _ key).comes linked short m.pagesIssued.length (fun n a p result path there on low unset enough => ?_)
      (fun n a result path q inner _ unset val next on low enough => ?_) straight there low ?_ rfl rfl
    · exact comes_readLoop linked below n there on low unset (lt_of_le_of_lt (ahead_le m _) enough)
    · simp only [inner, Bool.false_eq_true, if_false, if_pos unset]
      exact comes_readLoop linked below n next on low val (lt_of_le_of_lt (ahead_le m _) enough)
    · rw [level]
      exact Nat.lt_succ_self _

omit [DecidableEq Value] in
theorem comes_insertToLeaf {value : Value} {root : GlobalAddress} {n : ℕ} (linked : Linked m pending top)
    (free : ∀ a, m.locks a = false) (below : key < ⊤) (there : m.pages a = some p) (on : p.hdr.level = 0) (low : p.hdr.lowest ≤ key)
    (enough : m.pagesIssued.length < n) : Comes t (Visits key 0) (insertToLeaf cfg key value root 0 path n a) m :=
  eventually_hop linked free below (fun _ _ => rfl) there on low (lt_of_le_of_lt (ahead_le m _) enough)

omit [KeyBytes Key] [Bot Value] [DecidableEq Value] in
theorem comes_insertToInternal {v root : GlobalAddress} {n : ℕ} (linked : Linked m pending top)
    (free : ∀ a, m.locks a = false) (below : key < ⊤) (there : m.pages a = some p) (on : p.hdr.level = level)
    (low : p.hdr.lowest ≤ key)
    (enough : m.pagesIssued.length < n) : Comes t (Visits key level) (insertToInternal cfg key v root level path n a) m :=
  eventually_hop linked free below (fun _ _ => rfl) there on low (lt_of_le_of_lt (ahead_le m _) enough)

omit [DecidableEq Value] in
theorem insert_reaches (linked : Linked m pending top) (short : top < kMaxLevelOfTree) (free : ∀ a, m.locks a = false)
    (below : key < ⊤) (keySize : ℕ) (value : Value) :
    (∃ n, Comes t (Visits key 0) (insert (.ofKeySize keySize n) key value) m) ↔ Straight m key 0 m.rootOffset := by
  obtain ⟨p, there, level, lowest⟩ := linked.root
  have low : p.hdr.lowest ≤ key := lowest ▸ bot_le
  constructor
  · rintro ⟨n, comes⟩
    by_contra crooked
    refine (rounds_insertLoop _ key value m.rootOffset).never (t := t) linked short below (fun _ _ _ => id) _ there
      (Nat.zero_le _) low
      crooked rfl (eventually_after (c := 0) rfl ?_ comes)
    rintro ⟨a, p, act, -⟩
    cases act
  · intro straight
    refine ⟨m.pagesIssued.length + 1, comes_readRoot ?_⟩
    refine (rounds_insertLoop _ key value m.rootOffset).comes linked short 0 (fun n a p result path there on low unset enough => ?_)
      (fun n a result path q inner one unset val next on low enough => ?_) straight there low ?_ rfl rfl
    · -- the root is a leaf
      obtain ⟨n, rfl⟩ : ∃ n', n = n' + 1 := ⟨n - 1, by omega⟩
      by_cases behind : p.hdr.highest ≤ key
      · rw [(rounds_insertLoop _ key value m.rootOffset).round, searchNode, bind_assoc]
        refine comes_readPage there ?_
        rw [linked.searchPage_right there (by rw [on]; decide) behind below, pure_bind]
        have leaf : p.hdr.leftmostPtr = .null := linked.leaf_of_level there on
        simp only [leaf, decide_true, if_true]
        exact eventually_bind (comes_insertToLeaf linked free below there on low (Nat.lt_succ_self _))
      · exact .inl ⟨a, p, rfl, there, on, low, not_le.1 behind⟩
    · simp only [inner, Bool.false_eq_true, if_false, one, Nat.zero_add, if_neg Nat.one_ne_zero, if_neg (not_not.2 unset),
        if_neg (not_not.2 (rfl : 1 = 1))]
      exact eventually_bind (comes_insertToLeaf linked free below next on low (Nat.lt_succ_self _))
    · rw [level]
      exact lt_trans (lt_of_eq_of_lt (Nat.zero_add top) short) (by decide : 7 < 1000000)

omit [DecidableEq Value] in
theorem searchAndInsert_reaches (linked : Linked m pending top) (short : top < kMaxLevelOfTree) (free : ∀ a, m.locks a = false)
    (below : key < ⊤) (keySize : ℕ) (v : GlobalAddress) (within : level ≤ top) :
    (∃ n, Comes t (Visits key level) (searchAndInsertToInternal (.ofKeySize keySize n) key v level path : Index Key Value _) m) ↔
      Straight m key level m.rootOffset := by
  obtain ⟨p, there, top, lowest⟩ := linked.root
  have low : p.hdr.lowest ≤ key := lowest ▸ bot_le
  constructor
  · rintro ⟨n, comes⟩
    by_contra crooked
    refine (rounds_searchAndInsertLoop _ key v m.rootOffset level).never (t := t) linked short below (fun _ _ _ => id) _ there
      (by omega) low crooked rfl (eventually_after (c := 0) rfl ?_ comes)
    rintro ⟨a, p, act, -⟩
    cases act
  · intro straight
    refine ⟨m.pagesIssued.length + 1 + p.hdr.level, comes_readRoot ?_⟩
    refine (rounds_searchAndInsertLoop _ key v m.rootOffset level).comes linked short 0
      (fun n a q result path there on low unset enough => ?_) (fun n a result path q inner one unset val next on low enough => ?_)
      straight there low ?_ rfl rfl
    · obtain ⟨n, rfl⟩ : ∃ n', n = n' + 1 := ⟨n - 1, by omega⟩
      by_cases behind : q.hdr.highest ≤ key
      · rw [(rounds_searchAndInsertLoop _ key v m.rootOffset level).round, searchNode, bind_assoc]
        refine comes_readPage there ?_
        rw [linked.searchPage_right there (lt_of_le_of_lt (linked.level_le there) short) behind below, pure_bind]
        simp only [on, if_true]
        exact comes_insertToInternal linked free below there on low (show _ < m.pagesIssued.length + 1 + p.hdr.level by omega)
      · exact .inl ⟨a, q, rfl, there, on, low, not_le.1 behind⟩
    · simp only [one, if_neg (Nat.succ_ne_self level), if_neg (Nat.succ_ne_zero level), if_neg (not_not.2 unset),
        if_neg (not_not.2 (rfl : level + 1 = level + 1))]
      exact comes_insertToInternal linked free below next on low (show _ < m.pagesIssued.length + 1 + p.hdr.level by omega)
    · change 0 + p.hdr.level < m.pagesIssued.length + 1 + p.hdr.level
      omega

/-- In a tree with unfinished splits that rests, the searches reach the page that takes the key if and only if no
page above the wanted level, on the way down by child pointers, ends before the key. -/
theorem descents_reach (linked : Linked m pending top) (short : top < kMaxLevelOfTree) (below : key < ⊤) (keySize : ℕ) :
    ((∃ n, (read (.ofKeySize keySize n) key : Index Key Value _).Eventually Memory.exec t (Visits key 0) m) ↔
        Straight m key 0 m.rootOffset) ∧
      ((∀ a, m.locks a = false) →
        (∀ value, (∃ n, (insert (.ofKeySize keySize n) key value).Eventually Memory.exec t (Visits key 0) m) ↔
          Straight m key 0 m.rootOffset) ∧
        ∀ level ≤ top, ∀ v path,
          (∃ n, (searchAndInsertToInternal (.ofKeySize keySize n) key v level path : Index Key Value _).Eventually
          Memory.exec t (Visits key level) m) ↔ Straight m key level m.rootOffset) :=
  ⟨read_reaches linked short below keySize, fun free => ⟨insert_reaches linked short free below keySize,
    fun _ within v _ => searchAndInsert_reaches linked short free below keySize v within⟩⟩

end

/-! ## A root that was split -/

def innerPage (leftmost : GlobalAddress) (key : Fin 256) (right sibling : GlobalAddress) (lowest highest : Fin 256) :
    Page (Fin 256) :=
  .internal
    { hdr := ⟨leftmost, sibling, 1, 0, lowest, highest⟩
      records := Function.update (fun _ => .empty) 0 ⟨key, right⟩ }

def leafPage (sibling : GlobalAddress) (lowest highest : Fin 256) : Page (Fin 256) :=
  .leaf { hdr := ⟨.null, sibling, 0, -1, lowest, highest⟩, records := fun _ => .empty }

/-- The root at address 1 was split, the new root is not installed yet. -/
def splitRoot : Memory (Fin 256) (Fin 256) where
  rootOffset := ⟨1⟩
  pages := fun a =>
    if a = ⟨1⟩ then some (innerPage ⟨3⟩ firstKey ⟨4⟩ ⟨2⟩ ⊥ secondKey)
    else if a = ⟨2⟩ then some (innerPage ⟨5⟩ thirdKey ⟨6⟩ ⟨0⟩ secondKey ⊤)
    else if a = ⟨3⟩ then some (leafPage ⟨4⟩ ⊥ firstKey)
    else if a = ⟨4⟩ then some (leafPage ⟨5⟩ firstKey secondKey)
    else if a = ⟨5⟩ then some (leafPage ⟨6⟩ secondKey thirdKey)
    else if a = ⟨6⟩ then some (leafPage ⟨0⟩ thirdKey ⊤)
    else none
  items := fun _ => ⟨⊥, ⊥⟩
  locks := fun _ => false
  pagesIssued := [⟨1⟩, ⟨2⟩, ⟨3⟩, ⟨4⟩, ⟨5⟩, ⟨6⟩]
  itemsIssued := []

theorem splitRoot_pages {a : GlobalAddress} {p : Page (Fin 256)} (there : splitRoot.pages a = some p) :
    a = ⟨1⟩ ∧ p = innerPage ⟨3⟩ firstKey ⟨4⟩ ⟨2⟩ ⊥ secondKey ∨ a = ⟨2⟩ ∧ p = innerPage ⟨5⟩ thirdKey ⟨6⟩ ⟨0⟩ secondKey ⊤ ∨
      a = ⟨3⟩ ∧ p = leafPage ⟨4⟩ ⊥ firstKey ∨ a = ⟨4⟩ ∧ p = leafPage ⟨5⟩ firstKey secondKey ∨
      a = ⟨5⟩ ∧ p = leafPage ⟨6⟩ secondKey thirdKey ∨ a = ⟨6⟩ ∧ p = leafPage ⟨0⟩ thirdKey ⊤ := by
  unfold splitRoot at there
  simp only at there
  split_ifs at there <;> simp_all

theorem innerPage_tile (leftmost right sibling : GlobalAddress) (key lowest highest : Fin 256) :
    (innerPage leftmost key right sibling lowest highest).tile = ⟨1, lowest, highest, {(lowest, leftmost), (key, right)}⟩ := by
  have kids : ∀ q : Fin 256 × GlobalAddress,
      (q = (lowest, leftmost) ∨ ∃ i < 1, q = ((Function.update (fun _ => InternalEntry.empty) 0 ⟨key, right⟩ i).key,
        (Function.update (fun _ => InternalEntry.empty) 0 ⟨key, right⟩ i).ptr)) ↔ q = (lowest, leftmost) ∨ q = (key, right) := by
    intro q
    simp
  exact congrArg (Tile.mk 1 lowest highest) (Set.ext kids)

theorem splitRoot_tiles {a : GlobalAddress} {x : Tile (Fin 256) GlobalAddress} (there : tiles splitRoot a = some x) :
    a = ⟨1⟩ ∧ x = ⟨1, ⊥, secondKey, {(⊥, ⟨3⟩), (firstKey, ⟨4⟩)}⟩ ∨ a = ⟨2⟩ ∧
      x = ⟨1, secondKey, ⊤, {(secondKey, ⟨5⟩), (thirdKey, ⟨6⟩)}⟩ ∨
      a = ⟨3⟩ ∧ x = ⟨0, ⊥, firstKey, ∅⟩ ∨ a = ⟨4⟩ ∧ x = ⟨0, firstKey, secondKey, ∅⟩ ∨
      a = ⟨5⟩ ∧ x = ⟨0, secondKey, thirdKey, ∅⟩ ∨ a = ⟨6⟩ ∧ x = ⟨0, thirdKey, ⊤, ∅⟩ := by
  obtain ⟨p, page, rfl⟩ := tiles_eq_some.1 there
  rcases splitRoot_pages page with ⟨rfl, rfl⟩ | ⟨rfl, rfl⟩ | ⟨rfl, rfl⟩ | ⟨rfl, rfl⟩ | ⟨rfl, rfl⟩ | ⟨rfl, rfl⟩
  · exact .inl ⟨rfl, innerPage_tile ..⟩
  · exact .inr (.inl ⟨rfl, innerPage_tile ..⟩)
  · exact .inr (.inr (.inl ⟨rfl, rfl⟩))
  · exact .inr (.inr (.inr (.inl ⟨rfl, rfl⟩)))
  · exact .inr (.inr (.inr (.inr (.inl ⟨rfl, rfl⟩))))
  · exact .inr (.inr (.inr (.inr (.inr ⟨rfl, rfl⟩))))

theorem not_covers_both {x y : Tile (Fin 256) GlobalAddress} {k : Fin 256} (behind : x.hi ≤ y.lo) (cx : x.covers k)
    (cy : y.covers k) :
    False :=
  lt_irrefl k (lt_of_lt_of_le cx.2 (le_trans behind cy.1))

theorem splitRoot_forest (one : tiles splitRoot ⟨1⟩ = some ⟨1, ⊥, secondKey, {(⊥, ⟨3⟩), (firstKey, ⟨4⟩)}⟩)
    (two : tiles splitRoot ⟨2⟩ = some ⟨1, secondKey, ⊤, {(secondKey, ⟨5⟩), (thirdKey, ⟨6⟩)}⟩) :
    Forest (tiles splitRoot) {⟨2⟩} ⟨1⟩ 1 where
  nonempty a x there := by
    rcases splitRoot_tiles there with ⟨rfl, rfl⟩ | ⟨rfl, rfl⟩ | ⟨rfl, rfl⟩ | ⟨rfl, rfl⟩ | ⟨rfl, rfl⟩ | ⟨rfl, rfl⟩ <;> decide
  height a x there := by
    rcases splitRoot_tiles there with ⟨rfl, rfl⟩ | ⟨rfl, rfl⟩ | ⟨rfl, rfl⟩ | ⟨rfl, rfl⟩ | ⟨rfl, rfl⟩ | ⟨rfl, rfl⟩ <;> simp
  cover l bound k below := by
    rcases Nat.le_one_iff_eq_zero_or_eq_one.1 bound with rfl | rfl
    · rcases lt_or_ge k firstKey with low | high
      · exact ⟨⟨3⟩, _, rfl, rfl, bot_le, low⟩
      · rcases lt_or_ge k secondKey with low | higher
        · exact ⟨⟨4⟩, _, rfl, rfl, high, low⟩
        · rcases lt_or_ge k thirdKey with low | highest
          · exact ⟨⟨5⟩, _, rfl, rfl, higher, low⟩
          · exact ⟨⟨6⟩, _, rfl, rfl, highest, below⟩
    · rcases lt_or_ge k secondKey with low | high
      · exact ⟨⟨1⟩, _, one, rfl, bot_le, low⟩
      · exact ⟨⟨2⟩, _, two, rfl, high, below⟩
  disjoint a b x y k here there level cx cy := by
    rcases splitRoot_tiles here with ⟨rfl, rfl⟩ | ⟨rfl, rfl⟩ | ⟨rfl, rfl⟩ | ⟨rfl, rfl⟩ | ⟨rfl, rfl⟩ | ⟨rfl, rfl⟩ <;>
      rcases splitRoot_tiles there with ⟨rfl, rfl⟩ | ⟨rfl, rfl⟩ | ⟨rfl, rfl⟩ | ⟨rfl, rfl⟩ | ⟨rfl, rfl⟩ | ⟨rfl, rfl⟩ <;>
      first
      | rfl
      | exact absurd level (by decide)
      | exact (not_covers_both (by decide) cx cy).elim
      | exact (not_covers_both (by decide) cy cx).elim
  rooted := ⟨_, one, rfl, rfl⟩
  linked := by decide
  present := by
    rintro a rfl
    exact ⟨_, two⟩
  topmost a x there level linked := by
    rcases splitRoot_tiles there with ⟨rfl, rfl⟩ | ⟨rfl, rfl⟩ | ⟨rfl, rfl⟩ | ⟨rfl, rfl⟩ | ⟨rfl, rfl⟩ | ⟨rfl, rfl⟩ <;> simp_all
  kids a x k c there kid := by
    rcases splitRoot_tiles there with ⟨rfl, rfl⟩ | ⟨rfl, rfl⟩ | ⟨rfl, rfl⟩ | ⟨rfl, rfl⟩ | ⟨rfl, rfl⟩ | ⟨rfl, rfl⟩
    · rcases kid with pair | pair <;> cases pair
      · exact ⟨⟨by decide, by decide⟩, by decide, _, rfl, rfl, rfl⟩
      · exact ⟨⟨by decide, by decide⟩, by decide, _, rfl, rfl, rfl⟩
    · rcases kid with pair | pair <;> cases pair
      · exact ⟨⟨by decide, by decide⟩, by decide, _, rfl, rfl, rfl⟩
      · exact ⟨⟨by decide, by decide⟩, by decide, _, rfl, rfl, rfl⟩
    all_goals exact kid.elim
  first a x there level := by
    rcases splitRoot_tiles there with ⟨rfl, rfl⟩ | ⟨rfl, rfl⟩ | ⟨rfl, rfl⟩ | ⟨rfl, rfl⟩ | ⟨rfl, rfl⟩ | ⟨rfl, rfl⟩ <;> simp_all
  parent c y there linked level := by
    rcases splitRoot_tiles there with ⟨rfl, rfl⟩ | ⟨rfl, rfl⟩ | ⟨rfl, rfl⟩ | ⟨rfl, rfl⟩ | ⟨rfl, rfl⟩ | ⟨rfl, rfl⟩
    · exact absurd level (lt_irrefl _)
    · exact absurd level (lt_irrefl _)
    · exact ⟨_, _, one, .inl rfl⟩
    · exact ⟨_, _, one, .inr rfl⟩
    · exact ⟨_, _, two, .inl rfl⟩
    · exact ⟨_, _, two, .inr rfl⟩

theorem innerPage_ordered {leftmost right sibling : GlobalAddress} {key lowest highest : Fin 256} (low : lowest < key)
    (high : key < highest) {n : InternalPage (Fin 256)} (is : innerPage leftmost key right sibling lowest highest = .internal n) :
    n.hdr.level ≠ 0 ∧ n.Ordered := by
  cases is
  refine ⟨Nat.one_ne_zero, rfl, Nat.one_pos, fun i bound => ?_, fun i j less bound => ?_⟩
  · obtain rfl := Nat.lt_one_iff.1 bound
    exact ⟨low, high⟩
  · obtain rfl := Nat.lt_one_iff.1 bound
    exact absurd less (Nat.not_lt_zero _)

theorem splitRoot_linked : Linked splitRoot {⟨2⟩} 1 where
  forest := splitRoot_forest (congrArg some (innerPage_tile ..)) (congrArg some (innerPage_tile ..))
  null := rfl
  issued a p there := by
    rcases splitRoot_pages there with ⟨rfl, -⟩ | ⟨rfl, -⟩ | ⟨rfl, -⟩ | ⟨rfl, -⟩ | ⟨rfl, -⟩ | ⟨rfl, -⟩ <;> decide
  leaf a p there := by
    rcases splitRoot_pages there with ⟨-, is⟩ | ⟨-, is⟩ | ⟨-, is⟩ | ⟨-, is⟩ | ⟨-, is⟩ | ⟨-, is⟩ <;> cases is <;> exact ⟨rfl, rfl⟩
  internal a p there := by
    rcases splitRoot_pages there with ⟨-, is⟩ | ⟨-, is⟩ | ⟨-, is⟩ | ⟨-, is⟩ | ⟨-, is⟩ | ⟨-, is⟩
    · exact innerPage_ordered (by decide) (by decide) is.symm
    · exact innerPage_ordered (by decide) (by decide) is.symm
    all_goals cases is
  sibling a p there := by
    rcases splitRoot_pages there with ⟨rfl, rfl⟩ | ⟨rfl, rfl⟩ | ⟨rfl, rfl⟩ | ⟨rfl, rfl⟩ | ⟨rfl, rfl⟩ | ⟨rfl, rfl⟩ <;>
      first
      | exact .inl ⟨rfl, rfl⟩
      | exact .inr ⟨_, _, there, rfl, rfl, rfl, rfl⟩

theorem descents_reach_splitRoot :
    (∃ n, (read (.ofKeySize 1 n) thirdKey : Index (Fin 256) (Fin 256) _).Eventually Memory.exec 0 (Visits thirdKey 0) splitRoot) ↔
      Straight splitRoot thirdKey 0 ⟨1⟩ :=
  (descents_reach splitRoot_linked (by decide) (by decide) 1).1

/-- A reader of a key in the right half of the root goes round in it for ever. -/
theorem descents_astray :
    Linked splitRoot {⟨2⟩} 1 ∧ ⊥ < thirdKey ∧ thirdKey < ⊤ ∧
      ¬ ∃ n, (read (.ofKeySize 1 n) thirdKey : Index (Fin 256) (Fin 256) _).Eventually Memory.exec 0 (Visits thirdKey 0)
        splitRoot := by
  refine ⟨splitRoot_linked, by decide, by decide, fun reaches => ?_⟩
  have straight := (read_reaches splitRoot_linked (by decide) (by decide) 1).1 reaches
  cases straight with
  | here there level =>
    cases there
    cases level
  | down there _ inside _ =>
    cases there
    exact absurd inside (by decide)

end Faunus.Sherman
