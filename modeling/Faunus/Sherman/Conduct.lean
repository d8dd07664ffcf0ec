import Faunus.Sherman.Following

/-! The functions of `ShermanIndex`, step by step as a client may take them. -/

set_option autoImplicit false

namespace Faunus.Sherman

open Interleaving

variable {Key Value A : Type}

/-- Nothing is in the hands of the client, except perhaps a page that it no longer needs. -/
structure Client.Free (g : Client Key Value) : Prop where
  held : g.held = none
  item : g.item = none
  debt : g.debt = none

theorem Client.Free.learn {g g' : Client Key Value} (free : g.Free) (learns : g.Learns g') : g'.Free :=
  ⟨learns.held.trans free.held, learns.item.trans free.item, learns.debt.trans free.debt⟩

/-- The pages of a descent are known. -/
structure Shown (path : PathStack) (result : SearchResult Value) (g : Client Key Value) : Prop where
  path : ∀ l, path l ≠ .null → path l ∈ g.known
  slibing : result.slibing ≠ .null → result.slibing ∈ g.known

/-- Without a step to the right the child to go to is known. -/
def Leads (result : SearchResult Value) (g : Client Key Value) : Prop :=
  result.isLeaf = false ∨ result.level ≠ 0 → result.slibing = .null → result.nextLevel ∈ g.known

section
variable [LinearOrder Key] [BoundedOrder Key] [KeyBytes Key] [Bot Value] [DecidableEq Value]
variable {cfg : Config} {start : Key → Option Value} {t : ℕ} {post : A → Client Key Value → Prop} {g : Client Key Value}
  {a : GlobalAddress} {key : Key} {path : PathStack} {result : SearchResult Value}

/-! ## Searching a page -/

theorem obeys_searchRecords {f : Option Value → Index Key Value A} {page : LeafPage Key} {slots : List ℕ}
    (next : ∀ found, Obeys cfg start t post (f found) g) : Obeys cfg start t post (searchRecords key page slots >>= f) g := by
  induction slots with
  | nil => exact next none
  | cons i rest ih =>
    unfold searchRecords
    by_cases candidate : (page.records i).isEmpty = false ∧ (page.records i).fingerprint = .ofKey key
    · rw [if_pos candidate, bind_assoc]
      refine obeys_readItem fun item _ => ?_
      by_cases same : item.key = key
      · rw [if_pos same]
        exact next (some item.value)
      · rw [if_neg same]
        exact ih
    · rw [if_neg candidate]
      exact ih

theorem obeys_searchRecords_absent {f : Option Value → Index Key Value A} {page : LeafPage Key} {slots : List ℕ}
    {keyOf : LeafEntry → Key}
    (names : ∀ r ∈ page.among slots, g.Names r.kvPtr (keyOf r)) (absent : ∀ r ∈ page.among slots, keyOf r ≠ key)
    (next : Obeys cfg start t post (f none) g) : Obeys cfg start t post (searchRecords key page slots >>= f) g := by
  -- a leaf without the key is searched to its end
  induction slots with
  | nil => exact next
  | cons i rest ih =>
    unfold searchRecords
    by_cases used : (page.records i).isEmpty = false
    · have among : page.among (i :: rest) = page.records i :: page.among rest := by simp [LeafPage.among, used]
      rw [among] at names absent
      have later := ih (fun r inside => names r (List.mem_cons_of_mem _ inside)) fun r inside =>
        absent r (List.mem_cons_of_mem _ inside)
      by_cases fingerprint : (page.records i).fingerprint = .ofKey key
      · rw [if_pos ⟨used, fingerprint⟩, bind_assoc]
        refine obeys_readItem fun item named => ?_
        have other : item.key ≠ key := by
          rw [named _ (names _ List.mem_cons_self)]
          exact absent _ List.mem_cons_self
        rw [if_neg other]
        exact later
      · rw [if_neg fun both => fingerprint both.2]
        exact later
    · have among : page.among (i :: rest) = page.among rest := by simp [LeafPage.among, Bool.not_eq_false] at used ⊢; simp [used]
      rw [if_neg fun both => used both.1]
      rw [among] at names absent
      exact ih names absent

theorem obeys_searchRecords_found {f : Option Value → Index Key Value A} {page : LeafPage Key} {slots : List ℕ}
    {keyOf : LeafEntry → Key}
    (called : g.progress = .called (.read key)) (labels : ∀ r ∈ page.among slots, (r.kvPtr, keyOf r) ∈ g.keys)
    (fingerprints : ∀ r ∈ page.among slots, r.fingerprint = .ofKey (keyOf r)) (there : ∃ r ∈ page.among slots, keyOf r = key)
    (next : ∀ value, Obeys cfg start t post (f (some value)) g ∨
      Obeys cfg start t post (f (some value)) { g with progress := .effected (.read key) (answered key value) }) :
    Obeys cfg start t post (searchRecords key page slots >>= f) g := by
  -- a leaf with the key is searched up to its item, which the read may answer
  induction slots with
  | nil =>
    obtain ⟨r, inside, -⟩ := there
    cases inside
  | cons i rest ih =>
    unfold searchRecords
    by_cases used : (page.records i).isEmpty = false
    swap
    · have among : page.among (i :: rest) = page.among rest := by simp [LeafPage.among, Bool.not_eq_false] at used ⊢; simp [used]
      rw [if_neg fun both => used both.1]
      rw [among] at labels fingerprints there
      exact ih labels fingerprints there
    have among : page.among (i :: rest) = page.records i :: page.among rest := by simp [LeafPage.among, used]
    rw [among] at labels fingerprints there
    have first := labels _ List.mem_cons_self
    by_cases here : keyOf (page.records i) = key
    · have fingerprint := fingerprints _ List.mem_cons_self
      rw [here] at first fingerprint
      rw [if_pos ⟨used, fingerprint⟩, bind_assoc]
      refine obeys_found first called fun item same => ?_
      rw [if_pos same]
      exact next item.value
    · -- the key stands in a later record
      have later := ih (fun r inside => labels r (List.mem_cons_of_mem _ inside))
        (fun r inside => fingerprints r (List.mem_cons_of_mem _ inside)) ?_
      · by_cases fingerprint : (page.records i).fingerprint = .ofKey key
        · rw [if_pos ⟨used, fingerprint⟩, bind_assoc]
          refine obeys_readItem fun item named => ?_
          rw [if_neg fun same => here ((named _ (.inl first)).symm.trans same)]
          exact later
        · rw [if_neg fun both => fingerprint both.2]
          exact later
      · obtain ⟨r, inside, same⟩ := there
        rcases List.mem_cons.1 inside with rfl | behind
        · exact absurd same here
        · exact ⟨r, behind, same⟩

omit [BoundedOrder Key] [KeyBytes Key] [Bot Value] [DecidableEq Value] in
theorem nextLevel_mem_pointers {n : InternalPage Key} (ordered : n.Ordered) (low : n.hdr.lowest ≤ key) :
    n.nextLevel key ∈ (Page.internal n).pointers := by
  obtain ⟨k, kid, -, -⟩ := ordered.nextLevel_kid low
  rcases kid with eq | ⟨i, bound, eq⟩
  · exact .inr (.inl (congrArg Prod.snd eq))
  · exact .inr (.inr ⟨i, bound, congrArg Prod.snd eq⟩)

omit [BoundedOrder Key] [KeyBytes Key] [Bot Value] [DecidableEq Value] [LinearOrder Key] in
theorem sibling_mem_pointers {p : Page Key} (some : p.hdr.siblingPtr ≠ .null) : p.hdr.siblingPtr ∈ p.pointers := by
  cases p with
  | leaf p => exact ⟨rfl, some⟩
  | internal p => exact .inl ⟨rfl, some⟩

omit [BoundedOrder Key] [KeyBytes Key] [Bot Value] [DecidableEq Value] [LinearOrder Key] in
theorem Shown.learn {g' : Client Key Value} (shown : Shown path result g) (learns : g.Learns g') : Shown path result g' :=
  ⟨fun l some => learns.known (shown.path l some), fun some => learns.known (shown.slibing some)⟩

omit [BoundedOrder Key] [KeyBytes Key] [Bot Value] [DecidableEq Value] [LinearOrder Key] in
theorem shown_update {l : ℕ} (shown : ∀ l, path l ≠ .null → path l ∈ g.known) (known : a ∈ g.known) (k : ℕ)
    (some : Function.update path l a k ≠ .null) : Function.update path l a k ∈ g.known := by
  by_cases here : k = l
  · rw [here, Function.update_self]
    exact known
  · rw [Function.update_of_ne here] at some ⊢
    exact shown k some

theorem obeys_searchPage {f : SearchResult Value × PathStack → Index Key Value A} {page : Page Key} {keyOf : LeafEntry → Key}
    (proper : page.Proper) (learned : Learned cfg page keyOf g) (known : a ∈ g.known) (shown : Shown path result g)
    (aside : ∀ result' path', (∀ n, page = .leaf n → ¬ n.hdr.covers key) → Shown path' result' g → Leads result' g →
      result'.val = result.val → result'.isLeaf = false ∨ result'.slibing ≠ .null → Obeys cfg start t post (f (result', path')) g)
    (leaf : ∀ n path', page = .leaf n → n.hdr.covers key → Shown path' { result with isLeaf := true, level := 0 } g →
      Obeys cfg start t post (searchRecords key n (List.range cfg.leafCardinality) >>= fun found =>
        f ({ result with isLeaf := true, level := 0, val := found.getD result.val }, path')) g) :
    Obeys cfg start t post (searchPage cfg a page key result path >>= f) g := by
  -- a page is left to the side or downwards, or it is the leaf that takes the key
  have path' := shown_update (l := page.hdr.level) shown.path known
  unfold searchPage
  dsimp only
  split_ifs with high behind last low bottom above under
  · trivial
  · trivial
  · rw [not_or] at last
    refine aside _ _ ?_ ⟨path', fun _ => learned.pointers (sibling_mem_pointers last.1)⟩ (fun _ none => absurd none last.1)
      rfl (.inr last.1)
    rintro n rfl covers
    exact absurd covers.2 (not_lt.2 behind)
  · trivial
  · trivial
  · -- the leaf that takes the key
    rw [not_not] at above
    obtain ⟨n, rfl⟩ : ∃ n, page = .leaf n := by
      cases page with
      | leaf n => exact ⟨n, rfl⟩
      | internal n => exact absurd above proper.1
    have shown' : Shown (Function.update path (Page.leaf n).hdr.level a) { result with isLeaf := true, level := 0 } g :=
      ⟨path', shown.slibing⟩
    have eq : (Page.leaf n).asLeaf = n := rfl
    rw [eq, decide_eq_true bottom, above, bind_assoc]
    rw [above] at shown'
    have goes := leaf n _ rfl ⟨not_lt.1 low, not_le.1 behind⟩ shown'
    convert goes using 2
    funext found
    cases found <;> rfl
  · trivial
  · obtain ⟨n, rfl⟩ : ∃ n, page = .internal n := by
      cases page with
      | leaf n => exact absurd proper.2 bottom
      | internal n => exact ⟨n, rfl⟩
    refine aside _ _ ?_ ⟨path', shown.slibing⟩ (fun _ _ => ?_) rfl (.inl (decide_eq_false bottom))
    · rintro n ⟨⟩
    exact learned.pointers (nextLevel_mem_pointers proper.2 (not_lt.1 low))

theorem obeys_searchNode {f : SearchResult Value × PathStack → Index Key Value A} (known : a ∈ g.known) (shown : Shown path result g)
    (next : ∀ result' path' g', g.Learns g' → Shown path' result' g' → Leads result' g' →
      Obeys cfg start t post (f (result', path')) g') :
    Obeys cfg start t post (searchNode cfg a key result path >>= f) g := by
  rw [searchNode, bind_assoc]
  refine obeys_readPage known fun p keyOf proper => .inl fun g' learns learned => ?_
  have shown' := shown.learn learns
  refine obeys_searchPage proper learned (learns.known known) shown'
    (fun result' path' _ shown leads _ _ => next _ _ g' learns shown leads)
    fun n path' _ _ shown => ?_
  exact obeys_searchRecords fun found => next _ _ g' learns ⟨shown.path, shown.slibing⟩ fun inner => by simp at inner

/-! ## Reading -/

omit [LinearOrder Key] [BoundedOrder Key] [KeyBytes Key] in
theorem answered_bot (key : Key) : answered key (⊥ : Value) = ⟨false, none⟩ := by
  simp [answered, Call.answer, masked]

omit [LinearOrder Key] [BoundedOrder Key] [KeyBytes Key] in
theorem answered_value (key : Key) {value : Value} (some' : value ≠ ⊥) : answered key value = ⟨true, some value⟩ := by
  simp [answered, Call.answer, masked, some', Option.filter]

theorem obeys_searchNode_read {f : SearchResult Value × PathStack → Index Key Value A} (known : a ∈ g.known)
    (shown : Shown path result g) (called : g.progress = .called (.read key)) (unset : result.val = ⊥)
    (onward : ∀ result' path' g', g.Learns g' → Shown path' result' g' → Leads result' g' → result'.val = ⊥ →
      result'.isLeaf = false ∨ result'.slibing ≠ .null →
      Obeys cfg start t post (f (result', path')) g')
    (final : ∀ result' path' g', g.Learns g' → result'.isLeaf = true → result'.val ≠ ⊥ ∨ result'.slibing = .null →
      Obeys cfg start t post (f (result', path')) { g' with progress := .effected (.read key) (answered key result'.val) }) :
    Obeys cfg start t post (searchNode cfg a key result path >>= f) g := by
  -- a read takes effect where its result is final
  rw [searchNode, bind_assoc]
  refine obeys_readPage known fun p keyOf proper => ?_
  by_cases there : ∀ n, p = .leaf n → n.hdr.covers key → ∃ r ∈ n.entries cfg.leafCardinality, keyOf r = key
  · -- a leaf has the key, or the search goes on
    refine .inl fun g' learns learned => ?_
    have shown' := shown.learn learns
    refine obeys_searchPage proper learned (learns.known known) shown'
      (fun result' path' _ shown leads same more => onward _ _ g' learns shown leads (same.trans unset) more)
        fun n path' eq covers shown => ?_
    refine obeys_searchRecords_found (learns.progress.trans called) (learned.labels n eq) (learned.fingerprints n eq)
      (there n eq covers) fun value => ?_
    by_cases done : value ≠ ⊥ ∨ result.slibing = .null
    · exact .inr (final _ _ g' learns rfl done)
    · rw [not_or, not_not] at done
      exact .inl (onward _ _ g' learns ⟨shown.path, shown.slibing⟩ (fun inner => by simp at inner) done.1 (.inr done.2))
  · push Not at there
    obtain ⟨n, rfl, covers, absent⟩ := there
    -- the search of the leaf ends without a value
    have search : ∀ g', Shown path result g' → a ∈ g'.known → Learned cfg (.leaf n) keyOf g' →
        (∀ path', Shown path' { result with isLeaf := true, level := 0 } g' →
          Obeys cfg start t post (f ({ result with isLeaf := true, level := 0 }, path')) g') →
        Obeys cfg start t post (searchPage cfg a (.leaf n) key result path >>= f) g' := by
      intro g' shown known learned next
      refine obeys_searchPage proper learned known shown (fun result' path' other => absurd covers (other n rfl))
        fun n' path' eq _ shown => ?_
      obtain rfl := Page.leaf.inj eq
      exact obeys_searchRecords_absent (fun r inside => .inl (learned.labels n rfl r inside)) absent (next path' shown)
    by_cases alone : result.slibing = .null
    · refine .inr ⟨n, key, rfl, called, covers, absent, fun g' learns learned => ?_⟩
      refine search _ ⟨fun l some => learns.known (shown.path l some), fun some => absurd alone some⟩ (learns.known known)
        ⟨learned.pointers, learned.labels, learned.fingerprints⟩ fun path' _ => ?_
      have missed := final { result with isLeaf := true, level := 0 } path' g' learns rfl (.inr alone)
      rwa [show answered key result.val = ⟨false, none⟩ by rw [unset, answered_bot]] at missed
    · refine .inl fun g' learns learned => search g' (shown.learn learns) (learns.known known) learned fun path' shown => ?_
      exact onward _ _ g' learns shown (fun inner => by simp at inner) unset (.inr alone)

def Settled (progress : Progress (Call Key Value) (Outcome Value)) (g : Client Key Value) : Prop := g.progress = progress ∧ g.Free

theorem obeys_readLoop {bound : ℕ} (known : a ∈ g.known) (shown : Shown path result g) (called : g.progress = .called (.read key))
    (unset : result.val = ⊥) (free : g.Free) :
    Obeys cfg start t (fun found => Settled (.effected (.read key) ⟨found.isSome, found⟩))
    (readLoop cfg key bound a result path) g := by
  induction bound generalizing a result path g with
  | zero => trivial
  | succ bound ih =>
    unfold readLoop
    refine obeys_searchNode_read known shown called unset (fun result' path' g' learns shown leads unset more => ?_)
      fun result' path' g' learns leaf last => ?_
    all_goals dsimp only
    · have called' := learns.progress.trans called
      have free' := free.learn learns
      by_cases leaf : result'.isLeaf = true
      · have some : result'.slibing ≠ .null := more.resolve_left (by simp [leaf])
        rw [if_pos leaf, if_neg (not_not.2 unset), if_pos some]
        exact ih (shown.slibing some) shown called' unset free'
      · have inner : result'.isLeaf = false := Bool.eq_false_iff.2 leaf
        rw [if_neg leaf]
        refine ih ?_ shown called' unset free'
        split_ifs with none
        · exact leads (.inl inner) none
        · exact shown.slibing none
    · have free' := free.learn learns
      rw [if_pos leaf]
      by_cases found : result'.val = ⊥
      · have none : result'.slibing = .null := last.resolve_left (not_not.2 found)
        rw [if_neg (not_not.2 found), if_neg (not_not.2 none), found, answered_bot]
        exact ⟨rfl, free'.held, free'.item, free'.debt⟩
      · rw [if_pos found, answered_value key found]
        exact ⟨rfl, free'.held, free'.item, free'.debt⟩

/-! ## Splitting upwards -/

theorem obeys_propagate {d : Debt Key} {root : GlobalAddress} {up fallback : Index Key Value Unit}
    {post : Unit → Client Key Value → Prop}
    (debt : g.debt = some d) (raised : post () { g with fresh := none, debt := none })
    (upward : ∀ g', g'.progress = g.progress → g'.known = g.known → g'.held = g.held → g'.item = g.item → g'.debt = g.debt →
      path d.level ≠ .null → Obeys cfg start t post up g')
    (otherwise : ∀ g', g'.progress = g.progress → g'.known = g.known → g'.held = g.held → g'.item = g.item → g'.debt = g.debt →
      Obeys cfg start t post fallback g') :
    Obeys cfg start t post
      (if root = d.left then updateRootOffset d.left d.key d.right d.level root >>= fun done =>
          if done = true then pure () else if path d.level ≠ .null then up else fallback
        else pure false >>= fun done => if done = true then pure () else if path d.level ≠ .null then up else fallback) g := by
  -- what follows a split: a new root, the page above on the path, or else the fallback
  have rest : ∀ g' : Client Key Value, g'.progress = g.progress → g'.known = g.known → g'.held = g.held → g'.item = g.item →
    g'.debt = g.debt →
      Obeys cfg start t post (if path d.level ≠ .null then up else fallback) g' := by
    intro g' progress known held item debt
    by_cases above : path d.level = .null
    · rw [if_neg (not_not.2 above)]
      exact otherwise g' progress known held item debt
    · rw [if_pos above]
      exact upward g' progress known held item debt above
  by_cases atRoot : root = d.left
  · rw [if_pos atRoot, atRoot]
    refine obeys_updateRootOffset debt ?_ ?_
    · rw [if_pos rfl]
      exact raised
    · rw [if_neg Bool.false_ne_true]
      exact rest _ rfl rfl rfl rfl rfl
  · rw [if_neg atRoot, pure_bind, if_neg Bool.false_ne_true]
    exact rest g rfl rfl rfl rfl rfl

/-- The separator of the page that is owed is put into a page of the level above, and what this splits off is owed next. -/
theorem obeys_insertToInternal {bound level : ℕ} {d : Debt Key} {root : GlobalAddress} (debt : g.debt = some d)
    (on : d.level = level) (positive : 0 < level) (known : a ∈ g.known) (paths : ∀ l, path l ≠ .null → path l ∈ g.known)
    (held : g.held = none) (item : g.item = none) :
    Obeys cfg start t (fun _ => Settled g.progress) (insertToInternal cfg d.key d.right root level path bound a) g := by
  induction bound generalizing d level a g with
  | zero => trivial
  | succ bound ih =>
    subst on
    unfold insertToInternal
    refine obeys_lockAndReadPage known held fun page keyOf g' proper learns learned => ?_
    have debt' : g'.debt = some d := learns.debt.trans debt
    have held' : g'.held = some (a, page) := learns.held
    have item' : g'.item = none := learns.item.trans item
    have paths' : ∀ l, path l ≠ .null → path l ∈ g'.known := fun l some => learns.known (paths l some)
    have effect : g'.progress = g.progress := learns.progress
    by_cases on : page.hdr.level = d.level
    swap
    · rw [if_pos on]
      trivial
    rw [if_neg (not_not.2 on)]
    by_cases behind : page.hdr.highest ≤ d.key
    · -- the next page of the level
      rw [if_pos behind]
      refine obeys_unlock held' ?_
      by_cases last : page.hdr.siblingPtr = .null
      · rw [if_pos last]
        trivial
      · rw [if_neg last, ← effect]
        exact ih (g := { g' with held := none }) debt' rfl positive (learned.pointers (sibling_mem_pointers last)) paths' rfl item'
    rw [if_neg behind]
    by_cases low : d.key < page.hdr.lowest
    · rw [if_pos low]
      trivial
    rw [if_neg low]
    -- a page above the leaves is an internal page
    obtain ⟨n, rfl⟩ : ∃ n, page = .internal n := by
      cases page with
      | leaf n => exact absurd (on.symm.trans proper.1) (Nat.ne_of_gt positive)
      | internal n => exact ⟨n, rfl⟩
    have covers : n.hdr.covers d.key := ⟨not_lt.1 low, not_le.1 behind⟩
    dsimp only [Page.asInternal]
    by_cases old : n.cnt = cfg.internalCardinality
    · rw [if_pos old]
      trivial
    rw [if_neg old]
    by_cases full : (n.withRecord d.key d.right).cnt = cfg.internalCardinality
    swap
    · -- there was room
      rw [if_pos full, writePageAndUnlock]
      refine obeys_last ?_
      rw [bind_assoc]
      exact obeys_link held' debt' on covers full (obeys_unlock rfl ⟨effect, rfl, item', rfl⟩)
    rw [if_neg (not_not.2 full)]
    refine obeys_allocPage fun new => ?_
    by_cases outside : (n.withRecord d.key d.right).splitKey ≤ (n.withRecord d.key d.right).hdr.lowest ∨
        (n.withRecord d.key d.right).hdr.highest ≤ (n.withRecord d.key d.right).splitKey
    · rw [if_pos outside]
      trivial
    rw [if_neg outside]
    by_cases cycle : new = a ∨ (n.withRecord d.key d.right).hdr.siblingPtr = a ∨ (n.withRecord d.key d.right).hdr.siblingPtr = new
    · rw [if_pos cycle]
      trivial
    rw [if_neg cycle]
    refine obeys_fillPage rfl ?_
    rw [writePageAndUnlock, bind_assoc]
    refine obeys_linkAndSplit (g := { g' with fresh := some (new, some (.internal (n.withRecord d.key d.right).splitRight)) })
      held' debt' on
      covers full rfl ?_
    refine obeys_unlock rfl ?_
    refine obeys_propagate (d := ⟨a, new, (n.withRecord d.key d.right).splitKey, d.level + 1⟩) rfl ⟨effect, rfl, item', rfl⟩ ?_ ?_
    · intro g'' progress known held item debt above
      rw [← effect, ← show g''.progress = g'.progress from progress]
      exact ih debt rfl (Nat.succ_pos _) (known ▸ paths' _ above) (known ▸ paths') held (item.trans item')
    · intro g'' _ _ _ _ _
      -- `assert(false)` never returns
      refine obeys_perform fun gs m h pages items top map shared own c r m' performed => ?_
      cases performed

theorem obeys_searchAndInsertLoop {bound level : ℕ} {d : Debt Key} {root : GlobalAddress} (debt : g.debt = some d)
    (on : d.level = level)
    (positive : 0 < level) (known : a ∈ g.known) (shown : Shown path result g) (held : g.held = none) (item : g.item = none) :
    Obeys cfg start t (fun _ => Settled g.progress) (searchAndInsertLoop cfg d.key d.right root level bound a result path) g := by
  induction bound generalizing a result path g with
  | zero => trivial
  | succ bound ih =>
    unfold searchAndInsertLoop
    refine obeys_searchNode known shown fun result' path' g' learns shown leads => ?_
    have debt' := learns.debt.trans debt
    have held' := learns.held.trans held
    have item' := learns.item.trans item
    dsimp only
    rw [← learns.progress]
    split_ifs with here bottom aside apart
    · exact obeys_insertToInternal debt' on positive (learns.known known) shown.path held' item'
    · trivial
    · exact ih debt' (shown.slibing aside) shown held' item'
    · exact ih debt' (leads (.inr bottom) (not_not.1 aside)) shown held' item'
    · exact obeys_insertToInternal debt' on positive (leads (.inr bottom) (not_not.1 aside)) shown.path held' item'

theorem obeys_searchAndInsertToInternal {level : ℕ} {d : Debt Key} (debt : g.debt = some d) (on : d.level = level)
    (positive : 0 < level) (paths : ∀ l, path l ≠ .null → path l ∈ g.known) (held : g.held = none) (item : g.item = none) :
    Obeys cfg start t (fun _ => Settled g.progress) (searchAndInsertToInternal cfg d.key d.right level path) g := by
  unfold searchAndInsertToInternal
  refine obeys_readRoot fun root g' learns known => ?_
  rw [← learns.progress]
  exact obeys_searchAndInsertLoop (learns.debt.trans debt) on positive known
    ⟨fun l some => learns.known (paths l some), fun some => absurd rfl some⟩ (learns.held.trans held) (learns.item.trans item)

/-! ## Inserting -/

theorem obeys_readKeyed {f : List (Key × LeafEntry) → Index Key Value A} {page : LeafPage Key} {keyOf : LeafEntry → Key}
    {slots : List ℕ} (names : ∀ i ∈ slots, g.Names (page.records i).kvPtr (keyOf (page.records i)))
    (next : Obeys cfg start t post (f ((slots.map page.records).map fun r => (keyOf r, r))) g) :
    Obeys cfg start t post (readKeyed page slots >>= f) g := by
  induction slots generalizing f with
  | nil => exact next
  | cons i rest ih =>
    rw [readKeyed, bind_assoc]
    refine obeys_readItem fun item named => ?_
    rw [bind_assoc, named _ (names i List.mem_cons_self)]
    exact ih (fun j inside => names j (List.mem_cons_of_mem _ inside)) next

theorem obeys_scanRecords {f : Scan → Index Key Value A} {page : LeafPage Key} {value : Value} {keyOf : LeafEntry → Key}
    {slots : List ℕ} {cnt : ℕ} {emptyIndex : Option ℕ} (held : g.held = some (a, .leaf page))
    (called : g.progress = .called (.insert key value)) (within : ∀ i ∈ slots, i < cfg.leafCardinality)
    (names : ∀ r ∈ page.among slots, g.Names r.kvPtr (keyOf r))
    (fingerprints : ∀ r ∈ page.among slots, r.fingerprint = .ofKey (keyOf r))
    (updated : Obeys cfg start t post (f .updated) { g with progress := .effected (.insert key value) ⟨true, none⟩ })
    (absent : (∀ r ∈ page.among slots, keyOf r ≠ key) →
      Obeys cfg start t post
        (f (.absent (cnt + (page.among slots).length) (emptyIndex.or (slots.find? fun i => (page.records i).isEmpty)))) g) :
    Obeys cfg start t post (scanRecords key value page slots cnt emptyIndex >>= f) g := by
  -- the scan updates the record of the key, or no record has it
  induction slots generalizing cnt emptyIndex with
  | nil =>
    have goes := absent (by simp [LeafPage.among])
    rw [List.find?_nil, Option.or_none] at goes
    exact goes
  | cons i rest ih =>
    have later := fun j inside => within j (List.mem_cons_of_mem i inside)
    unfold scanRecords
    by_cases unused : (page.records i).isEmpty = true
    · have among : page.among (i :: rest) = page.among rest := by simp [LeafPage.among, unused]
      rw [if_pos unused]
      rw [among] at names fingerprints absent
      refine ih later names fingerprints fun none => ?_
      have goes := absent none
      cases emptyIndex <;> simpa [unused] using goes
    have among : page.among (i :: rest) = page.records i :: page.among rest := by simp [LeafPage.among, unused]
    rw [among] at names fingerprints absent
    have first := names _ List.mem_cons_self
    -- a record with another key is counted
    have onward : keyOf (page.records i) ≠ key →
      Obeys cfg start t post (scanRecords key value page rest (cnt + 1) emptyIndex >>= f) g := by
      intro other
      refine ih later (fun r inside => names r (List.mem_cons_of_mem _ inside))
        (fun r inside => fingerprints r (List.mem_cons_of_mem _ inside))
        fun none => ?_
      have goes := absent (List.forall_mem_cons.2 ⟨other, none⟩)
      have count : cnt + (page.records i :: page.among rest).length = cnt + 1 + (page.among rest).length := by
        rw [List.length_cons]
        omega
      rw [count] at goes
      simpa [unused] using goes
    rw [if_neg unused]
    by_cases fingerprint : (page.records i).fingerprint = .ofKey key
    · rw [if_pos fingerprint, bind_assoc]
      refine obeys_readItem fun item named => ?_
      have same := named _ first
      by_cases here : item.key = key
      · rw [if_pos here, bind_assoc]
        have inside : page.records i ∈ page.entries cfg.leafCardinality :=
          mem_entries.2 ⟨i, within i List.mem_cons_self, Bool.eq_false_iff.2 unused, rfl⟩
        refine obeys_update held called inside ?_ ?_ updated
        · rw [← here, same]
          exact first
        · rw [here]
      · rw [if_neg here]
        exact onward (same ▸ here)
    · rw [if_neg fingerprint]
      refine onward fun same => fingerprint ?_
      rw [← same]
      exact fingerprints _ List.mem_cons_self

section
variable {p : LeafPage Key} {value : Value} {x root : GlobalAddress} {i cnt : ℕ} {keyOf : LeafEntry → Key}

theorem obeys_splitLeafPage {q : LeafPage Key} (two : 2 ≤ cnt) (held : g.held = some (a, .leaf p))
    (called : g.progress = .called (.insert key value)) (item : g.item = some (x, some ⟨key, value⟩)) (free : g.debt = none)
    (covers : p.hdr.covers key) (bound : i < cfg.leafCardinality) (empty : (p.records i).isEmpty = true)
    (names : ∀ r ∈ p.entries cfg.leafCardinality, g.Names r.kvPtr (keyOf r))
    (absent : ∀ r ∈ p.entries cfg.leafCardinality, keyOf r ≠ key) (paths : ∀ l, path l ≠ .null → path l ∈ g.known)
    (new : q = p.setRecord i ⟨.ofKey key, x⟩) :
    Obeys cfg start t (fun _ => Settled (.effected (.insert key value) ⟨true, none⟩)) (splitLeafPage cfg a q cnt root 0 path) g := by
  -- the new record is in the leaf that is split, and the right half is owed to the level above
  have namesAll : ∀ j ∈ q.used cfg.leafCardinality,
    g.Names (q.records j).kvPtr (Function.update keyOf ⟨.ofKey key, x⟩ key (q.records j)) := by
    intro j inside
    by_cases here : q.records j = ⟨.ofKey key, x⟩
    · rw [here, Function.update_self]
      exact .inr ⟨value, item⟩
    · have other : j ≠ i := by
        rintro rfl
        exact here (new ▸ Function.update_self ..)
      have old : q.records j = p.records j := new ▸ Function.update_of_ne other _ _
      rw [Function.update_of_ne here, old]
      rw [mem_used, old] at inside
      exact names _ (mem_entries.2 ⟨j, inside.1, inside.2, rfl⟩)
  unfold splitLeafPage
  refine obeys_readKeyed namesAll ?_
  obtain ⟨sorted, eq⟩ : ∃ sorted, sorted = sortByKey ((q.entries cfg.leafCardinality).map fun r =>
      (Function.update keyOf ⟨.ofKey key, x⟩ key r, r)) := ⟨_, rfl⟩
  have order : sortByKey
    (((q.used cfg.leafCardinality).map q.records).map fun r => (Function.update keyOf ⟨.ofKey key, x⟩ key r, r)) = sorted :=
    eq.symm
  rw [order]
  dsimp only
  by_cases count : sorted.length = cnt
  swap
  · rw [if_pos count]
    trivial
  rw [if_neg (not_not.2 count)]
  refine obeys_allocPage fun sibling => ?_
  split
  · trivial
  rename_i splitKey r middle
  by_cases outside : splitKey ≤ q.hdr.lowest ∨ q.hdr.highest ≤ splitKey
  · rw [if_pos outside]
    trivial
  by_cases cycle : sibling = a ∨ q.hdr.siblingPtr = a ∨ q.hdr.siblingPtr = sibling
  · rw [if_neg outside, if_pos cycle]
    trivial
  rw [if_neg outside, if_neg cycle]
  refine obeys_fillPage rfl ?_
  rw [writePageAndUnlock, bind_assoc]
  refine obeys_splitLeaf (e := (splitKey, r))
    (g := { g with fresh := some (sibling, some (.leaf (q.splitRight sorted splitKey))) }) held called item
    covers bound empty names absent new eq (count ▸ two) middle rfl free ?_
  refine obeys_unlock rfl ?_
  refine obeys_propagate (d := ⟨a, sibling, splitKey, 1⟩) rfl ⟨rfl, rfl, rfl, rfl⟩ ?_ ?_
  · intro g' progress known held item debt above
    rw [← show g'.progress = .effected (.insert key value) ⟨true, none⟩ from progress]
    exact obeys_insertToInternal debt rfl Nat.one_pos (known ▸ paths _ above) (known ▸ paths) held item
  · intro g' progress known held item debt
    rw [← show g'.progress = .effected (.insert key value) ⟨true, none⟩ from progress]
    exact obeys_searchAndInsertToInternal debt rfl Nat.one_pos (known ▸ paths) held item

end

theorem obeys_insertToLeaf {value : Value} {root : GlobalAddress} {bound : ℕ} (two : 2 ≤ cfg.leafCardinality) (known : a ∈ g.known)
    (paths : ∀ l, path l ≠ .null → path l ∈ g.known) (called : g.progress = .called (.insert key value)) (free : g.Free) :
    Obeys cfg start t (fun _ => Settled (.effected (.insert key value) ⟨true, none⟩))
    (insertToLeaf cfg key value root 0 path bound a) g := by
  induction bound generalizing a g with
  | zero => trivial
  | succ bound ih =>
    unfold insertToLeaf
    refine obeys_lockAndReadPage known free.held fun page keyOf g' proper learns learned => ?_
    have called' : g'.progress = .called (.insert key value) := learns.progress.trans called
    have held' : g'.held = some (a, page) := learns.held
    have item' : g'.item = none := learns.item.trans free.item
    have debt' : g'.debt = none := learns.debt.trans free.debt
    have paths' : ∀ l, path l ≠ .null → path l ∈ g'.known := fun l some => learns.known (paths l some)
    by_cases bottom : page.hdr.level = 0
    swap
    · rw [if_pos bottom]
      trivial
    rw [if_neg (not_not.2 bottom)]
    by_cases behind : page.hdr.highest ≤ key
    · -- the next leaf
      rw [if_pos behind]
      refine obeys_unlock held' ?_
      by_cases last : page.hdr.siblingPtr = .null
      · rw [if_pos last]
        trivial
      · rw [if_neg last]
        exact ih (g := { g' with held := none }) (learned.pointers (sibling_mem_pointers last)) paths' called' ⟨rfl, item', debt'⟩
    rw [if_neg behind]
    by_cases low : key < page.hdr.lowest
    · rw [if_pos low]
      trivial
    rw [if_neg low]
    obtain ⟨n, rfl⟩ : ∃ n, page = .leaf n := by
      cases page with
      | leaf n => exact ⟨n, rfl⟩
      | internal n => exact absurd bottom proper.1
    have covers : n.hdr.covers key := ⟨not_lt.1 low, not_le.1 behind⟩
    have names : ∀ r ∈ n.entries cfg.leafCardinality, g'.Names r.kvPtr (keyOf r) := fun r inside =>
      .inl (learned.labels n rfl r inside)
    dsimp only [Page.asLeaf]
    refine obeys_scanRecords held' called' (fun i inside => List.mem_range.1 inside) names (learned.fingerprints n rfl) ?_
      fun absent => ?_
    · dsimp only
      exact obeys_last (obeys_unlock held' ⟨rfl, rfl, item', debt'⟩)
    rw [Option.none_or, Nat.zero_add]
    cases found : (List.range cfg.leafCardinality).find? fun i => (n.records i).isEmpty with
    | none => trivial
    | some i =>
      have bound : i < cfg.leafCardinality := List.mem_range.1 (List.mem_of_find?_eq_some found)
      have empty : (n.records i).isEmpty = true := by simpa using List.find?_some found
      have short : (n.entries cfg.leafCardinality).length ≤ cfg.leafCardinality := by
        rw [← length_sorted (m := ⟨.null, fun _ => none, fun _ => ⟨key, value⟩, fun _ => false, [], []⟩)]
        exact length_sorted_le _ _ _
      have entries : n.among (List.range cfg.leafCardinality) = n.entries cfg.leafCardinality := rfl
      rw [entries] at absent ⊢
      dsimp only
      by_cases full : (n.entries cfg.leafCardinality).length = cfg.leafCardinality
      · rw [if_pos full]
        trivial
      rw [if_neg full]
      refine obeys_allocItem fun x => obeys_fillItem rfl ?_
      by_cases last : (n.entries cfg.leafCardinality).length + 1 = cfg.leafCardinality
      · rw [if_neg (not_not.2 last)]
        exact obeys_splitLeafPage (g := { g' with item := some (x, some ⟨key, value⟩) })
          (by omega) held' called' rfl debt' covers bound empty
          (fun r inside => .inl (learned.labels n rfl r inside)) absent paths' rfl
      · rw [if_pos last]
        refine obeys_add (g := { g' with item := some (x, some ⟨key, value⟩) }) held' called' rfl covers bound empty
          (fun r inside => .inl (learned.labels n rfl r inside)) absent (by omega) ?_
        exact obeys_last (obeys_unlock rfl ⟨rfl, rfl, rfl, debt'⟩)

theorem obeys_insertLoop {value : Value} {root : GlobalAddress} {retries : ℕ} (two : 2 ≤ cfg.leafCardinality) (known : a ∈ g.known)
    (shown : Shown path result g) (called : g.progress = .called (.insert key value)) (free : g.Free) :
    Obeys cfg start t (fun ok =>
    Settled (if ok = true then .effected (.insert key value) ⟨true, none⟩ else .called (.insert key value)))
      (insertLoop cfg key value root retries a result path) g := by
  have done : ∀ {g : Client Key Value} {path : PathStack} {a : GlobalAddress}, a ∈ g.known →
    (∀ l, path l ≠ .null → path l ∈ g.known) →
      g.progress = .called (.insert key value) → g.Free →
      Obeys cfg start t (fun ok =>
        Settled (if ok = true then .effected (.insert key value) ⟨true, none⟩ else .called (.insert key value)))
        (insertToLeaf cfg key value root 0 path cfg.loopBound a >>= fun _ => pure true) g := by
    intro g path a known paths called free
    exact follows_bind (follows_mono (obeys_insertToLeaf two known paths called free) fun _ g' settled => settled)
  induction retries generalizing a result path g with
  | zero => exact ⟨called, free⟩
  | succ retries ih =>
    unfold insertLoop
    refine obeys_searchNode known shown fun result' path' g' learns shown leads => ?_
    have called' := learns.progress.trans called
    have free' := free.learn learns
    dsimp only
    split_ifs with leaf bottom aside high
    · exact done (learns.known known) shown.path called' free'
    · trivial
    · exact ih (shown.slibing aside) shown called' free'
    · exact ih (leads (.inr bottom) (not_not.1 aside)) shown called' free'
    · exact done (leads (.inr bottom) (not_not.1 aside)) shown.path called' free'

theorem implements_clientMachine (two : 2 ≤ cfg.leafCardinality) : Implements (system cfg) (clientMachine cfg)
    (Agrees cfg start) := by
  -- every call follows the machine of the clients
  intro gs s t call _ _ _
  refine ⟨{ Client.idle with progress := .called call }, rfl, ?_⟩
  have begin : ∀ {g : Client Key Value} {root : GlobalAddress}, root ∈ g.known → Shown (fun _ => .null)
    (SearchResult.init : SearchResult Value) g :=
    fun _ => ⟨fun l some => absurd rfl some, fun some => absurd rfl some⟩
  cases call with
  | insert key value =>
    refine follows_bind ?_
    refine obeys_readRoot fun root g' learns known => ?_
    refine follows_mono (obeys_insertLoop two known (begin known) learns.progress (Client.Free.learn ⟨rfl, rfl, rfl⟩ learns)) ?_
    rintro ok g ⟨progress, free⟩
    refine ⟨?_, free.held, free.item, free.debt⟩
    cases ok with
    | true => exact .inl progress
    | false => exact .inr ⟨⟨key, value, rfl⟩, progress, rfl⟩
  | read key =>
    refine follows_bind ?_
    refine obeys_readRoot fun root g' learns known => ?_
    refine follows_mono (obeys_readLoop known (begin known) learns.progress rfl (Client.Free.learn ⟨rfl, rfl, rfl⟩ learns)) ?_
    rintro found g ⟨progress, free⟩
    exact ⟨.inl progress, free.held, free.item, free.debt⟩

end

end Faunus.Sherman
