import Faunus.Sherman.Sharing

/-! Every granted step keeps the shared tree sound.

A private step changes nothing that is part of the tree. The others change one page or
one item of it and what its client owes.
-/

set_option autoImplicit false

namespace Faunus.Sherman

open Interleaving

variable {Key Value : Type}

/-! ## Debts -/

section
variable {gs : ℕ → Client Key Value} {t : ℕ} {g' : Client Key Value}

theorem owed_same (debt : g'.debt = (gs t).debt) : owed (Function.update gs t g') = owed gs := by
  have debts : ∀ u, (Function.update gs t g' u).debt = (gs u).debt := by
    intro u
    by_cases own : u = t
    · subst own
      rw [Function.update_self, debt]
    · rw [Function.update_of_ne own]
  ext a
  simp only [owed, Set.mem_ofPred_eq, debts]

theorem owed_settled (apart : ∀ u, u ≠ t → Apart (gs t) (gs u)) {old : Set GlobalAddress}
    (before : ∀ a, a ∈ old ↔ ∃ d, (gs t).debt = some d ∧ d.right = a) :
    owed (Function.update gs t g') = {a | ∃ d, g'.debt = some d ∧ d.right = a} ∪ owed gs \ old := by
  -- what the client owed before is settled; what it owes now is new
  ext a
  simp only [owed, Set.mem_ofPred_eq, Set.mem_union, Set.mem_sdiff, before]
  constructor
  · rintro ⟨u, d, debt, rfl⟩
    by_cases own : u = t
    · subst own
      rw [Function.update_self] at debt
      exact .inl ⟨d, debt, rfl⟩
    · rw [Function.update_of_ne own] at debt
      refine .inr ⟨⟨u, d, debt, rfl⟩, ?_⟩
      rintro ⟨e, mine, same⟩
      exact (apart u own).debt e d mine debt same
  · rintro (⟨d, debt, rfl⟩ | ⟨⟨u, d, debt, rfl⟩, others⟩)
    · exact ⟨t, d, by rw [Function.update_self, debt], rfl⟩
    · have notOwn : u ≠ t := by
        rintro rfl
        exact others ⟨d, debt, rfl⟩
      exact ⟨u, d, by rw [Function.update_of_ne notOwn, debt], rfl⟩

variable {d e : Debt Key}

theorem owed_incurred (apart : ∀ u, u ≠ t → Apart (gs t) (gs u)) (before : (gs t).debt = none) (debt : g'.debt = some d) :
    owed (Function.update gs t g') = Insert.insert d.right (owed gs) := by
  rw [owed_settled apart (show ∀ a, a ∈ (∅ : Set GlobalAddress) ↔ ∃ d, (gs t).debt = some d ∧ d.right = a by simp [before]), debt]
  ext a
  simp [eq_comm]

theorem owed_paid (apart : ∀ u, u ≠ t → Apart (gs t) (gs u)) (before : (gs t).debt = some d) (debt : g'.debt = none) :
    owed (Function.update gs t g') = owed gs \ {d.right} := by
  rw [owed_settled apart (show ∀ a, a ∈ ({d.right} : Set GlobalAddress) ↔ ∃ d, (gs t).debt = some d ∧
    d.right = a by simp [before, eq_comm]), debt]
  ext a
  simp

theorem owed_passed (apart : ∀ u, u ≠ t → Apart (gs t) (gs u)) (before : (gs t).debt = some d) (debt : g'.debt = some e) :
    owed (Function.update gs t g') = Insert.insert e.right (owed gs \ {d.right}) := by
  rw [owed_settled apart (show ∀ a, a ∈ ({d.right} : Set GlobalAddress) ↔ ∃ d, (gs t).debt = some d ∧
    d.right = a by simp [before, eq_comm]), debt]
  ext a
  simp [eq_comm]

end

/-! ## Private steps -/

/-- A step that the tree does not notice. -/
structure Unseen (m : Memory Key Value) (pages items : List GlobalAddress) (m' : Memory Key Value) (g : Client Key Value) :
    Prop where
  root : m'.rootOffset = m.rootOffset
  page : ∀ a, m'.pages a = m.pages a ∨ (∃ c, g.fresh = some (a, c)) ∧ a ∉ pages
  item : ∀ x, m'.items x = m.items x ∨ (∃ c, g.item = some (x, c)) ∧ x ∉ items
  lock : ∀ a, m'.locks a = m.locks a ∨ (∃ p, g.held = some (a, p)) ∨ m.locks a = false
  pagesIssued : m.pagesIssued ⊆ m'.pagesIssued
  itemsIssued : m.itemsIssued ⊆ m'.itemsIssued

section
variable {cfg : Config} {m m' : Memory Key Value} {pages items : List GlobalAddress} {g : Client Key Value}

theorem Unseen.refl (m : Memory Key Value) : Unseen m pages items m g :=
  ⟨rfl, fun _ => .inl rfl, fun _ => .inl rfl, fun _ => .inl rfl, fun _ inside => inside, fun _ inside => inside⟩

theorem Unseen.page_inside (unseen : Unseen m pages items m' g) {a : GlobalAddress} (inside : a ∈ pages) :
    m'.pages a = m.pages a := by
  rcases unseen.page a with same | ⟨-, outside⟩
  · exact same
  · exact absurd inside outside

theorem Unseen.item_inside (unseen : Unseen m pages items m' g) {x : GlobalAddress} (inside : x ∈ items) :
    m'.items x = m.items x := by
  rcases unseen.item x with same | ⟨-, outside⟩
  · exact same
  · exact absurd inside outside

theorem Unseen.tree (unseen : Unseen m pages items m' g) : (m'.seen pages items).pages = (m.seen pages items).pages := by
  funext a
  by_cases inside : a ∈ pages
  · rw [seen_inside inside, seen_inside inside, unseen.page_inside inside]
  · rw [seen_outside inside, seen_outside inside]

theorem Unseen.shelf (unseen : Unseen m pages items m' g) : (m'.seen pages items).shelf cfg = (m.seen pages items).shelf cfg := by
  unfold Memory.shelf
  rw [unseen.tree]

theorem Unseen.moves (unseen : Unseen m pages items m' g) : Moves cfg m pages items m' pages items g where
  morePages _ inside := inside
  moreItems _ inside := inside
  newPages _ inside := .inl inside
  newItems _ inside := .inl inside
  pagesIssued := unseen.pagesIssued
  itemsIssued := unseen.itemsIssued
  page a := (unseen.page a).imp_right .inr
  lock := unseen.lock
  item x := (unseen.item x).imp_right fun mine => .inl mine.1
  face a inside p there := ⟨p, (unseen.page_inside inside).trans there, rfl, rfl⟩
  key x inside := congrArg KVItem.key (unseen.item_inside inside)
  shelf := fun _ inside => by rwa [unseen.shelf]

variable [LinearOrder Key] [BoundedOrder Key] [KeyBytes Key] {pending : Set GlobalAddress} {top : ℕ} {map : Key → Option Value}

theorem Unseen.sound (unseen : Unseen m pages items m' g) (sound : Sound cfg (m.seen pages items) pending top) :
    Sound cfg (m'.seen pages items) pending top where
  linked := sound.linked.congr unseen.tree unseen.root rfl
  room a p there := sound.room a p (by rwa [← unseen.tree])
  free _ := rfl
  stocked a p there := (sound.stocked a p (by rwa [← unseen.tree])).frame
    (fun x inside => congrArg KVItem.key (unseen.item_inside inside)) fun _ inside => inside

theorem Unseen.represents (unseen : Unseen m pages items m' g) (sound : Sound cfg (m.seen pages items) pending top)
    (represents : Represents cfg (m.seen pages items) map) : Represents cfg (m'.seen pages items) map := by
  intro k v
  rw [represents k v, unseen.shelf]
  refine exists_congr fun r => and_congr_right fun inside => ?_
  rw [seen_items, seen_items, unseen.item_inside (sound.issued inside)]

end

theorem locks_same {m m' : Memory Key Value} {g g' : Client Key Value} (held : g'.held = g.held) (same : m'.locks = m.locks)
    (a : GlobalAddress)
    (locked : m'.locks a = true) : (∃ p, g'.held = some (a, p)) ∨ m.locks a = true ∧ ∀ p, g.held ≠ some (a, p) := by
  rw [same] at locked
  rw [held]
  by_cases own : ∃ p, g.held = some (a, p)
  · exact .inl own
  · exact .inr ⟨locked, fun p one => own ⟨p, one⟩⟩

section
variable [LinearOrder Key] [BoundedOrder Key] [KeyBytes Key] [Bot Value] [DecidableEq Value]
variable {cfg : Config} {start map map' : Key → Option Value} {gs : ℕ → Client Key Value} {s s' : State Key Value}
  {pages items : List GlobalAddress} {top t : ℕ} {g' : Client Key Value}

omit [Bot Value] [DecidableEq Value] in
theorem Sound.owed_same {m : Memory Key Value} (sound : Sound cfg m (owed gs) top) (debt : g'.debt = (gs t).debt) :
    Sound cfg m (owed (Function.update gs t g')) top := by
  rwa [Sherman.owed_same debt]

theorem Shared.unseen (shared : Shared cfg start gs s pages items top map) (unseen : Unseen s.memory pages items s'.memory (gs t))
    (atomic : Atomic Behaves start (signals s'.history) map (Function.update (fun u => (gs u).progress) t g'.progress))
    (draws : Draws s.memory pages (gs t) g') (backs : Backs cfg s'.memory pages items g') (debt : g'.debt = (gs t).debt)
    (locks : ∀ a, s'.memory.locks a = true → (∃ p, g'.held = some (a, p)) ∨ s.memory.locks a = true ∧ ∀ p,
      (gs t).held ≠ some (a, p)) :
    Shared cfg start (Function.update gs t g') s' pages items top map := by
  exact shared.step ((unseen.sound shared.sound).owed_same debt) (unseen.represents shared.sound shared.represents) atomic
    unseen.moves draws
    backs locks

theorem Shared.look (shared : Shared cfg start gs s pages items top map) (memory : s'.memory = s.memory)
    (atomic : Atomic Behaves start (signals s'.history) map (Function.update (fun u => (gs u).progress) t g'.progress))
    (known : ∀ a ∈ g'.known, a ∈ pages) (keys : Labelled cfg s.memory pages items g'.keys) (held : g'.held = (gs t).held)
    (fresh : g'.fresh = none ∨ g'.fresh = (gs t).fresh) (item : g'.item = (gs t).item) (debt : g'.debt = (gs t).debt) :
    Shared cfg start (Function.update gs t g') s' pages items top map := by
  -- a client looks at the tree
  have mine := shared.backs t
  have before : ∀ a c, g'.fresh = some (a, c) → (gs t).fresh = some (a, c) := by
    intro a c one
    rcases fresh with none | same
    · cases none.symm.trans one
    · exact same.symm.trans one
  refine shared.unseen (memory ▸ Unseen.refl s.memory) atomic ⟨?_, ?_, ?_, ?_⟩ ⟨known, memory ▸ keys, ?_, ?_, ?_, ?_⟩ debt ?_
  · exact fun a p one => .inl ⟨p, held ▸ one⟩
  · exact fun a c one => .inl ⟨c, before a c one⟩
  · exact fun x c one => .inl ⟨c, item ▸ one⟩
  · exact fun d one => .inl ⟨d, debt ▸ one, rfl⟩
  · rw [held, memory]
    exact mine.held
  · rw [memory]
    exact fun a c one => mine.fresh a c (before a c one)
  · rw [item, memory]
    exact mine.item
  · rw [debt, memory]
    exact mine.debt
  · exact locks_same held (by rw [memory])

/-! ## Steps that the tree notices -/

section
variable {m : Memory Key Value} {a : GlobalAddress} {p q : Page Key} {pages' items' : List GlobalAddress} {top' : ℕ}
    {g : Client Key Value}

omit [LinearOrder Key] [BoundedOrder Key] [KeyBytes Key] [Bot Value] [DecidableEq Value] in
theorem setPage_there {b : GlobalAddress} (there : ∃ p, m.pages b = some p) : ∃ p, (m.setPage a q).pages b = some p := by
  by_cases here : b = a
  · exact ⟨q, by simp [Memory.setPage, here]⟩
  · simpa [Memory.setPage, here] using there

omit [LinearOrder Key] [BoundedOrder Key] [KeyBytes Key] [Bot Value] [DecidableEq Value] in
theorem Backs.moves (backs : Backs cfg m pages items g) (held : g.held = some (a, p)) (level : q.hdr.level = p.hdr.level)
    (lowest : q.hdr.lowest = p.hdr.lowest) (morePages : pages ⊆ pages') (moreItems : items ⊆ items')
    (newPages : ∀ b ∈ pages', b ∈ pages ∨ ∃ c, g.fresh = some (b, some c))
    (newItems : ∀ x ∈ items', x ∈ items ∨ ∃ c, g.item = some (x, c))
    (shelf : (m.seen pages items).shelf cfg ⊆ ((m.setPage a q).seen pages' items').shelf cfg) :
    Moves cfg m pages items (m.setPage a q) pages' items' g := by
  -- a client rewrites the page that it has locked
  obtain ⟨inside, -, there⟩ := backs.held a p held
  refine ⟨morePages, moreItems, fun b inside' => ?_, newItems, fun _ old => old, fun _ old => old, fun b => ?_, fun b =>
    .inl rfl, fun x => .inl rfl,
    fun b inside' p' there' => ?_, fun x _ => rfl, shelf⟩
  · refine (newPages b inside').imp_right fun ⟨c, mine⟩ => ⟨⟨_, mine⟩, setPage_there ⟨c, ?_⟩⟩
    exact (backs.fresh b _ mine).2.2.2 c rfl
  · by_cases here : b = a
    · subst here
      exact .inr (.inl ⟨⟨p, held⟩, inside⟩)
    · exact .inl (by simp [Memory.setPage, here])
  · by_cases here : b = a
    · subst here
      obtain rfl : p = p' := Option.some.inj (there.symm.trans there')
      exact ⟨q, by simp [Memory.setPage], level, lowest⟩
    · exact ⟨p', by simpa [Memory.setPage, here] using there', rfl, rfl⟩

omit [LinearOrder Key] [BoundedOrder Key] [KeyBytes Key] [Bot Value] [DecidableEq Value] in
theorem Backs.owes_split (backs : Backs cfg m pages items g) (held : g.held = some (a, p)) {new : GlobalAddress}
    {right : Page Key} {level : ℕ}
    (fresh : g.fresh = some (new, some right)) (left : q.hdr.level + 1 = level) (beside : right.hdr.level + 1 = level) :
    Owes (m.setPage a q) (new :: pages) ⟨a, new, right.hdr.lowest, level⟩ := by
  obtain ⟨known, -, -⟩ := backs.held a p held
  obtain ⟨-, -, outside, written⟩ := backs.fresh new _ fresh
  have other : new ≠ a := by
    rintro rfl
    exact outside known
  refine ⟨⟨List.mem_cons_of_mem _ known, q, by simp [Memory.setPage], left⟩, List.mem_cons_self, right, ?_, rfl, beside⟩
  simpa [Memory.setPage, other] using written right rfl

/-- What a client has in hand after it rewrote the page that it has locked. -/
structure Rewrites (a : GlobalAddress) (q : Page Key) (m : Memory Key Value) (pages pages' items items' : List GlobalAddress)
    (g g' : Client Key Value) : Prop where
  known : g'.known = g.known
  keys : g'.keys = g.keys
  held : g'.held = some (a, q)
  fresh : g'.fresh = none ∨ g'.fresh = g.fresh ∧ pages' = pages
  item : g'.item = none ∨ g'.item = g.item ∧ items' = items
  debt : ∀ d, g'.debt = some d → Owes (m.setPage a q) pages' d ∧ ((∃ e, g.debt = some e ∧ e.right = d.right) ∨ d.right ∉ pages)

omit [LinearOrder Key] [BoundedOrder Key] [KeyBytes Key] [Bot Value] [DecidableEq Value] in
theorem Rewrites.backs (rewrites : Rewrites a q m pages pages' items items' g g') (backs : Backs cfg m pages items g)
    (held : g.held = some (a, p)) (moves : Moves cfg m pages items (m.setPage a q) pages' items' g)
    (stored : ∀ r ∈ (m.seen pages items).shelf cfg, r.kvPtr ∈ items) :
    Backs cfg (m.setPage a q) pages' items' g' where
  known b inside := moves.morePages (backs.known b (rewrites.known ▸ inside))
  keys := rewrites.keys ▸ moves.labelled stored backs.keys
  held b p' one := by
    obtain ⟨rfl, rfl⟩ := Prod.mk.inj (Option.some.inj (rewrites.held.symm.trans one))
    obtain ⟨inside, locked, -⟩ := backs.held a p held
    exact ⟨moves.morePages inside, locked, by simp [Memory.setPage]⟩
  fresh b c one := by
    rcases rewrites.fresh with none | ⟨same, rfl⟩
    · cases none.symm.trans one
    · obtain ⟨notNull, issued, outside, written⟩ := backs.fresh b c (same.symm.trans one)
      have other : b ≠ a := by
        rintro rfl
        exact outside (backs.held b p held).1
      exact ⟨notNull, issued, outside, by simpa [Memory.setPage, other] using written⟩
  item x c one := by
    rcases rewrites.item with none | ⟨same, rfl⟩
    · cases none.symm.trans one
    · exact backs.item x c (same.symm.trans one)
  debt d one := (rewrites.debt d one).1

omit [LinearOrder Key] [BoundedOrder Key] [KeyBytes Key] [Bot Value] [DecidableEq Value] in
theorem Rewrites.draws (rewrites : Rewrites a q m pages pages' items items' g g') (held : g.held = some (a, p)) :
    Draws m pages g g' where
  held b p' one := by
    obtain ⟨rfl, -⟩ := Prod.mk.inj (Option.some.inj (rewrites.held.symm.trans one))
    exact .inl ⟨p, held⟩
  fresh b c one := by
    rcases rewrites.fresh with none | ⟨same, -⟩
    · cases none.symm.trans one
    · exact .inl ⟨c, same ▸ one⟩
  item x c one := by
    rcases rewrites.item with none | ⟨same, -⟩
    · cases none.symm.trans one
    · exact .inl ⟨c, same ▸ one⟩
  debt d one := (rewrites.debt d one).2

variable {h h' : List (Event Key Value)}

theorem Shared.write (shared : Shared cfg start gs ⟨m, h⟩ pages items top map) (held : (gs t).held = some (a, p))
    (moves : Moves cfg m pages items (m.setPage a q) pages' items' (gs t))
    (rewrites : Rewrites a q m pages pages' items items' (gs t) g')
    (sound : Sound cfg ((m.setPage a q).seen pages' items') (owed (Function.update gs t g')) top')
    (represents : Represents cfg ((m.setPage a q).seen pages' items') map')
    (atomic : Atomic Behaves start (signals h') map' (Function.update (fun u => (gs u).progress) t g'.progress)) :
    Shared cfg start (Function.update gs t g') ⟨m.setPage a q, h'⟩ pages' items' top' map' := by
  refine shared.step sound represents atomic moves (rewrites.draws held)
    (rewrites.backs (shared.backs t) held moves shared.stored) fun b locked => ?_
  by_cases here : b = a
  · subst here
    exact .inl ⟨q, rewrites.held⟩
  · refine .inr ⟨locked, fun p' one => here ?_⟩
    exact (Prod.mk.inj (Option.some.inj (one.symm.trans held))).1

theorem Shared.unmoved (shared : Shared cfg start gs ⟨m, h⟩ pages items top map) (same : g'.progress = (gs t).progress) :
    Atomic Behaves start (signals h) map (Function.update (fun u => (gs u).progress) t g'.progress) := by
  rw [same, Function.update_eq_self]
  exact shared.atomic

theorem Shared.effected (shared : Shared cfg start gs ⟨m, h⟩ pages items top map) {call : Call Key Value} {outcome : Outcome Value}
    (called : (gs t).progress = .called call) (behaves : Behaves call map outcome map')
    (after : g'.progress = .effected call outcome) :
    Atomic Behaves start (signals h) map' (Function.update (fun u => (gs u).progress) t g'.progress) := by
  rw [after]
  exact .effect shared.atomic called behaves

theorem Shared.others (shared : Shared cfg start gs s pages items top map) (u : ℕ) (other : u ≠ t) : Apart (gs t) (gs u) :=
  shared.apart t u other.symm

omit [BoundedOrder Key] [KeyBytes Key] in
theorem behaves_insert [BoundedOrder Key] {key : Key} {value : Value} :
    Behaves (.insert key value) map ⟨true, none⟩ (Function.update map key (some value)) := .inl ⟨rfl, rfl⟩

theorem Shared.update (shared : Shared cfg start gs ⟨m, h⟩ pages items top map) {p : LeafPage Key} {r : LeafEntry} {value : Value}
    (held : (gs t).held = some (a, .leaf p)) (inside : r ∈ p.entries cfg.leafCardinality)
    (called : (gs t).progress = .called (.insert (m.keyAt r) value)) (same : signals h' = signals h) :
    Shared cfg start (Function.update gs t { gs t with progress := .effected (.insert (m.keyAt r) value) ⟨true, none⟩ })
      ⟨m.setItem r.kvPtr ⟨m.keyAt r, value⟩, h'⟩ pages items top (Function.update map (m.keyAt r) (some value)) := by
  have mine := shared.backs t
  obtain ⟨known, -, there⟩ := mine.held a _ held
  have onShelf : r ∈ (m.seen pages items).shelf cfg := ⟨a, p, seen_pages.2 ⟨known, there⟩, inside⟩
  have stored : r.kvPtr ∈ items := shared.stored r onShelf
  have item : ∀ x, (m.setItem r.kvPtr ⟨m.keyAt r, value⟩).items x = m.items x ∨ x ∈ items := by
    intro x
    by_cases here : x = r.kvPtr
    · exact .inr (here ▸ stored)
    · exact .inl (by simp [Memory.setItem, here])
  have moves : Moves cfg m pages items (m.setItem r.kvPtr ⟨m.keyAt r, value⟩) pages items (gs t) := by
    refine ⟨fun _ old => old, fun _ old => old, fun _ old => .inl old, fun _ old => .inl old, fun _ old => old, fun _ old => old,
      fun _ => .inl rfl, fun _ => .inl rfl, fun x => (item x).imp_right .inr, fun _ _ p' there' => ⟨p', there', rfl, rfl⟩,
        fun x _ => ?_,
      fun _ old => old⟩
    by_cases here : x = r.kvPtr
    · subst here
      simp [Memory.setItem, Memory.keyAt]
    · simp [Memory.setItem, here]
  refine shared.step (shared.sound.setItem.owed_same rfl) (shared.sound.represents_update shared.represents onShelf) ?_ moves
    ?_ ?_ (locks_same rfl rfl)
  · rw [same]
    exact shared.effected called behaves_insert rfl
  · exact ⟨fun b p' one => .inl ⟨p', one⟩, fun b c one => .inl ⟨c, one⟩, fun x c one => .inl ⟨c, one⟩, fun d one =>
      .inl ⟨d, one, rfl⟩⟩
  · refine ⟨mine.known, moves.labelled shared.stored mine.keys, mine.held, mine.fresh, fun x c one => ?_, fun d one =>
      moves.owes (mine.debt d one)⟩
    obtain ⟨notNull, issued, outside, written⟩ := mine.item x c one
    refine ⟨notNull, issued, outside, fun i eq => ?_⟩
    rcases item x with same | old
    · exact same.trans (written i eq)
    · exact absurd old outside

section
variable {x new : GlobalAddress} {p : LeafPage Key} {i : ℕ} {key : Key} {value : Value}
    (shared : Shared cfg start gs ⟨m, h⟩ pages items top map)
  (held : (gs t).held = some (a, .leaf p)) (item : (gs t).item = some (x, some ⟨key, value⟩)) (takes : Takes cfg m p key i)
include shared held item takes

theorem Shared.withItem : Sound cfg (m.seen pages (x :: items)) (owed gs) top ∧
    Filed cfg (m.seen pages (x :: items)) (p.setRecord i ⟨.ofKey key, x⟩) ∧ (m.seen pages (x :: items)).pages a = some (.leaf p) ∧
    (∀ r, r ∈ (p.setRecord i ⟨.ofKey key, x⟩).entries cfg.leafCardinality ↔ r = ⟨.ofKey key, x⟩ ∨
      r ∈ p.entries cfg.leafCardinality) ∧
    ((p.setRecord i ⟨.ofKey key, x⟩).entries cfg.leafCardinality).length = (p.entries cfg.leafCardinality).length + 1 := by
  obtain ⟨known, -, there⟩ := (shared.backs t).held a _ held
  obtain ⟨notNull, -, outside, written⟩ := (shared.backs t).item x _ item
  have there' : (m.seen pages items).pages a = some (.leaf p) := seen_pages.2 ⟨known, there⟩
  have perm := entries_setRecord (r := ⟨.ofKey key, x⟩) takes.bound takes.empty (by simp [LeafEntry.isEmpty, notNull])
  rw [seen_issueItem (written _ rfl)]
  exact ⟨shared.sound.issueItem outside _,
    shared.sound.filed_setRecord value there' takes.covers takes.bound takes.empty outside notNull takes.absent, there',
    fun r => perm.mem_iff.trans List.mem_cons, perm.length_eq⟩

omit item in
theorem Shared.absent : ∀ r ∈ (m.seen pages items).shelf cfg, m.keyAt r ≠ key := by
  obtain ⟨known, -, there⟩ := (shared.backs t).held a _ held
  exact shared.sound.absent (seen_pages.2 ⟨known, there⟩) takes.covers takes.absent

theorem Shared.represents_add {m' : Memory Key Value} (items' : m'.items = m.items)
    (shelf : ∀ r, r ∈ m'.shelf cfg ↔ r = ⟨.ofKey key, x⟩ ∨ r ∈ (m.seen pages items).shelf cfg) :
    Represents cfg m' (Function.update map key (some value)) := by
  obtain ⟨-, -, outside, written⟩ := (shared.backs t).item x _ item
  refine shared.sound.represents_add shared.represents ?_ outside (shared.absent held takes) shelf
  rw [items', seen_items, ← written _ rfl, Function.update_eq_self]

variable (called : (gs t).progress = .called (.insert key value))
include called

theorem Shared.add (same : signals h' = signals h) (room : (p.entries cfg.leafCardinality).length + 1 < cfg.leafCardinality) :
    Shared cfg start
      (Function.update gs t
        { gs t with
          progress := .effected (.insert key value) ⟨true, none⟩
          held := some (a, .leaf (p.setRecord i ⟨.ofKey key, x⟩))
          item := none })
      ⟨m.setPage a (.leaf (p.setRecord i ⟨.ofKey key, x⟩)), h'⟩ pages (x :: items) top (Function.update map key (some value)) := by
  have mine := shared.backs t
  obtain ⟨known, -, there⟩ := mine.held a _ held
  obtain ⟨sound, filed, there', own, length⟩ := shared.withItem held item takes
  have shelf : ∀ r, r ∈ ((m.setPage a (.leaf (p.setRecord i ⟨.ofKey key, x⟩))).seen pages (x :: items)).shelf cfg ↔
      r = ⟨.ofKey key, x⟩ ∨ r ∈ (m.seen pages items).shelf cfg := by
    intro r
    rw [seen_setPage_inside known]
    exact shelf_setLeaf there' own r
  have moves : Moves cfg m pages items (m.setPage a (.leaf (p.setRecord i ⟨.ofKey key, x⟩))) pages (x :: items) (gs t) := by
    refine mine.moves held rfl rfl (fun _ old => old) (List.subset_cons_self ..) (fun _ old => .inl old)
      (fun y inside => ?_) fun r old => (shelf r).2 (.inr old)
    rcases List.mem_cons.1 inside with rfl | old
    · exact .inr ⟨_, item⟩
    · exact .inl old
  refine shared.write held moves
    ⟨rfl, rfl, rfl, .inr ⟨rfl, rfl⟩, .inl rfl, fun d one => ⟨moves.owes (mine.debt d one), .inl ⟨d, one, rfl⟩⟩⟩ ?_
    (shared.represents_add held item takes rfl shelf) ?_
  · refine Sound.owed_same ?_ rfl
    rw [seen_setPage_inside known]
    refine sound.setLeaf there' rfl ⟨filed, ?_⟩
    rw [length]
    exact room
  · rw [same]
    exact shared.effected called behaves_insert rfl

theorem Shared.splitLeaf {q : LeafPage Key} {e : Key × LeafEntry} (same : signals h' = signals h)
    (eq : q = p.setRecord i ⟨.ofKey key, x⟩)
    (two : 2 ≤ (q.sorted cfg m).length) (middle : (q.sorted cfg m)[(q.sorted cfg m).length / 2]? = some e)
    (fresh : (gs t).fresh = some (new, some (.leaf (q.splitRight (q.sorted cfg m) e.1)))) (free : (gs t).debt = none) :
    Shared cfg start
      (Function.update gs t
        { gs t with
          progress := .effected (.insert key value) ⟨true, none⟩
          held := some (a, .leaf (q.splitLeft (q.sorted cfg m) e.1 new))
          fresh := none
          item := none
          debt := some ⟨a, new, e.1, 1⟩ })
      ⟨m.setPage a (.leaf (q.splitLeft (q.sorted cfg m) e.1 new)), h'⟩ (new :: pages)
        (x :: items) top (Function.update map key (some value)) := by
  have mine := shared.backs t
  obtain ⟨known, -, there⟩ := mine.held a _ held
  obtain ⟨notNull, -, outside, written⟩ := mine.fresh new _ fresh
  obtain ⟨sound, filed, there', own, -⟩ := shared.withItem held item takes
  rw [← eq] at filed own
  have hdr : q.hdr = p.hdr := by
    rw [eq]
    rfl
  have level : q.hdr.level = p.hdr.level := by rw [hdr]
  have lowest : q.hdr.lowest = p.hdr.lowest := by rw [hdr]
  have tree : (m.setPage a (.leaf (q.splitLeft (q.sorted cfg m) e.1 new))).seen (new :: pages) (x :: items) =
      (m.seen pages (x :: items)).splitLeaf cfg a new q e.1 := seen_divided known outside (written _ rfl)
  have shelf : ∀ r, r ∈ ((m.setPage a (.leaf (q.splitLeft (q.sorted cfg m) e.1 new))).seen (new :: pages) (x :: items)).shelf cfg ↔
      r = ⟨.ofKey key, x⟩ ∨ r ∈ (m.seen pages items).shelf cfg := by
    rw [tree]
    exact sound.shelf_splitLeaf there' outside own e.1
  have bottom : p.hdr.level = 0 := (sound.linked.leaf a p there').1
  have below : q.hdr.level + 1 = 1 := by rw [level, bottom]
  have moves : Moves cfg m pages items (m.setPage a (.leaf (q.splitLeft (q.sorted cfg m) e.1 new))) (new :: pages)
    (x :: items) (gs t) := by
    refine mine.moves held level lowest (List.subset_cons_self ..) (List.subset_cons_self ..)
      (fun b inside => ?_) (fun y inside => ?_) fun r old => (shelf r).2 (.inr old)
    · rcases List.mem_cons.1 inside with rfl | old
      · exact .inr ⟨_, fresh⟩
      · exact .inl old
    · rcases List.mem_cons.1 inside with rfl | old
      · exact .inr ⟨_, item⟩
      · exact .inl old
  have owes : Owes (m.setPage a (.leaf (q.splitLeft (q.sorted cfg m) e.1 new))) (new :: pages) ⟨a, new, e.1, 1⟩ :=
    mine.owes_split held fresh below below
  refine shared.write held moves ⟨rfl, rfl, rfl, .inl rfl, .inl rfl, ?_⟩ ?_ (shared.represents_add held item takes rfl shelf) ?_
  · rintro d ⟨⟩
    exact ⟨owes, .inr outside⟩
  · rw [owed_incurred shared.others free rfl, tree]
    exact sound.splitLeaf there' hdr outside notNull filed two middle
  · rw [same]
    exact shared.effected called behaves_insert rfl

end

section
variable {n : InternalPage Key} {d : Debt Key} (shared : Shared cfg start gs ⟨m, h⟩ pages items top map)
  (held : (gs t).held = some (a, .internal n)) (debt : (gs t).debt = some d) (level : n.hdr.level = d.level)
    (covers : n.hdr.covers d.key)
include shared held debt level covers

theorem Shared.link (same : signals h' = signals h) (space : (n.withRecord d.key d.right).cnt ≠ cfg.internalCardinality) :
    Shared cfg start (Function.update gs t { gs t with held := some (a, .internal (n.withRecord d.key d.right)), debt := none })
      ⟨m.setPage a (.internal (n.withRecord d.key d.right)), h'⟩ pages items top map := by
  have mine := shared.backs t
  obtain ⟨known, -, there⟩ := mine.held a _ held
  obtain ⟨-, inside, q, found, lowest, under⟩ := mine.debt d debt
  have there' : (m.seen pages items).pages a = some (.internal n) := seen_pages.2 ⟨known, there⟩
  have found' : (m.seen pages items).pages d.right = some q := seen_pages.2 ⟨inside, found⟩
  have face : SameFace n.hdr (n.withRecord d.key d.right).hdr := withRecord_face n
  have tree : (m.setPage a (.internal (n.withRecord d.key d.right))).seen pages items =
      (m.seen pages items).setPage a (.internal (n.withRecord d.key d.right)) := seen_setPage_inside known
  have leaves := sameLeaves_setPage there' (n.withRecord d.key d.right)
  have moves : Moves cfg m pages items (m.setPage a (.internal (n.withRecord d.key d.right))) pages items (gs t) := by
    refine mine.moves held face.level face.lowest (fun _ old => old) (fun _ old => old) (fun _ old => .inl old)
      (fun _ old => .inl old) ?_
    rw [tree, leaves.shelf]
  refine shared.write held moves ⟨rfl, rfl, rfl, .inr ⟨rfl, rfl⟩, .inr ⟨rfl, rfl⟩, ?_⟩ ?_ ?_ ?_
  · rintro d ⟨⟩
  · rw [owed_paid shared.others debt rfl, tree, ← lowest]
    exact shared.sound.link there' ⟨t, d, debt, rfl⟩ found' (under.trans level.symm) (lowest ▸ covers) (lowest ▸ space)
  · rw [tree]
    intro k v
    rw [leaves.shelf]
    exact shared.represents k v
  · rw [same]
    exact shared.unmoved rfl

theorem Shared.linkAndSplit {new : GlobalAddress} (three : 3 ≤ cfg.internalCardinality) (same : signals h' = signals h)
    (full : (n.withRecord d.key d.right).cnt = cfg.internalCardinality)
    (fresh : (gs t).fresh = some (new, some (.internal (n.withRecord d.key d.right).splitRight))) :
    Shared cfg start
      (Function.update gs t
        { gs t with
          held := some (a, .internal ((n.withRecord d.key d.right).splitLeft new))
          fresh := none
          debt := some ⟨a, new, (n.withRecord d.key d.right).splitKey, d.level + 1⟩ })
      ⟨m.setPage a (.internal ((n.withRecord d.key d.right).splitLeft new)), h'⟩ (new :: pages) items top map := by
  have mine := shared.backs t
  obtain ⟨known, -, there⟩ := mine.held a _ held
  obtain ⟨notNull, -, outside, written⟩ := mine.fresh new _ fresh
  obtain ⟨-, inside, q, found, lowest, under⟩ := mine.debt d debt
  have there' : (m.seen pages items).pages a = some (.internal n) := seen_pages.2 ⟨known, there⟩
  have found' : (m.seen pages items).pages d.right = some q := seen_pages.2 ⟨inside, found⟩
  have face : SameFace n.hdr (n.withRecord d.key d.right).hdr := withRecord_face n
  have tree : (m.setPage a (.internal ((n.withRecord d.key d.right).splitLeft new))).seen (new :: pages) items =
      (m.seen pages items).divided a new (.internal ((n.withRecord d.key d.right).splitLeft new))
        (.internal (n.withRecord d.key d.right).splitRight) := seen_divided known outside (written _ rfl)
  have leaves := shared.sound.sameLeaves_divided there' (show new ∉ (m.seen pages items).pagesIssued from outside)
    ((n.withRecord d.key d.right).splitLeft new)
    (n.withRecord d.key d.right).splitRight
  have beside : (n.withRecord d.key d.right).hdr.level + 1 = d.level + 1 := by rw [face.level, level]
  have moves : Moves cfg m pages items (m.setPage a (.internal ((n.withRecord d.key d.right).splitLeft new)))
    (new :: pages) items (gs t) := by
    refine mine.moves held face.level face.lowest (List.subset_cons_self ..) (fun _ old => old) (fun b inside => ?_)
      (fun _ old => .inl old) ?_
    · rcases List.mem_cons.1 inside with rfl | old
      · exact .inr ⟨_, fresh⟩
      · exact .inl old
    · rw [tree, leaves.shelf]
  have owes : Owes (m.setPage a (.internal ((n.withRecord d.key d.right).splitLeft new))) (new :: pages)
      ⟨a, new, (n.withRecord d.key d.right).splitKey, d.level + 1⟩ := mine.owes_split held fresh beside beside
  refine shared.write held moves ⟨rfl, rfl, rfl, .inl rfl, .inr ⟨rfl, rfl⟩, ?_⟩ ?_ ?_ ?_
  · rintro e ⟨⟩
    exact ⟨owes, .inr outside⟩
  · rw [owed_passed shared.others debt rfl, tree]
    rw [← lowest] at covers full ⊢
    exact shared.sound.linkAndSplit there' ⟨t, d, debt, rfl⟩ found' (under.trans level.symm) covers outside notNull three full
  · rw [tree]
    intro k v
    rw [leaves.shelf]
    exact shared.represents k v
  · rw [same]
    exact shared.unmoved rfl

end

theorem Shared.raise (shared : Shared cfg start gs ⟨m, h⟩ pages items top map) {new : GlobalAddress} {d : Debt Key}
    (three : 3 ≤ cfg.internalCardinality) (same : signals h' = signals h) (debt : (gs t).debt = some d)
    (fresh : (gs t).fresh = some (new, some (.internal (.newRoot d.left d.key d.right d.level)))) (root : m.rootOffset = d.left) :
    ∃ top', Shared cfg start (Function.update gs t { gs t with fresh := none, debt := none }) ⟨{ m with rootOffset := new }, h'⟩
      (new :: pages) items top' map := by
  -- a new root is put above the old one
  have mine := shared.backs t
  obtain ⟨notNull, -, outside, written⟩ := mine.fresh new _ fresh
  obtain ⟨⟨-, p, left, over'⟩, inside, q, found, lowest, under⟩ := mine.debt d debt
  have found' : (m.seen pages items).pages d.right = some q := seen_pages.2 ⟨inside, found⟩
  have atTop : q.hdr.level = top := by
    obtain ⟨p', there, level, -⟩ := shared.sound.linked.root
    obtain rfl : p = p' := Option.some.inj (left.symm.trans (root ▸ (seen_pages.1 there).2))
    omega
  have level : d.level = top + 1 := by omega
  have tree : ({ m with rootOffset := new }).seen (new :: pages) items = (m.seen pages items).raised new d.key d.right d.level := by
    refine seen_raised ?_
    rw [root]
    exact written _ rfl
  have leaves := shared.sound.sameLeaves_raised (show new ∉ (m.seen pages items).pagesIssued from outside) d.key d.right d.level
  have moves : Moves cfg m pages items { m with rootOffset := new } (new :: pages) items (gs t) := by
    refine ⟨List.subset_cons_self .., fun _ old => old, fun b inside => ?_, fun _ old => .inl old, fun _ old => old,
      fun _ old => old,
      fun _ => .inl rfl, fun _ => .inl rfl, fun _ => .inl rfl, fun _ _ p' there' => ⟨p', there', rfl, rfl⟩, fun _ _ => rfl, ?_⟩
    · rcases List.mem_cons.1 inside with rfl | old
      · exact .inr ⟨⟨_, fresh⟩, _, written _ rfl⟩
      · exact .inl old
    · rw [tree, leaves.shelf]
  have draws : Draws m pages (gs t) { gs t with fresh := none, debt := none } := by
    refine ⟨fun b p' one => .inl ⟨p', one⟩, ?_, fun x c one => .inl ⟨c, one⟩, ?_⟩
    · intro b c one
      cases one
    · intro d one
      cases one
  have backs : Backs cfg { m with rootOffset := new } (new :: pages) items { gs t with fresh := none, debt := none } := by
    refine ⟨fun b old => moves.morePages (mine.known b old), moves.labelled shared.stored mine.keys, fun b p' one => ?_, ?_,
      mine.item, ?_⟩
    · obtain ⟨known, locked, there⟩ := mine.held b p' one
      exact ⟨moves.morePages known, locked, there⟩
    · intro b c one
      cases one
    · intro d one
      cases one
  refine ⟨top + 1, shared.step ?_ ?_ ?_ moves draws backs (locks_same rfl rfl)⟩
  · rw [owed_paid shared.others debt rfl, tree, level, ← lowest]
    exact shared.sound.raise outside ⟨t, d, debt, rfl⟩ found' atTop notNull three
  · rw [tree]
    intro k v
    rw [leaves.shelf]
    exact shared.represents k v
  · rw [same]
    exact shared.unmoved rfl

end

/-! ## All steps -/

section
variable {m m' : Memory Key Value} {h h' : List (Event Key Value)} {a : GlobalAddress} {p : Page Key}
  (shared : Shared cfg start gs ⟨m, h⟩ pages items top map)
include shared

theorem Shared.pointers_inside (known : a ∈ pages) (there : m.pages a = some p) : ∀ b ∈ p.pointers, b ∈ pages := by
  have there' : (m.seen pages items).pages a = some p := seen_pages.2 ⟨known, there⟩
  have linked := shared.sound.linked
  have next : ∀ b, b = p.hdr.siblingPtr ∧ b ≠ .null → b ∈ pages := by
    rintro b ⟨rfl, notNull⟩
    rcases linked.sibling a p there' with ⟨-, null⟩ | ⟨p', q, here, found, -, -, -⟩
    · exact absurd null notNull
    · exact (seen_pages.1 found).1
  cases p with
  | leaf p => exact next
  | internal p =>
    rintro b (sibling | kid)
    · exact next b sibling
    · obtain ⟨k, kid⟩ : ∃ k, (k, b) ∈ p.kids := by
        rcases kid with rfl | ⟨i, bound, rfl⟩
        · exact ⟨_, .inl rfl⟩
        · exact ⟨_, .inr ⟨i, bound, rfl⟩⟩
      obtain ⟨q, found, -, -⟩ := linked.child there' kid
      exact (seen_pages.1 found).1

omit [LinearOrder Key] [BoundedOrder Key] [KeyBytes Key] [Bot Value] [DecidableEq Value] shared in
theorem labels_labelled (known : a ∈ pages) (there : m.pages a = some p) : Labelled cfg m pages items (p.labels cfg m) := by
  intro x k inside
  cases p with
  | leaf p =>
    obtain ⟨r, entry, eq⟩ := inside
    obtain ⟨rfl, rfl⟩ := Prod.mk.inj eq
    exact ⟨⟨r, ⟨a, p, seen_pages.2 ⟨known, there⟩, entry⟩, rfl⟩, rfl⟩
  | internal p => exact inside.elim

theorem Shared.value_of_label {x : GlobalAddress} {key : Key} (label : (x, key) ∈ (gs t).keys) :
    map key = some (m.items x).value := by
  obtain ⟨⟨r, onShelf, rfl⟩, rfl⟩ := (shared.backs t).keys x key label
  exact (shared.represents _ _).2 ⟨r, onShelf, rfl⟩

theorem Shared.missing {p : LeafPage Key} {key : Key} (known : a ∈ pages) (there : m.pages a = some (.leaf p))
    (covers : p.hdr.covers key)
    (absent : ∀ r ∈ p.entries cfg.leafCardinality, m.keyAt r ≠ key) : map key = none := by
  rw [Option.eq_none_iff_forall_ne_some]
  intro v stored
  obtain ⟨r, onShelf, eq⟩ := (shared.represents key v).1 stored
  exact shared.sound.absent (seen_pages.2 ⟨known, there⟩) covers absent r onShelf (congrArg KVItem.key eq)

theorem Shared.lock (same : signals h' = signals h) (there : m.pages a = some p) (known : a ∈ (gs t).known)
    (free : m.locks a = false) (empty : (gs t).held = none) :
    Shared cfg start (Function.update gs t { gs t with held := some (a, p) }) ⟨m.setLock a true, h'⟩ pages items top map := by
  have mine := shared.backs t
  have lock : ∀ b, (m.setLock a true).locks b = m.locks b ∨ b = a := by
    intro b
    by_cases here : b = a
    · exact .inr here
    · exact .inl (by simp [Memory.setLock, here])
  refine shared.unseen ⟨rfl, fun _ => .inl rfl, fun _ => .inl rfl, fun b => ?_, fun _ old => old, fun _ old => old⟩ ?_
    ⟨?_, fun b c one => .inl ⟨c, one⟩, fun x c one => .inl ⟨c, one⟩, fun d one => .inl ⟨d, one, rfl⟩⟩
    ⟨mine.known, mine.keys, ?_, mine.fresh, mine.item, mine.debt⟩ rfl ?_
  · rcases lock b with same | rfl
    · exact .inl same
    · exact .inr (.inr free)
  · rw [same]
    exact shared.unmoved rfl
  · rintro b p' ⟨⟩
    exact .inr free
  · rintro b p' ⟨⟩
    exact ⟨mine.known a known, by simp [Memory.setLock], there⟩
  · intro b locked
    rcases lock b with same | rfl
    · exact .inr ⟨same ▸ locked, fun p' one => by cases empty.symm.trans one⟩
    · exact .inl ⟨p, rfl⟩

theorem Shared.unlock (same : signals h' = signals h) (held : (gs t).held = some (a, p)) :
    Shared cfg start (Function.update gs t { gs t with held := none }) ⟨m.setLock a false, h'⟩ pages items top map := by
  have mine := shared.backs t
  refine shared.unseen ⟨rfl, fun _ => .inl rfl, fun _ => .inl rfl, fun b => ?_, fun _ old => old, fun _ old => old⟩ ?_
    ⟨?_, fun b c one => .inl ⟨c, one⟩, fun x c one => .inl ⟨c, one⟩, fun d one => .inl ⟨d, one, rfl⟩⟩
    ⟨mine.known, mine.keys, ?_, mine.fresh, mine.item, mine.debt⟩ rfl ?_
  · by_cases here : b = a
    · exact .inr (.inl ⟨p, here ▸ held⟩)
    · exact .inl (by simp [Memory.setLock, here])
  · rw [same]
    exact shared.unmoved rfl
  · rintro b p' ⟨⟩
  · rintro b p' ⟨⟩
  · intro b locked
    have other : b ≠ a := by
      rintro rfl
      simp [Memory.setLock] at locked
    refine .inr ⟨by simpa [Memory.setLock, other] using locked, fun p' one => other ?_⟩
    exact (Prod.mk.inj (Option.some.inj (one.symm.trans held))).1

theorem Shared.allocPage (same : signals h' = signals h) (notNull : a ≠ .null) (unissued : a ∉ m.pagesIssued) :
    Shared cfg start (Function.update gs t { gs t with fresh := some (a, none) }) ⟨m.issuePage a, h'⟩ pages items top map := by
  have mine := shared.backs t
  refine shared.unseen ⟨rfl, fun _ => .inl rfl, fun _ => .inl rfl, fun _ => .inl rfl, List.subset_cons_self .., fun _ old => old⟩ ?_
    ⟨fun b p' one => .inl ⟨p', one⟩, ?_, fun x c one => .inl ⟨c, one⟩, fun d one => .inl ⟨d, one, rfl⟩⟩
    ⟨mine.known, mine.keys, mine.held, ?_, mine.item, mine.debt⟩ rfl (locks_same rfl rfl)
  · rw [same]
    exact shared.unmoved rfl
  · rintro b c ⟨⟩
    exact .inr unissued
  · rintro b c ⟨⟩
    refine ⟨notNull, List.mem_cons_self, fun inside => unissued (shared.pagesIssued inside), ?_⟩
    rintro p' ⟨⟩

theorem Shared.allocItem {x : GlobalAddress} (same : signals h' = signals h) (notNull : x ≠ .null) (unissued : x ∉ m.itemsIssued) :
    Shared cfg start (Function.update gs t { gs t with item := some (x, none) }) ⟨{ m with itemsIssued := x :: m.itemsIssued }, h'⟩
      pages items top map := by
  have mine := shared.backs t
  refine shared.unseen ⟨rfl, fun _ => .inl rfl, fun _ => .inl rfl, fun _ => .inl rfl, fun _ old => old, List.subset_cons_self ..⟩ ?_
    ⟨fun b p' one => .inl ⟨p', one⟩, fun b c one => .inl ⟨c, one⟩, ?_, fun d one => .inl ⟨d, one, rfl⟩⟩
    ⟨mine.known, mine.keys, mine.held, mine.fresh, ?_, mine.debt⟩ rfl (locks_same rfl rfl)
  · rw [same]
    exact shared.unmoved rfl
  · rintro y c ⟨⟩
    exact .inr unissued
  · rintro y c ⟨⟩
    refine ⟨notNull, List.mem_cons_self, fun inside => unissued (shared.itemsIssued inside), ?_⟩
    rintro i ⟨⟩

theorem Shared.fillPage (same : signals h' = signals h) (fresh : (gs t).fresh = some (a, none)) :
    Shared cfg start (Function.update gs t { gs t with fresh := some (a, some p) }) ⟨m.setPage a p, h'⟩ pages items top map := by
  have mine := shared.backs t
  obtain ⟨notNull, issued, outside, -⟩ := mine.fresh a _ fresh
  have tree : ∀ b, (m.setPage a p).pages b = m.pages b ∨ b = a := by
    intro b
    by_cases here : b = a
    · exact .inr here
    · exact .inl (by simp [Memory.setPage, here])
  have unseen : Unseen m pages items (m.setPage a p) (gs t) := by
    refine ⟨rfl, fun b => (tree b).imp_right ?_, fun _ => .inl rfl, fun _ => .inl rfl, fun _ old => old, fun _ old => old⟩
    rintro rfl
    exact ⟨⟨_, fresh⟩, outside⟩
  have moves : Moves cfg m pages items (m.setPage a p) pages items (gs t) := unseen.moves
  refine shared.unseen unseen ?_ ⟨fun b p' one => .inl ⟨p', one⟩, ?_, fun x c one => .inl ⟨c, one⟩, fun d one => .inl ⟨d, one, rfl⟩⟩
    ⟨mine.known, moves.labelled shared.stored mine.keys, fun b p' one => ?_, ?_, mine.item, fun d one =>
      moves.owes (mine.debt d one)⟩
    rfl (locks_same rfl rfl)
  · rw [same]
    exact shared.unmoved rfl
  · rintro b c ⟨⟩
    exact .inl ⟨_, fresh⟩
  · obtain ⟨known, locked, there⟩ := mine.held b p' one
    exact ⟨known, locked, (unseen.page_inside known).trans there⟩
  · rintro b c ⟨⟩
    refine ⟨notNull, issued, outside, ?_⟩
    rintro p' ⟨⟩
    simp [Memory.setPage]

theorem Shared.fillItem {x : GlobalAddress} {item : KVItem Key Value} (same : signals h' = signals h)
    (fresh : (gs t).item = some (x, none)) :
    Shared cfg start (Function.update gs t { gs t with item := some (x, some item) }) ⟨m.setItem x item, h'⟩ pages items
      top map := by
  have mine := shared.backs t
  obtain ⟨notNull, issued, outside, -⟩ := mine.item x _ fresh
  have unseen : Unseen m pages items (m.setItem x item) (gs t) := by
    refine ⟨rfl, fun _ => .inl rfl, fun y => ?_, fun _ => .inl rfl, fun _ old => old, fun _ old => old⟩
    by_cases here : y = x
    · exact .inr ⟨⟨_, here ▸ fresh⟩, here ▸ outside⟩
    · exact .inl (by simp [Memory.setItem, here])
  refine shared.unseen unseen ?_ ⟨fun b p' one => .inl ⟨p', one⟩, fun b c one => .inl ⟨c, one⟩, ?_, fun d one => .inl ⟨d, one, rfl⟩⟩
    ⟨mine.known, unseen.moves.labelled shared.stored mine.keys, mine.held, mine.fresh, ?_, mine.debt⟩ rfl (locks_same rfl rfl)
  · rw [same]
    exact shared.unmoved rfl
  · rintro y c ⟨⟩
    exact .inl ⟨_, fresh⟩
  · rintro y c ⟨⟩
    refine ⟨notNull, issued, outside, ?_⟩
    rintro i ⟨⟩
    simp [Memory.setItem]

end

def Agrees (cfg : Config) (start : Key → Option Value) (gs : ℕ → Client Key Value) (s : State Key Value) : Prop :=
  ∃ pages items top map, Shared cfg start gs s pages items top map

theorem Agrees.permits (three : 3 ≤ cfg.internalCardinality) (agrees : Agrees cfg start gs s) {o : Op Key Value} {r : o.act.Reply}
    (permitted : (clientMachine cfg).permits t gs s o r s' g') : Agrees cfg start (Function.update gs t g') s' := by
  obtain ⟨m, h⟩ := s
  obtain ⟨m', h'⟩ := s'
  obtain ⟨pages, items, top, map, shared⟩ := agrees
  obtain ⟨granted, recorded⟩ := permitted
  dsimp only at granted recorded
  have same : signals h' = signals h := by
    rw [recorded]
    rfl
  have mine := shared.backs t
  have unmoved : ∀ {g' : Client Key Value}, g'.progress = (gs t).progress →
      Atomic Behaves start (signals h') map (Function.update (fun u => (gs u).progress) t g'.progress) := by
    intro g' eq
    rw [same]
    exact shared.unmoved eq
  have reads : ∀ {key : Key} {outcome : Outcome Value} {g' : Client Key Value}, (gs t).progress = .called (.read key) →
      outcome = Call.answer (masked map) (.read key) → g'.progress = .effected (.read key) outcome →
      Atomic Behaves start (signals h') map (Function.update (fun u => (gs u).progress) t g'.progress) := by
    intro key outcome g' called answer after
    rw [same]
    exact shared.effected called (.inl ⟨answer, rfl⟩) after
  have looks : ∀ {a : GlobalAddress} {p : Page Key}, m.pages a = some p → a ∈ (gs t).known →
      (∀ b ∈ (gs t).known ∪ p.pointers, b ∈ pages) ∧ Labelled cfg m pages items ((gs t).keys ∪ p.labels cfg m) := by
    intro a p there known
    have inside := mine.known a known
    refine ⟨fun b new => new.elim (mine.known b) (shared.pointers_inside inside there b), fun x k new => new.elim (mine.keys x k) ?_⟩
    exact labels_labelled inside there x k
  cases granted with
  | readRoot =>
    refine ⟨pages, items, top, map, shared.look rfl (unmoved rfl) ?_ mine.keys rfl (.inr rfl) rfl rfl⟩
    rintro b (rfl | old)
    · obtain ⟨p, there, -, -⟩ := shared.sound.linked.root
      exact (seen_pages.1 there).1
    · exact mine.known b old
  | readPage there known =>
    obtain ⟨pointers, labels⟩ := looks there known
    exact ⟨pages, items, top, map, shared.look rfl (unmoved rfl) pointers labels rfl (.inr rfl) rfl rfl⟩
  | missed there known called covers absent =>
    obtain ⟨pointers, labels⟩ := looks there known
    have missing := shared.missing (mine.known _ known) there covers absent
    refine ⟨pages, items, top, map, shared.look rfl (reads called ?_ rfl) pointers labels rfl (.inr rfl) rfl rfl⟩
    simp [Call.answer, masked, missing]
  | readItem => exact ⟨pages, items, top, map, shared.look rfl (unmoved rfl) mine.known mine.keys rfl (.inr rfl) rfl rfl⟩
  | found label called =>
    have stored := shared.value_of_label label
    refine ⟨pages, items, top, map, shared.look rfl (reads called ?_ rfl) mine.known mine.keys rfl (.inr rfl) rfl rfl⟩
    simp only [Call.answer, masked, stored]
  | lock there known free empty => exact ⟨pages, items, top, map, shared.lock same there known free empty⟩
  | unlock held => exact ⟨pages, items, top, map, shared.unlock same held⟩
  | allocPage notNull unissued => exact ⟨pages, items, top, map, shared.allocPage same notNull unissued⟩
  | allocItem notNull unissued => exact ⟨pages, items, top, map, shared.allocItem same notNull unissued⟩
  | fillPage fresh => exact ⟨pages, items, top, map, shared.fillPage same fresh⟩
  | fillItem fresh => exact ⟨pages, items, top, map, shared.fillItem same fresh⟩
  | update held inside called => exact ⟨_, _, _, _, shared.update held inside called same⟩
  | add held item takes room called => exact ⟨_, _, _, _, shared.add held item takes called same room⟩
  | splitLeaf held item takes eq two middle fresh free called =>
    exact ⟨_, _, _, _, shared.splitLeaf held item takes called same eq two middle fresh free⟩
  | link held debt level covers space => exact ⟨_, _, _, _, shared.link held debt level covers same space⟩
  | linkAndSplit held debt level covers full fresh =>
    exact ⟨_, _, _, _, shared.linkAndSplit held debt level covers three same full fresh⟩
  | raise debt fresh root =>
    obtain ⟨top', shared'⟩ := shared.raise three same debt fresh root
    exact ⟨_, _, _, _, shared'⟩
  | outgrown => exact ⟨pages, items, top, map, shared.look rfl (unmoved rfl) mine.known mine.keys rfl (.inl rfl) rfl rfl⟩

theorem Shared.emptyHands {m : Memory Key Value} {h h' : List (Event Key Value)}
    (shared : Shared cfg start gs ⟨m, h⟩ pages items top map)
    (held : (gs t).held = none) (debt : (gs t).debt = none) {progress : Progress (Call Key Value) (Outcome Value)}
    (atomic : Atomic Behaves start (signals h') map' (Function.update (fun u => (gs u).progress) t progress)) (same : map' = map) :
    Shared cfg start (Function.update gs t { Client.idle with progress := progress }) ⟨m, h'⟩ pages items top map' := by
  subst same
  refine shared.unseen (Unseen.refl m) atomic ⟨fun a p one => ?_, fun a c one => ?_, fun x c one => ?_, fun d one => ?_⟩
    (backs_idle progress) debt.symm
    (locks_same held.symm rfl)
  all_goals cases one

theorem preserves_clientMachine {cfg : Config} {start : Key → Option Value} (three : 3 ≤ cfg.internalCardinality) :
    Preserves (system cfg) (clientMachine cfg) (Agrees cfg start) anything where
  invoke gs s t call g agrees idle _ begins := by
    obtain ⟨m, h⟩ := s
    obtain ⟨pages, items, top, map, shared⟩ := agrees
    obtain rfl : g = { Client.idle with progress := .called call } := begins
    have unused : gs t = Client.idle := idle
    refine ⟨pages, items, top, map, shared.emptyHands (by rw [unused]; rfl) (by rw [unused]; rfl) ?_ rfl⟩
    exact .invoke shared.atomic (by rw [unused]; rfl)
  act gs s t o c r s' g agrees _ _ permitted := agrees.permits three permitted
  finish gs s t call a agrees ends := by
    obtain ⟨m, h⟩ := s
    obtain ⟨pages, items, top, map, shared⟩ := agrees
    obtain ⟨effect, held, -, debt⟩ := ends
    refine ⟨pages, items, top, map, shared.emptyHands held debt ?_ rfl⟩
    rcases effect with effected | ⟨insert, called, refused⟩
    · exact .return shared.atomic effected
    · exact shared.atomic.finish called (.inr ⟨insert, refused, rfl⟩)
  env gs s s' _ moved := moved.elim

end

end Faunus.Sherman
