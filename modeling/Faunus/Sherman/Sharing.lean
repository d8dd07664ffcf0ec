import Faunus.Sherman.Clients

/-! The tree stays sound while clients share it.

What a client knows of the tree stays true, what it has in hand is its alone, and every
granted step leaves a sound tree that stores an atomic map.
-/

set_option autoImplicit false

namespace Faunus.Sherman

open Interleaving

variable {Key Value : Type}

/-- No two clients have the same thing in hand. -/
structure Apart (g h : Client Key Value) : Prop where
  held : ∀ a p q, g.held = some (a, p) → h.held ≠ some (a, q)
  fresh : ∀ a c c', g.fresh = some (a, c) → h.fresh ≠ some (a, c')
  item : ∀ x c c', g.item = some (x, c) → h.item ≠ some (x, c')
  debt : ∀ d e, g.debt = some d → h.debt = some e → d.right ≠ e.right

/-- What a client takes into its hands was its own before or nobody's. -/
structure Draws (m : Memory Key Value) (pages : List GlobalAddress) (g g' : Client Key Value) : Prop where
  held : ∀ a p, g'.held = some (a, p) → (∃ q, g.held = some (a, q)) ∨ m.locks a = false
  fresh : ∀ a c, g'.fresh = some (a, c) → (∃ c', g.fresh = some (a, c')) ∨ a ∉ m.pagesIssued
  item : ∀ x c, g'.item = some (x, c) → (∃ c', g.item = some (x, c')) ∨ x ∉ m.itemsIssued
  debt : ∀ d, g'.debt = some d → (∃ e, g.debt = some e ∧ e.right = d.right) ∨ d.right ∉ pages

theorem Apart.symm {g h : Client Key Value} (apart : Apart g h) : Apart h g where
  held a p q one two := apart.held a q p two one
  fresh a c c' one two := apart.fresh a c' c two one
  item x c c' one two := apart.item x c' c two one
  debt d e one two := (apart.debt e d two one).symm

theorem apart_idle (g : Client Key Value) (progress : Progress (Call Key Value) (Outcome Value)) :
    Apart { Client.idle with progress := progress } g where
  held a p q one := by cases one
  fresh a c c' one := by cases one
  item x c c' one := by cases one
  debt d e one := by cases one

/-- A page was split off another one and still starts at the key of its record. -/
def Owes (m : Memory Key Value) (pages : List GlobalAddress) (d : Debt Key) : Prop :=
  (d.left ∈ pages ∧ ∃ p, m.pages d.left = some p ∧ p.hdr.level + 1 = d.level) ∧
    d.right ∈ pages ∧ ∃ q, m.pages d.right = some q ∧ q.hdr.lowest = d.key ∧ q.hdr.level + 1 = d.level

/-- The items belong to records of the tree and have these keys. -/
def Labelled (cfg : Config) (m : Memory Key Value) (pages items : List GlobalAddress) (keys : Set (GlobalAddress × Key)) : Prop :=
  ∀ x k, (x, k) ∈ keys → (∃ r ∈ (m.seen pages items).shelf cfg, r.kvPtr = x) ∧ (m.items x).key = k

/-- What a client knows and has in hand agrees with memory. -/
structure Backs (cfg : Config) (m : Memory Key Value) (pages items : List GlobalAddress) (g : Client Key Value) : Prop where
  known : ∀ a ∈ g.known, a ∈ pages
  keys : Labelled cfg m pages items g.keys
  held : ∀ a p, g.held = some (a, p) → a ∈ pages ∧ m.locks a = true ∧ m.pages a = some p
  fresh : ∀ a c, g.fresh = some (a, c) → a ≠ .null ∧ a ∈ m.pagesIssued ∧ a ∉ pages ∧ ∀ p, c = some p → m.pages a = some p
  item : ∀ x c, g.item = some (x, c) → x ≠ .null ∧ x ∈ m.itemsIssued ∧ x ∉ items ∧ ∀ i, c = some i → m.items x = i
  debt : ∀ d, g.debt = some d → Owes m pages d

/-- What a step of a client may do to the memory that the others rely on. -/
structure Moves (cfg : Config) (m : Memory Key Value) (pages items : List GlobalAddress) (m' : Memory Key Value)
    (pages' items' : List GlobalAddress) (g : Client Key Value) : Prop where
  morePages : pages ⊆ pages'
  moreItems : items ⊆ items'
  newPages : ∀ a ∈ pages', a ∈ pages ∨ (∃ c, g.fresh = some (a, c)) ∧ ∃ p, m'.pages a = some p
  newItems : ∀ x ∈ items', x ∈ items ∨ ∃ c, g.item = some (x, c)
  pagesIssued : m.pagesIssued ⊆ m'.pagesIssued
  itemsIssued : m.itemsIssued ⊆ m'.itemsIssued
  page : ∀ a, m'.pages a = m.pages a ∨ (∃ p, g.held = some (a, p)) ∧ a ∈ pages ∨ (∃ c, g.fresh = some (a, c)) ∧ a ∉ pages
  lock : ∀ a, m'.locks a = m.locks a ∨ (∃ p, g.held = some (a, p)) ∨ m.locks a = false
  item : ∀ x, m'.items x = m.items x ∨ (∃ c, g.item = some (x, c)) ∨ x ∈ items
  face : ∀ a ∈ pages, ∀ p, m.pages a = some p → ∃ p', m'.pages a = some p' ∧ p'.hdr.level = p.hdr.level ∧
    p'.hdr.lowest = p.hdr.lowest
  key : ∀ x ∈ items, (m'.items x).key = (m.items x).key
  shelf : (m.seen pages items).shelf cfg ⊆ (m'.seen pages' items').shelf cfg

section
variable {cfg : Config} {m m' : Memory Key Value} {pages items pages' items' : List GlobalAddress} {g g' h : Client Key Value}

theorem backs_idle (progress : Progress (Call Key Value) (Outcome Value)) :
    Backs cfg m pages items { Client.idle with progress := progress } where
  known a inside := inside.elim
  keys x k inside := inside.elim
  held a p one := by cases one
  fresh a c one := by cases one
  item x c one := by cases one
  debt d one := by cases one

theorem Apart.draw (apart : Apart g h) (backs : Backs cfg m pages items h) (draws : Draws m pages g g') : Apart g' h where
  held a p q one two := by
  -- taking over nothing of the others keeps apart
    rcases draws.held a p one with ⟨p', before⟩ | free
    · exact apart.held a p' q before two
    · have locked := (backs.held a q two).2.1
      rw [free] at locked
      cases locked
  fresh a c c' one two := by
    rcases draws.fresh a c one with ⟨c'', before⟩ | unissued
    · exact apart.fresh a c'' c' before two
    · exact unissued (backs.fresh a c' two).2.1
  item x c c' one two := by
    rcases draws.item x c one with ⟨c'', before⟩ | unissued
    · exact apart.item x c'' c' before two
    · exact unissued (backs.item x c' two).2.1
  debt d e one two same := by
    rcases draws.debt d one with ⟨d', before, right⟩ | outside
    · exact apart.debt d' e before two (right.trans same)
    · exact outside (same ▸ (backs.debt e two).2.1)

theorem Moves.owes (moves : Moves cfg m pages items m' pages' items' g) {d : Debt Key} (owes : Owes m pages d) :
    Owes m' pages' d := by
  obtain ⟨⟨left, p, there, level⟩, right, q, found, lowest, level'⟩ := owes
  obtain ⟨p', there', same, -⟩ := moves.face d.left left p there
  obtain ⟨q', found', same', lowest'⟩ := moves.face d.right right q found
  exact ⟨⟨moves.morePages left, p', there', same ▸ level⟩, moves.morePages right, q', found', lowest'.trans lowest, same' ▸ level'⟩

theorem Moves.labelled (moves : Moves cfg m pages items m' pages' items' g)
    (stored : ∀ r ∈ (m.seen pages items).shelf cfg, r.kvPtr ∈ items) {keys : Set (GlobalAddress × Key)}
    (labelled : Labelled cfg m pages items keys) : Labelled cfg m' pages' items' keys := by
  intro x k inside
  obtain ⟨⟨r, shelf, rfl⟩, key⟩ := labelled x k inside
  exact ⟨⟨r, moves.shelf shelf, rfl⟩, (moves.key _ (stored r shelf)).trans key⟩

theorem Backs.keep (backs : Backs cfg m pages items h) (apart : Apart g h) (moves : Moves cfg m pages items m' pages' items' g)
    (stored : ∀ r ∈ (m.seen pages items).shelf cfg, r.kvPtr ∈ items) : Backs cfg m' pages' items' h where
  known a inside := moves.morePages (backs.known a inside)
  keys := moves.labelled stored backs.keys
  held a p one := by
  -- a step of another client leaves true what a client knows
    obtain ⟨inside, locked, there⟩ := backs.held a p one
    refine ⟨moves.morePages inside, ?_, ?_⟩
    · rcases moves.lock a with same | ⟨q, mine⟩ | free
      · exact same.trans locked
      · exact absurd one (apart.held a q p mine)
      · rw [free] at locked
        cases locked
    · rcases moves.page a with same | ⟨⟨q, mine⟩, -⟩ | ⟨-, outside⟩
      · exact same.trans there
      · exact absurd one (apart.held a q p mine)
      · exact absurd inside outside
  fresh a c one := by
    obtain ⟨notNull, issued, outside, written⟩ := backs.fresh a c one
    refine ⟨notNull, moves.pagesIssued issued, fun inside => ?_, fun p eq => ?_⟩
    · rcases moves.newPages a inside with old | ⟨⟨c', mine⟩, -⟩
      · exact outside old
      · exact apart.fresh a c' c mine one
    · rcases moves.page a with same | ⟨-, inside⟩ | ⟨⟨c', mine⟩, -⟩
      · exact same.trans (written p eq)
      · exact absurd inside outside
      · exact absurd one (apart.fresh a c' c mine)
  item x c one := by
    obtain ⟨notNull, issued, outside, written⟩ := backs.item x c one
    refine ⟨notNull, moves.itemsIssued issued, fun inside => ?_, fun i eq => ?_⟩
    · rcases moves.newItems x inside with old | ⟨c', mine⟩
      · exact outside old
      · exact apart.item x c' c mine one
    · rcases moves.item x with same | ⟨c', mine⟩ | old
      · exact same.trans (written i eq)
      · exact absurd one (apart.item x c' c mine)
      · exact absurd old outside
  debt d one := moves.owes (backs.debt d one)

end

/-! ## The seen part of memory -/

section
variable {m : Memory Key Value} {pages items : List GlobalAddress} {a new x : GlobalAddress} {p left right : Page Key}

theorem seen_setPage_inside (inside : a ∈ pages) : (m.setPage a p).seen pages items = (m.seen pages items).setPage a p := by
  have pages : (fun b => if b ∈ pages then Function.update m.pages a (some p) b else none) =
      Function.update (fun b => if b ∈ pages then m.pages b else none) a (some p) := by
    funext b
    by_cases here : b = a
    · subst here
      simp [inside]
    · simp [here]
  simp only [Memory.seen, Memory.setPage, pages]

theorem seen_cons (written : m.pages new = some right) :
    m.seen (new :: pages) items = ((m.seen pages items).issuePage new).setPage new right := by
  have pages : (fun b => if b ∈ new :: pages then m.pages b else none) =
      Function.update (fun b => if b ∈ pages then m.pages b else none) new (some right) := by
    funext b
    by_cases here : b = new
    · subst here
      simp [written]
    · simp [here]
  simp only [Memory.seen, Memory.setPage, Memory.issuePage, pages]

theorem seen_divided (inside : a ∈ pages) (outside : new ∉ pages) (written : m.pages new = some right) :
    (m.setPage a left).seen (new :: pages) items = (m.seen pages items).divided a new left right := by
  have other : new ≠ a := by
    rintro rfl
    exact outside inside
  rw [seen_setPage_inside (List.mem_cons_of_mem _ inside), seen_cons written, Memory.divided]

theorem seen_issueItem {item : KVItem Key Value} (written : m.items x = item) :
    m.seen pages (x :: items) = (m.seen pages items).issueItem x item := by
  have same : Function.update m.items x item = m.items := Function.update_eq_self_iff.2 written.symm
  simp only [Memory.seen, Memory.issueItem, same]

theorem seen_raised [LinearOrder Key] [BoundedOrder Key] {key : Key} {level : ℕ}
    (written : m.pages new = some (.internal (.newRoot m.rootOffset key a level))) :
    ({ m with rootOffset := new }).seen (new :: pages) items = (m.seen pages items).raised new key a level := by
  have grown : m.seen (new :: pages) items = ((m.seen pages items).issuePage new).setPage new _ := seen_cons written
  rw [Memory.raised, seen_rootOffset, ← grown]
  rfl

end

/-! ## The invariant -/

section
variable [LinearOrder Key] [BoundedOrder Key] [KeyBytes Key] [Bot Value] [DecidableEq Value]

/-- The pages and items of the tree, its height and the map it stores. -/
structure Shared (cfg : Config) (start : Key → Option Value) (gs : ℕ → Client Key Value) (s : State Key Value)
    (pages items : List GlobalAddress)
    (top : ℕ) (map : Key → Option Value) : Prop where
  sound : Sound cfg (s.memory.seen pages items) (owed gs) top
  represents : Represents cfg (s.memory.seen pages items) map
  atomic : Atomic Behaves start (signals s.history) map fun t => (gs t).progress
  there : ∀ a ∈ pages, ∃ p, s.memory.pages a = some p
  pagesIssued : pages ⊆ s.memory.pagesIssued
  itemsIssued : items ⊆ s.memory.itemsIssued
  reserved : .null ∈ s.memory.itemsIssued
  locks : ∀ a, s.memory.locks a = true → ∃ t p, (gs t).held = some (a, p)
  backs : ∀ t, Backs cfg s.memory pages items (gs t)
  apart : ∀ t u, t ≠ u → Apart (gs t) (gs u)

variable {cfg : Config} {start map map' : Key → Option Value} {gs : ℕ → Client Key Value} {s s' : State Key Value}
  {pages items pages' items' : List GlobalAddress} {top top' t : ℕ} {g' : Client Key Value}

omit [LinearOrder Key] [BoundedOrder Key] [KeyBytes Key] [Bot Value] [DecidableEq Value] in
theorem progress_update : (fun u => (Function.update gs t g' u).progress) = Function.update (fun u => (gs u).progress) t
    g'.progress := by
  funext u
  by_cases own : u = t
  · subst own
    simp
  · simp [own]

theorem Shared.stored (shared : Shared cfg start gs s pages items top map) : ∀ r ∈ (s.memory.seen pages items).shelf cfg,
    r.kvPtr ∈ items :=
  fun _ inside => shared.sound.issued inside

theorem Shared.step (shared : Shared cfg start gs s pages items top map)
    (sound : Sound cfg (s'.memory.seen pages' items') (owed (Function.update gs t g')) top')
    (represents : Represents cfg (s'.memory.seen pages' items') map')
    (atomic : Atomic Behaves start (signals s'.history) map' (Function.update (fun u => (gs u).progress) t g'.progress))
    (moves : Moves cfg s.memory pages items s'.memory pages' items' (gs t)) (draws : Draws s.memory pages (gs t) g')
    (backs : Backs cfg s'.memory pages' items' g')
    (locks : ∀ a, s'.memory.locks a = true → (∃ p, g'.held = some (a, p)) ∨ s.memory.locks a = true ∧ ∀ p,
      (gs t).held ≠ some (a, p)) :
    Shared cfg start (Function.update gs t g') s' pages' items' top' map' where
  sound := sound
  represents := represents
  atomic := by
  -- one client moves
    rw [progress_update]
    exact atomic
  there a inside := by
    rcases moves.newPages a inside with old | ⟨-, written⟩
    · obtain ⟨p, there⟩ := shared.there a old
      obtain ⟨p', there', -⟩ := moves.face a old p there
      exact ⟨p', there'⟩
    · exact written
  pagesIssued a inside := by
    rcases moves.newPages a inside with old | ⟨⟨c, mine⟩, -⟩
    · exact moves.pagesIssued (shared.pagesIssued old)
    · exact moves.pagesIssued ((shared.backs t).fresh a c mine).2.1
  itemsIssued x inside := by
    rcases moves.newItems x inside with old | ⟨c, mine⟩
    · exact moves.itemsIssued (shared.itemsIssued old)
    · exact moves.itemsIssued ((shared.backs t).item x c mine).2.1
  reserved := moves.itemsIssued shared.reserved
  locks a locked := by
    rcases locks a locked with ⟨p, own⟩ | ⟨before, other⟩
    · exact ⟨t, p, by rw [Function.update_self, own]⟩
    · obtain ⟨u, p, holds⟩ := shared.locks a before
      have notOwn : u ≠ t := fun same => other p (same ▸ holds)
      exact ⟨u, p, by rw [Function.update_of_ne notOwn, holds]⟩
  backs u := by
    by_cases own : u = t
    · subst own
      rwa [Function.update_self]
    · rw [Function.update_of_ne own]
      exact (shared.backs u).keep (shared.apart t u (Ne.symm own)) moves shared.stored
  apart u v different := by
    by_cases own : u = t
    · subst own
      rw [Function.update_self, Function.update_of_ne different.symm]
      exact (shared.apart u v different).draw (shared.backs v) draws
    · rw [Function.update_of_ne own]
      by_cases own' : v = t
      · subst own'
        rw [Function.update_self]
        exact ((shared.apart v u different.symm).draw (shared.backs u) draws).symm
      · rw [Function.update_of_ne own']
        exact shared.apart u v different

end

end Faunus.Sherman
