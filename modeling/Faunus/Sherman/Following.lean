import Faunus.Sherman.Granted

/-! The operations of the tree do only what a client may do.

Each verb is granted with what the client knows and has in hand. A read takes effect when
it reads the item that it answers, or the leaf that it misses the key in.
-/

set_option autoImplicit false

namespace Faunus.Sherman

open Interleaving

variable {Key Value A : Type}

/-- What a client finds out without touching anything. -/
structure Client.Learns (g g' : Client Key Value) : Prop where
  progress : g'.progress = g.progress
  known : g.known ⊆ g'.known
  keys : g.keys ⊆ g'.keys
  held : g'.held = g.held
  fresh : g'.fresh = g.fresh
  item : g'.item = g.item
  debt : g'.debt = g.debt

theorem Client.Learns.refl (g : Client Key Value) : g.Learns g := ⟨rfl, fun _ old => old, fun _ old => old, rfl, rfl, rfl, rfl⟩

theorem Client.Learns.trans {g g' g'' : Client Key Value} (one : g.Learns g') (two : g'.Learns g'') : g.Learns g'' :=
  ⟨two.progress.trans one.progress, fun _ old => two.known (one.known old), fun _ old => two.keys (one.keys old),
    two.held.trans one.held,
    two.fresh.trans one.fresh, two.item.trans one.item, two.debt.trans one.debt⟩

/-- The client knows the key of the item, by a leaf or because it wrote it. -/
def Client.Names (g : Client Key Value) (x : GlobalAddress) (key : Key) : Prop := (x, key) ∈ g.keys ∨ ∃ value,
    g.item = some (x, some ⟨key, value⟩)

theorem Backs.names {cfg : Config} {m : Memory Key Value} {pages items : List GlobalAddress} {g : Client Key Value}
    {x : GlobalAddress} {key : Key}
    (backs : Backs cfg m pages items g) (names : g.Names x key) : (m.items x).key = key := by
  rcases names with label | ⟨value, own⟩
  · exact (backs.keys x key label).2
  · rw [(backs.item x _ own).2.2.2 _ rfl]

section
variable [LinearOrder Key]

/-- The records of a page that was read, with the keys they had then. -/
structure Learned (cfg : Config) [KeyBytes Key] (p : Page Key) (keyOf : LeafEntry → Key) (g : Client Key Value) : Prop where
  pointers : p.pointers ⊆ g.known
  labels : ∀ n, p = .leaf n → ∀ r ∈ n.entries cfg.leafCardinality, (r.kvPtr, keyOf r) ∈ g.keys
  fingerprints : ∀ n, p = .leaf n → ∀ r ∈ n.entries cfg.leafCardinality, r.fingerprint = .ofKey (keyOf r)

end

section
variable [LinearOrder Key] [BoundedOrder Key] [KeyBytes Key] [Bot Value] [DecidableEq Value]

abbrev Obeys (cfg : Config) (start : Key → Option Value) (t : ℕ) (post : A → Client Key Value → Prop) (p : Index Key Value A)
    (g : Client Key Value) : Prop :=
  Follows (clientMachine cfg).permits (system cfg).exec (Agrees cfg start) t post p g

variable {cfg : Config} {start : Key → Option Value} {t : ℕ} {post : A → Client Key Value → Prop} {g : Client Key Value}
  {site : Site} {a : GlobalAddress}

theorem obeys_perform {o : Op Key Value} {f : o.act.Reply → Index Key Value A}
    (grants : ∀ gs m h pages items top map, Shared cfg start gs ⟨m, h⟩ pages items top map → gs t = g → ∀ c r m',
      Memory.exec t o c m = some (r, m') → ∃ g', Grants cfg t gs m o r m' g' ∧ Obeys cfg start t post (f r) g') :
    Obeys cfg start t post (.perform o f) g := by
  rintro gs ⟨m, h⟩ ⟨pages, items, top, map, shared⟩ own c r s' performed
  obtain ⟨performed', recorded⟩ := State.exec_eq_some performed
  obtain ⟨g', granted, later⟩ := grants gs m h pages items top map shared own c r s'.memory performed'
  exact ⟨g', ⟨granted, recorded⟩, later⟩

theorem obeys_last {p : Index Key Value A} (obeys : Obeys cfg start t post (p >>= pure) g) : Obeys cfg start t post p g := by
  rwa [bind_pure] at obeys

/-! ## Descending -/

theorem obeys_readRoot {f : GlobalAddress → Index Key Value A}
    (next : ∀ root g', g.Learns g' → root ∈ g'.known → Obeys cfg start t post (f root) g') :
    Obeys cfg start t post (readRoot site >>= f) g := by
  refine obeys_perform fun gs m h pages items top map _ own c r m' performed => ?_
  obtain ⟨rfl, rfl⟩ := Prod.mk.inj (Option.some.inj performed)
  subst own
  refine ⟨_, .readRoot, next _ _ ⟨rfl, ?_, fun _ old => old, rfl, rfl, rfl, rfl⟩ (Set.mem_insert ..)⟩
  exact Set.subset_insert _ _

omit [Bot Value] [DecidableEq Value] in
theorem learned_readPage {m : Memory Key Value} {pages items : List GlobalAddress} {pending : Set GlobalAddress} {top : ℕ}
    {p : Page Key}
    (sound : Sound cfg (m.seen pages items) pending top) (there : m.pages a = some p) (known : a ∈ pages) {g' : Client Key Value}
    (pointers : p.pointers ⊆ g'.known) (labels : p.labels cfg m ⊆ g'.keys) : p.Proper ∧ Learned cfg p m.keyAt g' := by
  have there' : (m.seen pages items).pages a = some p := seen_pages.2 ⟨known, there⟩
  refine ⟨sound.linked.proper there', pointers, ?_, ?_⟩
  · rintro n rfl r inside
    exact labels ⟨r, inside, rfl⟩
  · rintro n rfl r inside
    exact ((sound.stocked a n there').stored r inside).2.1

theorem obeys_readPage {f : Page Key → Index Key Value A} (known : a ∈ g.known)
    (next : ∀ p keyOf, p.Proper →
      (∀ g', g.Learns g' → Learned cfg p keyOf g' → Obeys cfg start t post (f p) g') ∨
        ∃ n key, p = .leaf n ∧ g.progress = .called (.read key) ∧ n.hdr.covers key ∧
          (∀ r ∈ n.entries cfg.leafCardinality, keyOf r ≠ key) ∧
          ∀ g', g.Learns g' → Learned cfg p keyOf g' →
            Obeys cfg start t post (f p) { g' with progress := .effected (.read key) ⟨false, none⟩ }) :
    Obeys cfg start t post (readPage site a >>= f) g := by
  -- a client that reads a leaf may find that the key of its read is not there
  refine obeys_perform fun gs m h pages items top map shared own c r m' performed => ?_
  subst own
  simp only [Memory.exec] at performed
  split at performed
  case h_2 => cases performed
  rename_i p there
  obtain ⟨rfl, rfl⟩ := Prod.mk.inj (Option.some.inj performed)
  have inside := (shared.backs t).known a known
  have learns : (gs t).Learns { gs t with known := (gs t).known ∪ p.pointers, keys := (gs t).keys ∪ p.labels cfg m } :=
    ⟨rfl, Set.subset_union_left, Set.subset_union_left, rfl, rfl, rfl, rfl⟩
  obtain ⟨proper, learned⟩ : p.Proper ∧
      Learned cfg p m.keyAt { gs t with known := (gs t).known ∪ p.pointers, keys := (gs t).keys ∪ p.labels cfg m } :=
    learned_readPage shared.sound there inside Set.subset_union_right Set.subset_union_right
  rcases next p m.keyAt proper with plain | ⟨n, key, rfl, called, covers, absent, missed⟩
  · exact ⟨_, .readPage there known, plain _ learns learned⟩
  · exact ⟨_, .missed there known called covers absent, missed _ learns learned⟩

theorem obeys_readItem {f : KVItem Key Value → Index Key Value A}
    (next : ∀ item, (∀ key, g.Names a key → item.key = key) → Obeys cfg start t post (f item) g) :
    Obeys cfg start t post (readItem site a >>= f) g := by
  refine obeys_perform fun gs m h pages items top map shared own c r m' performed => ?_
  subst own
  obtain ⟨rfl, rfl⟩ := Prod.mk.inj (Option.some.inj performed)
  exact ⟨_, .readItem, next _ fun key names => (shared.backs t).names names⟩

def answered (key : Key) (value : Value) : Outcome Value := Call.answer (masked fun _ => some value) (.read key)

theorem obeys_found {f : KVItem Key Value → Index Key Value A} {key : Key} (label : (a, key) ∈ g.keys)
    (called : g.progress = .called (.read key))
    (next : ∀ item, item.key = key → Obeys cfg start t post (f item) g ∨
      Obeys cfg start t post (f item) { g with progress := .effected (.read key) (answered key item.value) }) :
    Obeys cfg start t post (readItem site a >>= f) g := by
  refine obeys_perform fun gs m h pages items top map shared own c r m' performed => ?_
  subst own
  obtain ⟨rfl, rfl⟩ := Prod.mk.inj (Option.some.inj performed)
  rcases next _ ((shared.backs t).keys a key label).2 with plain | found
  · exact ⟨_, .readItem, plain⟩
  · exact ⟨_, .found label called, found⟩

/-! ## Locks and allocations -/

theorem obeys_lockAndReadPage {f : Page Key → Index Key Value A} (known : a ∈ g.known) (empty : g.held = none)
    (next : ∀ p keyOf g', p.Proper → { g with held := some (a, p) }.Learns g' → Learned cfg p keyOf g' →
      Obeys cfg start t post (f p) g') :
    Obeys cfg start t post (lockAndReadPage site a >>= f) g := by
  -- under the lock the page is read as it is
  rw [lockAndReadPage, bind_assoc]
  refine obeys_perform fun gs m h pages items top map shared own c r m' performed => ?_
  subst own
  simp only [Memory.exec] at performed
  split at performed
  case isTrue => cases performed
  rename_i free
  obtain ⟨rfl, rfl⟩ := Prod.mk.inj (Option.some.inj performed)
  obtain ⟨p, there⟩ := shared.there a ((shared.backs t).known a known)
  refine ⟨_, .lock there known (Bool.not_eq_true _ ▸ free) empty, ?_⟩
  refine obeys_perform fun gs' m h pages items top map shared own c r m' performed => ?_
  obtain ⟨inside, -, there'⟩ := (shared.backs t).held a p (by rw [own])
  change m.pages a = some p at there'
  simp only [Memory.exec, there'] at performed
  obtain ⟨rfl, rfl⟩ := Prod.mk.inj (Option.some.inj performed)
  have known' : a ∈ (gs' t).known := by
    rw [own]
    exact known
  obtain ⟨proper, learned⟩ : p.Proper ∧
      Learned cfg p m.keyAt { gs' t with known := (gs' t).known ∪ p.pointers, keys := (gs' t).keys ∪ p.labels cfg m } :=
    learned_readPage shared.sound there' inside Set.subset_union_right Set.subset_union_right
  refine ⟨_, .readPage there' known', next p m.keyAt _ proper ?_ learned⟩
  rw [own]
  exact ⟨rfl, Set.subset_union_left, Set.subset_union_left, rfl, rfl, rfl, rfl⟩

theorem obeys_unlock {f : Unit → Index Key Value A} {p : Page Key} (held : g.held = some (a, p))
    (next : Obeys cfg start t post (f ()) { g with held := none }) : Obeys cfg start t post (unlock site a >>= f) g := by
  refine obeys_perform fun gs m h pages items top map shared own c r m' performed => ?_
  subst own
  obtain ⟨rfl, rfl⟩ := Prod.mk.inj (Option.some.inj performed)
  exact ⟨_, .unlock held, next⟩

theorem obeys_allocPage {f : GlobalAddress → Index Key Value A}
    (next : ∀ new, Obeys cfg start t post (f new) { g with fresh := some (new, none) }) :
    Obeys cfg start t post (allocPage site >>= f) g := by
  refine obeys_perform fun gs m h pages items top map shared own c r m' performed => ?_
  subst own
  simp only [Memory.exec] at performed
  split_ifs at performed with bad
  rw [not_or] at bad
  obtain ⟨rfl, rfl⟩ := Prod.mk.inj (Option.some.inj performed)
  exact ⟨_, .allocPage bad.1 bad.2, next _⟩

theorem obeys_allocItem {f : GlobalAddress → Index Key Value A}
    (next : ∀ x, Obeys cfg start t post (f x) { g with item := some (x, none) }) :
    Obeys cfg start t post (allocItem site >>= f) g := by
  refine obeys_perform fun gs m h pages items top map shared own c r m' performed => ?_
  subst own
  simp only [Memory.exec] at performed
  split_ifs at performed with bad
  rw [not_or] at bad
  obtain ⟨rfl, rfl⟩ := Prod.mk.inj (Option.some.inj performed)
  have notNull : GlobalAddress.ofAddress c ≠ .null := fun null => bad.1 (null ▸ shared.reserved)
  exact ⟨_, .allocItem notNull bad.1, next _⟩

theorem obeys_write {act : Act Key Value} {f : (Act.Reply act) → Index Key Value A} {r : Act.Reply act} {g' : Client Key Value}
    (grants : ∀ gs m h pages items top map, Shared cfg start gs ⟨m, h⟩ pages items top map → gs t = g →
      ∃ m', (∀ c, Memory.exec t ⟨site, act⟩ c m = some (r, m')) ∧ Grants cfg t gs m ⟨site, act⟩ r m' g')
    (next : Obeys cfg start t post (f r) g') : Obeys cfg start t post (.perform ⟨site, act⟩ f) g := by
  refine obeys_perform fun gs m h pages items top map shared own c r' m' performed => ?_
  obtain ⟨m'', always, granted⟩ := grants gs m h pages items top map shared own
  obtain ⟨rfl, rfl⟩ := Prod.mk.inj (Option.some.inj ((always c).symm.trans performed))
  exact ⟨g', granted, next⟩

theorem obeys_fillPage {f : Unit → Index Key Value A} {p : Page Key} (fresh : g.fresh = some (a, none))
    (next : Obeys cfg start t post (f ()) { g with fresh := some (a, some p) }) :
    Obeys cfg start t post (writePage site a p >>= f) g := by
  refine obeys_write (r := ()) (fun gs m h pages items top map shared own => ⟨m.setPage a p, fun _ => rfl, ?_⟩) next
  subst own
  exact .fillPage fresh

theorem obeys_fillItem {f : Unit → Index Key Value A} {item : KVItem Key Value} (fresh : g.item = some (a, none))
    (next : Obeys cfg start t post (f ()) { g with item := some (a, some item) }) :
    Obeys cfg start t post (writeItem site a item >>= f) g := by
  refine obeys_write (r := ()) (fun gs m h pages items top map shared own => ⟨m.setItem a item, fun _ => rfl, ?_⟩) next
  subst own
  exact .fillItem fresh

/-! ## Leaves -/

section
variable {p : LeafPage Key} {key : Key} {value : Value} (held : g.held = some (a, .leaf p))
    (called : g.progress = .called (.insert key value))
include held called

theorem obeys_update {f : Unit → Index Key Value A} {r : LeafEntry} {item : KVItem Key Value}
    (inside : r ∈ p.entries cfg.leafCardinality) (names : g.Names r.kvPtr key) (eq : item = ⟨key, value⟩)
    (next : Obeys cfg start t post (f ()) { g with progress := .effected (.insert key value) ⟨true, none⟩ }) :
    Obeys cfg start t post (writeItem site r.kvPtr item >>= f) g := by
  subst eq
  refine obeys_write (r := ()) (fun gs m h pages items top map shared own => ⟨m.setItem r.kvPtr ⟨key, value⟩, fun _ => rfl, ?_⟩) next
  subst own
  have same : m.keyAt r = key := (shared.backs t).names names
  subst same
  exact .update held inside called

variable {x : GlobalAddress} {i : ℕ} (item : g.item = some (x, some ⟨key, value⟩)) (covers : p.hdr.covers key)
  (bound : i < cfg.leafCardinality) (empty : (p.records i).isEmpty = true) {keyOf : LeafEntry → Key}
  (names : ∀ r ∈ p.entries cfg.leafCardinality, g.Names r.kvPtr (keyOf r))
  (absent : ∀ r ∈ p.entries cfg.leafCardinality, keyOf r ≠ key)
include item covers bound empty names absent

theorem obeys_add {f : Unit → Index Key Value A} (room : (p.entries cfg.leafCardinality).length + 1 < cfg.leafCardinality)
    (next : Obeys cfg start t post (f ())
      { g with
        progress := .effected (.insert key value) ⟨true, none⟩
        held := some (a, .leaf (p.setRecord i ⟨.ofKey key, x⟩))
        item := none }) :
    Obeys cfg start t post (writeEntry site a i ⟨.ofKey key, x⟩ >>= f) g := by
  refine obeys_write (r := ())
    (fun gs m h pages items top map shared own => ⟨m.setPage a (.leaf (p.setRecord i ⟨.ofKey key, x⟩)), fun _ => ?_, ?_⟩) next
  · obtain ⟨-, -, there⟩ := (shared.backs t).held a (.leaf p) (own ▸ held)
    change m.pages a = some (.leaf p) at there
    simp only [Memory.exec, there]
    rfl
  · subst own
    refine .add held item ⟨covers, bound, empty, fun r inside => ?_⟩ room called
    rw [Memory.keyAt, (shared.backs t).names (names r inside)]
    exact absent r inside

theorem obeys_splitLeaf {f : Unit → Index Key Value A} {new : GlobalAddress} {q : LeafPage Key} {keyed : List (Key × LeafEntry)}
    {e : Key × LeafEntry} (eq : q = p.setRecord i ⟨.ofKey key, x⟩)
    (sorted : keyed = sortByKey
      ((q.entries cfg.leafCardinality).map fun r => (Function.update keyOf ⟨.ofKey key, x⟩ key r, r))) (two : 2 ≤ keyed.length)
    (middle : keyed[keyed.length / 2]? = some e) (fresh : g.fresh = some (new, some (.leaf (q.splitRight keyed e.1))))
    (free : g.debt = none)
    (next : Obeys cfg start t post (f ())
      { g with
        progress := .effected (.insert key value) ⟨true, none⟩
        held := some (a, .leaf (q.splitLeft keyed e.1 new))
        fresh := none
        item := none
        debt := some ⟨a, new, e.1, 1⟩ }) :
    Obeys cfg start t post (writePage site a (.leaf (q.splitLeft keyed e.1 new)) >>= f) g := by
  -- the records were sorted by the keys of their items, which do not change
  refine obeys_write (r := ())
    (fun gs m h pages items top map shared own => ⟨m.setPage a (.leaf (q.splitLeft keyed e.1 new)), fun _ => rfl, ?_⟩) next
  subst own
  have mine := shared.backs t
  have keys : ∀ r ∈ q.entries cfg.leafCardinality, m.keyAt r = Function.update keyOf ⟨.ofKey key, x⟩ key r := by
    intro r inside
    by_cases new : r = ⟨.ofKey key, x⟩
    · subst new
      rw [Function.update_self]
      exact mine.names (.inr ⟨value, item⟩)
    · rw [eq] at inside
      have notNull := (mine.item x _ item).1
      have old := List.mem_cons.1 ((entries_setRecord bound empty (by simp [LeafEntry.isEmpty, notNull])).subset inside)
      rw [Function.update_of_ne new]
      exact mine.names (names r (old.resolve_left new))
  have same : q.sorted cfg m = keyed := by
    rw [sorted, LeafPage.sorted]
    congr 1
    exact List.map_congr_left fun r inside => by rw [keys r inside]
  subst same
  refine .splitLeaf held item ⟨covers, bound, empty, fun r inside => ?_⟩ eq two middle fresh free called
  rw [Memory.keyAt, mine.names (names r inside)]
  exact absent r inside

end

/-! ## Above the leaves -/

section
variable {n : InternalPage Key} {d : Debt Key} (held : g.held = some (a, .internal n)) (debt : g.debt = some d)
  (level : n.hdr.level = d.level) (covers : n.hdr.covers d.key)
include held debt level covers

theorem obeys_link {f : Unit → Index Key Value A} (space : (n.withRecord d.key d.right).cnt ≠ cfg.internalCardinality)
    (next : Obeys cfg start t post (f ()) { g with held := some (a, .internal (n.withRecord d.key d.right)), debt := none }) :
    Obeys cfg start t post (writePage site a (.internal (n.withRecord d.key d.right)) >>= f) g := by
  refine obeys_write (r := ())
    (fun gs m h pages items top map shared own => ⟨m.setPage a (.internal (n.withRecord d.key d.right)), fun _ => rfl, ?_⟩) next
  subst own
  exact .link held debt level covers space

theorem obeys_linkAndSplit {f : Unit → Index Key Value A} {new : GlobalAddress}
    (full : (n.withRecord d.key d.right).cnt = cfg.internalCardinality)
    (fresh : g.fresh = some (new, some (.internal (n.withRecord d.key d.right).splitRight)))
    (next : Obeys cfg start t post (f ())
      { g with
        held := some (a, .internal ((n.withRecord d.key d.right).splitLeft new))
        fresh := none
        debt := some ⟨a, new, (n.withRecord d.key d.right).splitKey, d.level + 1⟩ }) :
    Obeys cfg start t post (writePage site a (.internal ((n.withRecord d.key d.right).splitLeft new)) >>= f) g := by
  refine obeys_write (r := ())
    (fun gs m h pages items top map shared own =>
      ⟨m.setPage a (.internal ((n.withRecord d.key d.right).splitLeft new)), fun _ => rfl, ?_⟩) next
  subst own
  exact .linkAndSplit held debt level covers full fresh

end

theorem obeys_updateRootOffset {f : Bool → Index Key Value A} {d : Debt Key} (debt : g.debt = some d)
    (raised : Obeys cfg start t post (f true) { g with fresh := none, debt := none })
    (outgrown : Obeys cfg start t post (f false) { g with fresh := none }) :
    Obeys cfg start t post (updateRootOffset d.left d.key d.right d.level d.left >>= f) g := by
  -- the new root is installed, or the tree has outgrown the page that was split
  rw [updateRootOffset, bind_assoc]
  refine obeys_allocPage fun new => ?_
  rw [bind_assoc]
  refine obeys_fillPage rfl ?_
  rw [bind_assoc]
  refine obeys_perform fun gs m h pages items top map shared own c r m' performed => ?_
  have debt' : (gs t).debt = some d := by rw [own, debt]
  have fresh : (gs t).fresh = some (new, some (.internal (.newRoot d.left d.key d.right d.level))) := by rw [own]
  simp only [Memory.exec] at performed
  split_ifs at performed with root
  · obtain ⟨rfl, rfl⟩ := Prod.mk.inj (Option.some.inj performed)
    refine ⟨_, .raise debt' fresh root, ?_⟩
    change Obeys cfg start t post (f (decide (m.rootOffset = d.left))) _
    rw [decide_eq_true root, own]
    exact raised
  · obtain ⟨rfl, rfl⟩ := Prod.mk.inj (Option.some.inj performed)
    refine ⟨_, .outgrown root, ?_⟩
    change Obeys cfg start t post (f (decide (m.rootOffset = d.left))) _
    rw [decide_eq_false root, own]
    exact outgrown

end

end Faunus.Sherman
