import Faunus.Interleaving.Logs
import Faunus.Sherman.Propagation

/-! The Sherman tree behind a cache of its level-1 pages.

`search_node` gives every level-1 page that it reads to the cache, and the cache answers
with any of them, however old. An insert that finds its key outside of the leaf starts
again from the root; a read steps to the right.
-/

set_option autoImplicit false

namespace Faunus.Sherman

open Interleaving

/-- An entry of the cache: the range that it was added with and the page. -/
structure CacheEntry (Key : Type) where
  start : Key
  stop : Key
  page : InternalPage Key

section
variable {Key Value A : Type}

/-- What `search_node` adds for a page. -/
def CacheEntry.ofPage (page : InternalPage Key) : CacheEntry Key := ⟨page.hdr.lowest, page.hdr.highest, page⟩

def entryOf : Page Key → List (CacheEntry Key)
  | .internal p => if p.hdr.level = 1 then [.ofPage p] else []
  | .leaf _ => []

def learned : (o : Op Key Value) → o.act.Reply → List (CacheEntry Key)
  | ⟨.searchNode, .readPage _⟩, p => entryOf p
  | _, _ => []

/-- Memory, and all that the cache has learned so far. -/
def recording : Exec (signature Key Value) ℕ (BitVec 64) (Memory Key Value × List (CacheEntry Key)) :=
  fun t o c s =>
    match Memory.exec t o c s.1 with
    | some (r, m) => some (r, (m, learned o r ++ s.2))
    | none => none

end

/-! ## The operations -/

section Operations
variable {Key Value : Type} [LinearOrder Key]

/-- The loop is the one of `search_node`. -/
def getLeafFromCacheEntry (entry : CacheEntry Key) (key : Key) : GlobalAddress :=
  if key < entry.start ∨ entry.stop ≤ key then .null else entry.page.nextLevel key

variable [BoundedOrder Key] [KeyBytes Key] [Bot Value] (cfg : Config)

/-- `insert_to_leaf` behind the checks of the range. -/
def fillLeaf (key : Key) (value : Value) (root : GlobalAddress) (level : ℕ) (path : PathStack) (leafAddress : GlobalAddress)
    (page : Page Key) :
    Index Key Value Unit := do
  let page := page.asLeaf
  let scan ← scanRecords key value page (List.range cfg.leafCardinality) 0 none
  match scan with
  | .updated => unlock .insertToLeaf leafAddress
  | .absent _ none => .stuck
  | .absent cnt (some i) =>
    if cnt = cfg.leafCardinality then .stuck
    else do
      let kvItemAddr ← allocItem .insertToLeaf
      writeItem .insertToLeaf kvItemAddr ⟨key, value⟩
      if cnt + 1 ≠ cfg.leafCardinality then do
        writeEntry .insertToLeaf leafAddress i ⟨.ofKey key, kvItemAddr⟩
        unlock .insertToLeaf leafAddress
      else splitLeafPage cfg leafAddress (page.setRecord i ⟨.ofKey key, kvItemAddr⟩) (cnt + 1) root level path

/-- `insert_to_leaf` with `from_cache` set. -/
def insertToLeafFromCache (key : Key) (value : Value) (root : GlobalAddress) (level : ℕ) (path : PathStack)
    (leafAddress : GlobalAddress) :
    Index Key Value Bool := do
  let page ← lockAndReadPage .insertToLeaf leafAddress
  if page.hdr.level ≠ level then .stuck
  else if key < page.hdr.lowest ∨ page.hdr.highest ≤ key then do
    unlock .insertToLeaf leafAddress
    pure false
  else do
    fillLeaf cfg key value root level path leafAddress page
    pure true

/-- `insert` with an answer of the cache; an answer that turns out to be stale is dropped. -/
def insertCached (key : Key) (value : Value) : Option (CacheEntry Key) → Index Key Value Bool
  | none => insert cfg key value
  | some entry => do
    let root ← readRoot .insert
    let done ← insertToLeafFromCache cfg key value root 0 (fun _ => .null) (getLeafFromCacheEntry entry key)
    if done then pure true else insert cfg key value

variable [DecidableEq Value]

/-- `read` with an answer of the cache. -/
def readCached (key : Key) (answer : Option (CacheEntry Key)) : Index Key Value (Option Value) := do
  let root ← readRoot .read
  let p := match answer with
    | some entry => getLeafFromCacheEntry entry key
    | none => root
  readLoop cfg key cfg.loopBound p .init fun _ => .null

def Call.cachedBody (answer : Option (CacheEntry Key)) : Call Key Value → Index Key Value (Outcome Value)
  | .insert key value => do
    let ok ← insertCached cfg key value answer
    pure ⟨ok, none⟩
  | .read key => do
    let found ← readCached cfg key answer
    pure ⟨found.isSome, found⟩

end Operations

/-! ## What the cache learns -/

section
variable {Key Value A B : Type} {t : ℕ} {known : Set (CacheEntry Key)} {root : GlobalAddress}

/-- In every run of the client alone the cache learns nothing but the known entries. -/
def Sees (t : ℕ) (known : Set (CacheEntry Key)) : Index Key Value A → Memory Key Value → Prop
  | .value _, _ => True
  | .stuck, _ => True
  | .perform o next, m => ∀ c r m', Memory.exec t o c m = some (r, m') → (∀ e ∈ learned o r, e ∈ known) ∧ Sees t known (next r) m'

/-- The level-1 pages in memory are known, and the root is the one that was read. -/
structure Familiar (known : Set (CacheEntry Key)) (root : GlobalAddress) (m : Memory Key Value) : Prop where
  pages : ∀ a p, m.pages a = some p → ∀ e ∈ entryOf p, e ∈ known
  root : m.rootOffset = root

/-- Nothing is learned and no internal page and no root is written. -/
def Op.Plain (o : Op Key Value) : Prop :=
  (∀ a, o ≠ ⟨.searchNode, .readPage a⟩) ∧ (∀ a p, o.act ≠ .writePage a (.internal p)) ∧ ∀ old new, o.act ≠ .casRoot old new

def Op.Blind (o : Op Key Value) : Prop := ∀ a, o ≠ ⟨.searchNode, .readPage a⟩

theorem learned_blind {o : Op Key Value} (blind : o.Blind) (r : o.act.Reply) : ∀ e ∈ learned o r, e ∈ known := by
  unfold learned
  split
  · exact absurd rfl (blind _)
  · exact List.forall_mem_nil _

theorem exec_rootOffset {m m' : Memory Key Value} {o : Op Key Value} {c : BitVec 64} {r : o.act.Reply}
    (performed : Memory.exec t o c m = some (r, m')) (kept : ∀ old new, o.act ≠ .casRoot old new) :
    m'.rootOffset = m.rootOffset := by
  obtain ⟨site, act⟩ := o
  cases act with
  | casRoot old new => exact absurd rfl (kept old new)
  | assertFalse => cases performed
  | readRoot | unlock | readItem | writeItem | writePage =>
    cases performed
    rfl
  | readPage | lock | writeEntry | allocPage | allocItem =>
    simp only [Memory.exec] at performed
    split at performed <;> cases performed
    rfl

theorem Familiar.exec {m m' : Memory Key Value} (familiar : Familiar known root m) {o : Op Key Value} (plain : o.Plain)
    {c : BitVec 64}
    {r : o.act.Reply} (performed : Memory.exec t o c m = some (r, m')) : Familiar known root m' := by
  refine ⟨exec_forall (fun _ _ _ _ => ?_) familiar.pages performed fun a p act => ?_,
    (exec_rootOffset performed plain.2.2).trans familiar.root⟩
  · rintro e ⟨⟩
  · cases p with
    | leaf p => rintro e ⟨⟩
    | internal p => exact absurd act (plain.2.1 a p)

variable {m : Memory Key Value}

/-! ### Rules -/

theorem sees_blind {p : Index Key Value A} (only : p.Only Op.Blind) : Sees t known p m := by
  induction p generalizing m with
  | value a => trivial
  | stuck => trivial
  | perform o next ih =>
    intro c r m' _
    exact ⟨learned_blind only.1 r, ih r (only.2 r)⟩

theorem sees_plain {p : Index Key Value A} {f : A → Index Key Value B} (familiar : Familiar known root m) (only : p.Only Op.Plain)
    (later : ∀ a m', Familiar known root m' → Sees t known (f a) m') : Sees t known (p >>= f) m := by
  induction p generalizing m with
  | value a => exact later a m familiar
  | stuck => trivial
  | perform o next ih =>
    intro c r m' performed
    exact ⟨learned_blind only.1.1 r, ih r (familiar.exec only.1 performed) (only.2 r)⟩

theorem sees_bind_pure {p : Index Key Value A} {f : A → B} (sees : Sees t known p m) :
    Sees t known (p >>= fun a => pure (f a)) m := by
  induction p generalizing m with
  | value a => trivial
  | stuck => trivial
  | perform o next ih =>
    intro c r m' performed
    obtain ⟨seen, later⟩ := sees c r m' performed
    exact ⟨seen, ih r later⟩

theorem sees_readPage {f : Page Key → Index Key Value A} {a : GlobalAddress} (familiar : Familiar known root m)
    (later : ∀ p, Sees t known (f p) m) : Sees t known (readPage .searchNode a >>= f) m := by
  intro c r m' performed
  have there := exec_readPage performed
  have same : m' = m := by
    simp only [Memory.exec] at performed
    split at performed <;> cases performed
    rfl
  subst same
  exact ⟨familiar.pages a r there, later r⟩

theorem sees_readRoot {f : GlobalAddress → Index Key Value A} {site : Site} (familiar : Familiar known root m)
    (later : Sees t known (f root) m) : Sees t known (readRoot site >>= f) m := by
  intro c r m' performed
  cases performed
  exact ⟨learned_blind (by rintro a ⟨⟩) _, familiar.root ▸ later⟩

theorem recording_run {p : Index Key Value A} (sees : Sees t known p m) {choices : List (BitVec 64)} {a : A} {m' : Memory Key Value}
    {before after : List (CacheEntry Key)} (ran : p.run recording t choices (m, before) = some (a, (m', after))) :
    p.run Memory.exec t choices m = some (a, m') ∧ ∀ e ∈ after, e ∈ before ∨ e ∈ known := by
  induction p generalizing m choices before with
  | value b =>
    cases ran
    exact ⟨rfl, fun e inside => .inl inside⟩
  | stuck => cases choices <;> cases ran
  | perform o next ih =>
    cases choices with
    | nil => cases ran
    | cons c rest =>
      obtain ⟨⟨r, s⟩, performed, later⟩ := Option.bind_eq_some_iff.1 ran
      unfold recording at performed
      split at performed
      · rename_i r₁ m₁ done
        cases performed
        obtain ⟨seen, sees'⟩ := sees c r m₁ done
        obtain ⟨ran', inside⟩ := ih r sees' later
        refine ⟨(run_perform done).trans ran', fun e found => ?_⟩
        rcases inside e found with old | new
        · exact (List.mem_append.1 old).symm.imp_right (seen e)
        · exact .inr new
      · cases performed

end

/-! ### Operations -/

section
variable {Key Value A : Type} {site : Site} {a : GlobalAddress}

theorem plain_readItem : Op.Plain (⟨site, .readItem a⟩ : Op Key Value) :=
  ⟨by rintro _ ⟨⟩, by rintro _ _ ⟨⟩, by rintro _ _ ⟨⟩⟩

theorem plain_writeItem {item : KVItem Key Value} : Op.Plain (⟨site, .writeItem a item⟩ : Op Key Value) :=
  ⟨by rintro _ ⟨⟩, by rintro _ _ ⟨⟩, by rintro _ _ ⟨⟩⟩

theorem plain_lock : Op.Plain (⟨site, .lock a⟩ : Op Key Value) :=
  ⟨by rintro _ ⟨⟩, by rintro _ _ ⟨⟩, by rintro _ _ ⟨⟩⟩

theorem plain_unlock : Op.Plain (⟨site, .unlock a⟩ : Op Key Value) :=
  ⟨by rintro _ ⟨⟩, by rintro _ _ ⟨⟩, by rintro _ _ ⟨⟩⟩

theorem plain_allocPage : Op.Plain (⟨site, .allocPage⟩ : Op Key Value) :=
  ⟨by rintro _ ⟨⟩, by rintro _ _ ⟨⟩, by rintro _ _ ⟨⟩⟩

theorem plain_allocItem : Op.Plain (⟨site, .allocItem⟩ : Op Key Value) :=
  ⟨by rintro _ ⟨⟩, by rintro _ _ ⟨⟩, by rintro _ _ ⟨⟩⟩

theorem plain_writeEntry {i : ℕ} {r : LeafEntry} : Op.Plain (⟨site, .writeEntry a i r⟩ : Op Key Value) :=
  ⟨by rintro _ ⟨⟩, by rintro _ _ ⟨⟩, by rintro _ _ ⟨⟩⟩

theorem plain_writeLeaf {p : LeafPage Key} : Op.Plain (⟨site, .writePage a (.leaf p)⟩ : Op Key Value) :=
  ⟨by rintro _ ⟨⟩, by rintro _ _ ⟨⟩, by rintro _ _ ⟨⟩⟩

theorem plain_lockAndReadPage : (lockAndReadPage .insertToLeaf a : Index Key Value (Page Key)).Only Op.Plain :=
  ⟨plain_lock, fun _ => ⟨⟨by rintro _ ⟨⟩, by rintro _ _ ⟨⟩, by rintro _ _ ⟨⟩⟩, fun _ => trivial⟩⟩

theorem blind_of_site {o : Op Key Value} (other : o.site ≠ .searchNode) : o.Blind := by
  rintro a rfl
  exact other rfl

variable {t : ℕ} {known : Set (CacheEntry Key)} {root : GlobalAddress} {m : Memory Key Value} {key : Key} {level : ℕ}
  {v : GlobalAddress} {path : PathStack}

theorem plain_readKeyed {page : LeafPage Key} {slots : List ℕ} :
    (readKeyed page slots : Index Key Value (List (Key × LeafEntry))).Only Op.Plain := by
  induction slots with
  | nil => trivial
  | cons i rest ih => exact only_bind ⟨plain_readItem, fun _ => trivial⟩ fun _ => only_bind ih fun _ => trivial

variable [LinearOrder Key] [BoundedOrder Key] {cfg : Config} {result : SearchResult Value}

theorem blind_updateRootOffset {left right : GlobalAddress} :
    (updateRootOffset left key right level root : Index Key Value Bool).Only Op.Blind := by
  have blind : ∀ act, Op.Blind (⟨.updateRootOffset, act⟩ : Op Key Value) := fun act => blind_of_site (by rintro ⟨⟩)
  exact ⟨blind _, fun _ => ⟨blind _, fun _ => ⟨blind _, fun _ => trivial⟩⟩⟩

theorem blind_insertToInternal {bound : ℕ} : (insertToInternal cfg key v root level path bound a : Index Key Value Unit).Only
    Op.Blind := by
  have blind : ∀ act, Op.Blind (⟨.insertToInternal, act⟩ : Op Key Value) := fun act => blind_of_site (by rintro ⟨⟩)
  induction bound generalizing key v level a with
  | zero => trivial
  | succ bound ih =>
    unfold insertToInternal
    refine ⟨blind _, fun _ => ⟨blind _, fun page => ?_⟩⟩
    refine only_ite trivial (only_ite ⟨blind _, fun _ => only_ite trivial ih⟩ (only_ite trivial ?_))
    refine only_ite trivial (only_ite ⟨blind _, fun _ => ⟨blind _, fun _ => trivial⟩⟩ ⟨blind _, fun (new : GlobalAddress) => ?_⟩)
    refine only_ite trivial (only_ite trivial ⟨blind _, fun _ => ⟨blind _, fun _ => ⟨blind _, fun _ => ?_⟩⟩⟩)
    have rest : ∀ done : Bool, (if done = true then pure () else if path (level + 1) ≠ .null then
        insertToInternal cfg (page.asInternal.withRecord key v).splitKey new root (level + 1) path bound (path (level + 1))
        else assertFalse .insertToInternal : Index Key Value Unit).Only Op.Blind :=
      fun _ => only_ite trivial (only_ite ih ⟨blind _, fun _ => trivial⟩)
    exact only_ite (only_bind blind_updateRootOffset rest) (rest false)

theorem sees_updateRootOffset {left right : GlobalAddress} {f : Bool → Index Key Value A} (familiar : Familiar known root m)
    (later : ∀ m', Sees t known (f true) m') : Sees t known (updateRootOffset left key right level root >>= f) m := by
  have blind : ∀ act, Op.Blind (⟨.updateRootOffset, act⟩ : Op Key Value) := fun act => blind_of_site (by rintro ⟨⟩)
  intro c (new : GlobalAddress) m₁ allocated
  refine ⟨learned_blind (blind _) _, fun c₁ _ m₂ written =>
    ⟨learned_blind (blind _) _, fun c₂ (found : GlobalAddress) m₃ swapped => ⟨learned_blind (blind _) _, ?_⟩⟩⟩
  have same : m₂.rootOffset = root := by
    rw [exec_rootOffset written (by rintro _ _ ⟨⟩), exec_rootOffset allocated (by rintro _ _ ⟨⟩)]
    exact familiar.root
  have isRoot : found = root := by
    simp only [Memory.exec] at swapped
    split at swapped <;> cases swapped <;> exact same
  show Sees t known (f (decide (found = root))) m₃
  rw [decide_eq_true isRoot]
  exact later m₃

variable [KeyBytes Key]

section
variable {within : Op Key Value → Prop} (items : ∀ a, within ⟨.searchNode, .readItem a⟩)
include items

omit [BoundedOrder Key] in
theorem only_searchRecords {page : LeafPage Key} {slots : List ℕ} :
    (searchRecords key page slots : Index Key Value (Option Value)).Only within := by
  induction slots with
  | nil => trivial
  | cons i rest ih => exact only_ite ⟨items _, fun _ => only_ite trivial ih⟩ ih

theorem only_searchPage {page : Page Key} : (searchPage cfg a page key result path).Only within := by
  refine only_ite trivial
    (only_ite (only_ite trivial trivial) (only_ite trivial (only_ite (only_ite trivial ?_) (only_ite trivial trivial))))
  refine only_bind (only_searchRecords items) ?_
  rintro (_ | value) <;> trivial

theorem only_searchNode (pages : ∀ a, within ⟨.searchNode, .readPage a⟩) : (searchNode cfg a key result path).Only within :=
  ⟨pages _, fun _ => only_searchPage items⟩

theorem only_readLoop [Bot Value] [DecidableEq Value] (pages : ∀ a, within ⟨.searchNode, .readPage a⟩) {bound : ℕ} :
    (readLoop cfg key bound a result path).Only within := by
  induction bound generalizing a result path with
  | zero => trivial
  | succ bound ih =>
    exact only_bind (only_searchNode items pages) fun _ => only_ite (only_ite trivial (only_ite ih trivial)) ih

end

omit [BoundedOrder Key] in
theorem plain_scanRecords {page : LeafPage Key} {value : Value} {slots : List ℕ} {cnt : ℕ} {emptyIndex : Option ℕ} :
    (scanRecords key value page slots cnt emptyIndex).Only Op.Plain := by
  induction slots generalizing cnt emptyIndex with
  | nil => trivial
  | cons i rest ih =>
    exact only_ite ih (only_ite ⟨plain_readItem, fun _ => only_ite ⟨plain_writeItem, fun _ => trivial⟩ ih⟩ ih)

theorem sees_searchNode {f : SearchResult Value × PathStack → Index Key Value A} (familiar : Familiar known root m)
    (later : ∀ r m', Familiar known root m' → Sees t known (f r) m') : Sees t known (searchNode cfg a key result path >>= f) m := by
  rw [searchNode, bind_assoc]
  exact sees_readPage familiar fun p => sees_plain familiar (only_searchPage fun _ => plain_readItem) later

omit [LinearOrder Key] [BoundedOrder Key] [KeyBytes Key] in
theorem sees_ite {c : Prop} [Decidable c] {p q : Index Key Value A} (yes : Sees t known p m) (no : Sees t known q m) :
    Sees t known (if c then p else q) m := by
  by_cases holds : c
  · rwa [if_pos holds]
  · rwa [if_neg holds]

theorem sees_searchAndInsertLoop {bound : ℕ} (familiar : Familiar known root m) :
    Sees t known (searchAndInsertLoop cfg key v root level bound a result path) m := by
  induction bound generalizing a result path m with
  | zero => trivial
  | succ bound ih =>
    refine sees_searchNode familiar fun r m' familiar' => ?_
    have blind : ∀ a, Sees t known (insertToInternal cfg key v root level r.2 cfg.loopBound a) m' := fun a =>
      sees_blind blind_insertToInternal
    exact sees_ite (blind _) (sees_ite trivial (sees_ite (ih familiar') (sees_ite (ih familiar') (blind _))))

variable [Bot Value] {value : Value}

theorem sees_splitLeafPage {page : LeafPage Key} {cnt : ℕ} (familiar : Familiar known root m) :
    Sees t known (splitLeafPage cfg a page cnt root level path) m := by
  refine sees_plain familiar plain_readKeyed fun keyed m₁ familiar₁ => sees_ite trivial ?_
  refine sees_plain familiar₁ ⟨plain_allocPage, fun _ => trivial⟩ fun new m₂ familiar₂ => ?_
  split
  · trivial
  refine sees_ite trivial (sees_ite trivial ?_)
  refine sees_plain familiar₂ ⟨plain_writeLeaf, fun _ => trivial⟩ fun _ m₃ familiar₃ => ?_
  refine sees_plain familiar₃ ⟨plain_writeLeaf, fun _ => ⟨plain_unlock, fun _ => trivial⟩⟩ fun _ m₄ familiar₄ => ?_
  refine sees_ite (sees_updateRootOffset familiar₄ fun _ => trivial) (sees_ite (sees_blind blind_insertToInternal) ?_)
  exact sees_readRoot familiar₄ (sees_searchAndInsertLoop familiar₄)

theorem sees_fillLeaf {page : Page Key} (familiar : Familiar known root m) :
    Sees t known (fillLeaf cfg key value root level path a page) m := by
  refine sees_plain familiar plain_scanRecords fun scan m₁ familiar₁ => ?_
  have unlocks : (unlock .insertToLeaf a : Index Key Value Unit).Only Op.Blind := ⟨plain_unlock.1, fun _ => trivial⟩
  split
  · exact sees_blind unlocks
  · trivial
  · refine sees_ite trivial (sees_plain familiar₁ ⟨plain_allocItem, fun _ => trivial⟩ fun x m₂ familiar₂ => ?_)
    refine sees_plain familiar₂ ⟨plain_writeItem, fun _ => trivial⟩ fun _ m₃ familiar₃ => sees_ite (sees_blind ?_)
      (sees_splitLeafPage familiar₃)
    exact ⟨plain_writeEntry.1, fun _ => unlocks⟩

theorem sees_insertToLeaf {bound : ℕ} (familiar : Familiar known root m) :
    Sees t known (insertToLeaf cfg key value root level path bound a) m := by
  induction bound generalizing a m with
  | zero => trivial
  | succ bound ih =>
    refine sees_plain familiar plain_lockAndReadPage fun page m₁ familiar₁ =>
      sees_ite trivial (sees_ite ?_ (sees_ite trivial (sees_fillLeaf familiar₁)))
    exact sees_plain familiar₁ ⟨plain_unlock, fun _ => trivial⟩ fun _ m₂ familiar₂ => sees_ite trivial (ih familiar₂)

theorem sees_insertLoop {retries : ℕ} (familiar : Familiar known root m) :
    Sees t known (insertLoop cfg key value root retries a result path) m := by
  induction retries generalizing a result path m with
  | zero => trivial
  | succ retries ih =>
    refine sees_searchNode familiar fun r m₁ familiar₁ => ?_
    have fills : ∀ a, Sees t known (insertToLeaf cfg key value root 0 r.2 cfg.loopBound a >>= fun _ => pure true) m₁ :=
      fun a => sees_bind_pure (sees_insertToLeaf familiar₁)
    exact sees_ite (fills _) (sees_ite trivial (sees_ite (ih familiar₁) (sees_ite (ih familiar₁) (fills _))))

theorem sees_insert (familiar : Familiar known root m) : Sees t known (insert cfg key value) m :=
  sees_readRoot familiar (sees_insertLoop familiar)

theorem sees_insertCached {answer : Option (CacheEntry Key)} (familiar : Familiar known root m) :
    Sees t known (insertCached cfg key value answer) m := by
  cases answer with
  | none => exact sees_insert familiar
  | some entry =>
    refine sees_readRoot familiar ?_
    rw [insertToLeafFromCache, bind_assoc]
    refine sees_plain familiar plain_lockAndReadPage fun page m₁ familiar₁ => ?_
    by_cases on : page.hdr.level = 0
    swap
    · rw [if_pos on]
      trivial
    rw [if_neg (not_not.2 on)]
    by_cases outside : key < page.hdr.lowest ∨ page.hdr.highest ≤ key
    · rw [if_pos outside]
      exact sees_plain familiar₁ ⟨plain_unlock, fun _ => trivial⟩ fun _ m₂ familiar₂ => sees_ite trivial (sees_insert familiar₂)
    · rw [if_neg outside, bind_assoc]
      exact sees_bind_pure (sees_fillLeaf familiar₁)

variable [DecidableEq Value]

theorem sees_readLoop {bound : ℕ} (familiar : Familiar known root m) : Sees t known (readLoop cfg key bound a result path) m := by
  induction bound generalizing a result path m with
  | zero => trivial
  | succ bound ih =>
    refine sees_searchNode familiar fun r m₁ familiar₁ => ?_
    exact sees_ite (sees_ite trivial (sees_ite (ih familiar₁) trivial)) (ih familiar₁)

theorem sees_cachedBody {answer : Option (CacheEntry Key)} (familiar : Familiar known root m) (call : Call Key Value) :
    Sees t known (call.cachedBody cfg answer) m := by
  cases call with
  | insert key value => exact sees_bind_pure (sees_insertCached familiar)
  | read key => exact sees_bind_pure (sees_readRoot familiar (sees_readLoop familiar))

end

end Faunus.Sherman
