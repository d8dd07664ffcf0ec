import Faunus.Sherman.Propagation

/-! The room in the pages of the tree.

The number of records of an internal page shrinks with the size of a key. Where at least
three fit, a page is split before it is full and both halves keep a record.
-/

set_option autoImplicit false

namespace Faunus.Sherman

open Interleaving

variable {Key Value A B : Type} [LinearOrder Key] [BoundedOrder Key]

/-! ## Histories of inserts -/

/-- Memory after `initialize` and after every insert of one client that returned. -/
inductive Filled [KeyBytes Key] [Bot Value] (cfg : Config) (t : ℕ) : Memory Key Value → Prop where
  | start {m m' : Memory Key Value} {choices : List (BitVec 64)} {ok : Bool} : m.Fresh →
      initializeIndex.run Memory.exec t choices m = some (ok, m') → Filled cfg t m'
  | insert {m m' : Memory Key Value} {choices : List (BitVec 64)} {key : Key} {value : Value} {ok : Bool} : Filled cfg t m →
      (Sherman.insert cfg key value).run Memory.exec t choices m = some (ok, m') → Filled cfg t m'

/-- What an operation may do to the records of internal pages: `insert_to_internal` finds room and leaves a record in every page
it writes, and the constructor of a new root writes `records[0]` and `records[1]` inside the array. -/
def InBounds (cfg : Config) : (o : Op Key Value) → o.act.Reply → Prop
  | ⟨.insertToInternal, .readPage _⟩, p => ∀ n, p = Page.internal n → n.cnt ≠ cfg.internalCardinality
  | ⟨.insertToInternal, .writePage _ p⟩, _ => ∀ n, p = Page.internal n → 0 < n.cnt
  | ⟨.updateRootOffset, .writePage _ _⟩, _ => 1 < cfg.internalCardinality
  | _, _ => True

/-! ## Pages with room -/

/-- Leaves are on level 0, and an internal page has a record and room for another one. -/
def Page.Roomy (cfg : Config) : Page Key → Prop
  | .leaf p => p.hdr.level = 0
  | .internal p => 0 < p.cnt ∧ p.cnt < cfg.internalCardinality

section
variable {cfg : Config} {p : InternalPage Key} {key : Key} {v : GlobalAddress}

omit [BoundedOrder Key] in
theorem withRecord_cnt (some : 0 < p.cnt) : (p.withRecord key v).cnt = p.cnt ∨ (p.withRecord key v).cnt = p.cnt + 1 := by
  unfold InternalPage.withRecord
  split
  · exact .inl rfl
  · right
    simp only [InternalPage.cnt] at some ⊢
    omega

omit [LinearOrder Key] [BoundedOrder Key] in
theorem splitLeft_roomy (full : p.cnt = cfg.internalCardinality) (three : 3 ≤ cfg.internalCardinality) (sibling : GlobalAddress) :
    (Page.internal (p.splitLeft sibling)).Roomy cfg := by
  simp only [Page.Roomy, InternalPage.splitLeft, InternalPage.cnt] at full ⊢
  omega

theorem splitRight_roomy (full : p.cnt = cfg.internalCardinality) (three : 3 ≤ cfg.internalCardinality) :
    (Page.internal p.splitRight).Roomy cfg := by
  simp only [Page.Roomy, InternalPage.splitRight, InternalPage.cnt] at full ⊢
  omega

theorem newRoot_roomy (three : 3 ≤ cfg.internalCardinality) (left right : GlobalAddress) (key : Key) (level : ℕ) :
    (Page.internal (.newRoot left key right level)).Roomy cfg := by
  simp only [Page.Roomy, InternalPage.newRoot, InternalPage.cnt]
  omega

end

section Verbs
variable {Key Value A : Type}

/-- Only pages with room are written. The constructor of a new root needs two records. -/
def writesRoomy (cfg : Config) (o : Op Key Value) : Prop :=
  ∀ a p, o.act = .writePage a p → p.Roomy cfg ∧ (o.site = .updateRootOffset → 1 < cfg.internalCardinality)

def readsRoomy (cfg : Config) (o : Op Key Value) (r : o.act.Reply) : Prop :=
  match o, r with
  | ⟨_, .readPage _⟩, p => Page.Roomy cfg p
  | _, _ => True

/-- The program writes only pages with room, as long as it reads only such pages. -/
abbrev Careful (cfg : Config) (p : Index Key Value A) : Prop := p.Minds (writesRoomy cfg) (readsRoomy cfg)

variable {cfg : Config} {site : Site} {a : GlobalAddress}

theorem careful_perform {o : Op Key Value} {next : o.act.Reply → Index Key Value A} (harmless : ∀ a p, o.act ≠ .writePage a p)
    (later : ∀ r, Careful cfg (next r)) : Careful cfg (.perform o next) :=
  ⟨fun a p act => absurd act (harmless a p), fun r _ => later r⟩

theorem careful_readPage {f : Page Key → Index Key Value A} (next : ∀ p : Page Key, p.Roomy cfg → Careful cfg (f p)) :
    Careful cfg (readPage site a >>= f) :=
  ⟨by rintro _ _ ⟨⟩, fun p roomy => next p roomy⟩

theorem careful_writePage {f : Unit → Index Key Value A} {p : Page Key} (roomy : p.Roomy cfg)
    (wide : site = .updateRootOffset → 1 < cfg.internalCardinality) (next : Careful cfg (f ())) :
    Careful cfg (writePage site a p >>= f) := by
  refine ⟨?_, fun _ _ => next⟩
  rintro _ _ ⟨⟩
  exact ⟨roomy, wide⟩

theorem careful_lock {f : Unit → Index Key Value A} (next : Careful cfg (f ())) : Careful cfg (lock site a >>= f) :=
  careful_perform (by rintro _ _ ⟨⟩) fun _ => next

theorem careful_unlock {f : Unit → Index Key Value A} (next : Careful cfg (f ())) : Careful cfg (unlock site a >>= f) :=
  careful_perform (by rintro _ _ ⟨⟩) fun _ => next

theorem careful_allocPage {f : GlobalAddress → Index Key Value A} (next : ∀ new, Careful cfg (f new)) :
    Careful cfg (allocPage site >>= f) :=
  careful_perform (by rintro _ _ ⟨⟩) next

theorem careful_readItem {f : KVItem Key Value → Index Key Value A} (next : ∀ item, Careful cfg (f item)) :
    Careful cfg (readItem site a >>= f) :=
  careful_perform (by rintro _ _ ⟨⟩) next

theorem careful_last {p : Index Key Value A} (careful : Careful cfg (p >>= pure)) : Careful cfg p := by
  rwa [bind_pure] at careful

end Verbs

/-! ## The operations -/

section Operations
variable {cfg : Config} {key : Key} {v root a : GlobalAddress} {level : ℕ} {path : PathStack}

theorem careful_updateRootOffset (three : 3 ≤ cfg.internalCardinality) (left right : GlobalAddress) :
    Careful cfg (updateRootOffset left key right level root : Index Key Value Bool) := by
  unfold updateRootOffset
  refine careful_allocPage fun new => careful_writePage (newRoot_roomy three left right key level) (fun _ => by omega) ?_
  exact careful_perform (by rintro _ _ ⟨⟩) fun _ => trivial

theorem careful_propagate {up fallback : Index Key Value Unit} (three : 3 ≤ cfg.internalCardinality) (upward : Careful cfg up)
    (otherwise : Careful cfg fallback) :
    Careful cfg (if root = a then updateRootOffset a key v (level + 1) root >>= fun done =>
        if done = true then pure () else if path (level + 1) ≠ .null then up else fallback
      else pure false >>= fun done => if done = true then pure () else if path (level + 1) ≠ .null then up else fallback) := by
  have rest : ∀ done : Bool, Careful cfg (if done = true then pure () else if path (level + 1) ≠ .null then up else fallback) := by
    intro done
    split_ifs
    · trivial
    · exact upward
    · exact otherwise
  by_cases atRoot : root = a
  · rw [if_pos atRoot]
    exact minds_bind (careful_updateRootOffset three _ _) rest
  · rw [if_neg atRoot]
    exact rest false

theorem careful_insertToInternal {bound : ℕ} (three : 3 ≤ cfg.internalCardinality) (inner : 0 < level) :
    Careful cfg (insertToInternal cfg key v root level path bound a : Index Key Value Unit) := by
  -- a page with room gets a record; where it is then full, both halves have room
  induction bound generalizing key v level a with
  | zero => trivial
  | succ bound ih =>
    unfold insertToInternal
    rw [lockAndReadPage, bind_assoc]
    refine careful_lock (careful_readPage fun page roomy => ?_)
    by_cases on : page.hdr.level = level
    swap
    · rw [if_pos on]
      trivial
    rw [if_neg (not_not.2 on)]
    by_cases behind : page.hdr.highest ≤ key
    · rw [if_pos behind]
      refine careful_unlock ?_
      split_ifs
      · trivial
      · exact ih inner
    rw [if_neg behind]
    by_cases low : key < page.hdr.lowest
    · rw [if_pos low]
      trivial
    rw [if_neg low]
    -- a page above the leaves is an internal page
    obtain ⟨n, rfl⟩ : ∃ n, page = .internal n := by
      cases page with
      | leaf n =>
        have bottom : n.hdr.level = 0 := roomy
        have same : n.hdr.level = level := on
        omega
      | internal n => exact ⟨n, rfl⟩
    obtain ⟨some, less⟩ := roomy
    have counts : (n.withRecord key v).cnt = n.cnt ∨ (n.withRecord key v).cnt = n.cnt + 1 := withRecord_cnt some
    dsimp only [Page.asInternal]
    rw [if_neg (ne_of_lt less)]
    by_cases full : (n.withRecord key v).cnt = cfg.internalCardinality
    swap
    · rw [if_pos full, writePageAndUnlock]
      have roomy : (Page.internal (n.withRecord key v)).Roomy cfg := ⟨by omega, by omega⟩
      exact careful_writePage roomy (by rintro ⟨⟩) (careful_last (careful_unlock trivial))
    rw [if_neg (not_not.2 full)]
    refine careful_allocPage fun new => ?_
    by_cases outside : (n.withRecord key v).splitKey ≤ (n.withRecord key v).hdr.lowest ∨
      (n.withRecord key v).hdr.highest ≤ (n.withRecord key v).splitKey
    · rw [if_pos outside]
      trivial
    rw [if_neg outside]
    by_cases cycle : new = a ∨ (n.withRecord key v).hdr.siblingPtr = a ∨ (n.withRecord key v).hdr.siblingPtr = new
    · rw [if_pos cycle]
      trivial
    rw [if_neg cycle]
    refine careful_writePage (splitRight_roomy full three) (by rintro ⟨⟩) ?_
    rw [writePageAndUnlock, bind_assoc]
    refine careful_writePage (splitLeft_roomy full three new) (by rintro ⟨⟩) (careful_unlock ?_)
    refine careful_propagate three (ih (Nat.succ_pos level)) ?_
    exact careful_perform (by rintro _ _ ⟨⟩) fun _ => trivial

variable [KeyBytes Key]

omit [BoundedOrder Key] in
theorem careful_searchRecords {page : LeafPage Key} {slots : List ℕ} :
    Careful cfg (searchRecords key page slots : Index Key Value (Option Value)) := by
  induction slots with
  | nil => trivial
  | cons i rest ih =>
    unfold searchRecords
    split_ifs
    · refine careful_readItem fun item => ?_
      split_ifs
      · trivial
      · exact ih
    · exact ih

theorem careful_searchNode {result : SearchResult Value} : Careful cfg (searchNode cfg a key result path) := by
  unfold searchNode
  refine careful_readPage fun page _ => ?_
  dsimp only [searchPage]
  split_ifs
  any_goals trivial
  refine minds_bind careful_searchRecords ?_
  rintro (_ | value) <;> trivial

theorem careful_searchAndInsertLoop {bound : ℕ} {result : SearchResult Value} (three : 3 ≤ cfg.internalCardinality)
    (inner : 0 < level) :
    Careful cfg (searchAndInsertLoop cfg key v root level bound a result path) := by
  induction bound generalizing a result path with
  | zero => trivial
  | succ bound ih =>
    unfold searchAndInsertLoop
    refine minds_bind careful_searchNode fun r => ?_
    dsimp only
    split_ifs
    · exact careful_insertToInternal three inner
    · trivial
    · exact ih
    · exact ih
    · exact careful_insertToInternal three inner

omit [LinearOrder Key] [BoundedOrder Key] [KeyBytes Key] in
theorem careful_readKeyed {page : LeafPage Key} {slots : List ℕ} :
    Careful cfg (readKeyed page slots : Index Key Value (List (Key × LeafEntry))) := by
  induction slots with
  | nil => trivial
  | cons i rest ih =>
    unfold readKeyed
    exact careful_readItem fun item => minds_bind ih fun _ => trivial

omit [BoundedOrder Key] in
theorem careful_scanRecords {page : LeafPage Key} {value : Value} {slots : List ℕ} {cnt : ℕ} {emptyIndex : Option ℕ} :
    Careful cfg (scanRecords key value page slots cnt emptyIndex) := by
  induction slots generalizing cnt emptyIndex with
  | nil => trivial
  | cons i rest ih =>
    unfold scanRecords
    split_ifs
    · exact ih
    · refine careful_readItem fun item => ?_
      split_ifs
      · exact careful_perform (by rintro _ _ ⟨⟩) fun _ => trivial
      · exact ih
    · exact ih

variable [Bot Value]

theorem careful_searchAndInsertToInternal (three : 3 ≤ cfg.internalCardinality) (inner : 0 < level) :
    Careful cfg (searchAndInsertToInternal cfg key v level path : Index Key Value Unit) := by
  unfold searchAndInsertToInternal
  exact careful_perform (by rintro _ _ ⟨⟩) fun _ => careful_searchAndInsertLoop three inner

theorem careful_splitLeafPage {page : LeafPage Key} {cnt : ℕ} (three : 3 ≤ cfg.internalCardinality) (bottom : page.hdr.level = 0) :
    Careful cfg (splitLeafPage cfg a page cnt root level path : Index Key Value Unit) := by
  unfold splitLeafPage
  refine minds_bind careful_readKeyed fun keyed => ?_
  dsimp only
  by_cases miscounted : (sortByKey keyed).length = cnt
  swap
  · rw [if_pos miscounted]
    trivial
  rw [if_neg (not_not.2 miscounted)]
  refine careful_allocPage fun new => ?_
  split
  · trivial
  rename_i splitKey _ _
  by_cases outside : splitKey ≤ page.hdr.lowest ∨ page.hdr.highest ≤ splitKey
  · rw [if_pos outside]
    trivial
  rw [if_neg outside]
  by_cases cycle : new = a ∨ page.hdr.siblingPtr = a ∨ page.hdr.siblingPtr = new
  · rw [if_pos cycle]
    trivial
  rw [if_neg cycle]
  refine careful_writePage bottom (by rintro ⟨⟩) ?_
  rw [writePageAndUnlock, bind_assoc]
  refine careful_writePage bottom (by rintro ⟨⟩) (careful_unlock ?_)
  exact careful_propagate three (careful_insertToInternal three (Nat.succ_pos level))
    (careful_searchAndInsertToInternal three (Nat.succ_pos level))

theorem careful_insertToLeaf {bound : ℕ} {value : Value} (wide : 3 ≤ cfg.internalCardinality ∨ cfg.leafCardinality = 0) :
    Careful cfg (insertToLeaf cfg key value root 0 path bound a) := by
  -- an insert gets past the scan of a leaf only where leaves have records
  induction bound generalizing a with
  | zero => trivial
  | succ bound ih =>
    unfold insertToLeaf
    rw [lockAndReadPage, bind_assoc]
    refine careful_lock (careful_readPage fun page roomy => ?_)
    by_cases on : page.hdr.level = 0
    swap
    · rw [if_pos on]
      trivial
    rw [if_neg (not_not.2 on)]
    by_cases behind : page.hdr.highest ≤ key
    · rw [if_pos behind]
      refine careful_unlock ?_
      split_ifs
      · trivial
      · exact ih
    rw [if_neg behind]
    by_cases low : key < page.hdr.lowest
    · rw [if_pos low]
      trivial
    rw [if_neg low]
    rcases wide with three | none
    swap
    · rw [none]
      trivial
    refine minds_bind careful_scanRecords ?_
    rintro (_ | ⟨cnt, _ | i⟩)
    · exact careful_last (careful_unlock trivial)
    · trivial
    dsimp only
    split_ifs
    · trivial
    · refine careful_perform (by rintro _ _ ⟨⟩) fun item => careful_perform (by rintro _ _ ⟨⟩) fun _ => ?_
      exact careful_perform (by rintro _ _ ⟨⟩) fun _ => careful_last (careful_unlock trivial)
    · refine careful_perform (by rintro _ _ ⟨⟩) fun item => careful_perform (by rintro _ _ ⟨⟩) fun _ => ?_
      refine careful_splitLeafPage three ?_
      cases page <;> exact on

theorem careful_insertLoop {retries : ℕ} {value : Value} {result : SearchResult Value}
    (wide : 3 ≤ cfg.internalCardinality ∨ cfg.leafCardinality = 0) :
    Careful cfg (insertLoop cfg key value root retries a result path) := by
  induction retries generalizing a result path with
  | zero => trivial
  | succ retries ih =>
    unfold insertLoop
    refine minds_bind careful_searchNode fun r => ?_
    dsimp only
    split_ifs
    any_goals trivial
    · exact minds_bind (careful_insertToLeaf wide) fun _ => trivial
    · exact ih
    · exact ih
    · exact minds_bind (careful_insertToLeaf wide) fun _ => trivial

theorem careful_insert (wide : 3 ≤ cfg.internalCardinality ∨ cfg.leafCardinality = 0) (key : Key) (value : Value) :
    Careful cfg (Sherman.insert cfg key value) := by
  unfold Sherman.insert
  exact careful_perform (by rintro _ _ ⟨⟩) fun root => careful_insertLoop wide

omit [KeyBytes Key] [Bot Value] in
theorem careful_initializeIndex : Careful cfg (initializeIndex : Index Key Value Bool) := by
  unfold initializeIndex
  refine careful_allocPage fun new => careful_writePage rfl (by rintro ⟨⟩) ?_
  exact careful_perform (by rintro _ _ ⟨⟩) fun _ => trivial

end Operations

/-! ## Runs -/

section
variable {cfg : Config} {t : ℕ} {m m' : Memory Key Value}

omit [LinearOrder Key] [BoundedOrder Key] in
theorem exec_roomy {o : Op Key Value} {c : BitVec 64} {r : o.act.Reply} (roomy : ∀ a p, m.pages a = some p → p.Roomy cfg)
    (performed : Memory.exec t o c m = some (r, m')) (writes : writesRoomy cfg o) :
    (∀ a p, m'.pages a = some p → p.Roomy cfg) ∧ readsRoomy cfg o r := by
  refine ⟨exec_forall (fun _ _ _ bottom => bottom) roomy performed fun a p act => (writes a p act).1, ?_⟩
  obtain ⟨site, act⟩ := o
  cases act with
  | readPage a => exact roomy a r (exec_readPage performed)
  | _ => trivial

variable [KeyBytes Key] [Bot Value]

theorem Filled.roomy (wide : 3 ≤ cfg.internalCardinality ∨ cfg.leafCardinality = 0) (filled : Filled cfg t m) :
    ∀ a p, m.pages a = some p → p.Roomy cfg := by
  induction filled with
  | start fresh ran =>
    refine minds_run (fun o c s r s' => exec_roomy) careful_initializeIndex (fun a p there => ?_) ran
    rw [fresh.pages] at there
    cases there
  | insert _ ran ih => exact minds_run (fun o c s r s' => exec_roomy) (careful_insert wide _ _) ih ran

omit [LinearOrder Key] [BoundedOrder Key] [KeyBytes Key] [Bot Value] in
theorem inBounds_of_roomy {o : Op Key Value} {r : o.act.Reply} (writes : writesRoomy cfg o) (reads : readsRoomy cfg o r) :
    InBounds cfg o r := by
  obtain ⟨site, act⟩ := o
  cases act with
  | readPage a =>
    cases site with
    | insertToInternal =>
      rintro n rfl
      exact ne_of_lt reads.2
    | _ => trivial
  | writePage a p =>
    cases site with
    | insertToInternal =>
      rintro n rfl
      exact (writes a _ rfl).1.1
    | updateRootOffset => exact (writes a p rfl).2 rfl
    | _ => trivial
  | _ => cases site <;> trivial

end

/-! ## Sizes of keys -/

theorem three_le_kInternalCardinality {keySize : ℕ} (short : keySize ≤ 194) : 3 ≤ kInternalCardinality keySize := by
  rw [kInternalCardinality, Nat.le_div_iff_mul_le (by omega), pageRoom]
  omega

theorem kLeafCardinality_eq_zero {keySize : ℕ} (long : 492 ≤ keySize) : kLeafCardinality keySize = 0 := by
  rw [kLeafCardinality, Nat.div_eq_zero_iff, pageRoom]
  omega

/-- With keys of at most 194 bytes no page runs out of room, whatever was inserted before. From 492 bytes on a leaf has no
records and no insert gets past its scan. -/
theorem insert_in_bounds [KeyBytes Key] [Bot Value] {keySize loopBound t : ℕ} (size : keySize ≤ 194 ∨ 492 ≤ keySize)
    {m : Memory Key Value}
    (filled : Filled (.ofKeySize keySize loopBound) t m) {key : Key} {value : Value} {o : Op Key Value} {r : o.act.Reply}
    (performs : Performs Memory.exec t (Sherman.insert (.ofKeySize keySize loopBound) key value) m o r) :
    InBounds (.ofKeySize keySize loopBound) o r := by
  have wide : 3 ≤ (Config.ofKeySize keySize loopBound).internalCardinality ∨
    (Config.ofKeySize keySize loopBound).leafCardinality = 0 :=
    size.imp three_le_kInternalCardinality kLeafCardinality_eq_zero
  obtain ⟨writes, reads⟩ := minds_performs (fun o c s r s' => exec_roomy) (careful_insert wide key value)
    (filled.roomy wide) performs
  exact inBounds_of_roomy writes reads

theorem insert_in_bounds_byte : Filled (.ofKeySize 1 7) 0 (blank.planted ⟨1⟩) ∧
    (∃ o r, Performs Memory.exec 0 (Sherman.insert (.ofKeySize 1 7) firstKey secondKey) (blank.planted ⟨1⟩) o r) ∧
    ∀ o r, Performs Memory.exec 0 (Sherman.insert (.ofKeySize 1 7) firstKey secondKey) (blank.planted ⟨1⟩) o r →
      InBounds (.ofKeySize 1 7) o r := by
  have planted : initializeIndex.run Memory.exec 0 [1, 0, 0] blank = some (true, blank.planted ⟨1⟩) := rfl
  have filled : Filled (.ofKeySize 1 7) 0 (blank.planted ⟨1⟩) := .start blank_fresh planted
  refine ⟨filled, ?_, fun o r performs => insert_in_bounds (.inl (by decide)) filled performs⟩
  exact ⟨⟨.insert, .readRoot⟩, _, .now (c := 0) rfl⟩

/-! ## Long keys -/

/-- Keys of 256 bytes; the leading byte comes first. -/
abbrev WideKey := Fin (256 ^ 256)

instance wideKeyBytes : KeyBytes WideKey := ⟨fun key => (List.range 256).map fun i => BitVec.ofNat 8 (key.val >>> (8 * (255 - i)))⟩

instance wideBounds : BoundedOrder WideKey := inferInstance

instance wideBot : Bot WideKey := wideBounds.toBot

instance wideTop : Top WideKey := wideBounds.toTop

def blankWide : Memory WideKey WideKey where
  rootOffset := .null
  pages := fun _ => none
  items := fun _ => ⟨⊥, ⊥⟩
  locks := fun _ => false
  pagesIssued := []
  itemsIssued := []

def fillKeys : List WideKey → ℕ → Memory WideKey WideKey → Option (Memory WideKey WideKey)
  | [], _, m => some m
  | key :: rest, from', m =>
    match (Sherman.insert (.ofKeySize 256 7) key key).run Memory.exec 0 (addresses from' 100) m with
    | some (_, m') => fillKeys rest (from' + 100) m'
    | none => none

theorem fillKeys_filled {keys : List WideKey} {from' : ℕ} {m m' : Memory WideKey WideKey} (filled : Filled (.ofKeySize 256 7) 0 m)
    (done : fillKeys keys from' m = some m') : Filled (.ofKeySize 256 7) 0 m' := by
  induction keys generalizing from' m with
  | nil =>
    cases done
    exact filled
  | cons key rest ih =>
    unfold fillKeys at done
    split at done
    · rename_i ok m₁ ran
      exact ih (.insert filled ran) done
    · cases done

/-- A leaf holds 40 records of such keys, and an internal page one. -/
def wideKeys : List WideKey := (List.range 39).map fun i => Fin.ofNat _ (i + 1)

def makesRoot (o : Op WideKey WideKey) : Bool :=
  match o with
  | ⟨.updateRootOffset, .writePage _ _⟩ => true
  | _ => false

theorem eq_of_makesRoot {o : Op WideKey WideKey} (isRoot : makesRoot o = true) : ∃ a p, o = ⟨.updateRootOffset, .writePage a p⟩ := by
  unfold makesRoot at isRoot
  split at isRoot
  · exact ⟨_, _, rfl⟩
  · cases isRoot

theorem wideKeys_makeRoot : ((fillKeys wideKeys 1000 (blankWide.planted ⟨1⟩)).any fun m =>
    (Sherman.insert (.ofKeySize 256 7) (Fin.ofNat _ 40) ⊥).reachesKind Memory.exec 0 makesRoot (addresses 100000 100) m) = true := by
  decide +kernel

/-- The split of the first leaf makes a root whose second record lies outside of the page. -/
theorem insert_out_of_bounds_wideKeys :
    ∃ (m : Memory WideKey WideKey) (key value : WideKey) (o : Op WideKey WideKey) (r : o.act.Reply),
    Filled (.ofKeySize 256 7) 0 m ∧ Performs Memory.exec 0 (Sherman.insert (.ofKeySize 256 7) key value) m o r ∧
      ¬ InBounds (.ofKeySize 256 7) o r := by
  obtain ⟨m, done, reaches⟩ := (Option.any_eq_true _ _).1 wideKeys_makeRoot
  obtain ⟨o, r, isRoot, performs⟩ := performs_of_reachesKind reaches
  have planted : initializeIndex.run Memory.exec 0 [1, 0, 0] blankWide = some (true, blankWide.planted ⟨1⟩) := rfl
  have filled := fillKeys_filled (.start ⟨rfl, fun _ => rfl, fun _ => rfl⟩ planted) done
  obtain ⟨a, p, rfl⟩ := eq_of_makesRoot isRoot
  refine ⟨m, _, _, ⟨.updateRootOffset, .writePage a p⟩, r, filled, performs, ?_⟩
  show ¬ 1 < kInternalCardinality 256
  decide

end Faunus.Sherman
