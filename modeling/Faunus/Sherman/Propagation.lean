import Faunus.Sherman.Histories
import Faunus.Sherman.System

/-! Separators on their way up while other clients work.

An insert owes every page that it splits off a place in a page one level up or below a
new root. A leaf split without a parent on `path_stack` looks for one from the root; a
split of an internal page runs into `assert(false)`.
-/

set_option autoImplicit false

namespace Faunus.Sherman

open Interleaving

variable {Key Value : Type}

/-! ## Pages -/

/-- Leaves are on level 0, and `last_index` of an internal page is at least -1. -/
def Page.Fit : Page Key → Prop
  | .leaf p => p.hdr.level = 0
  | .internal p => -1 ≤ p.hdr.lastIndex

section
variable [LinearOrder Key] {key : Key} {p : InternalPage Key} {v : GlobalAddress}

theorem findRecord_bound (records : ℕ → InternalEntry Key) (key : Key) (n : ℕ) :
    (∀ i, findRecord records key n = .update i → i < n ∧ (records i).key = key) ∧
      ∀ i, findRecord records key n = .insert i → i ≤ n := by
  induction n with
  | zero =>
    refine ⟨fun i found => ?_, fun i found => ?_⟩ <;> cases found
    exact le_refl 0
  | succ n ih =>
    unfold findRecord
    split_ifs with same less
    · refine ⟨fun i found => ?_, fun i found => ?_⟩ <;> cases found
      exact ⟨Nat.lt_succ_self n, same⟩
    · refine ⟨fun i found => ?_, fun i found => ?_⟩ <;> cases found
      exact le_refl _
    · refine ⟨fun i found => ?_, fun i found => ?_⟩
      · obtain ⟨bound, eq⟩ := ih.1 i found
        exact ⟨by omega, eq⟩
      · exact Nat.le_succ_of_le (ih.2 i found)

theorem withRecord_at (key : Key) (v : GlobalAddress) (fit : -1 ≤ p.hdr.lastIndex) :
    ∃ i < (p.withRecord key v).cnt, (p.withRecord key v).records i = ⟨key, v⟩ := by
  have found := findRecord_bound p.records key p.cnt
  unfold InternalPage.withRecord
  split
  · rename_i i eq
    obtain ⟨bound, same⟩ := found.1 i eq
    exact ⟨i, bound, by simp [same]⟩
  · rename_i i eq
    have bound := found.2 i eq
    refine ⟨i, ?_, by simp⟩
    simp only [InternalPage.cnt] at bound ⊢
    omega

theorem withRecord_fit (fit : -1 ≤ p.hdr.lastIndex) : (Page.internal (p.withRecord key v)).Fit := by
  unfold InternalPage.withRecord
  split
  · exact fit
  · simp only [Page.Fit]
    omega

omit [LinearOrder Key] in
theorem splitLeft_fit (some : 0 < p.cnt) (sibling : GlobalAddress) : (Page.internal (p.splitLeft sibling)).Fit := by
  simp only [Page.Fit, InternalPage.splitLeft, InternalPage.cnt] at some ⊢
  omega

variable [BoundedOrder Key]

theorem splitRight_fit : (Page.internal p.splitRight).Fit := by
  simp only [Page.Fit, InternalPage.splitRight]
  omega

/-- A split hands every record to one of the halves; the middle one becomes the leftmost child on the right. -/
theorem kids_split {i : ℕ} (inside : i < p.cnt) (sibling : GlobalAddress) :
    ((p.records i).key, (p.records i).ptr) ∈ (p.splitLeft sibling).kids ∨
    ((p.records i).key, (p.records i).ptr) ∈ p.splitRight.kids := by
  rcases Nat.lt_trichotomy i (p.cnt / 2) with low | rfl | high
  · refine .inl (.inr ⟨i, ?_, rfl⟩)
    simp only [InternalPage.cnt, InternalPage.splitLeft] at low inside ⊢
    omega
  · exact .inr (.inl rfl)
  · refine .inr (.inr ⟨i - (p.cnt / 2 + 1), ?_, ?_⟩)
    · simp only [InternalPage.cnt, InternalPage.splitRight] at high inside ⊢
      omega
    · simp only [InternalPage.splitRight]
      rw [if_pos (by omega), show p.cnt / 2 + 1 + (i - (p.cnt / 2 + 1)) = i by omega]

end

/-! ## What an insert owes -/

section
variable [LinearOrder Key] [BoundedOrder Key]

/-- The insert has put the page into a page one level up, or below a new root that it installed. -/
def Listed (done : List (Done Key Value)) (sib : GlobalAddress) (p : Page Key) : Prop :=
  (∃ a q, (⟨⟨.insertToInternal, .writePage a (.internal q)⟩, ()⟩ : Done Key Value) ∈ done ∧ q.hdr.level = p.hdr.level + 1 ∧
      (p.hdr.lowest, sib) ∈ q.kids) ∨
    ∃ a old left, (⟨⟨.updateRootOffset, .writePage a (.internal (.newRoot left p.hdr.lowest sib (p.hdr.level + 1)))⟩, ()⟩ :
      Done Key Value) ∈ done ∧
      (⟨⟨.updateRootOffset, .casRoot old a⟩, old⟩ : Done Key Value) ∈ done

omit [LinearOrder Key] [BoundedOrder Key] in
/-- The page was allocated for the right half of a leaf or of an internal page. -/
def SplitOff (done : List (Done Key Value)) (site : Site) (sib : GlobalAddress) : Prop :=
  (site = .insertToLeaf ∨ site = .insertToInternal) ∧ (⟨⟨site, .allocPage⟩, sib⟩ : Done Key Value) ∈ done

/-- Every page that was split off has been written and listed. -/
def AllListed (done : List (Done Key Value)) : Prop :=
  ∀ site sib, SplitOff done site sib → ∃ p, (⟨⟨site, .writePage sib p⟩, ()⟩ : Done Key Value) ∈ done ∧ Listed done sib p

/-- Only the page `v` that starts at `key` waits for a place on the level. -/
def Due (done : List (Done Key Value)) (key : Key) (v : GlobalAddress) (level : ℕ) : Prop :=
  ∀ site sib, SplitOff done site sib → ∃ p, (⟨⟨site, .writePage sib p⟩, ()⟩ : Done Key Value) ∈ done ∧
    (Listed done sib p ∨ sib = v ∧ p.hdr.lowest = key ∧ p.hdr.level + 1 = level)

/-- More was done, but no page was split off. -/
structure Extends (done done' : List (Done Key Value)) : Prop where
  more : done ⊆ done'
  quiet : ∀ site sib, SplitOff done' site sib → SplitOff done site sib

variable {done done' done'' : List (Done Key Value)} {key : Key} {v sib : GlobalAddress} {level : ℕ} {p : Page Key}

omit [LinearOrder Key] [BoundedOrder Key] in
theorem Extends.trans (one : Extends done done') (two : Extends done' done'') : Extends done done'' :=
  ⟨fun _ inside => two.more (one.more inside), fun site sib off => one.quiet site sib (two.quiet site sib off)⟩

omit [LinearOrder Key] [BoundedOrder Key] in
theorem Extends.cons {x : Done Key Value}
    (other : ∀ site sib, (site = .insertToLeaf ∨ site = .insertToInternal) → x ≠ ⟨⟨site, .allocPage⟩, sib⟩)
    (done : List (Done Key Value)) : Extends done (x :: done) := by
  refine ⟨List.subset_cons_self _ _, ?_⟩
  rintro site sib ⟨half, inside⟩
  rcases List.mem_cons.1 inside with here | before
  · exact absurd here.symm (other site sib half)
  · exact ⟨half, before⟩

theorem Listed.more (listed : Listed done sib p) (more : done ⊆ done') : Listed done' sib p := by
  rcases listed with ⟨a, q, wrote, level, kid⟩ | ⟨a, old, left, wrote, swapped⟩
  · exact .inl ⟨a, q, more wrote, level, kid⟩
  · exact .inr ⟨a, old, left, more wrote, more swapped⟩

theorem Due.extend (due : Due done key v level) (extends' : Extends done done') : Due done' key v level := by
  intro site sib off
  obtain ⟨p, wrote, state⟩ := due site sib (extends'.quiet site sib off)
  exact ⟨p, extends'.more wrote, state.imp_left fun listed => listed.more extends'.more⟩

theorem AllListed.extend (all : AllListed done) (extends' : Extends done done') : AllListed done' := by
  intro site sib off
  obtain ⟨p, wrote, listed⟩ := all site sib (extends'.quiet site sib off)
  exact ⟨p, extends'.more wrote, listed.more extends'.more⟩

theorem Due.allListed (due : Due done key v level)
    (listed : ∀ p : Page Key, p.hdr.lowest = key → p.hdr.level + 1 = level → Listed done v p) :
    AllListed done := by
  intro site sib off
  obtain ⟨p, wrote, already | ⟨rfl, lowest, under⟩⟩ := due site sib off
  · exact ⟨p, wrote, already⟩
  · exact ⟨p, wrote, listed p lowest under⟩

/-- The two halves of a page are written and the page is unlocked. -/
def splitDone (site : Site) (a new : GlobalAddress) (left right : Page Key) (done : List (Done Key Value)) : List (Done Key Value) :=
  ⟨⟨site, .unlock a⟩, ()⟩ :: ⟨⟨site, .writePage a left⟩, ()⟩ :: ⟨⟨site, .writePage new right⟩, ()⟩ ::
    ⟨⟨site, .allocPage⟩, new⟩ :: done

omit [LinearOrder Key] [BoundedOrder Key] in
theorem splitDone_more (site : Site) (a new : GlobalAddress) (left right : Page Key) (done : List (Done Key Value)) :
    done ⊆ splitDone site a new left right done := by
  intro x inside
  simp [splitDone, inside]

theorem due_splitDone {site : Site} {a new : GlobalAddress} {left right : Page Key}
    (before : ∀ site' sib, SplitOff done site' sib → ∃ p, (⟨⟨site', .writePage sib p⟩, ()⟩ : Done Key Value) ∈ done ∧
      Listed (splitDone site a new left right done) sib p) :
    Due (splitDone site a new left right done) right.hdr.lowest new (right.hdr.level + 1) := by
  rintro site' sib ⟨half, inside⟩
  simp only [splitDone, List.mem_cons] at inside
  rcases inside with here | here | here | here | old
  · cases here
  · cases here
  · cases here
  · cases here
    exact ⟨right, by simp [splitDone], .inr ⟨rfl, rfl, rfl⟩⟩
  · obtain ⟨p, wrote, listed⟩ := before site' sib ⟨half, old⟩
    exact ⟨p, splitDone_more site a new left right done wrote, .inl listed⟩

end

/-! ## The obligations of the operations -/

section
variable [LinearOrder Key] [BoundedOrder Key]

/-- `insert_to_internal` works on a page above which `path_stack` has none. -/
def AtTop (done : List (Done Key Value)) (a : GlobalAddress) : Prop :=
  ∃ p, heldOf done = some (a, p) ∧ pathOf done (p.hdr.level + 1) = .null

/-- No operation is the assertion, and only fit pages are written. -/
def fits (_ : List (Done Key Value)) (o : Op Key Value) : Prop :=
  o.act ≠ .assertFalse ∧ ∀ a p, o.act = .writePage a p → p.Fit

/-- A page above which the path has none is split only if it is the root that was read, and the root offset still has it. -/
def expects (done : List (Done Key Value)) (o : Op Key Value) (r : o.act.Reply) : Prop :=
  match o, r with
  | ⟨_, .readPage _⟩, p => Page.Fit p
  | ⟨.insertToInternal, .allocPage⟩, _ => ∀ a, AtTop done a → a = rootOf done
  | ⟨.updateRootOffset, .casRoot expected _⟩, found => ∀ a, AtTop done a → found = expected
  | _, _ => True

abbrev Keeps {A : Type} (post : A → List (Done Key Value) → Prop) (p : Index Key Value A) (done : List (Done Key Value)) : Prop :=
  p.Traced fits expects post done

section Verbs
variable {A : Type} {post : A → List (Done Key Value) → Prop} {done : List (Done Key Value)} {site : Site} {a : GlobalAddress}

omit [LinearOrder Key] [BoundedOrder Key] in
theorem keeps_readRoot {f : GlobalAddress → Index Key Value A} (next : ∀ r, Keeps post (f r) (⟨⟨site, .readRoot⟩, r⟩ :: done)) :
    Keeps post (readRoot site >>= f) done :=
  ⟨⟨by rintro ⟨⟩, by rintro _ _ ⟨⟩⟩, fun r _ => next r⟩

omit [LinearOrder Key] [BoundedOrder Key] in
theorem keeps_readPage {f : Page Key → Index Key Value A}
    (next : ∀ p : Page Key, p.Fit → Keeps post (f p) (⟨⟨site, .readPage a⟩, p⟩ :: done)) :
    Keeps post (readPage site a >>= f) done := by
  refine ⟨⟨by rintro ⟨⟩, by rintro _ _ ⟨⟩⟩, fun p fit => next p ?_⟩
  cases site <;> exact fit

omit [LinearOrder Key] [BoundedOrder Key] in
theorem keeps_writePage {f : Unit → Index Key Value A} {p : Page Key} (fit : p.Fit)
    (next : Keeps post (f ()) (⟨⟨site, .writePage a p⟩, ()⟩ :: done)) : Keeps post (writePage site a p >>= f) done := by
  refine ⟨⟨by rintro ⟨⟩, ?_⟩, fun _ _ => next⟩
  rintro _ _ ⟨⟩
  exact fit

omit [LinearOrder Key] [BoundedOrder Key] in
theorem keeps_lock {f : Unit → Index Key Value A} (next : Keeps post (f ()) (⟨⟨site, .lock a⟩, ()⟩ :: done)) :
    Keeps post (lock site a >>= f) done :=
  ⟨⟨by rintro ⟨⟩, by rintro _ _ ⟨⟩⟩, fun _ _ => next⟩

omit [LinearOrder Key] [BoundedOrder Key] in
theorem keeps_unlock {f : Unit → Index Key Value A} (next : Keeps post (f ()) (⟨⟨site, .unlock a⟩, ()⟩ :: done)) :
    Keeps post (unlock site a >>= f) done :=
  ⟨⟨by rintro ⟨⟩, by rintro _ _ ⟨⟩⟩, fun _ _ => next⟩

omit [LinearOrder Key] [BoundedOrder Key] in
theorem keeps_allocPage {f : GlobalAddress → Index Key Value A}
    (next : ∀ r, expects done ⟨site, .allocPage⟩ r → Keeps post (f r) (⟨⟨site, .allocPage⟩, r⟩ :: done)) :
    Keeps post (allocPage site >>= f) done :=
  ⟨⟨by rintro ⟨⟩, by rintro _ _ ⟨⟩⟩, next⟩

omit [LinearOrder Key] [BoundedOrder Key] in
theorem keeps_casRoot {f : GlobalAddress → Index Key Value A} {expected desired : GlobalAddress}
    (next : ∀ r, expects done ⟨site, .casRoot expected desired⟩ r → Keeps post (f r)
      (⟨⟨site, .casRoot expected desired⟩, r⟩ :: done)) :
    Keeps post (casRoot site expected desired >>= f) done :=
  ⟨⟨by rintro ⟨⟩, by rintro _ _ ⟨⟩⟩, next⟩

omit [LinearOrder Key] [BoundedOrder Key] in
theorem keeps_last {p : Index Key Value A} (keeps : Keeps post (p >>= pure) done) : Keeps post p done := by
  rwa [bind_pure] at keeps

end Verbs

end

/-! ## The way up -/

section
variable [LinearOrder Key] [BoundedOrder Key] {cfg : Config} {done : List (Done Key Value)} {key : Key} {v root : GlobalAddress}
  {level : ℕ} {path : PathStack}

/-- What `update_root_offset` leaves behind. -/
theorem keeps_updateRootOffset {A : Type} {post : A → List (Done Key Value) → Prop} {f : Bool → Index Key Value A}
    {left right : GlobalAddress}
    (next : ∀ ok done', Extends done done' → pathOf done' = pathOf done → rootOf done' = rootOf done →
      ((∀ a, ¬ AtTop done a) ∨ ok = true) →
      (ok = true → ∃ a, (⟨⟨.updateRootOffset, .writePage a (.internal (.newRoot left key right level))⟩, ()⟩ : Done Key Value)
        ∈ done' ∧
        (⟨⟨.updateRootOffset, .casRoot root a⟩, root⟩ : Done Key Value) ∈ done') → Keeps post (f ok) done') :
    Keeps post (updateRootOffset left key right level root >>= f) done := by
  rw [updateRootOffset, bind_assoc]
  refine keeps_allocPage fun new _ => ?_
  rw [bind_assoc]
  refine keeps_writePage ?_ ?_
  · simp [Page.Fit, InternalPage.newRoot]
  rw [bind_assoc]
  refine keeps_casRoot fun (found : GlobalAddress) expected => ?_
  rw [pure_bind]
  refine next _ _ ?_ rfl rfl ?_ fun same => ⟨new, ?_, ?_⟩
  · refine (Extends.cons ?_ done).trans ((Extends.cons ?_ _).trans (Extends.cons ?_ _))
    all_goals rintro site sib (rfl | rfl) ⟨⟩
  · by_cases top : ∃ a, AtTop done a
    · obtain ⟨a, top⟩ := top
      exact .inr (decide_eq_true (expected a top))
    · exact .inl fun a atTop => top ⟨a, atTop⟩
  · exact List.mem_cons_of_mem _ List.mem_cons_self
  · rw [of_decide_eq_true same]
    exact List.mem_cons_self

theorem keeps_propagate {a : GlobalAddress} {up fallback : Index Key Value Unit} (due : Due done key v (level + 1))
    (paths : pathOf done = path) (roots : rootOf done = root)
    (upward : ∀ done', Due done' key v (level + 1) → pathOf done' = path → rootOf done' = root → path (level + 1) ≠ .null →
      Keeps (fun _ done => AllListed done) up done')
    (otherwise : ∀ done', Due done' key v (level + 1) → pathOf done' = path → rootOf done' = root → path (level + 1) = .null →
      (root = a → ∀ b, ¬ AtTop done b) → Keeps (fun _ done => AllListed done) fallback done') :
    Keeps (fun _ done => AllListed done)
      (if root = a then updateRootOffset a key v (level + 1) root >>= fun done =>
          if done = true then pure () else if path (level + 1) ≠ .null then up else fallback
        else pure false >>= fun done => if done = true then pure () else if path (level + 1) ≠ .null then up else fallback)
          done := by
  -- what follows a split: a new root, the page above on the path, or else the fallback
  have rest : ∀ done', Due done' key v (level + 1) → pathOf done' = path → rootOf done' = root → (root = a → ∀ b, ¬ AtTop done b) →
      Keeps (fun _ done => AllListed done) (if path (level + 1) ≠ .null then up else fallback) done' := by
    intro done' due paths roots free
    by_cases above : path (level + 1) = .null
    · rw [if_neg (not_not.2 above)]
      exact otherwise done' due paths roots above free
    · rw [if_pos above]
      exact upward done' due paths roots above
  by_cases atRoot : root = a
  · rw [if_pos atRoot]
    refine keeps_updateRootOffset fun ok done' extends' paths' roots' failed swapped => ?_
    have due' := due.extend extends'
    cases ok with
    | true =>
      rw [if_pos rfl]
      obtain ⟨b, wrote, swap⟩ := swapped rfl
      refine due'.allListed fun p lowest under => .inr ⟨b, root, a, ?_, swap⟩
      rw [lowest, under]
      exact wrote
    | false =>
      rw [if_neg Bool.false_ne_true]
      exact rest done' due' (paths'.trans paths) (roots'.trans roots) fun _ => failed.resolve_right Bool.false_ne_true
  · rw [if_neg atRoot, pure_bind, if_neg Bool.false_ne_true]
    exact rest done due paths roots fun same => absurd same atRoot

theorem internal_listed (a new : GlobalAddress) {p : InternalPage Key} {i : ℕ} (due : Due done key v level) (inside : i < p.cnt)
    (at' : p.records i = ⟨key, v⟩) (on : p.hdr.level = level) (site : Site) (sib : GlobalAddress) (off : SplitOff done site sib) :
    ∃ q, (⟨⟨site, .writePage sib q⟩, ()⟩ : Done Key Value) ∈ done ∧
      Listed (splitDone .insertToInternal a new (.internal (p.splitLeft new)) (.internal p.splitRight) done) sib q := by
  obtain ⟨q, wrote, already | ⟨rfl, lowest, under⟩⟩ := due site sib off
  · exact ⟨q, wrote, already.more (splitDone_more _ _ _ _ _ _)⟩
  · refine ⟨q, wrote, .inl ?_⟩
    have kid := kids_split inside new
    rw [at', ← lowest] at kid
    rcases kid with left | right
    · exact ⟨a, p.splitLeft new, by simp [splitDone], on.trans under.symm, left⟩
    · exact ⟨new, p.splitRight, by simp [splitDone], on.trans under.symm, right⟩

/-- The separator of the page that waits is put into a page of the level, and the page that this splits off waits next. -/
theorem keeps_insertToInternal {bound : ℕ} {a : GlobalAddress} (due : Due done key v level) (positive : 0 < level)
    (paths : pathOf done = path) (roots : rootOf done = root) :
    Keeps (fun _ done => AllListed done) (insertToInternal cfg key v root level path bound a) done := by
  induction bound generalizing done key v level a with
  | zero => trivial
  | succ bound ih =>
    unfold insertToInternal
    rw [lockAndReadPage, bind_assoc]
    refine keeps_lock (keeps_readPage fun page fit => ?_)
    have read : Extends done (⟨⟨.insertToInternal, .readPage a⟩, page⟩ :: ⟨⟨.insertToInternal, .lock a⟩, ()⟩ :: done) := by
      refine (Extends.cons ?_ done).trans (Extends.cons ?_ _)
      all_goals rintro site sib (rfl | rfl) ⟨⟩
    by_cases on : page.hdr.level = level
    swap
    · rw [if_pos on]
      trivial
    rw [if_neg (not_not.2 on)]
    by_cases behind : page.hdr.highest ≤ key
    · rw [if_pos behind]
      refine keeps_unlock ?_
      by_cases last : page.hdr.siblingPtr = .null
      · rw [if_pos last]
        trivial
      · rw [if_neg last]
        refine ih (due.extend (read.trans (Extends.cons ?_ _))) positive paths roots
        rintro site sib (rfl | rfl) ⟨⟩
    rw [if_neg behind]
    by_cases low : key < page.hdr.lowest
    · rw [if_pos low]
      trivial
    rw [if_neg low]
    -- a page above the leaves is an internal page
    obtain ⟨n, rfl⟩ : ∃ n, page = .internal n := by
      cases page with
      | leaf n =>
        have bottom : n.hdr.level = 0 := fit
        have same : n.hdr.level = level := on
        omega
      | internal n => exact ⟨n, rfl⟩
    have inFit : -1 ≤ n.hdr.lastIndex := fit
    obtain ⟨i, inside, at'⟩ := withRecord_at key v inFit
    have face : (n.withRecord key v).hdr.level = level := (withRecord_face n).level.trans on
    dsimp only [Page.asInternal]
    by_cases old : n.cnt = cfg.internalCardinality
    · rw [if_pos old]
      trivial
    rw [if_neg old]
    by_cases full : (n.withRecord key v).cnt = cfg.internalCardinality
    swap
    · -- there was room
      rw [if_pos full, writePageAndUnlock]
      refine keeps_last ?_
      rw [bind_assoc]
      refine keeps_writePage (withRecord_fit inFit) (keeps_unlock ?_)
      have extends' := read.trans
        ((Extends.cons (x := ⟨⟨.insertToInternal, .writePage a (.internal (n.withRecord key v))⟩, ()⟩) ?_ _).trans
        (Extends.cons (x := ⟨⟨.insertToInternal, .unlock a⟩, ()⟩) ?_ _))
      · refine (due.extend extends').allListed fun p lowest under => .inl ⟨a, n.withRecord key v, by simp, by rw [face, under], ?_⟩
        exact .inr ⟨i, inside, by rw [at', lowest]⟩
      all_goals rintro site sib (rfl | rfl) ⟨⟩
    rw [if_neg (not_not.2 full)]
    refine keeps_allocPage fun (new : GlobalAddress) expected => ?_
    by_cases outside : (n.withRecord key v).splitKey ≤ (n.withRecord key v).hdr.lowest ∨
      (n.withRecord key v).hdr.highest ≤ (n.withRecord key v).splitKey
    · rw [if_pos outside]
      trivial
    rw [if_neg outside]
    by_cases cycle : new = a ∨ (n.withRecord key v).hdr.siblingPtr = a ∨ (n.withRecord key v).hdr.siblingPtr = new
    · rw [if_pos cycle]
      trivial
    rw [if_neg cycle]
    refine keeps_writePage splitRight_fit ?_
    rw [writePageAndUnlock, bind_assoc]
    refine keeps_writePage (splitLeft_fit (Nat.lt_of_le_of_lt (Nat.zero_le i) inside) new) (keeps_unlock ?_)
    have due' := due_splitDone (internal_listed a new (due.extend read) inside at' face)
    rw [show (Page.internal (n.withRecord key v).splitRight).hdr.level = level from face] at due'
    refine keeps_propagate due' paths roots ?_ ?_
    · intro done' due paths roots above
      exact ih due (Nat.succ_pos level) paths roots
    · intro done' due paths' roots' above free
      -- without a page above, this page is the root that was read and has been replaced
      have atTop : AtTop (⟨⟨.insertToInternal, .readPage a⟩, .internal n⟩ :: ⟨⟨.insertToInternal, .lock a⟩, ()⟩ :: done) a := by
        refine ⟨.internal n, rfl, ?_⟩
        rw [on]
        exact (congrFun paths (level + 1)).trans above
      have isRoot : a = root := (expected a atTop).trans roots
      exact absurd atTop (free isRoot.symm a)

/-! ## Descending -/

/-- Operations that neither descend nor split. -/
structure Calm (done done' : List (Done Key Value)) : Prop where
  extends' : Extends done done'
  path : pathOf done' = pathOf done
  root : rootOf done' = rootOf done

omit [LinearOrder Key] [BoundedOrder Key] in
theorem Calm.refl (done : List (Done Key Value)) : Calm done done := ⟨⟨fun _ inside => inside, fun _ _ off => off⟩, rfl, rfl⟩

omit [LinearOrder Key] [BoundedOrder Key] in
theorem Calm.trans {done' done'' : List (Done Key Value)} (one : Calm done done') (two : Calm done' done'') : Calm done done'' :=
  ⟨one.extends'.trans two.extends', two.path.trans one.path, two.root.trans one.root⟩

omit [LinearOrder Key] [BoundedOrder Key] in
theorem calm_readItem (site : Site) (a : GlobalAddress) (item : KVItem Key Value) (done : List (Done Key Value)) :
    Calm done (⟨⟨site, .readItem a⟩, item⟩ :: done) := by
  refine ⟨.cons (by rintro _ _ (rfl | rfl) ⟨⟩) done, ?_, ?_⟩
  all_goals cases site <;> rfl

omit [LinearOrder Key] [BoundedOrder Key] in
theorem calm_writeItem (site : Site) (a : GlobalAddress) (item : KVItem Key Value) (done : List (Done Key Value)) :
    Calm done (⟨⟨site, .writeItem a item⟩, ()⟩ :: done) := by
  refine ⟨.cons (by rintro _ _ (rfl | rfl) ⟨⟩) done, ?_, ?_⟩
  all_goals cases site <;> rfl

omit [LinearOrder Key] [BoundedOrder Key] in
theorem calm_allocItem (site : Site) (a : GlobalAddress) (done : List (Done Key Value)) :
    Calm done (⟨⟨site, .allocItem⟩, a⟩ :: done) := by
  refine ⟨.cons (by rintro _ _ (rfl | rfl) ⟨⟩) done, ?_, ?_⟩
  all_goals cases site <;> rfl

section Items
variable {A : Type} {post : A → List (Done Key Value) → Prop} {site : Site} {a : GlobalAddress}

omit [LinearOrder Key] [BoundedOrder Key] in
theorem keeps_readItem {f : KVItem Key Value → Index Key Value A}
    (next : ∀ item done', Calm done done' → Keeps post (f item) done') : Keeps post (readItem site a >>= f) done :=
  ⟨⟨by rintro ⟨⟩, by rintro _ _ ⟨⟩⟩, fun item _ => next item _ (calm_readItem site a item done)⟩

omit [LinearOrder Key] [BoundedOrder Key] in
theorem keeps_writeItem {f : Unit → Index Key Value A} {item : KVItem Key Value}
    (next : ∀ done', Calm done done' → Keeps post (f ()) done') : Keeps post (writeItem site a item >>= f) done :=
  ⟨⟨by rintro ⟨⟩, by rintro _ _ ⟨⟩⟩, fun _ _ => next _ (calm_writeItem site a item done)⟩

omit [LinearOrder Key] [BoundedOrder Key] in
theorem keeps_allocItem {f : GlobalAddress → Index Key Value A}
    (next : ∀ r done', Calm done done' → Keeps post (f r) done') : Keeps post (allocItem site >>= f) done :=
  ⟨⟨by rintro ⟨⟩, by rintro _ _ ⟨⟩⟩, fun r _ => next r _ (calm_allocItem site r done)⟩

omit [LinearOrder Key] [BoundedOrder Key] in
theorem keeps_writeEntry {f : Unit → Index Key Value A} {i : ℕ} {r : LeafEntry}
    (next : Keeps post (f ()) (⟨⟨site, .writeEntry a i r⟩, ()⟩ :: done)) : Keeps post (writeEntry site a i r >>= f) done :=
  ⟨⟨by rintro ⟨⟩, by rintro _ _ ⟨⟩⟩, fun _ _ => next⟩

end Items

variable [KeyBytes Key] [Bot Value] [DecidableEq Value]

omit [BoundedOrder Key] [Bot Value] [DecidableEq Value] in
theorem keeps_searchRecords {page : LeafPage Key} {slots : List ℕ} :
    Keeps (fun _ done' => Calm done done') (searchRecords key page slots : Index Key Value (Option Value)) done := by
  induction slots generalizing done with
  | nil => exact Calm.refl done
  | cons i rest ih =>
    unfold searchRecords
    split_ifs
    · refine keeps_readItem fun item done' calm => ?_
      split_ifs
      · exact calm
      · exact traced_mono ih fun _ _ more => calm.trans more
    · exact ih

omit [Bot Value] [DecidableEq Value] in
theorem keeps_searchNode {A : Type} {post : A → List (Done Key Value) → Prop} {a : GlobalAddress} {result : SearchResult Value}
    {f : SearchResult Value × PathStack → Index Key Value A} (paths : pathOf done = path)
    (next : ∀ r done', Extends done done' → pathOf done' = r.2 → rootOf done' = rootOf done → Keeps post (f r) done') :
    Keeps post (searchNode cfg a key result path >>= f) done := by
  rw [searchNode, bind_assoc]
  refine keeps_readPage fun page fit => ?_
  have here : Extends done (⟨⟨.searchNode, .readPage a⟩, page⟩ :: done) := .cons (by rintro _ _ (rfl | rfl) ⟨⟩) done
  have path' : pathOf (⟨⟨.searchNode, .readPage a⟩, page⟩ :: done) = Function.update path page.hdr.level a := by
    rw [← paths]
    rfl
  refine traced_bind ?_
  dsimp only [searchPage]
  split_ifs
  any_goals trivial
  · exact next _ _ here path' rfl
  · refine traced_bind (traced_mono keeps_searchRecords ?_)
    rintro (_ | value) done' calm
    all_goals exact next _ _ (here.trans calm.extends') (calm.path.trans path') calm.root
  · exact next _ _ here path' rfl

omit [Bot Value] [DecidableEq Value] in
theorem keeps_searchAndInsertLoop {bound : ℕ} {a : GlobalAddress} {result : SearchResult Value} (due : Due done key v level)
    (positive : 0 < level) (paths : pathOf done = path) (roots : rootOf done = root) :
    Keeps (fun _ done => AllListed done) (searchAndInsertLoop cfg key v root level bound a result path) done := by
  induction bound generalizing done a result path with
  | zero => trivial
  | succ bound ih =>
    unfold searchAndInsertLoop
    refine keeps_searchNode paths fun r done' extends' paths' roots' => ?_
    have due' := due.extend extends'
    dsimp only
    split_ifs
    any_goals trivial
    · exact keeps_insertToInternal due' positive paths' (roots'.trans roots)
    · exact ih due' paths' (roots'.trans roots)
    · exact ih due' paths' (roots'.trans roots)
    · exact keeps_insertToInternal due' positive paths' (roots'.trans roots)

omit [DecidableEq Value] in
theorem keeps_searchAndInsertToInternal (due : Due done key v level) (positive : 0 < level) (paths : pathOf done = path) :
    Keeps (fun _ done => AllListed done) (searchAndInsertToInternal cfg key v level path) done := by
  unfold searchAndInsertToInternal
  refine keeps_readRoot fun r => ?_
  exact keeps_searchAndInsertLoop (due.extend (.cons (by rintro _ _ (rfl | rfl) ⟨⟩) done)) positive paths rfl

/-! ## Inserting -/

omit [LinearOrder Key] [BoundedOrder Key] [KeyBytes Key] [Bot Value] [DecidableEq Value] in
theorem keeps_readKeyed {page : LeafPage Key} {slots : List ℕ} :
    Keeps (fun _ done' => Calm done done') (readKeyed page slots : Index Key Value (List (Key × LeafEntry))) done := by
  induction slots generalizing done with
  | nil => exact Calm.refl done
  | cons i rest ih =>
    unfold readKeyed
    refine keeps_readItem fun item done' calm => ?_
    exact traced_bind (traced_mono ih fun _ _ more => calm.trans more)

omit [BoundedOrder Key] [Bot Value] [DecidableEq Value] in
theorem keeps_scanRecords {page : LeafPage Key} {value : Value} {slots : List ℕ} {cnt : ℕ} {emptyIndex : Option ℕ} :
    Keeps (fun _ done' => Calm done done') (scanRecords key value page slots cnt emptyIndex) done := by
  induction slots generalizing done cnt emptyIndex with
  | nil => exact Calm.refl done
  | cons i rest ih =>
    unfold scanRecords
    split_ifs
    · exact ih
    · refine keeps_readItem fun item done' calm => ?_
      split_ifs
      · exact keeps_writeItem fun done'' more => calm.trans more
      · exact traced_mono ih fun _ _ more => calm.trans more
    · exact ih

omit [KeyBytes Key] [Bot Value] [DecidableEq Value] in
theorem leaf_listed (site : Site) (a new : GlobalAddress) (left right : Page Key) (all : AllListed done) (site' : Site)
    (sib : GlobalAddress) (off : SplitOff done site' sib) :
    ∃ p, (⟨⟨site', .writePage sib p⟩, ()⟩ : Done Key Value) ∈ done ∧ Listed (splitDone site a new left right done) sib p := by
  obtain ⟨p, wrote, listed⟩ := all site' sib off
  exact ⟨p, wrote, listed.more (splitDone_more _ _ _ _ _ _)⟩

omit [DecidableEq Value] in
theorem keeps_splitLeafPage {a : GlobalAddress} {page : LeafPage Key} {cnt : ℕ} (all : AllListed done) (bottom : page.hdr.level = 0)
    (paths : pathOf done = path) (roots : rootOf done = root) :
    Keeps (fun _ done => AllListed done) (splitLeafPage cfg a page cnt root 0 path : Index Key Value Unit) done := by
  unfold splitLeafPage
  refine traced_bind (traced_mono keeps_readKeyed fun keyed done' calm => ?_)
  dsimp only
  by_cases miscounted : (sortByKey keyed).length = cnt
  swap
  · rw [if_pos miscounted]
    trivial
  rw [if_neg (not_not.2 miscounted)]
  refine keeps_allocPage fun (new : GlobalAddress) _ => ?_
  split
  · trivial
  rename_i splitKey _ _
  by_cases outside : splitKey ≤ page.hdr.lowest ∨ page.hdr.highest ≤ splitKey
  · rw [if_pos outside]
    trivial
  rw [if_neg outside]
  by_cases cycle : new = a ∨ page.hdr.siblingPtr = a ∨ page.hdr.siblingPtr = new
  · rw [if_pos cycle]
    trivial
  rw [if_neg cycle]
  refine keeps_writePage bottom ?_
  rw [writePageAndUnlock, bind_assoc]
  refine keeps_writePage bottom (keeps_unlock ?_)
  have due := due_splitDone (leaf_listed .insertToLeaf a new (.leaf (page.splitLeft (sortByKey keyed) splitKey new))
    (.leaf (page.splitRight (sortByKey keyed) splitKey)) (all.extend calm.extends'))
  rw [show (Page.leaf (page.splitRight (sortByKey keyed) splitKey)).hdr.level = 0 from bottom] at due
  refine keeps_propagate due (calm.path.trans paths) (calm.root.trans roots) ?_ ?_
  · intro done'' due paths roots _
    exact keeps_insertToInternal due Nat.one_pos paths roots
  · intro done'' due paths _ _ _
    exact keeps_searchAndInsertToInternal due Nat.one_pos paths

omit [DecidableEq Value] in
theorem keeps_insertToLeaf {bound : ℕ} {a : GlobalAddress} {value : Value} (all : AllListed done) (paths : pathOf done = path)
    (roots : rootOf done = root) :
    Keeps (fun _ done => AllListed done) (insertToLeaf cfg key value root 0 path bound a) done := by
  induction bound generalizing done a with
  | zero => trivial
  | succ bound ih =>
    unfold insertToLeaf
    rw [lockAndReadPage, bind_assoc]
    refine keeps_lock (keeps_readPage fun page fit => ?_)
    have read : Calm done (⟨⟨.insertToLeaf, .readPage a⟩, page⟩ :: ⟨⟨.insertToLeaf, .lock a⟩, ()⟩ :: done) := by
      refine ⟨(Extends.cons ?_ done).trans (Extends.cons ?_ _), rfl, rfl⟩
      all_goals rintro site sib (rfl | rfl) ⟨⟩
    by_cases on : page.hdr.level = 0
    swap
    · rw [if_pos on]
      trivial
    rw [if_neg (not_not.2 on)]
    by_cases behind : page.hdr.highest ≤ key
    · rw [if_pos behind]
      refine keeps_unlock ?_
      by_cases last : page.hdr.siblingPtr = .null
      · rw [if_pos last]
        trivial
      · rw [if_neg last]
        refine ih (all.extend (read.extends'.trans (Extends.cons ?_ _))) paths roots
        rintro site sib (rfl | rfl) ⟨⟩
    rw [if_neg behind]
    by_cases low : key < page.hdr.lowest
    · rw [if_pos low]
      trivial
    rw [if_neg low]
    refine traced_bind (traced_mono keeps_scanRecords ?_)
    rintro (_ | ⟨cnt, _ | i⟩) done' calm
    · -- the key was there
      refine keeps_last (keeps_unlock ?_)
      refine all.extend (read.extends'.trans (calm.extends'.trans (Extends.cons ?_ _)))
      rintro site sib (rfl | rfl) ⟨⟩
    · trivial
    dsimp only
    by_cases filled : cnt = cfg.leafCardinality
    · rw [if_pos filled]
      trivial
    rw [if_neg filled]
    refine keeps_allocItem fun item done₁ calm₁ => keeps_writeItem fun done₂ calm₂ => ?_
    have calm' := read.trans (calm.trans (calm₁.trans calm₂))
    by_cases full : cnt + 1 = cfg.leafCardinality
    · rw [if_neg (not_not.2 full)]
      have bottom : page.asLeaf.hdr.level = 0 := by
        cases page <;> exact on
      exact keeps_splitLeafPage (all.extend calm'.extends') bottom (calm'.path.trans paths) (calm'.root.trans roots)
    · -- there was room
      rw [if_pos full]
      refine keeps_writeEntry (keeps_last (keeps_unlock ?_))
      refine all.extend (calm'.extends'.trans ((Extends.cons ?_ _).trans (Extends.cons ?_ _)))
      all_goals rintro site sib (rfl | rfl) ⟨⟩

omit [DecidableEq Value] in
theorem keeps_insertLoop {retries : ℕ} {a : GlobalAddress} {value : Value} {result : SearchResult Value} (all : AllListed done)
    (paths : pathOf done = path) (roots : rootOf done = root) :
    Keeps (fun _ done => AllListed done) (insertLoop cfg key value root retries a result path) done := by
  induction retries generalizing done a result path with
  | zero => exact all
  | succ retries ih =>
    unfold insertLoop
    refine keeps_searchNode paths fun r done' extends' paths' roots' => ?_
    have all' := all.extend extends'
    dsimp only
    split_ifs
    any_goals trivial
    · exact traced_bind (keeps_insertToLeaf all' paths' (roots'.trans roots))
    · exact ih all' paths' (roots'.trans roots)
    · exact ih all' paths' (roots'.trans roots)
    · exact traced_bind (keeps_insertToLeaf all' paths' (roots'.trans roots))

theorem keeps_readLoop {bound : ℕ} {a : GlobalAddress} {result : SearchResult Value} (all : AllListed done)
    (paths : pathOf done = path) :
    Keeps (fun _ done => AllListed done) (readLoop cfg key bound a result path) done := by
  induction bound generalizing done a result path with
  | zero => trivial
  | succ bound ih =>
    unfold readLoop
    refine keeps_searchNode paths fun r done' extends' paths' _ => ?_
    have all' := all.extend extends'
    dsimp only
    split_ifs
    · exact all'
    · exact ih all' paths'
    · exact all'
    · exact ih all' paths'
    · exact ih all' paths'

omit [KeyBytes Key] [Bot Value] [DecidableEq Value] in
theorem allListed_nil : AllListed ([] : List (Done Key Value)) := by
  rintro site sib ⟨_, inside⟩
  cases inside

theorem keeps_body (call : Call Key Value) : Keeps (fun _ done => AllListed done) (call.body cfg) [] := by
  have start : ∀ site (r : GlobalAddress), AllListed ([⟨⟨site, .readRoot⟩, r⟩] : List (Done Key Value)) := fun site r =>
    allListed_nil.extend (.cons (by rintro _ _ (rfl | rfl) ⟨⟩) [])
  cases call with
  | insert key value =>
    dsimp only [Call.body, Sherman.insert]
    rw [bind_assoc]
    exact keeps_readRoot fun r => traced_bind (keeps_insertLoop (start _ r) rfl rfl)
  | read key =>
    dsimp only [Call.body, Sherman.read]
    rw [bind_assoc]
    exact keeps_readRoot fun r => traced_bind (keeps_readLoop (start _ r) rfl)

end

/-! ## Runs -/

section
variable [LinearOrder Key] [BoundedOrder Key]

/-- An insert splits a page above which its path has none only if this is the root that it
read, and replaces the root only while the root offset has that page. -/
def Timely : Condition (signature Key Value) ℕ (State Key Value) :=
  fun t o _ s =>
    match o with
    | ⟨.insertToInternal, .allocPage⟩ => ∀ a, AtTop (operations t s.history) a → a = rootOf (operations t s.history)
    | ⟨.updateRootOffset, .casRoot expected _⟩ => (∃ a, AtTop (operations t s.history) a) → s.memory.rootOffset = expected
    | _ => True

/-- All pages are fit, and every call that returned has listed what it split off. -/
structure Propagated (s : State Key Value) : Prop where
  fit : ∀ a p, s.memory.pages a = some p → p.Fit
  listed : ∀ t call outcome later before, s.history = later ++ .returned t call outcome :: before → AllListed (operations t before)

theorem Propagated.cons {s s' : State Key Value} {event : Event Key Value} (propagated : Propagated s)
    (fit : ∀ a p, s'.memory.pages a = some p → p.Fit) (history : s'.history = event :: s.history)
    (now : ∀ t call outcome, event = .returned t call outcome → AllListed (operations t s.history)) : Propagated s' := by
  refine ⟨fit, fun t call outcome later before eq => ?_⟩
  rw [history] at eq
  cases later with
  | nil =>
    obtain ⟨returned, rfl⟩ := List.cons.inj eq
    exact now t call outcome returned
  | cons first rest =>
    obtain ⟨-, eq⟩ := List.cons.inj eq
    exact propagated.listed t call outcome rest before eq

variable {cfg : Config}

omit [LinearOrder Key] [BoundedOrder Key] in
theorem exec_pages {t : ℕ} {o : Op Key Value} {c : BitVec 64} {m m' : Memory Key Value} {r : o.act.Reply}
    (performed : Memory.exec t o c m = some (r, m')) :
    m'.pages = m.pages ∨ (∃ a p, o.act = .writePage a p ∧ m' = m.setPage a p) ∨
      ∃ a p i r, m.pages a = some (.leaf p) ∧ m' = m.setPage a (.leaf (p.setRecord i r)) := by
  -- what an operation does to the pages
  obtain ⟨site, act⟩ := o
  cases act with
  | writePage a p =>
    cases performed
    exact .inr (.inl ⟨a, p, rfl, rfl⟩)
  | writeEntry a i r =>
    simp only [Memory.exec] at performed
    split at performed
    · rename_i p there
      cases performed
      exact .inr (.inr ⟨a, p, i, r, there, rfl⟩)
    · cases performed
  | readRoot =>
    cases performed
    exact .inl rfl
  | unlock a =>
    cases performed
    exact .inl rfl
  | readItem a =>
    cases performed
    exact .inl rfl
  | writeItem a item =>
    cases performed
    exact .inl rfl
  | assertFalse => cases performed
  | casRoot expected desired =>
    simp only [Memory.exec] at performed
    split at performed <;> cases performed <;> exact .inl rfl
  | readPage a =>
    simp only [Memory.exec] at performed
    split at performed <;> cases performed
    exact .inl rfl
  | lock a =>
    simp only [Memory.exec] at performed
    split at performed <;> cases performed
    exact .inl rfl
  | allocPage =>
    simp only [Memory.exec] at performed
    split at performed <;> cases performed
    exact .inl rfl
  | allocItem =>
    simp only [Memory.exec] at performed
    split at performed <;> cases performed
    exact .inl rfl

omit [LinearOrder Key] [BoundedOrder Key] in
/-- A property of pages that does not look at the records of leaves holds of what an operation leaves in memory if it holds of what
the operation writes. -/
theorem exec_forall {good : Page Key → Prop} (records : ∀ p i r, good (.leaf p) → good (.leaf (p.setRecord i r))) {t : ℕ}
    {o : Op Key Value} {c : BitVec 64} {m m' : Memory Key Value} {r : o.act.Reply}
    (holds : ∀ a p, m.pages a = some p → good p) (performed : Memory.exec t o c m = some (r, m'))
    (writes : ∀ a p, o.act = .writePage a p → good p) (a : GlobalAddress) (p : Page Key)
    (found : m'.pages a = some p) : good p := by
  rcases exec_pages performed with same | ⟨b, q, act, rfl⟩ | ⟨b, q, i, r, there, rfl⟩
  · exact holds a p (same ▸ found)
  · rcases setPage_cases found with ⟨rfl, rfl⟩ | ⟨_, old⟩
    · exact writes a p act
    · exact holds a p old
  · rcases setPage_cases found with ⟨rfl, rfl⟩ | ⟨_, old⟩
    · exact records q i r (holds a (.leaf q) there)
    · exact holds a p old

omit [LinearOrder Key] [BoundedOrder Key] in
theorem exec_readPage {t : ℕ} {site : Site} {a : GlobalAddress} {c : BitVec 64} {m m' : Memory Key Value} {p : Page Key}
    (performed : Memory.exec t ⟨site, .readPage a⟩ c m = some (p, m')) : m.pages a = some p := by
  simp only [Memory.exec] at performed
  split at performed <;> cases performed
  assumption

omit [LinearOrder Key] [BoundedOrder Key] in
theorem exec_expects {t : ℕ} {o : Op Key Value} {c : BitVec 64} {s : State Key Value} {m' : Memory Key Value} {r : o.act.Reply}
    (fit : ∀ a p, s.memory.pages a = some p → p.Fit) (performed : Memory.exec t o c s.memory = some (r, m'))
    (timely : Timely t o r s) :
    expects (operations t s.history) o r := by
  -- fit memory and a timely step give the expected reply
  obtain ⟨site, act⟩ := o
  cases act with
  | readPage a =>
    have there : s.memory.pages a = some r := exec_readPage performed
    cases site <;> exact fit a r there
  | allocPage =>
    cases site with
    | insertToInternal => exact timely
    | _ => trivial
  | casRoot expected desired =>
    cases site with
    | updateRootOffset =>
      intro a atTop
      have same := timely ⟨a, atTop⟩
      simp only [Memory.exec, if_pos same] at performed
      cases performed
      exact same
    | _ => trivial
  | _ => cases site <;> trivial

variable [KeyBytes Key] [Bot Value] [DecidableEq Value]

theorem upholds_propagated : Upholds (system cfg) (fun t (s : State Key Value) => operations t s.history) Propagated fits expects
    (fun _ _ done => AllListed done) Timely where
  invoke t call s propagated := propagated.cons propagated.fit rfl (by rintro _ _ _ ⟨⟩)
  act t o c s r s' propagated performed timely fit := by
    obtain ⟨performed, history⟩ := State.exec_eq_some performed
    refine ⟨propagated.cons (exec_forall (fun _ _ _ fit => fit) propagated.fit performed fit.2) history (by rintro _ _ _ ⟨⟩), ?_⟩
    exact exec_expects propagated.fit performed timely
  finish t call a s propagated all := by
    refine propagated.cons propagated.fit rfl ?_
    rintro u _ _ ⟨⟩
    exact all
  env s s' propagated moved := moved.elim

/-- As long as the steps are timely, every page that a call split off has its place when the call returns, and no insert
comes to `assert(false)`. -/
theorem separators_propagate {m : Memory Key Value}
    {P : Pool (signature Key Value) ℕ (Call Key Value) (Outcome Value) (State Key Value)}
    (fit : ∀ a p, m.pages a = some p → p.Fit) (run : Reaches (system cfg) Timely (Pool.start ⟨m, []⟩) P) :
    (∀ t call outcome later before, P.shared.history = later ++ .returned t call outcome :: before →
      AllListed (operations t before)) ∧
      ∀ t call site next done, P.threads t ≠ some ⟨call, .perform ⟨site, .assertFalse⟩ next, done⟩ := by
  have start : Propagated (⟨m, []⟩ : State Key Value) := ⟨fit, fun t call outcome later before eq => by simp at eq⟩
  have keeping := keeping_reaches (recorded_operations cfg) upholds_propagated (fun _ _ call _ => keeps_body call) start run
  refine ⟨keeping.holds.listed, fun t call site next done runs => ?_⟩
  exact (keeping.running t _ runs).2.1.1 rfl

end

def narrow : Config := ⟨3, 2, 4, 7⟩

def isTimely : Test (signature (Fin 256) (Fin 256)) ℕ (State (Fin 256) (Fin 256)) := fun t o _ s =>
  match o with
  | ⟨.insertToInternal, .allocPage⟩ => (heldOf (operations t s.history)).all fun (a, p) =>
    decide (pathOf (operations t s.history) (p.hdr.level + 1) ≠ .null ∨ a = rootOf (operations t s.history))
  | ⟨.updateRootOffset, .casRoot expected _⟩ => decide (s.memory.rootOffset = expected)
  | _ => true

theorem timely_of_isTimely (t : ℕ) (o : Op (Fin 256) (Fin 256)) (r : o.act.Reply) (s : State (Fin 256) (Fin 256))
    (allowed : isTimely t o r s = true) :
    Timely t o r s := by
  obtain ⟨site, act⟩ := o
  cases act with
  | allocPage =>
    cases site with
    | insertToInternal =>
      rintro a ⟨p, held, top⟩
      simp only [isTimely, held] at allowed
      exact (of_decide_eq_true allowed).resolve_left (not_not.2 top)
    | _ => trivial
  | casRoot expected desired =>
    cases site with
    | updateRootOffset => exact fun _ => of_decide_eq_true allowed
    | _ => trivial
  | _ => cases site <;> trivial

def insertAt (key : Fin 256) (from' steps : ℕ) : List (Move ℕ (BitVec 64) (Call (Fin 256) (Fin 256))) :=
  .invoke 0 (.insert key key) :: (addresses from' steps).map (.act 0) ++ [.return 0]

/-- A client inserts four keys; the last one splits a leaf, the root, and needs a new root. -/
def fourKeysPool : Pool (signature (Fin 256) (Fin 256)) ℕ (Call (Fin 256) (Fin 256)) (Outcome (Fin 256))
    (State (Fin 256) (Fin 256)) :=
  (Pool.start ⟨blank.planted ⟨1⟩, []⟩).drive (system narrow) (fun _ _ _ => true) isTimely
    (insertAt firstKey 100 8 ++ insertAt secondKey 150 15 ++ insertAt thirdKey 200 16 ++ insertAt fourthKey 250 21)

theorem reaches_fourKeys : Reaches (system narrow) Timely (Pool.start ⟨blank.planted ⟨1⟩, []⟩) fourKeysPool :=
  reaches_drive (fun _ _ _ _ => trivial) timely_of_isTimely _ _

/-- The page was allocated to split an internal page. -/
def splitsInternal : Done (Fin 256) (Fin 256) → Bool
  | ⟨⟨.insertToInternal, .allocPage⟩, _⟩ => true
  | _ => false

theorem of_splitsInternal {done : List (Done (Fin 256) (Fin 256))} (any : done.any splitsInternal = true) :
    ∃ sib, SplitOff done .insertToInternal sib := by
  obtain ⟨e, inside, splits⟩ := List.any_eq_true.1 any
  unfold splitsInternal at splits
  split at splits
  · exact ⟨_, .inr rfl, inside⟩
  · cases splits

def lastReturn : List (Event (Fin 256) (Fin 256)) → Bool
  | .returned t _ outcome :: before => outcome.ok && (operations t before).any splitsInternal
  | _ => false

theorem of_lastReturn {history : List (Event (Fin 256) (Fin 256))} (last : lastReturn history = true) : ∃ t call outcome before,
    history = .returned t call outcome :: before ∧ outcome.ok = true ∧ (operations t before).any splitsInternal = true := by
  unfold lastReturn at last
  split at last
  · rename_i t call outcome before
    obtain ⟨ok, splits⟩ := Bool.and_eq_true_iff.1 last
    exact ⟨t, call, outcome, before, rfl, ok, splits⟩
  · cases last

theorem separators_propagate_fourKeys : ∃ t call outcome before, fourKeysPool.shared.history = .returned t call outcome :: before ∧
    outcome.ok = true ∧ (∃ sib, SplitOff (operations t before) .insertToInternal sib) ∧ AllListed (operations t before) := by
  obtain ⟨t, call, outcome, before, history, ok, splits⟩ :=
    of_lastReturn (show lastReturn fourKeysPool.shared.history = true by decide +kernel)
  refine ⟨t, call, outcome, before, history, ok, of_splitsInternal splits, ?_⟩
  have fit : ∀ a p, (blank.planted ⟨1⟩).pages a = some p → p.Fit := by
    intro a p there
    obtain ⟨-, rfl⟩ := blank_fresh.pages_planted there
    rfl
  exact (separators_propagate fit reaches_fourKeys).1 t call outcome [] before history

/-! ## The root splits twice -/

/-- Client 1 reads the root. Client 2 splits it and fills the left half again. Client 1 goes on and splits that half. -/
def staleRoot : List (Move ℕ (BitVec 64) (Call LongKey LongKey)) :=
  .invoke 1 (.insert (longKey 50) ⊥) :: (addresses 100000 2).map (.act 1) ++
    .invoke 2 (.insert (longKey 209) ⊥) :: (addresses 200000 69).map (.act 2) ++ .return 2 ::
    .invoke 2 (.insert (longKey 129) ⊥) :: (addresses 300000 65).map (.act 2) ++ .return 2 ::
    (addresses 400000 67).map (.act 1)

def asserts {A : Type} : Program (signature LongKey LongKey) A → Bool
  | .perform ⟨_, .assertFalse⟩ _ => true
  | _ => false

theorem staleRoot_asserts : ((loadKeys threeLeaves 1000 (blankLong.planted ⟨1⟩)).bind fun m =>
    ((Pool.start ⟨m, []⟩).follow (system (.ofKeySize 194 7)) (fun _ _ _ => true) freely staleRoot).bind fun P =>
      (P.threads 1).map fun activity => asserts activity.rest) = some true := by
  decide +kernel

theorem assert_false_staleRoot : ∃ m : Memory LongKey LongKey, Completed (.ofKeySize 194 7) 0 m ∧
    ∃ P, Reaches (system (.ofKeySize 194 7)) anything (Pool.start ⟨m, []⟩) P ∧
      ∃ t call site next done, P.threads t = some ⟨call, .perform ⟨site, .assertFalse⟩ next, done⟩ := by
  obtain ⟨m, loaded, followed⟩ := Option.bind_eq_some_iff.1 staleRoot_asserts
  obtain ⟨P, followed, ended⟩ := Option.bind_eq_some_iff.1 followed
  obtain ⟨⟨call, rest, done⟩, running, asserting⟩ := Option.map_eq_some_iff.1 ended
  have planted : initializeIndex.run Memory.exec 0 [1, 0, 0] blankLong = some (true, blankLong.planted ⟨1⟩) := rfl
  have completed := loadKeys_completed (.start ⟨rfl, fun _ => rfl, fun _ => rfl⟩ planted) loaded
  refine ⟨m, completed, P, reaches_of_follow (fun _ _ _ _ => trivial) (fun _ _ _ _ _ => trivial) followed, 1, ?_⟩
  unfold asserts at asserting
  split at asserting
  · rename_i next eq
    rw [show rest = _ from eq] at running
    exact ⟨call, _, next, done, running⟩
  · cases asserting

end Faunus.Sherman
