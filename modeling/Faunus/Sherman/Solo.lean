import Faunus.Sherman.Descent
import Faunus.Sherman.Stock

/-! The operations of one client on a tree at rest.

No page is pending, so every descent goes straight down and no loop steps to the right.
A split climbs the path of the descent, one pending page at a time.
-/

set_option autoImplicit false

namespace Faunus.Sherman

open Interleaving Tiling

variable {Key Value A : Type}

/-- Allocations may wait; the memory may be full. -/
def Op.allocates (o : Op Key Value) : Prop := o.act = .allocPage ∨ o.act = .allocItem

/-- Total correctness of a client that runs alone. -/
abbrev Solo (t : ℕ) (post : A → Memory Key Value → Prop) (p : Index Key Value A) (m : Memory Key Value) : Prop :=
  p.Total Memory.exec t (fun s s' => s' = s) Op.allocates post m

theorem solo_run {t : ℕ} {post : A → Memory Key Value → Prop} {p : Index Key Value A} {m m' : Memory Key Value}
    {choices : List (BitVec 64)}
    {a : A} (total : Solo t post p m) (ran : p.run Memory.exec t choices m = some (a, m')) : post a m' := by
  refine total_run ?_ total ran
  exact fun _ => rfl

section Verbs
variable {t : ℕ} {site : Site} {m : Memory Key Value} {post : A → Memory Key Value → Prop} {a : GlobalAddress}

theorem solo_perform {o : Op Key Value} {next : o.act.Reply → Index Key Value A} {r : o.act.Reply} {m' : Memory Key Value}
    (performed : ∀ c, Memory.exec t o c m = some (r, m')) (later : Solo t post (next r) m') :
    Solo t post (.perform o next) m := by
  refine total_perform performed 0 ?_
  rintro _ rfl
  exact later

theorem solo_readRoot {f : GlobalAddress → Index Key Value A} (next : Solo t post (f m.rootOffset) m) :
    Solo t post (readRoot site >>= f) m :=
  solo_perform (fun _ => rfl) next

theorem solo_readPage {f : Page Key → Index Key Value A} {p : Page Key} (there : m.pages a = some p) (next : Solo t post (f p) m) :
    Solo t post (readPage site a >>= f) m :=
  solo_perform (r := p) (fun _ => by simp only [Memory.exec, there]; rfl) next

theorem solo_writePage {f : Unit → Index Key Value A} {p : Page Key} (next : Solo t post (f ()) (m.setPage a p)) :
    Solo t post (writePage site a p >>= f) m :=
  solo_perform (fun _ => rfl) next

theorem solo_writeEntry {f : Unit → Index Key Value A} {p : LeafPage Key} {i : ℕ} {r : LeafEntry}
    (there : m.pages a = some (.leaf p))
    (next : Solo t post (f ()) (m.setPage a (.leaf (p.setRecord i r)))) : Solo t post (writeEntry site a i r >>= f) m :=
  solo_perform (r := ()) (fun _ => by simp only [Memory.exec, there]; rfl) next

theorem solo_lock {f : Unit → Index Key Value A} (free : m.locks a = false) (next : Solo t post (f ()) (m.setLock a true)) :
    Solo t post (lock site a >>= f) m :=
  solo_perform (r := ()) (fun _ => by simp only [Memory.exec, free]; rfl) next

theorem solo_unlock {f : Unit → Index Key Value A} (next : Solo t post (f ()) (m.setLock a false)) :
    Solo t post (unlock site a >>= f) m :=
  solo_perform (fun _ => rfl) next

theorem solo_readItem {f : KVItem Key Value → Index Key Value A} (next : Solo t post (f (m.items a)) m) :
    Solo t post (readItem site a >>= f) m :=
  solo_perform (fun _ => rfl) next

theorem solo_writeItem {f : Unit → Index Key Value A} {item : KVItem Key Value} (next : Solo t post (f ()) (m.setItem a item)) :
    Solo t post (writeItem site a item >>= f) m :=
  solo_perform (fun _ => rfl) next

theorem solo_casRoot {f : GlobalAddress → Index Key Value A} {desired : GlobalAddress}
    (next : Solo t post (f m.rootOffset) { m with rootOffset := desired }) :
    Solo t post (casRoot site m.rootOffset desired >>= f) m :=
  solo_perform (fun _ => if_pos rfl) next

theorem solo_allocPage {f : GlobalAddress → Index Key Value A}
    (next : ∀ new, new ≠ .null → new ∉ m.pagesIssued → Solo t post (f new) (m.issuePage new)) :
    Solo t post (allocPage site >>= f) m := by
  refine ⟨.inr (.inl rfl), ?_⟩
  rintro c r m' performed _ rfl
  simp only [Memory.exec] at performed
  split_ifs at performed with bad
  rw [not_or] at bad
  obtain ⟨rfl, rfl⟩ := Prod.mk.inj (Option.some.inj performed)
  exact next _ bad.1 bad.2

theorem solo_allocItem {f : GlobalAddress → Index Key Value A}
    (next : ∀ x, x ∉ m.itemsIssued → (x = .null → m.itemsIssued = []) → Solo t post (f x)
      { m with itemsIssued := x :: m.itemsIssued }) :
    Solo t post (allocItem site >>= f) m := by
  refine ⟨.inr (.inr rfl), ?_⟩
  rintro c r m' performed _ rfl
  simp only [Memory.exec] at performed
  split_ifs at performed with bad
  rw [not_or] at bad
  obtain ⟨rfl, rfl⟩ := Prod.mk.inj (Option.some.inj performed)
  exact next _ bad.1 fun null => not_not.1 fun some => bad.2 ⟨null, some⟩

theorem exec_itemsIssued {o : Op Key Value} {c : BitVec 64} {r : o.act.Reply} {m' : Memory Key Value}
    (performed : Memory.exec t o c m = some (r, m')) :
    m.itemsIssued ⊆ m'.itemsIssued := by
  obtain ⟨site, act⟩ := o
  cases act with
  | casRoot | readPage | writeEntry | lock | allocPage =>
    simp only [Memory.exec] at performed
    split at performed <;> cases performed <;> exact List.Subset.refl _
  | allocItem =>
    simp only [Memory.exec] at performed
    split at performed <;> cases performed
    exact List.subset_cons_self ..
  | assertFalse => cases performed
  | _ =>
    cases performed
    exact List.Subset.refl _

theorem solo_issued {p : Index Key Value A} (total : Solo t post p m) :
    Solo t (fun a m' => post a m' ∧ m.itemsIssued ⊆ m'.itemsIssued) p m := by
  have general : ∀ issued, issued ⊆ m.itemsIssued → Solo t (fun a m' => post a m' ∧ issued ⊆ m'.itemsIssued) p m := by
    intro issued within
    induction p generalizing m with
    | value a => exact ⟨total, within⟩
    | stuck => exact total
    | perform o next ih =>
      refine ⟨total.1, ?_⟩
      rintro c r m' performed _ rfl
      exact ih r (total.2 c r _ performed _ rfl) (List.Subset.trans within (exec_itemsIssued performed))
  exact general _ (List.Subset.refl _)

theorem solo_release {f : Unit → Index Key Value A} (free : m.locks a = false) (next : Solo t post (f ()) m) :
    Solo t post (unlock site a >>= f) (m.setLock a true) := by
  refine solo_unlock ?_
  rwa [Memory.setLock_setLock free]

theorem solo_last {p : Index Key Value A} (total : Solo t post (p >>= pure) m) : Solo t post p m := by
  rwa [bind_pure] at total

theorem solo_writePageAndUnlock {f : Unit → Index Key Value A} {p : Page Key} (free : m.locks a = false)
    (next : Solo t post (f ()) (m.setPage a p)) : Solo t post (writePageAndUnlock site a p >>= f) (m.setLock a true) := by
  rw [writePageAndUnlock, bind_assoc]
  exact solo_writePage (solo_release (m := m.setPage a p) free next)

end Verbs

/-! ## Climbing -/

variable [LinearOrder Key] [BoundedOrder Key]

/-- From a level on, the path of the descent leads through the pages that take the key. -/
def Climb (m : Memory Key Value) (key : Key) (level top : ℕ) (path : PathStack) : Prop :=
  ∀ l, level ≤ l → l ≤ top → ∃ p, m.pages (path l) = some p ∧ p.hdr.level = l ∧ p.hdr.covers key

section
variable {m m' : Memory Key Value} {pending : Set GlobalAddress} {top level : ℕ} {a b : GlobalAddress} {p q : Page Key} {key : Key}
  {path : PathStack}

theorem Climb.widens (climb : Climb m key (level + 1) top path) (linked : Linked m pending top) (there : m.pages a = some p)
    (on : p.hdr.level = level) (covers : p.hdr.covers key) (settled : ∀ b ∈ pending, ∀ q, m.pages b = some q → q.hdr.level < level)
    {l : ℕ} (above : level + 1 ≤ l) (below : l ≤ top) (found : m.pages (path l) = some q) :
    q.hdr.lowest ≤ p.hdr.lowest ∧ p.hdr.highest ≤ q.hdr.highest := by
  -- the pages of the path lie one inside the other
  -- one level up
  have step : ∀ {b c : GlobalAddress} {r s : Page Key}, m.pages b = some r → m.pages c = some s → level ≤ r.hdr.level →
      s.hdr.level = r.hdr.level + 1 → r.hdr.covers key → s.hdr.covers key →
      s.hdr.lowest ≤ r.hdr.lowest ∧ r.hdr.highest ≤ s.hdr.highest := by
    intro b c r s one two high up covers covers'
    have inside := linked.forest.nested (tiles_page one) (fun waits => not_lt.2 high (settled b waits r one)) (tiles_page two)
      (by rw [Page.tile_level, Page.tile_level, up]) ((Page.tile_covers r key).2 covers) ((Page.tile_covers s key).2 covers')
    rwa [Page.tile_lo, Page.tile_lo, Page.tile_hi, Page.tile_hi] at inside
  induction l, above using Nat.le_induction generalizing q with
  | base =>
    obtain ⟨q', found', on', covers'⟩ := climb (level + 1) (le_refl _) below
    obtain rfl : q = q' := Option.some.inj (found.symm.trans found')
    exact step there found (le_of_eq on.symm) (by rw [on', on]) covers covers'
  | succ l above ih =>
    obtain ⟨r, lower, onr, coversr⟩ := climb l above (by omega)
    obtain ⟨q', found', on', covers'⟩ := climb (l + 1) (by omega) below
    obtain rfl : q = q' := Option.some.inj (found.symm.trans found')
    obtain ⟨low, high⟩ := ih (by omega) lower
    obtain ⟨low', high'⟩ := step lower found (by omega) (by rw [on', onr]) coversr covers'
    exact ⟨le_trans low' low, le_trans high high'⟩

theorem Climb.next (climb : Climb m key (level + 1) top path) (linked : Linked m pending top) (there : m.pages a = some p)
    (on : p.hdr.level = level) (covers : p.hdr.covers key) (settled : ∀ b ∈ pending, ∀ q, m.pages b = some q → q.hdr.level < level)
    {mid : Key} (inside : p.hdr.covers mid) (same : ∀ b q, m.pages b = some q → level < q.hdr.level → m'.pages b = some q) :
    Climb m' mid (level + 1) top path := by
  intro l above below
  obtain ⟨q, found, level, -⟩ := climb l above below
  obtain ⟨low, high⟩ := climb.widens linked there on covers settled above below found
  exact ⟨q, same _ q found (by omega), level, le_trans low inside.1, lt_of_lt_of_le inside.2 high⟩

theorem Linked.root_iff (linked : Linked m pending top) (there : m.pages a = some p) (settled : a ∉ pending) :
    m.rootOffset = a ↔ p.hdr.level = top := by
  constructor
  · rintro rfl
    obtain ⟨q, found, level, -⟩ := linked.root
    obtain rfl : p = q := Option.some.inj (there.symm.trans found)
    exact level
  · intro level
    exact (linked.forest.topmost a _ (tiles_page there) (by rw [Page.tile_level, level]) settled).symm

theorem Linked.descend {n : InternalPage Key} (linked : Linked m pending top) (there : m.pages a = some (.internal n))
    (covers : n.hdr.covers key) (settled : ∀ b ∈ pending, ∀ q, m.pages b = some q → q.hdr.level + 1 < n.hdr.level) :
    ∃ q, m.pages (n.nextLevel key) = some q ∧ q.hdr.level + 1 = n.hdr.level ∧ q.hdr.covers key := by
  obtain ⟨k, kid, le, last⟩ := (linked.internal a n there).2.nextLevel_kid covers.1
  obtain ⟨y, found, level, -, held⟩ := linked.forest.descend (tiles_page there) covers kid le last
  obtain ⟨q, page, rfl⟩ := tiles_eq_some.1 found
  rw [Page.tile_level] at level
  refine ⟨q, page, level, (Page.tile_covers q key).1 (held.resolve_right ?_)⟩
  rintro ⟨b, z, waits, beside, same, -⟩
  obtain ⟨r, page', rfl⟩ := tiles_eq_some.1 beside
  rw [Page.tile_level, Page.tile_level] at same
  exact absurd (settled b waits r page') (same ▸ not_lt.2 (le_of_eq level.symm))

theorem Linked.root_covers (linked : Linked m pending top) (below : key < ⊤)
    (settled : ∀ b ∈ pending, ∀ q, m.pages b = some q → q.hdr.level < top) :
    ∃ p, m.pages m.rootOffset = some p ∧ p.hdr.level = top ∧ p.hdr.covers key := by
  obtain ⟨p, there, level, lowest⟩ := linked.root
  have hi := linked.forest.root_hi (fun b waits x found => ?_) (tiles_page there)
  · rw [Page.tile_hi] at hi
    exact ⟨p, there, level, lowest ▸ bot_le, hi.symm ▸ below⟩
  · obtain ⟨q, page, rfl⟩ := tiles_eq_some.1 found
    rw [Page.tile_level]
    exact ne_of_lt (settled b waits q page)

omit [BoundedOrder Key] in
theorem Climb.update (climb : Climb m key (level + 1) top path) (there : m.pages a = some p) (on : p.hdr.level = level)
    (covers : p.hdr.covers key) : Climb m key level top (Function.update path level a) := by
  intro l above below
  by_cases here : l = level
  · subst here
    exact ⟨p, by rwa [Function.update_self], on, covers⟩
  · rw [Function.update_of_ne here]
    exact climb l (by omega) below

theorem Linked.sibling_ne {new : GlobalAddress} (linked : Linked m pending top) (there : m.pages a = some p) (notNull : new ≠ .null)
    (unissued : new ∉ m.pagesIssued) : ¬ (new = a ∨ p.hdr.siblingPtr = a ∨ p.hdr.siblingPtr = new) := by
  have fresh : m.pages new = none := linked.unused unissued
  rintro (rfl | same | same)
  · cases there.symm.trans fresh
  · rcases linked.sibling a p there with ⟨-, null⟩ | ⟨p', q, here, next, -, -, starts⟩
    · exact linked.not_null there (same.symm.trans null)
    · obtain rfl : p = p' := Option.some.inj (there.symm.trans here)
      rw [same] at next
      obtain rfl : p = q := Option.some.inj (there.symm.trans next)
      exact absurd starts (ne_of_lt (linked.nonempty there))
  · rcases linked.sibling a p there with ⟨-, null⟩ | ⟨p', q, here, next, -, -, -⟩
    · exact notNull (same.symm.trans null)
    · rw [same, fresh] at next
      cases next

end

/-! ## Splits upwards -/

section
variable {t : ℕ} {cfg : Config} {m : Memory Key Value} {pending : Set GlobalAddress} {top level : ℕ} {v : GlobalAddress}
  {q : Page Key} {path : PathStack}

theorem solo_updateRootOffset {key : Key} {left right : GlobalAddress} {f : Bool → Index Key Value A}
    {post : A → Memory Key Value → Prop} (isRoot : m.rootOffset = left)
    (next : ∀ new, new ≠ .null → new ∉ m.pagesIssued → Solo t post (f true) (m.raised new key right level)) :
    Solo t post (updateRootOffset left key right level m.rootOffset >>= f) m := by
  subst isRoot
  rw [updateRootOffset, bind_assoc]
  refine solo_allocPage fun new notNull unissued => ?_
  rw [bind_assoc]
  refine solo_writePage ?_
  rw [bind_assoc]
  refine solo_casRoot (m := (m.issuePage new).setPage new (.internal (.newRoot m.rootOffset key right level))) ?_
  rw [pure_bind]
  have same : ((m.issuePage new).setPage new (.internal (.newRoot m.rootOffset key right level))).rootOffset = m.rootOffset := rfl
  rw [decide_eq_true same]
  exact next new notNull unissued

variable [KeyBytes Key]

theorem solo_propagate {a : GlobalAddress} {p : Page Key} (three : 3 ≤ cfg.internalCardinality)
    (sound : Sound cfg m {v} top) (there : m.pages a = some p) (other : a ≠ v) (on : p.hdr.level = level)
    (found : m.pages v = some q) (beside : q.hdr.level = level) {onward : Index Key Value Unit}
    (upward : level + 1 ≤ top → Solo t (fun _ m' => (∃ top', Sound cfg m' ∅ top') ∧ SameLeaves m m') onward m) :
    Solo t (fun _ m' => (∃ top', Sound cfg m' ∅ top') ∧ SameLeaves m m')
      (if m.rootOffset = a then updateRootOffset a q.hdr.lowest v (level + 1) m.rootOffset >>= fun done =>
          if done = true then pure () else onward
        else pure false >>= fun done => if done = true then pure () else onward) m := by
  -- what follows a split: a new root above the page, or the separator goes into the page above
  by_cases atRoot : m.rootOffset = a
  · have atTop : level = top := on.symm.trans ((sound.linked.root_iff there other).1 atRoot)
    rw [if_pos atRoot]
    refine solo_updateRootOffset atRoot fun root notNull unissued => ?_
    have raised := sound.raise unissued rfl found (beside.trans atTop) notNull three
    rw [Set.sdiff_self] at raised
    rw [if_pos rfl, atTop]
    exact ⟨⟨_, raised⟩, sound.sameLeaves_raised unissued _ _ _⟩
  · have below : level + 1 ≤ top := by
      have notTop : p.hdr.level ≠ top := fun same => atRoot ((sound.linked.root_iff there other).2 same)
      have := sound.linked.level_le there
      omega
    rw [if_neg atRoot, pure_bind, if_neg Bool.false_ne_true]
    exact upward below

theorem solo_insertToInternal {bound : ℕ} {a : GlobalAddress} {p : Page Key} (three : 3 ≤ cfg.internalCardinality)
    (sound : Sound cfg m {v} top)
    (found : m.pages v = some q) (under : q.hdr.level + 1 = level) (there : m.pages a = some p) (on : p.hdr.level = level)
    (covers : p.hdr.covers q.hdr.lowest) (climb : Climb m q.hdr.lowest (level + 1) top path) (long : top - level < bound) :
    Solo t (fun _ m' => (∃ top', Sound cfg m' ∅ top') ∧ SameLeaves m m')
      (insertToInternal cfg q.hdr.lowest v m.rootOffset level path bound a) m := by
  -- the separator of a pending page is put into the page above it, and so on upwards
  induction bound generalizing m v q level a p with
  | zero => omega
  | succ bound ih =>
    obtain ⟨n, rfl⟩ := sound.linked.internal_of_level there (show 0 < p.hdr.level by omega)
    have covered : n.hdr.covers q.hdr.lowest := covers
    have level' : q.hdr.level + 1 = n.hdr.level := under.trans on.symm
    have waits : v ∈ ({v} : Set GlobalAddress) := rfl
    have free := sound.free a
    have face : SameFace n.hdr (n.withRecord q.hdr.lowest v).hdr := withRecord_face n
    unfold insertToInternal
    rw [lockAndReadPage, bind_assoc]
    refine solo_lock free (solo_readPage there ?_)
    rw [if_neg (not_not.2 on), if_neg (not_le.2 covers.2), if_neg (not_lt.2 covers.1)]
    dsimp only [Page.asInternal]
    rw [if_neg (ne_of_lt (sound.room _ n there))]
    by_cases full : (n.withRecord q.hdr.lowest v).cnt = cfg.internalCardinality
    swap
    · rw [if_pos full]
      refine solo_last (solo_writePageAndUnlock free ?_)
      have linked := sound.link there waits found level' covered full
      rw [Set.sdiff_self] at linked
      exact ⟨⟨top, linked⟩, sameLeaves_setPage there _⟩
    rw [if_neg (not_not.2 full)]
    refine solo_allocPage fun new notNull unissued => ?_
    have ordered := sound.linked.withRecord_ordered there waits found level' covered
    have inside := InternalPage.splitKey_inside ordered (full ▸ three)
    have apart := sound.linked.sibling_ne there notNull unissued
    rw [if_neg (not_or.2 ⟨not_le.2 inside.1, not_le.2 inside.2⟩), if_neg (face.siblingPtr ▸ apart)]
    have other : a ≠ new := fun same => apart (.inl same.symm)
    have free' : ((m.issuePage new).setPage new (.internal (n.withRecord q.hdr.lowest v).splitRight)).locks a = false := free
    refine solo_writePage (solo_writePageAndUnlock free' ?_)
    -- the page is split, its right half is pending
    have divided := sound.linkAndSplit there waits found level' covered unissued notNull three full
    rw [Set.sdiff_self, insert_empty_eq] at divided
    have leaves := sound.sameLeaves_divided there unissued ((n.withRecord q.hdr.lowest v).splitLeft new)
      (n.withRecord q.hdr.lowest v).splitRight
    have climb' : Climb (m.divided a new (.internal ((n.withRecord q.hdr.lowest v).splitLeft new))
        (.internal (n.withRecord q.hdr.lowest v).splitRight)) (n.withRecord q.hdr.lowest v).splitKey (level + 1) top path := by
      refine Climb.next climb sound.linked there on covers ?_
        ⟨face.lowest ▸ le_of_lt inside.1, face.highest ▸ inside.2⟩ fun b r page high => ?_
      · rintro b rfl r page
        obtain rfl : q = r := Option.some.inj (found.symm.trans page)
        omega
      · rw [divided_other, page]
        · rintro rfl
          exact unissued (sound.linked.issued b r page)
        · rintro rfl
          obtain rfl : Page.internal n = r := Option.some.inj (there.symm.trans page)
          omega
    refine total_mono (solo_propagate three divided divided_left other (face.level.trans on) (divided_right other)
      (face.level.trans on)
      fun below => ?_) fun _ m' holds => ⟨holds.1, leaves.trans holds.2⟩
    obtain ⟨r, above, level₁, covers₁⟩ := climb' (level + 1) (le_refl _) below
    rw [if_pos (divided.linked.not_null above)]
    refine ih divided (divided_right other) ?_ above level₁ covers₁ (fun l high => climb' l (by omega)) (by omega)
    rw [← on]
    exact congrArg (· + 1) face.level

end

/-! ## Descending -/

section
variable [KeyBytes Key] [Bot Value] {cfg : Config} {m : Memory Key Value} {pending : Set GlobalAddress} {top base depth t : ℕ}
    {a v : GlobalAddress}
  {p q : Page Key} {key : Key} {path : PathStack} {post : A → Memory Key Value → Prop}
  {loop next : ℕ → GlobalAddress → SearchResult Value → PathStack → Index Key Value A} {result : SearchResult Value}

theorem Rounds.descends (rounds : Rounds cfg key base loop next) (linked : Linked m pending top)
    (settled : ∀ b ∈ pending, ∀ q, m.pages b = some q → q.hdr.level < base) (short : top < kMaxLevelOfTree)
    (bottom : ∀ n a p result path, m.pages a = some p → p.hdr.level = base → p.hdr.covers key → Climb m key (base + 1) top path →
      result.slibing = .null → result.val = ⊥ → Solo t post (loop (n + 1) a result path) m)
    (last : ∀ n a result path q, result.isLeaf = false → result.level = base + 1 → result.slibing = .null → result.val = ⊥ →
      m.pages result.nextLevel = some q → q.hdr.level = base → q.hdr.covers key → Climb m key (base + 1) top path →
      Solo t post (next (n + 1) a result path) m)
    {n : ℕ} (there : m.pages a = some p) (on : p.hdr.level = base + depth) (covers : p.hdr.covers key)
    (climb : Climb m key (base + depth + 1) top path) (fresh : result.slibing = .null) (unset : result.val = ⊥) (long : depth < n) :
    Solo t post (loop n a result path) m := by
  -- a search loop goes down through the pages that take the key and keeps them in the path
  induction depth generalizing a p n path result with
  | zero =>
    obtain ⟨n, rfl⟩ : ∃ k, n = k + 1 := ⟨n - 1, by omega⟩
    exact bottom n a p result path there on covers climb fresh unset
  | succ depth ih =>
    obtain ⟨n, rfl⟩ : ∃ k, n = k + 1 + 1 := ⟨n - 2, by omega⟩
    obtain ⟨page, rfl⟩ := linked.internal_of_level there (show base + depth < p.hdr.level by omega)
    have levels : page.hdr.level = base + depth + 1 := on
    obtain ⟨q, child, down, covers'⟩ := linked.descend there covers fun b waits q found => by
      have := settled b waits q found
      omega
    have climb' := climb.update there on covers
    rw [rounds.round, searchNode, bind_assoc]
    refine solo_readPage there ?_
    rw [linked.searchPage_down there (lt_of_le_of_lt (linked.level_le there) short) covers, pure_bind, levels]
    cases depth with
    | zero => exact last n a _ _ q rfl rfl fresh unset child (by omega) covers' climb'
    | succ depth =>
      rw [rounds.down]
      · exact ih child (by omega) covers' climb' fresh unset (by omega)
      · rfl
      · show base + 1 < base + (depth + 1) + 1
        omega
      · exact fresh

theorem solo_searchAndInsertToInternal (three : 3 ≤ cfg.internalCardinality) (sound : Sound cfg m {v} top)
    (found : m.pages v = some q)
    (under : q.hdr.level + 1 = base) (within : base ≤ top) (short : top < kMaxLevelOfTree) (long : top < cfg.loopBound) :
    Solo t (fun _ m' => (∃ top', Sound cfg m' ∅ top') ∧ SameLeaves m m')
    (searchAndInsertToInternal cfg q.hdr.lowest v base path) m := by
  -- without a path the page above a pending one is searched from the root
  have settled : ∀ b ∈ ({v} : Set GlobalAddress), ∀ r, m.pages b = some r → r.hdr.level < base := by
    rintro b rfl r page
    obtain rfl : q = r := Option.some.inj (found.symm.trans page)
    omega
  have below : q.hdr.lowest < ⊤ := lt_of_lt_of_le (sound.linked.nonempty found) le_top
  obtain ⟨p, there, level, covers⟩ := sound.linked.root_covers below fun b waits r page =>
    lt_of_lt_of_le (settled b waits r page) within
  unfold searchAndInsertToInternal
  refine solo_readRoot ((rounds_searchAndInsertLoop cfg q.hdr.lowest v m.rootOffset base).descends sound.linked settled short
    (fun n a p result path there on covers climb _ _ => ?_) (fun n a result path r _ one fresh _ next on covers climb => ?_) there
    (show p.hdr.level = base + (top - base) by omega) covers (fun l above low => by omega) rfl rfl (by omega))
  · obtain ⟨page, rfl⟩ := sound.linked.internal_of_level there (show 0 < p.hdr.level by omega)
    rw [(rounds_searchAndInsertLoop cfg q.hdr.lowest v m.rootOffset base).round, searchNode, bind_assoc]
    refine solo_readPage there ?_
    rw [sound.linked.searchPage_down there (lt_of_le_of_lt (sound.linked.level_le there) short) covers, pure_bind]
    have level : page.hdr.level = base := on
    dsimp only
    rw [if_pos level]
    refine solo_insertToInternal three sound found under there on covers (fun l above low => ?_) (by omega)
    rw [Function.update_of_ne (by omega)]
    exact climb l above low
  · rw [one, if_neg (Nat.succ_ne_self base), if_neg (Nat.succ_ne_zero base), if_neg (not_not.2 fresh),
      if_neg (not_not.2 (rfl : base + 1 = base + 1))]
    exact solo_insertToInternal three sound found under next on covers climb (by omega)

end

/-! ## Leaves -/

section
variable {t : ℕ} {cfg : Config} {m : Memory Key Value} {top : ℕ} {p : LeafPage Key} {key : Key} {value : Value}

omit [LinearOrder Key] [BoundedOrder Key] in
theorem solo_readKeyed {f : List (Key × LeafEntry) → Index Key Value A} {post : A → Memory Key Value → Prop} {slots : List ℕ}
    (next : Solo t post (f ((slots.map p.records).map fun r => (m.keyAt r, r))) m) : Solo t post (readKeyed p slots >>= f) m := by
  induction slots generalizing f with
  | nil => exact next
  | cons i rest ih =>
    rw [readKeyed, bind_assoc]
    refine solo_readItem ?_
    rw [bind_assoc]
    exact ih next

variable [KeyBytes Key]

def LeafPage.among (p : LeafPage Key) (slots : List ℕ) :
    List LeafEntry := (slots.filter fun i => !(p.records i).isEmpty).map p.records

omit [BoundedOrder Key] in
theorem solo_searchRecords {slots : List ℕ} (fingerprints : ∀ r ∈ p.among slots, r.fingerprint = .ofKey (m.keyAt r)) :
    Solo t (fun found m' => m' = m ∧ ((∃ r ∈ p.among slots, m.keyAt r = key ∧ found = some (m.items r.kvPtr).value) ∨
      (∀ r ∈ p.among slots, m.keyAt r ≠ key) ∧ found = none)) (searchRecords key p slots) m := by
  -- a search finds the value of the record with the key
  induction slots with
  | nil => exact ⟨rfl, .inr ⟨by simp [LeafPage.among], rfl⟩⟩
  | cons i rest ih =>
    unfold searchRecords
    by_cases used : (p.records i).isEmpty = false
    swap
    · -- an empty record is passed over
      have among : p.among (i :: rest) = p.among rest := by simp [LeafPage.among, Bool.not_eq_false] at used ⊢; simp [used]
      rw [if_neg fun both => used both.1, among]
      exact ih (among ▸ fingerprints)
    have among : p.among (i :: rest) = p.records i :: p.among rest := by simp [LeafPage.among, used]
    rw [among] at fingerprints ⊢
    have later := ih fun r inside => fingerprints r (List.mem_cons_of_mem _ inside)
    -- a record with another key leaves the search to the rest
    have onward : m.keyAt (p.records i) ≠ key → Solo t (fun found m' => m' = m ∧
        ((∃ r ∈ p.records i :: p.among rest, m.keyAt r = key ∧ found = some (m.items r.kvPtr).value) ∨
          (∀ r ∈ p.records i :: p.among rest, m.keyAt r ≠ key) ∧ found = none)) (searchRecords key p rest) m := by
      intro other
      refine total_mono later fun found m' holds => ⟨holds.1, holds.2.imp ?_ ?_⟩
      · rintro ⟨r, inside, found⟩
        exact ⟨r, List.mem_cons_of_mem _ inside, found⟩
      · rintro ⟨none, eq⟩
        exact ⟨List.forall_mem_cons.2 ⟨other, none⟩, eq⟩
    by_cases fp : (p.records i).fingerprint = .ofKey key
    · rw [if_pos ⟨used, fp⟩]
      refine solo_readItem ?_
      by_cases same : (m.items (p.records i).kvPtr).key = key
      · rw [if_pos same]
        exact ⟨rfl, .inl ⟨_, List.mem_cons_self, same, rfl⟩⟩
      · rw [if_neg same]
        exact onward same
    · rw [if_neg fun both => fp both.2]
      refine onward fun same => fp ?_
      rw [← same]
      exact fingerprints _ List.mem_cons_self

def Scanned (m : Memory Key Value) (p : LeafPage Key) (key : Key) (value : Value) (slots : List ℕ) (before : ℕ) (empty : Option ℕ)
    (scan : Scan) (m' : Memory Key Value) : Prop :=
  match scan with
  | .updated => ∃ r ∈ p.among slots, m.keyAt r = key ∧ m' = m.setItem r.kvPtr ⟨m.keyAt r, value⟩
  | .absent cnt emptyIndex => m' = m ∧ (∀ r ∈ p.among slots, m.keyAt r ≠ key) ∧ cnt = before + (p.among slots).length ∧
      emptyIndex = empty.or (slots.find? fun i => (p.records i).isEmpty)

omit [BoundedOrder Key] in
theorem solo_scanRecords {slots : List ℕ} (fingerprints : ∀ r ∈ p.among slots, r.fingerprint = .ofKey (m.keyAt r)) (before : ℕ)
    (empty : Option ℕ) :
    Solo t (Scanned m p key value slots before empty) (scanRecords key value p slots before empty) m := by
  induction slots generalizing before empty with
  | nil => exact ⟨rfl, by simp [LeafPage.among], rfl, by simp⟩
  | cons i rest ih =>
    unfold scanRecords
    by_cases unused : (p.records i).isEmpty = true
    · have among : p.among (i :: rest) = p.among rest := by simp [LeafPage.among, unused]
      rw [if_pos unused]
      refine total_mono (ih (among ▸ fingerprints) before _) fun scan m' holds => ?_
      cases scan with
      | updated => simpa only [Scanned, among] using holds
      | absent cnt emptyIndex =>
        obtain ⟨eq, none, count, first⟩ := holds
        refine ⟨eq, among ▸ none, among ▸ count, first.trans ?_⟩
        cases empty <;> simp [unused]
    have among : p.among (i :: rest) = p.records i :: p.among rest := by simp [LeafPage.among, unused]
    rw [among] at fingerprints
    -- a record with another key is counted
    have onward : m.keyAt (p.records i) ≠ key →
        Solo t (Scanned m p key value (i :: rest) before empty) (scanRecords key value p rest (before + 1) empty) m := by
      intro other
      refine total_mono (ih (fun r inside => fingerprints r (List.mem_cons_of_mem _ inside)) (before + 1) empty)
        fun scan m' holds => ?_
      cases scan with
      | updated =>
        obtain ⟨r, inside, found⟩ := holds
        exact ⟨r, among ▸ List.mem_cons_of_mem _ inside, found⟩
      | absent cnt emptyIndex =>
        obtain ⟨eq, none, count, first⟩ := holds
        refine ⟨eq, among ▸ List.forall_mem_cons.2 ⟨other, none⟩, ?_, first.trans ?_⟩
        · rw [among, List.length_cons, count]
          omega
        · simp [unused]
    rw [if_neg unused]
    by_cases fp : (p.records i).fingerprint = .ofKey key
    · rw [if_pos fp]
      refine solo_readItem ?_
      by_cases same : (m.items (p.records i).kvPtr).key = key
      · rw [if_pos same]
        refine solo_writeItem ⟨p.records i, among ▸ List.mem_cons_self, same, ?_⟩
        rfl
      · rw [if_neg same]
        exact onward same
    · rw [if_neg fp]
      refine onward fun same => fp ?_
      rw [← same]
      exact fingerprints _ List.mem_cons_self

variable [Bot Value]

/-- How a split of a leaf finds the page above it: by the path of the descent, or without a path by a search. -/
def Ascent (m : Memory Key Value) (key : Key) (top : ℕ) (path : PathStack) : Prop :=
  Climb m key 1 top path ∨ path 1 = .null ∧ top < kMaxLevelOfTree

theorem solo_splitLeafPage {a : GlobalAddress} {q : LeafPage Key} {path : PathStack} {e : LeafEntry}
    (three : 3 ≤ cfg.internalCardinality) (sound : Sound cfg m ∅ top) (there : m.pages a = some (.leaf p)) (hdr : q.hdr = p.hdr)
    (filed : Filed cfg m q) (two : 2 ≤ (q.entries cfg.leafCardinality).length) (covers : p.hdr.covers key)
    (ascent : Ascent m key top path) (long : top < cfg.loopBound)
    (own : ∀ r, r ∈ q.entries cfg.leafCardinality ↔ r = e ∨ r ∈ p.entries cfg.leafCardinality) :
    Solo t (fun _ m' => (∃ top', Sound cfg m' ∅ top') ∧ Kept m m' ∧ m'.items = m.items ∧ ∀ r, r ∈ m'.shelf cfg ↔ r = e ∨
      r ∈ m.shelf cfg)
      (splitLeafPage cfg a q (q.entries cfg.leafCardinality).length m.rootOffset 0 path) (m.setLock a true) := by
  -- a full leaf is sorted and split, and the separator goes upwards
  unfold splitLeafPage
  refine solo_readKeyed ?_
  have sorted : sortByKey (((q.used cfg.leafCardinality).map q.records).map fun r => ((m.setLock a true).keyAt r, r)) =
    q.sorted cfg m := rfl
  rw [sorted]
  dsimp only
  rw [if_neg (not_not.2 length_sorted)]
  refine solo_allocPage fun new notNull unissued => ?_
  rw [← length_sorted (m := m)] at two
  obtain ⟨mid, middle⟩ : ∃ mid, (q.sorted cfg m)[(q.sorted cfg m).length / 2]? = some mid :=
    ⟨_, List.getElem?_eq_getElem (by omega)⟩
  rw [middle]
  dsimp only
  have inside := filed.middle_inside two middle
  have apart := sound.linked.sibling_ne there notNull unissued
  have sibling : q.hdr.siblingPtr = (Page.leaf p).hdr.siblingPtr := congrArg Header.siblingPtr hdr
  rw [if_neg (not_or.2 ⟨not_le.2 inside.1, not_le.2 inside.2⟩), if_neg (sibling ▸ apart)]
  have other : a ≠ new := fun same => apart (.inl same.symm)
  have free : ((m.issuePage new).setPage new (.leaf (q.splitRight (q.sorted cfg m) mid.1))).locks a = false := sound.free a
  refine solo_writePage (solo_writePageAndUnlock free ?_)
  have divided := sound.splitLeaf there hdr unissued notNull filed two middle
  rw [insert_empty_eq] at divided
  have bottom := (sound.linked.leaf a p there).1
  have below : (Page.leaf (q.splitLeft (q.sorted cfg m) mid.1 new)).hdr.level = 0 := (congrArg Header.level hdr).trans bottom
  have beside : (Page.leaf (q.splitRight (q.sorted cfg m) mid.1)).hdr.level = 0 := (congrArg Header.level hdr).trans bottom
  have shelf := sound.shelf_splitLeaf there unissued own mid.1
  have kept := sound.kept_splitLeaf there hdr unissued mid.1
  refine total_mono (solo_propagate three divided divided_left other below (divided_right other) beside fun within => ?_)
    fun _ m' holds => ⟨holds.1, kept.trans holds.2.kept, holds.2.items, fun r => ?_⟩
  · have under := congrArg (· + 1) beside
    rcases ascent with climb | ⟨unset, short⟩
    · -- the path leads to the page above
      have climb' : Climb (m.splitLeaf cfg a new q mid.1) mid.1 (0 + 1) top path := by
        rw [hdr] at inside
        refine Climb.next climb sound.linked there bottom covers (fun b waits => waits.elim) ⟨le_of_lt inside.1, inside.2⟩
          fun b r page high => ?_
        refine (divided_other ?_ ?_).trans page
        · rintro rfl
          exact unissued (sound.linked.issued b r page)
        · rintro rfl
          obtain rfl : Page.leaf p = r := Option.some.inj (there.symm.trans page)
          exact absurd bottom (Nat.ne_of_gt high)
      obtain ⟨r, above, level, covers'⟩ := climb' (0 + 1) (le_refl _) within
      rw [if_pos (divided.linked.not_null above)]
      exact solo_insertToInternal three divided (divided_right other) under above level covers'
        (fun l high => climb' l (by omega)) (by omega)
    · rw [if_neg (not_not.2 unset)]
      exact solo_searchAndInsertToInternal three divided (divided_right other) under within short long
  · rw [holds.2.shelf]
    exact shelf r

omit [LinearOrder Key] [BoundedOrder Key] [KeyBytes Key] in
theorem find_empty (room : (p.entries cfg.leafCardinality).length < cfg.leafCardinality) :
    ∃ i, (List.range cfg.leafCardinality).find? (fun i => (p.records i).isEmpty) = some i ∧ i < cfg.leafCardinality ∧
      (p.records i).isEmpty = true := by
  cases found : (List.range cfg.leafCardinality).find? (fun i => (p.records i).isEmpty) with
  | some i => exact ⟨i, rfl, List.mem_range.1 (List.mem_of_find?_eq_some found), by simpa using List.find?_some found⟩
  | none =>
    have all : p.used cfg.leafCardinality = List.range cfg.leafCardinality := by
      refine List.filter_eq_self.2 fun i inside => ?_
      simpa using List.find?_eq_none.1 found i inside
    rw [length_entries, all, List.length_range] at room
    exact absurd room (lt_irrefl _)

variable {a : GlobalAddress} {path : PathStack} {map : Key → Option Value} {bound : ℕ}

theorem solo_insertToLeaf (three : 3 ≤ cfg.internalCardinality) (two : 2 ≤ cfg.leafCardinality) (sound : Sound cfg m ∅ top)
    (represents : Represents cfg m map) (there : m.pages a = some (.leaf p)) (covers : p.hdr.covers key)
    (ascent : Ascent m key top path) (long : top < cfg.loopBound) (positive : 0 < bound) :
    Solo t (fun _ m' => (∃ top', Sound cfg m' ∅ top') ∧ Represents cfg m' (m.store m' map key value) ∧ Kept m m')
      (insertToLeaf cfg key value m.rootOffset 0 path bound a) m := by
  obtain ⟨bound, rfl⟩ : ∃ n, bound = n + 1 := ⟨bound - 1, by omega⟩
  have free := sound.free a
  have stocked := sound.stocked a p there
  have bottom : (Page.leaf p).hdr.level = 0 := (sound.linked.leaf a p there).1
  have covers' : (Page.leaf p).hdr.covers key := covers
  unfold insertToLeaf
  rw [lockAndReadPage, bind_assoc]
  refine solo_lock free (solo_readPage there ?_)
  rw [if_neg (not_not.2 bottom), if_neg (not_le.2 covers'.2), if_neg (not_lt.2 covers'.1)]
  dsimp only [Page.asLeaf]
  have fingerprints : ∀ r ∈ p.among (List.range cfg.leafCardinality), r.fingerprint = .ofKey ((m.setLock a true).keyAt r) :=
    fun r inside => (stocked.stored r inside).2.1
  refine total_bind (total_mono (solo_scanRecords fingerprints 0 none) fun scan m' scanned => ?_)
  cases scan with
  | updated =>
    obtain ⟨r, inside, same, rfl⟩ := scanned
    have onShelf : r ∈ m.shelf cfg := ⟨a, p, there, inside⟩
    have same' : m.keyAt r = key := same
    refine solo_last (solo_release (m := m.setItem r.kvPtr ⟨m.keyAt r, value⟩) free ?_)
    refine ⟨⟨top, sound.setItem⟩, ?_, Kept.refl m⟩
    have keeps : ¬ m.Loses (m.setItem r.kvPtr ⟨m.keyAt r, value⟩) := fun loses => List.not_mem_nil (loses.1 ▸ sound.issued onShelf)
    rw [store_of_not_loses keeps, ← same']
    exact sound.represents_update represents onShelf
  | absent cnt emptyIndex =>
    obtain ⟨rfl, none, count, first⟩ := scanned
    obtain ⟨i, found, inside, empty⟩ := find_empty stocked.room
    rw [found, Option.none_or] at first
    subst first
    have length : cnt = (p.entries cfg.leafCardinality).length := count.trans (Nat.zero_add _)
    have room := stocked.room
    dsimp only
    rw [if_neg (by omega)]
    refine solo_allocItem fun x unissued first => solo_writeItem ?_
    by_cases null : x = .null
    · have none := first null
      rw [if_pos (by rw [length, stocked.bare none, List.length_nil]; omega)]
      refine solo_writeEntry there (solo_last
        (solo_release (m := (m.issueItem x ⟨key, value⟩).setPage a (.leaf (p.setRecord i ⟨.ofKey key, x⟩))) free ?_))
      obtain ⟨sound', bare⟩ := sound.setRecord_null there ⟨key, value⟩ empty unissued null none
      refine ⟨⟨top, sound'⟩, ?_, kept_setLeaf there rfl⟩
      rw [Memory.store, if_pos ⟨none, null ▸ List.mem_cons_self⟩]
      exact fun k v => iff_of_false (by rw [sound.nothing represents none k]; simp) fun stored => bare _ stored.choose_spec.1
    have notNull : x ≠ .null := null
    have filed := sound.filed_setRecord value there covers inside empty unissued notNull none
    have perm := entries_setRecord (r := ⟨.ofKey key, x⟩) inside empty (by simp [LeafEntry.isEmpty, notNull])
    have own := fun r => (perm.mem_iff (a := r)).trans List.mem_cons
    have issued := sound.issueItem unissued ⟨key, value⟩
    have absent := sound.absent there covers none
    by_cases full : cnt + 1 = cfg.leafCardinality
    · rw [if_neg (not_not.2 full)]
      have exact := solo_splitLeafPage (t := t) three issued there (show (p.setRecord i ⟨.ofKey key, x⟩).hdr = p.hdr from rfl)
        filed (by rw [perm.length_eq, List.length_cons]; omega) covers ascent long own
      rw [perm.length_eq, List.length_cons, ← length] at exact
      refine total_mono exact fun _ m' holds => ⟨holds.1, ?_, holds.2.1⟩
      -- the leaf has other records, so this is not the first item
      have keeps : ¬ m.Loses m' := by
        intro loses
        rw [length, stocked.bare loses.1, List.length_nil] at full
        omega
      rw [store_of_not_loses keeps]
      exact sound.represents_add represents holds.2.2.1 unissued absent holds.2.2.2
    · rw [if_pos full]
      refine solo_writeEntry there (solo_last
        (solo_release (m := (m.issueItem x ⟨key, value⟩).setPage a (.leaf (p.setRecord i ⟨.ofKey key, x⟩))) free ?_))
      refine ⟨⟨top, issued.setLeaf there rfl ⟨filed, ?_⟩⟩, ?_, kept_setLeaf there rfl⟩
      · rw [perm.length_eq, List.length_cons]
        omega
      · rw [store_of_not_loses]
        · exact sound.represents_add represents rfl unissued absent (shelf_setLeaf there own)
        · rintro ⟨none, inside⟩
          rcases List.mem_cons.1 inside with same | old
          · exact notNull same.symm
          · exact List.not_mem_nil (none ▸ old)

end

end Faunus.Sherman
