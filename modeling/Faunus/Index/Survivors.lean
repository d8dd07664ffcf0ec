import Faunus.Index.Updates
import Mathlib.Order.WellFounded

/-! Which copies of a key survive in a leaf that is not split.

Inserts that race each put a copy of their key into the leaf. Whoever sees two of
them deletes the one in the higher slot, by a view of the leaf that may be old. The
history tells which slots ever held a copy; the lowest of them is never cleared.
-/

set_option autoImplicit false

namespace Faunus

open Interleaving

/-! ## Places that were ever taken -/

section
variable {Place : Type} [LinearOrder Place] {ever ever' now now' : Place → Prop}

/-- The lowest place that was ever taken is taken now. -/
def Anchored (ever now : Place → Prop) : Prop := ∀ i, ever i → (∀ j, ever j → i ≤ j) → now i

theorem Anchored.lowest [WellFoundedLT Place] (anchored : Anchored ever now) {i : Place} (taken : ever i) :
    ∃ j, now j ∧ ever j ∧ ∀ k, ever k → j ≤ k := by
  obtain ⟨j, there, least⟩ := wellFounded_lt.has_min {k | ever k} ⟨i, taken⟩
  have below : ∀ k, ever k → j ≤ k := fun k other => not_lt.1 (least k other)
  exact ⟨j, anchored j there below, there, below⟩

theorem Anchored.step (anchored : Anchored ever now) (before : ∀ i, ever i → ever' i) (new : ∀ i, ever' i → ever i ∨ now' i)
    (cleared : ∀ i, now i → now' i ∨ ∃ j < i, ever j) : Anchored ever' now' := by
  intro i taken least
  rcases new i taken with old | here
  · have still : now i := anchored i old fun j other => least j (before j other)
    rcases cleared i still with kept | ⟨j, lower, other⟩
    · exact kept
    · exact absurd (least j (before j other)) (not_le.2 lower)
  · exact here

end

variable {Key Value : Type}

/-! ## Copies of a key in a leaf -/

/-- The leaf at `a` holds the key in slot `i`. -/
def Copy (cfg : Config) (m : Memory Key Value) (a : GlobalAddress) (key : Key) (i : ℕ) : Prop :=
  ∃ leaf, m.nodes a = some (.leaf leaf) ∧ i < cfg.branchFactor ∧ (leaf.kvBlocks i).isFree = false ∧
    (m.items (leaf.kvBlocks i).getAddr).key = key

def State.Passed (s : State Key Value) (m : Memory Key Value) : Prop :=
  m = s.memory ∨ ∃ t o r, Event.performed t o r m ∈ s.history

/-- Slot `i` of the leaf at `a` held the key at some time of the run. -/
def Ever (cfg : Config) (s : State Key Value) (a : GlobalAddress) (key : Key) (i : ℕ) : Prop :=
  ∃ m, s.Passed m ∧ Copy cfg m a key i

/-- No insert will get the address again. -/
structure Spent (gs : Thread → Local Key Value) (m : Memory Key Value) (x : GlobalAddress) : Prop where
  issued : x ∈ m.itemsIssued
  free : ∀ server, x ∉ m.freeItems server
  item : ∀ t item wrote, (gs t).put.item ≠ some (x, item, wrote)

section
variable {s s' : State Key Value} {m : Memory Key Value}

theorem passed_now (s : State Key Value) : s.Passed s.memory := Or.inl rfl

theorem passed_step {t : Thread} {o : Op Key Value} {r : o.act.Reply}
    (history : s'.history = .performed t o r s.memory :: s.history) :
    s'.Passed m ↔ m = s'.memory ∨ s.Passed m := by
  unfold State.Passed
  rw [history]
  constructor
  · rintro (now | ⟨u, o', r', inside⟩)
    · exact Or.inl now
    · rcases List.mem_cons.1 inside with eq | old
      · cases eq
        exact Or.inr (Or.inl rfl)
      · exact Or.inr (Or.inr ⟨u, o', r', old⟩)
  · rintro (now | now | ⟨u, o', r', old⟩)
    · exact Or.inl now
    · exact Or.inr ⟨t, o, r, by rw [now]; exact List.mem_cons_self⟩
    · exact Or.inr ⟨u, o', r', List.mem_cons_of_mem _ old⟩

theorem passed_mark {e : Event Key Value} (mark : ∀ t o r m, e ≠ .performed t o r m) :
    State.Passed { s with history := e :: s.history } m ↔ s.Passed m := by
  unfold State.Passed
  constructor
  · rintro (now | ⟨u, o, r, inside⟩)
    · exact Or.inl now
    · rcases List.mem_cons.1 inside with eq | old
      · exact absurd eq.symm (mark u o r m)
      · exact Or.inr ⟨u, o, r, old⟩
  · rintro (now | ⟨u, o, r, old⟩)
    · exact Or.inl now
    · exact Or.inr ⟨u, o, r, List.mem_cons_of_mem _ old⟩

end

/-! ## What an operation does to the slots -/

/-- The operation belongs to the update of a block in place. -/
def Op.updates : Op Key Value → Bool
  | ⟨.tryUpdateKvblock, .casBlock _ _ _ _⟩ => true
  | _ => false

section
variable [LinearOrder Key] [KeyBytes Key] (cfg : Config) (a : GlobalAddress) (t : Thread) (gs : Thread → Local Key Value)
  (leaf : LeafNode Key)

inductive Touch : (o : Op Key Value) → o.act.Reply → LeafNode Key → Prop
  | none {o : Op Key Value} {r : o.act.Reply} {now : LeafNode Key} :
      (∀ i < cfg.branchFactor, now.kvBlocks i = leaf.kvBlocks i) → Touch o r now
  | fill {address : GlobalAddress} {snap : LeafNode Key} {i : ℕ} {item : KVItem Key Value} :
      leaf.kvBlocks i = snap.kvBlocks i → (gs t).put.ready cfg a snap address item → i < cfg.branchFactor →
      (snap.kvBlocks i).isFree = true → (gs t).put.missed cfg snap item.key cfg.branchFactor →
      Touch ⟨.insert, .casBlock a i (snap.kvBlocks i) (.make (.ofKey item.key) address false false)⟩ (leaf.kvBlocks i)
        (leaf.setBlock i (.make (.ofKey item.key) address false false))
  | delete {snap : LeafNode Key} {i j : ℕ} {key : Key} {desired : KVBlock} :
      leaf.kvBlocks i = snap.kvBlocks i → (gs t).put.seen = some (a, snap) → j < i → (i, key) ∈ (gs t).put.looked →
      (j, key) ∈ (gs t).put.looked → desired.isFree = true →
      Touch ⟨.tryDeleteKvblock, .casBlock a i (snap.kvBlocks i) desired⟩ (leaf.kvBlocks i) (leaf.setBlock i desired)

end

section
variable [LinearOrder Key] [KeyBytes Key] {cfg : Config} {a : GlobalAddress} {t : Thread} {gs : Thread → Local Key Value}
  {m m' : Memory Key Value} {o : Op Key Value} {r : o.act.Reply} {g : Local Key Value} {leaf : LeafNode Key}

omit [LinearOrder Key] [KeyBytes Key] in
theorem LikeLeaf.unlocked {old now : LeafNode Key} (like : LikeLeaf cfg old now) {i : ℕ} (bound : i < cfg.branchFactor)
    (one : (old.kvBlocks i).isLocked = false) (two : (now.kvBlocks i).isLocked = false) : now.kvBlocks i = old.kvBlocks i := by
  have same := like.blocks i bound
  rw [← one] at same
  conv at same => rhs; rw [KVBlock.setLocked_isLocked]
  rw [← same, one, ← two, KVBlock.setLocked_isLocked]

/-- As long as the leaf is not locked and nothing is updated, its slots are filled or cleared one at a time. -/
theorem Discipline.touch (inv : Discipline gs m cfg) (inv' : Discipline (Function.update gs t g) m' cfg)
    (effect : Effect cfg t gs m o r m' g) (opened : ∀ u, a ∉ (gs u).smo.held)
    (opened' : ∀ u, a ∉ (Function.update gs t g u).smo.held) (keeps : o.updates = false) (born : Born gs m a (.leaf leaf)) :
    ∃ now, Born (Function.update gs t g) m' a (.leaf now) ∧ now.header.fence = leaf.header.fence ∧
      Touch cfg a t gs leaf o r now := by
  have alike : ∀ {o : Op Key Value} {r : o.act.Reply}, SameLeaves cfg gs (Function.update gs t g) m m' →
      ∃ now, Born (Function.update gs t g) m' a (.leaf now) ∧ now.header.fence = leaf.header.fence ∧
        Touch cfg a t gs leaf o r now := by
    intro o r same
    obtain ⟨now, there, like⟩ := same.after a leaf born
    exact ⟨now, there, like.fence, .none fun i bound => like.unlocked bound (inv.bits.free a leaf born opened i bound)
      (inv'.bits.free a now there opened' i bound)⟩
  -- an exchange in a leaf, this one or another one
  have exchange : ∀ {b : GlobalAddress} {other : LeafNode Key} {i : ℕ} {desired : KVBlock} {o : Op Key Value} {r : o.act.Reply},
      Born gs m b (.leaf other) → g.smo.fresh = (gs t).smo.fresh → m' = m.setNode b (.leaf (other.setBlock i desired)) →
      (b = a → other = leaf → Touch cfg a t gs leaf o r (leaf.setBlock i desired)) →
      ∃ now, Born (Function.update gs t g) m' a (.leaf now) ∧ now.header.fence = leaf.header.fence ∧
        Touch cfg a t gs leaf o r now := by
    rintro b other i desired o r there fresh rfl here
    by_cases same : a = b
    · subst same
      obtain rfl := Node.leaf.inj (born_unique there born)
      exact ⟨_, (born_update fresh).2 ((born_setNode there).2 (Or.inl ⟨rfl, rfl⟩)), rfl, here rfl rfl⟩
    · exact ⟨leaf, (born_update fresh).2 ((born_setNode there).2 (Or.inr ⟨same, born⟩)), rfl, .none fun _ _ => rfl⟩
  cases effect with
  | quiet _ same => exact alike same
  | readKept => exact alike (sameLeaves_of_born fun _ _ => born_update (by rfl))
  | readKeptKey => exact alike (sameLeaves_of_born fun _ _ => born_update (by rfl))
  | @leafSplit b new snap left right _ _ _ _ only kept all sorted middle distributes fresh published =>
    have other : a ≠ b := by
      rintro rfl
      exact opened t (by simp [only])
    obtain ⟨c, now, only', there, -⟩ := inv.notes.kept t snap kept
    obtain rfl : b = c := by simpa [only] using only'
    exact ⟨leaf, (inv.levels.born_split there fresh published).2 (Or.inr ⟨other, Or.inl born⟩), rfl, .none fun _ _ => rfl⟩
  | allocItem allocated => exact alike (sameLeaves_look rfl (Memory.allocItem_frame allocated).1)
  | writeItem => exact alike (sameLeaves_look rfl rfl)
  | readLeaf => exact alike (sameLeaves_look rfl rfl)
  | lookItem => exact alike (sameLeaves_look rfl rfl)
  | lookKey => exact alike (sameLeaves_look rfl rfl)
  | slotFilled there eq ready bound free missed =>
    refine exchange there rfl rfl ?_
    rintro rfl rfl
    exact .fill eq ready bound free missed
  | slotUpdated => cases keeps
  | slotDeleted there eq seen covers candidate other lower looked also freed =>
    refine exchange there rfl rfl ?_
    rintro rfl rfl
    exact .delete eq seen lower looked also freed
  | freeReplaced => exact alike (sameLeaves_look rfl rfl)
  | freeDeleted => exact alike (sameLeaves_look rfl rfl)

/-! ## Spent items -/

omit [LinearOrder Key] in
theorem Owned.spent {b x : GlobalAddress} {i : ℕ} {fp : Fingerprint} (owned : Owned cfg gs m) (live : Live cfg gs m b i x fp) :
    Spent gs m x := by
  have here : Holds cfg gs m (.slot b i) x := ⟨fp, live⟩
  refine ⟨(owned.issued x _ here).1, fun server listed => ?_, fun u item wrote own => ?_⟩
  · cases owned.unique x (.free server) _ listed here
  · cases owned.unique x (.item u) _ ⟨item, wrote, own⟩ here

theorem Spent.effect {x : GlobalAddress} (spent : Spent gs m x) (effect : Effect cfg t gs m o r m' g)
    (nothing : (gs t).put.freeing = none) (fits : o.fits r = true) : Spent (Function.update gs t g) m' x := by
  have keep : (∀ y wrote item, g.put.item = some (y, item, wrote) → y ≠ x) → m'.freeItems = m.freeItems →
    m'.itemsIssued = m.itemsIssued →
      Spent (Function.update gs t g) m' x := by
    intro own free issued
    refine ⟨issued ▸ spent.issued, fun server => free ▸ spent.free server, ?_⟩
    refine (Function.forall_update_iff gs (p := fun _ l => ∀ item wrote, l.put.item ≠ some (x, item, wrote))).2
      ⟨?_, fun u _ => spent.item u⟩
    intro item wrote is
    exact own x wrote item is rfl
  have same : ∀ y wrote item, (gs t).put.item = some (y, item, wrote) → y ≠ x := by
    rintro y wrote item own rfl
    exact spent.item t item wrote own
  cases effect with
  | quiet _ _ _ put _ free issued =>
    apply keep _ free issued
    rw [put]
    exact same
  | leafSplit _ _ _ _ _ _ _ _ _ put =>
    apply keep _ rfl rfl
    rw [put]
    exact same
  | @allocItem b item m' allocated =>
    have other : b ≠ x ∧ (∀ y ∈ m.itemsIssued, y ∈ m'.itemsIssued) ∧ ∀ server y, y ∈ m'.freeItems server →
      y ∈ m.freeItems server := by
      unfold Memory.allocItem at allocated
      split_ifs at allocated with listed known
      · cases allocated
        refine ⟨?_, fun y inside => inside, fun server y inside => ?_⟩
        · rintro rfl
          exact spent.free t.server listed
        · by_cases here : server = t.server
          · subst here
            simp only [Function.update_self] at inside
            exact List.mem_of_mem_erase inside
          · simpa only [Function.update_of_ne here] using inside
      · cases allocated
        refine ⟨?_, fun y inside => List.mem_cons_of_mem _ inside, fun server y inside => inside⟩
        rintro rfl
        exact known spent.issued
    refine ⟨other.2.1 x spent.issued, fun server inside => spent.free server (other.2.2 server x inside), ?_⟩
    refine (Function.forall_update_iff gs (p := fun _ l => ∀ item wrote, l.put.item ≠ some (x, item, wrote))).2
      ⟨?_, fun u _ => spent.item u⟩
    rintro item wrote ⟨⟩
    exact other.1 rfl
  | writeItem own =>
    apply keep _ rfl rfl
    rintro y wrote item ⟨⟩
    exact same _ _ _ own
  | slotFilled =>
    apply keep _ rfl rfl
    rintro y wrote item ⟨⟩
  | slotUpdated =>
    apply keep _ rfl rfl
    rintro y wrote item ⟨⟩
  | freeReplaced own =>
    rw [nothing] at own
    cases own
  | freeDeleted => cases fits
  | _ => exact keep same rfl rfl

theorem Effect.nothing (effect : Effect cfg t gs m o r m' g) (keeps : o.updates = false) (nothing : (gs t).put.freeing = none) :
    g.put.freeing = none := by
  cases effect with
  | quiet _ _ _ put =>
    rw [put]
    exact nothing
  | leafSplit _ _ _ _ _ _ _ _ _ put =>
    rw [put]
    exact nothing
  | slotUpdated => cases keeps
  | freeReplaced => rfl
  | _ => exact nothing

theorem Spent.kept {x : GlobalAddress} (spent : Spent gs m x) (effect : Effect cfg t gs m o r m' g) : m'.items x = m.items x := by
  rcases effect.items x with same | writes
  · exact same
  · cases effect with
    | quiet _ _ _ _ items => rw [items]
    | @writeItem b item own =>
      obtain rfl : b = x := by simpa [Op.writes] using writes
      exact absurd own (spent.item t item false)
    | _ => cases writes

end

/-! ## Every step -/

def Op.locks (a : GlobalAddress) : (o : Op Key Value) → o.act.Reply → Bool
  | ⟨_, .casLock b expected _⟩, (found : BitVec 64) => decide (b = a ∧ found = expected)
  | _, _ => false

section
variable [KeyBytes Key]

/-- Threads clean up a leaf that no thread splits. -/
structure Cleaning (cfg : Config) (start : Memory Key Value) (a : GlobalAddress) (gs : Thread → Local Key Value)
    (s : State Key Value) :
    Prop where
  owning : Owning cfg gs s
  wanting : Wanting gs s
  leaf : ∃ leaf, Born gs s.memory a (.leaf leaf)
  opened : ∀ t, a ∉ (gs t).smo.held
  nothing : ∀ t, (gs t).put.freeing = none
  started : s.Passed start
  spent : ∀ m leaf i, s.Passed m → m.nodes a = some (.leaf leaf) → i < cfg.branchFactor → (leaf.kvBlocks i).isFree = false →
    Spent gs s.memory (leaf.kvBlocks i).getAddr ∧
      (m.items (leaf.kvBlocks i).getAddr).key = (s.memory.items (leaf.kvBlocks i).getAddr).key
  print : ∀ m leaf i, s.Passed m → m.nodes a = some (.leaf leaf) → i < cfg.branchFactor → (leaf.kvBlocks i).isFree = false →
    (leaf.kvBlocks i).getFingerprint = .ofKey (m.items (leaf.kvBlocks i).getAddr).key
  fence : ∀ m old leaf, s.Passed m → m.nodes a = some (.leaf old) → s.memory.nodes a = some (.leaf leaf) →
    old.header.fence = leaf.header.fence
  seen : ∀ t snap, (gs t).put.seen = some (a, snap) → ∃ m, s.Passed m ∧ m.nodes a = some (.leaf snap)
  looked : ∀ t snap i key, (gs t).put.seen = some (a, snap) → (i, key) ∈ (gs t).put.looked →
    i < cfg.branchFactor ∧ (snap.kvBlocks i).isFree = false ∧ (s.memory.items (snap.kvBlocks i).getAddr).key = key
  anchored : ∀ key, Anchored (Ever cfg s a key) (Copy cfg s.memory a key)
  lasting : ∀ m key i, s.Passed m → Copy cfg start a key i → ∃ j, Copy cfg m a key j

section
variable {cfg : Config} {start : Memory Key Value} {a : GlobalAddress} {gs : Thread → Local Key Value} {s s' : State Key Value}
  {m' : Memory Key Value} {t : Thread} {g : Local Key Value} {o : Op Key Value} {r : o.act.Reply} {key : Key} {i : ℕ}

theorem Cleaning.discipline (inv : Cleaning cfg start a gs s) : Discipline gs s.memory cfg := inv.owning.disciplined.discipline

theorem Cleaning.ever_looked (inv : Cleaning cfg start a gs s) {snap : LeafNode Key} (seen : (gs t).put.seen = some (a, snap))
    (looked : (i, key) ∈ (gs t).put.looked) : Ever cfg s a key i := by
  obtain ⟨bound, live, item⟩ := inv.looked t snap i key seen looked
  obtain ⟨m, passed, there⟩ := inv.seen t snap seen
  exact ⟨m, passed, snap, there, bound, live, ((inv.spent m snap i passed there bound live).2).trans item⟩

variable [LinearOrder Key]

theorem Cleaning.copy_item (inv : Cleaning cfg start a gs s) (effect : Effect cfg t gs s.memory o r m' g) {m : Memory Key Value}
    {leaf : LeafNode Key} (passed : s.Passed m) (there : m.nodes a = some (.leaf leaf)) (bound : i < cfg.branchFactor)
    (live : (leaf.kvBlocks i).isFree = false) :
    m'.items (leaf.kvBlocks i).getAddr = s.memory.items (leaf.kvBlocks i).getAddr :=
  (inv.spent m leaf i passed there bound live).1.kept effect

theorem Cleaning.copy_kept (inv : Cleaning cfg start a gs s) (effect : Effect cfg t gs s.memory o r s'.memory g)
    {leaf now : LeafNode Key} (there : s.memory.nodes a = some (.leaf leaf)) (there' : s'.memory.nodes a = some (.leaf now))
    (touch : Touch cfg a t gs leaf o r now) (copy : Copy cfg s.memory a key i) :
    Copy cfg s'.memory a key i ∨ ∃ j < i, Ever cfg s a key j := by
  -- a copy stays where it is, or it is deleted behind a lower one
  obtain ⟨x, is, bound, live, item⟩ := copy
  obtain rfl : x = leaf := Node.leaf.inj (Option.some.inj (is.symm.trans there))
  have same : now.kvBlocks i = x.kvBlocks i → Copy cfg s'.memory a key i := by
    intro eq
    refine ⟨now, there', bound, by rw [eq]; exact live, ?_⟩
    rw [eq, inv.copy_item effect (passed_now s) is bound live, item]
  cases touch with
  | none keeps => exact Or.inl (same (keeps i bound))
  | @fill address snap k item' eq ready bound' free =>
    have other : i ≠ k := by
      rintro rfl
      rw [eq, free] at live
      cases live
    exact Or.inl (same (by simp only [LeafNode.setBlock, Function.update_of_ne other]))
  | @delete snap k j key' desired eq seen lower high low =>
    by_cases here : i = k
    · subst here
      have named := (inv.looked t snap i key' seen high).2.2
      rw [← eq, item] at named
      subst named
      exact Or.inr ⟨j, lower, inv.ever_looked seen low⟩
    · exact Or.inl (same (by simp only [LeafNode.setBlock, Function.update_of_ne here]))

theorem Cleaning.copy_origin (inv : Cleaning cfg start a gs s) (effect : Effect cfg t gs s.memory o r s'.memory g)
    {leaf now : LeafNode Key} (there : s.memory.nodes a = some (.leaf leaf)) (there' : s'.memory.nodes a = some (.leaf now))
    (touch : Touch cfg a t gs leaf o r now) (copy : Copy cfg s'.memory a key i) :
    Copy cfg s.memory a key i ∧ now.kvBlocks i = leaf.kvBlocks i ∨
      ∃ address snap item, leaf.kvBlocks i = snap.kvBlocks i ∧ (gs t).put.ready cfg a snap address item ∧
        (gs t).put.missed cfg snap item.key cfg.branchFactor ∧ item.key = key ∧
        (⟨o, r⟩ : Done Key Value) =
          ⟨⟨.insert, .casBlock a i (leaf.kvBlocks i) (.make (.ofKey item.key) address false false)⟩, leaf.kvBlocks i⟩ := by
  -- a copy was there before, or an insert of the key has just put it there
  obtain ⟨x, is, bound, live, item⟩ := copy
  obtain rfl : x = now := Node.leaf.inj (Option.some.inj (is.symm.trans there'))
  have same : x.kvBlocks i = leaf.kvBlocks i → Copy cfg s.memory a key i ∧ x.kvBlocks i = leaf.kvBlocks i := by
    intro eq
    rw [eq] at live item
    rw [inv.copy_item effect (passed_now s) there bound live] at item
    exact ⟨⟨leaf, there, bound, live, item⟩, eq⟩
  cases touch with
  | none keeps => exact Or.inl (same (keeps i bound))
  | @fill address snap k item' eq ready bound' free missed =>
    by_cases here : i = k
    · subst here
      refine Or.inr ⟨address, snap, item', eq, ready, missed, ?_, by rw [eq]⟩
      have own := ready.written
      have spared : s'.memory.items = s.memory.items := by
        funext y
        rcases effect.items y with same | writes
        · exact same
        · cases writes
      rw [← item, spared]
      simp only [LeafNode.setBlock, Function.update_self, inv.owning.owned.placing own]
    · exact Or.inl (same (by simp only [LeafNode.setBlock, Function.update_of_ne here]))
  | @delete snap k j key' desired eq seen lower high low freed =>
    have here : i ≠ k := by
      rintro rfl
      simp [LeafNode.setBlock, freed] at live
    exact Or.inl (same (by simp only [LeafNode.setBlock, Function.update_of_ne here]))

omit [LinearOrder Key] [KeyBytes Key] in
theorem ever_step (history : s'.history = .performed t o r s.memory :: s.history) :
    Ever cfg s' a key i ↔ Copy cfg s'.memory a key i ∨ Ever cfg s a key i := by
  simp only [Ever, passed_step history]
  constructor
  · rintro ⟨m, rfl | passed, copy⟩
    · exact Or.inl copy
    · exact Or.inr ⟨m, passed, copy⟩
  · rintro (copy | ⟨m, passed, copy⟩)
    · exact ⟨_, Or.inl rfl, copy⟩
    · exact ⟨m, Or.inr passed, copy⟩

theorem Cleaning.seen_step (inv : Cleaning cfg start a gs s) (effect : Effect cfg t gs s.memory o r m' g)
    (history : s'.history = .performed t o r s.memory :: s.history) {u : Thread} {snap : LeafNode Key}
    (seen : (Function.update gs t g u).put.seen = some (a, snap)) : ∃ m, s'.Passed m ∧ m.nodes a = some (.leaf snap) := by
  -- what a thread has read of the leaf, the run has come through
  have before : ∀ {u : Thread}, (gs u).put.seen = some (a, snap) → ∃ m, s'.Passed m ∧ m.nodes a = some (.leaf snap) := by
    intro u own
    obtain ⟨m, passed, there⟩ := inv.seen u snap own
    exact ⟨m, (passed_step history).2 (Or.inr passed), there⟩
  by_cases same : u = t
  · subst same
    rw [Function.update_self] at seen
    cases effect with
    | quiet _ _ _ put => exact before (put ▸ seen)
    | leafSplit _ _ _ _ _ _ _ _ _ put => exact before (put ▸ seen)
    | readLeaf _ born =>
      cases seen
      exact ⟨s.memory, (passed_step history).2 (Or.inr (passed_now s)), born.1⟩
    | _ => exact before seen
  · rw [Function.update_of_ne same] at seen
    exact before seen

theorem Cleaning.looked_step (inv : Cleaning cfg start a gs s) (effect : Effect cfg t gs s.memory o r m' g) {u : Thread}
    {snap : LeafNode Key} (seen : (Function.update gs t g u).put.seen = some (a, snap))
    (looked : (i, key) ∈ (Function.update gs t g u).put.looked) :
    i < cfg.branchFactor ∧ (snap.kvBlocks i).isFree = false ∧ (m'.items (snap.kvBlocks i).getAddr).key = key := by
  have before : ∀ {u : Thread}, (gs u).put.seen = some (a, snap) → (i, key) ∈ (gs u).put.looked →
      i < cfg.branchFactor ∧ (snap.kvBlocks i).isFree = false ∧ (m'.items (snap.kvBlocks i).getAddr).key = key := by
    intro u own member
    obtain ⟨bound, live, item⟩ := inv.looked u snap i key own member
    obtain ⟨m, passed, there⟩ := inv.seen u snap own
    exact ⟨bound, live, by rw [inv.copy_item effect passed there bound live, item]⟩
  by_cases same : u = t
  · subst same
    rw [Function.update_self] at seen looked
    have whole := effect
    cases effect with
    | quiet _ _ _ put => exact before (put ▸ seen) (put ▸ looked)
    | leafSplit _ _ _ _ _ _ _ _ _ put => exact before (put ▸ seen) (put ▸ looked)
    | readLeaf => cases looked
    | lookItem own bound live =>
      obtain rfl := Prod.mk.inj (Option.some.inj (own.symm.trans seen)) |>.2
      obtain rfl := Prod.mk.inj (Option.some.inj (own.symm.trans seen)) |>.1
      rcases List.mem_append.1 looked with old | new
      · exact before seen old
      · cases List.mem_singleton.1 new
        exact ⟨bound, live, rfl⟩
    | lookKey own bound live =>
      obtain rfl := Prod.mk.inj (Option.some.inj (own.symm.trans seen)) |>.2
      obtain rfl := Prod.mk.inj (Option.some.inj (own.symm.trans seen)) |>.1
      rcases List.mem_append.1 looked with old | new
      · exact before seen old
      · cases List.mem_singleton.1 new
        exact ⟨bound, live, rfl⟩
    | _ => exact before seen looked
  · rw [Function.update_of_ne same] at seen looked
    exact before seen looked

variable [BoundedOrder Key]

theorem Permits.opened (permitted : Permits cfg t gs s.memory o r s'.memory g) (opened : ∀ u, a ∉ (gs u).smo.held)
    (opens : o.locks a r = false) : ∀ u, a ∉ (Function.update gs t g u).smo.held := by
  refine (Function.forall_update_iff gs (p := fun _ l => a ∉ l.smo.held)).2 ⟨?_, fun u _ => opened u⟩
  rw [permitted.held]
  have mine := opened t
  unfold heldNext
  split
  · rename_i site b expected desired found held
    split_ifs with taken
    · rw [List.mem_cons, not_or]
      refine ⟨?_, mine⟩
      rintro rfl
      simp [Op.locks, taken] at opens
    · exact mine
  · exact fun inside => mine (List.mem_of_mem_erase inside)
  · exact mine

theorem Cleaning.act (inv : Cleaning cfg start a gs s) (permits : (machine cfg).permits t gs s o r s' g) (fits : o.fits r = true)
    (keeps : o.updates = false) (opens : o.locks a r = false) : Cleaning cfg start a (Function.update gs t g) s' := by
  obtain ⟨leaf, born⟩ := inv.leaf
  have owning : Owning cfg (Function.update gs t g) s' := inv.owning.act permits fits
  have effect := inv.discipline.effect permits.1
  have opened := permits.1.opened inv.opened opens
  obtain ⟨now, there, fence, touch⟩ := inv.discipline.touch owning.disciplined.discipline effect inv.opened opened keeps born
  have history : s'.history = .performed t o r s.memory :: s.history := permits.2
  have anchored : ∀ key, Anchored (Ever cfg s' a key) (Copy cfg s'.memory a key) := by
    intro key
    refine Anchored.step (inv.anchored key) ?_ ?_ ?_
    · exact fun i old => (ever_step history).2 (Or.inr old)
    · exact fun i taken => ((ever_step history).1 taken).symm
    · exact fun i copy => inv.copy_kept effect born.1 there.1 touch copy
  have wanting : Wanting (Function.update gs t g) s' := by
    obtain ⟨m', h'⟩ := s'
    obtain rfl : h' = _ := history
    exact inv.wanting.act effect
  refine ⟨owning, wanting, ⟨now, there⟩, opened, ?_, (passed_step history).2 (Or.inr inv.started), ?_, ?_, ?_,
    fun u snap seen => inv.seen_step effect history seen, fun u snap i key seen looked => inv.looked_step effect seen looked,
      anchored, ?_⟩
  · refine (Function.forall_update_iff gs (p := fun _ l => l.put.freeing = none)).2 ⟨?_, fun u _ => inv.nothing u⟩
    exact effect.nothing keeps (inv.nothing t)
  · intro m x i passed is bound live
    rcases (passed_step history).1 passed with rfl | old
    · obtain rfl : now = x := Node.leaf.inj (Option.some.inj (there.1.symm.trans is))
      exact ⟨owning.owned.spent (owning.disciplined.discipline.live_of_born there bound live), rfl⟩
    · obtain ⟨spent, item⟩ := inv.spent m x i old is bound live
      exact ⟨spent.effect effect (inv.nothing t) fits, by rw [spent.kept effect, item]⟩
  · intro m x i passed is bound live
    rcases (passed_step history).1 passed with rfl | old
    · obtain rfl : now = x := Node.leaf.inj (Option.some.inj (there.1.symm.trans is))
      exact (owning.owned.fingerprint a i _ _ (owning.disciplined.discipline.live_of_born there bound live)).symm
    · exact inv.print m x i old is bound live
  · intro m x y passed is is'
    obtain rfl : now = y := Node.leaf.inj (Option.some.inj (there.1.symm.trans is'))
    rcases (passed_step history).1 passed with rfl | old
    · rw [Node.leaf.inj (Option.some.inj (is.symm.trans is'))]
    · rw [inv.fence m x leaf old is born.1, fence]
  · intro m key i passed copy
    rcases (passed_step history).1 passed with rfl | old
    · have taken : Ever cfg s' a key i := ⟨start, (passed_step history).2 (Or.inr inv.started), copy⟩
      obtain ⟨j, here, -⟩ := (anchored key).lowest taken
      exact ⟨j, here⟩
    · exact inv.lasting m key i old copy

omit [LinearOrder Key] [KeyBytes Key] [BoundedOrder Key] in
theorem ever_mark {e : Event Key Value} (mark : ∀ t o r m, e ≠ .performed t o r m) :
    Ever cfg { s with history := e :: s.history } a key i ↔ Ever cfg s a key i := by
  simp only [Ever, passed_mark mark]

omit [LinearOrder Key] [BoundedOrder Key] in
theorem Cleaning.mark (inv : Cleaning cfg start a gs s) {e : Event Key Value} (mark : ∀ t o r m, e ≠ .performed t o r m)
    (owning : Owning cfg (Function.update gs t g) { s with history := e :: s.history })
    (wanting : Wanting (Function.update gs t g) { s with history := e :: s.history }) (smo : g.smo = .idle)
    (held : (gs t).smo.fresh = none) (item : g.put.item = none) (freeing : g.put.freeing = none) (seen : g.put.seen = none) :
    Cleaning cfg start a (Function.update gs t g) { s with history := e :: s.history } := by
  -- a thread begins or ends a call
  obtain ⟨leaf, born⟩ := inv.leaf
  refine ⟨owning, wanting, ⟨leaf, (born_update (by rw [smo, held]; rfl)).2 born⟩, ?_, ?_, (passed_mark mark).2 inv.started, ?_,
    fun m x i passed => inv.print m x i ((passed_mark mark).1 passed), fun m x y passed =>
      inv.fence m x y ((passed_mark mark).1 passed), ?_, ?_, ?_, ?_⟩
  · exact (Function.forall_update_iff gs (p := fun _ l => a ∉ l.smo.held)).2 ⟨by simp [smo, Smo.idle], fun u _ => inv.opened u⟩
  · exact (Function.forall_update_iff gs (p := fun _ l => l.put.freeing = none)).2 ⟨freeing, fun u _ => inv.nothing u⟩
  · intro m x i passed is bound live
    obtain ⟨spent, same⟩ := inv.spent m x i ((passed_mark mark).1 passed) is bound live
    refine ⟨⟨spent.issued, spent.free, ?_⟩, same⟩
    exact (Function.forall_update_iff gs (p := fun _ l => ∀ item wrote, l.put.item ≠ some (_, item, wrote))).2
      ⟨by simp [item], fun u _ => spent.item u⟩
  · refine (Function.forall_update_iff gs (p := fun _ l => ∀ snap, l.put.seen = some (a, snap) → ∃ m, State.Passed _ m ∧
      m.nodes a = some (.leaf snap))).2
      ⟨by simp [seen], fun u _ snap own => ?_⟩
    obtain ⟨m, passed, there⟩ := inv.seen u snap own
    exact ⟨m, (passed_mark mark).2 passed, there⟩
  · exact (Function.forall_update_iff gs (p := fun _ l => ∀ snap i key, l.put.seen = some (a, snap) → (i, key) ∈ l.put.looked →
      i < cfg.branchFactor ∧ (snap.kvBlocks i).isFree = false ∧ (s.memory.items (snap.kvBlocks i).getAddr).key = key)).2
      ⟨by simp [seen], fun u _ => inv.looked u⟩
  · intro key i taken least
    exact inv.anchored key i ((ever_mark mark).1 taken) fun j other => least j ((ever_mark mark).2 other)
  · exact fun m key i passed copy => inv.lasting m key i ((passed_mark mark).1 passed) copy

theorem Cleaning.invoke {call : Call Key Value} (inv : Cleaning cfg start a gs s) (idle : gs t = .idle)
    (begins : (machine cfg).begins t call gs s g) : Cleaning cfg start a (Function.update gs t g)
    { s with history := .invoked t call :: s.history } := by
  have owning := inv.owning.invoke idle begins
  obtain ⟨target, is, -⟩ := begins
  have wanting : Wanting (Function.update gs t g) { s with history := .invoked t call :: s.history } :=
    inv.wanting.mark (by rw [is]; rfl) (by simp [is, callOf]) fun u other => by simp [callOf, Ne.symm other]
  subst is
  exact inv.mark (by simp) owning wanting rfl (by rw [idle]; rfl) rfl rfl rfl

theorem Cleaning.finish {call : Call Key Value} {outcome : Outcome Value} (inv : Cleaning cfg start a gs s)
    (ends : (machine cfg).ends t call outcome (gs t)) :
    Cleaning cfg start a (Function.update gs t .idle) { s with history := .returned t call outcome :: s.history } := by
  have wanting : Wanting (Function.update gs t .idle) { s with history := .returned t call outcome :: s.history } :=
    inv.wanting.mark (g := .idle) rfl (by simp [callOf, Local.idle, Put.idle]) fun u other => by simp [callOf, Ne.symm other]
  exact inv.mark (by simp) (inv.owning.finish ends) wanting rfl (by rw [ends.1]; rfl) rfl rfl rfl

/-- No item is freed by mistake or replaced in place, and nobody locks the leaf. -/
def unsplit (a : GlobalAddress) : Condition (signature Key Value) Thread (State Key Value) := fun _ o r _ =>
  Op.fits o r = true ∧ Op.updates o = false ∧ Op.locks a o r = false

theorem preserves_cleaning {admits : State Key Value → Thread → Call Key Value → Prop} :
    Preserves (system cfg admits fun _ _ => False) (machine cfg) (Cleaning cfg start a) (unsplit a) where
  invoke _ _ _ _ _ inv idle _ begins := inv.invoke idle begins
  act _ _ _ _ _ _ _ _ inv _ met permits := inv.act permits met.1 met.2.1 met.2.2
  finish _ _ _ _ _ inv ends := inv.finish ends
  env _ _ _ _ moved := moved.1.elim

omit [LinearOrder Key] [BoundedOrder Key] in
theorem Owning.cleaning {leaf : LeafNode Key} (owning : Owning cfg (fun _ => .idle) ⟨start, []⟩)
    (there : start.nodes a = some (.leaf leaf)) :
    Cleaning cfg start a (fun _ => .idle) ⟨start, []⟩ := by
  -- a leaf of an index at rest
  have only : ∀ m, State.Passed (⟨start, []⟩ : State Key Value) m → m = start := by
    rintro m (rfl | ⟨_, _, _, inside⟩)
    · rfl
    · cases inside
  have born : ∀ {x : LeafNode Key}, start.nodes a = some (.leaf x) → Born (fun _ => .idle) start a (.leaf x) := by
    refine fun is => ⟨is, ?_⟩
    rintro ⟨t, content, own⟩
    cases own
  refine ⟨owning, ⟨fun t => rfl, by rintro _ _ _ _ ⟨⟩⟩, ⟨leaf, born there⟩,
    fun t => by simp [Local.idle, Smo.idle], fun t => rfl, passed_now _, ?_, ?_, ?_, ?_, ?_, ?_, ?_⟩
  · intro m x i passed is bound live
    obtain rfl := only m passed
    exact ⟨owning.owned.spent (owning.disciplined.discipline.live_of_born (born is) bound live), rfl⟩
  · intro m x i passed is bound live
    obtain rfl := only m passed
    exact (owning.owned.fingerprint a i _ _ (owning.disciplined.discipline.live_of_born (born is) bound live)).symm
  · intro m x y passed is is'
    obtain rfl := only m passed
    rw [Node.leaf.inj (Option.some.inj (is.symm.trans is'))]
  · rintro t snap ⟨⟩
  · rintro t snap i key ⟨⟩
  · rintro key i ⟨m, passed, copy⟩ -
    rwa [only m passed] at copy
  · intro m key i passed copy
    rw [only m passed]
    exact ⟨i, copy⟩

end

end

end Faunus
