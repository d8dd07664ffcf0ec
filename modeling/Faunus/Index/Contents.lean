import Faunus.Index.Dangling

/-! Which keys the leaves hold.

As long as every successful exchange hits what it was meant for, the keys of a
leaf lie inside its fence and no key leaves the tree.
-/

set_option autoImplicit false

namespace Faunus

open Interleaving

variable {Key Value : Type} [LinearOrder Key]

/-! ## Exchanges that hit -/

/-- A successful exchange of an insert hits a leaf whose fence has the key. -/
def Op.lands (m : Memory Key Value) : (o : Op Key Value) → o.act.Reply → Bool
  | ⟨.insert, .casBlock a _ expected desired⟩, (found : KVBlock) =>
    match m.nodes a with
    | some (.leaf leaf) => decide (found ≠ expected) || decide (leaf.header.covers (m.items desired.getAddr).key)
    | _ => true
  | _, _ => true

/-- A successful update replaces a block of the same key. -/
def Op.matches (m : Memory Key Value) : (o : Op Key Value) → o.act.Reply → Bool
  | ⟨.tryUpdateKvblock, .casBlock _ _ expected desired⟩, (found : KVBlock) =>
    decide (found ≠ expected) || decide ((m.items expected.getAddr).key = (m.items desired.getAddr).key)
  | _, _ => true

/-- A successful deletion leaves a live block of the same key in a lower slot. -/
def Op.spares (m : Memory Key Value) : (o : Op Key Value) → o.act.Reply → Bool
  | ⟨.tryDeleteKvblock, .casBlock a i expected _⟩, (found : KVBlock) =>
    match m.nodes a with
    | some (.leaf leaf) => decide (found ≠ expected) || (List.range i).any fun j =>
        !(leaf.kvBlocks j).isFree && decide ((m.items (leaf.kvBlocks j).getAddr).key = (m.items expected.getAddr).key)
    | _ => true
  | _, _ => true

/-! ## Keys inside fences -/

/-- The keys of a leaf lie inside its fence, and a splitting thread knows the keys of the blocks it has read. -/
structure Contents (cfg : Config) (gs : Thread → Local Key Value) (m : Memory Key Value) : Prop where
  inside : ∀ a leaf, Born gs m a (.leaf leaf) → ∀ i x fp, Live cfg gs m a i x fp → leaf.header.covers (m.items x).key
  keyed : ∀ t snap, (gs t).smo.kept = some snap → ∀ e ∈ (gs t).smo.keyed,
    (m.items e.2.getAddr).key = e.1 ∧ ∃ i < cfg.branchFactor, snap.kvBlocks i = e.2 ∧ e.2.isFree = false

section
variable {cfg : Config} {gs : Thread → Local Key Value} {m m' : Memory Key Value} {t : Thread} {g : Local Key Value}
  {a : GlobalAddress}

theorem Contents.keptInside (contents : Contents cfg gs m) (inv : Discipline gs m cfg) : KeptInside cfg gs m := by
  intro t snap kept i taken
  obtain ⟨a, leaf, only, born, header, -⟩ := inv.notes.kept t snap kept
  simp only [takenIndices, List.mem_filter, List.mem_range, Bool.not_eq_true'] at taken
  rw [← header]
  exact contents.inside a leaf born i _ _ ⟨snap, Or.inl ⟨t, only, kept⟩, taken.1, taken.2, rfl, rfl⟩

theorem Contents.keyed_live {snap : LeafNode Key} {e : Key × KVBlock} (contents : Contents cfg gs m)
    (only : (gs t).smo.held = [a]) (kept : (gs t).smo.kept = some snap) (member : e ∈ (gs t).smo.keyed) :
    ∃ i fp, Live cfg gs m a i e.2.getAddr fp := by
  obtain ⟨-, i, bound, eq, live⟩ := contents.keyed t snap kept e member
  exact ⟨i, _, snap, Or.inl ⟨t, only, kept⟩, bound, eq ▸ live, by rw [eq], rfl⟩

theorem Contents.keep (contents : Contents cfg gs m) (inv : Discipline gs m cfg)
    (live : ∀ b i x fp, Live cfg (Function.update gs t g) m' b i x fp → Live cfg gs m b i x fp)
    (leaves : ∀ b leaf, Born (Function.update gs t g) m' b (.leaf leaf) →
      ∃ old, Born gs m b (.leaf old) ∧ old.header.fence = leaf.header.fence)
    (items : ∀ b i x fp, Live cfg gs m b i x fp → m'.items x = m.items x)
    (own : ∀ snap, g.smo.kept = some snap → ∀ e ∈ g.smo.keyed,
      (m'.items e.2.getAddr).key = e.1 ∧ ∃ i < cfg.branchFactor, snap.kvBlocks i = e.2 ∧ e.2.isFree = false) :
    Contents cfg (Function.update gs t g) m' := by
  refine ⟨fun b leaf born i x fp now => ?_, ?_⟩
  · obtain ⟨old, before, fence⟩ := leaves b leaf born
    have covers := contents.inside b old before i x fp (live b i x fp now)
    rw [items b i x fp (live b i x fp now)]
    exact ⟨fence ▸ covers.1, fence ▸ covers.2⟩
  · refine (Function.forall_update_iff gs (p := fun _ l => ∀ snap, l.smo.kept = some snap → ∀ e ∈ l.smo.keyed,
      (m'.items e.2.getAddr).key = e.1 ∧ ∃ i < cfg.branchFactor, snap.kvBlocks i = e.2 ∧ e.2.isFree = false)).2
      ⟨own, fun u _ snap kept e member => ?_⟩
    obtain ⟨b, -, only, -⟩ := inv.notes.kept u snap kept
    obtain ⟨i, fp, there⟩ := contents.keyed_live only kept member
    rw [items b i _ fp there]
    exact contents.keyed u snap kept e member

theorem Contents.place [KeyBytes Key] {leaf : LeafNode Key} {i : ℕ} {x : GlobalAddress} {item : KVItem Key Value}
    (contents : Contents cfg gs m) (owned : Owned cfg gs m) (inv : Discipline gs m cfg) (born : Born gs m a (.leaf leaf))
    (bound : i < cfg.branchFactor) (unlocked : (leaf.kvBlocks i).isLocked = false)
    (own : (gs t).put.item = some (x, item, true)) (smo : g.smo = (gs t).smo) (covers : leaf.header.covers item.key) :
    Contents cfg (Function.update gs t g)
      (m.setNode a (.leaf (leaf.setBlock i (.make (.ofKey item.key) x false false)))) := by
  -- a block of a key inside the fence takes an unlocked slot
  have fits := (owned.issued x (.item t) ⟨item, true, own⟩).2
  refine ⟨fun b now present j y fp live => ?_, ?_⟩
  · rw [born_update (by rw [smo]), born_setNode born] at present
    have cases := inv.live_setBlock born bound unlocked smo live
    rw [KVBlock.getAddr_make _ _ fits] at cases
    rcases cases with ⟨rfl, rfl, rfl, -⟩ | ⟨-, old⟩
    · rcases present with ⟨-, eq⟩ | ⟨other, -⟩
      · cases eq
        simp only [Memory.setNode, owned.written t x item own]
        exact covers
      · exact absurd rfl other
    · rcases present with ⟨rfl, eq⟩ | ⟨-, before⟩
      · cases eq
        exact contents.inside b leaf born j y fp old
      · exact contents.inside b now before j y fp old
  · refine (Function.forall_update_iff gs (p := fun _ l => ∀ snap, l.smo.kept = some snap → ∀ e ∈ l.smo.keyed,
      (m.items e.2.getAddr).key = e.1 ∧ ∃ i < cfg.branchFactor, snap.kvBlocks i = e.2 ∧ e.2.isFree = false)).2
      ⟨?_, fun u _ => contents.keyed u⟩
    rw [smo]
    exact contents.keyed t

theorem Contents.splitLeaf {new : GlobalAddress} {leaf left right : LeafNode Key} {entries : List (Key × KVBlock)}
    {middleKey : Key} {block : KVBlock} (contents : Contents cfg gs m) (inv : Discipline gs m cfg)
    (only : (gs t).smo.held = [a]) (kept : (gs t).smo.kept = some leaf)
    (sorted : entries = OrderedMap.ofList (gs t).smo.keyed)
    (middle : entries[entries.length / 2]? = some (middleKey, block))
    (distributes : Distributes cfg leaf entries middleKey left right)
    (fresh : (gs t).smo.fresh = some (new, some (.leaf right))) (published : g.smo.fresh = none) (forgotten : g.smo.kept = none) :
    Contents cfg (Function.update gs t g) (m.setNode a (.leaf left)) := by
  obtain ⟨b, now, only', born, header, -⟩ := inv.notes.kept t leaf kept
  obtain rfl : a = b := by simpa [only] using only'
  have order : OrderedMap.Sorted entries := sorted ▸ OrderedMap.sorted_ofList _
  have different : new ≠ a := by
    rintro rfl
    exact born.2 ⟨t, _, fresh⟩
  -- an entry's item has the entry's key, inside the old fence
  have entry : ∀ {k : ℕ} {e : Key × KVBlock}, entries[k]? = some e →
      (m.items e.2.getAddr).key = e.1 ∧ leaf.header.covers e.1 := by
    intro k e found
    have member : e ∈ (gs t).smo.keyed := OrderedMap.mem_of_mem_ofList (sorted ▸ List.mem_of_getElem? found)
    have key := (contents.keyed t leaf kept e member).1
    obtain ⟨i, fp, live⟩ := contents.keyed_live only kept member
    have covers := contents.inside a now born i _ fp live
    rw [key, header] at covers
    exact ⟨key, covers⟩
  refine ⟨fun b x present i y fp live => ?_, ?_⟩
  · have cases := inv.live_split only kept order middle distributes fresh published forgotten live
    rcases (inv.levels.born_split born fresh published).1 present with ⟨rfl, eq⟩ | ⟨other, old | ⟨rfl, eq⟩⟩
    · cases eq
      rcases cases with ⟨off, -⟩ | ⟨k, e, found, ⟨-, -, low⟩ | ⟨same, -⟩, rfl, -⟩
      · exact absurd rfl off
      · obtain ⟨key, covers⟩ := entry found
        rw [distributes.leftHeader]
        simp only [Memory.setNode, key]
        exact ⟨covers.1, order.lt low found middle⟩
      · exact absurd same.symm different
    · rcases cases with ⟨-, -, before⟩ | ⟨k, e, -, ⟨same, -⟩ | ⟨rfl, -⟩, -⟩
      · exact contents.inside b x old i y fp before
      · exact absurd same other
      · exact absurd ⟨t, _, fresh⟩ old.2
    · cases eq
      rcases cases with ⟨-, off, -⟩ | ⟨k, e, found, ⟨same, -⟩ | ⟨-, rfl⟩, rfl, -⟩
      · exact absurd rfl off
      · exact absurd same other
      · obtain ⟨key, covers⟩ := entry found
        rw [distributes.rightHeader]
        simp only [Memory.setNode, key]
        refine ⟨?_, covers.2⟩
        rcases Nat.eq_zero_or_pos i with rfl | positive
        · rw [Nat.zero_add] at found
          exact le_of_eq (congrArg Prod.fst (Option.some.inj (middle.symm.trans found)))
        · exact le_of_lt (order.lt (by omega) middle found)
  · exact (Function.forall_update_iff gs (p := fun _ l => ∀ snap, l.smo.kept = some snap → ∀ e ∈ l.smo.keyed,
      (m.items e.2.getAddr).key = e.1 ∧ ∃ i < cfg.branchFactor, snap.kvBlocks i = e.2 ∧ e.2.isFree = false)).2
      ⟨by simp [forgotten], fun u _ => contents.keyed u⟩

variable [KeyBytes Key] {o : Op Key Value} {r : o.act.Reply}

omit [LinearOrder Key] in
theorem Owned.placing {x : GlobalAddress} {item : KVItem Key Value} (owned : Owned cfg gs m)
    (own : (gs t).put.item = some (x, item, true)) :
    m.items (KVBlock.make (.ofKey item.key) x false false).getAddr = item := by
  rw [KVBlock.getAddr_make _ _ (owned.issued x (.item t) ⟨item, true, own⟩).2]
  exact owned.written t x item own

theorem Owned.replacing {leaf : LeafNode Key} {i : ℕ} {x : GlobalAddress} {item : KVItem Key Value} (owned : Owned cfg gs m)
    (own : (gs t).put.item = some (x, item, true))
    (hits : Op.matches m ⟨.tryUpdateKvblock, .casBlock a i (leaf.kvBlocks i) (.make (.ofKey item.key) x false false)⟩
      (leaf.kvBlocks i) = true) : (m.items (leaf.kvBlocks i).getAddr).key = item.key := by
  simpa [Op.matches, owned.placing own] using hits

theorem Owned.live_item {b x : GlobalAddress} {i : ℕ} {fp : Fingerprint} (owned : Owned cfg gs m)
    (effect : Effect cfg t gs m o r m' g)
    (live : Live cfg gs m b i x fp) : m'.items x = m.items x := by
  cases effect with
  | quiet _ _ _ _ items => rw [items]
  | allocItem allocated =>
    obtain ⟨-, -, -, -, -, -, items⟩ := owned.allocated allocated
    rw [items]
  | @writeItem a item own =>
    have other : x ≠ a := by
      rintro rfl
      cases owned.unique x (.item t) (.slot b i) ⟨item, false, own⟩ ⟨fp, live⟩
    simp only [Memory.setItem, Function.update_of_ne other]
  | _ => rfl

theorem Contents.effect (contents : Contents cfg gs m) (owned : Owned cfg gs m) (inv : Discipline gs m cfg)
    (effect : Effect cfg t gs m o r m' g) (lands : o.lands m r = true) (hits : o.matches m r = true) :
    Contents cfg (Function.update gs t g) m' := by
  have items : ∀ b i x fp, Live cfg gs m b i x fp → m'.items x = m.items x := fun _ _ _ _ => owned.live_item effect
  have look : g.smo = (gs t).smo → m'.nodes = m.nodes → Contents cfg (Function.update gs t g) m' := by
    intro smo nodes
    refine contents.keep inv (fun _ _ _ _ => (live_same smo nodes).1) (fun b leaf born => ?_) items ?_
    · rw [born_update (by rw [smo])] at born
      exact ⟨leaf, ⟨nodes ▸ born.1, born.2⟩, rfl⟩
    · rw [smo]
      intro snap kept e member
      obtain ⟨b, -, only, -⟩ := inv.notes.kept t snap kept
      obtain ⟨i, fp, live⟩ := contents.keyed_live only kept member
      rw [items b i _ fp live]
      exact contents.keyed t snap kept e member
  cases effect with
  | quiet _ same notes put same_items free issued =>
    refine contents.keep inv (fun _ _ _ _ => inv.live_quiet same (notes.imp id fun keep => ⟨keep.1, keep.2.1⟩))
      (fun b leaf born => ?_) items ?_
    · obtain ⟨old, before, like⟩ := same.before b leaf born
      exact ⟨old, before, like.fence.symm⟩
    · rw [same_items]
      rcases notes with none | ⟨-, kept, keyed⟩
      · simp [none]
      · rw [kept, keyed]
        exact contents.keyed t
  | @readKept a leaf born only =>
    refine contents.keep inv (fun b i x fp live => ?_) (fun b now present => ⟨now, (born_update (by rfl)).1 present, rfl⟩)
      (fun _ _ _ _ _ => rfl) (by simp)
    rcases live_cases live with old | ⟨now, ⟨held, is⟩ | present, bound, taken, rfl, rfl⟩
    · exact old
    · obtain rfl : a = b := by simpa [only] using held
      cases is
      exact inv.live_of_born born bound taken
    · exact inv.live_of_born ((born_update (by rfl)).1 present) bound taken
  | @readKeptKey a leaf i only kept bound taken =>
    refine contents.keep inv (fun _ _ _ _ => inv.live_quiet (sameLeaves_of_born fun _ _ => born_update (by rfl))
      (Or.inr ⟨rfl, rfl⟩)) (fun b now present => ⟨now, (born_update (by rfl)).1 present, rfl⟩) (fun _ _ _ _ _ => rfl) ?_
    intro snap is e member
    obtain rfl : leaf = snap := Option.some.inj (kept.symm.trans is)
    rcases List.mem_append.1 member with old | new
    · exact contents.keyed t leaf kept e old
    · rw [List.mem_singleton.1 new]
      exact ⟨rfl, i, bound, rfl, taken⟩
  | leafSplit only kept all sorted middle distributes fresh published forgotten put =>
    exact contents.splitLeaf inv only kept sorted middle distributes fresh published forgotten
  | allocItem allocated => exact look rfl (Memory.allocItem_frame allocated).1
  | writeItem => exact look rfl rfl
  | readLeaf => exact look rfl rfl
  | lookItem => exact look rfl rfl
  | lookKey => exact look rfl rfl
  | slotFilled born eq ready bound free =>
    refine contents.place owned inv born bound (eq ▸ ready.slots _ bound) ready.written rfl ?_
    simpa [Op.lands, born.1, eq, owned.placing ready.written] using lands
  | slotUpdated born ready candidate taken unlocked =>
    refine contents.place owned inv born candidate.1 unlocked ready.written rfl ?_
    rw [← owned.replacing ready.written hits]
    exact contents.inside _ _ born _ _ _ (inv.live_of_born born candidate.1 taken)
  | slotDeleted born eq seen covers candidate other lower looked also freed =>
    refine contents.keep inv (fun _ _ _ _ => inv.live_setFree born freed) (fun b now present => ?_) (fun _ _ _ _ _ => rfl)
      (contents.keyed t)
    rw [Function.update_eq_self, born_setNode born] at present
    rcases present with ⟨rfl, eq⟩ | ⟨-, old⟩
    · cases eq
      exact ⟨_, born, rfl⟩
    · exact ⟨now, old, rfl⟩
  | freeReplaced => exact look rfl rfl
  | freeDeleted => exact look rfl rfl

end

/-! ## Keys in the tree -/

/-- A leaf of the tree has a live block of the key. -/
def Present (cfg : Config) (gs : Thread → Local Key Value) (m : Memory Key Value) (key : Key) : Prop :=
  ∃ a leaf i, Born gs m a (.leaf leaf) ∧ i < cfg.branchFactor ∧ (leaf.kvBlocks i).isFree = false ∧
    (m.items (leaf.kvBlocks i).getAddr).key = key

section
variable {cfg : Config} {gs : Thread → Local Key Value} {m m' : Memory Key Value} {t : Thread} {g : Local Key Value}
  {a : GlobalAddress} {key : Key}

omit [LinearOrder Key] in
theorem Present.keep {gs' : Thread → Local Key Value} (present : Present cfg gs m key) (inv : Discipline gs m cfg)
    (after : ∀ b old, Born gs m b (.leaf old) → ∃ now, Born gs' m' b (.leaf now) ∧ LikeLeaf cfg old now)
    (items : ∀ b i x fp, Live cfg gs m b i x fp → m'.items x = m.items x) : Present cfg gs' m' key := by
  obtain ⟨b, leaf, i, born, bound, taken, rfl⟩ := present
  obtain ⟨now, there, like⟩ := after b leaf born
  refine ⟨b, now, i, there, bound, (like.isFree bound).trans taken, ?_⟩
  rw [like.getAddr bound, items b i _ _ (inv.live_of_born born bound taken)]

omit [LinearOrder Key] in
theorem Discipline.entry_placed {new : GlobalAddress} {leaf left right : LeafNode Key} {entries : List (Key × KVBlock)}
    {middleKey : Key} (inv : Discipline gs m cfg) (only : (gs t).smo.held = [a]) (kept : (gs t).smo.kept = some leaf)
    (distributes : Distributes cfg leaf entries middleKey left right)
    (fresh : (gs t).smo.fresh = some (new, some (.leaf right))) (published : g.smo.fresh = none)
    (short : entries.length ≤ cfg.branchFactor) {e : Key × KVBlock} (inside : e ∈ entries) :
    ∃ c node j, Born (Function.update gs t g) (m.setNode a (.leaf left)) c (.leaf node) ∧ j < cfg.branchFactor ∧
      node.kvBlocks j = e.2.setLocked false := by
  -- every entry of the map stands in one of the two leaves
  obtain ⟨b, now, only', born, -, -⟩ := inv.notes.kept t leaf kept
  obtain rfl : a = b := by simpa [only] using only'
  have different : new ≠ a := by
    rintro rfl
    exact born.2 ⟨t, _, fresh⟩
  obtain ⟨n, found⟩ := List.mem_iff_getElem?.1 inside
  obtain ⟨small, -⟩ := List.getElem?_eq_some_iff.1 found
  by_cases low : n < entries.length / 2
  · exact ⟨a, left, n, (inv.levels.born_split born fresh published).2
      (Or.inl ⟨rfl, rfl⟩), by omega, distributes.leftKept n low e found⟩
  · have position : n - entries.length / 2 + entries.length / 2 = n := by omega
    refine ⟨new, right, n - entries.length / 2,
      (inv.levels.born_split born fresh published).2 (Or.inr ⟨different, Or.inr ⟨rfl, rfl⟩⟩), by omega, ?_⟩
    exact distributes.rightKept (n - entries.length / 2) (by omega) e (by rw [position]; exact found)

theorem entries_short {leaf : LeafNode Key} {entries : List (Key × KVBlock)}
    (all : (gs t).smo.keyed.map Prod.snd = (takenIndices cfg.branchFactor leaf).map leaf.kvBlocks)
    (sorted : entries = OrderedMap.ofList (gs t).smo.keyed) : entries.length ≤ cfg.branchFactor := by
  have one := OrderedMap.length_ofList_le (gs t).smo.keyed
  have two := congrArg List.length all
  have three := List.length_filter_le (fun i => !(leaf.kvBlocks i).isFree) (List.range cfg.branchFactor)
  simp only [List.length_map, List.length_range, takenIndices] at two three
  rw [sorted]
  omega

theorem Present.splitLeaf {new : GlobalAddress} {leaf left right : LeafNode Key} {entries : List (Key × KVBlock)}
    {middleKey : Key} (present : Present cfg gs m key) (contents : Contents cfg gs m) (inv : Discipline gs m cfg)
    (only : (gs t).smo.held = [a]) (kept : (gs t).smo.kept = some leaf)
    (all : (gs t).smo.keyed.map Prod.snd = (takenIndices cfg.branchFactor leaf).map leaf.kvBlocks)
    (sorted : entries = OrderedMap.ofList (gs t).smo.keyed)
    (distributes : Distributes cfg leaf entries middleKey left right)
    (fresh : (gs t).smo.fresh = some (new, some (.leaf right))) (published : g.smo.fresh = none) :
    Present cfg (Function.update gs t g) (m.setNode a (.leaf left)) key := by
  -- a split keeps a block of every key
  obtain ⟨b, now, only', born, -, blocks⟩ := inv.notes.kept t leaf kept
  obtain rfl : a = b := by simpa [only] using only'
  obtain ⟨c, x, i, there, bound, taken, item⟩ := present
  by_cases same : c = a
  · subst same
    obtain rfl := Node.leaf.inj (born_unique there born)
    have block : x.kvBlocks i = leaf.kvBlocks i := (blocks i).resolve_right fun gone => by simp [taken] at gone
    rw [block] at taken item
    -- the key was read with this block, and the map keeps an entry of it
    have listed : leaf.kvBlocks i ∈ (gs t).smo.keyed.map Prod.snd := by
      rw [all]
      refine List.mem_map_of_mem ?_
      simp [takenIndices, bound, taken]
    obtain ⟨e, member, eq⟩ := List.mem_map.1 listed
    obtain ⟨e', inside, sameKey⟩ := OrderedMap.key_ofList member
    have first := (contents.keyed t leaf kept e member).1
    obtain ⟨second, -, -, -, live⟩ := contents.keyed t leaf kept e' (OrderedMap.mem_of_mem_ofList inside)
    have is : (m.items e'.2.getAddr).key = key := by rw [second, sameKey, ← first, eq, item]
    rw [← sorted] at inside
    obtain ⟨d, node, j, placed, small, block⟩ := inv.entry_placed only kept distributes fresh published
      (entries_short all sorted) inside
    refine ⟨d, node, j, placed, small, ?_⟩
    rw [block]
    simpa [Memory.setNode] using ⟨live, is⟩
  · exact ⟨c, x, i, (inv.levels.born_split born fresh published).2 (Or.inr ⟨same, Or.inl there⟩), bound, taken, item⟩

variable [KeyBytes Key] {o : Op Key Value} {r : o.act.Reply}

omit [LinearOrder Key] in
theorem Owned.present {leaf : LeafNode Key} {i : ℕ} {x : GlobalAddress} {item : KVItem Key Value} (owned : Owned cfg gs m)
    (born : Born gs m a (.leaf leaf)) (bound : i < cfg.branchFactor) (own : (gs t).put.item = some (x, item, true))
    (fresh : g.smo.fresh = (gs t).smo.fresh) :
    Present cfg (Function.update gs t g)
      (m.setNode a (.leaf (leaf.setBlock i (.make (.ofKey item.key) x false false)))) item.key := by
  refine ⟨a, _, i, (born_update fresh).2 ((born_setNode born).2 (Or.inl ⟨rfl, rfl⟩)), bound, ?_, ?_⟩
  · simp [LeafNode.setBlock]
  · simp only [LeafNode.setBlock, Function.update_self, Memory.setNode, owned.placing own]

omit [LinearOrder Key] [KeyBytes Key] in
theorem Present.setBlock {leaf : LeafNode Key} {i : ℕ} {block : KVBlock} (present : Present cfg gs m key)
    (born : Born gs m a (.leaf leaf)) (fresh : g.smo.fresh = (gs t).smo.fresh)
    (here : (leaf.kvBlocks i).isFree = false → (m.items (leaf.kvBlocks i).getAddr).key = key →
      Present cfg (Function.update gs t g) (m.setNode a (.leaf (leaf.setBlock i block))) key) :
    Present cfg (Function.update gs t g) (m.setNode a (.leaf (leaf.setBlock i block))) key := by
  obtain ⟨b, x, j, there, bound, taken, item⟩ := present
  by_cases same : b = a
  · subst same
    obtain rfl := Node.leaf.inj (born_unique there born)
    by_cases at_ : j = i
    · subst at_
      exact here taken item
    · refine ⟨b, _, j, (born_update fresh).2 ((born_setNode born).2 (Or.inl ⟨rfl, rfl⟩)), bound, ?_⟩
      simpa only [LeafNode.setBlock, Function.update_of_ne at_] using ⟨taken, item⟩
  · exact ⟨b, x, j, (born_update fresh).2 ((born_setNode born).2 (Or.inr ⟨same, there⟩)), bound, taken, item⟩

theorem Present.effect (present : Present cfg gs m key) (contents : Contents cfg gs m) (owned : Owned cfg gs m)
    (inv : Discipline gs m cfg) (effect : Effect cfg t gs m o r m' g) (hits : o.matches m r = true)
    (spares : o.spares m r = true) : Present cfg (Function.update gs t g) m' key := by
  have items : ∀ b i x fp, Live cfg gs m b i x fp → m'.items x = m.items x := fun _ _ _ _ => owned.live_item effect
  have look : g.smo = (gs t).smo → m'.nodes = m.nodes → Present cfg (Function.update gs t g) m' key :=
    fun smo nodes => present.keep inv (sameLeaves_look smo nodes).after items
  cases effect with
  | quiet _ same => exact present.keep inv same.after items
  | readKept =>
    exact present.keep inv (sameLeaves_of_born fun _ _ => born_update (by rfl)).after fun _ _ _ _ _ => rfl
  | readKeptKey =>
    exact present.keep inv (sameLeaves_of_born fun _ _ => born_update (by rfl)).after fun _ _ _ _ _ => rfl
  | leafSplit only kept all sorted middle distributes fresh published =>
    exact present.splitLeaf contents inv only kept all sorted distributes fresh published
  | allocItem allocated => exact look rfl (Memory.allocItem_frame allocated).1
  | writeItem => exact look rfl rfl
  | readLeaf => exact look rfl rfl
  | lookItem => exact look rfl rfl
  | lookKey => exact look rfl rfl
  | slotFilled born eq ready bound free =>
    refine present.setBlock born rfl fun taken _ => ?_
    rw [eq, free] at taken
    cases taken
  | slotUpdated born ready candidate taken unlocked =>
    refine present.setBlock born rfl fun _ item => ?_
    have new := owned.replacing ready.written hits
    rw [item] at new
    rw [new]
    exact owned.present born candidate.1 ready.written rfl
  | @slotDeleted a leaf snap i _ _ _ born eq seen covers candidate =>
    refine present.setBlock born rfl fun _ item => ?_
    obtain ⟨j, lower, live, same⟩ : ∃ j < i, (leaf.kvBlocks j).isFree = false ∧
        (m.items (leaf.kvBlocks j).getAddr).key = (m.items (leaf.kvBlocks i).getAddr).key := by
      simpa [Op.spares, born.1, eq] using spares
    refine ⟨a, _, j, (born_update (by rfl)).2 ((born_setNode born).2 (Or.inl ⟨rfl, rfl⟩)), lt_trans lower candidate.1, ?_⟩
    simpa only [LeafNode.setBlock, Function.update_of_ne (ne_of_lt lower)] using ⟨live, same.trans item⟩
  | freeReplaced => exact look rfl rfl
  | freeDeleted => exact look rfl rfl

end

/-! ## Runs -/

section
variable [BoundedOrder Key] [KeyBytes Key] {cfg : Config} {gs : Thread → Local Key Value} {s s' : State Key Value} {t : Thread}
  {call : Call Key Value} {g : Local Key Value}

structure Storing (cfg : Config) (gs : Thread → Local Key Value) (s : State Key Value) : Prop where
  owning : Owning cfg gs s
  shape : Shape gs s.memory
  contents : Contents cfg gs s.memory

omit [KeyBytes Key] in
theorem Storing.discipline [KeyBytes Key] (inv : Storing cfg gs s) : Discipline gs s.memory cfg := inv.owning.disciplined.discipline

theorem Storing.leaf_unique {a b : GlobalAddress} {one two : LeafNode Key} {key : Key} (inv : Storing cfg gs s)
    (first : Born gs s.memory a (.leaf one)) (second : Born gs s.memory b (.leaf two)) (covers : one.header.covers key)
    (also : two.header.covers key) : a = b := by
  obtain ⟨top, forest⟩ := inv.shape.forest
  have bottom : one.header.level = 0 := inv.discipline.levels.sound a _ first
  have bottom' : two.header.level = 0 := inv.discipline.levels.sound b _ second
  exact forest.disjoint a b _ _ key (tiles_born first) (tiles_born second) (bottom.trans bottom'.symm) covers also

theorem Storing.present_here {a : GlobalAddress} {leaf : LeafNode Key} {key : Key} (inv : Storing cfg gs s)
    (present : Present cfg gs s.memory key) (born : Born gs s.memory a (.leaf leaf)) (covers : leaf.header.covers key) :
    ∃ i, candidate cfg leaf key i ∧ (s.memory.items (leaf.kvBlocks i).getAddr).key = key := by
  obtain ⟨b, other, i, there, bound, taken, item⟩ := present
  have live := inv.discipline.live_of_born there bound taken
  have inside := inv.contents.inside b other there i _ _ live
  rw [item] at inside
  obtain rfl := inv.leaf_unique born there covers inside
  obtain rfl := Node.leaf.inj (born_unique there born)
  refine ⟨i, ⟨bound, taken, ?_⟩, item⟩
  rw [← inv.owning.owned.fingerprint a i _ _ live, item]

omit [BoundedOrder Key] [KeyBytes Key] in
theorem Contents.reset {m : Memory Key Value} (contents : Contents cfg gs m) (inv : Discipline gs m cfg)
    (smo : g.smo = (gs t).smo) : Contents cfg (Function.update gs t g) m := by
  refine contents.keep inv (fun _ _ _ _ => (live_same smo rfl).1) (fun b leaf born => ⟨leaf, ?_, rfl⟩) (fun _ _ _ _ _ => rfl) ?_
  · exact (born_update (by rw [smo])).1 born
  · rw [smo]
    exact contents.keyed t

theorem Storing.invoke (inv : Storing cfg gs s) (idle : gs t = .idle) (begins : (machine cfg).begins t call gs s g) :
    Storing cfg (Function.update gs t g) { s with history := .invoked t call :: s.history } := by
  have owning := inv.owning.invoke idle begins
  obtain ⟨target, rfl, -⟩ := begins
  have smo : Smo.idle = (gs t).smo := by rw [idle]; rfl
  exact ⟨owning, inv.shape.update (.update (by rw [← smo]) (by rw [← smo]) rfl rfl) (by simp [Smo.idle]),
    inv.contents.reset inv.discipline smo⟩

theorem Storing.act {o : Op Key Value} {r : o.act.Reply} (wide : 2 ≤ cfg.branchFactor) (inv : Storing cfg gs s)
    (permits : (machine cfg).permits t gs s o r s' g) (fits : o.fits r = true) (lands : o.lands s.memory r = true)
    (hits : o.matches s.memory r = true) : Storing cfg (Function.update gs t g) s' :=
  ⟨inv.owning.act permits fits,
    inv.shape.permits inv.discipline wide (inv.contents.keptInside inv.discipline) permits.1,
    inv.contents.effect inv.owning.owned inv.discipline (inv.discipline.effect permits.1) lands hits⟩

theorem Storing.finish {outcome : Outcome Value} (inv : Storing cfg gs s) (ends : (machine cfg).ends t call outcome (gs t)) :
    Storing cfg (Function.update gs t .idle) { s with history := .returned t call outcome :: s.history } := by
  have smo : Smo.idle = (gs t).smo := ends.1.symm
  exact ⟨inv.owning.finish ends, inv.shape.update (.update (by rw [← smo]; rfl) (by rw [← smo]; rfl) rfl rfl)
    (by simp [Local.idle, Smo.idle]), inv.contents.reset inv.discipline smo⟩

theorem storing_initialized [Nontrivial Key] {m : Memory Key Value} (initialized : m.Initialized) :
    Storing cfg (fun _ => .idle) ⟨m, []⟩ := by
  have owning : Owning cfg (fun _ => .idle) ⟨m, []⟩ := owning_initialized initialized
  refine ⟨owning, shape_initialized initialized, ⟨fun a leaf born i x fp live => ?_, fun t snap kept => (by cases kept)⟩⟩
  have issued := (owning.owned.issued x (.slot a i) ⟨fp, live⟩).1
  rw [initialized.itemsIssued] at issued
  cases issued

end

end Faunus
