import Faunus.Index.Misses
import Faunus.Index.Partition
import Faunus.Index.Sites

/-! What becomes of the items.

An item that was handed out is in a live block, in a free list, or with the insert that
works on it. Items get lost where a deletion removes a block, where a split drops a
duplicate and where an update gives up.
-/

set_option autoImplicit false

namespace Faunus

open Interleaving

variable {Key Value : Type}

/-! ## What an insert has in hand -/

/-- The item an insert has allocated and not put into a slot yet. -/
def handNext : (o : Op Key Value) → o.act.Reply → Option GlobalAddress → Option GlobalAddress
  | ⟨site, .allocItem⟩, (a : GlobalAddress), item => if site = .insert then some a else item
  | ⟨site, .casBlock _ _ expected _⟩, (found : KVBlock), item =>
    if (site = .insert ∨ site = .tryUpdateKvblock) ∧ found = expected then none else item
  | _, _, item => item

/-- The item an update has taken out of a slot and not given back yet. -/
def freeingNext : (o : Op Key Value) → o.act.Reply → Option GlobalAddress → Option GlobalAddress
  | ⟨site, .casBlock _ _ expected _⟩, (found : KVBlock), item =>
    if site = .tryUpdateKvblock ∧ found = expected then some expected.getAddr else item
  | ⟨site, .freeItem _⟩, _, item => if site = .tryUpdateKvblock then none else item
  | _, _, item => item

def itemInHand : List (Done Key Value) → Option GlobalAddress
  | [] => none
  | ⟨o, r⟩ :: rest => handNext o r (itemInHand rest)

def itemToFree : List (Done Key Value) → Option GlobalAddress
  | [] => none
  | ⟨o, r⟩ :: rest => freeingNext o r (itemToFree rest)

/-- An item is allocated by a call that has none, and an update takes one out of a slot when it has none to give back. -/
def Tidy (done : List (Done Key Value)) : Op Key Value → Prop
  | ⟨.insert, .allocItem⟩ => itemInHand done = none
  | ⟨.tryUpdateKvblock, .casBlock _ _ _ _⟩ => itemToFree done = none
  | _ => True

/-- An update goes on until it has replaced the block. -/
def Op.persists : (o : Op Key Value) → o.act.Reply → Bool
  | ⟨.tryUpdateKvblock, .casBlock _ _ expected _⟩, (found : KVBlock) =>
    decide (found = expected) || decide (found.getFingerprint = expected.getFingerprint) && !found.isFree && !found.isLocked
  | _, _ => true

/-- The call has no item in hand and none to give back. -/
def Clear (done : List (Done Key Value)) : Prop := itemInHand done = none ∧ itemToFree done = none

/-- The program allocates and takes out one item at a time, as long as updates go on. -/
abbrev Tidied {A : Type} (post : A → List (Done Key Value) → Prop) (p : Index Key Value A) (done : List (Done Key Value)) : Prop :=
  p.Traced Tidy (fun _ o r => Op.persists o r = true) post done

section
variable {A : Type} {done : List (Done Key Value)} {o : Op Key Value} {r : o.act.Reply}

theorem tidied_bind {B : Type} {p : Index Key Value A} {f : A → Index Key Value B} {post : B → List (Done Key Value) → Prop}
    (tidied : Tidied (fun a done => Tidied post (f a) done) p done) : Tidied post (p >>= f) done :=
  traced_bind tidied

theorem tidied_step {f : o.act.Reply → Index Key Value A} {post : A → List (Done Key Value) → Prop} (tidy : Tidy done o)
    (later : ∀ r, o.persists r = true → Tidied post (f r) (⟨o, r⟩ :: done)) :
    Tidied post ((.perform o .value : Index Key Value o.act.Reply) >>= f) done :=
  ⟨tidy, later⟩

def Site.handles (site : Site) : Prop := site = .insert ∨ site = .tryUpdateKvblock

theorem tidy_of_site (other : ¬ o.site.handles) : Tidy done o := by
  unfold Tidy
  split
  · exact absurd (Or.inl rfl) other
  · exact absurd (Or.inr rfl) other
  · trivial

theorem handNext_of_site {item : Option GlobalAddress} (other : ¬ o.site.handles) : handNext o r item = item := by
  unfold handNext
  split
  · exact if_neg fun is => other (Or.inl is)
  · exact if_neg fun is => other is.1
  · rfl

theorem freeingNext_of_site {item : Option GlobalAddress} (other : ¬ o.site.handles) : freeingNext o r item = item := by
  unfold freeingNext
  split
  · exact if_neg fun is => other (Or.inr is.1)
  · exact if_neg fun is => other (Or.inr is)
  · rfl

theorem handNext_lift {own item : Option GlobalAddress} {x : GlobalAddress} (same : ∀ y, own = some y → item = some y)
    (next : handNext o r own = some x) : handNext o r item = some x := by
  unfold handNext at next ⊢
  split at next
  · split_ifs at next ⊢
    · exact next
    · exact same x next
  · split_ifs at next ⊢
    exact same x next
  · exact same x next

theorem freeingNext_lift {own item : Option GlobalAddress} {x : GlobalAddress} (same : ∀ y, own = some y → item = some y)
    (next : freeingNext o r own = some x) : freeingNext o r item = some x := by
  unfold freeingNext at next ⊢
  split at next
  · split_ifs at next ⊢
    · exact next
    · exact same x next
  · split_ifs at next ⊢
    exact same x next
  · exact same x next

theorem tidied_from {sites : Site → Prop} {p : Index Key Value A} {hand freeing : Option GlobalAddress} (within : From sites p)
    (other : ∀ site, sites site → ¬ site.handles) (start : itemInHand done = hand ∧ itemToFree done = freeing) :
    Tidied (fun _ done => itemInHand done = hand ∧ itemToFree done = freeing) p done := by
  refine traced_only within (fun done o is _ => tidy_of_site (other _ is)) (fun done o r is before => ⟨?_, ?_⟩) start
  · exact (handNext_of_site (other _ is)).trans before.1
  · exact (freeingNext_of_site (other _ is)).trans before.2

theorem splits_not_handles (site : Site) (splits : site.splits) : ¬ site.handles := by
  rintro (rfl | rfl) <;> exact splits

theorem removes_not_handles (site : Site) (removes : site.removes) : ¬ site.handles := by
  rintro (rfl | rfl) <;> exact removes

theorem findNode_not_handles {level : ℕ} {fromSmo : Bool} (site : Site) (is : site = .findNode level fromSmo) : ¬ site.handles := by
  simp [Site.handles, is]

section
variable {a : GlobalAddress} {cfg : Config}

theorem tidied_tryUpdateLoop (i : ℕ) (new : KVBlock) (bound : ℕ) {expected tmp : KVBlock} (start : itemToFree done = none)
    (again : tmp.getFingerprint = expected.getFingerprint ∧ tmp.isFree = false ∧ tmp.isLocked = false) :
    Tidied (fun ok done => ok = true ∧ Clear done) (tryUpdateLoop a i new bound expected tmp : Index Key Value Bool) done := by
  induction bound generalizing expected tmp done with
  | zero => trivial
  | succ bound ih =>
    unfold tryUpdateLoop
    rw [if_pos again]
    refine tidied_step start fun found persists => ?_
    split_ifs with hit
    · refine tidied_step trivial fun _ _ => ⟨rfl, ?_, rfl⟩
      simp [itemInHand, handNext, hit]
    · refine ih ?_ ?_
      · simpa [itemToFree, freeingNext, hit] using start
      · simpa [Op.persists, hit, and_assoc] using persists

variable {hand freeing : Option GlobalAddress} {leaf : LeafNode Key}

theorem tidied_readCandidates (fromRead : Bool) (entries : List (ℕ × GlobalAddress))
    (start : itemInHand done = hand ∧ itemToFree done = freeing) :
    Tidied (fun found done => found.map Prod.fst = entries.map Prod.fst ∧ itemInHand done = hand ∧ itemToFree done = freeing)
      (readCandidates fromRead entries : Index Key Value _) done := by
  induction entries generalizing done with
  | nil => exact ⟨rfl, start⟩
  | cons entry rest ih =>
    have others : ∀ (kv : Key × Option Value) (done : List (Done Key Value)), itemInHand done = hand ∧ itemToFree done = freeing →
        Tidied (fun found done => found.map Prod.fst = (entry :: rest).map Prod.fst ∧ itemInHand done = hand ∧
          itemToFree done = freeing)
          (do let others ← readCandidates fromRead rest; pure ((entry.1, kv) :: others) : Index Key Value _) done :=
      fun kv done start => tidied_bind (traced_mono (ih start) fun found done known => ⟨congrArg (entry.1 :: ·) known.1, known.2⟩)
    cases fromRead
    · exact tidied_step trivial fun key _ => others (key, none) _ start
    · exact tidied_step trivial fun item _ => others (item.key, some item.value) _ start

theorem tidied_getCandidateKvs {fp : Fingerprint} (start : itemInHand done = hand ∧ itemToFree done = freeing) :
    Tidied (fun found done => (∀ c ∈ found.2, (leaf.kvBlocks c.1).isFree = false ∧ (leaf.kvBlocks c.1).isLocked = false) ∧
        itemInHand done = hand ∧ itemToFree done = freeing)
      (getCandidateKvs cfg leaf fp false false : Index Key Value _) done := by
  -- the candidates of a leaf that is used are live and unlocked
  unfold getCandidateKvs getFingerprintCollisions
  dsimp only
  split
  · exact ⟨by simp, start⟩
  rename_i usable
  rw [if_neg (by simp)]
  refine tidied_bind (traced_mono (tidied_readCandidates false _ start) ?_)
  rintro found done ⟨slots, kept⟩
  refine ⟨fun c member => ?_, kept⟩
  have listed : c.1 ∈ found.map Prod.fst := List.mem_map_of_mem member
  rw [slots, List.map_map] at listed
  obtain ⟨i, inside, is⟩ := List.mem_map.1 listed
  obtain rfl : i = c.1 := is
  simp only [List.mem_filter, List.mem_range, Bool.and_eq_true, Bool.not_eq_true'] at inside
  refine ⟨inside.2.1, ?_⟩
  by_contra locked
  exact usable ⟨List.any_eq_true.2 ⟨_, List.mem_range.2 inside.1, by simpa using locked⟩, rfl⟩

variable [LinearOrder Key] [BoundedOrder Key] [KeyBytes Key]

theorem tidied_finishInsert (key : Key) (start : Clear done) :
    Tidied (fun ok done => ok = true ∧ Clear done) (finishInsert cfg key a leaf : Index Key Value Bool) done := by
  unfold finishInsert
  split_ifs
  · exact tidied_step trivial fun _ _ => ⟨rfl, start⟩
  · exact tidied_bind (traced_mono (tidied_from (from_splitLeaf a) splits_not_handles start) fun _ _ kept => ⟨rfl, kept⟩)
  · exact tidied_bind (traced_mono
      (tidied_from (unlatched_handleLocalRemoveDupes key a leaf true false).from removes_not_handles start) fun _ _ kept =>
      ⟨rfl, kept⟩)

/-- A round of an insert ends with success and clear hands, or it is repeated. -/
def Settles (outcome : Attempt Key) (done : List (Done Key Value)) : Prop :=
  match outcome with
  | .done ok => ok = true ∧ Clear done
  | .retry _ => itemToFree done = none

theorem tidied_insertAttempt (key : Key) (kvb : KVBlock) (attempt : ℕ) (start : itemToFree done = none) :
    Tidied Settles (insertAttempt cfg key kvb attempt a leaf : Index Key Value (Attempt Key)) done := by
  refine tidied_bind (traced_mono (tidied_getCandidateKvs ⟨rfl, start⟩) ?_)
  rintro ⟨success, candidates⟩ done ⟨live, -, start⟩
  dsimp only at live ⊢
  split_ifs
  · exact start
  split
  · rename_i i k v found
    have block := live _ (List.mem_of_find?_eq_some found)
    exact tidied_bind (traced_mono (tidied_tryUpdateLoop i kvb _ start ⟨rfl, block⟩) fun _ _ known => known)
  · refine tidied_step trivial fun hash _ => ?_
    split
    · exact start
    · exact start
    · refine tidied_step trivial fun found _ => tidied_step trivial fun node _ => ?_
      split_ifs with missed
      · exact start
      · exact start
      · refine tidied_bind (traced_mono (tidied_finishInsert key ?_) fun _ _ known => known)
        exact ⟨by simp [itemInHand, handNext, not_not.1 missed], start⟩
      · exact ⟨rfl, by simp [itemInHand, handNext, not_not.1 missed], start⟩

omit [KeyBytes Key] in
theorem tidied_locateLeaf (key : Key) (item : KVItem Key Value) (x : GlobalAddress) (wrote : Bool) (start : itemToFree done = none) :
    Tidied (fun _ done => itemToFree done = none) (locateLeaf cfg key item x wrote) done := by
  refine tidied_bind (traced_mono (tidied_from (unlatched_findNode key 0 false).from findNode_not_handles ⟨rfl, start⟩) ?_)
  rintro ⟨result, a⟩ done ⟨-, start⟩
  cases result with
  | unknown => trivial
  | noSuchLevel => trivial
  | locked => exact start
  | found =>
    refine tidied_step trivial fun node _ => ?_
    have answer : ∀ done : List (Done Key Value), itemToFree done = none → Tidied (fun _ done => itemToFree done = none)
        (if node.header.level ≠ 0 then .stuck else if node.header.lock ≠ 0 ∨ ¬ node.header.covers key then pure (true, none)
          else pure (true, some (a, node.asLeaf)) : Index Key Value (Bool × Option (GlobalAddress × LeafNode Key))) done := by
      intro done start
      split_ifs
      · trivial
      · exact start
      · exact start
    cases wrote with
    | true => exact answer _ start
    | false => exact tidied_step trivial fun _ _ => answer _ start

theorem tidied_insertLoop (key : Key) (item : KVItem Key Value) (x : GlobalAddress) (kvb : KVBlock) (attempts attempt : ℕ)
    (wrote : Bool) (leafRead : Option (GlobalAddress × LeafNode Key)) (start : itemToFree done = none) :
    Tidied (fun ok done => ok = true ∧ Clear done) (insertLoop cfg key item x kvb attempts attempt wrote leafRead) done := by
  induction attempts generalizing attempt wrote leafRead done with
  | zero => trivial
  | succ attempts ih =>
    have round : ∀ (wrote : Bool) (target : Option (GlobalAddress × LeafNode Key)) (done : List (Done Key Value)),
        itemToFree done = none → Tidied (fun ok done => ok = true ∧ Clear done)
          (insertRound cfg key item x kvb attempts attempt wrote target) done := by
      intro wrote target done start
      cases target with
      | none => exact ih _ _ none start
      | some target =>
        refine tidied_bind (traced_mono (tidied_insertAttempt key kvb attempt start) ?_)
        intro outcome done settles
        cases outcome with
        | done ok => exact settles
        | retry leafRead => exact ih _ _ leafRead settles
    cases leafRead with
    | none =>
      rw [insertLoop_none]
      exact tidied_bind (traced_mono (tidied_locateLeaf key item x wrote start) fun found done known => round _ _ _ known)
    | some target =>
      rw [insertLoop_some]
      exact round wrote (some target) done start

theorem tidied_readLoop (key : Key) (attempts : ℕ) (start : Clear done) :
    Tidied (fun _ done => Clear done) (readLoop cfg key attempts : Index Key Value (Outcome Value)) done := by
  induction attempts generalizing done with
  | zero => trivial
  | succ attempts ih =>
    refine tidied_bind (traced_mono (tidied_from (unlatched_findNode key 0 false).from findNode_not_handles start) ?_)
    rintro ⟨result, a⟩ done start
    cases result with
    | unknown => trivial
    | noSuchLevel => trivial
    | locked => exact ih start
    | found =>
      refine tidied_step trivial fun node _ => ?_
      refine tidied_bind (traced_mono
        (tidied_from (unlatched_handleLocalRemoveDupes key a _ false true).from removes_not_handles start) ?_)
      rintro ⟨success, found⟩ done start
      cases success with
      | true => exact start
      | false => exact ih start

theorem tidied_body (call : Call Key Value) :
    Tidied (fun outcome done => Clear done ∧ ∀ key value, call = .insert key value → outcome.ok = true) (call.body cfg) [] := by
  cases call with
  | insert key value =>
    refine tidied_bind (tidied_step rfl fun x _ => ?_)
    exact traced_mono (tidied_insertLoop key _ x _ cfg.maxAttempts 0 false none rfl) fun ok done known =>
      ⟨known.2, fun _ _ _ => known.1⟩
  | read key => exact traced_mono (tidied_readLoop key cfg.maxAttempts ⟨rfl, rfl⟩) fun _ _ clear => ⟨clear, by rintro _ _ ⟨⟩⟩
  | split a =>
    refine tidied_bind (traced_mono (tidied_from (from_splitLeaf a) splits_not_handles ⟨rfl, rfl⟩) fun _ _ clear => ⟨clear, ?_⟩)
    rintro _ _ ⟨⟩
  | maintain =>
    refine tidied_step trivial fun a _ => ?_
    refine tidied_bind (traced_mono (tidied_from (from_splitLeaf a) splits_not_handles ⟨rfl, rfl⟩) fun _ _ clear => ⟨clear, ?_⟩)
    rintro _ _ ⟨⟩

end

end

/-! ## Where the items are -/

/-- A leaf of the tree has a live block with the address. -/
def Stored (cfg : Config) (gs : Thread → Local Key Value) (m : Memory Key Value) (x : GlobalAddress) : Prop :=
  ∃ a leaf i, Born gs m a (.leaf leaf) ∧ i < cfg.branchFactor ∧ (leaf.kvBlocks i).isFree = false ∧ (leaf.kvBlocks i).getAddr = x

/-- The item is in a live block, in a free list, or with a thread. -/
def Accounted (cfg : Config) (gs : Thread → Local Key Value) (m : Memory Key Value) (x : GlobalAddress) : Prop :=
  Stored cfg gs m x ∨ (∃ server, x ∈ m.freeItems server) ∨
    (∃ t, (gs t).put.item.map Prod.fst = some x) ∨ ∃ t, (gs t).put.freeing = some x

/-- The split finds every key once, or too few keys to go on. -/
def LeafNode.keepsAll [LinearOrder Key] (cfg : Config) (m : Memory Key Value) (leaf : LeafNode Key) : Bool :=
  let bindings := splitBindings cfg.branchFactor (fun x => (m.items x).key) leaf
  decide ((OrderedMap.ofList bindings).length = bindings.length) || decide
    ((OrderedMap.ofList bindings).length ≤ cfg.branchFactor / 2)

/-- A split that reads its leaf drops no block. -/
def Op.keepsAll [LinearOrder Key] (cfg : Config) (m : Memory Key Value) : (o : Op Key Value) → o.act.Reply → Bool
  | ⟨.splitLeaf _, .readNode _⟩, (n : Node Key) => n.asLeaf.keepsAll cfg m
  | _, _ => true

/-- No deletion hits its block, or takes it for a pointer. -/
def Op.deletesNone (cfg : Config) : (o : Op Key Value) → o.act.Reply → Bool
  | ⟨.tryDeleteKvblock, .casBlock _ _ expected _⟩, (found : KVBlock) =>
    decide (found ≠ expected ∧ expected.raw ≠ cfg.expectedPointer)
  | _, _ => true

section
variable {cfg : Config} {gs gs' : Thread → Local Key Value} {m m' : Memory Key Value} {t : Thread} {g : Local Key Value}
    {a x : GlobalAddress}

theorem Stored.keep (stored : Stored cfg gs m x)
    (after : ∀ b old, Born gs m b (.leaf old) → ∃ now, Born gs' m' b (.leaf now) ∧ LikeLeaf cfg old now) : Stored cfg gs' m' x := by
  obtain ⟨b, leaf, i, born, bound, taken, rfl⟩ := stored
  obtain ⟨now, there, like⟩ := after b leaf born
  exact ⟨b, now, i, there, bound, (like.isFree bound).trans taken, like.getAddr bound⟩

theorem Stored.setBlock {leaf : LeafNode Key} {i : ℕ} {block : KVBlock} (stored : Stored cfg gs m x)
    (born : Born gs m a (.leaf leaf)) (fresh : g.smo.fresh = (gs t).smo.fresh)
    (here : (leaf.kvBlocks i).isFree = false → (leaf.kvBlocks i).getAddr = x →
      Accounted cfg (Function.update gs t g) (m.setNode a (.leaf (leaf.setBlock i block))) x) :
    Accounted cfg (Function.update gs t g) (m.setNode a (.leaf (leaf.setBlock i block))) x := by
  obtain ⟨b, now, j, there, bound, taken, rfl⟩ := stored
  by_cases same : b = a
  · subst same
    obtain rfl := Node.leaf.inj (born_unique there born)
    by_cases at_ : j = i
    · subst at_
      exact here taken rfl
    · refine Or.inl ⟨b, _, j, (born_update fresh).2 ((born_setNode born).2 (Or.inl ⟨rfl, rfl⟩)), bound, ?_⟩
      simpa only [LeafNode.setBlock, Function.update_of_ne at_] using ⟨taken, trivial⟩
  · exact Or.inl ⟨b, now, j, (born_update fresh).2 ((born_setNode born).2 (Or.inr ⟨same, there⟩)), bound, taken, rfl⟩

theorem Owned.stored [KeyBytes Key] {leaf : LeafNode Key} {i : ℕ} {address : GlobalAddress} {item : KVItem Key Value}
    (owned : Owned cfg gs m)
    (born : Born gs m a (.leaf leaf)) (bound : i < cfg.branchFactor) (own : (gs t).put.item = some (address, item, true))
    (is : (gs t).put.item.map Prod.fst = some x) (fresh : g.smo.fresh = (gs t).smo.fresh) :
    Stored cfg (Function.update gs t g) (m.setNode a (.leaf (leaf.setBlock i (.make (.ofKey item.key) address false false)))) x := by
  obtain rfl : address = x := by simpa [own] using is
  refine ⟨a, _, i, (born_update fresh).2 ((born_setNode born).2 (Or.inl ⟨rfl, rfl⟩)), bound, ?_, ?_⟩
  · simp [LeafNode.setBlock]
  · simp only [LeafNode.setBlock, Function.update_self]
    exact KVBlock.getAddr_make _ _ (owned.issued address (.item t) ⟨item, true, own⟩).2

variable [LinearOrder Key]

theorem Contents.bindings {leaf : LeafNode Key} (contents : Contents cfg gs m) (kept : (gs t).smo.kept = some leaf)
    (all : (gs t).smo.keyed.map Prod.snd = (takenIndices cfg.branchFactor leaf).map leaf.kvBlocks) :
    (gs t).smo.keyed = splitBindings cfg.branchFactor (fun x => (m.items x).key) leaf := by
  calc (gs t).smo.keyed
      = (gs t).smo.keyed.map fun e => ((m.items e.2.getAddr).key, e.2) :=
        (List.map_id _).symm.trans (List.map_congr_left fun e member => Prod.ext (contents.keyed t leaf kept e member).1.symm rfl)
    _ = ((gs t).smo.keyed.map Prod.snd).map fun b => ((m.items b.getAddr).key, b) := by
        rw [List.map_map]
        rfl
    _ = splitBindings cfg.branchFactor (fun x => (m.items x).key) leaf := by
        rw [all, List.map_map]
        rfl

theorem Stored.splitLeaf {new : GlobalAddress} {leaf left right : LeafNode Key} {entries : List (Key × KVBlock)}
    {middleKey : Key} (stored : Stored cfg gs m x) (inv : Discipline gs m cfg)
    (only : (gs t).smo.held = [a]) (kept : (gs t).smo.kept = some leaf)
    (all : (gs t).smo.keyed.map Prod.snd = (takenIndices cfg.branchFactor leaf).map leaf.kvBlocks)
    (sorted : entries = OrderedMap.ofList (gs t).smo.keyed)
    (every : (OrderedMap.ofList (gs t).smo.keyed).length = (gs t).smo.keyed.length)
    (distributes : Distributes cfg leaf entries middleKey left right)
    (fresh : (gs t).smo.fresh = some (new, some (.leaf right))) (published : g.smo.fresh = none) :
    Stored cfg (Function.update gs t g) (m.setNode a (.leaf left)) x := by
  -- a split that finds every key once keeps every block
  obtain ⟨b, now, only', born, -, blocks⟩ := inv.notes.kept t leaf kept
  obtain rfl : a = b := by simpa [only] using only'
  obtain ⟨c, node, i, there, bound, taken, rfl⟩ := stored
  by_cases same : c = a
  · subst same
    obtain rfl := Node.leaf.inj (born_unique there born)
    have block : node.kvBlocks i = leaf.kvBlocks i := (blocks i).resolve_right fun gone => by simp [taken] at gone
    rw [block] at taken ⊢
    have listed : leaf.kvBlocks i ∈ (gs t).smo.keyed.map Prod.snd := by
      rw [all]
      refine List.mem_map_of_mem ?_
      simp [takenIndices, bound, taken]
    obtain ⟨e, member, eq⟩ := List.mem_map.1 listed
    obtain ⟨d, half, j, placed, small, block⟩ := inv.entry_placed only kept distributes fresh published (entries_short all sorted)
      (sorted ▸ OrderedMap.mem_ofList_of_length every member)
    refine ⟨d, half, j, placed, small, ?_⟩
    rw [block, eq]
    simpa using taken
  · exact ⟨c, node, i, (inv.levels.born_split born fresh published).2 (Or.inr ⟨same, Or.inl there⟩), bound, taken, rfl⟩

omit [LinearOrder Key] in
theorem Accounted.keep (accounted : Accounted cfg gs m x) (stored : Stored cfg gs m x → Accounted cfg (Function.update gs t g) m' x)
    (free : ∀ server, x ∈ m.freeItems server → Accounted cfg (Function.update gs t g) m' x)
    (item : (gs t).put.item.map Prod.fst = some x → Accounted cfg (Function.update gs t g) m' x)
    (freeing : (gs t).put.freeing = some x → Accounted cfg (Function.update gs t g) m' x) :
    Accounted cfg (Function.update gs t g) m' x := by
  rcases accounted with there | ⟨server, listed⟩ | ⟨u, own⟩ | ⟨u, own⟩
  · exact stored there
  · exact free server listed
  · by_cases same : u = t
    · subst same
      exact item own
    · exact Or.inr (Or.inr (Or.inl ⟨u, by rw [Function.update_of_ne same, own]⟩))
  · by_cases same : u = t
    · subst same
      exact freeing own
    · exact Or.inr (Or.inr (Or.inr ⟨u, by rw [Function.update_of_ne same, own]⟩))

omit [LinearOrder Key] in
theorem Accounted.quiet (accounted : Accounted cfg gs m x) (item : g.put.item.map Prod.fst = (gs t).put.item.map Prod.fst)
    (freeing : g.put.freeing = (gs t).put.freeing) (stored : Stored cfg gs m x → Stored cfg (Function.update gs t g) m' x)
    (free : m'.freeItems = m.freeItems) : Accounted cfg (Function.update gs t g) m' x := by
  refine accounted.keep (fun there => Or.inl (stored there)) (fun server listed => Or.inr (Or.inl ⟨server, free ▸ listed⟩))
    (fun own => ?_) fun own => ?_
  · exact Or.inr (Or.inr (Or.inl ⟨t, by rw [Function.update_self, item, own]⟩))
  · exact Or.inr (Or.inr (Or.inr ⟨t, by rw [Function.update_self, freeing, own]⟩))

variable [KeyBytes Key] {o : Op Key Value} {r : o.act.Reply}

theorem Accounted.effect (accounted : Accounted cfg gs m x) (inv : Discipline gs m cfg) (owned : Owned cfg gs m)
    (effect : Effect cfg t gs m o r m' g) (deletes : o.deletesNone cfg r = true)
    (hand : o = ⟨.insert, .allocItem⟩ → (gs t).put.item = none)
    (free : ∀ a i expected desired, o = ⟨.tryUpdateKvblock, .casBlock a i expected desired⟩ → (gs t).put.freeing = none)
    (every : ∀ a left, o = ⟨.splitLeaf a, .writeNode a (.leaf left)⟩ → (gs t).smo.held = [a] →
      (OrderedMap.ofList (gs t).smo.keyed).length = (gs t).smo.keyed.length) : Accounted cfg (Function.update gs t g) m' x := by
  -- an item stays accounted for, as long as no block is dropped
  have look : g.smo = (gs t).smo → m'.nodes = m.nodes → Stored cfg gs m x → Stored cfg (Function.update gs t g) m' x :=
    fun smo nodes stored => stored.keep (sameLeaves_look smo nodes).after
  have freed : ∀ {g : Local Key Value} (y : GlobalAddress) (server : ℕ), x ∈ m.freeItems server →
      Accounted cfg (Function.update gs t g) (m.freeItem t.server y) x := by
    intro g y server listed
    refine Or.inr (Or.inl ⟨server, ?_⟩)
    by_cases same : server = t.server
    · subst same
      simp [Memory.freeItem, listed]
    · simp [Memory.freeItem, Function.update_of_ne same, listed]
  cases effect with
  | quiet _ same _ put _ free => exact accounted.quiet (by rw [put]) (by rw [put]) (fun stored => stored.keep same.after) free
  | readKept =>
    exact accounted.quiet rfl rfl (fun stored => stored.keep (sameLeaves_of_born fun _ _ => born_update (by rfl)).after) rfl
  | readKeptKey =>
    exact accounted.quiet rfl rfl (fun stored => stored.keep (sameLeaves_of_born fun _ _ => born_update (by rfl)).after) rfl
  | leafSplit only kept all sorted middle distributes fresh published forgotten put =>
    refine accounted.quiet (by rw [put]) (by rw [put]) (fun stored => ?_) rfl
    exact stored.splitLeaf inv only kept all sorted (every _ _ rfl only) distributes fresh published
  | @allocItem a item m' allocated =>
    obtain ⟨-, -, -, other, -⟩ := owned.allocated allocated
    refine accounted.keep (fun stored => Or.inl (look rfl (Memory.allocItem_frame allocated).1 stored))
      (fun server listed => ?_) (fun own => ?_) fun own => ?_
    · by_cases same : x = a
      · exact Or.inr (Or.inr (Or.inl ⟨t, by simp [same]⟩))
      · exact Or.inr (Or.inl ⟨server, (other x server same).2 listed⟩)
    · simp [hand rfl] at own
    · exact Or.inr (Or.inr (Or.inr ⟨t, by rw [Function.update_self, own]⟩))
  | writeItem own => exact accounted.quiet (by simp [own]) rfl (look rfl rfl) rfl
  | readLeaf => exact accounted.quiet rfl rfl (look rfl rfl) rfl
  | lookItem => exact accounted.quiet rfl rfl (look rfl rfl) rfl
  | lookKey => exact accounted.quiet rfl rfl (look rfl rfl) rfl
  | slotFilled born eq ready bound vacant =>
    refine accounted.keep (fun stored => ?_) (fun server listed => Or.inr (Or.inl ⟨server, listed⟩))
      (fun own => Or.inl (owned.stored born bound ready.written own rfl)) fun own => ?_
    · refine stored.setBlock born rfl fun taken _ => ?_
      simp [eq, vacant] at taken
    · exact Or.inr (Or.inr (Or.inr ⟨t, by rw [Function.update_self, own]⟩))
  | slotUpdated born ready candidate =>
    refine accounted.keep (fun stored => ?_) (fun server listed => Or.inr (Or.inl ⟨server, listed⟩))
      (fun own => Or.inl (owned.stored born candidate.1 ready.written own rfl)) fun own => ?_
    · refine stored.setBlock born rfl fun _ is => ?_
      exact Or.inr (Or.inr (Or.inr ⟨t, by rw [Function.update_self, is]⟩))
    · simp [free _ _ _ _ rfl] at own
  | slotDeleted born eq => simp [Op.deletesNone, eq] at deletes
  | freeReplaced was =>
    refine accounted.keep (fun stored => Or.inl (look rfl rfl stored)) (fun server listed => freed _ server listed)
      (fun own => ?_) fun own => ?_
    · exact Or.inr (Or.inr (Or.inl ⟨t, by rw [Function.update_self, own]⟩))
    · obtain rfl := Option.some.inj (was.symm.trans own)
      exact Or.inr (Or.inl ⟨t.server, by simp [Memory.freeItem]⟩)
  | freeDeleted =>
    refine accounted.keep (fun stored => Or.inl (look rfl rfl stored)) (fun server listed => freed _ server listed)
      (fun own => ?_) fun own => ?_
    · exact Or.inr (Or.inr (Or.inl ⟨t, by rw [Function.update_self, own]⟩))
    · exact Or.inr (Or.inr (Or.inr ⟨t, by rw [Function.update_self, own]⟩))

end

/-! ## Runs -/

/-- A call has returned with the item in hand or to be given back. -/
def Lost (x : GlobalAddress) (history : List (Event Key Value)) : Prop :=
  ∃ t call outcome later before, history = later ++ .returned t call outcome :: before ∧
    (itemInHand (doneBy t before) = some x ∨ itemToFree (doneBy t before) = some x)

theorem Lost.later {x : GlobalAddress} {history : List (Event Key Value)} (lost : Lost x history) (event : Event Key Value) :
    Lost x (event :: history) := by
  obtain ⟨t, call, outcome, later, before, rfl, had⟩ := lost
  exact ⟨t, call, outcome, event :: later, before, rfl, had⟩

section
variable [LinearOrder Key] [BoundedOrder Key] [KeyBytes Key] {cfg : Config}

/-- Addresses fit, inserts and updates hit what they were meant for, and no block is dropped. -/
def frugal (cfg : Config) : Condition (signature Key Value) Thread (State Key Value) := fun _ o r s =>
  Op.fits o r = true ∧ Op.lands s.memory o r = true ∧ Op.matches s.memory o r = true ∧ Op.persists o r = true ∧
    Op.deletesNone cfg o r = true ∧
    Op.keepsAll cfg s.memory o r = true

structure Accounting (cfg : Config) (gs : Thread → Local Key Value) (s : State Key Value) : Prop where
  storing : Storing cfg gs s
  kept : ∀ t snap, (gs t).smo.kept = some snap → snap.keepsAll cfg s.memory = true
  item : ∀ t x, (gs t).put.item.map Prod.fst = some x → itemInHand (doneBy t s.history) = some x
  freeing : ∀ t x, (gs t).put.freeing = some x → itemToFree (doneBy t s.history) = some x
  accounted : ∀ x ∈ s.memory.itemsIssued, Accounted cfg gs s.memory x ∨ Lost x s.history

section
variable {gs : Thread → Local Key Value} {s s' : State Key Value} {t u : Thread} {call : Call Key Value} {g : Local Key Value}
  {o : Op Key Value} {r : o.act.Reply} {m m' : Memory Key Value} {x : GlobalAddress}

theorem Permits.hand (permitted : Permits cfg t gs m o r m' g) :
    g.put.item.map Prod.fst = handNext o r ((gs t).put.item.map Prod.fst) := by
  cases permitted with
  | slotMissed there missed => simp [handNext, missed]
  | slotFilled there target eq => simp [handNext, eq]
  | _ => simp_all [handNext]

theorem Permits.freeing (permitted : Permits cfg t gs m o r m' g) : g.put.freeing = freeingNext o r (gs t).put.freeing := by
  cases permitted with
  | slotMissed there missed => simp [freeingNext, missed]
  | _ => simp_all [freeingNext]

omit [BoundedOrder Key] in
theorem Effect.issued (effect : Effect cfg t gs m o r m' g) (issued : x ∈ m'.itemsIssued) :
    x ∈ m.itemsIssued ∨ g.put.item.map Prod.fst = some x := by
  cases effect with
  | quiet _ _ _ _ _ _ same => exact Or.inl (same ▸ issued)
  | allocItem allocated =>
    unfold Memory.allocItem at allocated
    split_ifs at allocated
    · cases allocated
      exact Or.inl issued
    · cases allocated
      rcases List.mem_cons.1 issued with rfl | old
      · exact Or.inr rfl
      · exact Or.inl old
  | _ => exact Or.inl issued

theorem Discipline.split_long {a : GlobalAddress} {left : LeafNode Key} {r : Unit} (inv : Discipline gs m cfg)
    (permitted : Permits cfg t gs m ⟨.splitLeaf a, .writeNode a (.leaf left)⟩ r m' g) (only : (gs t).smo.held = [a]) :
    ∃ leaf, (gs t).smo.kept = some leaf ∧ (gs t).smo.keyed.map Prod.snd = (takenIndices cfg.branchFactor leaf).map leaf.kvBlocks ∧
      cfg.branchFactor / 2 < (OrderedMap.ofList (gs t).smo.keyed).length := by
  cases permitted with
  | writeFresh fresh =>
    obtain ⟨l, ⟨n, born, -⟩, -⟩ := inv.chains.known (t := t) (a := a) (by simp [only])
    exact absurd ⟨t, _, fresh⟩ born.2
  | leafSplit held kept pending all sorted long => exact ⟨_, kept, all, sorted ▸ long⟩

omit [BoundedOrder Key] [KeyBytes Key] in
theorem keepsAll_congr {snap : LeafNode Key}
    (same : ∀ i ∈ takenIndices cfg.branchFactor snap, m'.items (snap.kvBlocks i).getAddr = m.items (snap.kvBlocks i).getAddr) :
    snap.keepsAll cfg m' = snap.keepsAll cfg m := by
  have bindings : splitBindings cfg.branchFactor (fun x => (m'.items x).key) snap = splitBindings cfg.branchFactor
    (fun x => (m.items x).key) snap :=
    List.map_congr_left fun i taken => by simp only [same i taken]
  simp only [LeafNode.keepsAll, bindings]

theorem Accounting.keepsAll {snap : LeafNode Key} (inv : Accounting cfg gs s) (effect : Effect cfg t gs s.memory o r m' g)
    (kept : (gs u).smo.kept = some snap) : snap.keepsAll cfg m' = true := by
  obtain ⟨a, leaf, only, -⟩ := inv.storing.discipline.notes.kept u snap kept
  rw [keepsAll_congr fun i taken => ?_]
  · exact inv.kept u snap kept
  · simp only [takenIndices, List.mem_filter, List.mem_range, Bool.not_eq_true'] at taken
    exact inv.storing.owning.owned.live_item effect ⟨snap, Or.inl ⟨u, only, kept⟩, taken.1, taken.2, rfl, rfl⟩

theorem Accounting.keepsAll_own {snap : LeafNode Key} (inv : Accounting cfg gs s) (effect : Effect cfg t gs s.memory o r m' g)
    (whole : o.keepsAll cfg s.memory r = true) (kept : g.smo.kept = some snap) : snap.keepsAll cfg m' = true := by
  have before : (gs t).smo.kept = some snap → snap.keepsAll cfg m' = true := fun is => inv.keepsAll effect is
  cases effect with
  | quiet _ _ notes =>
    rcases notes with none | ⟨-, same, -⟩
    · simp [none] at kept
    · exact before (same ▸ kept)
  | readKept =>
    cases kept
    exact whole
  | leafSplit _ _ _ _ _ _ _ _ forgotten => simp [forgotten] at kept
  | _ => exact before kept

theorem Accounting.every (inv : Accounting cfg gs s) (permitted : Permits cfg t gs s.memory o r m' g) (a : GlobalAddress)
    (left : LeafNode Key) (is : o = ⟨.splitLeaf a, .writeNode a (.leaf left)⟩) (only : (gs t).smo.held = [a]) :
    (OrderedMap.ofList (gs t).smo.keyed).length = (gs t).smo.keyed.length := by
  subst is
  obtain ⟨leaf, kept, all, long⟩ := inv.storing.discipline.split_long permitted only
  have whole := inv.kept t leaf kept
  simp only [LeafNode.keepsAll, ← inv.storing.contents.bindings kept all, Bool.or_eq_true, decide_eq_true_eq] at whole
  exact whole.resolve_right (by omega)

theorem Accounting.invoke (inv : Accounting cfg gs s) (idle : gs t = .idle) (begins : (machine cfg).begins t call gs s g) :
    Accounting cfg (Function.update gs t g) { s with history := .invoked t call :: s.history } := by
  have storing := inv.storing.invoke idle begins
  obtain ⟨target, rfl, -⟩ := begins
  have smo : Smo.idle = (gs t).smo := by rw [idle]; rfl
  refine ⟨storing, fun u => ?_, fun u => ?_, fun u => ?_, fun x issued => (inv.accounted x issued).imp (fun accounted => ?_)
    fun lost => lost.later _⟩
  · by_cases same : u = t
    · subst same
      simp [Smo.idle]
    · rw [Function.update_of_ne same]
      exact inv.kept u
  · by_cases same : u = t
    · subst same
      simp [Put.idle]
    · simpa [Function.update_of_ne same, doneBy, same] using inv.item u
  · by_cases same : u = t
    · subst same
      simp [Put.idle]
    · simpa [Function.update_of_ne same, doneBy, same] using inv.freeing u
  · exact accounted.quiet (by rw [idle]; rfl) (by rw [idle]; rfl) (fun stored => stored.keep (sameLeaves_look smo rfl).after) rfl

theorem Accounting.act (wide : 2 ≤ cfg.branchFactor) (inv : Accounting cfg gs s) (permits : (machine cfg).permits t gs s o r s' g)
    (met : frugal cfg t o r s) (tidy : Tidy (doneBy t s.history) o) : Accounting cfg (Function.update gs t g) s' := by
  obtain ⟨fits, lands, hits, -, deletes, whole⟩ := met
  have discipline := inv.storing.discipline
  have effect := discipline.effect permits.1
  have storing := inv.storing.act wide permits fits lands hits
  obtain ⟨m', history⟩ := s'
  obtain ⟨permitted, is⟩ := permits
  obtain rfl : history = .performed t o r s.memory :: s.history := is
  refine ⟨storing, fun u => ?_, fun u => ?_, fun u => ?_, fun x issued => ?_⟩
  · by_cases same : u = t
    · subst same
      rw [Function.update_self]
      exact fun snap kept => inv.keepsAll_own effect whole kept
    · rw [Function.update_of_ne same]
      exact fun snap kept => inv.keepsAll effect kept
  · by_cases same : u = t
    · subst same
      rw [Function.update_self, permitted.hand]
      intro x own
      simpa only [doneBy, if_true, itemInHand] using handNext_lift (inv.item u) own
    · simpa [Function.update_of_ne same, doneBy, same] using inv.item u
  · by_cases same : u = t
    · subst same
      rw [Function.update_self, permitted.freeing]
      intro x own
      simpa only [doneBy, if_true, itemToFree] using freeingNext_lift (inv.freeing u) own
    · simpa [Function.update_of_ne same, doneBy, same] using inv.freeing u
  · rcases effect.issued issued with before | new
    · refine (inv.accounted x before).imp (fun accounted => ?_) fun lost => lost.later _
      refine accounted.effect discipline inv.storing.owning.owned effect deletes (fun is => ?_)
        (fun a i expected desired is => ?_) (inv.every permitted)
      · subst is
        have none : itemInHand (doneBy t s.history) = none := tidy
        cases own : (gs t).put.item with
        | none => rfl
        | some carried => simpa [none] using inv.item t carried.1 (by rw [own]; rfl)
      · subst is
        have none : itemToFree (doneBy t s.history) = none := tidy
        cases own : (gs t).put.freeing with
        | none => rfl
        | some y => simpa [none] using inv.freeing t y own
    · exact Or.inl (Or.inr (Or.inr (Or.inl ⟨t, by rw [Function.update_self, new]⟩)))

theorem Accounting.finish {outcome : Outcome Value} (inv : Accounting cfg gs s) (ends : (machine cfg).ends t call outcome (gs t)) :
    Accounting cfg (Function.update gs t .idle) { s with history := .returned t call outcome :: s.history } := by
  have smo : Smo.idle = (gs t).smo := ends.1.symm
  refine ⟨inv.storing.finish ends, fun u => ?_, fun u => ?_, fun u => ?_, fun x issued => ?_⟩
  · by_cases same : u = t
    · subst same
      simp [Local.idle, Smo.idle]
    · rw [Function.update_of_ne same]
      exact inv.kept u
  · by_cases same : u = t
    · subst same
      simp [Local.idle, Put.idle]
    · rw [Function.update_of_ne same]
      exact inv.item u
  · by_cases same : u = t
    · subst same
      simp [Local.idle, Put.idle]
    · rw [Function.update_of_ne same]
      exact inv.freeing u
  · rcases inv.accounted x issued with (there | free | ⟨u, own⟩ | ⟨u, own⟩) | lost
    · exact Or.inl (Or.inl (there.keep (sameLeaves_look smo rfl).after))
    · exact Or.inl (Or.inr (Or.inl free))
    · by_cases same : u = t
      · subst same
        exact Or.inr ⟨u, call, outcome, [], s.history, rfl, Or.inl (inv.item u x own)⟩
      · exact Or.inl (Or.inr (Or.inr (Or.inl ⟨u, by rw [Function.update_of_ne same, own]⟩)))
    · by_cases same : u = t
      · subst same
        exact Or.inr ⟨u, call, outcome, [], s.history, rfl, Or.inr (inv.freeing u x own)⟩
      · exact Or.inl (Or.inr (Or.inr (Or.inr ⟨u, by rw [Function.update_of_ne same, own]⟩)))
    · exact Or.inr (lost.later _)

end

theorem accounting_initialized [Nontrivial Key] {m : Memory Key Value} (initialized : m.Initialized) :
    Accounting cfg (fun _ => .idle) ⟨m, []⟩ := by
  refine ⟨storing_initialized initialized, by rintro _ _ ⟨⟩, by rintro _ _ ⟨⟩, by rintro _ _ ⟨⟩, fun x issued => ?_⟩
  rw [initialized.itemsIssued] at issued
  cases issued

theorem preserves_accounting (wide : 2 ≤ cfg.branchFactor) :
    Preserves (system cfg calls fun _ _ => False) (machine cfg)
    (Accounting cfg : (Thread → Local Key Value) → State Key Value → Prop)
      fun t o r s => frugal cfg t o r s ∧ Tidy (doneBy t s.history) o where
  invoke _ _ _ _ _ inv idle _ begins := inv.invoke idle begins
  act _ _ _ _ _ _ _ _ inv _ met permits := inv.act wide permits met.1 met.2
  finish _ _ _ _ _ inv ends := inv.finish ends
  env _ _ _ _ moved := moved.1.elim

/-- The calls that have returned had nothing in hand, and the inserts among them succeeded. -/
def Released (s : State Key Value) : Prop :=
  ∀ t call outcome later before, s.history = later ++ .returned t call outcome :: before →
    Clear (doneBy t before) ∧ ∀ key value, call = .insert key value → outcome.ok = true

omit [LinearOrder Key] [BoundedOrder Key] [KeyBytes Key] in
theorem Released.later {s s' : State Key Value} {event : Event Key Value} (released : Released s)
    (history : s'.history = event :: s.history)
    (now : ∀ t call outcome, event = .returned t call outcome →
      Clear (doneBy t s.history) ∧ ∀ key value, call = .insert key value → outcome.ok = true) : Released s' := by
  intro t call outcome later before is
  rw [history] at is
  cases later with
  | nil =>
    obtain ⟨rfl, rfl⟩ := List.cons.inj is
    exact now t call outcome rfl
  | cons first rest =>
    obtain ⟨-, rest⟩ := List.cons.inj is
    exact released t call outcome _ before rest

theorem keeping_tidy {m : Memory Key Value} {assume : Condition (signature Key Value) Thread (State Key Value)}
    (persists : ∀ t o r s, assume t o r s → Op.persists o r = true) {P : IndexPool Key Value}
    (run : Reaches (system cfg calls fun _ _ => False) assume (Pool.start ⟨m, []⟩) P) :
    Keeping (fun t (s : State Key Value) => doneBy t s.history) Released Tidy (fun _ o r => Op.persists o r = true)
      (fun call outcome done => Clear done ∧ ∀ key value, call = .insert key value → outcome.ok = true) P := by
  refine keeping_reaches (recorded_doneBy cfg) ⟨fun t call s released => ?_, fun t o c s r s' released performed met _ =>
    ⟨?_, persists t o r s met⟩,
      fun t call outcome s released ended => ?_, fun s s' _ moved => moved.1.elim⟩ (fun _ _ call _ => tidied_body call)
      (by rintro _ _ _ later _ is; cases later <;> cases is) run
  · exact released.later rfl (by rintro _ _ _ ⟨⟩)
  · exact released.later (State.exec_eq_some performed).2 (by rintro _ _ _ ⟨⟩)
  · refine released.later rfl ?_
    rintro _ _ _ ⟨⟩
    exact ended

theorem accounting_reaches [Nontrivial Key] (wide : 2 ≤ cfg.branchFactor) {m : Memory Key Value} (initialized : m.Initialized)
    {P : IndexPool Key Value} (run : Reaches (system cfg calls fun _ _ => False) (frugal cfg) (Pool.start ⟨m, []⟩) P) :
    ∃ gs, Explains (system cfg calls fun _ _ => False) (machine cfg) (Accounting cfg) gs P := by
  refine (explains_start (accounting_initialized initialized)).reaches
    (implements_machine (fun _ _ inv => inv.storing.discipline) fun _ _ _ admitted => admitted) (preserves_accounting wide) ?_
  refine reaches_stronger run fun Q t call o next done c r s before running performed met => ⟨met, ?_⟩
  obtain ⟨record, fit, -⟩ := (keeping_tidy (fun _ _ _ _ met => met.1.2.2.2.1) before).running t _ running
  rw [record]
  exact fit

omit [LinearOrder Key] [BoundedOrder Key] [KeyBytes Key] in
/-- The test by which `try_delete_kvblock` returns true and frees the item agrees with what its exchange has done. -/
def Event.told (cfg : Config) : Event Key Value → Prop
  | .performed _ ⟨.tryDeleteKvblock, .casBlock _ _ expected _⟩ (found : KVBlock) _ => found = expected ↔
    expected.raw = cfg.expectedPointer
  | _ => True

omit [LinearOrder Key] [BoundedOrder Key] [KeyBytes Key] in
theorem told_of_deletesNone {t : Thread} {o : Op Key Value} {r : o.act.Reply} {m : Memory Key Value}
    (deletes : o.deletesNone cfg r = true) :
    Event.told cfg (.performed t o r m) := by
  unfold Event.told
  split
  · rename_i is
    cases is
    simp only [Op.deletesNone, decide_eq_true_eq] at deletes
    exact iff_of_false deletes.1 deletes.2
  · trivial

theorem reaches_told {m : Memory Key Value} {P : IndexPool Key Value}
    (run : Reaches (system cfg calls fun _ _ => False) (frugal cfg) (Pool.start ⟨m, []⟩) P) :
    ∀ event ∈ P.shared.history, event.told cfg := by
  induction run with
  | refl => simp [Pool.start]
  | tail _ step ih =>
    cases step with
    | invoke free admitted => exact List.forall_mem_cons.2 ⟨trivial, ih⟩
    | @act t call o next done c r s running performed met =>
      rw [Pool.set_shared, (State.exec_eq_some performed).2]
      exact List.forall_mem_cons.2 ⟨told_of_deletesNone met.2.2.2.2.1, ih⟩
    | «return» running => exact List.forall_mem_cons.2 ⟨trivial, ih⟩
    | environment moved => exact moved.1.elim

/-- In every frugal run, whenever no call is in progress every item that was handed out is in a live block of a reachable leaf
or in a free list; the deletions did what they say, and no insert has failed. -/
theorem items_accounted [Nontrivial Key] (wide : 2 ≤ cfg.branchFactor) {m : Memory Key Value} (initialized : m.Initialized)
    {P : IndexPool Key Value} (run : Reaches (system cfg calls fun _ _ => False) (frugal cfg) (Pool.start ⟨m, []⟩) P)
    (quiescent : P.Quiescent) :
    (∀ x ∈ P.shared.memory.itemsIssued,
      (∃ a leaf i, Reachable P.shared.memory a ∧ P.shared.memory.nodes a = some (.leaf leaf) ∧ i < cfg.branchFactor ∧
        (leaf.kvBlocks i).isFree = false ∧ (leaf.kvBlocks i).getAddr = x) ∨ ∃ server, x ∈ P.shared.memory.freeItems server) ∧
    (∀ event ∈ P.shared.history, event.told cfg) ∧
    ∀ t key value outcome, .returned t (.insert key value) outcome ∈ P.shared.history → outcome.ok = true := by
  obtain ⟨gs, explains⟩ := accounting_reaches wide initialized run
  have inv := explains.holds
  have idle : ∀ t, gs t = .idle := fun t => explains.idle t (quiescent t)
  have released := (keeping_tidy (fun _ _ _ _ met => met.2.2.2.1) run).holds
  refine ⟨fun x issued => ?_, reaches_told run, fun t key value outcome returned => ?_⟩
  · rcases inv.accounted x issued with (⟨a, leaf, i, born, bound, taken, is⟩ | free | ⟨t, own⟩ | ⟨t, own⟩) |
      ⟨t, call, outcome, later, before, is, had⟩
    · have shaped := inv.storing.shape.at_rest inv.storing.discipline.levels idle
      exact Or.inl ⟨a, leaf, i, shaped.reachable a _ born.1, born.1, bound, taken, is⟩
    · exact Or.inr free
    · rw [idle t] at own
      cases own
    · rw [idle t] at own
      cases own
    · obtain ⟨⟨noItem, noFree⟩, -⟩ := released t call outcome later before is
      rcases had with item | freeing
      · simp [noItem] at item
      · simp [noFree] at freeing
  · obtain ⟨later, before, is⟩ := List.append_of_mem returned
    exact (released t _ outcome later before is).2 key value rfl

end

/-! ## An update that gives up -/

def frugally [LinearOrder Key] (cfg : Config) : Test (signature Key Value) Thread (State Key Value) := fun _ o r s =>
  Op.fits o r && (Op.lands s.memory o r &&
    (Op.matches s.memory o r && (Op.persists o r && (Op.deletesNone cfg o r && Op.keepsAll cfg s.memory o r))))

theorem frugal_of_frugally [LinearOrder Key] {cfg : Config} (t : Thread) (o : Op Key Value) (r : o.act.Reply) (s : State Key Value)
    (met : frugally cfg t o r s = true) : frugal cfg t o r s := by
  simpa [frugally, frugal] using met

def insertedTwice : IndexPool (Fin 256) ℕ :=
  (Pool.start ⟨smallMemory, []⟩).drive (system smallConfig calls fun _ _ => False) rootCalls (frugally smallConfig)
    (insertAlone ⟨0, 0⟩ firstKey 10 1#64 ++ insertAlone ⟨0, 0⟩ firstKey 11 2#64)

theorem insertedTwice_quiescent : insertedTwice.Quiescent := by
  intro t
  by_cases same : t = ⟨0, 0⟩
  · subst same
    rfl
  · refine (drive_untouched _ _ ?_).trans rfl
    simpa [insertAlone, Move.thread] using same

theorem items_accounted_insertedTwice : insertedTwice.shared.memory.itemsIssued = [⟨2⟩, ⟨1⟩] ∧
    ∀ x ∈ insertedTwice.shared.memory.itemsIssued,
    (∃ a leaf i, Reachable insertedTwice.shared.memory a ∧ insertedTwice.shared.memory.nodes a = some (.leaf leaf) ∧
      i < smallConfig.branchFactor ∧
      (leaf.kvBlocks i).isFree = false ∧ (leaf.kvBlocks i).getAddr = x) ∨ ∃ server,
        x ∈ insertedTwice.shared.memory.freeItems server :=
  ⟨by decide +kernel, (items_accounted (show 2 ≤ smallConfig.branchFactor by decide)
    (show smallMemory.Initialized from Memory.emptyTree_initialized _ _)
    (reaches_drive calls_of_rootCalls frugal_of_frugally _ _ : Reaches _ _ _ insertedTwice) insertedTwice_quiescent).1⟩

def updateGivenUp : IndexPool (Fin 256) ℕ :=
  (Pool.start ⟨smallMemory, []⟩).drive (system smallConfig calls fun _ _ => False) rootCalls freely
    (insertAlone ⟨0, 0⟩ firstKey 10 1#64 ++ .invoke ⟨0, 0⟩ (.insert firstKey 11) :: .act ⟨0, 0⟩ 2#64 :: List.replicate 5
      (.act ⟨0, 0⟩ 0#64) ++
      Move.part ⟨0, 1⟩ (.split ⟨0⟩) 0#64 5 ++ [.act ⟨0, 0⟩ 0#64, .return ⟨0, 0⟩] ++ List.replicate 7 (.act ⟨0, 1⟩ 0#64) ++
        [.return ⟨0, 1⟩])

set_option maxRecDepth 8000 in
theorem updateGivenUp_quiescent : updateGivenUp.Quiescent := by
  intro t
  by_cases first : t = ⟨0, 0⟩
  · subst first
    rfl
  by_cases second : t = ⟨0, 1⟩
  · subst second
    rfl
  refine (drive_untouched _ _ ?_).trans rfl
  simp [insertAlone, Move.thread, Move.part, first, second]

set_option maxRecDepth 8000 in
theorem items_lost_updateGivenUp :
    ¬ ∀ P : IndexPool (Fin 256) ℕ, Reaches (system smallConfig calls fun _ _ => False) anything (Pool.start ⟨smallMemory, []⟩)
      P → P.Quiescent →
      ∀ x ∈ P.shared.memory.itemsIssued,
        (∃ a leaf i, Reachable P.shared.memory a ∧ P.shared.memory.nodes a = some (.leaf leaf) ∧ i < smallConfig.branchFactor ∧
          (leaf.kvBlocks i).isFree = false ∧ (leaf.kvBlocks i).getAddr = x) ∨ ∃ server, x ∈ P.shared.memory.freeItems server := by
  intro claim
  have run : Reaches (system smallConfig calls fun _ _ => False) anything (Pool.start ⟨smallMemory, []⟩) updateGivenUp :=
    reaches_drive calls_of_rootCalls (fun _ _ _ _ _ => trivial) _ _
  obtain ⟨gs, explains⟩ := disciplined_reaches (Memory.emptyTree_initialized _ _) run
  rcases claim updateGivenUp run updateGivenUp_quiescent ⟨2⟩ (by decide +kernel) with
    ⟨a, leaf, i, -, there, small, taken, is⟩ | ⟨server, listed⟩
  · have nodes : updateGivenUp.shared.memory.nodesIssued = [⟨0⟩] := by decide +kernel
    have only := explains.holds.discipline.levels.issued a _ there
    rw [nodes, List.mem_singleton] at only
    subst only
    obtain ⟨now, present, free⟩ : ∃ now : LeafNode (Fin 256), updateGivenUp.shared.memory.nodes ⟨0⟩ = some (.leaf now) ∧
        ∀ i < smallConfig.branchFactor, (now.kvBlocks i).isFree = false → (now.kvBlocks i).getAddr ≠ ⟨2⟩ :=
      ⟨_, rfl, by decide +kernel⟩
    obtain rfl := Node.leaf.inj (Option.some.inj (there.symm.trans present))
    exact free i small taken is
  · have none : updateGivenUp.shared.memory.freeItems = fun _ => [] := rfl
    rw [none] at listed
    cases listed

end Faunus
