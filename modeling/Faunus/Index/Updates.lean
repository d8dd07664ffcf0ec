import Faunus.Index.Copies
import Faunus.Index.Sites

/-! What an update replaces.

The loop of `try_update_kvblock` goes by the block of a leaf that was read before, or by
what its last attempt has found there. Either way the item of the block had the key
when the thread looked, unless the loop went round on a block that only shares the
fingerprint.
-/

set_option autoImplicit false

namespace Faunus

open Interleaving

variable {Key Value : Type}

/-! ## What a call has seen -/

def leafNext : (o : Op Key Value) → o.act.Reply → Option (GlobalAddress × LeafNode Key) → Option (GlobalAddress × LeafNode Key)
  | ⟨site, .readNode a⟩, (n : Node Key), before => if site = .insert ∨ site = .read then some (a, n.asLeaf) else before
  | _, _, before => before

def lastLeaf : List (Done Key Value) → Option (GlobalAddress × LeafNode Key)
  | [] => none
  | ⟨o, r⟩ :: rest => leafNext o r (lastLeaf rest)

/-- What an attempt of an update has expected and found. -/
def Op.attempt : (o : Op Key Value) → o.act.Reply → Option (KVBlock × KVBlock)
  | ⟨.tryUpdateKvblock, .casBlock _ _ expected _⟩, (found : KVBlock) => some (expected, found)
  | _, _ => none

/-- The last operation, if it was an attempt of an update. -/
def lastAttempt : List (Done Key Value) → Option (KVBlock × KVBlock)
  | [] => none
  | ⟨o, r⟩ :: _ => Op.attempt o r

/-- The item was written since the thread's last operation. -/
def lately (t : Thread) (x : GlobalAddress) : List (Event Key Value) → Bool
  | [] => false
  | .performed u o _ _ :: rest => if u = t then false else o.writes x || lately t x rest
  | .invoked _ _ :: rest => lately t x rest
  | .returned _ _ _ :: rest => lately t x rest

theorem readsLeaf_of_site {o : Op Key Value} (other : o.site ≠ .insert ∧ o.site ≠ .read) : o.readsLeaf = false := by
  unfold Op.readsLeaf
  split
  · simpa using other
  · rfl

theorem leafNext_of_elsewhere {o : Op Key Value} {r : o.act.Reply} {before : Option (GlobalAddress × LeafNode Key)}
    (elsewhere : o.readsLeaf = false) : leafNext o r before = before := by
  unfold leafNext
  split
  · simp only [Op.readsLeaf, decide_eq_false_iff_not] at elsewhere
    exact if_neg elsewhere
  · rfl

/-! ## Where the expected block comes from -/

/-- An attempt of an update expects what the attempt before it has found, or the block of the leaf that was read. -/
def Arms (done : List (Done Key Value)) : Op Key Value → Prop
  | ⟨.tryUpdateKvblock, .casBlock a i expected _⟩ =>
    match lastAttempt done with
    | some (before, found) => found = expected ∧ found ≠ before ∧ found.getFingerprint = before.getFingerprint
    | none => ∃ leaf, lastLeaf done = some (a, leaf) ∧ leaf.kvBlocks i = expected
  | _ => True

/-- The leaf was read last, and no attempt was made yet. -/
def Faces (a : GlobalAddress) (leaf : LeafNode Key) (done : List (Done Key Value)) : Prop :=
  lastLeaf done = some (a, leaf) ∧ lastAttempt done = none

/-- The program's updates expect what they have seen. -/
abbrev Armed {A : Type} (post : A → List (Done Key Value) → Prop) (p : Index Key Value A) (done : List (Done Key Value)) : Prop :=
  p.Traced Arms (fun _ _ _ => True) post done

section
variable {A : Type} {done : List (Done Key Value)}

theorem armed_bind {B : Type} {p : Index Key Value A} {f : A → Index Key Value B} {post : B → List (Done Key Value) → Prop}
    (armed : Armed (fun a done => Armed post (f a) done) p done) : Armed post (p >>= f) done :=
  traced_bind armed

theorem armed_step {o : Op Key Value} {f : o.act.Reply → Index Key Value A} {post : A → List (Done Key Value) → Prop}
    (arms : Arms done o) (later : ∀ r, Armed post (f r) (⟨o, r⟩ :: done)) :
    Armed post ((.perform o .value : Index Key Value o.act.Reply) >>= f) done :=
  ⟨arms, fun r _ => later r⟩

theorem arms_of_site {o : Op Key Value} (other : o.site ≠ .tryUpdateKvblock) : Arms done o := by
  unfold Arms
  split
  · exact absurd rfl other
  · trivial

theorem attempt_of_site {o : Op Key Value} {r : o.act.Reply} (other : o.site ≠ .tryUpdateKvblock) : o.attempt r = none := by
  unfold Op.attempt
  split
  · exact absurd rfl other
  · rfl

theorem armed_from {sites : Site → Prop} {p : Index Key Value A} (within : From sites p) (other : ¬ sites .tryUpdateKvblock) :
    Armed (fun _ _ => True) p done := by
  apply traced_only within
  · intro done o is _
    apply arms_of_site
    intro same
    exact other (same ▸ is)
  · intro _ _ _ _ _
    trivial
  · trivial

section
variable {a : GlobalAddress} {leaf : LeafNode Key} {cfg : Config}

theorem faces_step {o : Op Key Value} {r : o.act.Reply} (faces : Faces a leaf done) (elsewhere : o.readsLeaf = false)
    (other : o.site ≠ .tryUpdateKvblock) : Faces a leaf (⟨o, r⟩ :: done) :=
  ⟨(leafNext_of_elsewhere elsewhere).trans faces.1, attempt_of_site other⟩

theorem faces_read {n : Node Key} : Faces a n.asLeaf (⟨⟨.insert, .readNode a⟩, n⟩ :: done : List (Done Key Value)) :=
  ⟨by simp [lastLeaf, leafNext], rfl⟩

theorem armed_tryUpdateLoop (i : ℕ) (new : KVBlock) (bound : ℕ) {expected tmp : KVBlock}
    (known : lastAttempt done = some (expected, tmp) ∧ tmp ≠ expected ∨ tmp = expected ∧ Faces a leaf done ∧
      leaf.kvBlocks i = expected) :
    Armed (fun _ _ => True) (tryUpdateLoop a i new bound expected tmp : Index Key Value Bool) done := by
  induction bound generalizing expected tmp done with
  | zero => trivial
  | succ bound ih =>
    unfold tryUpdateLoop
    split_ifs with again
    · refine armed_step ?_ fun found => ?_
      · rcases known with ⟨last, different⟩ | ⟨rfl, ⟨read, none⟩, block⟩
        · simp only [Arms, last]
          exact ⟨trivial, different, again.1⟩
        · simp only [Arms, none]
          exact ⟨leaf, read, block⟩
      · split_ifs with hit
        · exact armed_step trivial fun _ => trivial
        · exact ih (Or.inl ⟨rfl, hit⟩)
    · trivial

theorem armed_candidates {fp : Fingerprint} (faces : Faces a leaf done) (fromInsert fromRead : Bool) :
    Armed (fun _ done => Faces a leaf done) (getCandidateKvs cfg leaf fp fromInsert fromRead : Index Key Value _) done := by
  refine traced_only (unlatched_getCandidateKvs leaf fp fromInsert fromRead).from (fun done o is _ => arms_of_site ?_)
    (fun done o r is before => faces_step before ?_ ?_) faces
  · rw [is]
    decide
  · refine readsLeaf_of_site ?_
    rw [is]
    decide
  · rw [is]
    decide

end

variable [LinearOrder Key] [BoundedOrder Key] [KeyBytes Key] {cfg : Config} {a : GlobalAddress} {leaf : LeafNode Key}

theorem armed_finishInsert (key : Key) : Armed (fun _ _ => True) (finishInsert cfg key a leaf : Index Key Value Bool) done := by
  unfold finishInsert
  split_ifs
  · exact armed_step trivial fun _ => trivial
  · exact armed_bind (traced_mono (armed_from (from_splitLeaf a) id) fun _ _ _ => trivial)
  · exact armed_bind (traced_mono (armed_from (unlatched_handleLocalRemoveDupes key a leaf true false).from id) fun _ _ _ => trivial)

/-- A retry keeps a leaf only if it was just read. -/
def Retries (outcome : Attempt Key) (done : List (Done Key Value)) : Prop :=
  ∀ a leaf, outcome = .retry (some (a, leaf)) → Faces a leaf done

theorem armed_insertAttempt (key : Key) (kvb : KVBlock) (attempt : ℕ) (faces : Faces a leaf done) :
    Armed Retries (insertAttempt cfg key kvb attempt a leaf : Index Key Value (Attempt Key)) done := by
  refine armed_bind (traced_mono (armed_candidates faces false false) ?_)
  rintro ⟨success, candidates⟩ done faces
  dsimp only
  split_ifs
  · rintro _ _ ⟨⟩
  split
  · refine armed_bind (traced_mono (armed_tryUpdateLoop _ kvb _ (Or.inr ⟨rfl, faces, rfl⟩)) fun _ _ _ => ?_)
    rintro _ _ ⟨⟩
  · refine armed_step trivial fun hash => ?_
    split
    · rintro _ _ ⟨⟩
    · rintro _ _ ⟨⟩
    · refine armed_step trivial fun found => armed_step trivial fun node => ?_
      split_ifs
      · rintro _ _ ⟨⟩
        exact faces_read
      · rintro _ _ ⟨⟩
      · refine armed_bind (traced_mono (armed_finishInsert key) fun _ _ _ => ?_)
        rintro _ _ ⟨⟩
      · rintro _ _ ⟨⟩

omit [KeyBytes Key] in
theorem armed_locateLeaf (key : Key) (item : KVItem Key Value) (x : GlobalAddress) (wrote : Bool) :
    Armed (fun found done => ∀ a leaf, found.2 = some (a, leaf) → Faces a leaf done) (locateLeaf cfg key item x wrote) done := by
  refine armed_bind (traced_mono (armed_from (unlatched_findNode key 0 false).from (by decide)) ?_)
  rintro ⟨result, a⟩ done -
  cases result with
  | unknown => trivial
  | noSuchLevel => trivial
  | locked => rintro _ _ ⟨⟩
  | found =>
    refine armed_step trivial fun node => ?_
    have answer : ∀ done, Faces a node.asLeaf done → Armed (fun found done => ∀ b leaf, found.2 = some (b, leaf) → Faces b leaf done)
        (if node.header.level ≠ 0 then .stuck else if node.header.lock ≠ 0 ∨ ¬ node.header.covers key then pure (true, none)
          else pure (true, some (a, node.asLeaf)) : Index Key Value _) done := by
      intro done faces
      split_ifs
      · trivial
      · rintro _ _ ⟨⟩
      · rintro _ _ ⟨⟩
        exact faces
    cases wrote with
    | true => exact answer _ faces_read
    | false => exact armed_step trivial fun _ => answer _ (faces_step faces_read rfl (by simp))

theorem armed_insertLoop (key : Key) (item : KVItem Key Value) (x : GlobalAddress) (kvb : KVBlock) (attempts attempt : ℕ)
    (wrote : Bool)
    (leafRead : Option (GlobalAddress × LeafNode Key)) (faces : ∀ a leaf, leafRead = some (a, leaf) → Faces a leaf done) :
    Armed (fun _ _ => True) (insertLoop cfg key item x kvb attempts attempt wrote leafRead) done := by
  induction attempts generalizing attempt wrote leafRead done with
  | zero => trivial
  | succ attempts ih =>
    have round : ∀ (wrote : Bool) (target : Option (GlobalAddress × LeafNode Key)) (done : List (Done Key Value)),
        (∀ a leaf, target = some (a, leaf) → Faces a leaf done) → Armed (fun _ _ => True)
          (insertRound cfg key item x kvb attempts attempt wrote target) done := by
      intro wrote target done faces
      cases target with
      | none => exact ih _ _ none (by simp)
      | some target =>
        refine armed_bind (traced_mono (armed_insertAttempt key kvb attempt (faces _ _ rfl)) ?_)
        intro outcome done retries
        cases outcome with
        | done ok => trivial
        | retry leafRead => exact ih _ _ leafRead fun b leaf is => retries b leaf (by rw [is])
    cases leafRead with
    | none =>
      rw [insertLoop_none]
      exact armed_bind (traced_mono (armed_locateLeaf key item x wrote) fun found done known => round _ _ _ known)
    | some target =>
      rw [insertLoop_some]
      exact round _ _ _ faces

theorem armed_readLoop (key : Key) (attempts : ℕ) :
    Armed (fun _ _ => True) (readLoop cfg key attempts : Index Key Value (Outcome Value)) done := by
  induction attempts generalizing done with
  | zero => trivial
  | succ attempts ih =>
    refine armed_bind (traced_mono (armed_from (unlatched_findNode key 0 false).from (by decide)) ?_)
    rintro ⟨result, a⟩ done -
    cases result with
    | unknown => trivial
    | noSuchLevel => trivial
    | locked => exact ih
    | found =>
      refine armed_step trivial fun node => ?_
      refine armed_bind (traced_mono (armed_from (unlatched_handleLocalRemoveDupes key a _ false true).from id) ?_)
      rintro ⟨success, found⟩ done -
      cases success with
      | true => trivial
      | false => exact ih

theorem armed_body (call : Call Key Value) : Armed (fun _ _ => True) (call.body cfg) [] := by
  cases call with
  | insert key value =>
    refine armed_bind (armed_step trivial fun x => ?_)
    exact traced_mono (armed_insertLoop key _ x _ cfg.maxAttempts 0 false none (by simp)) fun _ _ _ => trivial
  | read key => exact armed_readLoop key cfg.maxAttempts
  | split a => exact armed_bind (traced_mono (armed_from (from_splitLeaf a) id) fun _ _ _ => trivial)
  | maintain => exact armed_step trivial fun a => armed_bind (traced_mono (armed_from (from_splitLeaf a) id) fun _ _ _ => trivial)

end

/-! ## What the thread relies on -/

/-- A block that an update replaces has the item it had when the thread last looked: since the attempt that found it, or since
the leaf was read. -/
def Op.settled (t : Thread) (history : List (Event Key Value)) : (o : Op Key Value) → o.act.Reply → Bool
  | ⟨.tryUpdateKvblock, .casBlock _ _ expected _⟩, (found : KVBlock) =>
    decide (found ≠ expected) || match lastAttempt (doneBy t history) with
      | some _ => !lately t expected.getAddr history
      | none => !rewritten t expected.getAddr history
  | _, _ => true

/-- An attempt that is repeated has found a block of the key. -/
def Op.retargets [DecidableEq Key] (t : Thread) (s : State Key Value) : (o : Op Key Value) → o.act.Reply → Bool
  | ⟨.tryUpdateKvblock, .casBlock _ _ expected _⟩, (found : KVBlock) =>
    decide (found = expected) || found.isFree || found.isLocked || decide (found.getFingerprint ≠ expected.getFingerprint) ||
      decide ((callOf t s.history).bind Call.key = some (s.memory.items found.getAddr).key)
  | _, _ => true

theorem writes_of_attempt {o : Op Key Value} {r : o.act.Reply} {x : GlobalAddress} {e : KVBlock × KVBlock}
    (attempt : o.attempt r = some e) :
    o.writes x = false := by
  unfold Op.attempt at attempt
  split at attempt
  · rfl
  · cases attempt

theorem retargets_of_attempt [DecidableEq Key] {t : Thread} {s : State Key Value} {o : Op Key Value} {r : o.act.Reply}
    {before found : KVBlock}
    (attempt : o.attempt r = some (before, found)) (retargets : o.retargets t s r = true) (different : found ≠ before)
    (taken : found.isFree = false) (unlocked : found.isLocked = false) (print : found.getFingerprint = before.getFingerprint) :
    (callOf t s.history).bind Call.key = some (s.memory.items found.getAddr).key := by
  unfold Op.attempt at attempt
  split at attempt
  · cases attempt
    simpa [Op.retargets, different, taken, unlocked, print] using retargets
  · cases attempt

/-- The block that the thread's last attempt has found has the key, unless its item was written again. -/
def Aimed (put : Put Key Value) (m : Memory Key Value) (t : Thread) (history : List (Event Key Value)) : Prop :=
  ∀ key before found, put.wanted = some key → lastAttempt (doneBy t history) = some (before, found) → found ≠ before →
    found.isFree = false → found.isLocked = false → found.getFingerprint = before.getFingerprint →
    lately t found.getAddr history = true ∨ (m.items found.getAddr).key = key

section
variable [LinearOrder Key] [BoundedOrder Key] [KeyBytes Key] {cfg : Config}

/-- Addresses fit, inserts hit a leaf that has the key, and updates go on with blocks of the key. -/
def loyal : Condition (signature Key Value) Thread (State Key Value) := fun t o r s =>
  Op.fits o r = true ∧ Op.lands s.memory o r = true ∧ Op.settled t s.history o r = true ∧ Op.retargets t s o r = true

structure Updating (cfg : Config) (gs : Thread → Local Key Value) (s : State Key Value) : Prop where
  storing : Storing cfg gs s
  fetched : ∀ t, Fetched (gs t).put s.memory t s.history
  wanted : ∀ t, (gs t).put.wanted = (callOf t s.history).bind Call.key
  item : ∀ t x item wrote, (gs t).put.item = some (x, item, wrote) → (gs t).put.wanted = some item.key
  seen : ∀ t a leaf, (gs t).put.seen = some (a, leaf) → lastLeaf (doneBy t s.history) = some (a, leaf)
  aimed : ∀ t, Aimed (gs t).put s.memory t s.history

section
variable {gs : Thread → Local Key Value} {s s' : State Key Value} {t u : Thread} {call : Call Key Value} {g : Local Key Value}
  {o : Op Key Value} {r : o.act.Reply} {m m' : Memory Key Value}

omit [BoundedOrder Key] in
theorem Effect.wanted (effect : Effect cfg t gs m o r m' g) : g.put.wanted = (gs t).put.wanted := by
  cases effect with
  | quiet _ _ _ put => rw [put]
  | leafSplit _ _ _ _ _ _ _ _ _ put => rw [put]
  | _ => rfl

omit [BoundedOrder Key] in
theorem Effect.item (effect : Effect cfg t gs m o r m' g) {x : GlobalAddress} {item : KVItem Key Value} {wrote : Bool}
    (own : g.put.item = some (x, item, wrote)) :
    (gs t).put.wanted = some item.key ∨ ∃ wrote, (gs t).put.item = some (x, item, wrote) := by
  cases effect with
  | quiet _ _ _ put =>
    rw [put] at own
    exact Or.inr ⟨wrote, own⟩
  | leafSplit _ _ _ _ _ _ _ _ _ put =>
    rw [put] at own
    exact Or.inr ⟨wrote, own⟩
  | allocItem _ wanted =>
    cases own
    exact Or.inl wanted
  | writeItem before =>
    cases own
    exact Or.inr ⟨false, before⟩
  | slotFilled => cases own
  | slotUpdated => cases own
  | _ => exact Or.inr ⟨wrote, own⟩

/-- Each call's item is for the key of the call. -/
structure Wanting (gs : Thread → Local Key Value) (s : State Key Value) : Prop where
  wanted : ∀ t, (gs t).put.wanted = (callOf t s.history).bind Call.key
  item : ∀ t x item wrote, (gs t).put.item = some (x, item, wrote) → (gs t).put.wanted = some item.key

omit [LinearOrder Key] [BoundedOrder Key] [KeyBytes Key] in
theorem Wanting.mark (inv : Wanting gs s) {e : Event Key Value} (item : g.put.item = none)
    (own : g.put.wanted = (callOf t (e :: s.history)).bind Call.key)
    (others : ∀ u ≠ t, callOf u (e :: s.history) = callOf u s.history) :
    Wanting (Function.update gs t g) { s with history := e :: s.history } := by
  constructor
  · intro u
    by_cases same : u = t
    · subst same
      rw [Function.update_self, own]
    · rw [Function.update_of_ne same, others u same]
      exact inv.wanted u
  · exact (Function.forall_update_iff gs
      (p := fun _ l => ∀ x item wrote, l.put.item = some (x, item, wrote) → l.put.wanted = some item.key)).2
      ⟨by simp [item], fun u _ => inv.item u⟩

omit [BoundedOrder Key] in
theorem Wanting.act (inv : Wanting gs s) (effect : Effect cfg t gs s.memory o r m' g) :
    Wanting (Function.update gs t g) ⟨m', .performed t o r s.memory :: s.history⟩ := by
  constructor
  · exact (Function.forall_update_iff gs (p := fun u l => l.put.wanted = (callOf u s.history).bind Call.key)).2
      ⟨effect.wanted.trans (inv.wanted t), fun u _ => inv.wanted u⟩
  · refine (Function.forall_update_iff gs
      (p := fun _ l => ∀ x item wrote, l.put.item = some (x, item, wrote) → l.put.wanted = some item.key)).2
      ⟨fun x item wrote own => ?_, fun u _ => inv.item u⟩
    rw [effect.wanted]
    rcases effect.item own with wanted | ⟨before, old⟩
    · exact wanted
    · exact inv.item t x item before old

omit [BoundedOrder Key] in
theorem Effect.seen (effect : Effect cfg t gs m o r m' g) {before : Option (GlobalAddress × LeafNode Key)} :
    leafNext o r before = g.put.seen ∨ leafNext o r before = before ∧ g.put.seen = (gs t).put.seen := by
  cases effect with
  | quiet elsewhere _ _ put => exact Or.inr ⟨leafNext_of_elsewhere elsewhere, by rw [put]⟩
  | leafSplit _ _ _ _ _ _ _ _ _ put => exact Or.inr ⟨rfl, by rw [put]⟩
  | readLeaf from_ => exact Or.inl (if_pos from_)
  | _ => exact Or.inr ⟨rfl, rfl⟩

omit [BoundedOrder Key] in
theorem aimed_own {put : Put Key Value} (effect : Effect cfg t gs s.memory o r m' g)
    (wanted : put.wanted = (callOf t s.history).bind Call.key)
    (retargets : o.retargets t s r = true) : Aimed put m' t (.performed t o r s.memory :: s.history) := by
  intro key before found is last different taken unlocked print
  have attempt : o.attempt r = some (before, found) := by simpa [doneBy, lastAttempt] using last
  have item := retargets_of_attempt attempt retargets different taken unlocked print
  have kept := (effect.items found.getAddr).resolve_right (by simp [writes_of_attempt attempt])
  rw [kept]
  exact Or.inr (Option.some.inj (item.symm.trans (wanted.symm.trans is)))

omit [BoundedOrder Key] in
theorem Aimed.other {put : Put Key Value} {history : List (Event Key Value)} (aimed : Aimed put m u history)
    (effect : Effect cfg t gs m o r m' g) (other : u ≠ t) : Aimed put m' u (.performed t o r m :: history) := by
  intro key before found is last different taken unlocked print
  rcases effect.items found.getAddr with kept | written
  · rw [kept]
    refine (aimed key before found is (by simpa [doneBy, other] using last) different taken unlocked print).imp_left fun again => ?_
    simp [lately, Ne.symm other, again]
  · exact Or.inl (by simp [lately, Ne.symm other, written])

omit [BoundedOrder Key] [KeyBytes Key] in
theorem matches_of_act (other : ∀ a i expected desired, o.act ≠ .casBlock a i expected desired) : o.matches m r = true := by
  unfold Op.matches
  split
  · exact absurd rfl (other _ _ _ _)
  · rfl

theorem Permits.updating {a : GlobalAddress} {i : ℕ} {expected desired found : KVBlock}
    (permitted : Permits cfg t gs m ⟨.tryUpdateKvblock, .casBlock a i expected desired⟩ found m' g) (hits : found = expected) :
    (gs t).view.target = some (a, 0) ∧ i < cfg.branchFactor ∧ expected.isFree = false ∧
      ∃ x item, (gs t).put.item = some (x, item, true) ∧ desired = .make (.ofKey item.key) x false false := by
  cases permitted with
  | slotMissed there missed => exact absurd hits missed
  | slotUpdated there target ready candidate taken => exact ⟨target, candidate.1, taken, _, _, ready.written, rfl⟩

theorem Updating.matches (inv : Updating cfg gs s) (permitted : Permits cfg t gs s.memory o r m' g)
    (arms : Arms (doneBy t s.history) o)
    (settled : o.settled t s.history r = true) : o.matches s.memory r = true := by
  -- what an attempt of an update relies on is so
  cases permitted with
  | @slotMissed site a leaf i expected desired there missed => cases site <;> simp [Op.matches, missed]
  | @slotUpdated a address leaf snap i item there target ready candidate taken unlocked print looked missed =>
    have wanted := inv.item t _ _ _ ready.written
    suffices same : (s.memory.items (leaf.kvBlocks i).getAddr).key = item.key by
      simp [Op.matches, inv.storing.owning.owned.placing ready.written, same]
    simp only [Arms] at arms
    simp only [Op.settled, ne_eq, not_true_eq_false, decide_false, Bool.false_or] at settled
    cases last : lastAttempt (doneBy t s.history) with
    | none =>
      rw [last] at arms settled
      obtain ⟨read, is, block⟩ := arms
      obtain rfl : read = snap := by simpa [is] using inv.seen t a snap ready.seen
      rw [← block] at settled ⊢
      exact (inv.fetched t a read i item.key ready.seen looked).resolve_left (by simpa using settled)
    | some attempt =>
      obtain ⟨before, found⟩ := attempt
      rw [last] at arms settled
      obtain ⟨rfl, different, same⟩ := arms
      exact (inv.aimed t item.key before _ wanted last different taken unlocked same).resolve_left (by simpa using settled)
  | slotFilled => rfl
  | slotDeleted => rfl
  | _ => exact matches_of_act (by rintro _ _ _ _ ⟨⟩)

theorem Updating.wanting (inv : Updating cfg gs s) : Wanting gs s := ⟨inv.wanted, inv.item⟩

theorem Updating.invoke (inv : Updating cfg gs s) (idle : gs t = .idle) (begins : (machine cfg).begins t call gs s g) :
    Updating cfg (Function.update gs t g) { s with history := .invoked t call :: s.history } := by
  have storing := inv.storing.invoke idle begins
  obtain ⟨target, is, -⟩ := begins
  have wanting : Wanting (Function.update gs t g) { s with history := .invoked t call :: s.history } :=
    inv.wanting.mark (by rw [is]; rfl) (by simp [is, callOf]) fun u other => by simp [callOf, Ne.symm other]
  subst is
  refine ⟨storing, fun u => ?_, wanting.wanted, wanting.item, fun u => ?_, fun u => ?_⟩ <;> by_cases same : u = t
  · subst same
    rw [Function.update_self]
    rintro _ _ _ _ ⟨⟩
  · rw [Function.update_of_ne same]
    exact inv.fetched u
  · subst same
    rw [Function.update_self]
    rintro _ _ ⟨⟩
  · simpa [Function.update_of_ne same, doneBy, same] using inv.seen u
  · subst same
    intro key before found _ last
    simp [doneBy, lastAttempt] at last
  · rw [Function.update_of_ne same]
    intro key before found is last
    exact inv.aimed u key before found is (by simpa [doneBy, same] using last)

theorem Updating.act (wide : 2 ≤ cfg.branchFactor) (inv : Updating cfg gs s) (permits : (machine cfg).permits t gs s o r s' g)
    (met : loyal t o r s) (hits : o.matches s.memory r = true) : Updating cfg (Function.update gs t g) s' := by
  obtain ⟨fits, lands, -, retargets⟩ := met
  have effect := inv.storing.discipline.effect permits.1
  have storing := inv.storing.act wide permits fits lands hits
  obtain ⟨m', history⟩ := s'
  obtain rfl : history = .performed t o r s.memory :: s.history := permits.2
  have wanting := inv.wanting.act effect
  refine ⟨storing, fun u => ?_, wanting.wanted, wanting.item, fun u => ?_, fun u => ?_⟩ <;> by_cases same : u = t
  · subst same
    rw [Function.update_self]
    exact (inv.fetched u).act effect
  · rw [Function.update_of_ne same]
    exact (inv.fetched u).step effect rfl rfl fun is => absurd is same
  · subst same
    rw [Function.update_self]
    intro a leaf seen
    simp only [doneBy, if_true, lastLeaf]
    rcases effect.seen with new | ⟨kept, old⟩
    · rw [new, seen]
    · rw [kept]
      exact inv.seen u a leaf (old ▸ seen)
  · simpa [Function.update_of_ne same, doneBy, same] using inv.seen u
  · subst same
    rw [Function.update_self]
    exact aimed_own effect (effect.wanted.trans (inv.wanted u)) retargets
  · rw [Function.update_of_ne same]
    exact (inv.aimed u).other effect same

theorem Updating.finish {outcome : Outcome Value} (inv : Updating cfg gs s) (ends : (machine cfg).ends t call outcome (gs t)) :
    Updating cfg (Function.update gs t .idle) { s with history := .returned t call outcome :: s.history } := by
  have wanting : Wanting (Function.update gs t .idle) { s with history := .returned t call outcome :: s.history } :=
    inv.wanting.mark (g := .idle) rfl (by simp [callOf, Local.idle, Put.idle]) fun u other => by simp [callOf, Ne.symm other]
  refine ⟨inv.storing.finish ends, fun u => ?_, wanting.wanted, wanting.item, fun u => ?_, fun u => ?_⟩ <;> by_cases same : u = t
  · subst same
    rw [Function.update_self]
    rintro _ _ _ _ ⟨⟩
  · rw [Function.update_of_ne same]
    exact inv.fetched u
  · subst same
    rw [Function.update_self]
    rintro _ _ ⟨⟩
  · rw [Function.update_of_ne same]
    exact inv.seen u
  · subst same
    rw [Function.update_self]
    rintro key before found ⟨⟩
  · rw [Function.update_of_ne same]
    exact inv.aimed u

end

theorem updating_initialized [Nontrivial Key] {m : Memory Key Value} (initialized : m.Initialized) :
    Updating cfg (fun _ => .idle) ⟨m, []⟩ :=
  ⟨storing_initialized initialized, by rintro _ _ _ _ _ ⟨⟩, fun _ => rfl, by rintro _ _ _ _ ⟨⟩,
    by rintro _ _ _ ⟨⟩, by rintro _ _ _ _ ⟨⟩⟩

theorem preserves_updating (wide : 2 ≤ cfg.branchFactor) :
    Preserves (system cfg calls fun _ _ => False) (machine cfg) (Updating cfg : (Thread → Local Key Value) → State Key Value → Prop)
      fun t o r s => loyal t o r s ∧ Op.matches s.memory o r = true where
  invoke _ _ _ _ _ inv idle _ begins := inv.invoke idle begins
  act _ _ _ _ _ _ _ _ inv _ met permits := inv.act wide permits met.1 met.2
  finish _ _ _ _ _ inv ends := inv.finish ends
  env _ _ _ _ moved := moved.1.elim

theorem reaches_arms {assume : Condition (signature Key Value) Thread (State Key Value)} {m : Memory Key Value}
    {P : IndexPool Key Value} (run : Reaches (system cfg calls fun _ _ => False) assume (Pool.start ⟨m, []⟩) P) {t : Thread}
    {call : Call Key Value} {o : Op Key Value} {next : o.act.Reply → Index Key Value (Outcome Value)}
    {done : List (Done Key Value)}
    (running : P.threads t = some ⟨call, .perform o next, done⟩) : Arms (doneBy t P.shared.history) o := by
  have upholds : Upholds (system cfg calls fun _ _ => False) (fun t (s : State Key Value) => doneBy t s.history) (fun _ => True) Arms
      (fun _ _ _ => True) (fun _ _ _ => True) assume :=
    ⟨fun _ _ _ _ => trivial, fun _ _ _ _ _ _ _ _ _ _ => ⟨trivial, trivial⟩, fun _ _ _ _ _ _ => trivial, fun _ _ _ _ => trivial⟩
  have keeping := keeping_reaches (recorded_doneBy cfg) upholds (fun _ _ call _ => armed_body call) trivial run
  obtain ⟨record, fit, -⟩ := keeping.running t _ running
  rw [record]
  exact fit

theorem updating_reaches [Nontrivial Key] (wide : 2 ≤ cfg.branchFactor) {m : Memory Key Value} (initialized : m.Initialized)
    {P : IndexPool Key Value} (run : Reaches (system cfg calls fun _ _ => False) loyal (Pool.start ⟨m, []⟩) P) :
    ∃ gs, Explains (system cfg calls fun _ _ => False) (machine cfg) (Updating cfg) gs P := by
  have explained : ∀ {Q : IndexPool Key Value}, Reaches (system cfg calls fun _ _ => False)
      (fun t o r s => loyal t o r s ∧ Op.matches s.memory o r = true) (Pool.start ⟨m, []⟩) Q →
      ∃ gs, Explains (system cfg calls fun _ _ => False) (machine cfg) (Updating cfg) gs Q := fun run =>
    (explains_start (updating_initialized initialized)).reaches
      (implements_machine (fun _ _ inv => inv.storing.discipline) fun _ _ _ admitted => admitted) (preserves_updating wide) run
  refine explained (reaches_stronger run fun Q t call o next done c r s before running performed met => ⟨met, ?_⟩)
  obtain ⟨gs, explains⟩ := explained before
  obtain ⟨g, permits, -⟩ := explains.permits running performed
  exact explains.holds.matches permits.1 (reaches_arms before running) met.2.2.1

/-- In every loyal run, an update that hits its block replaces a block of its own key, in a leaf that covers the key. -/
theorem update_replaces_own [Nontrivial Key] (wide : 2 ≤ cfg.branchFactor) {m : Memory Key Value} (initialized : m.Initialized)
    {P : IndexPool Key Value} (run : Reaches (system cfg calls fun _ _ => False) loyal (Pool.start ⟨m, []⟩) P)
    {t : Thread} {key : Key} {value : Value} {a : GlobalAddress} {i : ℕ} {expected desired : KVBlock}
    {next : KVBlock → Index Key Value (Outcome Value)} {done : List (Sigma (signature Key Value).Reply)}
    (running : P.threads t = some ⟨.insert key value, .perform ⟨.tryUpdateKvblock, .casBlock a i expected desired⟩ next, done⟩)
    (met : loyal t ⟨.tryUpdateKvblock, .casBlock a i expected desired⟩ expected P.shared)
    {leaf : LeafNode Key} (there : P.shared.memory.nodes a = some (.leaf leaf)) (hits : leaf.kvBlocks i = expected) :
    (P.shared.memory.items expected.getAddr).key = key ∧ leaf.header.covers key := by
  obtain ⟨gs, explains⟩ := updating_reaches wide initialized run
  have inv := explains.holds
  obtain ⟨s', performed⟩ :
    ∃ s', (system cfg calls fun _ _ => False).exec t ⟨.tryUpdateKvblock, .casBlock a i expected desired⟩ 0 P.shared =
      some (expected, s') := by
    simp only [system, State.exec, Memory.exec, there, hits, if_true]
    exact ⟨_, rfl⟩
  obtain ⟨g, ⟨permitted, -⟩, -⟩ := explains.permits running performed
  obtain ⟨target, small, live, x, item, own, rfl⟩ := permitted.updating rfl
  have born := (inv.storing.discipline.born_of_target target there).1
  have same := inv.matches permitted (reaches_arms run running) met.2.2.1
  have wanted : key = item.key := by
    have called := inv.wanted t
    rw [reaches_callOf run running, inv.item t x item true own] at called
    exact (Option.some.inj called).symm
  have is : (P.shared.memory.items expected.getAddr).key = key := by
    simpa [Op.matches, inv.storing.owning.owned.placing own, wanted] using same
  refine ⟨is, ?_⟩
  subst hits
  exact is ▸ inv.storing.contents.inside a leaf born i _ _ (inv.storing.discipline.live_of_born born small live)

end

/-! ## An update beside a split -/

def loyally [LinearOrder Key] [KeyBytes Key] : Test (signature Key Value) Thread (State Key Value) := fun t o r s =>
  Op.fits o r && (Op.lands s.memory o r && (Op.settled t s.history o r && Op.retargets t s o r))

theorem loyal_of_loyally [LinearOrder Key] [KeyBytes Key] (t : Thread) (o : Op Key Value) (r : o.act.Reply) (s : State Key Value)
    (met : loyally t o r s = true) : loyal t o r s := by
  simpa [loyally, loyal] using met

/-- An update that goes round because another one came first. -/
def updatingAgain : IndexPool (Fin 256) ℕ :=
  (Pool.start ⟨smallMemory, []⟩).drive (system smallConfig calls fun _ _ => False) rootCalls loyally
    (insertAlone ⟨0, 0⟩ firstKey 10 1#64 ++ .invoke ⟨0, 1⟩ (.insert firstKey 11) :: .act ⟨0, 1⟩ 2#64 :: List.replicate 5
      (.act ⟨0, 1⟩ 0#64) ++
      insertAlone ⟨0, 2⟩ firstKey 12 3#64 ++ [.act ⟨0, 1⟩ 0#64])

set_option maxRecDepth 8000 in
theorem update_replaces_own_updatingAgain : ∃ expected leaf,
    updatingAgain.shared.memory.nodes ⟨0⟩ = some (.leaf leaf) ∧ leaf.kvBlocks 0 = expected ∧ expected.getAddr = ⟨3⟩ ∧
      (updatingAgain.shared.memory.items expected.getAddr).key = firstKey ∧ leaf.header.covers firstKey :=
  ⟨_, _, rfl, rfl, by decide +kernel, update_replaces_own (show 2 ≤ smallConfig.branchFactor by decide)
    (show smallMemory.Initialized from Memory.emptyTree_initialized _ _)
    (reaches_drive calls_of_rootCalls loyal_of_loyally _ _ : Reaches _ _ _ updatingAgain) (t := ⟨0, 1⟩) rfl
    (loyal_of_loyally _ _ _ _ (by decide +kernel)) rfl rfl⟩

abbrev WideKey := Fin 65536

instance wideKeyBytes : KeyBytes WideKey := ⟨fun key => [BitVec.ofNat 8 (key.val / 256), BitVec.ofNat 8 key.val]⟩

instance wideBounds : BoundedOrder WideKey := inferInstance

def lowKey : WideKey := ⟨258, by decide⟩

/-- The bytes 2 and 1, with the same fingerprint. -/
def highKey : WideKey := ⟨513, by decide⟩

def wideMemory : Memory WideKey ℕ := .emptyTree ⟨0⟩ fun _ => ⟨lowKey, 0⟩

def insertWide (t : Thread) (key : WideKey) (value : ℕ) (address : BitVec 64) (steps : ℕ) :
    List (Move Thread (BitVec 64) (Call WideKey ℕ)) :=
  .invoke t (.insert key value) :: .act t address :: List.replicate steps (.act t 0)

/-- An update has read the leaf and found its key in slot 0 when a split puts the other key there; its first attempt fails. -/
def updatingOther : IndexPool WideKey ℕ :=
  (Pool.start ⟨wideMemory, []⟩).drive (system smallConfig calls fun _ _ => False) rootCalls freely
    (insertWide ⟨0, 0⟩ highKey 1 1#64 7 ++ .return ⟨0, 0⟩ :: insertWide ⟨0, 0⟩ ⟨1024, by decide⟩ 2 2#64 7 ++
      .return ⟨0, 0⟩ :: insertWide ⟨0, 0⟩ lowKey 3 3#64 10 ++ .return ⟨0, 0⟩ :: insertWide ⟨0, 1⟩ highKey 4 4#64 6 ++
      Move.part ⟨0, 2⟩ (.split ⟨0⟩) 7#64 22 ++ [.act ⟨0, 1⟩ 0#64])

theorem update_fails_updatingOther :
    ¬ ∀ P : IndexPool WideKey ℕ, Reaches (system smallConfig calls fun _ _ => False) anything (Pool.start ⟨wideMemory, []⟩) P →
      ∀ t key value a i expected desired next done,
        P.threads t = some ⟨.insert key value, .perform ⟨.tryUpdateKvblock, .casBlock a i expected desired⟩ next, done⟩ →
        ∀ leaf, P.shared.memory.nodes a = some (.leaf leaf) → leaf.kvBlocks i = expected →
        (P.shared.memory.items expected.getAddr).key = key ∧ leaf.header.covers key := by
  intro claim
  have run : Reaches (system smallConfig calls fun _ _ => False) anything (Pool.start ⟨wideMemory, []⟩) updatingOther :=
    reaches_drive calls_of_rootCalls (fun _ _ _ _ _ => trivial) _ _
  obtain ⟨expected, desired, next, done, leaf, updates, there, hits, item⟩ : ∃ expected desired next done leaf,
      updatingOther.threads ⟨0, 1⟩ = some
        ⟨.insert highKey 4, .perform ⟨.tryUpdateKvblock, .casBlock ⟨0⟩ 0 expected desired⟩ next, done⟩ ∧
      updatingOther.shared.memory.nodes ⟨0⟩ = some (.leaf leaf) ∧ leaf.kvBlocks 0 = expected ∧
      (updatingOther.shared.memory.items expected.getAddr).key = lowKey :=
    ⟨_, _, _, _, _, rfl, rfl, rfl, by decide +kernel⟩
  have same := (claim updatingOther run ⟨0, 1⟩ highKey 4 ⟨0⟩ 0 expected desired next done updates leaf there hits).1
  rw [item] at same
  exact absurd same (by decide)

end Faunus
