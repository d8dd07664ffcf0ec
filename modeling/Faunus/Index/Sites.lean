import Faunus.Index.Runs
import Faunus.Interleaving.Logs

/-! What a call has done, and which functions its operations come from. -/

set_option autoImplicit false

namespace Faunus

open Interleaving

variable {Key Value : Type}

/-! ## What a call has done -/

abbrev Done (Key Value : Type) := Sigma (signature Key Value).Reply

/-- What the thread has done since its last invocation, newest first. -/
def doneBy (t : Thread) : List (Event Key Value) → List (Done Key Value)
  | [] => []
  | .invoked u _ :: rest => if t = u then [] else doneBy t rest
  | .performed u o r _ :: rest => if t = u then ⟨o, r⟩ :: doneBy t rest else doneBy t rest
  | .returned _ _ _ :: rest => doneBy t rest

theorem recorded_doneBy [LinearOrder Key] [BoundedOrder Key] [KeyBytes Key] (cfg : Config)
    {admits : State Key Value → Thread → Call Key Value → Prop} :
    Recorded (system cfg admits fun _ _ => False) fun t (s : State Key Value) => doneBy t s.history where
  invoke t call s u := rfl
  act t o c s r s' u performed := by
    rw [(State.exec_eq_some performed).2]
    rfl
  finish t call a s u := rfl
  env s s' u moved := moved.1.elim

/-! ## Functions -/

def Site.splits : Site → Prop
  | .findNode _ _ => True
  | .splitLeaf _ => True
  | .insertInternalEntry _ => True
  | .splitInternalNode => True
  | .setupNewRoot => True
  | _ => False

/-- The functions that look at the candidates of a leaf and delete duplicates. -/
def Site.removes : Site → Prop
  | .getCandidateKvs => True
  | .tryDeleteKvblock => True
  | _ => False

/-- Every operation of the program comes from one of the functions. -/
def From (sites : Site → Prop) {A : Type} (p : Index Key Value A) : Prop :=
  p.Only fun o : Op Key Value => sites o.site

/-- The act may take or release the lock of a node. -/
def Act.latches : Act Key Value → Bool
  | .casLock _ _ _ => true
  | .faaLock _ _ => true
  | _ => false

/-- The program stays in these functions and leaves the node locks alone. -/
def Unlatched (sites : Site → Prop) {A : Type} (p : Index Key Value A) : Prop :=
  p.Only fun o : Op Key Value => sites o.site ∧ o.act.latches = false

section Rules
variable {sites wider : Site → Prop} {A B : Type} {p : Index Key Value A}

theorem Unlatched.from (unlatched : Unlatched sites p) : From sites p :=
  only_mono unlatched fun _ is => is.1

theorem unlatched_bind {f : A → Index Key Value B} (first : Unlatched sites p) (later : ∀ a, Unlatched sites (f a)) :
    Unlatched sites (p >>= f) :=
  only_bind first later

theorem unlatched_step {site : Site} {act : Act Key Value} {f : act.Reply → Index Key Value B} (within : sites site)
    (free : act.latches = false) (later : ∀ r, Unlatched sites (f r)) :
    Unlatched sites ((.perform ⟨site, act⟩ .value : Index Key Value act.Reply) >>= f) :=
  ⟨⟨within, free⟩, later⟩

theorem unlatched_one {site : Site} (first : Unlatched (· = site) p) (within : sites site) : Unlatched sites p :=
  only_mono first fun _ is => ⟨is.1 ▸ within, is.2⟩

theorem from_bind {f : A → Index Key Value B} (first : From sites p) (later : ∀ a, From sites (f a)) : From sites (p >>= f) :=
  only_bind first later

theorem from_step {site : Site} {act : Act Key Value} {f : act.Reply → Index Key Value B} (within : sites site)
    (later : ∀ r, From sites (f r)) :
    From sites ((.perform ⟨site, act⟩ .value : Index Key Value act.Reply) >>= f) :=
  ⟨within, later⟩

theorem unlatched_setDifferentRandomFpAddr {site : Site} (within : sites site) (b : KVBlock) :
    Unlatched sites (setDifferentRandomFpAddr site b : Index Key Value KVBlock) :=
  ⟨⟨within, rfl⟩, fun _ => ⟨⟨within, rfl⟩, fun _ => trivial⟩⟩

end Rules

section
variable [LinearOrder Key] [BoundedOrder Key] [KeyBytes Key] {cfg : Config}

/-! ## Descents -/

omit [KeyBytes Key] in
theorem unlatched_findNodeLoop (key : Key) (level : ℕ) (fromSmo : Bool) (bound : ℕ) (a : GlobalAddress) (inRoot : Bool) :
    Unlatched (· = .findNode level fromSmo) (findNodeLoop key level fromSmo bound a inRoot : Index Key Value _) := by
  induction bound generalizing a inRoot with
  | zero => trivial
  | succ bound ih =>
    refine unlatched_step rfl rfl fun node => ?_
    dsimp only
    split_ifs
    · trivial
    · trivial
    · trivial
    · trivial
    · trivial
    · trivial
    · exact ih _ _

omit [KeyBytes Key] in
theorem unlatched_findNode (key : Key) (level : ℕ) (fromSmo : Bool) :
    Unlatched (· = .findNode level fromSmo) (findNode cfg key level fromSmo : Index Key Value _) :=
  unlatched_step rfl rfl fun root => unlatched_findNodeLoop key level fromSmo cfg.loopBound root true

/-! ## Splits -/

omit [KeyBytes Key] in
theorem unlatched_setupNewRoot (key : Key) (child : GlobalAddress) (level : ℕ) :
    Unlatched Site.splits (setupNewRoot key child level : Index Key Value Bool) := by
  refine unlatched_step trivial rfl fun new => unlatched_step trivial rfl fun old => unlatched_step trivial rfl fun _ => ?_
  refine unlatched_step trivial rfl fun expected => unlatched_step trivial rfl fun found => ?_
  split_ifs
  · trivial
  · trivial

section
variable {insertAbove : Key → GlobalAddress → ℕ → Index Key Value Bool}
  (above : ∀ key child level, From Site.splits (insertAbove key child level))
include above

omit [KeyBytes Key] in
theorem from_splitInternalNode (a : GlobalAddress) (node : InternalNode Key) (key : Key) (child : GlobalAddress) :
    From Site.splits (splitInternalNode cfg insertAbove a node key child) := by
  unfold splitInternalNode
  split_ifs
  · trivial
  · refine from_step trivial fun new => from_step trivial fun _ => from_step trivial fun _ => ?_
    refine from_bind (above _ _ _) fun success => ?_
    split_ifs
    · trivial
    · trivial

omit [KeyBytes Key] in
theorem from_insertInternalEntryLoop (key : Key) (child : GlobalAddress) (level attempts : ℕ) :
    From Site.splits (insertInternalEntryLoop cfg insertAbove key child level attempts) := by
  induction attempts with
  | zero => trivial
  | succ attempts ih =>
    refine from_bind (unlatched_one (unlatched_findNode key level true) trivial).from ?_
    rintro ⟨result, a⟩
    cases result with
    | unknown => trivial
    | noSuchLevel => exact (unlatched_setupNewRoot key child level).from
    | locked => exact ih
    | found =>
      refine from_step trivial fun expected => from_step trivial fun node => ?_
      dsimp only
      split_ifs
      · exact ih
      · trivial
      · exact from_step trivial fun _ => trivial
      · exact from_bind (from_splitInternalNode above a _ key child) fun _ => from_step trivial fun _ => trivial
      · exact from_step trivial fun _ => from_step trivial fun _ => trivial
      · exact from_step trivial fun _ => ih

end

omit [KeyBytes Key] in
theorem from_insertInternalEntry (depth : ℕ) (key : Key) (child : GlobalAddress) (level : ℕ) :
    From Site.splits (insertInternalEntry cfg depth key child level : Index Key Value Bool) := by
  induction depth generalizing key child level with
  | zero => trivial
  | succ depth ih => exact from_insertInternalEntryLoop ih key child level cfg.maxAttempts

omit [LinearOrder Key] [BoundedOrder Key] [KeyBytes Key] in
theorem unlatched_lockUnlockKvblocks (a : GlobalAddress) (toLock : Bool) (slots : List ℕ) :
    Unlatched Site.splits (lockUnlockKvblocks a toLock slots : Index Key Value Unit) := by
  induction slots with
  | nil => trivial
  | cons i rest ih => exact unlatched_step trivial rfl fun _ => ih

omit [LinearOrder Key] [BoundedOrder Key] [KeyBytes Key] in
theorem unlatched_readLeafKeys (a : GlobalAddress) (leaf : LeafNode Key) (slots : List ℕ) :
    Unlatched Site.splits (readLeafKeys a leaf slots : Index Key Value _) := by
  induction slots with
  | nil => trivial
  | cons i rest ih =>
    refine unlatched_step trivial rfl fun key => ?_
    exact unlatched_bind ih fun others => trivial

omit [LinearOrder Key] [BoundedOrder Key] [KeyBytes Key] in
theorem unlatched_clearSlots (a : GlobalAddress) (odd : Bool) (middle : ℕ) (slots : List ℕ) (left right : ℕ → KVBlock) :
    Unlatched Site.splits (clearSlots a odd middle slots left right : Index Key Value _) := by
  induction slots generalizing left right with
  | nil => trivial
  | cons i rest ih =>
    refine unlatched_bind (unlatched_setDifferentRandomFpAddr trivial _) fun random => ?_
    dsimp only
    split_ifs
    · exact unlatched_bind (unlatched_setDifferentRandomFpAddr trivial _) fun random => ih _ _
    · exact ih _ _

omit [KeyBytes Key] in
theorem from_splitLeaf (a : GlobalAddress) : From Site.splits (splitLeaf cfg a : Index Key Value Bool) := by
  refine from_step trivial fun expected => ?_
  split_ifs
  · trivial
  refine from_bind (unlatched_lockUnlockKvblocks a true _).from fun _ => from_step trivial fun node => ?_
  dsimp only
  split_ifs
  · trivial
  refine from_bind (unlatched_readLeafKeys a _ _).from fun keyed => ?_
  split_ifs
  · exact from_bind (unlatched_lockUnlockKvblocks a false _).from fun _ => from_step trivial fun _ => trivial
  refine from_step trivial fun new => ?_
  split
  · trivial
  · refine from_bind (from_bind (unlatched_clearSlots a _ _ _ _ _).from fun _ => trivial) fun halves => ?_
    refine from_step trivial fun _ => from_step trivial fun _ => from_bind (from_insertInternalEntry _ _ _ _) fun success => ?_
    split_ifs
    · exact from_step trivial fun _ => trivial
    · trivial

/-! ## Candidates -/

omit [LinearOrder Key] [BoundedOrder Key] [KeyBytes Key] in
theorem unlatched_readCandidates (fromRead : Bool) (entries : List (ℕ × GlobalAddress)) :
    Unlatched (· = .getCandidateKvs) (readCandidates fromRead entries : Index Key Value _) := by
  induction entries with
  | nil => trivial
  | cons entry rest ih =>
    have others : ∀ kv : Key × Option Value, Unlatched (· = .getCandidateKvs)
        (do let others ← readCandidates fromRead rest; pure ((entry.1, kv) :: others) : Index Key Value _) :=
      fun kv => unlatched_bind ih fun _ => trivial
    cases fromRead
    · exact unlatched_step rfl rfl fun key => others (key, none)
    · exact unlatched_step rfl rfl fun item => others (item.key, some item.value)

omit [LinearOrder Key] [BoundedOrder Key] [KeyBytes Key] in
theorem unlatched_getCandidateKvs (leaf : LeafNode Key) (fp : Fingerprint) (fromInsert fromRead : Bool) :
    Unlatched (· = .getCandidateKvs) (getCandidateKvs cfg leaf fp fromInsert fromRead : Index Key Value _) := by
  simp only [getCandidateKvs]
  split_ifs
  · trivial
  · trivial
  · exact unlatched_bind (unlatched_readCandidates fromRead _) fun _ => trivial

omit [LinearOrder Key] [BoundedOrder Key] [KeyBytes Key] in
theorem unlatched_tryDeleteKvblock (a : GlobalAddress) (i : ℕ) (expected : KVBlock) :
    Unlatched Site.removes (tryDeleteKvblock cfg a i expected : Index Key Value Bool) := by
  refine unlatched_bind (unlatched_setDifferentRandomFpAddr trivial _) fun random => unlatched_step trivial rfl fun _ => ?_
  split_ifs
  · exact unlatched_step trivial rfl fun _ => trivial
  · trivial

omit [BoundedOrder Key] [KeyBytes Key] in
theorem unlatched_removeDupes (key : Key) (a : GlobalAddress) (leaf : LeafNode Key) (candidates : List (Candidate Key Value))
    (found : Option (Option Value)) : Unlatched Site.removes (removeDupes cfg key a leaf candidates found) := by
  induction candidates generalizing found with
  | nil => trivial
  | cons candidate rest ih =>
    obtain ⟨i, k, v⟩ := candidate
    unfold removeDupes
    split_ifs
    · cases found with
      | none => exact ih _
      | some old => exact unlatched_bind (unlatched_tryDeleteKvblock a i _) fun _ => ih _
    · exact ih _

omit [BoundedOrder Key] in
theorem unlatched_handleLocalRemoveDupes (key : Key) (a : GlobalAddress) (leaf : LeafNode Key) (fromInsert fromRead : Bool) :
    Unlatched Site.removes (handleLocalRemoveDupes cfg key a leaf fromInsert fromRead : Index Key Value _) := by
  unfold handleLocalRemoveDupes
  split_ifs
  · trivial
  · refine unlatched_bind (unlatched_one (unlatched_getCandidateKvs leaf _ fromInsert fromRead) trivial) ?_
    rintro ⟨success, candidates⟩
    dsimp only
    split_ifs
    · trivial
    · exact unlatched_bind (unlatched_removeDupes key a leaf candidates none) fun _ => trivial
  · trivial

omit [LinearOrder Key] [BoundedOrder Key] [KeyBytes Key] in
theorem unlatched_tryUpdateLoop (a : GlobalAddress) (i : ℕ) (new : KVBlock) (bound : ℕ) (expected tmp : KVBlock) :
    Unlatched (· = .tryUpdateKvblock) (tryUpdateLoop a i new bound expected tmp : Index Key Value Bool) := by
  induction bound generalizing expected tmp with
  | zero => trivial
  | succ bound ih =>
    unfold tryUpdateLoop
    split_ifs
    · refine unlatched_step rfl rfl fun found => ?_
      split_ifs
      · exact unlatched_step rfl rfl fun _ => trivial
      · exact ih _ _
    · trivial

/-! ## Rounds of insert -/

/-- What a round of `insert` does with the leaf it works on, if it has found one. -/
def insertRound (cfg : Config) (key : Key) (item : KVItem Key Value) (x : GlobalAddress) (kvb : KVBlock)
    (attempts attempt : ℕ) (wrote : Bool) :
    Option (GlobalAddress × LeafNode Key) → Index Key Value Bool
  | none => insertLoop cfg key item x kvb attempts (attempt + 1) wrote none
  | some (a, leaf) => do
    let outcome ← (insertAttempt cfg key kvb attempt a leaf : Index Key Value _)
    match outcome with
    | .done ok => pure ok
    | .retry leafRead => insertLoop cfg key item x kvb attempts (attempt + 1) wrote leafRead

theorem insertLoop_some (key : Key) (item : KVItem Key Value) (x : GlobalAddress) (kvb : KVBlock) (attempts attempt : ℕ)
    (wrote : Bool) (target : GlobalAddress × LeafNode Key) :
    insertLoop cfg key item x kvb (attempts + 1) attempt wrote (some target) =
      insertRound cfg key item x kvb attempts attempt wrote (some target) := rfl

theorem insertLoop_none (key : Key) (item : KVItem Key Value) (x : GlobalAddress) (kvb : KVBlock) (attempts attempt : ℕ)
    (wrote : Bool) :
    insertLoop cfg key item x kvb (attempts + 1) attempt wrote none =
      locateLeaf cfg key item x wrote >>= fun found => insertRound cfg key item x kvb attempts attempt found.1 found.2 := by
  unfold insertLoop
  congr 1

end

end Faunus
