import Faunus.Index.Survivors

/-! What a call owes once its insert has filled a slot.

It reads the leaf again at once. Unless a split takes over, it deletes every copy of its
key that it sees behind another one. Locks are taken on other leaves, or on top of a lock
that the call holds.
-/

set_option autoImplicit false

namespace Faunus

open Interleaving

variable {Key Value : Type}

/-! ## What a call has done so far -/

/-- The node locks a call holds, the latest first. -/
def locksOf : List (Done Key Value) → List GlobalAddress
  | [] => []
  | ⟨o, r⟩ :: rest => heldNext o r (locksOf rest)

/-- The leaf in which the operation puts an insert's block into a free slot. -/
def Op.fillsAt : (o : Op Key Value) → o.act.Reply → Option GlobalAddress
  | ⟨.insert, .casBlock a _ expected _⟩, (found : KVBlock) => if found = expected then some a else none
  | _, _ => none

def fillNext (o : Op Key Value) (r : o.act.Reply) (since : Option (GlobalAddress × List (Done Key Value))) :
    Option (GlobalAddress × List (Done Key Value)) :=
  match o.fillsAt r with
  | some a => some (a, [])
  | none => since.map fun since => (since.1, ⟨o, r⟩ :: since.2)

/-- The leaf in which a call has filled a slot, and what it has done since. -/
def sinceFill : List (Done Key Value) → Option (GlobalAddress × List (Done Key Value))
  | [] => none
  | ⟨o, r⟩ :: rest => fillNext o r (sinceFill rest)

section
variable {done later last : List (Done Key Value)} {o : Op Key Value} {r : o.act.Reply}

theorem fillsAt_of_site (other : o.site ≠ .insert) : o.fillsAt r = none := by
  unfold Op.fillsAt
  split
  · exact absurd rfl other
  · rfl

theorem fillsAt_eq_some {a : GlobalAddress} (fills : o.fillsAt r = some a) :
    ∃ i expected desired, (⟨o, r⟩ : Done Key Value) = ⟨⟨.insert, .casBlock a i expected desired⟩, expected⟩ := by
  unfold Op.fillsAt at fills
  split at fills
  · rename_i b i expected desired found
    have taken : (if found = expected then some b else none) = some a := fills
    split_ifs at taken with hit
    cases taken
    exact ⟨i, expected, desired, by rw [hit]⟩
  · cases fills

theorem heldNext_of_unlatched {held : List GlobalAddress} (free : o.act.latches = false) : heldNext o r held = held := by
  unfold heldNext
  split
  · cases free
  · cases free
  · rfl

theorem locksOf_unlatched (free : o.act.latches = false) : locksOf (⟨o, r⟩ :: done) = locksOf done := heldNext_of_unlatched free

theorem locksOf_casLock {site : Site} {a : GlobalAddress} {found : BitVec 64} :
    locksOf (⟨⟨site, .casLock a 0 1⟩, found⟩ :: done : List (Done Key Value)) = if found = 0 then a :: locksOf done else
      locksOf done := rfl

/-- The call goes on without filling another slot. -/
def Onward (done later : List (Done Key Value)) : Prop :=
  ∃ more, sinceFill later = (sinceFill done).map fun since => (since.1, more ++ since.2)

theorem Onward.refl (done : List (Done Key Value)) : Onward done done := by
  refine ⟨[], ?_⟩
  cases sinceFill done <;> rfl

theorem Onward.trans (first : Onward done later) (second : Onward later last) : Onward done last := by
  obtain ⟨more, one⟩ := first
  obtain ⟨again, two⟩ := second
  refine ⟨again ++ more, ?_⟩
  rw [two, one, Option.map_map]
  congr 1
  funext since
  simp

theorem Onward.step (keeps : o.fillsAt r = none) : Onward done (⟨o, r⟩ :: done) :=
  ⟨[⟨o, r⟩], by simp only [sinceFill, fillNext, keeps, List.singleton_append]⟩

/-- The call does not have to read the leaf again before it goes on. -/
def Reread (done : List (Done Key Value)) : Prop := ∀ a, sinceFill done ≠ some (a, [])

theorem Onward.reread (onward : Onward done later) (reread : Reread done) : Reread later := by
  intro a is
  obtain ⟨more, eq⟩ := onward
  rw [eq, Option.map_eq_some_iff] at is
  obtain ⟨⟨b, log⟩, before, same⟩ := is
  obtain ⟨rfl, -, rfl⟩ : b = a ∧ more = [] ∧ log = [] := by simpa using same
  exact reread b before

/-! ## Obligations -/

/-- Locks are taken on other leaves or above a lock that is held, a call fills one slot, and the leaf is read again at once. -/
structure Diligent (a : GlobalAddress) (done : List (Done Key Value)) (o : Op Key Value) : Prop where
  lock : ∀ b expected desired, o.act = .casLock b expected desired → o.site = .splitLeaf b ∧ b ≠ a ∨ locksOf done ≠ []
  once : sinceFill done = none ∨ ∀ r, o.fillsAt r = none
  reread : ∀ b, sinceFill done = some (b, []) → o = ⟨.insert, .readNode b⟩

/-- The leaf is never read with more blocks than the threshold. -/
def Op.sparse (cfg : Config) (a : GlobalAddress) : (o : Op Key Value) → o.act.Reply → Prop
  | ⟨.insert, .readNode b⟩, (n : Node Key) => b = a → (takenIndices cfg.branchFactor n.asLeaf).length ≤ cfg.splitThreshold
  | _, _ => True

theorem sparse_of_reads {cfg : Config} {a : GlobalAddress}
    (reads : ∀ b (n : Node Key), (⟨o, r⟩ : Done Key Value) = ⟨⟨.insert, .readNode b⟩, n⟩ →
    b = a → (takenIndices cfg.branchFactor n.asLeaf).length ≤ cfg.splitThreshold) : o.sparse cfg a r := by
  unfold Op.sparse
  split
  · exact reads _ _ rfl
  · trivial

abbrev Cleans (cfg : Config) (a : GlobalAddress) {A : Type} (post : A → List (Done Key Value) → Prop) (p : Index Key Value A)
    (done : List (Done Key Value)) : Prop :=
  p.Traced (Diligent a) (fun _ o r => o.sparse cfg a r) post done

end

section Rules
variable {cfg : Config} {a : GlobalAddress} {A B : Type} {done later : List (Done Key Value)} {o : Op Key Value} {r : o.act.Reply}
  {post : A → List (Done Key Value) → Prop}

theorem cleans_bind {p : Index Key Value B} {f : B → Index Key Value A}
    (cleans : Cleans cfg a (fun b done => Cleans cfg a post (f b) done) p done) : Cleans cfg a post (p >>= f) done :=
  traced_bind cleans

theorem cleans_step {f : o.act.Reply → Index Key Value A} (diligent : Diligent a done o)
    (next : ∀ r, o.sparse cfg a r → Cleans cfg a post (f r) (⟨o, r⟩ :: done)) :
    Cleans cfg a post ((.perform o .value : Index Key Value o.act.Reply) >>= f) done :=
  ⟨diligent, next⟩

/-- The call has gone on, with the locks it had. -/
structure Along (done later : List (Done Key Value)) : Prop where
  locks : locksOf later = locksOf done
  onward : Onward done later

theorem Along.refl (done : List (Done Key Value)) : Along done done := ⟨rfl, .refl done⟩

theorem Along.trans {last : List (Done Key Value)} (first : Along done later) (second : Along later last) : Along done last :=
  ⟨second.locks.trans first.locks, first.onward.trans second.onward⟩

theorem Along.step (free : o.act.latches = false) (keeps : o.fillsAt r = none) : Along done (⟨o, r⟩ :: done) :=
  ⟨locksOf_unlatched free, .step keeps⟩

theorem diligent_of_unlatched (free : o.act.latches = false) (keeps : ∀ r, o.fillsAt r = none) (reread : Reread done) :
    Diligent a done o := by
  refine ⟨?_, Or.inr keeps, fun b is => absurd is (reread b)⟩
  intro b expected desired is
  rw [is] at free
  cases free

theorem cleans_unlatched {sites : Site → Prop} {p : Index Key Value A} (unlatched : Unlatched sites p) (other : ¬ sites .insert)
    (reread : Reread done) : Cleans cfg a (fun _ later => Along done later) p done := by
  have elsewhere : ∀ {o : Op Key Value}, sites o.site → o.site ≠ .insert := fun within same => other (same ▸ within)
  apply traced_only unlatched
  · intro now o within along
    exact diligent_of_unlatched within.2 (fun r => fillsAt_of_site (elsewhere within.1)) (along.onward.reread reread)
  · intro now o r within along
    exact along.trans (.step within.2 (fillsAt_of_site (elsewhere within.1)))
  · exact .refl done

theorem cleans_next {f : o.act.Reply → Index Key Value A} (free : o.act.latches = false) (keeps : ∀ r, o.fillsAt r = none)
    (reread : Reread done) (next : ∀ r, o.sparse cfg a r → Cleans cfg a post (f r) (⟨o, r⟩ :: done)) :
    Cleans cfg a post ((.perform o .value : Index Key Value o.act.Reply) >>= f) done :=
  cleans_step (diligent_of_unlatched free keeps reread) next

/-- The program comes back to the locks it had, and fills no slot. -/
abbrev Returning (cfg : Config) (a : GlobalAddress) {A : Type} (p : Index Key Value A) : Prop :=
  ∀ done, locksOf done ≠ [] → Reread done → Cleans cfg a (fun _ later => Along done later) p done

theorem returning_value {x : A} : Returning cfg a (.value x : Index Key Value A) := fun done _ _ => .refl done

theorem returning_stuck : Returning cfg a (.stuck : Index Key Value A) := fun _ _ _ => trivial

theorem returning_bind {p : Index Key Value B} {f : B → Index Key Value A} (first : Returning cfg a p)
    (next : ∀ b, Returning cfg a (f b)) :
    Returning cfg a (p >>= f) := by
  intro done held reread
  refine cleans_bind (traced_mono (first done held reread) ?_)
  intro b later along
  have after := next b later (by rw [along.locks]; exact held) (along.onward.reread reread)
  exact traced_mono after fun _ _ last => along.trans last

theorem returning_unlatched {sites : Site → Prop} {p : Index Key Value A} (unlatched : Unlatched sites p) (other : ¬ sites .insert) :
    Returning cfg a p :=
  fun _ _ reread => cleans_unlatched unlatched other reread

theorem returning_step {f : o.act.Reply → Index Key Value A} (free : o.act.latches = false) (elsewhere : o.site ≠ .insert)
    (next : ∀ r, Returning cfg a (f r)) : Returning cfg a ((.perform o .value : Index Key Value o.act.Reply) >>= f) := by
  intro done held reread
  apply cleans_next free (fun r => fillsAt_of_site elsewhere) reread
  intro r _
  have along : Along done (⟨o, r⟩ :: done) := .step free (fillsAt_of_site elsewhere)
  have after := next r _ (by rw [along.locks]; exact held) (along.onward.reread reread)
  exact traced_mono after fun _ _ last => along.trans last

theorem cleans_release {site : Site} {b : GlobalAddress} {f : Unit → Index Key Value A} {start : List (Done Key Value)}
    (elsewhere : site ≠ .insert) (held : locksOf done = b :: locksOf start) (onward : Onward start done) (reread : Reread start)
    (next : ∀ later, Along start later → Cleans cfg a post (f ()) later) : Cleans cfg a post (faaLock site b (-1) >>= f) done := by
  have keeps : ∀ r, Op.fillsAt (⟨site, .faaLock b (-1)⟩ : Op Key Value) r = none := fun r => fillsAt_of_site elsewhere
  refine cleans_step ⟨fun _ _ _ is => (by cases is), Or.inr keeps, fun c is => absurd is (onward.reread reread c)⟩ fun _ _ =>
    next _ ⟨?_, ?_⟩
  · change (locksOf done).erase b = _
    rw [held, List.erase_cons_head]
  · exact onward.trans (.step (fillsAt_of_site elsewhere))

end Rules

/-! ## Splits -/

section
variable [LinearOrder Key] [BoundedOrder Key] {cfg : Config} {a : GlobalAddress}

section
variable {insertAbove : Key → GlobalAddress → ℕ → Index Key Value Bool}
  (above : ∀ key child level, Returning cfg a (insertAbove key child level))
include above

theorem returning_splitInternalNode (b : GlobalAddress) (node : InternalNode Key) (key : Key) (child : GlobalAddress) :
    Returning cfg a (splitInternalNode cfg insertAbove b node key child) := by
  unfold splitInternalNode
  split_ifs
  · exact returning_stuck
  · refine returning_step rfl (by simp) fun new => returning_step rfl (by simp) fun _ => returning_step rfl (by simp) fun _ => ?_
    refine returning_bind (above _ _ _) fun success => ?_
    split_ifs
    · exact returning_value
    · exact returning_stuck

theorem returning_insertInternalEntryLoop (key : Key) (child : GlobalAddress) (level attempts : ℕ) :
    Returning cfg a (insertInternalEntryLoop cfg insertAbove key child level attempts) := by
  induction attempts with
  | zero => exact returning_value
  | succ attempts ih =>
    refine returning_bind (returning_unlatched (unlatched_findNode key level true) (by simp)) ?_
    rintro ⟨result, b⟩
    cases result with
    | unknown => exact returning_stuck
    | noSuchLevel => exact returning_unlatched (unlatched_setupNewRoot key child level) id
    | locked => exact ih
    | found =>
      intro start held reread
      refine cleans_step ⟨fun _ _ _ _ => Or.inr held, Or.inr fun _ => rfl, fun c is => absurd is (reread c)⟩
        fun (expected : BitVec 64) _ => ?_
      -- the lock is taken if it was free
      have tried : Onward start (⟨⟨.insertInternalEntry level, .casLock b 0 1⟩, expected⟩ :: start : List (Done Key Value)) :=
        .step (fillsAt_of_site (by simp))
      refine cleans_next rfl (fun _ => rfl) (tried.reread reread) fun (node : Node Key) _ => ?_
      have read : Onward start (⟨⟨.insertInternalEntry level, .readNode b⟩, node⟩ ::
          ⟨⟨.insertInternalEntry level, .casLock b 0 1⟩, expected⟩ :: start : List (Done Key Value)) :=
        tried.trans (.step (fillsAt_of_site (by simp)))
      dsimp only
      by_cases taken : expected ≠ 0
      · rw [if_pos taken]
        have same : locksOf (⟨⟨.insertInternalEntry level, .readNode b⟩, node⟩ ::
            ⟨⟨.insertInternalEntry level, .casLock b 0 1⟩, expected⟩ :: start : List (Done Key Value)) = locksOf start :=
              if_neg taken
        exact traced_mono (ih _ (by rw [same]; exact held) (read.reread reread)) fun _ _ last =>
          (⟨same, read⟩ : Along start _).trans last
      rw [if_neg taken]
      rw [not_not] at taken
      subst taken
      have mine : locksOf (⟨⟨.insertInternalEntry level, .readNode b⟩, node⟩ ::
          ⟨⟨.insertInternalEntry level, .casLock b 0 1⟩, (0 : BitVec 64)⟩ :: start : List (Done Key Value)) = b ::
            locksOf start := by
        have locked : (if (0 : BitVec 64) = 0 then b :: locksOf start else locksOf start) = b :: locksOf start := if_pos rfl
        exact locked
      generalize (⟨⟨.insertInternalEntry level, .readNode b⟩, node⟩ ::
          ⟨⟨.insertInternalEntry level, .casLock b 0 1⟩, (0 : BitVec 64)⟩ :: start : List (Done Key Value)) = done at read mine
      have release : ∀ done, locksOf done = b :: locksOf start → Onward start done → Cleans cfg a (fun _ later => Along start later)
          (do faaLock (.insertInternalEntry level) b (-1); pure true : Index Key Value Bool) done :=
        fun done held onward => cleans_release (by simp) held onward reread fun later along => along
      split_ifs
      · exact trivial
      · exact release _ mine read
      · have after := returning_splitInternalNode above b node.asInternal key child done (by simp [mine]) (read.reread reread)
        exact cleans_bind (traced_mono after fun _ later along => release later (by rw [along.locks, mine])
          (read.trans along.onward))
      · refine cleans_next rfl (fun _ => rfl) (read.reread reread) fun wrote _ => ?_
        exact release _ mine (read.trans (.step (fillsAt_of_site (by simp))))
      · refine cleans_release (by simp) mine read reread fun later along => ?_
        exact traced_mono (ih later (by rw [along.locks]; exact held) (along.onward.reread reread)) fun _ _ last => along.trans last

end

theorem returning_insertInternalEntry (depth : ℕ) (key : Key) (child : GlobalAddress) (level : ℕ) :
    Returning cfg a (insertInternalEntry cfg depth key child level : Index Key Value Bool) := by
  induction depth generalizing key child level with
  | zero => exact returning_stuck
  | succ depth ih => exact returning_insertInternalEntryLoop ih key child level cfg.maxAttempts

theorem cleans_splitLeaf {b : GlobalAddress} (other : b ≠ a) {start : List (Done Key Value)} (reread : Reread start) :
    Cleans cfg a (fun _ later => Onward start later) (splitLeaf cfg b : Index Key Value Bool) start := by
  -- another leaf may be split
  refine cleans_step ⟨fun c _ _ is => Or.inl (by cases is; exact ⟨rfl, other⟩), Or.inr fun _ => rfl, fun c is =>
    absurd is (reread c)⟩ fun (expected : BitVec 64) _ => ?_
  have tried : Onward start (⟨⟨.splitLeaf b, .casLock b 0 1⟩, expected⟩ :: start : List (Done Key Value)) :=
    .step (fillsAt_of_site (by simp))
  by_cases taken : expected ≠ 0
  · rw [if_pos taken]
    exact tried
  rw [if_neg taken]
  rw [not_not] at taken
  subst taken
  have mine : locksOf (⟨⟨.splitLeaf b, .casLock b 0 1⟩, (0 : BitVec 64)⟩ :: start : List (Done Key Value)) = b :: locksOf start := by
    rw [locksOf_casLock, if_pos rfl]
  generalize (⟨⟨.splitLeaf b, .casLock b 0 1⟩, (0 : BitVec 64)⟩ :: start : List (Done Key Value)) = done at tried mine
  -- everything up to the release keeps the lock
  have held : locksOf done ≠ [] := by simp [mine]
  have release : ∀ (ok : Bool) (later : List (Done Key Value)), Along done later → Cleans cfg a (fun _ later => Onward start later)
      (do faaLock (.splitLeaf b) b (-1); pure ok : Index Key Value Bool) later := by
    intro ok later along
    exact cleans_release (by simp) (along.locks.trans mine) (tried.trans along.onward) reread fun _ last => last.onward
  have goOn : ∀ {A : Type} {p : Index Key Value A} {f : A → Index Key Value Bool}, Returning cfg a p →
      (∀ x later, Along done later → Cleans cfg a (fun _ later => Onward start later) (f x) later) →
      ∀ later, Along done later → Cleans cfg a (fun _ later => Onward start later) (p >>= f) later := by
    intro A p f returning next later along
    have after := returning later (by rw [along.locks]; exact held) ((tried.trans along.onward).reread reread)
    exact cleans_bind (traced_mono after fun x last more => next x last (along.trans more))
  have step : ∀ {act : Act Key Value} {f : act.Reply → Index Key Value Bool}, act.latches = false →
      (∀ r later, Along done later → Cleans cfg a (fun _ later => Onward start later) (f r) later) →
      ∀ later, Along done later → Cleans cfg a (fun _ later => Onward start later)
        ((.perform ⟨.splitLeaf b, act⟩ .value : Index Key Value act.Reply) >>= f) later := by
    intro act f free next later along
    refine cleans_next free (fun r => fillsAt_of_site (by simp)) ((tried.trans along.onward).reread reread) fun r _ =>
      next r _ (along.trans (.step free (fillsAt_of_site (by simp))))
  refine goOn (returning_unlatched (unlatched_lockUnlockKvblocks b true _) id) (fun _ => step rfl fun node => ?_) done (.refl done)
  intro later along
  dsimp only
  split_ifs
  · trivial
  refine goOn (returning_unlatched (unlatched_readLeafKeys b _ _) id) (fun keyed => ?_) later along
  intro later along
  split_ifs
  · exact goOn (returning_unlatched (unlatched_lockUnlockKvblocks b false _) id) (fun _ => release false) later along
  refine step rfl (fun new => ?_) later along
  intro later along
  split
  · trivial
  · refine goOn (returning_bind (returning_unlatched (unlatched_clearSlots b _ _ _ _ _) id) fun _ => returning_value)
      (fun halves => ?_) later along
    refine step rfl fun _ => step rfl fun _ => goOn (returning_insertInternalEntry _ _ _ _) fun success later along => ?_
    split_ifs
    · exact release true later along
    · trivial

end

/-! ## Duplicates -/

theorem Onward.since {done later : List (Done Key Value)} {b : GlobalAddress} {log : List (Done Key Value)}
    (onward : Onward done later)
    (since : sinceFill done = some (b, log)) : ∃ more, sinceFill later = some (b, more ++ log) := by
  obtain ⟨more, eq⟩ := onward
  exact ⟨more, by rw [eq, since]; rfl⟩

theorem sinceFill_cons {done : List (Done Key Value)} {o : Op Key Value} {r : o.act.Reply} {b : GlobalAddress}
    {log : List (Done Key Value)} (keeps : o.fillsAt r = none) (since : sinceFill done = some (b, log)) :
    sinceFill (⟨o, r⟩ :: done) = some (b, ⟨o, r⟩ :: log) := by
  simp only [sinceFill, fillNext, keeps, since, Option.map_some]

theorem reread_of_since {done : List (Done Key Value)} {b : GlobalAddress} {log : List (Done Key Value)}
    (since : sinceFill done = some (b, log))
    (more : log ≠ []) : Reread done := by
  intro c is
  rw [since] at is
  cases is
  exact more rfl

/-- Another key was read for one of the slots, or the higher block was to be deleted. -/
def Decided (key : Key) (b : GlobalAddress) (leaf : LeafNode Key) (i j : ℕ) (more : List (Done Key Value)) : Prop :=
  (∃ k other, (k = i ∨ k = j) ∧ other ≠ key ∧
    (⟨⟨.getCandidateKvs, .readKey (leaf.kvBlocks k).getAddr⟩, other⟩ : Done Key Value) ∈ more) ∨
  ∃ desired found, desired.isFree = true ∧
    (⟨⟨.tryDeleteKvblock, .casBlock b j (leaf.kvBlocks j) desired⟩, found⟩ : Done Key Value) ∈ more

def Resolved (cfg : Config) (key : Key) [KeyBytes Key] (b : GlobalAddress) (leaf : LeafNode Key)
    (more : List (Done Key Value)) : Prop :=
  ∀ i j, i < j → candidate cfg leaf key i → candidate cfg leaf key j → Decided key b leaf i j more

section
variable {cfg : Config} {a b : GlobalAddress} {leaf : LeafNode Key} {done log : List (Done Key Value)} {key : Key}

theorem cleans_readCandidates (leaf : LeafNode Key) (l : List ℕ) (since : sinceFill done = some (b, log)) (nonempty : log ≠ []) :
    Cleans cfg a (fun found later => ∃ more, sinceFill later = some (b, more ++ log) ∧ found.map Prod.fst = l ∧
        ∀ c ∈ found, (⟨⟨.getCandidateKvs, .readKey (leaf.kvBlocks c.1).getAddr⟩, c.2.1⟩ : Done Key Value) ∈ more)
      (readCandidates false (l.map fun i => (i, (leaf.kvBlocks i).getAddr))) done := by
  induction l generalizing done log with
  | nil => exact ⟨[], since, rfl, by simp⟩
  | cons i rest ih =>
    have step : ∀ k : Key,
      Cleans cfg a (fun found later => ∃ more, sinceFill later = some (b, more ++ log) ∧ found.map Prod.fst = i :: rest ∧
          ∀ c ∈ found, (⟨⟨.getCandidateKvs, .readKey (leaf.kvBlocks c.1).getAddr⟩, c.2.1⟩ : Done Key Value) ∈ more)
        (do
          let others ← readCandidates false (rest.map fun i => (i, (leaf.kvBlocks i).getAddr))
          pure ((i, k, none) :: others)) (⟨⟨.getCandidateKvs, .readKey (leaf.kvBlocks i).getAddr⟩, k⟩ :: done) := by
      intro k
      have read := sinceFill_cons (r := k) (o := ⟨.getCandidateKvs, .readKey (leaf.kvBlocks i).getAddr⟩) rfl since
      refine cleans_bind (traced_mono (ih read (by simp)) ?_)
      rintro found later ⟨more, after, slots, reads⟩
      refine ⟨more ++ [⟨⟨.getCandidateKvs, .readKey (leaf.kvBlocks i).getAddr⟩, k⟩], by simpa using after, by simp [slots], ?_⟩
      intro c inside
      rcases List.mem_cons.1 inside with rfl | there
      · simp
      · exact List.mem_append_left _ (reads c there)
    exact cleans_next rfl (fun _ => rfl) (reread_of_since since nonempty) fun k _ => step k

theorem cleans_tryDeleteKvblock (i : ℕ) (since : sinceFill done = some (b, log)) (nonempty : log ≠ []) :
    Cleans cfg a (fun _ later => ∃ more, sinceFill later = some (b, more ++ log) ∧
        ∃ desired found, desired.isFree = true ∧
          (⟨⟨.tryDeleteKvblock, .casBlock b i (leaf.kvBlocks i) desired⟩, found⟩ : Done Key Value) ∈ more)
      (tryDeleteKvblock cfg b i (leaf.kvBlocks i)) done := by
  refine cleans_bind (traced_mono
    (cleans_unlatched (unlatched_setDifferentRandomFpAddr (show Site.removes .tryDeleteKvblock from trivial) _) id
    (reread_of_since since nonempty)) ?_)
  intro random later along
  obtain ⟨first, drawn⟩ := along.onward.since since
  have reread := along.onward.reread (reread_of_since since nonempty)
  refine cleans_next rfl (fun _ => rfl) reread fun (found : KVBlock) _ => ?_
  have tried := sinceFill_cons (r := found)
    (o := ⟨.tryDeleteKvblock, .casBlock b i (leaf.kvBlocks i) (deletedBlock (leaf.kvBlocks i) random)⟩) rfl drawn
  split_ifs
  · refine cleans_next rfl (fun _ => rfl) (reread_of_since tried (by simp)) fun _ _ => ?_
    exact ⟨_ :: _ :: first, sinceFill_cons rfl tried, deletedBlock _ random,
      found, by simp [deletedBlock], List.mem_cons_of_mem _ List.mem_cons_self⟩
  · exact ⟨_ :: first, tried, deletedBlock _ random, found, by simp [deletedBlock], List.mem_cons_self⟩

variable [LinearOrder Key]

theorem cleans_removeDupes (candidates : List (Candidate Key Value)) (first : Option (Option Value))
    (since : sinceFill done = some (b, log)) (nonempty : log ≠ []) :
    Cleans cfg a (fun _ later => ∃ more, sinceFill later = some (b, more ++ log) ∧
        ∀ before c after, candidates = before ++ c :: after → c.2.1 = key → (first.isSome = true ∨ ∃ e ∈ before, e.2.1 = key) →
          ∃ desired found, desired.isFree = true ∧
            (⟨⟨.tryDeleteKvblock, .casBlock b c.1 (leaf.kvBlocks c.1) desired⟩, found⟩ : Done Key Value) ∈ more)
      (removeDupes cfg key b leaf candidates first) done := by
  -- every candidate behind one with the key is deleted
  induction candidates generalizing first done log with
  | nil => exact ⟨[], since, by simp⟩
  | cons candidate rest ih =>
    obtain ⟨i, k, v⟩ := candidate
    unfold removeDupes
    split_ifs with named
    · cases first with
      | none =>
        refine traced_mono (ih (some v) since nonempty) ?_
        rintro found later ⟨more, after, deletes⟩
        refine ⟨more, after, ?_⟩
        rintro (_ | ⟨head, before⟩) c last eq same earlier
        · simp at earlier
        · exact deletes before c last (List.cons.inj eq).2 same (Or.inl rfl)
      | some w =>
        refine cleans_bind (traced_mono (cleans_tryDeleteKvblock i since nonempty) ?_)
        rintro - later ⟨deleted, after, desired, found, gone, member⟩
        refine traced_mono (ih (some w) after (by cases deleted; exact nonempty; simp)) ?_
        rintro result last ⟨more, end_, deletes⟩
        refine ⟨more ++ deleted, by rw [end_, List.append_assoc], ?_⟩
        rintro (_ | ⟨head, before⟩) c tail eq same earlier
        · obtain ⟨rfl, -⟩ := List.cons.inj eq
          exact ⟨desired, found, gone, List.mem_append_right _ member⟩
        · obtain ⟨desired', found', gone', there⟩ := deletes before c tail (List.cons.inj eq).2 same (Or.inl rfl)
          exact ⟨desired', found', gone', List.mem_append_left _ there⟩
    · refine traced_mono (ih first since nonempty) ?_
      rintro result later ⟨more, after, deletes⟩
      refine ⟨more, after, ?_⟩
      rintro (_ | ⟨head, before⟩) c last eq same earlier
      · obtain ⟨rfl, -⟩ := List.cons.inj eq
        exact absurd same named
      · rw [List.cons_append] at eq
        obtain ⟨rfl, tail⟩ := List.cons.inj eq
        refine deletes before c last tail same (earlier.imp id ?_)
        rintro ⟨e, inside, is⟩
        rcases List.mem_cons.1 inside with rfl | there
        · exact absurd is named
        · exact ⟨e, there, is⟩

omit [LinearOrder Key] in
theorem candidate_before {found : List (Candidate Key Value)} (sorted : (found.map Prod.fst).Pairwise (· < ·))
    {c d : Candidate Key Value}
    (first : c ∈ found) (second : d ∈ found) (less : c.1 < d.1) : ∃ before after, found = before ++ d :: after ∧ c ∈ before := by
  obtain ⟨before, after, rfl⟩ := List.append_of_mem second
  refine ⟨before, after, rfl, ?_⟩
  rcases List.mem_append.1 first with there | behind
  · exact there
  rw [List.map_append, List.pairwise_append, List.map_cons, List.pairwise_cons] at sorted
  rcases List.mem_cons.1 behind with rfl | further
  · omega
  · have := sorted.2.1.1 _ (List.mem_map_of_mem further)
    omega

variable [KeyBytes Key]

/-- The duplicates that an insert sees in the leaf it has filled are gone, unless a split has begun. -/
theorem cleans_handleLocalRemoveDupes (since : sinceFill done = some (b, log)) (nonempty : log ≠ [])
    (covers : leaf.header.covers key)
    (open_ : leaf.header.lock = 0) (free : ∀ i < cfg.branchFactor, (leaf.kvBlocks i).isLocked = false) :
    Cleans cfg a (fun _ later => ∃ more, sinceFill later = some (b, more ++ log) ∧ Resolved cfg key b leaf more)
      (handleLocalRemoveDupes cfg key b leaf true false : Index Key Value _) done := by
  unfold handleLocalRemoveDupes
  rw [if_neg (not_not.2 covers), if_neg (by simp [open_])]
  unfold getCandidateKvs getFingerprintCollisions
  dsimp only
  rw [if_neg (by simpa using free)]
  split_ifs with single
  · -- one candidate has no second one behind it
    refine ⟨[], since, fun i j less low high => ?_⟩
    obtain ⟨only, is⟩ : ∃ only, candidates cfg leaf key = [only] := List.length_eq_one_iff.1 (by simpa [candidates] using single.2)
    rw [← mem_candidates, is, List.mem_singleton] at low high
    omega
  refine cleans_bind (cleans_bind (traced_mono (cleans_readCandidates leaf (candidates cfg leaf key) since nonempty) ?_))
  rintro found later ⟨read, after, slots, reads⟩
  have member : ∀ i, candidate cfg leaf key i → ∃ c ∈ found, c.1 = i := by
    intro i is
    rw [← mem_candidates, ← slots] at is
    exact List.mem_map.1 is
  change Cleans cfg a _ (if found.isEmpty then pure (true, none) else _) later
  split_ifs with empty
  · refine ⟨read, after, fun i j _ low => ?_⟩
    obtain ⟨c, inside, -⟩ := member i low
    rw [List.isEmpty_iff.1 empty] at inside
    cases inside
  refine cleans_bind (traced_mono (cleans_removeDupes found none after (by simp [nonempty])) ?_)
  rintro - last ⟨more, end_, deletes⟩
  refine ⟨more ++ read, by rw [end_, List.append_assoc], fun i j less low high => ?_⟩
  obtain ⟨c, one, rfl⟩ := member i low
  obtain ⟨d, two, rfl⟩ := member j high
  by_cases same : c.2.1 = key
  · by_cases same' : d.2.1 = key
    · obtain ⟨before, rest, rfl, earlier⟩ := candidate_before (slots ▸ candidates_sorted leaf key) one two less
      obtain ⟨desired, old, gone, inside⟩ := deletes before d rest rfl same' (Or.inr ⟨c, earlier, same⟩)
      exact Or.inr ⟨desired, old, gone, List.mem_append_left _ inside⟩
    · exact Or.inl ⟨d.1, d.2.1, Or.inr rfl, same', List.mem_append_right _ (reads d two)⟩
  · exact Or.inl ⟨c.1, c.2.1, Or.inl rfl, same, List.mem_append_right _ (reads c one)⟩

end

/-! ## Inserts and reads -/

section
variable [LinearOrder Key] [BoundedOrder Key] [KeyBytes Key] {cfg : Config} {a b : GlobalAddress}
    {done : List (Done Key Value)} {key : Key}

/-- The epilogue of an insert goes by the leaf. -/
structure Usable (cfg : Config) (key : Key) (leaf : LeafNode Key) : Prop where
  lock : leaf.header.lock = 0
  covers : leaf.header.covers key
  sparse : (takenIndices cfg.branchFactor leaf).length ≤ cfg.splitThreshold
  slots : ∀ i < cfg.branchFactor, (leaf.kvBlocks i).isLocked = false

/-- A call that has filled a slot has read the leaf again and resolved what it saw there, unless it could not go by it. -/
def Discharged (cfg : Config) (key : Key) (done : List (Done Key Value)) : Prop :=
  sinceFill done = none ∨ ∃ b n more, sinceFill done = some (b, more ++ [⟨⟨.insert, .readNode b⟩, n⟩]) ∧
    (Usable cfg key n.asLeaf → Resolved cfg key b n.asLeaf more)

omit [LinearOrder Key] [BoundedOrder Key] [KeyBytes Key] in
theorem asLeaf_header (n : Node Key) : n.asLeaf.header = n.header := by
  cases n with
  | leaf => rfl
  | internal => rfl

omit [LinearOrder Key] [BoundedOrder Key] [KeyBytes Key] in
theorem Onward.none {later : List (Done Key Value)} (onward : Onward done later) (before : sinceFill done = none) :
    sinceFill later = none := by
  obtain ⟨more, eq⟩ := onward
  rw [eq, before]
  rfl

omit [LinearOrder Key] [BoundedOrder Key] [KeyBytes Key] in
theorem reread_of_none (before : sinceFill done = none) : Reread done := by
  intro c is
  rw [before] at is
  cases is

theorem cleans_finishInsert {n : Node Key} (since : sinceFill done = some (b, [⟨⟨.insert, .readNode b⟩, n⟩]))
    (sparse : b = a → (takenIndices cfg.branchFactor n.asLeaf).length ≤ cfg.splitThreshold) (open_ : n.asLeaf.header.lock = 0)
    (covers : n.asLeaf.header.covers key) :
    Cleans cfg a (fun _ later => Discharged cfg key later) (finishInsert cfg key b n.asLeaf : Index Key Value Bool) done := by
  have reread : Reread done := reread_of_since since (by simp)
  unfold finishInsert
  split_ifs with full maintained
  · refine cleans_next rfl (fun _ => rfl) reread fun _ _ => Or.inr ⟨b, n, _ :: [], sinceFill_cons rfl since, ?_⟩
    exact fun usable => absurd usable.sparse (not_le.2 full)
  · have other : b ≠ a := fun same => absurd (sparse same) (not_le.2 full)
    refine cleans_bind (traced_mono (cleans_splitLeaf other reread) fun _ later onward => ?_)
    obtain ⟨more, after⟩ := onward.since since
    exact Or.inr ⟨b, n, more, after, fun usable => absurd usable.sparse (not_le.2 full)⟩
  · by_cases free : ∀ i < cfg.branchFactor, (n.asLeaf.kvBlocks i).isLocked = false
    · refine cleans_bind (traced_mono (cleans_handleLocalRemoveDupes since (by simp) covers open_ free) ?_)
      rintro - later ⟨more, after, resolved⟩
      exact Or.inr ⟨b, n, more, after, fun _ => resolved⟩
    · -- a split has locked slots: nothing is deleted
      refine cleans_bind (traced_mono (cleans_unlatched (unlatched_handleLocalRemoveDupes key b _ true false) id reread) ?_)
      rintro - later along
      obtain ⟨more, after⟩ := along.onward.since since
      exact Or.inr ⟨b, n, more, after, fun usable => absurd usable.slots free⟩

/-- A round that is tried again has filled no slot. -/
def Cleaned (cfg : Config) (key : Key) : Attempt Key → List (Done Key Value) → Prop
  | .done _, done => Discharged cfg key done
  | .retry _, done => sinceFill done = none

theorem cleans_insertAttempt (kvb : KVBlock) (attempt : ℕ) (leaf : LeafNode Key) (before : sinceFill done = none) :
    Cleans cfg a (Cleaned cfg key) (insertAttempt cfg key kvb attempt b leaf : Index Key Value (Attempt Key)) done := by
  refine cleans_bind (traced_mono
    (cleans_unlatched (unlatched_getCandidateKvs leaf _ false false) (by simp) (reread_of_none before)) ?_)
  rintro ⟨success, candidates⟩ later along
  have empty := along.onward.none before
  dsimp only
  split_ifs
  · exact empty
  split
  · refine cleans_bind (traced_mono (cleans_unlatched (unlatched_tryUpdateLoop b _ kvb _ _ _) (by simp) (reread_of_none empty)) ?_)
    exact fun _ _ last => Or.inl (last.onward.none empty)
  · refine cleans_next rfl (fun _ => rfl) (reread_of_none empty) fun hash _ => ?_
    have drawn : sinceFill (⟨⟨.insert, .threadHash⟩, hash⟩ :: later : List (Done Key Value)) = none := (Onward.step rfl).none empty
    generalize (⟨⟨.insert, .threadHash⟩, hash⟩ :: later : List (Done Key Value)) = later at drawn
    split
    · exact drawn
    · exact drawn
    · rename_i i _
      refine cleans_step ⟨fun _ _ _ is => (by cases is), Or.inl drawn, fun c is => absurd is (reread_of_none drawn c)⟩
        fun (found : KVBlock) _ => ?_
      by_cases hit : found = leaf.kvBlocks i
      · have filled : sinceFill (⟨⟨.insert, .casBlock b i (leaf.kvBlocks i) kvb⟩, found⟩ :: later : List (Done Key Value)) =
          some (b, []) := by
          have fills : Op.fillsAt (⟨.insert, .casBlock b i (leaf.kvBlocks i) kvb⟩ : Op Key Value) found = some b := if_pos hit
          simp only [sinceFill, fillNext, fills]
        refine cleans_step ⟨fun _ _ _ is => (by cases is), Or.inr fun _ => rfl, fun c is => ?_⟩ fun (node : Node Key) sparse => ?_
        · rw [filled] at is
          cases is
          rfl
        have since := sinceFill_cons (o := ⟨.insert, .readNode b⟩) (r := node) rfl filled
        rw [if_neg (not_not.2 hit)]
        split_ifs with usable
        · have open_ : node.asLeaf.header.lock = 0 ∧ node.asLeaf.header.covers key := by
            rw [asLeaf_header]
            exact usable
          exact cleans_bind (traced_mono (cleans_finishInsert since sparse open_.1 open_.2) fun _ _ discharged => discharged)
        · refine Or.inr ⟨b, node, [], since, fun fine => absurd ?_ usable⟩
          rw [← asLeaf_header]
          exact ⟨fine.lock, fine.covers⟩
      · have missed : sinceFill (⟨⟨.insert, .casBlock b i (leaf.kvBlocks i) kvb⟩, found⟩ :: later : List (Done Key Value)) =
          none := by
          have keeps : Op.fillsAt (⟨.insert, .casBlock b i (leaf.kvBlocks i) kvb⟩ : Op Key Value) found = none := if_neg hit
          exact (Onward.step keeps).none drawn
        refine cleans_next rfl (fun _ => rfl) (reread_of_none missed) fun (node : Node Key) _ => ?_
        rw [if_pos hit]
        exact (Onward.step rfl).none missed

omit [KeyBytes Key] in
theorem cleans_locateLeaf (item : KVItem Key Value) (x : GlobalAddress) (wrote : Bool) (before : sinceFill done = none) :
    Cleans cfg a (fun _ later => sinceFill later = none) (locateLeaf cfg key item x wrote) done := by
  -- a writer that looks for its leaf fills no slot
  refine cleans_bind (traced_mono (cleans_unlatched (unlatched_findNode key 0 false) (by simp) (reread_of_none before)) ?_)
  rintro ⟨result, leafAddress⟩ later along
  have empty := along.onward.none before
  cases result with
  | unknown => trivial
  | noSuchLevel => trivial
  | locked => exact empty
  | found =>
    refine cleans_next rfl (fun _ => rfl) (reread_of_none empty) fun (node : Node Key) _ => ?_
    have read : sinceFill (⟨⟨.insert, .readNode leafAddress⟩, node⟩ :: later : List (Done Key Value)) = none :=
      (Onward.step rfl).none empty
    have answer : ∀ later : List (Done Key Value), sinceFill later = none → Cleans cfg a (fun _ later => sinceFill later = none)
        (if node.header.level ≠ 0 then .stuck else if node.header.lock ≠ 0 ∨ ¬ node.header.covers key then pure (true, none)
          else pure (true, some (leafAddress, node.asLeaf)) : Index Key Value _) later := by
      intro later none
      split_ifs
      · trivial
      · exact none
      · exact none
    cases wrote with
    | true => exact answer _ read
    | false => exact cleans_next rfl (fun _ => rfl) (reread_of_none read) fun _ _ => answer _ ((Onward.step rfl).none read)

theorem cleans_insertLoop (item : KVItem Key Value) (x : GlobalAddress) (kvb : KVBlock) (attempts attempt : ℕ) (wrote : Bool)
    (leafRead : Option (GlobalAddress × LeafNode Key)) (before : sinceFill done = none) :
    Cleans cfg a (fun _ later => Discharged cfg key later) (insertLoop cfg key item x kvb attempts attempt wrote leafRead) done := by
  induction attempts generalizing attempt wrote leafRead done with
  | zero => trivial
  | succ attempts ih =>
    have round : ∀ (wrote : Bool) (target : Option (GlobalAddress × LeafNode Key)) (done : List (Done Key Value)),
      sinceFill done = none →
        Cleans cfg a (fun _ later => Discharged cfg key later)
          (insertRound cfg key item x kvb attempts attempt wrote target) done := by
      intro wrote target done before
      cases target with
      | none => exact ih _ _ none before
      | some target =>
        refine cleans_bind (traced_mono (cleans_insertAttempt kvb attempt target.2 before) ?_)
        intro outcome later cleaned
        cases outcome with
        | done ok => exact cleaned
        | retry leafRead => exact ih _ _ leafRead cleaned
    cases leafRead with
    | none =>
      rw [insertLoop_none]
      exact cleans_bind (traced_mono (cleans_locateLeaf item x wrote before) fun found later empty => round _ _ _ empty)
    | some target =>
      rw [insertLoop_some]
      exact round _ _ _ before

theorem cleans_readLoop (attempts : ℕ) (before : sinceFill done = none) :
    Cleans cfg a (fun _ later => sinceFill later = none) (readLoop cfg key attempts : Index Key Value (Outcome Value)) done := by
  induction attempts generalizing done with
  | zero => trivial
  | succ attempts ih =>
    refine cleans_bind (traced_mono (cleans_unlatched (unlatched_findNode key 0 false) (by simp) (reread_of_none before)) ?_)
    rintro ⟨result, leafAddress⟩ later along
    have empty := along.onward.none before
    cases result with
    | unknown => trivial
    | noSuchLevel => trivial
    | locked => exact ih empty
    | found =>
      refine cleans_next rfl (fun _ => rfl) (reread_of_none empty) fun (node : Node Key) _ => ?_
      have read : sinceFill (⟨⟨.read, .readNode leafAddress⟩, node⟩ :: later : List (Done Key Value)) = none :=
        (Onward.step rfl).none empty
      refine cleans_bind (traced_mono
        (cleans_unlatched (unlatched_handleLocalRemoveDupes key leafAddress _ false true) id (reread_of_none read)) ?_)
      rintro ⟨success, found⟩ last along
      have still := along.onward.none read
      cases success with
      | true => exact still
      | false => exact ih still

theorem cleans_body {call : Call Key Value} (wanted : call.key = some key) :
    Cleans cfg a (fun _ later => Discharged cfg key later) (call.body cfg) [] := by
  cases call with
  | insert k value =>
    cases wanted
    refine cleans_bind (cleans_next rfl (fun _ => rfl) (reread_of_none rfl) fun x _ => ?_)
    exact traced_mono (cleans_insertLoop _ x _ cfg.maxAttempts 0 false none ((Onward.step rfl).none rfl))
      fun _ _ discharged => discharged
  | read k => exact traced_mono (cleans_readLoop cfg.maxAttempts rfl) fun _ _ empty => Or.inl empty
  | split b => cases wanted
  | maintain => cases wanted

end

end Faunus
