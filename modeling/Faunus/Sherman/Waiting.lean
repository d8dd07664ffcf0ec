import Faunus.Interleaving.Holding
import Faunus.Sherman.Cached
import Faunus.Sherman.Histories
import Faunus.Sherman.System

/-! Who waits for a page of the Sherman tree.

A call locks one page at a time and gives it back after a number of operations that the
cardinality of a leaf bounds, so clients never wait in a circle.
-/

set_option autoImplicit false

namespace Faunus.Sherman

open Interleaving

variable {Key Value A : Type}

def Op.locks : Op Key Value → Option GlobalAddress
  | ⟨_, .lock a⟩ => some a
  | _ => none

def Op.unlocks : Op Key Value → Option GlobalAddress
  | ⟨_, .unlock a⟩ => some a
  | _ => none

def pageLocks : Locks (signature Key Value) GlobalAddress (State Key Value) :=
    ⟨Op.locks, Op.unlocks, fun s a => s.memory.locks a = true⟩

/-- The records are searched, the new item is written, the records are read for a split, and two pages are written. -/
def Config.patience (cfg : Config) : ℕ := 2 * cfg.leafCardinality + 8

section
variable {cfg : Config} {limit left n : ℕ} {hand : Hand GlobalAddress}

theorem lasts_ite {c : Prop} [Decidable c] {p q : Index Key Value A} (yes : p.Lasts pageLocks n) (no : q.Lasts pageLocks n) :
    (if c then p else q).Lasts pageLocks n := by
  split
  · exact yes
  · exact no

theorem frugal_ite {c : Prop} [Decidable c] {p q : Index Key Value A} (yes : p.Frugal pageLocks limit hand)
    (no : q.Frugal pageLocks limit hand) : (if c then p else q).Frugal pageLocks limit hand := by
  split
  · exact yes
  · exact no

theorem lasts_readKeyed {page : LeafPage Key} {slots : List ℕ} :
    (readKeyed page slots : Index Key Value (List (Key × LeafEntry))).Lasts pageLocks slots.length := by
  induction slots with
  | nil => trivial
  | cons i rest ih => exact ⟨⟨rfl, rfl⟩, fun _ => lasts_map ih⟩

variable [LinearOrder Key] [BoundedOrder Key] {key splitKey : Key} {a v root right : GlobalAddress} {level : ℕ} {path : PathStack}

theorem frugal_updateRootOffset {f : Bool → Index Key Value A} (next : ∀ done, (f done).Frugal pageLocks limit .free) :
    (updateRootOffset a key right level root >>= f).Frugal pageLocks limit .free :=
  frugal_only ⟨⟨rfl, rfl⟩, fun _ => ⟨⟨rfl, rfl⟩, fun _ => ⟨⟨rfl, rfl⟩, fun _ => trivial⟩⟩⟩ next

theorem guarded_pageLocks [KeyBytes Key] [Bot Value] [DecidableEq Value] :
    (pageLocks : Locks (signature Key Value) GlobalAddress (State Key Value)).Guarded (system cfg) where
  taken t o c s r s' l performed takes := by
  -- only locks and unlocks change which pages are locked
    obtain ⟨performed, -⟩ := State.exec_eq_some performed
    obtain ⟨site, act⟩ := o
    cases act <;> cases takes
    obtain ⟨free, done⟩ := Option.ite_none_left_eq_some.1 performed
    have memory : s.memory.setLock l true = s'.memory := congrArg Prod.snd (Option.some.inj done)
    refine ⟨free, fun k => ?_⟩
    simp only [pageLocks, ← memory, Memory.setLock, Function.update_apply]
    by_cases same : k = l <;> simp [same]
  given t o c s r s' l performed gives k := by
    obtain ⟨performed, -⟩ := State.exec_eq_some performed
    obtain ⟨site, act⟩ := o
    cases act <;> cases gives
    have memory : s.memory.setLock l false = s'.memory := congrArg Prod.snd (Option.some.inj performed)
    simp only [pageLocks, ← memory, Memory.setLock, Function.update_apply]
    by_cases same : k = l <;> simp [same]
  kept t o c s r s' performed quiet k := by
    obtain ⟨performed, -⟩ := State.exec_eq_some performed
    have same : s'.memory.locks = s.memory.locks := by
      obtain ⟨m', history⟩ := s'
      obtain ⟨site, act⟩ := o
      cases act with
      | lock a => cases quiet.1
      | unlock a => cases quiet.2
      | _ =>
        simp only [Memory.exec] at performed
        try split at performed
        all_goals cases performed
        all_goals rfl
    simp only [pageLocks, same]
  invoked t call s k := Iff.rfl
  returned t call a s k := Iff.rfl
  env s s' moved := moved.elim

theorem frugal_insertToInternal {bound : ℕ} :
    (insertToInternal cfg key v root level path bound a : Index Key Value Unit).Frugal pageLocks cfg.patience .free := by
  induction bound generalizing key v level a with
  | zero => trivial
  | succ bound ih =>
    unfold insertToInternal
    refine ⟨rfl, .inl ⟨a, rfl, fun _ => frugal_quiet (m := 4) ⟨rfl, rfl⟩ (by unfold Config.patience; omega) fun page k le => ?_⟩⟩
    refine frugal_ite trivial (frugal_ite ?_ (frugal_ite trivial (frugal_ite trivial (frugal_ite ?_ ?_))))
    · exact frugal_give rfl rfl (by omega) fun _ => frugal_ite trivial ih
    · exact frugal_quiet (m := 1) ⟨rfl, rfl⟩ (by omega) fun _ k le => frugal_give rfl rfl le fun _ => rfl
    · refine frugal_quiet (m := 3) ⟨rfl, rfl⟩ (by omega) fun (new : GlobalAddress) k le => frugal_ite trivial (frugal_ite trivial ?_)
      refine frugal_quiet (m := 2) ⟨rfl, rfl⟩ (by omega) fun _ k le => frugal_quiet (m := 1) ⟨rfl, rfl⟩ (by omega) fun _ k le => ?_
      have missing : (assertFalse .insertToInternal : Index Key Value Unit).Frugal pageLocks cfg.patience .free :=
        ⟨rfl, .inr ⟨rfl, fun _ => rfl⟩⟩
      refine frugal_give rfl rfl le fun _ => frugal_ite (frugal_updateRootOffset fun done => ?_) ?_
      · exact frugal_ite rfl (frugal_ite ih missing)
      · exact frugal_ite ih missing

section Descending
variable [KeyBytes Key] {result : SearchResult Value}

theorem frugal_searchNode {f : SearchResult Value × PathStack → Index Key Value A}
    (next : ∀ found, (f found).Frugal pageLocks limit .free) :
    (searchNode cfg a key result path >>= f).Frugal pageLocks limit .free :=
  frugal_only (only_searchNode (fun _ => ⟨rfl, rfl⟩) fun _ => ⟨rfl, rfl⟩) next

theorem frugal_searchAndInsertLoop {bound : ℕ} :
    (searchAndInsertLoop cfg key v root level bound a result path : Index Key Value Unit).Frugal pageLocks cfg.patience .free := by
  induction bound generalizing a result path with
  | zero => trivial
  | succ bound ih =>
    refine frugal_searchNode fun found => frugal_ite frugal_insertToInternal (frugal_ite trivial ?_)
    exact frugal_ite ih (frugal_ite ih frugal_insertToInternal)

variable [Bot Value]

theorem frugal_searchAndInsertToInternal :
    (searchAndInsertToInternal cfg key v level path : Index Key Value Unit).Frugal pageLocks cfg.patience .free :=
  ⟨rfl, .inr ⟨rfl, fun _ => frugal_searchAndInsertLoop⟩⟩

end Descending

/-! ## Leaves -/

section Leaves
variable [KeyBytes Key] [Bot Value]

omit [BoundedOrder Key] [Bot Value] in
theorem lasts_scanRecords {page : LeafPage Key} {value : Value} {slots : List ℕ} {cnt : ℕ} {emptyIndex : Option ℕ} :
    (scanRecords key value page slots cnt emptyIndex).Lasts pageLocks (slots.length + 1) := by
  induction slots generalizing cnt emptyIndex with
  | nil => trivial
  | cons i rest ih =>
    have later : ∀ cnt emptyIndex, (scanRecords key value page rest cnt emptyIndex).Lasts pageLocks (rest.length + 2) :=
      fun cnt emptyIndex =>
      lasts_mono ih (Nat.le_succ _)
    unfold scanRecords
    refine lasts_ite (later _ _) (lasts_ite ⟨⟨rfl, rfl⟩, fun item => ?_⟩ (later _ _))
    exact lasts_ite ⟨⟨rfl, rfl⟩, fun _ => trivial⟩ ih

theorem frugal_splitLeafPage {page : LeafPage Key} {cnt : ℕ} (enough : cfg.leafCardinality + 4 ≤ left) :
    (splitLeafPage cfg a page cnt root level path : Index Key Value Unit).Frugal pageLocks cfg.patience (.holds a left) := by
  unfold splitLeafPage
  have used : (page.used cfg.leafCardinality).length ≤ cfg.leafCardinality := by
    rw [LeafPage.used]
    exact (List.length_filter_le ..).trans List.length_range.le
  refine frugal_lasts (m := 4) lasts_readKeyed (by omega) fun keyed k le => frugal_ite trivial ?_
  refine frugal_quiet (m := 3) ⟨rfl, rfl⟩ (by omega) fun (new : GlobalAddress) k le => ?_
  split
  · trivial
  · refine frugal_ite trivial (frugal_ite trivial ?_)
    refine frugal_quiet (m := 2) ⟨rfl, rfl⟩ (by omega) fun _ k le => frugal_quiet (m := 1) ⟨rfl, rfl⟩ (by omega) fun _ k le => ?_
    refine frugal_give rfl rfl le fun _ => frugal_ite (frugal_updateRootOffset fun done => ?_) ?_
    · exact frugal_ite rfl (frugal_ite frugal_insertToInternal frugal_searchAndInsertToInternal)
    · exact frugal_ite frugal_insertToInternal frugal_searchAndInsertToInternal

theorem frugal_insertToLeaf {value : Value} {bound : ℕ} :
    (insertToLeaf cfg key value root level path bound a).Frugal pageLocks cfg.patience .free := by
  induction bound generalizing a with
  | zero => trivial
  | succ bound ih =>
    unfold insertToLeaf
    refine ⟨rfl, .inl ⟨a, rfl, fun _ => frugal_quiet (m := 2 * cfg.leafCardinality + 7) ⟨rfl, rfl⟩ le_rfl fun page k le => ?_⟩⟩
    refine frugal_ite trivial (frugal_ite ?_ (frugal_ite trivial ?_))
    · exact frugal_give rfl rfl (by omega) fun _ => frugal_ite trivial ih
    · refine frugal_lasts (m := cfg.leafCardinality + 6) lasts_scanRecords (by rw [List.length_range]; omega) fun scan k le => ?_
      cases scan with
      | updated => exact frugal_give rfl rfl (by omega) fun _ => rfl
      | absent cnt emptyIndex =>
        cases emptyIndex with
        | none => trivial
        | some i =>
          refine frugal_ite trivial (frugal_quiet (m := cfg.leafCardinality + 5) ⟨rfl, rfl⟩ (by omega) fun x k le => ?_)
          refine frugal_quiet (m := cfg.leafCardinality + 4) ⟨rfl, rfl⟩ (by omega) fun _ k le => ?_
          split
          · exact frugal_quiet (m := 1) ⟨rfl, rfl⟩ (by omega) fun _ k le => frugal_give rfl rfl le fun _ => rfl
          · exact frugal_splitLeafPage le

theorem frugal_insertLoop {value : Value} {retries : ℕ} {result : SearchResult Value} :
    (insertLoop cfg key value root retries a result path).Frugal pageLocks cfg.patience .free := by
  induction retries generalizing a result path with
  | zero => rfl
  | succ retries ih =>
    refine frugal_searchNode fun found => frugal_ite (frugal_bind frugal_insertToLeaf fun _ => rfl) (frugal_ite trivial ?_)
    exact frugal_ite ih (frugal_ite ih (frugal_bind frugal_insertToLeaf fun _ => rfl))

variable [DecidableEq Value]

theorem frugal_body {call : Call Key Value} : (call.body cfg).Frugal pageLocks cfg.patience .free := by
  cases call with
  | insert key value => exact frugal_bind ⟨rfl, .inr ⟨rfl, fun _ => frugal_insertLoop⟩⟩ fun _ => rfl
  | read key =>
    refine frugal_only ⟨⟨rfl, rfl⟩, fun _ => ?_⟩ fun _ => rfl
    exact only_readLoop (fun _ => ⟨rfl, rfl⟩) fun _ => ⟨rfl, rfl⟩

end Leaves

/-! ## The result -/

variable [KeyBytes Key] [Bot Value] [DecidableEq Value] {m : Memory Key Value}
  {P : Pool (signature Key Value) ℕ (Call Key Value) (Outcome Value) (State Key Value)}

/-- Every locked page is held by exactly one client, which unlocks it after a bounded number of operations without
locking another. So a client only ever waits for clients that do not wait. -/
theorem holders_never_wait (free : ∀ a, m.locks a = false) (run : Reaches (system cfg) anything (Pool.start ⟨m, []⟩) P) :
    (∀ a, P.shared.memory.locks a = true ↔ ∃ t, P.Holds pageLocks t a) ∧
    (∀ t u a, P.Holds pageLocks t a → P.Holds pageLocks u a → t = u) ∧
      (∀ t activity a, P.threads t = some activity → pageLocks.inHand activity.done = some a →
        activity.rest.Releases pageLocks a (2 * cfg.leafCardinality + 8)) ∧
      ∀ t u v, P.Waits pageLocks t u → ¬ P.Waits pageLocks u v := by
  have unlocked : ∀ a, ¬ pageLocks.locked (⟨m, []⟩ : State Key Value) a := fun a => Bool.eq_false_iff.1 (free a)
  obtain ⟨hands, handed⟩ := handed_reaches unlocked guarded_pageLocks (fun _ _ _ _ => frugal_body) run
  refine ⟨fun a => ?_, fun t u a one two => ?_, fun t activity a runs inHand => handed.releases runs inHand, fun t u v =>
    handed.not_waits⟩
  · refine (handed.locked a).trans (exists_congr fun t => ?_)
    exact handed.holds_iff
  · exact handed.once t u a (handed.holds_iff.2 one) (handed.holds_iff.2 two)

end

/-- Client 0 holds the leaf that client 1 waits for. -/
def queueing : Pool (signature (Fin 256) (Fin 256)) ℕ (Call (Fin 256) (Fin 256)) (Outcome (Fin 256)) (State (Fin 256) (Fin 256)) :=
  (Pool.start ⟨blank.planted ⟨1⟩, []⟩).drive (system (.ofKeySize 1 7)) (fun _ _ _ => true) freely
    (Move.part 0 (.insert firstKey secondKey) 3 3 ++ Move.part 1 (.insert firstKey firstKey) 2 2)

def nextLock : Index Key Value A → Option GlobalAddress
  | .perform o _ => o.locks
  | _ => none

theorem perform_of_nextLock {p : Index Key Value A} {a : GlobalAddress} (next : nextLock p = some a) :
    ∃ o later, p = .perform o later ∧ o.locks = some a := by
  cases p with
  | perform o later => exact ⟨o, later, rfl, next⟩
  | _ => cases next

theorem holders_never_wait_queueing : queueing.Waits pageLocks 1 0 ∧ ∀ u, ¬ queueing.Waits pageLocks 0 u := by
  have holding : ((queueing.threads 0).any fun activity => pageLocks.inHand activity.done = some ⟨1⟩) = true := by decide +kernel
  have blocked : ((queueing.threads 1).any fun activity => nextLock activity.rest = some ⟨1⟩) = true := by decide +kernel
  have waits : queueing.Waits pageLocks 1 0 := by
    obtain ⟨holder, runs, inHand⟩ := (Option.any_eq_true _ _).1 holding
    obtain ⟨waiter, runs', next⟩ := (Option.any_eq_true _ _).1 blocked
    obtain ⟨o, later, rest, takes⟩ := perform_of_nextLock (of_decide_eq_true next)
    exact ⟨waiter, o, later, ⟨1⟩, runs', rest, takes, holder, runs, of_decide_eq_true inHand⟩
  have run : Reaches (system (.ofKeySize 1 7)) anything (Pool.start ⟨blank.planted ⟨1⟩, []⟩) queueing :=
    reaches_drive (fun _ _ _ _ => trivial) (fun _ _ _ _ _ => trivial) _ _
  exact ⟨waits, fun u => (holders_never_wait (fun _ => rfl) run).2.2.2 1 0 u waits⟩

end Faunus.Sherman
