import Faunus.Index.Histories
import Faunus.Sherman.Histories

/-! The two indexes behind the interface `KVIndex`.

One client makes the same calls to both, each started empty and without a cache. The
answers are the same except where the value read is `Value::min`, by which
`ShermanIndex::read` signals that a key is absent, or where the item of the key lies at the
null address, by which `ShermanIndex` marks an empty record.
-/

set_option autoImplicit false

namespace Faunus.KVIndex

open Interleaving

/-! ## One client, two indexes -/

section
variable {Key Value : Type}

/-- A call through the interface. -/
inductive Call (Key Value : Type) where
  | insert : Key → Value → Call Key Value
  | read : Key → Call Key Value

def Call.toFaunus : Call Key Value → Faunus.Call Key Value
  | .insert key value => .insert key value
  | .read key => .read key

def Call.toSherman : Call Key Value → Sherman.Call Key Value
  | .insert key value => .insert key value
  | .read key => .read key

def SameAnswer (one : Faunus.Outcome Value) (two : Sherman.Outcome Value) : Prop := one.ok = two.ok ∧ one.value = two.value

/-- The call does not read a key whose latest insert wrote `Value::min` or was lost. -/
def Call.Shown [Bot Value] (map : Key → Option Value) (lost : Option Key) : Call Key Value → Prop
  | .insert _ _ => True
  | .read key => map key ≠ some ⊥ ∧ lost ≠ some key

variable [LinearOrder Key] [BoundedOrder Key]

/-- The key whose latest insert was given the null address for its item. -/
def Call.lose (two two' : Sherman.Memory Key Value) (lost : Option Key) : Call Key Value → Option Key
  | .insert key _ => if two.Loses two' then some key else if lost = some key then none else lost
  | .read _ => lost

/-- The key lies strictly between `Key::min` and `Key::max`. -/
def Call.Inner : Call Key Value → Prop
  | .insert key _ => ⊥ < key ∧ key < ⊤
  | .read key => ⊥ < key ∧ key < ⊤

/-- What a call does to the map of the values inserted last. -/
def Call.assign (map : Key → Option Value) : Call Key Value → Key → Option Value
  | .insert key value => Function.update map key (some value)
  | .read _ => map

variable [KeyBytes Key] [Bot Value] [DecidableEq Value]

/-- Both indexes return from every call, and each pair of outcomes is as it is judged to be. A Sherman tree
that does not fit into `path_stack` ends the run. -/
def Together (cfg : Config) (t : Thread) (cfg' : Sherman.Config) (t' : ℕ)
    (judge : Call Key Value → (Key → Option Value) → Option Key → Faunus.Outcome Value → Sherman.Outcome Value → Prop) :
    List (Call Key Value) → (Key → Option Value) → Option Key → Memory Key Value → Sherman.Memory Key Value → Prop
  | [], _, _, _, _ => True
  | call :: rest, map, lost, one, two =>
    Alone cfg t (fun outcome one' =>
      (Sherman.kMaxLevelOfTree < two.levels → ∀ choices, (call.toSherman.body cfg').run Sherman.Memory.exec t' choices two = none) ∧
      (two.levels ≤ Sherman.kMaxLevelOfTree →
        Sherman.Solo t' (fun outcome' two' => judge call map lost outcome outcome' ∧
            Together cfg t cfg' t' judge rest (call.assign map) (call.lose two two' lost) one' two')
          (call.toSherman.body cfg') two)) (call.toFaunus.body cfg) one

end

/-! ## The answers -/

section
variable {Key Value : Type} [LinearOrder Key] [BoundedOrder Key] {map : Key → Option Value} {lost : Option Key}
    {call : Call Key Value}

theorem Call.Inner.client (inner : call.Inner) : call.toFaunus.Client := by
  cases call with
  | insert key value => exact inner.2
  | read key => exact inner.2

theorem Call.Inner.sherman (inner : call.Inner) : call.toSherman.Inner := by
  cases call with
  | insert key value => exact inner
  | read key => exact inner

omit [BoundedOrder Key] in
theorem assign_toFaunus : call.toFaunus.assign map = call.assign map := by
  cases call <;> rfl

/-- What `ShermanIndex` has stored of the map. -/
def stored (map : Key → Option Value) (lost : Option Key) (key : Key) : Option Value := if lost = some key then none else map key

omit [BoundedOrder Key] in
theorem sameAnswer_iff [Bot Value] [DecidableEq Value] (there : ∀ key, lost = some key → map key ≠ none) :
    SameAnswer (call.toFaunus.answer map) (call.toSherman.answer (Sherman.masked (stored map lost))) ↔ call.Shown map lost := by
  -- one call: the answers of the map and of what the reads of the other index see of it
  cases call with
  | insert key value => exact iff_of_true ⟨rfl, rfl⟩ trivial
  | read key =>
    refine Iff.trans ⟨fun same => same.2, fun same => ⟨congrArg Option.isSome same, same⟩⟩ ?_
    show map key = Sherman.masked (stored map lost) key ↔ map key ≠ some ⊥ ∧ lost ≠ some key
    unfold Sherman.masked stored
    by_cases gone : lost = some key
    · rw [if_pos gone]
      exact iff_of_false (there key gone) fun shown => shown.2 gone
    · rw [if_neg gone]
      cases map key with
      | none => simp [gone]
      | some v =>
        by_cases zero : v = ⊥
        · simp [zero, Option.filter]
        · simp [zero, gone, Option.filter]

section
variable {two two' : Sherman.Memory Key Value} (there : ∀ key, lost = some key → map key ≠ none ∧ two.itemsIssued ≠ [])
include there

omit [BoundedOrder Key] in
theorem store_stored (nothing : two.itemsIssued = [] → ∀ key, stored map lost key = none) :
    call.toSherman.store two two' (stored map lost) = stored (call.assign map) (call.lose two two' lost) := by
  -- a call does the same to the map and to what is stored of it
  cases call with
  | read key => rfl
  | insert key value =>
    funext k
    show two.store two' (stored map lost) key value k = stored (Function.update map key (some value)) _ k
    by_cases loses : two.Loses two'
    · -- before the first item both maps are empty
      have empty := nothing loses.1 k
      rw [Sherman.Memory.store, Call.lose, if_pos loses, if_pos loses, empty, stored]
      by_cases here : k = key
      · rw [if_pos (congrArg some here.symm)]
      · rw [if_neg fun same => here (Option.some.inj same).symm, Function.update_of_ne here]
        rw [stored, if_neg fun gone => (there k gone).2 loses.1] at empty
        exact empty.symm
    · rw [Sherman.store_of_not_loses loses, Call.lose, if_neg loses, stored]
      by_cases here : k = key
      · subst here
        rw [Function.update_self, Function.update_self]
        by_cases again : lost = some k
        · rw [if_pos again, if_neg (Option.some_ne_none k).symm]
        · rw [if_neg again, if_neg again]
      · rw [Function.update_of_ne here, Function.update_of_ne here, stored]
        by_cases again : lost = some key
        · rw [if_pos again, again, if_neg fun same => here (Option.some.inj same).symm, if_neg (Option.some_ne_none k).symm]
        · rw [if_neg again]

omit [BoundedOrder Key] in
theorem there_lose (more : two.itemsIssued ⊆ two'.itemsIssued) (key : Key) (gone : call.lose two two' lost = some key) :
    call.assign map key ≠ none ∧ two'.itemsIssued ≠ [] := by
  have later : two.itemsIssued ≠ [] → two'.itemsIssued ≠ [] := fun some none => some (List.subset_nil.1 (none ▸ more))
  cases call with
  | read k => exact ⟨(there key gone).1, later (there key gone).2⟩
  | insert k value =>
    simp only [Call.lose] at gone
    simp only [Call.assign]
    split_ifs at gone with loses again
    · obtain rfl := Option.some.inj gone
      refine ⟨by rw [Function.update_self]; exact Option.some_ne_none _, fun none => ?_⟩
      have inside := loses.2
      rw [none] at inside
      cases inside
    · have other : key ≠ k := by
        rintro rfl
        exact again gone
      rw [Function.update_of_ne other]
      exact ⟨(there key gone).1, later (there key gone).2⟩

end

variable [KeyBytes Key] [Bot Value] [DecidableEq Value] {cfg : Config} {t : Thread} {keySize loopBound t' : ℕ}
  {one : Memory Key Value} {two : Sherman.Memory Key Value} {top top' : ℕ}

theorem together (inline : cfg.Inline) (settled : Settled cfg t one top) (represents : Represents cfg one map)
    (three : 3 ≤ Sherman.kInternalCardinality keySize) (long : Sherman.kMaxLevelOfTree ≤ loopBound)
    (sound : Sherman.Sound (.ofKeySize keySize loopBound) two ∅ top')
    (represents' : Sherman.Represents (.ofKeySize keySize loopBound) two (stored map lost))
    (there : ∀ key, lost = some key → map key ≠ none ∧ two.itemsIssued ≠ []) {calls : List (Call Key Value)}
    (inner : ∀ call ∈ calls, call.Inner) (short : top + calls.length ≤ cfg.loopBound) :
    Together cfg t (.ofKeySize keySize loopBound) t'
      (fun call map lost outcome outcome' => SameAnswer outcome outcome' ↔ call.Shown map lost)
      calls map lost one two := by
  -- two trees in order that hold the same map stay so
  induction calls generalizing map lost one two top top' with
  | nil => trivial
  | cons call rest ih =>
    rw [List.length_cons] at short
    have own := inner call List.mem_cons_self
    obtain ⟨p, root, level, -⟩ := sound.linked.root
    have levels : two.levels = top' + 1 := by
      rw [Sherman.Memory.levels, root]
      exact congrArg (· + 1) level
    refine total_mono (alone_call inline settled represents (by omega) own.client) ?_
    rintro outcome one' ⟨rfl, ⟨top₁, low, settled₁⟩, represents₁⟩
    rw [assign_toFaunus] at represents₁
    refine ⟨fun tall choices => ?_, fun fits => ?_⟩
    · exact Sherman.call_tall root (by omega) (lt_of_lt_of_le (by decide) long) (by decide : 0 < 1000000) call.toSherman choices
    · refine total_mono (Sherman.solo_issued (Sherman.solo_call three long sound represents' (by omega) own.sherman)) ?_
      rintro outcome' two' ⟨⟨rfl, ⟨top₂, sound₂⟩, represents₂⟩, more⟩
      rw [store_stored there fun none => sound.nothing represents' none] at represents₂
      refine ⟨sameAnswer_iff fun key gone => (there key gone).1,
        ih settled₁ represents₁ sound₂ represents₂ (there_lose there more) ?_ (by omega)⟩
      exact fun c inside => inner c (List.mem_cons_of_mem _ inside)

/-- At every call of every history both indexes give the same answer, unless a read asks for a key whose latest
insert wrote `Value::min` or was given the null address; then, and only then, the answers differ. -/
theorem answers_agree_iff [Nontrivial Key] (inline : cfg.Inline) (fresh : one.Fresh)
    (three : 3 ≤ Sherman.kInternalCardinality keySize) (long : Sherman.kMaxLevelOfTree ≤ loopBound) (fresh' : two.Fresh)
    {calls : List (Call Key Value)} (inner : ∀ call ∈ calls, call.Inner) (short : calls.length ≤ cfg.loopBound) :
    Alone cfg t (fun ok one' => Sherman.Solo t' (fun ok' two' => ok = ok' ∧
        Together cfg t (.ofKeySize keySize loopBound) t'
          (fun call map lost outcome outcome' => SameAnswer outcome outcome' ↔ call.Shown map lost)
          calls (fun _ => none) none one' two')
      Sherman.initializeIndex two) initializeIndex one := by
  have four := inline.four
  refine total_mono (alone_initializeIndex fresh (by omega)) ?_
  rintro ok one' ⟨rfl, settled, represents⟩
  refine total_mono (Sherman.solo_initializeIndex fresh' (Sherman.leafCardinality_pos three loopBound)) ?_
  rintro ok' two' ⟨rfl, sound, represents'⟩
  refine ⟨rfl, together inline settled represents three long sound ?_ (fun _ gone => absurd gone.symm (Option.some_ne_none _))
    inner (by omega)⟩
  exact represents'

end

/-- Memory before `initialize`, with byte values. -/
def unplanted : Memory (Fin 256) (Fin 256) where
  rootOffset := ⟨0⟩
  nodes := fun _ => none
  items := fun _ => ⟨⊥, ⊥⟩
  nodesIssued := []
  itemsIssued := []
  freeItems := fun _ => []
  queue := []

theorem unplanted_fresh : unplanted.Fresh := ⟨fun _ => rfl, fun _ => rfl⟩

theorem answers_agree_iff_threeCalls :
    Alone (inlineConfig 3) ⟨0, 0⟩ (fun ok one => Sherman.Solo 0 (fun ok' two => ok = ok' ∧
        Together (inlineConfig 3) ⟨0, 0⟩ (.ofKeySize 1 7) 0
          (fun call map lost outcome outcome' => SameAnswer outcome outcome' ↔ call.Shown map lost)
          [.insert firstKey 7, .read firstKey, .read secondKey] (fun _ => none) none one two)
      Sherman.initializeIndex Sherman.blank) initializeIndex unplanted := by
  refine answers_agree_iff inlineConfig_inline unplanted_fresh (by decide) (by decide) Sherman.blank_fresh ?_ (by decide)
  simp only [List.forall_mem_cons, Call.Inner]
  exact ⟨by decide, by decide, by decide, by simp⟩

-- the first item lies at the null address, and its key is lost
example : (((Call.insert firstKey 7).toSherman.body (.ofKeySize 1 7)).run Sherman.Memory.exec 0 (List.replicate 9 0)
    ({ Sherman.blank with itemsIssued := [] }.planted ⟨1⟩)).map (fun r =>
      (((Call.read firstKey).toSherman.body (.ofKeySize 1 7)).run Sherman.Memory.exec 0 [0, 0, 0] r.2).map (·.1.ok)) =
    some (some false) := by
  decide +kernel

/-- Reading back `Value::min`. -/
theorem answers_differ_zeroValue :
    ¬ ∀ calls : List (Call (Fin 256) (Fin 256)), (∀ call ∈ calls, call.Inner) →
      Alone (inlineConfig 3) ⟨0, 0⟩ (fun ok one => Sherman.Solo 0 (fun ok' two => ok = ok' ∧
          Together (inlineConfig 3) ⟨0, 0⟩ (.ofKeySize 1 7) 0 (fun _ _ _ => SameAnswer) calls (fun _ => none) none one two)
        Sherman.initializeIndex Sherman.blank) initializeIndex unplanted := by
  intro claimed
  have inner : ∀ call ∈ [(.insert firstKey 0 : Call (Fin 256) (Fin 256)), .read firstKey], call.Inner := by
    simp only [List.forall_mem_cons, Call.Inner]
    exact ⟨by decide, by decide, by simp⟩
  have planted : initializeIndex.run (Memory.exec (inlineConfig 3).usable) ⟨0, 0⟩ (List.replicate 4 1) unplanted =
      some (true, unplanted.planted ⟨1⟩) := rfl
  have planted' : Sherman.initializeIndex.run Sherman.Memory.exec 0 [1, 0, 0] Sherman.blank = some
    (true, Sherman.blank.planted ⟨1⟩) := rfl
  have found : (((Call.insert firstKey 0).toFaunus.body (inlineConfig 3)).run (Memory.exec (inlineConfig 3).usable) ⟨0, 0⟩
      ((List.range 10).map (BitVec.ofNat 64)) (unplanted.planted ⟨1⟩)).map (fun r =>
        (((Call.read firstKey).toFaunus.body (inlineConfig 3)).run (Memory.exec (inlineConfig 3).usable) ⟨0, 0⟩
          [0, 0, 0, 0, 0] r.2).map
          (·.1.ok)) = some (some true) := by decide +kernel
  have missed : (((Call.insert firstKey 0).toSherman.body (.ofKeySize 1 7)).run Sherman.Memory.exec 0 (List.replicate 9 1)
      (Sherman.blank.planted ⟨1⟩)).map (fun r => (decide (r.2.levels ≤ Sherman.kMaxLevelOfTree),
        (((Call.read firstKey).toSherman.body (.ofKeySize 1 7)).run Sherman.Memory.exec 0 [0, 0, 0] r.2).map (·.1.ok))) =
      some (true, some false) := by decide +kernel
  obtain ⟨⟨outcome, one⟩, inserted, found⟩ := Option.map_eq_some_iff.1 found
  obtain ⟨⟨answer, one'⟩, ran, yes⟩ := Option.map_eq_some_iff.1 found
  obtain ⟨⟨outcome', two⟩, inserted', missed⟩ := Option.map_eq_some_iff.1 missed
  obtain ⟨fits, missed⟩ := Prod.mk.inj missed
  obtain ⟨⟨answer', two'⟩, ran', no⟩ := Option.map_eq_some_iff.1 missed
  obtain ⟨-, first⟩ := Sherman.solo_run (alone_run (claimed _ inner) planted) planted'
  obtain ⟨-, second⟩ := Sherman.solo_run ((alone_run first inserted).2 (by decide)) inserted'
  obtain ⟨⟨same, -⟩, -⟩ := Sherman.solo_run ((alone_run second ran).2 (of_decide_eq_true fits)) ran'
  have yes : answer.ok = true := yes
  have no : answer'.ok = false := no
  rw [yes, no] at same
  cases same

end Faunus.KVIndex
