import Faunus.Index.LeafSplit

/-! Which of several blocks of a key wins.

Readers and inserters take the first slot with the fingerprint and the key; the
ordered map of a split keeps the last slot of the key.
-/

set_option autoImplicit false

namespace Faunus

open Interleaving

variable {Key Value : Type}

section
variable [LinearOrder Key] [KeyBytes Key] (branchFactor : ℕ) (key : GlobalAddress → Key) (n : LeafNode Key) (k : Key)

/-- The item `handle_local_remove_dupes` settles on in the leaf. -/
def LeafNode.selected : Option GlobalAddress :=
  ((getFingerprintCollisions branchFactor n (.ofKey k)).1.find? fun c => decide (key c.2 = k)).map Prod.snd

def LeafNode.Slot (i : ℕ) : Prop := n.Live branchFactor i ∧ key (n.kvBlocks i).getAddr = k

/-- A slot of the key that its fingerprint leads to. -/
def LeafNode.Match (i : ℕ) : Prop := n.Slot branchFactor key k i ∧ (n.kvBlocks i).getFingerprint = .ofKey k

def LeafNode.First (i : ℕ) : Prop := n.Match branchFactor key k i ∧ ∀ j < i, ¬ n.Match branchFactor key k j

def LeafNode.Last (i : ℕ) : Prop := n.Slot branchFactor key k i ∧ ∀ j, n.Slot branchFactor key k j → j ≤ i

/-- The first slot that a reader would take and the last slot of the key stand for the same item. -/
def LeafNode.Agrees : Prop :=
  ∀ i j, n.First branchFactor key k i → n.Last branchFactor key k j →
    (n.kvBlocks j).getFingerprint = .ofKey k ∧ (n.kvBlocks j).getAddr = (n.kvBlocks i).getAddr

end

section
variable [LinearOrder Key] [KeyBytes Key] {branchFactor : ℕ} {key : GlobalAddress → Key} {leaf locked half : LeafNode Key}
  {k : Key}

theorem selected_eq_some {b : GlobalAddress} :
    leaf.selected branchFactor key k = some b ↔
      ∃ i, leaf.First branchFactor key k i ∧ (leaf.kvBlocks i).getAddr = b := by
  have found : leaf.selected branchFactor key k = ((List.range branchFactor).find? fun i =>
      !(leaf.kvBlocks i).isFree && (leaf.kvBlocks i).getFingerprint == .ofKey k &&
        decide (key (leaf.kvBlocks i).getAddr = k)).map fun i => (leaf.kvBlocks i).getAddr := by
    simp only [LeafNode.selected, getFingerprintCollisions, List.find?_map, List.find?_filter, Option.map_map,
      Bool.decide_and, Bool.decide_eq_true]
    rfl
  have test : ∀ i, i < branchFactor → ((!(leaf.kvBlocks i).isFree && (leaf.kvBlocks i).getFingerprint == .ofKey k &&
      decide (key (leaf.kvBlocks i).getAddr = k)) = true ↔ leaf.Match branchFactor key k i) := by
    intro i bound
    simp only [LeafNode.Match, LeafNode.Slot, LeafNode.Live, Bool.and_eq_true, Bool.not_eq_true', beq_iff_eq,
      decide_eq_true_eq]
    tauto
  rw [found, Option.map_eq_some_iff]
  simp only [List.find?_range_eq_some, List.mem_range]
  constructor
  · rintro ⟨i, ⟨here, bound, before⟩, rfl⟩
    refine ⟨i, ⟨(test i bound).1 here, fun j less matches' => ?_⟩, rfl⟩
    have not := before j less
    rw [(test j (less.trans bound)).2 matches'] at not
    exact Bool.noConfusion not
  · rintro ⟨i, ⟨here, before⟩, rfl⟩
    have bound : i < branchFactor := here.1.1.1
    refine ⟨i, ⟨(test i bound).2 here, bound, fun j less => ?_⟩, rfl⟩
    have not := (test j (less.trans bound)).not.2 (before j less)
    rw [Bool.not_eq_true] at not
    rw [not]
    rfl

omit [LinearOrder Key] in
theorem exists_first {i : ℕ} (found : leaf.Match branchFactor key k i) : ∃ j, leaf.First branchFactor key k j := by
  classical
  exact ⟨Nat.find ⟨i, found⟩, Nat.find_spec ⟨i, found⟩, fun j less => Nat.find_min ⟨i, found⟩ less⟩

omit [LinearOrder Key] [KeyBytes Key] in
theorem last_unique {i j : ℕ} (one : leaf.Last branchFactor key k i) (two : leaf.Last branchFactor key k j) : i = j :=
  le_antisymm (two.2 i one.1) (one.2 j two.1)

theorem selected_congr {other : GlobalAddress → Key}
    (same : ∀ i, leaf.Live branchFactor i → key (leaf.kvBlocks i).getAddr = other (leaf.kvBlocks i).getAddr) :
    leaf.selected branchFactor key k = leaf.selected branchFactor other k := by
  have slots : ∀ i, leaf.Match branchFactor key k i ↔ leaf.Match branchFactor other k i := by
    intro i
    simp only [LeafNode.Match, LeafNode.Slot]
    constructor
    · rintro ⟨⟨live, eq⟩, fp⟩
      exact ⟨⟨live, (same i live).symm.trans eq⟩, fp⟩
    · rintro ⟨⟨live, eq⟩, fp⟩
      exact ⟨⟨live, (same i live).trans eq⟩, fp⟩
  apply Option.ext
  intro b
  rw [selected_eq_some, selected_eq_some]
  simp only [LeafNode.First, slots]

/-! ## The ordered map keeps the last slot -/

omit [KeyBytes Key] in
theorem entry_last (reads : leaf.lockedBy branchFactor locked) {e : Key × KVBlock} :
    e ∈ OrderedMap.ofList (splitBindings branchFactor key locked) ↔
      ∃ j, leaf.Last branchFactor key e.1 j ∧ e.2 = (leaf.kvBlocks j).setLocked true := by
  have increasing : (takenIndices branchFactor locked).Pairwise (· < ·) := List.pairwise_lt_range.sublist List.filter_sublist
  have binding : ∀ i, leaf.Live branchFactor i → (key (locked.kvBlocks i).getAddr, locked.kvBlocks i) =
      (key (leaf.kvBlocks i).getAddr, (leaf.kvBlocks i).setLocked true) := by
    intro i live
    rw [(reads.2 i live.1).1, KVBlock.getAddr_setLocked]
  rw [OrderedMap.mem_ofList_iff]
  constructor
  · rintro ⟨before, after, eq, others⟩
    obtain ⟨low, high, split, rfl, tail⟩ := List.map_eq_append_iff.1 eq
    obtain ⟨j, later, rfl, rfl, rfl⟩ := List.map_eq_cons_iff.1 tail
    have live : leaf.Live branchFactor j := (mem_takenIndices reads).1 (by rw [split]; simp)
    rw [binding j live] at others ⊢
    refine ⟨j, ⟨⟨live, rfl⟩, fun i slot => ?_⟩, rfl⟩
    have taken := (mem_takenIndices reads).2 slot.1
    rw [split, List.mem_append, List.mem_cons] at taken
    rw [split] at increasing
    rcases taken with below | rfl | above
    · exact le_of_lt ((List.pairwise_append.1 increasing).2.2 i below j List.mem_cons_self)
    · exact le_refl i
    · refine absurd ?_ (others _ (List.mem_map_of_mem above))
      rw [binding i slot.1]
      exact slot.2
  · obtain ⟨k, b⟩ := e
    rintro ⟨j, ⟨⟨live, rfl⟩, last⟩, rfl⟩
    obtain ⟨low, later, split⟩ := List.append_of_mem ((mem_takenIndices reads).2 live)
    refine ⟨low.map fun i => (key (locked.kvBlocks i).getAddr, locked.kvBlocks i),
      later.map fun i => (key (locked.kvBlocks i).getAddr, locked.kvBlocks i), ?_, ?_⟩
    · rw [splitBindings, split, List.map_append, List.map_cons, binding j live]
    · intro x inside
      obtain ⟨i, above, rfl⟩ := List.mem_map.1 inside
      have alive : leaf.Live branchFactor i := (mem_takenIndices reads).1 (by rw [split]; simp [above])
      rw [split] at increasing
      have less := (List.pairwise_cons.1 (List.pairwise_append.1 increasing).2.1).1 i above
      intro same
      rw [binding i alive] at same
      exact absurd (last i ⟨alive, same⟩) (not_le.2 less)

theorem Side.selected_eq_some {kept : List (Key × KVBlock)} {side : Key → Prop} (holds : Side branchFactor key locked half kept side)
    (reads : leaf.lockedBy branchFactor locked) (here : side k) {b : GlobalAddress} :
    half.selected branchFactor key k = some b ↔
      ∃ j, leaf.Last branchFactor key k j ∧ (leaf.kvBlocks j).getFingerprint = .ofKey k ∧ (leaf.kvBlocks j).getAddr = b := by
  -- in a half a reader takes the last slot of the key, if its fingerprint is right
  have inside : ∀ e ∈ kept, e ∈ OrderedMap.ofList (splitBindings branchFactor key locked) := fun e there =>
    ((holds.part e).1 there).1
  rw [Faunus.selected_eq_some]
  constructor
  · rintro ⟨i, ⟨⟨⟨live, eq⟩, fp⟩, -⟩, rfl⟩
    obtain ⟨e, found⟩ := holds.entry live
    obtain ⟨-, key, -⟩ := holds.origin reads inside found
    obtain ⟨j, last, block⟩ := (entry_last reads).1 (inside e (List.mem_of_getElem? found))
    have same : half.kvBlocks i = leaf.kvBlocks j := by
      rw [holds.taken i e found, block, unlock_slot reads last.1.1.1]
    rw [key, eq] at last
    exact ⟨j, last, same ▸ fp, by rw [same]⟩
  · rintro ⟨j, last, fp, rfl⟩
    have there : (k, (leaf.kvBlocks j).setLocked true) ∈ kept := (holds.part _).2 ⟨(entry_last reads).2 ⟨j, last, rfl⟩, here⟩
    obtain ⟨i, found⟩ := List.mem_iff_getElem?.1 there
    obtain ⟨live, key, -⟩ := holds.origin reads inside found
    have same : half.kvBlocks i = leaf.kvBlocks j := by
      rw [holds.taken i _ found, unlock_slot reads last.1.1.1]
    refine ⟨i, ⟨⟨⟨live, key.symm⟩, by rw [same]; exact fp⟩, ?_⟩, by rw [same]⟩
    rintro i' less ⟨⟨live', eq⟩, -⟩
    obtain ⟨e, found'⟩ := holds.entry live'
    have low := holds.sorted.lt less found' found
    rw [(holds.origin reads inside found').2.1, eq] at low
    exact lt_irrefl _ low

theorem Side.selected_now {kept : List (Key × KVBlock)} {side : Key → Prop} {now : GlobalAddress → Key}
    (holds : Side branchFactor key locked half kept side) (reads : leaf.lockedBy branchFactor locked)
    (keys : ∀ i, leaf.Live branchFactor i → now (leaf.kvBlocks i).getAddr = key (leaf.kvBlocks i).getAddr) :
    half.selected branchFactor now k = half.selected branchFactor key k := by
  apply selected_congr
  intro i live
  obtain ⟨e, found⟩ := holds.entry live
  obtain ⟨-, -, j, alive, same⟩ := holds.origin reads (fun e there => ((holds.part e).1 there).1) found
  rw [same]
  exact keys j alive

theorem Side.selected_eq_iff {kept : List (Key × KVBlock)} {side : Key → Prop} (holds : Side branchFactor key locked half kept side)
    (reads : leaf.lockedBy branchFactor locked) (here : side k) :
    half.selected branchFactor key k = leaf.selected branchFactor key k ↔ leaf.Agrees branchFactor key k := by
  -- the halves of a split show readers what they saw before exactly when the two rules agree
  have after := fun b => holds.selected_eq_some reads here (b := b)
  constructor
  · intro same i j first last
    have before := Faunus.selected_eq_some.2 ⟨i, first, rfl⟩
    obtain ⟨j', last', fp, eq⟩ := (after _).1 (same.trans before)
    rw [last_unique last last']
    exact ⟨fp, eq⟩
  · intro agrees
    apply Option.ext
    intro b
    rw [after b, Faunus.selected_eq_some]
    constructor
    · rintro ⟨j, last, fp, rfl⟩
      obtain ⟨i, first⟩ := exists_first ⟨last.1, fp⟩
      exact ⟨i, first, (agrees i j first last).2.symm⟩
    · rintro ⟨i, first, rfl⟩
      obtain ⟨e, there, eq⟩ := (entries_keys reads).1 (LeafNode.mem_keys.2 ⟨i, first.1.1.1, first.1.1.2⟩)
      obtain ⟨j, last, -⟩ := (entry_last reads).1 there
      rw [eq] at last
      obtain ⟨fp, same⟩ := agrees i j first last
      exact ⟨j, last, fp, same⟩

end

/-! ## What a reader does in a leaf -/

/-- The items of a leaf that was read stay as they are. -/
def KeepsItems (branchFactor : ℕ) (leaf : LeafNode Key) (s s' : State Key Value) : Prop :=
  ∀ i, leaf.Live branchFactor i → s'.memory.items (leaf.kvBlocks i).getAddr = s.memory.items (leaf.kvBlocks i).getAddr

section
variable [LinearOrder Key] [KeyBytes Key] {cfg : Config} {t : Thread} {a : GlobalAddress} {leaf : LeafNode Key} {k : Key}

abbrev Looks {A : Type} (cfg : Config) (t : Thread) (leaf : LeafNode Key) (post : A → Prop) (p : Index Key Value A)
    (s : State Key Value) : Prop :=
  p.Total (State.exec cfg.usable) t (KeepsItems cfg.branchFactor leaf) (fun _ => True) (fun r _ => post r) s

omit [LinearOrder Key] [KeyBytes Key] in
theorem looks_readCandidates (start : State Key Value) {s : State Key Value} (l : List (ℕ × GlobalAddress))
    (keeps : KeepsItems cfg.branchFactor leaf start s)
    (live : ∀ c ∈ l, ∃ i, leaf.Live cfg.branchFactor i ∧ c.2 = (leaf.kvBlocks i).getAddr) :
    Looks cfg t leaf (fun candidates => candidates =
        l.map fun c => (c.1, (start.memory.items c.2).key, some (start.memory.items c.2).value))
      (readCandidates true l : Index Key Value _) s := by
  induction l generalizing s with
  | nil => rfl
  | cons c rest ih =>
    obtain ⟨j, b⟩ := c
    obtain ⟨i, here, eq⟩ := live _ List.mem_cons_self
    refine total_perform (r := s.memory.items b) (fun _ => rfl) 0 fun s' moved => ?_
    have item : s.memory.items b = start.memory.items b := by
      rw [show b = _ from eq]
      exact keeps i here
    have still : KeepsItems cfg.branchFactor leaf start s' := fun i live => (moved i live).trans (keeps i live)
    change Looks cfg t leaf _ (readCandidates true rest >>= fun others =>
      pure ((j, (s.memory.items b).key, some (s.memory.items b).value) :: others)) s'
    refine total_bind (total_mono (ih still fun c inside => live c (List.mem_cons_of_mem _ inside)) ?_)
    rintro others s'' rfl
    rw [item]
    rfl

omit [LinearOrder Key] [KeyBytes Key] in
theorem looks_tryDeleteKvblock {A : Type} {i : ℕ} {b : KVBlock} {f : Bool → Index Key Value A} {post : A → Prop}
    (next : ∀ ok s, Looks cfg t leaf post (f ok) s) (s : State Key Value) :
    Looks cfg t leaf post (tryDeleteKvblock cfg a i b >>= f) s := by
  refine ⟨.inr trivial, fun _ fp _ _ _ _ => ⟨.inr trivial, fun _ addr _ _ _ _ => ⟨.inr trivial, fun _ found _ _ s _ => ?_⟩⟩⟩
  change Looks cfg t leaf post ((if _ then _ else _) >>= f) s
  split_ifs
  · exact ⟨.inr trivial, fun _ _ _ _ s _ => next true s⟩
  · exact next false s

omit [KeyBytes Key] in
theorem looks_removeDupes (candidates : List (Candidate Key Value)) (found : Option (Option Value)) (s : State Key Value) :
    Looks cfg t leaf (fun r => r = found.orElse fun _ => (candidates.find? fun c => decide (c.2.1 = k)).map fun c => c.2.2)
      (removeDupes cfg k a leaf candidates found : Index Key Value _) s := by
  induction candidates generalizing found s with
  | nil =>
    change found = _
    cases found <;> rfl
  | cons c rest ih =>
    obtain ⟨i, key, value⟩ := c
    unfold removeDupes
    by_cases same : key = k
    · rw [if_pos same]
      cases found with
      | none => exact total_mono (ih (some value) s) fun r _ eq => by simpa [same] using eq
      | some v =>
        exact looks_tryDeleteKvblock (fun _ s => total_mono (ih (some v) s) fun r _ eq => by simpa using eq) s
    · rw [if_neg same]
      exact total_mono (ih found s) fun r _ eq => by simpa [same] using eq

/-- A reader gets the value of the selected item. -/
theorem looks_handleLocalRemoveDupes (covers : leaf.header.covers k) (s : State Key Value) :
    Looks cfg t leaf (fun r => r = (true, (leaf.selected cfg.branchFactor (fun b => (s.memory.items b).key) k).map fun b =>
        some (s.memory.items b).value))
      (handleLocalRemoveDupes cfg k a leaf false true) s := by
  unfold handleLocalRemoveDupes getCandidateKvs
  rw [if_neg (not_not.2 covers), if_neg (by simp)]
  simp only [Bool.true_eq_false, and_false, if_false, Bool.false_eq_true, false_and, bind_assoc]
  refine total_bind (total_mono (looks_readCandidates s _ (fun _ _ => rfl) ?_) ?_)
  · intro c inside
    obtain ⟨i, collides, rfl⟩ := List.mem_map.1 inside
    simp only [List.mem_filter, List.mem_range, Bool.and_eq_true, Bool.not_eq_true'] at collides
    exact ⟨i, ⟨collides.1, collides.2.1⟩, rfl⟩
  · rintro candidates s' rfl
    rw [pure_bind]
    dsimp only
    split_ifs with empty
    · rw [List.isEmpty_iff, List.map_eq_nil_iff] at empty
      change (true, none) = _
      rw [LeafNode.selected, empty]
      rfl
    · refine total_bind (total_mono (looks_removeDupes _ none s') ?_)
      rintro found s'' rfl
      change (true, _) = _
      simp only [LeafNode.selected, List.find?_map, Option.map_map, Option.orElse_none]
      rfl

/-! ## After a split -/

def Takes (s : State Key Value) (a new : GlobalAddress) (k : Key) (half : LeafNode Key) : Prop :=
  (s.memory.nodes a = some (.leaf half) ∨ s.memory.nodes new = some (.leaf half)) ∧ half.header.covers k

omit [KeyBytes Key] in
theorem takes_unique {s : State Key Value} {new : GlobalAddress} {left right half : LeafNode Key} {middleKey : Key}
    (one : s.memory.nodes a = some (.leaf left)) (two : s.memory.nodes new = some (.leaf right))
    (lower : left.header.fence = (leaf.header.fence.1, middleKey)) (upper : right.header.fence = (middleKey, leaf.header.fence.2))
    (covers : leaf.header.covers k) :
    Takes s a new k half ↔ half = if k < middleKey then left else right := by
  have low : left.header.covers k ↔ k < middleKey := by
    rw [Header.covers, lower]
    exact ⟨fun inside => inside.2, fun below => ⟨covers.1, below⟩⟩
  have high : right.header.covers k ↔ ¬ k < middleKey := by
    rw [Header.covers, upper, not_lt]
    exact ⟨fun inside => inside.1, fun above => ⟨above, covers.2⟩⟩
  constructor
  · rintro ⟨there | there, inside⟩
    · obtain rfl : left = half := by simpa using one.symm.trans there
      rw [if_pos (low.1 inside)]
    · obtain rfl : right = half := by simpa using two.symm.trans there
      rw [if_neg (high.1 inside)]
  · rintro rfl
    split_ifs with below
    · exact ⟨.inl one, low.2 below⟩
    · exact ⟨.inr two, high.2 below⟩

/-- A split shows a reader what it saw before if and only if the first slot it takes and the last slot of its key agree. -/
theorem split_keeps_selection [BoundedOrder Key] {s : State Key Value} (large : 2 ≤ cfg.branchFactor)
    (there : s.memory.nodes a = some (.leaf leaf)) (issued : a ∈ s.memory.nodesIssued) (unlocked : (Node.leaf leaf).Unlocked cfg) :
    (splitLeaf cfg a : Index Key Value Bool) = writeBack cfg a >>= propagate cfg a ∧
      (writeBack cfg a).Total (State.exec cfg.usable) t (Spares cfg.branchFactor t a leaf s) allocates
        (fun written s' => ∀ middleKey new, written = some (middleKey, new) → ∀ k, leaf.header.covers k →
          ∃ half, (∀ x, Takes s' a new k x ↔ x = half) ∧
            (half.selected cfg.branchFactor (fun b => (s'.memory.items b).key) k =
                leaf.selected cfg.branchFactor (fun b => (s.memory.items b).key) k ↔
              leaf.Agrees cfg.branchFactor (fun b => (s.memory.items b).key) k)) s := by
  refine ⟨splitLeaf_eq cfg a, total_mono (runs_writeBack large there issued unlocked) ?_⟩
  intro written s' back
  cases back with
  | kept few stage => exact fun _ _ none => absurd none (by simp)
  | split many stage wrote distributes middle =>
    intro middleKey new same k covers
    cases same
    have reads := LeafNode.lockedBy_locked unlocked.2
    have lower := distributes.left_side reads middle
    have upper := distributes.right_side reads middle
    refine ⟨_, fun x => takes_unique stage.node wrote (by rw [distributes.leftHeader, reads.1])
      (by rw [distributes.rightHeader, reads.1]; rfl) covers, ?_⟩
    split_ifs with below
    · rw [lower.selected_now reads stage.keys]
      exact lower.selected_eq_iff reads below
    · rw [upper.selected_now reads stage.keys]
      exact upper.selected_eq_iff reads (not_lt.1 below)

end

/-- A leaf of four slots with two items of key 1, at addresses 1 and 4. -/
def twiceKey : LeafNode (Fin 256) where
  header := .zero (⊥, ⊤)
  kvBlocks i := .make (.ofKey (if i = 0 ∨ i = 3 then firstKey else if i = 1 then secondKey else ⊥))
    (.ofAddress (BitVec.ofNat 64 (i + 1))) false false

def twiceKeyState : State (Fin 256) ℕ where
  memory :=
    { smallMemory with
      nodes := Function.update (fun _ => none) ⟨0⟩ (some (.leaf twiceKey))
      items := fun b => if b.raw = 1 ∨ b.raw = 4 then ⟨firstKey, 0⟩ else if b.raw = 2 then ⟨secondKey, 0⟩ else ⟨⊥, 0⟩ }
  history := []

theorem split_keeps_selection_twiceKey :
    (writeBack smallConfig ⟨0⟩).Total (State.exec smallConfig.usable) ⟨0, 0⟩ (Spares 4 ⟨0, 0⟩ ⟨0⟩ twiceKey twiceKeyState) allocates
      (fun written s => ∀ middleKey new, written = some (middleKey, new) → ∀ k, twiceKey.header.covers k →
        ∃ half, (∀ x, Takes s ⟨0⟩ new k x ↔ x = half) ∧
          (half.selected 4 (fun b => (s.memory.items b).key) k =
              twiceKey.selected 4 (fun b => (twiceKeyState.memory.items b).key) k ↔
            twiceKey.Agrees 4 (fun b => (twiceKeyState.memory.items b).key) k)) twiceKeyState :=
  (split_keeps_selection (by decide) rfl (List.mem_singleton_self _) ⟨rfl, by decide⟩).2

/-- The split of that leaf, with the new leaf at address 5. -/
def splitTwice : Option (Fin 256 × GlobalAddress) × State (Fin 256) ℕ :=
  ((writeBack smallConfig ⟨0⟩).run (State.exec smallConfig.usable) ⟨0, 0⟩ (List.replicate 26 5) twiceKeyState).getD
    (none, twiceKeyState)

theorem split_changes_selection :
    ¬ (writeBack smallConfig ⟨0⟩).Total (State.exec smallConfig.usable) ⟨0, 0⟩ (Spares 4 ⟨0, 0⟩ ⟨0⟩ twiceKey twiceKeyState) allocates
      (fun written s => ∀ middleKey new, written = some (middleKey, new) → ∀ k, twiceKey.header.covers k →
        ∀ half, Takes s ⟨0⟩ new k half →
          half.selected 4 (fun b => (s.memory.items b).key) k =
            twiceKey.selected 4 (fun b => (twiceKeyState.memory.items b).key) k) twiceKeyState := by
  intro total
  have ran : (writeBack smallConfig ⟨0⟩).run (State.exec smallConfig.usable) ⟨0, 0⟩ (List.replicate 26 5) twiceKeyState =
      some (splitTwice.1, splitTwice.2) := by rfl
  have same := total_run (fun _ => ⟨rfl, fun _ _ _ => rfl, fun _ _ => rfl, fun _ old => old, rfl⟩) total ran firstKey ⟨5⟩
    (by rfl) firstKey
    (by decide) ((splitTwice.2.memory.nodes ⟨5⟩).getD (.leaf twiceKey)).asLeaf ⟨.inr (by rfl), by decide⟩
  exact absurd same (by decide)

end Faunus
