import Faunus.Index.Alone
import Faunus.Index.Probing

/-! The calls of the only client.

A slot whose item has the key carries the fingerprint of the key, so the candidates of a
leaf have it; no key has two slots, so there is nothing to remove. An insert takes the
slot of its key or a free one and leaves a free slot in every leaf.
-/

set_option autoImplicit false

namespace Faunus

open Interleaving Tiling

variable {Key Value A : Type} [LinearOrder Key] [KeyBytes Key]

/-! ## Candidates -/

section
variable {cfg : Config} {t : Thread} {m : Memory Key Value} {a : GlobalAddress} {leaf : LeafNode Key} {key : Key} {fromRead : Bool}
  {post : A → Memory Key Value → Prop}

omit [LinearOrder Key] [KeyBytes Key] in
/-- What is read of a slot with the fingerprint. -/
def Memory.candidate (m : Memory Key Value) (fromRead : Bool) (e : ℕ × GlobalAddress) : Candidate Key Value :=
  (e.1, (m.items e.2).key, if fromRead then some (m.items e.2).value else none)

omit [LinearOrder Key] [KeyBytes Key] in
theorem alone_readCandidates {l : List (ℕ × GlobalAddress)} {f : List (Candidate Key Value) → Index Key Value A}
    (next : Alone cfg t post (f (l.map (m.candidate fromRead))) m) : Alone cfg t post (readCandidates fromRead l >>= f) m := by
  induction l generalizing f with
  | nil => exact next
  | cons e rest ih =>
    rw [readCandidates]
    cases fromRead with
    | true =>
      rw [if_pos rfl]
      simp only [bind_assoc, pure_bind]
      exact alone_readItem (ih next)
    | false =>
      rw [if_neg Bool.false_ne_true]
      simp only [bind_assoc, pure_bind]
      exact alone_readKey (ih next)

/-- The slots whose fingerprint is that of the key. -/
def LeafNode.suspects (cfg : Config) (leaf : LeafNode Key) (key : Key) : List (ℕ × GlobalAddress) :=
  (getFingerprintCollisions cfg.branchFactor leaf (.ofKey key)).1

omit [LinearOrder Key] in
theorem LeafNode.mem_suspects {e : ℕ × GlobalAddress} :
    e ∈ leaf.suspects cfg key ↔ leaf.Live cfg.branchFactor e.1 ∧ (leaf.kvBlocks e.1).getFingerprint = .ofKey key ∧
      e.2 = (leaf.kvBlocks e.1).getAddr := by
  simp only [suspects, getFingerprintCollisions, List.mem_map, List.mem_filter, List.mem_range, Bool.and_eq_true,
    Bool.not_eq_true', beq_iff_eq, LeafNode.Live]
  constructor
  · rintro ⟨i, ⟨bound, taken, fp⟩, rfl⟩
    exact ⟨⟨bound, taken⟩, fp, rfl⟩
  · rintro ⟨⟨bound, taken⟩, fp, addr⟩
    exact ⟨e.1, ⟨bound, taken, fp⟩, by rw [← addr]⟩

omit [LinearOrder Key] in
theorem LeafNode.suspects_nodup : ((leaf.suspects cfg key).map Prod.fst).Nodup := by
  have slots : (leaf.suspects cfg key).map Prod.fst = (List.range cfg.branchFactor).filter fun i =>
      !(leaf.kvBlocks i).isFree && (leaf.kvBlocks i).getFingerprint == .ofKey key := by
    simp only [suspects, getFingerprintCollisions, List.map_map]
    exact List.map_id _
  rw [slots]
  exact List.nodup_range.filter _

theorem alone_getCandidateKvs {fromInsert : Bool} {f : Bool × List (Candidate Key Value) → Index Key Value A}
    (shelved : Shelved cfg m leaf)
    (next : Alone cfg t post
      (f (true, if fromInsert ∧ (leaf.suspects cfg key).length = 1 then [] else (leaf.suspects cfg key).map
    (m.candidate fromRead))) m) :
    Alone cfg t post (getCandidateKvs cfg leaf (.ofKey key) fromInsert fromRead >>= f) m := by
  -- the candidates of a leaf no slot of which is locked
  have unlocked : (getFingerprintCollisions cfg.branchFactor leaf (.ofKey key)).2 = false := by
    simp only [getFingerprintCollisions, List.any_eq_false, List.mem_range]
    intro i bound
    rw [shelved.unlocked i bound]
    exact Bool.false_ne_true
  unfold getCandidateKvs
  simp only [unlocked, Bool.false_eq_true, false_and, if_false]
  by_cases single : fromInsert = true ∧ (leaf.suspects cfg key).length = 1
  · rw [if_pos single] at next
    rw [if_pos (show fromInsert = true ∧ (getFingerprintCollisions cfg.branchFactor leaf (.ofKey key)).1.length = 1 from single)]
    exact next
  · rw [if_neg single] at next
    rw [if_neg (show ¬ (fromInsert = true ∧ (getFingerprintCollisions cfg.branchFactor leaf (.ofKey key)).1.length = 1) from
      single), bind_assoc]
    exact alone_readCandidates next

def Memory.hit (m : Memory Key Value) (cfg : Config) (leaf : LeafNode Key) (key : Key) (fromRead : Bool) :
    Option (Candidate Key Value) :=
  ((leaf.suspects cfg key).map (m.candidate fromRead)).find? fun c => decide (c.2.1 = key)

theorem hit_eq_some {c : Candidate Key Value} (found : m.hit cfg leaf key fromRead = some c) :
    leaf.Live cfg.branchFactor c.1 ∧ m.keyAt leaf c.1 = key ∧ c = m.candidate fromRead (c.1, (leaf.kvBlocks c.1).getAddr) := by
  have same : c.2.1 = key := by simpa using List.find?_some found
  obtain ⟨e, suspect, rfl⟩ := List.mem_map.1 (List.mem_of_find?_eq_some found)
  obtain ⟨live, -, addr⟩ := LeafNode.mem_suspects.1 suspect
  refine ⟨live, ?_, ?_⟩
  · rw [← same]
    exact congrArg (fun x => (m.items x).key) addr.symm
  · rw [show (m.candidate fromRead e).1 = e.1 from rfl, ← addr]

theorem hit_eq_none (shelved : Shelved cfg m leaf) (found : m.hit cfg leaf key fromRead = none) {i : ℕ}
    (live : leaf.Live cfg.branchFactor i) :
    m.keyAt leaf i ≠ key := by
  intro same
  have suspect : (i, (leaf.kvBlocks i).getAddr) ∈ leaf.suspects cfg key := by
    refine LeafNode.mem_suspects.2 ⟨live, ?_, rfl⟩
    rw [shelved.fingerprint i live, same]
  have missed := List.find?_eq_none.1 found _ (List.mem_map_of_mem suspect)
  exact missed (decide_eq_true same)

/-! ## No duplicates -/

theorem Shelved.candidates_apart (shelved : Shelved cfg m leaf) :
    ((leaf.suspects cfg key).map (m.candidate fromRead)).Pairwise fun c d => c.2.1 = key → d.2.1 ≠ key := by
  rw [List.pairwise_map]
  have distinct : (leaf.suspects cfg key).Pairwise fun e e' => e.1 ≠ e'.1 := List.pairwise_map.1 LeafNode.suspects_nodup
  refine distinct.imp_of_mem fun one two different here there => different ?_
  obtain ⟨live, -, addr⟩ := LeafNode.mem_suspects.1 one
  obtain ⟨live', -, addr'⟩ := LeafNode.mem_suspects.1 two
  refine shelved.once _ _ live live' ?_
  rw [Memory.keyAt, Memory.keyAt, ← addr, ← addr']
  exact here.trans there.symm

omit [KeyBytes Key] in
theorem alone_removeDupes {l : List (Candidate Key Value)} {found : Option (Option Value)}
    {f : Option (Option Value) → Index Key Value A}
    (apart : l.Pairwise fun c d => c.2.1 = key → d.2.1 ≠ key) (first : found = none ∨ ∀ c ∈ l, c.2.1 ≠ key)
    (next : Alone cfg t post (f (found.or ((l.find? fun c => decide (c.2.1 = key)).map fun c => c.2.2))) m) :
    Alone cfg t post (removeDupes cfg key a leaf l found >>= f) m := by
  induction l generalizing found with
  | nil =>
    rw [removeDupes]
    simpa using next
  | cons c rest ih =>
    obtain ⟨i, k, v⟩ := c
    obtain ⟨others, apart⟩ := List.pairwise_cons.1 apart
    unfold removeDupes
    by_cases same : k = key
    · rw [if_pos same]
      rcases first with rfl | absent
      · refine ih apart (.inr fun c inside => others c inside same) ?_
        simpa [same] using next
      · exact absurd same (absent _ List.mem_cons_self)
    · rw [if_neg same]
      refine ih apart (first.imp id fun absent c inside => absent c (List.mem_cons_of_mem _ inside)) ?_
      simpa [same] using next

theorem alone_handleLocalRemoveDupes_read {f : Bool × Option (Option Value) → Index Key Value A} (shelved : Shelved cfg m leaf)
    (covers : leaf.header.covers key) (next : Alone cfg t post (f (true, (m.hit cfg leaf key true).map fun c => c.2.2)) m) :
    Alone cfg t post (handleLocalRemoveDupes cfg key a leaf false true >>= f) m := by
  unfold handleLocalRemoveDupes
  rw [if_neg (not_not.2 covers), if_neg (by simp), bind_assoc]
  refine alone_getCandidateKvs shelved ?_
  rw [if_neg (by simp)]
  dsimp only
  split_ifs with none
  · have missed : m.hit cfg leaf key true = .none := by rw [Memory.hit, List.isEmpty_iff.1 none]; rfl
    rw [missed] at next
    exact next
  · rw [bind_assoc]
    exact alone_removeDupes shelved.candidates_apart (.inl rfl) next

theorem alone_handleLocalRemoveDupes_insert {f : Bool × Option (Option Value) → Index Key Value A} (shelved : Shelved cfg m leaf)
    (covers : leaf.header.covers key) (unlocked : leaf.header.lock = 0) (next : ∀ r, Alone cfg t post (f r) m) :
    Alone cfg t post (handleLocalRemoveDupes cfg key a leaf true false >>= f) m := by
  unfold handleLocalRemoveDupes
  rw [if_neg (not_not.2 covers), if_neg (by simp [unlocked]), bind_assoc]
  refine alone_getCandidateKvs shelved ?_
  split_ifs with single
  · exact next _
  · dsimp only
    split_ifs with none
    · exact next _
    · rw [bind_assoc]
      exact alone_removeDupes shelved.candidates_apart (.inl rfl) (next _)

end

/-! ## Reading -/

variable [BoundedOrder Key]

section
variable {cfg : Config} {t : Thread} {m : Memory Key Value} {top : ℕ} {a : GlobalAddress} {leaf : LeafNode Key} {key : Key}
  {value : Value} {map : Key → Option Value} {post : A → Memory Key Value → Prop}

omit [KeyBytes Key] in
theorem Standing.leaf_of_level {pending : Set GlobalAddress} {n : Node Key} (standing : Standing cfg.branchFactor m pending top)
    (there : m.nodes a = some n) (low : n.header.level = 0) : ∃ x, n = .leaf x := by
  cases n with
  | leaf x => exact ⟨x, rfl⟩
  | internal x => exact absurd low (standing.nodes a _ there).2.1

theorem Settled.findLeaf {f : FindNodeResult × GlobalAddress → Index Key Value A} (settled : Settled cfg t m top)
    (short : top < cfg.loopBound) (below : key < ⊤)
    (next : ∀ a leaf, m.nodes a = some (.leaf leaf) → leaf.header.covers key → Alone cfg t post (f (.found, a)) m) :
    Alone cfg t post (findNode cfg key 0 false >>= f) m := by
  refine alone_findNode settled.stocked.standing (by simp) settled.opened (Nat.zero_le top) short below
    fun a n there low covers => ?_
  obtain ⟨leaf, rfl⟩ := settled.stocked.standing.leaf_of_level there low
  exact next a leaf there covers

theorem alone_read (settled : Settled cfg t m top) (represents : Represents cfg m map) (tries : 0 < cfg.maxAttempts)
    (short : top < cfg.loopBound) (below : key < ⊤) :
    Alone cfg t (fun outcome m' => outcome = ⟨(map key).isSome, map key⟩ ∧ m' = m) (read cfg key) m := by
  obtain ⟨attempts, eq⟩ : ∃ k, cfg.maxAttempts = k + 1 := ⟨cfg.maxAttempts - 1, by omega⟩
  rw [read, eq]
  unfold readLoop
  refine settled.findLeaf short below fun a leaf there covers => alone_readNode there ?_
  have lookup := fun v => settled.stocked.lookup represents there covers (v := v)
  have shelved := settled.stocked.shelved a leaf there
  refine alone_handleLocalRemoveDupes_read shelved covers ?_
  dsimp only [Node.asLeaf]
  rw [if_pos rfl]
  refine ⟨?_, rfl⟩
  cases found : m.hit cfg leaf key true with
  | none =>
    have absent : map key = none := by
      rw [Option.eq_none_iff_forall_ne_some]
      intro v stored
      obtain ⟨i, live, item⟩ := (lookup v).1 stored
      refine hit_eq_none shelved found live ?_
      rw [Memory.keyAt, item]
    rw [absent]
    rfl
  | some c =>
    obtain ⟨live, same, is⟩ := hit_eq_some found
    have stored : map key = some (m.items (leaf.kvBlocks c.1).getAddr).value := by
      refine (lookup _).2 ⟨c.1, live, ?_⟩
      rw [← same]
      rfl
    rw [is, stored]
    rfl

/-! ## Inserting -/

omit [LinearOrder Key] [KeyBytes Key] [BoundedOrder Key] in
/-- A build that splits inline and leaves room when it does. -/
structure Config.Inline (cfg : Config) : Prop where
  power : ∃ k, 2 ≤ k ∧ k ≤ 64 ∧ cfg.branchFactor = 2 ^ k
  threshold : cfg.splitThreshold < cfg.branchFactor
  inline : cfg.maintenance = false
  tries : 0 < cfg.maxAttempts
  fits : ∀ a, cfg.usable a = true → a.Fits

theorem Config.Inline.four (inline : cfg.Inline) : 4 ≤ cfg.branchFactor := by
  obtain ⟨k, two, -, eq⟩ := inline.power
  rw [eq]
  exact Nat.pow_le_pow_right (n := 2) (by decide) two

omit [LinearOrder Key] [KeyBytes Key] [BoundedOrder Key] in
theorem Config.Inline.probes (inline : cfg.Inline) (unlocked : ∀ i < cfg.branchFactor, (leaf.kvBlocks i).isLocked = false)
    (room : ∃ i < cfg.branchFactor, (leaf.kvBlocks i).isFree = true) (seed : BitVec 64) :
    ∃ i < cfg.branchFactor, probe cfg.branchFactor leaf seed = .free i ∧ (leaf.kvBlocks i).isFree = true := by
  obtain ⟨k, -, few, eq⟩ := inline.power
  have visits : Visits cfg.branchFactor seed := by
    rw [eq]
    exact visits_two_pow few
  exact (selects_of_visits visits leaf unlocked).2 room

def Inserted (cfg : Config) (t : Thread) (top : ℕ) (map : Key → Option Value) (key : Key) (value : Value)
    (m : Memory Key Value) : Prop :=
  (∃ top' ≤ top + 1, Settled cfg t m top') ∧ Represents cfg m (Function.update map key (some value))

omit [LinearOrder Key] [KeyBytes Key] [BoundedOrder Key] in
theorem open_setBlock {i : ℕ} {block : KVBlock} (opened : m.Open 0) (there : m.nodes a = some (.leaf leaf)) :
    (m.setNode a (.leaf (leaf.setBlock i block))).Open 0 := by
  intro b n found low
  rcases Memory.setNode_cases found with ⟨rfl, rfl⟩ | ⟨-, old⟩
  · exact opened b (.leaf leaf) there (Nat.zero_le _)
  · exact opened b n old low

section
variable {x : GlobalAddress} {i : ℕ} (settled : Settled cfg t m top) (represents : Represents cfg m map)
  (there : m.nodes a = some (.leaf leaf)) (covers : leaf.header.covers key) (spare : m.Spare cfg x) (fits : x.Fits)
  (item : m.items x = ⟨key, value⟩) (bound : i < cfg.branchFactor)
    (only : ∀ j, leaf.Live cfg.branchFactor j → (j = i ↔ m.keyAt leaf j = key))
include settled represents there covers spare fits item bound only

theorem Settled.put :
    Stocked cfg t (m.setNode a (.leaf (leaf.setBlock i (.make (.ofKey key) x false false)))) ∅ top ∧
      Represents cfg (m.setNode a (.leaf (leaf.setBlock i (.make (.ofKey key) x false false))))
        (Function.update map key (some value)) ∧
      ∀ y, (m.setNode a (.leaf (leaf.setBlock i (.make (.ofKey key) x false false)))).Refers cfg y ↔
        y = x ∨ m.Refers cfg y ∧ (m.items y).key ≠ key := by
  obtain ⟨block, is⟩ : ∃ b, b = KVBlock.make (.ofKey key) x false false := ⟨_, rfl⟩
  have addr : block.getAddr = x := by rw [is, KVBlock.getAddr_make _ _ fits]
  have taken : block.isFree = false := by rw [is, KVBlock.isFree_make]
  have unlocked : block.isLocked = false := by rw [is, KVBlock.isLocked_make]
  have fingerprint : block.getFingerprint = .ofKey key := by rw [is, KVBlock.getFingerprint_make _ _ (Fingerprint.byte_ofKey key)]
  rw [← is]
  subst addr
  exact ⟨settled.stocked.put there covers bound taken only item spare unlocked fingerprint,
    settled.stocked.put_represents there covers bound taken only item represents,
    fun y => settled.stocked.refers_put there covers bound taken only⟩

omit only in
theorem alone_tryUpdateKvblock {f : Bool → Index Key Value A} (short : top < cfg.loopBound) (live : leaf.Live cfg.branchFactor i)
    (same : m.keyAt leaf i = key) (next : ∀ m', Inserted cfg t top map key value m' → Alone cfg t post (f true) m') :
    Alone cfg t post (tryUpdateKvblock cfg a i (leaf.kvBlocks i) (.make (.ofKey key) x false false) >>= f) m := by
  -- the slot that has the key gets the new block, and the old item is given back
  have shelved := settled.stocked.shelved a leaf there
  have only : ∀ j, leaf.Live cfg.branchFactor j → (j = i ↔ m.keyAt leaf j = key) := by
    intro j live'
    constructor
    · rintro rfl
      exact same
    · exact fun same' => shelved.once j i live' live (same'.trans same.symm)
  obtain ⟨stocked, represents', refers⟩ := settled.put represents there covers spare fits item bound only
  have old : m.Refers cfg (leaf.kvBlocks i).getAddr := ⟨a, leaf, i, there, live, rfl⟩
  have spare' : (m.setNode a (.leaf (leaf.setBlock i (.make (.ofKey key) x false false)))).Spare cfg (leaf.kvBlocks i).getAddr := by
    refine ⟨settled.stocked.inUse old, fun still => ?_⟩
    rcases (refers _).1 still with isNew | ⟨-, other⟩
    · exact spare.2 (isNew ▸ old)
    · exact other same
  obtain ⟨steps, eq⟩ : ∃ k, cfg.loopBound = k + 1 := ⟨cfg.loopBound - 1, by omega⟩
  rw [tryUpdateKvblock, eq]
  unfold tryUpdateLoop
  rw [if_pos ⟨rfl, live.2, shelved.unlocked i bound⟩, bind_assoc]
  refine alone_casBlock there ?_
  rw [if_pos rfl, bind_assoc]
  refine alone_freeItem
    (next _ ⟨⟨top, Nat.le_succ top, stocked.freeItem spare', open_setBlock settled.opened there, fun b leaf' found => ?_⟩, ?_⟩)
  · rcases Memory.setNode_cases found with ⟨rfl, eq⟩ | ⟨-, old⟩
    · obtain rfl := Node.leaf.inj eq
      obtain ⟨j, inside, free⟩ := settled.room b leaf there
      refine ⟨j, inside, ?_⟩
      have other : j ≠ i := by
        rintro rfl
        rw [live.2] at free
        cases free
      simpa [LeafNode.setBlock, other] using free
    · exact settled.room b leaf' old
  · exact represents'.congr rfl fun _ _ => rfl

end

theorem alone_finishInsert (inline : cfg.Inline) (short : top < cfg.loopBound) (stocked : Stocked cfg t m ∅ top) (opened : m.Open 0)
    (there : m.nodes a = some (.leaf leaf)) (covers : leaf.header.covers key)
    (room : ∀ b x, b ≠ a → m.nodes b = some (.leaf x) → ∃ i < cfg.branchFactor, (x.kvBlocks i).isFree = true)
    (represents : Represents cfg m map) :
    Alone cfg t (fun ok m' => ok = true ∧ (∃ top' ≤ top + 1, Settled cfg t m' top') ∧ Represents cfg m' map)
    (finishInsert cfg key a leaf) m := by
  -- a slot of the leaf was taken; the leaf is split when too few are left
  have shelved := stocked.shelved a leaf there
  unfold finishInsert
  split_ifs with full maintains
  · rw [inline.inline] at maintains
    cases maintains
  · refine total_bind (total_mono (alone_splitLeaf inline.four inline.tries short stocked opened there room represents) ?_)
    exact fun _ m' after => ⟨rfl, after⟩
  · refine alone_handleLocalRemoveDupes_insert shelved covers (opened a _ there (Nat.zero_le _)) fun _ =>
      ⟨rfl, ⟨top, Nat.le_succ top, stocked, opened, ?_⟩, represents⟩
    intro b x found
    by_cases here : b = a
    · subst here
      obtain rfl : leaf = x := Node.leaf.inj (Option.some.inj (there.symm.trans found))
      have threshold := inline.threshold
      refine shelved.room ?_
      rw [shelved.card_keys]
      omega
    · exact room b x here found

section
variable {x : GlobalAddress} (inline : cfg.Inline) (settled : Settled cfg t m top) (represents : Represents cfg m map)
  (short : top < cfg.loopBound) (spare : m.Spare cfg x) (fits : x.Fits)
include inline settled represents short spare fits

theorem alone_insertAttempt {attempt : ℕ} (there : m.nodes a = some (.leaf leaf)) (covers : leaf.header.covers key)
    (item : m.items x = ⟨key, value⟩) :
    Alone cfg t (fun outcome m' => outcome = .done true ∧ Inserted cfg t top map key value m')
      (insertAttempt cfg key (.make (.ofKey key) x false false) attempt a leaf) m := by
  have shelved := settled.stocked.shelved a leaf there
  unfold insertAttempt
  refine alone_getCandidateKvs shelved ?_
  rw [if_neg (by simp)]
  dsimp only
  rw [if_neg (by simp)]
  split
  · rename_i i k v found
    obtain ⟨live, same, -⟩ := hit_eq_some found
    exact alone_tryUpdateKvblock settled represents there covers spare fits item live.1 short live same fun m' done => ⟨rfl, done⟩
  · rename_i found
    refine alone_threadHash fun hash => ?_
    obtain ⟨i, bound, probed, free⟩ := inline.probes shelved.unlocked (settled.room a leaf there)
      (mix64 (hash ^^^ BitVec.ofNat 64 attempt))
    rw [probed]
    have only : ∀ j, leaf.Live cfg.branchFactor j → (j = i ↔ m.keyAt leaf j = key) := by
      intro j live
      constructor
      · rintro rfl
        rw [live.2] at free
        cases free
      · exact fun same => absurd same (hit_eq_none shelved found live)
    obtain ⟨stocked, represents', -⟩ := settled.put represents there covers spare fits item bound only
    have opened : (m.setNode a (.leaf (leaf.setBlock i (.make (.ofKey key) x false false)))).Open 0 :=
      open_setBlock settled.opened there
    have usable : (Node.leaf (leaf.setBlock i (.make (.ofKey key) x false false))).header.lock = 0 ∧
        (Node.leaf (leaf.setBlock i (.make (.ofKey key) x false false))).header.covers key :=
      ⟨settled.opened a (.leaf leaf) there (Nat.zero_le _), covers⟩
    refine alone_casBlock there (alone_readNode (Memory.setNode_self ..) ?_)
    rw [if_neg (not_not.2 rfl), if_neg (not_not.2 usable)]
    refine total_bind (total_mono
      (alone_finishInsert inline short stocked opened (Memory.setNode_self ..) usable.2 ?_ represents') ?_)
    · intro b y other found
      rw [Memory.setNode_other other] at found
      exact settled.room b y found
    · rintro ok m' ⟨rfl, done⟩
      exact ⟨rfl, done⟩

theorem alone_insertLoop {attempts : ℕ} (below : key < ⊤) :
    Alone cfg t (fun ok m' => ok = true ∧ Inserted cfg t top map key value m')
      (insertLoop cfg key ⟨key, value⟩ x (.make (.ofKey key) x false false) (attempts + 1) 0 false none) m := by
  -- the item is written on the way to the leaf, and one round is enough
  unfold insertLoop locateLeaf
  simp only [bind_assoc]
  refine settled.findLeaf short below fun a leaf there covers => ?_
  dsimp only
  rw [bind_assoc]
  refine alone_readNode there ?_
  rw [if_neg Bool.false_ne_true, bind_assoc]
  refine alone_writeItem ?_
  have low : ¬ (Node.leaf leaf).header.level ≠ 0 := not_not.2 (settled.stocked.standing.nodes a _ there).2
  have usable : ¬ ((Node.leaf leaf).header.lock ≠ 0 ∨ ¬ (Node.leaf leaf).header.covers key) := by
    rintro (locked | outside)
    · exact locked (settled.opened a _ there (Nat.zero_le _))
    · exact outside covers
  rw [if_neg low, if_neg usable, pure_bind]
  obtain ⟨stocked, spare', item, same⟩ := settled.stocked.setItem spare ⟨key, value⟩
  have settled' : Settled cfg t (m.setItem x ⟨key, value⟩) top := ⟨stocked, settled.opened, settled.room⟩
  have represents' : Represents cfg (m.setItem x ⟨key, value⟩) map := represents.congr rfl same
  refine total_bind (total_mono (alone_insertAttempt inline settled' represents' short spare' fits there covers item) ?_)
  rintro outcome m' ⟨rfl, done⟩
  exact ⟨rfl, done⟩

end

theorem alone_insert (inline : cfg.Inline) (settled : Settled cfg t m top) (represents : Represents cfg m map)
    (short : top < cfg.loopBound) (below : key < ⊤) :
    Alone cfg t (fun ok m' => ok = true ∧ Inserted cfg t top map key value m') (insert cfg key value) m := by
  obtain ⟨attempts, eq⟩ : ∃ k, cfg.maxAttempts = k + 1 := ⟨cfg.maxAttempts - 1, Nat.eq_add_of_sub_eq inline.tries rfl⟩
  refine alone_allocItem fun x m' usable allocated => ?_
  obtain ⟨stocked, spare, items⟩ := settled.stocked.allocItem allocated
  obtain ⟨nodes, -⟩ := Memory.allocItem_frame allocated
  have settled' : Settled cfg t m' top := by
    refine ⟨stocked, fun b n found => ?_, fun b leaf found => ?_⟩
    · exact settled.opened b n (nodes ▸ found)
    · exact settled.room b leaf (nodes ▸ found)
  rw [eq]
  exact alone_insertLoop inline settled' (represents.congr nodes fun _ _ => by rw [items]) short spare (inline.fits x usable) below

end

end Faunus
