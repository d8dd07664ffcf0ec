import Faunus.Index.Partition

/-! A split on its own.

One thread splits a leaf; the other threads may do anything that leaves the leaf, the
keys of its items and the new leaf alone. Up to the write-back no assertion fails, no
operation blocks except the allocation, and the leaf is shared exactly.
-/

set_option autoImplicit false

namespace Faunus

open Interleaving

variable {Key Value : Type}

/-- The nodes a thread has allocated, newest first. -/
def created (t : Thread) : List (Event Key Value) → List GlobalAddress
  | [] => []
  | .performed u ⟨_, .allocNode⟩ (b : GlobalAddress) _ :: rest => if u = t then b :: created t rest else created t rest
  | _ :: rest => created t rest

/-- What the other threads may do while `t` splits the leaf that it found at `a` in state `start`. -/
structure Spares (branchFactor : ℕ) (t : Thread) (a : GlobalAddress) (leaf : LeafNode Key) (start s s' : State Key Value) :
    Prop where
  node : s'.memory.nodes a = s.memory.nodes a
  own : ∀ b ∈ created t s.history, b ∉ start.memory.nodesIssued → s'.memory.nodes b = s.memory.nodes b
  keys : ∀ i, leaf.Live branchFactor i →
    (s'.memory.items (leaf.kvBlocks i).getAddr).key = (s.memory.items (leaf.kvBlocks i).getAddr).key
  issued : ∀ b ∈ s.memory.nodesIssued, b ∈ s'.memory.nodesIssued
  history : created t s'.history = created t s.history

/-! ## Locking the slots -/

def LeafNode.addSlots (increment : BitVec 64) (n : LeafNode Key) : List ℕ → LeafNode Key
  | [] => n
  | i :: rest => (n.setBlock i ((n.kvBlocks i).add increment)).addSlots increment rest

theorem LeafNode.addSlots_header (increment : BitVec 64) (l : List ℕ) (n : LeafNode Key) :
    (n.addSlots increment l).header = n.header := by
  induction l generalizing n with
  | nil => rfl
  | cons i rest ih => exact ih _

theorem LeafNode.addSlots_kvBlocks (increment : BitVec 64) (l : List ℕ) (n : LeafNode Key) (distinct : l.Nodup) (i : ℕ) :
    (n.addSlots increment l).kvBlocks i = if i ∈ l then (n.kvBlocks i).add increment else n.kvBlocks i := by
  induction l generalizing n with
  | nil => simp [addSlots]
  | cons j rest ih =>
    obtain ⟨new, distinct⟩ := List.nodup_cons.1 distinct
    rw [addSlots, ih _ distinct]
    by_cases same : i = j
    · subst same
      simp [new, LeafNode.setBlock]
    · simp [same, LeafNode.setBlock]

/-- The leaf after the split has locked it and its slots. -/
def LeafNode.locked (branchFactor : ℕ) (n : LeafNode Key) : LeafNode Key :=
  { n with header := { n.header with lock := 1 } }.addSlots 1 (List.range branchFactor)

variable {branchFactor : ℕ} {leaf : LeafNode Key}

theorem LeafNode.locked_kvBlocks (unlocked : ∀ i < branchFactor, (leaf.kvBlocks i).isLocked = false) {i : ℕ}
    (bound : i < branchFactor) : (leaf.locked branchFactor).kvBlocks i = (leaf.kvBlocks i).setLocked true := by
  rw [LeafNode.locked, LeafNode.addSlots_kvBlocks _ _ _ List.nodup_range, if_pos (List.mem_range.2 bound)]
  exact KVBlock.add_one (unlocked i bound)

theorem LeafNode.lockedBy_locked (unlocked : ∀ i < branchFactor, (leaf.kvBlocks i).isLocked = false) :
    leaf.lockedBy branchFactor (leaf.locked branchFactor) := by
  refine ⟨?_, fun i bound => ⟨LeafNode.locked_kvBlocks unlocked bound, unlocked i bound⟩⟩
  rw [LeafNode.locked, LeafNode.addSlots_header]

theorem LeafNode.unlock_locked (unlocked : ∀ i < branchFactor, (leaf.kvBlocks i).isLocked = false) :
    (leaf.locked branchFactor).addSlots (-1) (List.range branchFactor) =
      { leaf with header := { leaf.header with lock := 1 } } := by
  -- unlocking restores every word
  have header : ((leaf.locked branchFactor).addSlots (-1) (List.range branchFactor)).header =
      { leaf.header with lock := 1 } := by
    rw [LeafNode.addSlots_header, LeafNode.locked, LeafNode.addSlots_header]
  have blocks : ((leaf.locked branchFactor).addSlots (-1) (List.range branchFactor)).kvBlocks = leaf.kvBlocks := by
    funext i
    rw [LeafNode.addSlots_kvBlocks _ _ _ List.nodup_range]
    by_cases bound : i < branchFactor
    · rw [if_pos (List.mem_range.2 bound), LeafNode.locked_kvBlocks unlocked bound,
        KVBlock.add_minus_one (KVBlock.isLocked_setLocked _ _), KVBlock.setLocked_setLocked, ← unlocked i bound,
        KVBlock.setLocked_isLocked]
    · rw [if_neg (by simpa using bound), LeafNode.locked, LeafNode.addSlots_kvBlocks _ _ _ List.nodup_range,
        if_neg (by simpa using bound)]
  cases h : (leaf.locked branchFactor).addSlots (-1) (List.range branchFactor) with
  | mk one two =>
    rw [h] at header blocks
    exact congrArg₂ LeafNode.mk header blocks

/-! ## One operation at a time -/

/-- What the splitting thread may rely on: the leaf is as it left it, the items it found
keep their keys, and it has allocated `made` since it began. -/
structure Stage (branchFactor : ℕ) (t : Thread) (a : GlobalAddress) (leaf : LeafNode Key) (start : State Key Value)
    (now : LeafNode Key) (made : List GlobalAddress) (s : State Key Value) : Prop where
  node : s.memory.nodes a = some (.leaf now)
  keys : ∀ i, leaf.Live branchFactor i →
    (s.memory.items (leaf.kvBlocks i).getAddr).key = (start.memory.items (leaf.kvBlocks i).getAddr).key
  issued : ∀ b ∈ start.memory.nodesIssued, b ∈ s.memory.nodesIssued
  history : created t s.history = made ++ created t start.history
  fresh : ∀ b ∈ made, b ∉ start.memory.nodesIssued

section
variable {t : Thread} {a : GlobalAddress} {start s s' : State Key Value} {now : LeafNode Key} {made : List GlobalAddress}

theorem Stage.spared (stage : Stage branchFactor t a leaf start now made s) (spares : Spares branchFactor t a leaf start s s') :
    Stage branchFactor t a leaf start now made s' where
  node := spares.node.trans stage.node
  keys i live := (spares.keys i live).trans (stage.keys i live)
  issued b old := spares.issued b (stage.issued b old)
  history := spares.history.trans stage.history
  fresh := stage.fresh

theorem Stage.own (stage : Stage branchFactor t a leaf start now made s) (spares : Spares branchFactor t a leaf start s s')
    {b : GlobalAddress} (own : b ∈ made) : s'.memory.nodes b = s.memory.nodes b := by
  refine spares.own b ?_ (stage.fresh b own)
  rw [stage.history]
  exact List.mem_append_left _ own

theorem Stage.rewrite (stage : Stage branchFactor t a leaf start now made s) (event : Event Key Value) (next : LeafNode Key)
    (quiet : created t (event :: s.history) = created t s.history) :
    Stage branchFactor t a leaf start next made ⟨s.memory.setNode a (.leaf next), event :: s.history⟩ where
  node := Function.update_self _ _ _
  keys := stage.keys
  issued := stage.issued
  history := quiet.trans stage.history
  fresh := stage.fresh

theorem Stage.stay {event : Event Key Value} (stage : Stage branchFactor t a leaf start now made s)
    (quiet : created t (event :: s.history) = created t s.history) :
    Stage branchFactor t a leaf start now made ⟨s.memory, event :: s.history⟩ where
  node := stage.node
  keys := stage.keys
  issued := stage.issued
  history := quiet.trans stage.history
  fresh := stage.fresh

end

def allocates (o : Op Key Value) : Prop := o.act = .allocNode

section
variable {cfg : Config} {t : Thread} {a : GlobalAddress}
  {start s : State Key Value} {now : LeafNode Key} {made : List GlobalAddress} {A : Type} {post : A → State Key Value → Prop}

/-- The splitting thread runs to its end, whatever the others do in between. -/
abbrev Runs (cfg : Config) (t : Thread) (a : GlobalAddress) (leaf : LeafNode Key) (start : State Key Value)
    (post : A → State Key Value → Prop) (p : Index Key Value A) (s : State Key Value) : Prop :=
  p.Total (State.exec cfg.usable) t (Spares cfg.branchFactor t a leaf start) allocates post s

theorem runs_perform {o : Op Key Value} {f : o.act.Reply → Index Key Value A} {r : o.act.Reply} {m : Memory Key Value}
    (performed : ∀ c, Memory.exec cfg.usable t o c s.memory = some (r, m))
    (next : ∀ s', Spares cfg.branchFactor t a leaf start ⟨m, .performed t o r s.memory :: s.history⟩ s' →
      Runs cfg t a leaf start post (f r) s') :
    Runs cfg t a leaf start post (.perform o f) s := by
  have performs : ∀ c, State.exec cfg.usable t o c s = some (r, ⟨m, .performed t o r s.memory :: s.history⟩) := by
    intro c
    simp only [State.exec, performed c]
    rfl
  exact total_perform performs 0 next

theorem runs_casLock {f : BitVec 64 → Index Key Value A} (stage : Stage cfg.branchFactor t a leaf start now made s)
    (unlocked : now.header.lock = 0)
    (next : ∀ s, Stage cfg.branchFactor t a leaf start { now with header := { now.header with lock := 1 } } made s →
      Runs cfg t a leaf start post (f 0) s) :
    Runs cfg t a leaf start post (casLock (.splitLeaf a) a 0 1 >>= f) s := by
  refine runs_perform (o := ⟨.splitLeaf a, .casLock a 0 1⟩) (fun c => ?_) fun s' spares =>
    next s' (Stage.spared (stage.rewrite _ _ rfl) spares)
  simp only [Memory.exec, stage.node, Node.header, unlocked, if_true]
  rfl

theorem runs_faaLock {increment : BitVec 64} {f : Unit → Index Key Value A}
    (stage : Stage cfg.branchFactor t a leaf start now made s)
    (next : ∀ s, Stage cfg.branchFactor t a leaf start
      { now with header := { now.header with lock := now.header.lock + increment } } made s →
      Runs cfg t a leaf start post (f ()) s) :
    Runs cfg t a leaf start post (faaLock (.splitLeaf a) a increment >>= f) s := by
  refine runs_perform (o := ⟨.splitLeaf a, .faaLock a increment⟩) (fun c => ?_) fun s' spares =>
    next s' (Stage.spared (stage.rewrite _ _ rfl) spares)
  simp only [Memory.exec, stage.node]
  rfl

theorem runs_faaBlock {i : ℕ} {increment : BitVec 64} {f : Unit → Index Key Value A}
    (stage : Stage cfg.branchFactor t a leaf start now made s)
    (next : ∀ s, Stage cfg.branchFactor t a leaf start (now.setBlock i ((now.kvBlocks i).add increment)) made s →
      Runs cfg t a leaf start post (f ()) s) :
    Runs cfg t a leaf start post (faaBlock (.splitLeaf a) a i increment >>= f) s := by
  refine runs_perform (o := ⟨.splitLeaf a, .faaBlock a i increment⟩) (fun c => ?_) fun s' spares =>
    next s' (Stage.spared (stage.rewrite _ _ rfl) spares)
  simp only [Memory.exec, stage.node]
  rfl

theorem runs_readNode {f : Node Key → Index Key Value A} (stage : Stage cfg.branchFactor t a leaf start now made s)
    (next : ∀ s, Stage cfg.branchFactor t a leaf start now made s → Runs cfg t a leaf start post (f (.leaf now)) s) :
    Runs cfg t a leaf start post (readNode (.splitLeaf a) a >>= f) s := by
  refine runs_perform (o := ⟨.splitLeaf a, .readNode a⟩) (fun c => ?_) fun s' spares =>
    next s' (Stage.spared (stage.stay rfl) spares)
  simp only [Memory.exec, stage.node]
  rfl

theorem runs_readKey {b : GlobalAddress} {f : Key → Index Key Value A} (stage : Stage cfg.branchFactor t a leaf start now made s)
    (next : ∀ s', Stage cfg.branchFactor t a leaf start now made s' →
      Runs cfg t a leaf start post (f (s.memory.items b).key) s') :
    Runs cfg t a leaf start post (readKey (.splitLeaf a) b >>= f) s := by
  refine runs_perform (o := ⟨.splitLeaf a, .readKey b⟩) (fun c => ?_) fun s' spares =>
    next s' (Stage.spared (stage.stay rfl) spares)
  rfl

theorem runs_allocNode {f : GlobalAddress → Index Key Value A} (stage : Stage cfg.branchFactor t a leaf start now [] s)
    (next : ∀ new s, Stage cfg.branchFactor t a leaf start now [new] s → Runs cfg t a leaf start post (f new) s) :
    Runs cfg t a leaf start post (allocNode (.splitLeaf a) >>= f) s := by
  refine ⟨.inr rfl, fun c new s₁ performed s' spares => next new s' (Stage.spared ?_ spares)⟩
  obtain ⟨m, h⟩ := s₁
  obtain ⟨done, rfl⟩ := State.exec_eq_some performed
  simp only [Memory.exec] at done
  split_ifs at done with used
  cases done
  refine ⟨stage.node, stage.keys, fun b old => List.mem_cons_of_mem _ (stage.issued b old), ?_, ?_⟩
  · have history := stage.history
    simp only [created, if_true, List.nil_append] at history ⊢
    rw [history]
    rfl
  · intro b is
    rw [List.mem_singleton.1 is]
    exact fun old => used (stage.issued _ old)

theorem exists_fingerprint (old : Fingerprint) :
    ∃ c : BitVec 64, Fingerprint.ofBits ((c &&& 0x0FFF#64).setWidth 16) ≠ old := by
  by_cases zero : Fingerprint.ofBits (((0 : BitVec 64) &&& 0x0FFF#64).setWidth 16) = old
  · exact ⟨1, fun one => absurd (zero.trans one.symm) (by decide)⟩
  · exact ⟨0, zero⟩

theorem exists_address (old : GlobalAddress) :
    ∃ c : BitVec 64, GlobalAddress.ofAddress (c &&& 0x0003FFFFFFFFFF#64) ≠ old := by
  by_cases zero : GlobalAddress.ofAddress ((0 : BitVec 64) &&& 0x0003FFFFFFFFFF#64) = old
  · exact ⟨1, fun one => absurd (zero.trans one.symm) (by decide)⟩
  · exact ⟨0, zero⟩

theorem runs_draw {o : Op Key Value} {f : o.act.Reply → Index Key Value A}
    (stage : Stage cfg.branchFactor t a leaf start now made s)
    (draws : ∃ c r, Memory.exec cfg.usable t o c s.memory = some (r, s.memory))
    (only : ∀ c r m, Memory.exec cfg.usable t o c s.memory = some (r, m) → m = s.memory)
    (quiet : ∀ r, created t (.performed t o r s.memory :: s.history) = created t s.history)
    (next : ∀ r s, Stage cfg.branchFactor t a leaf start now made s → Runs cfg t a leaf start post (f r) s) :
    Runs cfg t a leaf start post (.perform o f) s := by
  obtain ⟨c, r, draws⟩ := draws
  refine ⟨.inl ⟨c, r, ⟨s.memory, .performed t o r s.memory :: s.history⟩, ?_⟩, ?_⟩
  · simp only [State.exec, draws]
  · intro c r s₁ performed s₂ spares
    obtain ⟨m, h⟩ := s₁
    obtain ⟨done, rfl⟩ := State.exec_eq_some performed
    obtain rfl := only c r m done
    exact next r s₂ (Stage.spared (stage.stay (quiet r)) spares)

theorem runs_setDifferentRandomFpAddr {b : KVBlock} {f : KVBlock → Index Key Value A}
    (stage : Stage cfg.branchFactor t a leaf start now made s)
    (next : ∀ random s, Stage cfg.branchFactor t a leaf start now made s → Runs cfg t a leaf start post (f random) s) :
    Runs cfg t a leaf start post (setDifferentRandomFpAddr (.splitLeaf a) b >>= f) s := by
  refine runs_draw (o := ⟨.splitLeaf a, .randFingerprint b.getFingerprint⟩) stage ?_ ?_ (fun _ => rfl) fun fp s stage =>
    runs_draw (o := ⟨.splitLeaf a, .randAddr (b.setFingerprint fp).getAddr⟩) stage ?_ ?_ (fun _ => rfl) fun addr s stage =>
      next _ s stage
  · obtain ⟨c, other⟩ := exists_fingerprint b.getFingerprint
    exact ⟨c, _, if_neg other⟩
  · intro c r m drawn
    simp only [Memory.exec] at drawn
    split_ifs at drawn
    cases drawn
    rfl
  · obtain ⟨c, other⟩ := exists_address (b.setFingerprint fp).getAddr
    exact ⟨c, _, if_neg other⟩
  · intro c r m drawn
    simp only [Memory.exec] at drawn
    split_ifs at drawn
    cases drawn
    rfl

/-! ## Up to the write-back -/

theorem runs_lockUnlockKvblocks {toLock : Bool} {f : Unit → Index Key Value A} (l : List ℕ)
    (stage : Stage cfg.branchFactor t a leaf start now made s)
    (next : ∀ s, Stage cfg.branchFactor t a leaf start (now.addSlots (if toLock then 1 else -1) l) made s →
      Runs cfg t a leaf start post (f ()) s) :
    Runs cfg t a leaf start post (lockUnlockKvblocks a toLock l >>= f) s := by
  induction l generalizing now s with
  | nil => exact next s stage
  | cons i rest ih =>
    rw [lockUnlockKvblocks, bind_assoc]
    exact runs_faaBlock stage fun s stage => ih stage next

theorem runs_readLeafKeys {snap : LeafNode Key} {f : List (Key × KVBlock) → Index Key Value A} (l : List ℕ)
    (stage : Stage cfg.branchFactor t a leaf start now made s)
    (live : ∀ i ∈ l, leaf.Live cfg.branchFactor i ∧ (snap.kvBlocks i).getAddr = (leaf.kvBlocks i).getAddr)
    (next : ∀ s, Stage cfg.branchFactor t a leaf start now made s →
      Runs cfg t a leaf start post
        (f (l.map fun i => ((start.memory.items (snap.kvBlocks i).getAddr).key, snap.kvBlocks i))) s) :
    Runs cfg t a leaf start post (readLeafKeys a snap l >>= f) s := by
  induction l generalizing s f with
  | nil => exact next s stage
  | cons i rest ih =>
    rw [readLeafKeys, bind_assoc]
    refine runs_readKey stage fun s' later => ?_
    rw [bind_assoc]
    refine ih later (fun j inside => live j (List.mem_cons_of_mem _ inside)) fun s'' last => ?_
    obtain ⟨here, same⟩ := live i List.mem_cons_self
    have key := stage.keys i here
    rw [← same] at key
    rw [key]
    exact next s'' last

theorem runs_clearSlots {odd : Bool} {middle : ℕ} (l : List ℕ) (left right : ℕ → KVBlock)
    (stage : Stage cfg.branchFactor t a leaf start now made s) :
    Runs cfg t a leaf start (fun _ s => Stage cfg.branchFactor t a leaf start now made s)
      (clearSlots a odd middle l left right) s := by
  induction l generalizing left right s with
  | nil => exact stage
  | cons i rest ih =>
    unfold clearSlots
    refine runs_setDifferentRandomFpAddr stage fun random s stage => ?_
    split
    · exact runs_setDifferentRandomFpAddr stage fun random' s stage => ih _ _ stage
    · exact ih _ _ stage

theorem runs_distribute {snap : LeafNode Key} {entries : List (Key × KVBlock)} {middleKey : Key}
    (stage : Stage cfg.branchFactor t a leaf start now made s) :
    Runs cfg t a leaf start (fun leaves s => Stage cfg.branchFactor t a leaf start now made s ∧
        Distributes cfg snap entries middleKey leaves.1 leaves.2)
      (distribute cfg a snap entries middleKey) s := by
  have quiet : Runs cfg t a leaf start (fun _ s => Stage cfg.branchFactor t a leaf start now made s)
      (distribute cfg a snap entries middleKey) s :=
    total_bind (total_mono (runs_clearSlots _ _ _ stage) fun _ _ stage => stage)
  refine total_mono (total_yields quiet) ?_
  rintro leaves s ⟨stage, trace, yields⟩
  exact ⟨stage, yields_distribute yields⟩

theorem runs_writeLeaves {new : GlobalAddress} {left right : LeafNode Key} {f : Unit → Index Key Value A}
    (stage : Stage cfg.branchFactor t a leaf start now [new] s) (issued : a ∈ start.memory.nodesIssued)
    (next : ∀ s, Stage cfg.branchFactor t a leaf start left [new] s → s.memory.nodes new = some (.leaf right) →
      Runs cfg t a leaf start post (f ()) s) :
    Runs cfg t a leaf start post
      (writeNode (.splitLeaf a) new (.leaf right) >>= fun _ => writeNode (.splitLeaf a) a (.leaf left) >>= f) s := by
  have apart : new ≠ a := fun same => stage.fresh new (List.mem_singleton_self new) (same ▸ issued)
  refine runs_perform (o := ⟨.splitLeaf a, .writeNode new (.leaf right)⟩) (fun _ => rfl) fun s₁ spares => ?_
  have wrote : Stage cfg.branchFactor t a leaf start now [new]
      ⟨s.memory.setNode new (.leaf right), .performed t ⟨.splitLeaf a, .writeNode new (.leaf right)⟩ () s.memory :: s.history⟩ :=
    ⟨(Function.update_of_ne (Ne.symm apart) _ _).trans stage.node, stage.keys, stage.issued, stage.history, stage.fresh⟩
  have there : s₁.memory.nodes new = some (.leaf right) :=
    (wrote.own spares (List.mem_singleton_self new)).trans (Function.update_self _ _ _)
  replace wrote := wrote.spared spares
  refine runs_perform (o := ⟨.splitLeaf a, .writeNode a (.leaf left)⟩) (fun _ => rfl) fun s₂ spares => ?_
  have both := wrote.rewrite (.performed t ⟨.splitLeaf a, .writeNode a (.leaf left)⟩ () s₁.memory) left rfl
  refine next s₂ (both.spared spares) ?_
  exact (both.own spares (List.mem_singleton_self new)).trans ((Function.update_of_ne apart _ _).trans there)

end

section
variable [LinearOrder Key] [BoundedOrder Key] (cfg : Config)

/-- `split_leaf` up to the write-back: the middle key and the new leaf, if there is one. -/
def writeBack (leafAddress : GlobalAddress) : Index Key Value (Option (Key × GlobalAddress)) := do
  let expected ← casLock (.splitLeaf leafAddress) leafAddress 0 1
  if expected ≠ 0 then pure none
  else do
    lockUnlockKvblocks leafAddress true (List.range cfg.branchFactor)
    let node ← readNode (.splitLeaf leafAddress) leafAddress
    let leaf := node.asLeaf
    if leaf.header.lock = 0 ∨ (List.range cfg.branchFactor).any (fun i => !(leaf.kvBlocks i).isLocked) then .stuck
    else do
      let keyed ← readLeafKeys leafAddress leaf (takenIndices cfg.branchFactor leaf)
      let entries := OrderedMap.ofList keyed
      if entries.length ≤ cfg.branchFactor / 2 then do
        lockUnlockKvblocks leafAddress false (List.range cfg.branchFactor)
        faaLock (.splitLeaf leafAddress) leafAddress (-1)
        pure none
      else do
        let newLeafAddress ← allocNode (.splitLeaf leafAddress)
        match entries[entries.length / 2]? with
        | none => .stuck
        | some (middleKey, _) => do
          let (left, right) ← distribute cfg leafAddress leaf entries middleKey
          writeNode (.splitLeaf leafAddress) newLeafAddress (.leaf right)
          writeNode (.splitLeaf leafAddress) leafAddress (.leaf left)
          pure (some (middleKey, newLeafAddress))

/-- The rest of `split_leaf`: put the new fence into the parent and unlock. -/
def propagate (leafAddress : GlobalAddress) : Option (Key × GlobalAddress) → Index Key Value Bool
  | none => pure false
  | some (middleKey, newLeafAddress) => do
    let success ← insertInternalEntry cfg cfg.loopBound middleKey newLeafAddress 1
    if success then do
      faaLock (.splitLeaf leafAddress) leafAddress (-1)
      pure true
    else .stuck

theorem splitLeaf_eq (a : GlobalAddress) : (splitLeaf cfg a : Index Key Value Bool) = writeBack cfg a >>= propagate cfg a := by
  unfold splitLeaf writeBack
  simp only [bind_assoc]
  congr 1
  funext expected
  split
  · rfl
  · simp only [bind_assoc]
    congr 1
    funext _
    congr 1
    funext node
    split
    · rfl
    · simp only [bind_assoc]
      congr 1
      funext keyed
      split
      · simp only [bind_assoc]
        rfl
      · simp only [bind_assoc]
        congr 1
        funext new
        cases (OrderedMap.ofList keyed)[(OrderedMap.ofList keyed).length / 2]? with
        | none => rfl
        | some entry =>
          simp only [bind_assoc]
          rfl

variable {cfg} {t : Thread} {a : GlobalAddress} {s : State Key Value}

def splitEntries (branchFactor : ℕ) (leaf : LeafNode Key) (start : State Key Value) : List (Key × KVBlock) :=
  OrderedMap.ofList (splitBindings branchFactor (fun b => (start.memory.items b).key) (leaf.locked branchFactor))

/-- How the write-back ends. -/
inductive WrittenBack (cfg : Config) (t : Thread) (a : GlobalAddress) (leaf : LeafNode Key) (start : State Key Value) :
    Option (Key × GlobalAddress) → State Key Value → Prop where
  | kept {s : State Key Value} :
      (leaf.keys cfg.branchFactor fun b => (start.memory.items b).key).card ≤ cfg.branchFactor / 2 →
      Stage cfg.branchFactor t a leaf start leaf [] s → WrittenBack cfg t a leaf start none s
  | split {middleKey : Key} {block : KVBlock} {new : GlobalAddress} {left right : LeafNode Key} {s : State Key Value} :
      cfg.branchFactor / 2 < (leaf.keys cfg.branchFactor fun b => (start.memory.items b).key).card →
      Stage cfg.branchFactor t a leaf start left [new] s → s.memory.nodes new = some (.leaf right) →
      Distributes cfg (leaf.locked cfg.branchFactor) (splitEntries cfg.branchFactor leaf start) middleKey left right →
      (splitEntries cfg.branchFactor leaf start)[(leaf.keys cfg.branchFactor fun b => (start.memory.items b).key).card / 2]? =
        some (middleKey, block) →
      WrittenBack cfg t a leaf start (some (middleKey, new)) s

omit [BoundedOrder Key] in
theorem runs_writeBack (large : 2 ≤ cfg.branchFactor) (there : s.memory.nodes a = some (.leaf leaf))
    (issued : a ∈ s.memory.nodesIssued) (unlocked : (Node.leaf leaf).Unlocked cfg) :
    Runs cfg t a leaf s (WrittenBack cfg t a leaf s) (writeBack cfg a) s := by
  have stage : Stage cfg.branchFactor t a leaf s leaf [] s :=
    ⟨there, fun _ _ => rfl, fun _ old => old, rfl, by simp⟩
  have reads := LeafNode.lockedBy_locked unlocked.2
  unfold writeBack
  refine runs_casLock stage unlocked.1 fun s₁ stage => ?_
  rw [if_neg (not_not.2 rfl)]
  refine runs_lockUnlockKvblocks _ stage fun s₂ stage => ?_
  change Stage cfg.branchFactor t a leaf s (leaf.locked cfg.branchFactor) [] s₂ at stage
  refine runs_readNode stage fun s₃ stage => ?_
  dsimp only [Node.asLeaf]
  have header : (leaf.locked cfg.branchFactor).header.lock = 1 := by
    rw [LeafNode.locked, LeafNode.addSlots_header]
  have all : ¬ ((leaf.locked cfg.branchFactor).header.lock = 0 ∨
      (List.range cfg.branchFactor).any (fun i => !((leaf.locked cfg.branchFactor).kvBlocks i).isLocked)) := by
    rw [header]
    rintro (zero | unset)
    · exact absurd zero (by decide)
    · obtain ⟨i, bound, is⟩ := List.any_eq_true.1 unset
      rw [(reads.2 i (List.mem_range.1 bound)).1, KVBlock.isLocked_setLocked] at is
      exact Bool.noConfusion is
  rw [if_neg all]
  refine runs_readLeafKeys _ stage (fun i taken => ?_) fun s₄ stage => ?_
  · have live := (mem_takenIndices reads).1 taken
    exact ⟨live, by rw [(reads.2 i live.1).1, KVBlock.getAddr_setLocked]⟩
  have count : (splitEntries cfg.branchFactor leaf s).length = _ := entries_length _ reads
  have entries : OrderedMap.ofList ((takenIndices cfg.branchFactor (leaf.locked cfg.branchFactor)).map fun i =>
      ((s.memory.items ((leaf.locked cfg.branchFactor).kvBlocks i).getAddr).key, (leaf.locked cfg.branchFactor).kvBlocks i)) =
      splitEntries cfg.branchFactor leaf s := rfl
  rw [entries]
  split_ifs with few
  · -- too few entries: every word is as before once the locks are released
    refine runs_lockUnlockKvblocks _ stage fun s₅ stage => ?_
    rw [if_neg Bool.false_ne_true, LeafNode.unlock_locked unlocked.2] at stage
    refine runs_faaLock stage fun s₆ stage => ?_
    have restored : ({ leaf with header := { leaf.header with lock := (1 : BitVec 64) + -1 } } : LeafNode Key) = leaf := by
      have lock : (1 : BitVec 64) + -1 = leaf.header.lock := by rw [unlocked.1]; decide
      rw [lock]
    rw [count] at few
    exact .kept few { stage with node := stage.node.trans (by rw [restored]) }
  · refine runs_allocNode stage fun new s₅ stage => ?_
    rw [count, not_le] at few
    split
    · rename_i none
      rw [count, List.getElem?_eq_none_iff] at none
      omega
    · rename_i middleKey block middle
      rw [count] at middle
      refine total_bind (total_mono (runs_distribute stage) ?_)
      rintro ⟨left, right⟩ s₆ ⟨stage, distributes⟩
      exact runs_writeLeaves stage issued fun s₇ stage wrote => .split few stage wrote distributes middle

/-- What a split leaves behind when its write-back is done. -/
def SharedOut (cfg : Config) (t : Thread) (a : GlobalAddress) (leaf : LeafNode Key) (start : State Key Value)
    (written : Option (Key × GlobalAddress)) (s : State Key Value) : Prop :=
  if cfg.branchFactor / 2 < (leaf.keys cfg.branchFactor fun b => (start.memory.items b).key).card then
    ∃ middleKey new left right, written = some (middleKey, new) ∧ new ∉ start.memory.nodesIssued ∧
      s.memory.nodes a = some (.leaf left) ∧ s.memory.nodes new = some (.leaf right) ∧
      Partition cfg.branchFactor (fun b => (start.memory.items b).key) leaf left right middleKey
  else
    written = none ∧ s.memory.nodes a = some (.leaf leaf) ∧ created t s.history = created t start.history

/-- A split that nobody disturbs shares the leaf exactly, or leaves it as it was. -/
theorem split_shares_out (large : 2 ≤ cfg.branchFactor) (there : s.memory.nodes a = some (.leaf leaf))
    (issued : a ∈ s.memory.nodesIssued) (unlocked : (Node.leaf leaf).Unlocked cfg)
    (inside : ∀ i, leaf.Live cfg.branchFactor i → leaf.header.covers (s.memory.items (leaf.kvBlocks i).getAddr).key) :
    (splitLeaf cfg a : Index Key Value Bool) = writeBack cfg a >>= propagate cfg a ∧
      (writeBack cfg a).Total (State.exec cfg.usable) t (Spares cfg.branchFactor t a leaf s) allocates
        (SharedOut cfg t a leaf s) s := by
  refine ⟨splitLeaf_eq cfg a, total_mono (runs_writeBack large there issued unlocked) ?_⟩
  intro written s' back
  cases back with
  | kept few stage =>
    rw [SharedOut, if_neg (not_lt.2 few)]
    exact ⟨rfl, stage.node, stage.history⟩
  | split many stage wrote distributes middle =>
    rw [SharedOut, if_pos many]
    exact ⟨_, _, _, _, rfl, stage.fresh _ (List.mem_singleton_self _), stage.node, wrote,
      distributes.partition (LeafNode.lockedBy_locked unlocked.2) middle inside (by omega)⟩

end

/-- A leaf of four slots, three of them with the items at addresses 1, 2 and 3. -/
def threeKeys : LeafNode (Fin 256) where
  header := .zero (⊥, ⊤)
  kvBlocks i := if i < 3 then .make (.ofBits 0) (.ofAddress (BitVec.ofNat 64 (i + 1))) false false else .empty

def threeKeysState : State (Fin 256) ℕ where
  memory :=
    { smallMemory with
      nodes := Function.update (fun _ => none) ⟨0⟩ (some (.leaf threeKeys))
      items := fun b => ⟨⟨b.raw.toNat % 256, Nat.mod_lt _ (Nat.succ_pos 255)⟩, 0⟩ }
  history := []

theorem split_shares_out_threeKeys :
    (threeKeys.keys 4 fun b => (threeKeysState.memory.items b).key).card = 3 ∧
      (writeBack smallConfig ⟨0⟩).Total (State.exec smallConfig.usable) ⟨0, 0⟩ (Spares 4 ⟨0, 0⟩ ⟨0⟩ threeKeys threeKeysState)
        allocates (SharedOut smallConfig ⟨0, 0⟩ ⟨0⟩ threeKeys threeKeysState) threeKeysState := by
  refine ⟨by decide, (split_shares_out (by decide) rfl (List.mem_singleton_self _) ⟨rfl, by decide⟩ ?_).2⟩
  rintro i ⟨bound, live⟩
  have all : ∀ i < 4, (threeKeys.kvBlocks i).isFree = false →
      threeKeys.header.covers (threeKeysState.memory.items (threeKeys.kvBlocks i).getAddr).key := by decide
  exact all i bound live

end Faunus
