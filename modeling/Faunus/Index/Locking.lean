import Faunus.Index.Runs

/-! Node locks and slot locks in every reachable state. -/

set_option autoImplicit false

namespace Faunus

open Interleaving

variable {Key Value : Type}

/-! ## What a run of one operation changes -/

/-- What an operation adds to the lock word of the node at `a`. -/
def lockAdded (a : GlobalAddress) : Sigma (signature Key Value).Reply → BitVec 64
  | ⟨⟨_, .casLock b expected desired⟩, (found : BitVec 64)⟩ => if b = a ∧ found = expected then desired - expected else 0
  | ⟨⟨_, .faaLock b increment⟩, _⟩ => if b = a then increment else 0
  | _ => 0

/-- What an operation adds to slot `i` of the leaf at `a`. -/
def slotAdded (a : GlobalAddress) (i : ℕ) : Sigma (signature Key Value).Reply → BitVec 64
  | ⟨⟨_, .faaBlock b j increment⟩, _⟩ => if b = a ∧ j = i then increment else 0
  | _ => 0

/-- The operation may change the node at `a` by more than an addition. -/
def Overwrites (a : GlobalAddress) : Sigma (signature Key Value).Reply → Prop
  | ⟨⟨_, .writeNode b _⟩, _⟩ => b = a
  | ⟨⟨_, .casBlock b _ _ _⟩, _⟩ => b = a
  | _ => False

/-- Everything the run did to the leaf at `a` cancels out. -/
structure NoNetChange (a : GlobalAddress) (trace : List (Sigma (signature Key Value).Reply)) : Prop where
  writes : ∀ e ∈ trace, ¬ Overwrites a e
  lock : (trace.map (lockAdded a)).sum = 0
  slots : ∀ i, (trace.map (slotAdded a i)).sum = 0

/-- The additions say all that an operation does to a leaf it does not overwrite. -/
theorem exec_adds {usable : GlobalAddress → Bool} {t : Thread} {o : Op Key Value} {c : BitVec 64} {m m' : Memory Key Value}
    {r : o.act.Reply} (performed : Memory.exec usable t o c m = some (r, m')) {a : GlobalAddress} {leaf : LeafNode Key}
    (there : m.nodes a = some (.leaf leaf)) (kept : ¬ Overwrites a ⟨o, r⟩) :
    ∃ leaf', m'.nodes a = some (.leaf leaf') ∧
      leaf'.header = { leaf.header with lock := leaf.header.lock + lockAdded a ⟨o, r⟩ } ∧
      ∀ i, leaf'.kvBlocks i = (leaf.kvBlocks i).add (slotAdded a i ⟨o, r⟩) := by
  have frame : m'.nodes a = m.nodes a → lockAdded a ⟨o, r⟩ = 0 → (∀ i, slotAdded a i ⟨o, r⟩ = 0) →
      ∃ leaf', m'.nodes a = some (.leaf leaf') ∧
        leaf'.header = { leaf.header with lock := leaf.header.lock + lockAdded a ⟨o, r⟩ } ∧
        ∀ i, leaf'.kvBlocks i = (leaf.kvBlocks i).add (slotAdded a i ⟨o, r⟩) := by
    intro nodes lock slots
    exact ⟨leaf, nodes.trans there, by simp [lock], fun i => by simp [slots, KVBlock.add]⟩
  obtain ⟨site, act⟩ := o
  cases act with
  | casRoot expected desired =>
    simp only [Memory.exec] at performed
    split at performed <;> cases performed <;> exact frame rfl rfl fun _ => rfl
  | readNode b =>
    simp only [Memory.exec] at performed
    split at performed <;> cases performed
    exact frame rfl rfl fun _ => rfl
  | writeNode b n =>
    cases performed
    exact frame (by simp [Memory.setNode, Function.update_of_ne (Ne.symm kept)]) rfl fun _ => rfl
  | casBlock b i expected desired =>
    simp only [Memory.exec] at performed
    split at performed
    · split at performed <;> cases performed
      · exact frame (by simp [Memory.setNode, Function.update_of_ne (Ne.symm kept)]) rfl fun _ => rfl
      · exact frame rfl rfl fun _ => rfl
    · cases performed
  | casLock b expected desired =>
    simp only [Memory.exec] at performed
    split at performed
    · rename_i n found
      split at performed <;> cases performed
      · rename_i taken
        by_cases here : b = a
        · subst here
          obtain rfl : n = .leaf leaf := Option.some.inj (found.symm.trans there)
          have lock : lockAdded b (⟨⟨site, .casLock b expected desired⟩, (Node.leaf leaf).header.lock⟩ :
              Sigma (signature Key Value).Reply) = desired - expected := by
            simp [lockAdded, taken]
          refine ⟨{ leaf with header := { leaf.header with lock := desired } }, by simp [Memory.setNode, Node.setLock], ?_, ?_⟩
          · have sum : leaf.header.lock + (desired - expected) = desired := by
              rw [show leaf.header.lock = expected from taken, BitVec.add_comm, BitVec.sub_add_cancel]
            rw [lock, sum]
          · exact fun i => by simp [slotAdded, KVBlock.add]
        · refine frame (by simp [Memory.setNode, Function.update_of_ne (Ne.symm here)]) ?_ fun _ => rfl
          simp [lockAdded, here]
      · rename_i taken
        exact frame rfl (by simp [lockAdded, taken]) fun _ => rfl
    · cases performed
  | faaLock b increment =>
    simp only [Memory.exec] at performed
    split at performed
    · rename_i n found
      cases performed
      by_cases here : b = a
      · subst here
        obtain rfl : n = .leaf leaf := Option.some.inj (found.symm.trans there)
        refine ⟨{ leaf with header := { leaf.header with lock := leaf.header.lock + increment } },
          by simp [Memory.setNode, Node.setLock, Node.header], by simp [lockAdded], fun i => by simp [slotAdded, KVBlock.add]⟩
      · refine frame (by simp [Memory.setNode, Function.update_of_ne (Ne.symm here)]) ?_ fun _ => rfl
        simp [lockAdded, here]
    · cases performed
  | faaBlock b j increment =>
    simp only [Memory.exec] at performed
    split at performed
    · rename_i n found
      cases performed
      by_cases here : b = a
      · subst here
        obtain rfl : n = leaf := Node.leaf.inj (Option.some.inj (found.symm.trans there))
        refine ⟨n.setBlock j ((n.kvBlocks j).add increment), by simp [Memory.setNode], by simp [lockAdded, LeafNode.setBlock],
          fun i => ?_⟩
        by_cases slot : i = j
        · subst slot
          simp [slotAdded, LeafNode.setBlock]
        · simp [slotAdded, LeafNode.setBlock, slot, Ne.symm slot, KVBlock.add]
      · refine frame (by simp [Memory.setNode, Function.update_of_ne (Ne.symm here)]) rfl fun i => ?_
        simp [slotAdded, here]
    · cases performed
  | allocNode =>
    simp only [Memory.exec] at performed
    split at performed <;> cases performed
    exact frame rfl rfl fun _ => rfl
  | allocItem =>
    simp only [Memory.exec] at performed
    split at performed
    · split at performed
      · rename_i allocated
        cases performed
        exact frame (by rw [(Memory.allocItem_frame allocated).1]) rfl fun _ => rfl
      · cases performed
    · cases performed
  | dequeue =>
    simp only [Memory.exec] at performed
    split at performed <;> cases performed
    exact frame rfl rfl fun _ => rfl
  | randFingerprint old =>
    simp only [Memory.exec] at performed
    split at performed <;> cases performed
    exact frame rfl rfl fun _ => rfl
  | randAddr old =>
    simp only [Memory.exec] at performed
    split at performed <;> cases performed
    exact frame rfl rfl fun _ => rfl
  | _ =>
    cases performed
    exact frame rfl rfl fun _ => rfl

/-! ## A split that gives up -/

section
variable {a : GlobalAddress} {trace : List (Sigma (signature Key Value).Reply)}

theorem NoNetChange.cons {e : Sigma (signature Key Value).Reply} (writes : ¬ Overwrites a e) (lock : lockAdded a e = 0)
    (slots : ∀ i, slotAdded a i e = 0) (later : NoNetChange a trace) : NoNetChange a (e :: trace) := by
  refine ⟨fun x inside => ?_, by simp [lock, later.lock], fun i => by simp [slots i, later.slots i]⟩
  rcases List.mem_cons.1 inside with rfl | late
  · exact writes
  · exact later.writes x late

theorem NoNetChange.around (first last : List (Sigma (signature Key Value).Reply)) (inner : NoNetChange a trace)
    (writes : ∀ e ∈ first ++ last, ¬ Overwrites a e)
    (lock : ((first ++ last).map (lockAdded a)).sum = 0) (slots : ∀ i, ((first ++ last).map (slotAdded a i)).sum = 0) :
    NoNetChange a (first ++ trace ++ last) := by
  simp only [List.map_append, List.sum_append] at lock slots
  refine ⟨fun e inside => ?_, ?_, fun i => ?_⟩
  · simp only [List.mem_append] at inside writes
    rcases inside with (early | between) | late
    · exact writes e (Or.inl early)
    · exact inner.writes e between
    · exact writes e (Or.inr late)
  · simp [inner.lock, lock]
  · simp [inner.slots i, slots i]

def additions (a : GlobalAddress) (increment : BitVec 64) (l : List ℕ) : List (Sigma (signature Key Value).Reply) :=
  l.map fun i => ⟨⟨.splitLeaf a, .faaBlock a i increment⟩, ()⟩

theorem additions_lock {increment : BitVec 64} {l : List ℕ} :
    ((additions a increment l : List (Sigma (signature Key Value).Reply)).map (lockAdded a)).sum = 0 := by
  induction l with
  | nil => rfl
  | cons i rest ih =>
    simp only [additions, List.map_cons, List.sum_cons] at ih ⊢
    rw [ih]
    rfl

theorem additions_slots {l : List ℕ} (i : ℕ) :
    ((additions a 1 l : List (Sigma (signature Key Value).Reply)).map (slotAdded a i)).sum +
      ((additions a (-1) l : List (Sigma (signature Key Value).Reply)).map (slotAdded a i)).sum = 0 := by
  induction l with
  | nil => rfl
  | cons j rest ih =>
    simp only [additions, List.map_cons, List.sum_cons] at ih ⊢
    rw [add_add_add_comm, ih]
    by_cases same : j = i
    · simp [slotAdded, same]
    · simp [slotAdded, same]

theorem additions_writes {increment : BitVec 64} {l : List ℕ} :
    ∀ e ∈ (additions a increment l : List (Sigma (signature Key Value).Reply)), ¬ Overwrites a e := by
  intro e inside
  obtain ⟨i, -, rfl⟩ := List.mem_map.1 inside
  simp [Overwrites]

theorem yields_lockUnlockKvblocks {toLock : Bool} {l : List ℕ}
    (yields : Yields (lockUnlockKvblocks a toLock l : Index Key Value Unit) trace ()) :
    trace = additions a (if toLock then 1 else -1) l := by
  induction l generalizing trace with
  | nil => exact (yields_value yields).1
  | cons i rest ih =>
    obtain ⟨⟨⟩, later, rfl, tail⟩ := yields_perform yields
    rw [ih tail]
    rfl

theorem yields_readLeafKeys {leaf : LeafNode Key} {l : List ℕ} {keyed : List (Key × KVBlock)}
    (yields : Yields (readLeafKeys a leaf l : Index Key Value _) trace keyed) : NoNetChange a trace := by
  induction l generalizing trace keyed with
  | nil =>
    rw [(yields_value yields).1]
    exact ⟨by simp, rfl, fun _ => rfl⟩
  | cons i rest ih =>
    obtain ⟨key, later, rfl, tail⟩ := yields_perform yields
    obtain ⟨first, others, last, rfl, one, two⟩ := yields_bind (p := readLeafKeys a leaf rest) tail
    rw [(yields_value two).1, List.append_nil]
    exact (ih one).cons (by simp [Overwrites]) rfl fun _ => rfl

end

section
variable [LinearOrder Key] [BoundedOrder Key] [KeyBytes Key] {cfg : Config} {a : GlobalAddress}
  {trace : List (Sigma (signature Key Value).Reply)}

omit [KeyBytes Key] in
theorem splitLeaf_false (yields : Yields (splitLeaf cfg a : Index Key Value Bool) trace false) : NoNetChange a trace := by
  obtain ⟨(found : BitVec 64), rest, rfl, tried⟩ := yields_operation yields
  clear yields
  split at tried
  · -- the lock is taken
    rename_i taken
    rw [(yields_value tried).1]
    refine ⟨by simp [Overwrites], ?_, by simp [slotAdded]⟩
    simpa [lockAdded] using taken
  rename_i free
  rw [not_not] at free
  subst free
  obtain ⟨locks, ⟨⟩, rest, rfl, locking, locked⟩ := yields_bind tried
  clear tried
  obtain ⟨node, rest, rfl, read⟩ := yields_operation locked
  clear locked
  dsimp only at read
  split at read
  · exact absurd read yields_stuck
  obtain ⟨keys, keyed, rest, rfl, reading, counted⟩ := yields_bind read
  clear read
  split at counted
  · obtain ⟨unlocks, ⟨⟩, rest, rfl, unlocking, unlocked⟩ := yields_bind counted
    clear counted
    obtain ⟨⟨⟩, rest, rfl, released⟩ := yields_operation unlocked
    obtain rfl := (yields_value released).1
    rw [yields_lockUnlockKvblocks locking, yields_lockUnlockKvblocks unlocking]
    have inner : NoNetChange a (⟨⟨.splitLeaf a, .readNode a⟩, node⟩ :: keys) :=
      (yields_readLeafKeys reading).cons (by simp [Overwrites]) rfl fun _ => rfl
    have slots := inner.around (additions a 1 (List.range cfg.branchFactor)) (additions a (-1) (List.range cfg.branchFactor))
      ?_ (by simp [additions_lock]) (fun i => by simpa using additions_slots i)
    have whole := slots.around [⟨⟨.splitLeaf a, .casLock a 0 1⟩, (0 : BitVec 64)⟩] [⟨⟨.splitLeaf a, .faaLock a (-1)⟩, ()⟩]
      (by simp [Overwrites]) (by simp [lockAdded]) (fun i => by simp [slotAdded])
    · simpa using whole
    · intro e inside
      rcases List.mem_append.1 inside with early | late
      · exact additions_writes e early
      · exact additions_writes e late
  · -- every other way to return is a success
    exfalso
    obtain ⟨new, rest, rfl, yields⟩ := yields_operation counted
    clear counted
    split at yields
    · exact yields_stuck yields
    obtain ⟨-, ⟨left, right⟩, rest, rfl, -, distributed⟩ := yields_bind yields
    obtain ⟨⟨⟩, rest, rfl, wrote⟩ := yields_operation distributed
    obtain ⟨⟨⟩, rest, rfl, wroteBoth⟩ := yields_operation wrote
    obtain ⟨-, success, rest, rfl, -, linked⟩ := yields_bind wroteBoth
    split at linked
    · obtain ⟨⟨⟩, rest, rfl, released⟩ := yields_operation linked
      exact absurd (yields_value released).2 (by simp)
    · exact yields_stuck linked

/-! ## Lock words and slot locks -/

section
variable {gs : Thread → Local Key Value} {s : State Key Value} {n : Node Key}

omit [LinearOrder Key] [BoundedOrder Key] [KeyBytes Key] in
theorem Disciplined.born_or_draft (inv : Disciplined cfg gs s) (there : s.memory.nodes a = some n) :
    Born gs s.memory a n ∨ n.Unlocked cfg ∧ ∀ t, a ∉ (gs t).smo.held := by
  by_cases fresh : Fresh gs a
  · obtain ⟨t, content, own⟩ := fresh
    have content : some n = content := there.symm.trans (inv.discipline.levels.fresh t a content own).2
    subst content
    exact Or.inr ⟨inv.drafts t a n own, fun u => inv.discipline.not_held_fresh own⟩
  · exact Or.inl ⟨there, fresh⟩

omit [LinearOrder Key] [BoundedOrder Key] [KeyBytes Key] in
theorem Disciplined.lock_word (inv : Disciplined cfg gs s) (there : s.memory.nodes a = some n) :
    (∃ t, a ∈ heldBy t s.history) ∧ n.header.lock = 1 ∨ (∀ t, a ∉ heldBy t s.history) ∧ n.header.lock = 0 := by
  simp only [← inv.held]
  rcases inv.born_or_draft there with born | ⟨unlocked, free⟩
  · by_cases held : ∃ t, a ∈ (gs t).smo.held
    · obtain ⟨t, mine⟩ := held
      exact Or.inl ⟨⟨t, mine⟩, inv.discipline.words.taken a n t born mine⟩
    · rw [not_exists] at held
      exact Or.inr ⟨held, inv.discipline.words.free a n born held⟩
  · refine Or.inr ⟨free, ?_⟩
    cases n with
    | leaf leaf => exact unlocked.1
    | internal node => exact unlocked

omit [LinearOrder Key] [BoundedOrder Key] [KeyBytes Key] in
theorem Disciplined.holder_unique (inv : Disciplined cfg gs s) {t u : Thread} (one : a ∈ heldBy t s.history)
    (two : a ∈ heldBy u s.history) : t = u := by
  rw [← inv.held] at one two
  exact inv.discipline.chains.owner t u a one two

omit [LinearOrder Key] [BoundedOrder Key] [KeyBytes Key] in
theorem Disciplined.slots_free {leaf : LeafNode Key} (inv : Disciplined cfg gs s)
    (there : s.memory.nodes a = some (.leaf leaf)) (free : leaf.header.lock = 0) {i : ℕ} (bound : i < cfg.branchFactor) :
    (leaf.kvBlocks i).isLocked = false := by
  rcases inv.born_or_draft there with born | ⟨unlocked, -⟩
  · refine inv.discipline.bits.free a leaf born (fun t held => ?_) i bound
    have := inv.discipline.words.taken a _ t born held
    simp [Node.header, free] at this
  · exact unlocked.2 i bound

theorem Disciplined.addition (inv : Disciplined cfg gs s) {t : Thread} {site : Site} {i : ℕ} {increment : BitVec 64}
    {leaf : LeafNode Key} (there : s.memory.nodes a = some (.leaf leaf)) {m : Memory Key Value} {g : Local Key Value}
    (permitted : Permits cfg t gs s.memory ⟨site, .faaBlock a i increment⟩ () m g) :
    increment = 1 ∧ (leaf.kvBlocks i).isLocked = false ∧ (leaf.kvBlocks i).add increment = (leaf.kvBlocks i).setLocked true ∨
      increment = -1 ∧ (leaf.kvBlocks i).isLocked = true ∧
        (leaf.kvBlocks i).add increment = (leaf.kvBlocks i).setLocked false := by
  cases permitted with
  | @slotLocked _ node _ found only clear bound =>
    obtain rfl : node = leaf := Node.leaf.inj (Option.some.inj (found.symm.trans there))
    have mine : a ∈ (gs t).smo.held := by simp [only]
    have bit := inv.discipline.bits.taken a node t (inv.discipline.born_of_held mine there) mine i bound
    rw [clear] at bit
    exact Or.inl ⟨rfl, bit, KVBlock.add_one bit⟩
  | @slotUnlocked _ node _ found only locked bound =>
    obtain rfl : node = leaf := Node.leaf.inj (Option.some.inj (found.symm.trans there))
    have mine : a ∈ (gs t).smo.held := by simp [only]
    have bit := inv.discipline.bits.taken a node t (inv.discipline.born_of_held mine there) mine i bound
    rw [locked] at bit
    exact Or.inr ⟨rfl, bit, KVBlock.add_minus_one bit⟩

theorem Disciplined.overwrite (inv : Disciplined cfg gs s) {t : Thread} {site : Site} {old : Node Key}
    (there : s.memory.nodes a = some old) {m : Memory Key Value} {g : Local Key Value}
    (permitted : Permits cfg t gs s.memory ⟨site, .writeNode a n⟩ () m g) :
    a ∈ heldBy t s.history ∧ n.header.lock = 1 := by
  -- only the holder of a node overwrites it, and the node stays locked
  have word : ∀ {x : InternalNode Key} {rest : List GlobalAddress}, (gs t).smo.held = a :: rest →
      (gs t).smo.node = some x → x.header.lock = 1 := by
    intro x rest held noted
    obtain ⟨b, head, born⟩ := inv.discipline.notes.node t x noted
    obtain rfl : a = b := by simpa [held] using head
    exact inv.discipline.words.taken a _ t born (by simp [held])
  rw [← inv.held]
  cases permitted with
  | writeFresh fresh =>
    have empty := (inv.discipline.levels.fresh t a none fresh).2
    simp [there] at empty
  | leafSplit only kept _ _ _ _ _ distributes =>
    obtain ⟨b, leaf, held, born, header, -⟩ := inv.discipline.notes.kept t _ kept
    obtain rfl : a = b := by simpa [only] using held
    have taken := inv.discipline.words.taken a _ t born (by simp [only])
    refine ⟨by simp [only], ?_⟩
    simp only [Node.header, distributes.leftHeader, ← header]
    exact taken
  | linked held noted =>
    have lock := word held noted
    exact ⟨by simp [held], lock⟩
  | nodeSplit held noted =>
    have lock := word held noted
    exact ⟨by simp [held], lock⟩

end

/-- A lock word is 0 or 1, and 1 exactly while one thread holds the lock; only the holder overwrites a node; a
fetch-and-add on a slot meets the bit it changes and changes only that; an unlocked leaf has no locked slot; and a split
that returns `false` has changed nothing. -/
theorem lock_words {m : Memory Key Value} (initialized : m.Initialized) {P : IndexPool Key Value}
    (run : Reaches (system cfg calls fun _ _ => False) anything (Pool.start ⟨m, []⟩) P) :
    (∀ a n, P.shared.memory.nodes a = some n → (n.header.lock = 0 ∨ n.header.lock = 1) ∧
      (n.header.lock = 1 ↔ ∃! t, a ∈ heldBy t P.shared.history)) ∧
    (∀ t call site a n next done old, P.threads t = some ⟨call, .perform ⟨site, .writeNode a n⟩ next, done⟩ →
      P.shared.memory.nodes a = some old → a ∈ heldBy t P.shared.history ∧ n.header.lock = 1) ∧
    (∀ t call site a i increment next done leaf,
      P.threads t = some ⟨call, .perform ⟨site, .faaBlock a i increment⟩ next, done⟩ →
      P.shared.memory.nodes a = some (.leaf leaf) →
      increment = 1 ∧ (leaf.kvBlocks i).isLocked = false ∧
          (leaf.kvBlocks i).add increment = (leaf.kvBlocks i).setLocked true ∨
        increment = -1 ∧ (leaf.kvBlocks i).isLocked = true ∧
          (leaf.kvBlocks i).add increment = (leaf.kvBlocks i).setLocked false) ∧
    (∀ a leaf, P.shared.memory.nodes a = some (.leaf leaf) → leaf.header.lock = 0 →
      ∀ i < cfg.branchFactor, (leaf.kvBlocks i).isLocked = false) ∧
    (∀ t a outcome done, P.threads t = some ⟨.split a, .value outcome, done⟩ → outcome.ok = false →
      NoNetChange a done.reverse) ∧
    ∀ a trace, Yields (splitLeaf cfg a : Index Key Value Bool) trace false → NoNetChange a trace := by
  obtain ⟨gs, explains⟩ := disciplined_reaches initialized run
  have inv := explains.holds
  refine ⟨fun a n there => ?_, fun t call site a n next done old running there => ?_,
    fun t call site a i increment next done leaf running there => ?_, fun a leaf there free i bound =>
      inv.slots_free there free bound,
    fun t a outcome done running failed => ?_, fun a trace yields => splitLeaf_false yields⟩
  · rcases inv.lock_word there with ⟨⟨t, held⟩, taken⟩ | ⟨free, open_⟩
    · refine ⟨Or.inr taken, fun _ => ⟨t, held, fun u also => inv.holder_unique also held⟩, fun _ => taken⟩
    · refine ⟨Or.inl open_, fun taken => absurd (open_.symm.trans taken) (by decide), ?_⟩
      rintro ⟨t, held, -⟩
      exact absurd held (free t)
  · obtain ⟨g, ⟨permitted, -⟩, -⟩ := explains.permits running
      (c := 0) (r := ()) (s := ⟨P.shared.memory.setNode a n,
        .performed t ⟨site, .writeNode a n⟩ () P.shared.memory :: P.shared.history⟩)
      (by simp [system, State.exec, Memory.exec])
    exact inv.overwrite there permitted
  · obtain ⟨g, ⟨permitted, -⟩, -⟩ := explains.permits running
      (c := 0) (r := ()) (s := ⟨P.shared.memory.setNode a (.leaf (leaf.setBlock i ((leaf.kvBlocks i).add increment))),
        .performed t ⟨site, .faaBlock a i increment⟩ () P.shared.memory :: P.shared.history⟩)
      (by simp [system, State.exec, Memory.exec, there])
    exact inv.addition there permitted
  · obtain ⟨trace, ok, rest, eq, split, returned⟩ := yields_bind (reaches_yields run running .value)
    obtain ⟨rfl, rfl⟩ := yields_value returned
    obtain rfl : ok = false := failed
    rw [List.append_nil, List.append_nil] at eq
    exact eq ▸ splitLeaf_false split

def byteKey (n : ℕ) : Fin 256 := ⟨n % 256, Nat.mod_lt n (by decide)⟩

/-- Four inserts split the root, which gets a root above it; two more leave three keys in each leaf. -/
def sixInserts : List (Move Thread (BitVec 64) (Call (Fin 256) ℕ)) :=
  Move.whole ⟨0, 0⟩ (.insert (byteKey 10) 0) 1#64 8 ++ Move.whole ⟨0, 0⟩ (.insert (byteKey 20) 0) 2#64 8 ++ Move.whole ⟨0, 0⟩
    (.insert (byteKey 30) 0) 3#64 8 ++
      Move.part ⟨0, 0⟩ (.insert (byteKey 40) 0) 4#64 1 ++ List.replicate 30 (.act ⟨0, 0⟩ 100#64) ++ List.replicate 6
      (.act ⟨0, 0⟩ 101#64) ++
    [.return ⟨0, 0⟩] ++ Move.whole ⟨0, 0⟩ (.insert (byteKey 11) 0) 5#64 8 ++ Move.whole ⟨0, 1⟩ (.insert (byteKey 31) 0) 6#64 8

def lockingSlots : IndexPool (Fin 256) ℕ :=
  (Pool.start ⟨smallMemory, []⟩).drive (system smallConfig calls fun _ _ => False) rootCalls freely
    (sixInserts ++ Move.part ⟨0, 0⟩ (.insert (byteKey 12) 0) 7#64 1 ++ List.replicate 9 (.act ⟨0, 0⟩ 200#64))

theorem reaches_lockingSlots : Reaches (system smallConfig calls fun _ _ => False) anything (Pool.start ⟨smallMemory, []⟩)
    lockingSlots :=
  reaches_drive calls_of_rootCalls (fun _ _ _ _ _ => trivial) _ _

/-- The fetch-and-add on a slot that a thread is about to do. -/
def slotAddition (P : IndexPool (Fin 256) ℕ) (t : Thread) : Option (GlobalAddress × ℕ × BitVec 64) :=
  (P.threads t).bind fun
    | ⟨_, .perform ⟨_, .faaBlock a i increment⟩ _, _⟩ => some (a, i, increment)
    | _ => none

theorem running_of_slotAddition {P : IndexPool (Fin 256) ℕ} {t : Thread} {i : ℕ} {increment : BitVec 64}
    (adding : slotAddition P t = some (a, i, increment)) :
    ∃ call site next done, P.threads t = some ⟨call, .perform ⟨site, .faaBlock a i increment⟩ next, done⟩ := by
  obtain ⟨⟨call, rest, done⟩, running, is⟩ := Option.bind_eq_some_iff.1 adding
  cases rest with
  | perform o next =>
    obtain ⟨site, act⟩ := o
    cases act with
    | faaBlock b j c =>
      cases is
      exact ⟨_, _, _, _, running⟩
    | _ => cases is
  | _ => cases is

def leafAt (P : IndexPool (Fin 256) ℕ) (a : GlobalAddress) : Option (LeafNode (Fin 256)) :=
  (P.shared.memory.nodes a).bind fun
    | .leaf leaf => some leaf
    | .internal _ => none

theorem leafAt_eq_some {P : IndexPool (Fin 256) ℕ} {leaf : LeafNode (Fin 256)} (found : leafAt P a = some leaf) :
    P.shared.memory.nodes a = some (.leaf leaf) := by
  obtain ⟨n, there, is⟩ := Option.bind_eq_some_iff.1 found
  cases n with
  | leaf n =>
    cases is
    exact there
  | internal n => cases is

/-- The locked leaf has one holder, whose next fetch-and-add sets the lock bit of slot 1 and changes nothing else. -/
theorem lock_words_lockingSlots : ∃ leaf, leafAt lockingSlots ⟨0⟩ = some leaf ∧ leaf.header.lock = 1 ∧
    (∃! t, ⟨0⟩ ∈ heldBy t lockingSlots.shared.history) ∧ (leaf.kvBlocks 0).isLocked = true ∧
    (leaf.kvBlocks 1).add 1 = (leaf.kvBlocks 1).setLocked true := by
  have words := lock_words (Memory.emptyTree_initialized _ _) reaches_lockingSlots
  have adding : slotAddition lockingSlots ⟨0, 0⟩ = some (⟨0⟩, 1, 1) := by decide +kernel
  have state : (leafAt lockingSlots ⟨0⟩).map (fun leaf => (leaf.header.lock, (leaf.kvBlocks 0).isLocked)) = some (1, true) := by
    decide +kernel
  obtain ⟨leaf, found, both⟩ := Option.map_eq_some_iff.1 state
  obtain ⟨lock, locked⟩ := Prod.mk.inj both
  have there := leafAt_eq_some found
  obtain ⟨call, site, next, done, running⟩ := running_of_slotAddition adding
  have adds : (leaf.kvBlocks 1).add 1 = (leaf.kvBlocks 1).setLocked true := by
    rcases words.2.2.1 _ _ _ _ _ _ _ _ leaf running there with ⟨-, -, sets⟩ | ⟨minus, -, -⟩
    · exact sets
    · exact absurd minus (by decide)
  exact ⟨leaf, found, lock, (words.1 _ _ there).2.1 lock, locked, adds⟩

/-! ## Waiting -/

def WaitsFor (s : State Key Value) (t u : Thread) : Prop := ∃ a, waitsOn t s.history = some a ∧ a ∈ heldBy u s.history

section
variable {gs : Thread → Local Key Value} {s : State Key Value}

omit [LinearOrder Key] [BoundedOrder Key] [KeyBytes Key] in
theorem Disciplined.held_level (inv : Disciplined cfg gs s) {t : Thread} {above rest : List GlobalAddress}
    (held : heldBy t s.history = above ++ a :: rest) : ∃ n, s.memory.nodes a = some n ∧ n.header.level = rest.length := by
  rw [← inv.held] at held
  obtain ⟨⟨n, born, level⟩, -⟩ := inv.discipline.chains.chain t above a rest held
  exact ⟨n, born.1, level⟩

omit [LinearOrder Key] [BoundedOrder Key] [KeyBytes Key] in
theorem Disciplined.waits_level (inv : Disciplined cfg gs s) {t : Thread} (waits : waitsOn t s.history = some a) :
    ∃ n, s.memory.nodes a = some n ∧ (heldBy t s.history).length ≤ n.header.level := by
  rw [← inv.waiting] at waits
  obtain ⟨level, ⟨⟨n, born, rfl⟩, -⟩, high⟩ := inv.discipline.views.waiting t a waits
  exact ⟨n, born.1, by rwa [← inv.held]⟩

omit [LinearOrder Key] [BoundedOrder Key] [KeyBytes Key] in
theorem Disciplined.waitsFor_length (inv : Disciplined cfg gs s) {t u : Thread} (waits : WaitsFor s t u) :
    (heldBy t s.history).length < (heldBy u s.history).length := by
  obtain ⟨a, waiting, held⟩ := waits
  obtain ⟨n, there, high⟩ := inv.waits_level waiting
  obtain ⟨above, rest, eq⟩ := List.append_of_mem held
  obtain ⟨x, also, level⟩ := inv.held_level eq
  obtain rfl : n = x := Option.some.inj (there.symm.trans also)
  rw [eq, List.length_append, List.length_cons]
  omega

end

/-- The locks of a thread stand on the levels 0, 1, 2 and so on in the order in which they were taken, a
thread waits for nodes above all of its locks, and no threads wait for each other in a circle. -/
theorem no_circular_wait {m : Memory Key Value} (initialized : m.Initialized) {P : IndexPool Key Value}
    (run : Reaches (system cfg calls fun _ _ => False) anything (Pool.start ⟨m, []⟩) P) :
    (∀ t k a, (heldBy t P.shared.history).reverse[k]? = some a →
      ∃ n, P.shared.memory.nodes a = some n ∧ n.header.level = k) ∧
    (∀ t a, waitsOn t P.shared.history = some a → ∃ n, P.shared.memory.nodes a = some n ∧
      ∀ b ∈ heldBy t P.shared.history, ∀ x, P.shared.memory.nodes b = some x → x.header.level < n.header.level) ∧
    ∀ t, ¬ Relation.TransGen (WaitsFor P.shared) t t := by
  obtain ⟨gs, explains⟩ := disciplined_reaches initialized run
  have inv := explains.holds
  refine ⟨fun t k a taken => ?_, fun t a waits => ?_, fun t circle => ?_⟩
  · obtain ⟨bound, rfl⟩ := List.getElem?_eq_some_iff.1 taken
    have order := congrArg List.reverse
      ((List.take_append_drop k _).symm.trans (congrArg _ (List.drop_eq_getElem_cons bound)))
    rw [List.reverse_reverse, List.reverse_append, List.reverse_cons, List.append_assoc, List.singleton_append] at order
    obtain ⟨n, there, level⟩ := inv.held_level order
    refine ⟨n, there, level.trans ?_⟩
    rw [List.length_reverse, List.length_take, min_eq_left (le_of_lt bound)]
  · obtain ⟨n, there, high⟩ := inv.waits_level waits
    refine ⟨n, there, fun b held x also => ?_⟩
    obtain ⟨above, rest, eq⟩ := List.append_of_mem held
    obtain ⟨y, found, level⟩ := inv.held_level eq
    obtain rfl : x = y := Option.some.inj (also.symm.trans found)
    rw [eq, List.length_append, List.length_cons] at high
    omega
  · have longer : ∀ {u v}, Relation.TransGen (WaitsFor P.shared) u v →
        (heldBy u P.shared.history).length < (heldBy v P.shared.history).length := by
      intro u v path
      induction path with
      | single waits => exact inv.waitsFor_length waits
      | tail _ waits ih => exact ih.trans (inv.waitsFor_length waits)
    exact lt_irrefl _ (longer circle)

/-- Two threads split the two leaves; one has locked the root and the other waits for it. -/
def waitingForRoot : IndexPool (Fin 256) ℕ :=
  (Pool.start ⟨smallMemory, []⟩).drive (system smallConfig calls fun _ _ => False) rootCalls freely
    (sixInserts ++ Move.part ⟨0, 1⟩ (.insert (byteKey 32) 0) 8#64 1 ++ List.replicate 30 (.act ⟨0, 1⟩ 201#64) ++
      Move.part ⟨0, 0⟩ (.insert (byteKey 12) 0) 7#64 1 ++ List.replicate 31 (.act ⟨0, 0⟩ 200#64) ++ [.act ⟨0, 1⟩ 201#64])

theorem reaches_waitingForRoot : Reaches (system smallConfig calls fun _ _ => False) anything (Pool.start ⟨smallMemory, []⟩)
    waitingForRoot :=
  reaches_drive calls_of_rootCalls (fun _ _ _ _ _ => trivial) _ _

theorem no_circular_wait_waitingForRoot :
    heldBy ⟨0, 0⟩ waitingForRoot.shared.history = [⟨101⟩, ⟨0⟩] ∧ heldBy ⟨0, 1⟩ waitingForRoot.shared.history = [⟨100⟩] ∧
      waitsOn ⟨0, 1⟩ waitingForRoot.shared.history = some ⟨101⟩ ∧
      ∀ t, ¬ Relation.TransGen (WaitsFor waitingForRoot.shared) t t := by
  have waits := no_circular_wait (Memory.emptyTree_initialized _ _) reaches_waitingForRoot
  exact ⟨by decide +kernel, by decide +kernel, by decide +kernel, waits.2.2⟩

end

end Faunus
