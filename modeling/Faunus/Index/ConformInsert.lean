import Faunus.Index.ConformSplit
import Faunus.Index.Probing

/-! Reads and inserts conform to the machine. -/

set_option autoImplicit false

namespace Faunus

open Interleaving

variable {Key Value : Type} [LinearOrder Key] [BoundedOrder Key] [KeyBytes Key] {cfg : Config} {t : Thread}

/-! ## Candidates -/

/-- The slots that carry the key's fingerprint, in order. -/
def candidates (cfg : Config) (leaf : LeafNode Key) (key : Key) : List ℕ :=
  (List.range cfg.branchFactor).filter fun i =>
    !(leaf.kvBlocks i).isFree && (leaf.kvBlocks i).getFingerprint == .ofKey key

omit [LinearOrder Key] [BoundedOrder Key] in
theorem mem_candidates {leaf : LeafNode Key} {key : Key} {i : ℕ} :
    i ∈ candidates cfg leaf key ↔ candidate cfg leaf key i := by
  simp [candidates, candidate]

omit [LinearOrder Key] [BoundedOrder Key] in
theorem candidates_sorted (leaf : LeafNode Key) (key : Key) : (candidates cfg leaf key).Pairwise (· < ·) :=
  List.pairwise_lt_range.sublist List.filter_sublist

def keysOf (found : List (Candidate Key Value)) : List (ℕ × Key) := found.map fun c => (c.1, c.2.1)

section
variable {A : Type} {post : A → Local Key Value → Prop} {a : GlobalAddress} {leaf : LeafNode Key} {key : Key}
  {g : Local Key Value}

def Local.look (g : Local Key Value) (looked : List (ℕ × Key)) : Local Key Value :=
  { g with put := { g.put with looked } }

theorem conforms_readCandidates (fromRead : Bool) (l : List ℕ) (seen : g.put.seen = some (a, leaf))
    (live : ∀ i ∈ l, i < cfg.branchFactor ∧ (leaf.kvBlocks i).isFree = false) :
    Conforms cfg t (fun found g' => g' = g.look (g.put.looked ++ keysOf found) ∧ found.map Prod.fst = l)
      (readCandidates fromRead (l.map fun i => (i, (leaf.kvBlocks i).getAddr))) g := by
  induction l generalizing g with
  | nil => exact ⟨by simp [keysOf, Local.look], rfl⟩
  | cons i rest ih =>
    obtain ⟨bound, taken⟩ := live i List.mem_cons_self
    have later : ∀ (k : Key) (v : Option Value), Conforms cfg t
        (fun found g' => g' = g.look (g.put.looked ++ keysOf found) ∧ found.map Prod.fst = i :: rest)
        (do
          let others ← readCandidates fromRead (rest.map fun i => (i, (leaf.kvBlocks i).getAddr))
          pure ((i, k, v) :: others)) (g.look (g.put.looked ++ [(i, k)])) := by
      intro k v
      refine conforms_bind (conforms_mono (ih (g := g.look (g.put.looked ++ [(i, k)])) seen
        fun j inside => live j (List.mem_cons_of_mem _ inside)) ?_)
      rintro found g' ⟨rfl, eq⟩
      exact ⟨by simp [keysOf, Local.look], by simp [eq]⟩
    unfold readCandidates
    cases fromRead with
    | true =>
      refine conforms_bind (conforms_readItem fun gs m inv own => ?_)
      subst own
      exact ⟨_, .lookItem seen bound taken, later _ _⟩
    | false =>
      refine conforms_bind (conforms_readKey fun gs m inv own => ?_)
      subst own
      exact ⟨_, .lookKey seen bound taken, later _ _⟩

/-- What `get_candidate_kvs` has found: nothing was read, or every candidate was. -/
def Collected (cfg : Config) (leaf : LeafNode Key) (key : Key) (g : Local Key Value)
    (found : List (Candidate Key Value)) (g' : Local Key Value) : Prop :=
  g' = g.look (g.put.looked ++ keysOf found) ∧ found.map Prod.fst = candidates cfg leaf key

theorem conforms_getCandidateKvs (key : Key) (fromInsert fromRead : Bool) (seen : g.put.seen = some (a, leaf)) :
    Conforms cfg t (fun reply g' =>
        (reply.1 = true → fromRead = false → ∀ i < cfg.branchFactor, (leaf.kvBlocks i).isLocked = false) ∧
        (reply.2 = [] ∧ g' = g ∧ (reply.1 = true → fromInsert = true) ∨
          reply.1 = true ∧ Collected cfg leaf key g reply.2 g'))
      (getCandidateKvs cfg leaf (.ofKey key) fromInsert fromRead) g := by
  unfold getCandidateKvs getFingerprintCollisions
  dsimp only
  split
  · exact ⟨by simp, Or.inl ⟨rfl, rfl, by simp⟩⟩
  rename_i usable
  have unlocked : fromRead = false → ∀ i < cfg.branchFactor, (leaf.kvBlocks i).isLocked = false := by
    intro noRead i bound
    by_contra locked
    exact usable ⟨List.any_eq_true.2 ⟨i, List.mem_range.2 bound, by simpa using locked⟩, noRead⟩
  split
  · rename_i single
    exact ⟨fun _ => unlocked, Or.inl ⟨rfl, rfl, fun _ => single.1⟩⟩
  · refine conforms_bind (conforms_mono (conforms_readCandidates fromRead (candidates cfg leaf key) seen fun i inside => ?_) ?_)
    · obtain ⟨bound, taken, -⟩ := mem_candidates.1 inside
      exact ⟨bound, taken⟩
    · rintro found g' collected
      exact ⟨fun _ => unlocked, Or.inr ⟨rfl, collected⟩⟩

omit [LinearOrder Key] [BoundedOrder Key] in
theorem Collected.missed {found : List (Candidate Key Value)} {g' : Local Key Value}
    (collected : Collected cfg leaf key g found g') (none : ∀ c ∈ found, c.2.1 ≠ key) :
    g'.put.missed cfg leaf key cfg.branchFactor := by
  intro i bound inside
  rw [← mem_candidates, ← collected.2] at inside
  obtain ⟨c, member, rfl⟩ := List.mem_map.1 inside
  refine ⟨c.2.1, ?_, none c member⟩
  rw [collected.1]
  exact List.mem_append_right _ (List.mem_map.2 ⟨c, member, rfl⟩)

/-! ## Duplicates -/

/-- The thread stands at the leaf it has read, and the leaf may hold the key. -/
structure AtLeaf (g : Local Key Value) (a : GlobalAddress) (leaf : LeafNode Key) (key : Key) : Prop where
  target : g.view.target = some (a, 0)
  seen : g.put.seen = some (a, leaf)
  covers : leaf.header.covers key

theorem conforms_tryDeleteKvblock {i j : ℕ} (at_ : AtLeaf g a leaf key) (high : candidate cfg leaf key i)
    (low : candidate cfg leaf key j) (less : j < i) (one : (i, key) ∈ g.put.looked) (two : (j, key) ∈ g.put.looked) :
    Conforms cfg t (fun _ g' => g' = g) (tryDeleteKvblock cfg a i (leaf.kvBlocks i)) g := by
  have last : Conforms cfg t (fun (_ : Bool) g' => g' = g)
      (if (leaf.kvBlocks i).raw = cfg.expectedPointer then do
        freeItem .tryDeleteKvblock (leaf.kvBlocks i).getAddr
        pure true
      else pure false) g := by
    split
    · rename_i pointer
      refine conforms_freeItem fun gs m inv own => ?_
      subst own
      exact ⟨_, .freeDeleted at_.seen high low less one two pointer, rfl⟩
    · rfl
  unfold tryDeleteKvblock
  refine conforms_setDifferentRandomFpAddr fun random => ?_
  refine conforms_casBlock (fun gs m now inv own there same => ?_) fun _ _ => last
  subst own
  have step : Permits cfg t gs m ⟨.tryDeleteKvblock, .casBlock a i (leaf.kvBlocks i) (deletedBlock (leaf.kvBlocks i) random)⟩
      (now.kvBlocks i) (m.setNode a (.leaf (now.setBlock i (deletedBlock (leaf.kvBlocks i) random)))) (gs t) :=
    .slotDeleted there at_.target same at_.seen at_.covers high low less one two (by simp [deletedBlock]) (by simp [deletedBlock])
  rw [same] at step
  exact ⟨_, step, last⟩

theorem conforms_removeDupes (found : List (Candidate Key Value)) (first : Option (Option Value)) (at_ : AtLeaf g a leaf key)
    (sorted : (found.map Prod.fst).Pairwise (· < ·))
    (read : ∀ c ∈ found, candidate cfg leaf key c.1 ∧ (c.1, c.2.1) ∈ g.put.looked)
    (before : first.isSome = true → ∃ j, candidate cfg leaf key j ∧ (j, key) ∈ g.put.looked ∧ ∀ c ∈ found, j < c.1) :
    Conforms cfg t (fun reply g' => g' = g ∧ (reply = none → first = none ∧ ∀ c ∈ found, c.2.1 ≠ key))
      (removeDupes cfg key a leaf found first) g := by
  induction found generalizing first with
  | nil => exact ⟨rfl, fun none => ⟨none, fun c inside => absurd inside List.not_mem_nil⟩⟩
  | cons c rest ih =>
    obtain ⟨i, k, v⟩ := c
    simp only [List.map_cons, List.pairwise_cons] at sorted
    have read' : ∀ c ∈ rest, candidate cfg leaf key c.1 ∧ (c.1, c.2.1) ∈ g.put.looked :=
      fun c inside => read c (List.mem_cons_of_mem _ inside)
    obtain ⟨here, looked⟩ := read (i, k, v) List.mem_cons_self
    unfold removeDupes
    split
    · rename_i same
      subst same
      cases first with
      | none =>
        refine conforms_mono (ih (some v) sorted.2 read' fun _ => ⟨i, here, looked, fun c inside => ?_⟩) ?_
        · exact sorted.1 c.1 (List.mem_map_of_mem inside)
        · exact fun reply g' done => ⟨done.1, fun none => absurd (done.2 none).1 (by simp)⟩
      | some w =>
        obtain ⟨j, lower, lookedLower, less⟩ := before rfl
        refine conforms_bind (conforms_mono (conforms_tryDeleteKvblock at_ here lower (less (i, k, v) List.mem_cons_self) looked
          lookedLower) ?_)
        rintro - g' rfl
        refine conforms_mono (ih (some w) sorted.2 read' fun _ => ⟨j, lower, lookedLower, fun c inside => ?_⟩) ?_
        · exact less c (List.mem_cons_of_mem _ inside)
        · exact fun reply g' done => ⟨done.1, fun none => absurd (done.2 none).1 (by simp)⟩
    · rename_i other
      refine conforms_mono (ih first sorted.2 read' fun is => ?_) ?_
      · obtain ⟨j, lower, lookedLower, less⟩ := before is
        exact ⟨j, lower, lookedLower, fun c inside => less c (List.mem_cons_of_mem _ inside)⟩
      · rintro reply g' ⟨rfl, none⟩
        refine ⟨rfl, fun is => ⟨(none is).1, fun c inside => ?_⟩⟩
        rcases List.mem_cons.1 inside with rfl | later
        · exact other
        · exact (none is).2 c later

omit [LinearOrder Key] [BoundedOrder Key] in
theorem Collected.read {found : List (Candidate Key Value)} {g' : Local Key Value}
    (collected : Collected cfg leaf key g found g') :
    ∀ c ∈ found, candidate cfg leaf key c.1 ∧ (c.1, c.2.1) ∈ g'.put.looked := by
  intro c inside
  refine ⟨mem_candidates.1 (collected.2 ▸ List.mem_map_of_mem inside), ?_⟩
  rw [collected.1]
  exact List.mem_append_right _ (List.mem_map.2 ⟨c, inside, rfl⟩)

theorem conforms_handleLocalRemoveDupes (fromInsert fromRead : Bool) (target : g.view.target = some (a, 0))
    (seen : g.put.seen = some (a, leaf)) :
    Conforms cfg t (fun reply g' => ∃ looked, g' = g.look looked ∧
        (reply.1 = true → reply.2 = none → fromInsert = false →
          leaf.header.covers key ∧ g'.put.missed cfg leaf key cfg.branchFactor))
      (handleLocalRemoveDupes cfg key a leaf fromInsert fromRead) g := by
  -- only what was looked at has changed; a reader that found nothing has seen every candidate
  unfold handleLocalRemoveDupes
  split
  · exact ⟨_, rfl, by simp⟩
  rename_i covers
  rw [not_not] at covers
  split
  · exact ⟨_, rfl, by simp⟩
  refine conforms_bind (conforms_mono (conforms_getCandidateKvs key fromInsert fromRead seen) ?_)
  rintro ⟨success, found⟩ g' ⟨-, ⟨empty, rfl, early⟩ | ⟨-, collected⟩⟩
  · obtain rfl : found = [] := empty
    refine ⟨g'.put.looked, rfl, fun is _ noInsert => ?_⟩
    simp [early is] at noInsert
  have look := collected.1
  dsimp only at look collected ⊢
  split
  · rename_i empty
    refine ⟨_, look, fun _ _ _ => ⟨covers, collected.missed ?_⟩⟩
    rw [List.isEmpty_iff.1 empty]
    exact fun c inside => absurd inside List.not_mem_nil
  · have at_ : AtLeaf g' a leaf key := by
      rw [look]
      exact ⟨target, seen, covers⟩
    refine conforms_bind (conforms_mono (conforms_removeDupes found none at_ ?_ collected.read (by simp)) ?_)
    · rw [collected.2]
      exact candidates_sorted leaf key
    · rintro reply g'' ⟨rfl, none⟩
      exact ⟨_, look, fun _ is _ => ⟨covers, collected.missed (none is).2⟩⟩

/-! ## Reads -/

theorem conforms_readLeaf {site : Site} (from_ : site = .insert ∨ site = .read) {f : Node Key → Index Key Value A}
    (wanted : g.put.wanted = some key) (target : g.view.target = some (a, 0))
    (next : ∀ leaf, Conforms cfg t post (f (.leaf leaf))
      { g with put := { g.put with seen := some (a, leaf), looked := [] } }) :
    Conforms cfg t post (readNode site a >>= f) g := by
  refine conforms_readNode fun gs m n inv own there => ?_
  subst own
  obtain ⟨born, bottom⟩ := inv.born_of_target target there
  cases n with
  | internal node =>
    obtain ⟨below, eq, -⟩ := inv.levels.sound a _ born
    rw [Node.header, eq] at bottom
    cases bottom
  | leaf leaf => exact ⟨_, .readLeaf from_ wanted there target, next leaf⟩

theorem conforms_readLoop (attempts : ℕ) (smo : g.smo = .idle) (wanted : g.put.wanted = some key) :
    Conforms cfg t (fun outcome g' => g'.smo = .idle ∧ Returns cfg g'.put (.read key) outcome)
      (readLoop cfg key attempts) g := by
  induction attempts generalizing g with
  | zero => trivial
  | succ attempts ih =>
    unfold readLoop
    refine conforms_bind (conforms_mono (conforms_findNode key 0 false g (by simp) (by simp)) ?_)
    rintro ⟨result, b⟩ g' ⟨view, rfl, found, -⟩
    cases result with
    | unknown => trivial
    | noSuchLevel => trivial
    | locked => exact ih smo wanted
    | found =>
      refine conforms_readLeaf (Or.inr rfl) wanted (found rfl) fun leaf => ?_
      refine conforms_bind (conforms_mono (conforms_handleLocalRemoveDupes false true (found rfl) rfl) ?_)
      rintro ⟨success, value⟩ g' ⟨looked, rfl, nothing⟩
      cases success with
      | false => exact ih smo wanted
      | true =>
        refine ⟨smo, fun missing => ?_⟩
        have none : value = none := by simpa using missing
        obtain ⟨covers, missed⟩ := nothing rfl none rfl
        exact ⟨b, leaf, rfl, covers, missed⟩

/-! ## Inserts -/

/-- An insert on the way: its item, and the leaf it may use at once. -/
structure Inserting (key : Key) (value : Value) (address : GlobalAddress) (wrote : Bool)
    (leafRead : Option (GlobalAddress × LeafNode Key)) (g : Local Key Value) : Prop where
  smo : g.smo = .idle
  wanted : g.put.wanted = some key
  item : g.put.item = some (address, ⟨key, value⟩, wrote)
  leaf : ∀ a leaf, leafRead = some (a, leaf) → wrote = true ∧ AtLeaf g a leaf key ∧ leaf.header.lock = 0

theorem conforms_tryUpdateLoop {value : Value} {address : GlobalAddress} {i : ℕ} (at_ : AtLeaf g a leaf key)
    (ready : g.put.ready cfg a leaf address ⟨key, value⟩) (here : candidate cfg leaf key i) (looked : (i, key) ∈ g.put.looked)
    (missed : g.put.missed cfg leaf key i) (bound : ℕ) (expected tmp : KVBlock)
    (fp : expected.getFingerprint = .ofKey key) :
    Conforms cfg t (fun ok g' => g'.smo = g.smo ∧ (ok = true → g'.put.placed = some ⟨key, value⟩))
      (tryUpdateLoop a i (.make (.ofKey key) address false false) bound expected tmp) g := by
  induction bound generalizing expected tmp with
  | zero => trivial
  | succ bound ih =>
    unfold tryUpdateLoop
    split
    swap
    · exact ⟨rfl, by simp⟩
    rename_i usable
    obtain ⟨same, live, unlocked⟩ := usable
    refine conforms_casBlock (fun gs m now inv own there eq => ?_) fun found differs => ?_
    · subst own eq
      have step := Permits.slotUpdated there at_.target ready here live unlocked (same.trans fp) looked missed
      refine ⟨_, step, ?_⟩
      rw [if_pos rfl]
      refine conforms_freeItem fun gs' m' inv' own' => ?_
      refine ⟨_, .freeReplaced (by rw [own']), ?_, fun _ => ?_⟩
      · rw [own']
      · rw [own']
    · rw [if_neg differs]
      exact ih tmp found (same.trans fp)

theorem conforms_finishInsert {value : Value} (smo : g.smo = .idle) (placed : g.put.placed = some ⟨key, value⟩)
    (target : g.view.target = some (a, 0)) (seen : g.put.seen = some (a, leaf)) :
    Conforms cfg t (fun _ g' => g'.smo = .idle ∧ g'.put.placed = some ⟨key, value⟩) (finishInsert cfg key a leaf) g := by
  unfold finishInsert
  split
  · split
    · exact conforms_enqueue target ⟨smo, placed⟩
    · obtain ⟨_, view, put⟩ := g
      subst smo
      refine conforms_bind (conforms_mono (conforms_splitLeaf target) ?_)
      rintro - g' ⟨view, rfl⟩
      exact ⟨rfl, placed⟩
  · refine conforms_bind (conforms_mono (conforms_handleLocalRemoveDupes true false target seen) ?_)
    rintro - g' ⟨looked, rfl, -⟩
    exact ⟨smo, placed⟩

omit [BoundedOrder Key] in
theorem Collected.first {found : List (Candidate Key Value)} {g' : Local Key Value} {c : Candidate Key Value}
    (collected : Collected cfg leaf key g found g') (match_ : found.find? (fun c => decide (c.2.1 = key)) = some c) :
    c.2.1 = key ∧ c ∈ found ∧ g'.put.missed cfg leaf key c.1 := by
  -- the candidates before the first match hold other keys
  obtain ⟨same, before, after, eq, others⟩ := List.find?_eq_some_iff_append.1 match_
  have inside : c ∈ found := by simp [eq]
  refine ⟨by simpa using same, inside, fun i less here => ?_⟩
  rw [← mem_candidates, ← collected.2] at here
  obtain ⟨d, member, rfl⟩ := List.mem_map.1 here
  refine ⟨d.2.1, (collected.read d member).2, ?_⟩
  -- a smaller slot stands before the match
  have sorted : (found.map Prod.fst).Pairwise (· < ·) := collected.2 ▸ candidates_sorted leaf key
  rw [eq, List.map_append, List.map_cons, List.pairwise_append, List.pairwise_cons] at sorted
  rw [eq] at member
  rcases List.mem_append.1 member with early | late
  · simpa using others d early
  · rcases List.mem_cons.1 late with rfl | later
    · exact absurd less (lt_irrefl _)
    · exact absurd (sorted.2.1.1 d.1 (List.mem_map_of_mem later)) (by omega)

/-- How a round of `insert` leaves its thread. -/
def Attempted (key : Key) (value : Value) (address : GlobalAddress) (g : Local Key Value) : Attempt Key → Prop
  | .done ok => g.smo = .idle ∧ (ok = true → g.put.placed = some ⟨key, value⟩)
  | .retry leafRead => Inserting key value address true leafRead g

theorem conforms_fillSlot {value : Value} {address : GlobalAddress} {i : ℕ} (smo : g.smo = .idle)
    (wanted : g.put.wanted = some key) (at_ : AtLeaf g a leaf key) (ready : g.put.ready cfg a leaf address ⟨key, value⟩)
    (bound : i < cfg.branchFactor)
    (free : (leaf.kvBlocks i).isFree = true) (missed : g.put.missed cfg leaf key cfg.branchFactor) :
    Conforms cfg t (fun outcome g' => Attempted key value address g' outcome)
      (do
        let found ← casBlock .insert a i (leaf.kvBlocks i) (.make (.ofKey key) address false false)
        let node ← readNode .insert a
        let usable := node.header.lock = 0 ∧ node.header.covers key
        if found ≠ leaf.kvBlocks i then pure (.retry (if usable then some (a, node.asLeaf) else none))
        else if ¬ usable then pure (.done true)
        else do
          let ok ← finishInsert cfg key a node.asLeaf
          pure (.done ok)) g := by
  -- the exchange that fills a free slot, and what follows it
  refine conforms_casBlock (fun gs m now inv own there eq => ?_) fun other differs => ?_
  · subst own
    have step := Permits.slotFilled there at_.target eq ready bound free missed
    rw [eq] at step
    refine ⟨_, step, conforms_readLeaf (Or.inl rfl) wanted at_.target fun now' => ?_⟩
    dsimp only
    rw [if_neg (not_not.2 rfl)]
    split
    · exact ⟨smo, fun _ => rfl⟩
    · refine conforms_bind (conforms_mono (conforms_finishInsert smo rfl at_.target rfl) ?_)
      exact fun ok g'' done => ⟨done.1, fun _ => done.2⟩
  · refine conforms_readLeaf (Or.inl rfl) wanted at_.target fun now => ?_
    dsimp only
    rw [if_pos differs]
    refine ⟨smo, wanted, ready.written, fun b x is => ?_⟩
    split at is
    · rename_i fits
      cases is
      exact ⟨rfl, ⟨at_.target, rfl, fits.2⟩, fits.1⟩
    · cases is

theorem conforms_insertAttempt {value : Value} {address : GlobalAddress} (attempt : ℕ)
    (inserting : Inserting key value address true (some (a, leaf)) g) :
    Conforms cfg t (fun outcome g' => Attempted key value address g' outcome)
      (insertAttempt cfg key (.make (.ofKey key) address false false) attempt a leaf) g := by
  obtain ⟨smo, wanted, item, here⟩ := inserting
  obtain ⟨-, at_, unlocked⟩ := here a leaf rfl
  unfold insertAttempt
  refine conforms_bind (conforms_mono (conforms_getCandidateKvs key false false at_.seen) ?_)
  rintro ⟨success, found⟩ g' ⟨slots, ⟨empty, rfl, early⟩ | ⟨rfl, collected⟩⟩
  · -- a split has locked the leaf
    obtain rfl : found = [] := empty
    cases success with
    | true => exact absurd (early rfl) (by simp)
    | false => exact ⟨smo, wanted, item, by simp⟩
  dsimp only at slots collected ⊢
  have look := collected.1
  have smo' : g'.smo = .idle := by rw [look]; exact smo
  have wanted' : g'.put.wanted = some key := by rw [look]; exact wanted
  have item' : g'.put.item = some (address, ⟨key, value⟩, true) := by rw [look]; exact item
  have at' : AtLeaf g' a leaf key := by
    rw [look]
    exact ⟨at_.target, at_.seen, at_.covers⟩
  have ready : g'.put.ready cfg a leaf address ⟨key, value⟩ := ⟨item', at'.seen, unlocked, slots rfl rfl, at_.covers⟩
  rw [if_neg (by simp)]
  split
  · rename_i i k v match_
    obtain ⟨same, inside, missed⟩ := collected.first match_
    obtain rfl : k = key := same
    obtain ⟨here, looked⟩ := collected.read _ inside
    refine conforms_bind (conforms_mono (conforms_tryUpdateLoop at' ready here looked missed cfg.loopBound _ _ here.2.2) ?_)
    rintro ok g'' ⟨kept, placed⟩
    exact ⟨kept.trans smo', placed⟩
  · rename_i none
    have missed : g'.put.missed cfg leaf key cfg.branchFactor :=
      collected.missed fun c inside => by simpa using List.find?_eq_none.1 none c inside
    refine conforms_threadHash fun hash => ?_
    generalize seen : probe cfg.branchFactor leaf (mix64 (hash ^^^ BitVec.ofNat 64 attempt)) = stop
    cases stop with
    | locked => exact ⟨smo', wanted', item', by simp⟩
    | exhausted => exact ⟨smo', wanted', item', by simp⟩
    | free i =>
      obtain ⟨bound, free⟩ := probe_free seen
      exact conforms_fillSlot smo' wanted' at' ready bound free missed

theorem conforms_locateLeaf {value : Value} {address : GlobalAddress} (wrote : Bool)
    (inserting : Inserting key value address wrote none g) :
    Conforms cfg t (fun reply g' => Inserting key value address reply.1 reply.2 g')
      (locateLeaf cfg key ⟨key, value⟩ address wrote) g := by
  obtain ⟨smo, wanted, item, -⟩ := inserting
  unfold locateLeaf
  refine conforms_bind (conforms_mono (conforms_findNode key 0 false g (by simp) (by simp)) ?_)
  rintro ⟨result, b⟩ g' ⟨view, rfl, found, -⟩
  cases result with
  | unknown => trivial
  | noSuchLevel => trivial
  | locked => exact ⟨smo, wanted, item, by simp⟩
  | found =>
    refine conforms_readLeaf (Or.inl rfl) wanted (found rfl) fun leaf => ?_
    have finish : ∀ g' : Local Key Value, g'.smo = .idle → g'.put.wanted = some key →
      g'.put.item = some (address, ⟨key, value⟩, true) →
        g'.view.target = some (b, 0) → g'.put.seen = some (b, leaf) →
        Conforms cfg t (fun reply g' => Inserting key value address reply.1 reply.2 g')
          (if (Node.leaf leaf).header.level ≠ 0 then .stuck
          else if (Node.leaf leaf).header.lock ≠ 0 ∨ ¬ (Node.leaf leaf).header.covers key then pure (true, none)
          else pure (true, some (b, (Node.leaf leaf).asLeaf))) g' := by
      intro g' smo wanted item target seen
      split
      · trivial
      split
      · exact ⟨smo, wanted, item, by simp⟩
      · rename_i usable
        simp only [ne_eq, not_or, not_not] at usable
        refine ⟨smo, wanted, item, fun c x is => ?_⟩
        cases is
        exact ⟨rfl, ⟨target, seen, usable.2⟩, usable.1⟩
    cases wrote with
    | true => exact finish _ smo wanted item (found rfl) rfl
    | false =>
      refine conforms_writeItem fun gs m inv own => ?_
      refine ⟨_, .writeItem (by rw [own]; exact item), finish _ ?_ ?_ rfl ?_ ?_⟩
      · rw [own]
        exact smo
      · rw [own]
        exact wanted
      · rw [own]
        exact found rfl
      · rw [own]

theorem conforms_insertLoop {value : Value} {address : GlobalAddress} (attempts attempt : ℕ) (wrote : Bool)
    (leafRead : Option (GlobalAddress × LeafNode Key)) (inserting : Inserting key value address wrote leafRead g) :
    Conforms cfg t (fun ok g' => g'.smo = .idle ∧ (ok = true → g'.put.placed = some ⟨key, value⟩))
      (insertLoop cfg key ⟨key, value⟩ address (.make (.ofKey key) address false false) attempts attempt wrote leafRead) g := by
  induction attempts generalizing attempt wrote leafRead g with
  | zero => trivial
  | succ attempts ih =>
    unfold insertLoop
    cases leafRead with
    | some target =>
      obtain ⟨b, leaf⟩ := target
      obtain rfl := (inserting.leaf b leaf rfl).1
      change Conforms cfg t _ (insertAttempt _ _ _ _ _ _ >>= _) g
      refine conforms_bind (conforms_mono (conforms_insertAttempt attempt inserting) ?_)
      rintro (ok | leafRead) g' attempted
      · exact attempted
      · exact ih (attempt + 1) true leafRead attempted
    | none =>
      refine conforms_bind (conforms_mono (conforms_locateLeaf wrote inserting) ?_)
      rintro ⟨wrote, target⟩ g' located
      cases target with
      | none => exact ih (attempt + 1) wrote none located
      | some target =>
        obtain ⟨b, leaf⟩ := target
        obtain rfl := (located.leaf b leaf rfl).1
        refine conforms_bind (conforms_mono (conforms_insertAttempt attempt located) ?_)
        rintro (ok | leafRead) g'' attempted
        · exact attempted
        · exact ih (attempt + 1) true leafRead attempted

/-! ## Calls -/

theorem conforms_insert (key : Key) (value : Value) (smo : g.smo = .idle) (wanted : g.put.wanted = some key)
    (placed : g.put.placed = none) :
    Conforms cfg t (fun ok g' => g'.smo = .idle ∧ (ok = true → g'.put.placed = some ⟨key, value⟩))
      (insert cfg key value) g := by
  unfold insert
  refine conforms_allocItem fun gs m b m' inv own usable allocated => ?_
  subst own
  exact ⟨_, .allocItem usable allocated wanted placed, conforms_insertLoop _ _ _ _ ⟨smo, wanted, rfl, by simp⟩⟩

theorem conforms_body (call : Call Key Value) (view : View) (target : ∀ b, call = .split b → view.target = some (b, 0)) :
    Conforms cfg t ((machine cfg).ends t call) (call.body cfg) ⟨.idle, view, { Put.idle with wanted := call.key }⟩ := by
  cases call with
  | insert key value =>
    refine conforms_bind (conforms_mono (conforms_insert key value rfl rfl rfl) ?_)
    exact fun ok g' done => ⟨done.1, done.2⟩
  | read key => exact conforms_readLoop _ rfl rfl
  | split b =>
    refine conforms_bind (conforms_mono (conforms_splitLeaf (target b rfl)) ?_)
    rintro ok g' ⟨view, rfl⟩
    exact ⟨rfl, trivial⟩
  | maintain =>
    refine conforms_dequeue fun b => conforms_bind (conforms_mono (conforms_splitLeaf rfl) ?_)
    rintro ok g' ⟨view, rfl⟩
    exact ⟨rfl, trivial⟩

end

end Faunus
