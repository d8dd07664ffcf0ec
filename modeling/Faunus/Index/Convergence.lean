import Faunus.Index.Cleanup

/-! Duplicate copies of a key come to one, in the lowest slot.

Of two copies of a key that are both in the leaf, the later insert has filled its slot
with the other copy in place, reads both back, and is going to delete the higher one. So
when every call has returned there is one copy, and the lowest is never deleted.
-/

set_option autoImplicit false

namespace Faunus

open Interleaving

variable {Key Value : Type}

/-! ## Runs of inserts and reads -/

def clients (_ : State Key Value) (_ : Thread) (call : Call Key Value) : Prop := call.key.isSome = true

def Call.inserted : Call Key Value → Option Key
  | .insert key _ => some key
  | _ => none

/-- An insert of the key has put its block into a free slot of the leaf. -/
def landed [DecidableEq Key] (a : GlobalAddress) (key : Key) : List (Event Key Value) → Bool
  | [] => false
  | .performed t o r _ :: rest => decide (o.fillsAt r = some a ∧ (callOf t rest).bind Call.inserted = some key) || landed a key rest
  | .invoked _ _ :: rest => landed a key rest
  | .returned _ _ _ :: rest => landed a key rest

theorem Call.key_of_inserted {call : Call Key Value} {key : Key} (inserts : call.inserted = some key) : call.key = some key := by
  cases call with
  | insert => exact inserts
  | read => cases inserts
  | split => cases inserts
  | maintain => cases inserts

section
variable {usable : GlobalAddress → Bool} {t : Thread} {c : BitVec 64} {s s' : State Key Value} {site : Site} {a : GlobalAddress}

theorem exec_readNode {n : Node Key} (performed : State.exec usable t ⟨site, .readNode a⟩ c s = some (n, s')) :
    s.memory.nodes a = some n := by
  have run := (State.exec_eq_some performed).1
  simp only [Memory.exec] at run
  split at run
  · rename_i found
    rw [found, (Prod.mk.inj (Option.some.inj run)).1]
  · cases run

theorem exec_readKey {x : GlobalAddress} {key : Key} (performed : State.exec usable t ⟨site, .readKey x⟩ c s = some (key, s')) :
    key = (s.memory.items x).key := by
  have run := (State.exec_eq_some performed).1
  exact (Prod.mk.inj (Option.some.inj run)).1.symm

theorem exec_casBlock {leaf : LeafNode Key} {i : ℕ} {expected desired found : KVBlock} (there : s.memory.nodes a = some (.leaf leaf))
    (hits : leaf.kvBlocks i = expected)
    (performed : State.exec usable t ⟨site, .casBlock a i expected desired⟩ c s = some (found, s')) :
    s'.memory.nodes a = some (.leaf (leaf.setBlock i desired)) := by
  have run := (State.exec_eq_some performed).1
  simp only [Memory.exec, there, hits, if_true] at run
  rw [← (Prod.mk.inj (Option.some.inj run)).2]
  exact Function.update_self ..

end

section
variable [LinearOrder Key] [BoundedOrder Key] [KeyBytes Key] {cfg : Config} {a : GlobalAddress} {m : Memory Key Value}
    {P : IndexPool Key Value}

/-- The memory that some run of inserts, reads and splits has left. -/
def AtRest (cfg : Config) (m : Memory Key Value) : Prop :=
  ∃ (m₀ : Memory Key Value) (P : IndexPool Key Value), m₀.Initialized ∧
    Reaches (system cfg calls fun _ _ => False) fitting (Pool.start ⟨m₀, []⟩) P ∧ P.Quiescent ∧ P.shared.memory = m

/-- Addresses fit, nothing is freed by mistake or updated in place, and the leaf has no more blocks than the threshold. -/
def undisturbed (cfg : Config) (a : GlobalAddress) : Condition (signature Key Value) Thread (State Key Value) := fun _ o r s =>
  Op.fits o r = true ∧ Op.updates o = false ∧
    ∀ leaf, s.memory.nodes a = some (.leaf leaf) → (takenIndices cfg.branchFactor leaf).length ≤ cfg.splitThreshold

/-- Besides, the leaf stays a leaf and nobody locks it. -/
def sheltered (cfg : Config) (a : GlobalAddress) : Condition (signature Key Value) Thread (State Key Value) := fun t o r s =>
  undisturbed cfg a t o r s ∧ Op.locks a o r = false ∧ ∃ leaf, s.memory.nodes a = some (.leaf leaf)

theorem AtRest.owning (rest : AtRest cfg m) : Owning cfg (fun _ => .idle) (⟨m, []⟩ : State Key Value) := by
  obtain ⟨m₀, P, initialized, run, quiet, rfl⟩ := rest
  obtain ⟨gs, explains⟩ := (explains_start (owning_initialized initialized)).reaches
    (implements_machine (fun _ _ inv => inv.disciplined.discipline) fun _ _ _ admitted => admitted) preserves_owning run
  obtain rfl : gs = fun _ => .idle := funext fun t => explains.idle t (quiet t)
  have holds := explains.holds
  exact ⟨⟨holds.disciplined.discipline, fun t => rfl, fun t => rfl, holds.disciplined.drafts⟩, holds.owned, fun t => rfl⟩

theorem heldBy_running {admits : State Key Value → Thread → Call Key Value → Prop}
    {assume : Condition (signature Key Value) Thread (State Key Value)}
    (run : Reaches (system cfg admits fun _ _ => False) assume (Pool.start ⟨m, []⟩) P) {t : Thread}
    {activity : Activity (signature Key Value) (Call Key Value) (Outcome Value)} (running : P.threads t = some activity) :
    heldBy t P.shared.history = locksOf activity.done := by
  -- the locks that a running call holds are those its operations say
  induction run generalizing activity with
  | refl => cases running
  | tail _ step ih =>
    cases step with
    | @invoke u call free admitted =>
      by_cases same : u = t
      · subst same
        simp only [Pool.set_threads, Function.update_self, Option.some.injEq] at running
        subst running
        exact if_pos rfl
      · simp only [Pool.set_threads, Function.update_of_ne (Ne.symm same)] at running
        exact (if_neg same).trans (ih running)
    | @act u call o next done c r s before performed met =>
      obtain ⟨-, history⟩ := State.exec_eq_some performed
      simp only [Pool.set_shared, history]
      by_cases same : u = t
      · subst same
        simp only [Pool.set_threads, Function.update_self, Option.some.injEq] at running
        subst running
        exact (if_pos rfl).trans (congrArg (heldNext o r) (ih before))
      · simp only [Pool.set_threads, Function.update_of_ne (Ne.symm same)] at running
        exact (if_neg same).trans (ih running)
    | @«return» u call b done before =>
      by_cases same : u = t
      · subst same
        simp at running
      · simp only [Pool.set_threads, Function.update_of_ne (Ne.symm same)] at running
        exact (if_neg same).trans (ih running)
    | environment moved => exact moved.1.elim

/-! ## The leaf is not split -/

theorem cleaning_reaches {leaf : LeafNode Key} (rest : AtRest cfg m) (there : m.nodes a = some (.leaf leaf))
    (run : Reaches (system cfg clients fun _ _ => False) (sheltered cfg a) (Pool.start ⟨m, []⟩) P) :
    ∃ gs, Explains (system cfg clients fun _ _ => False) (machine cfg) (Cleaning cfg m a) gs P := by
  have unsplit : Reaches (system cfg clients fun _ _ => False) (unsplit a) (Pool.start ⟨m, []⟩) P :=
    reaches_stronger run fun _ _ _ _ _ _ _ _ _ _ _ _ met => ⟨met.1.1, met.1.2.1, met.2.1⟩
  refine (explains_start (rest.owning.cleaning there)).reaches (implements_machine (fun _ _ inv => inv.discipline) ?_)
    preserves_cleaning unsplit
  rintro s t call wanted b rfl
  cases wanted

/-- Every call in progress cleans up behind itself. -/
abbrev Dutiful (cfg : Config) (a : GlobalAddress) (P : IndexPool Key Value) : Prop :=
  Keeping (fun t (s : State Key Value) => doneBy t s.history) (fun _ => True) (Diligent a) (fun _ o r => Op.sparse cfg a o r)
    (fun call _ later => ∀ key, call.key = some key → Discharged cfg key later) P

theorem dutiful_reaches (run : Reaches (system cfg clients fun _ _ => False) (sheltered cfg a) (Pool.start ⟨m, []⟩) P) :
    Dutiful cfg a P := by
  refine keeping_reaches (recorded_doneBy cfg)
    ⟨fun _ _ _ _ => trivial, ?_, fun _ _ _ _ _ _ => trivial, fun _ _ _ _ => trivial⟩ ?_ trivial run
  · intro t o c s r s' kept performed met diligent
    obtain ⟨leaf, there⟩ := met.2.2
    refine ⟨trivial, sparse_of_reads fun b n is same => ?_⟩
    cases is
    rw [same] at performed
    rw [Option.some.inj ((exec_readNode performed).symm.trans there)]
    exact met.1.2.2 leaf there
  · intro s t call admitted
    obtain ⟨key, wanted⟩ := Option.isSome_iff_exists.1 admitted
    refine traced_mono (cleans_body wanted) ?_
    rintro outcome later discharged k is
    obtain rfl : key = k := Option.some.inj (wanted.symm.trans is)
    exact discharged

theorem reaches_sheltered {leaf : LeafNode Key} (rest : AtRest cfg m) (there : m.nodes a = some (.leaf leaf))
    (run : Reaches (system cfg clients fun _ _ => False) (undisturbed cfg a) (Pool.start ⟨m, []⟩) P) :
    Reaches (system cfg clients fun _ _ => False) (sheltered cfg a) (Pool.start ⟨m, []⟩) P := by
  -- whoever locks the leaf holds nothing else, and splits it
  refine reaches_stronger run fun Q t call o next done c r s before running performed met => ?_
  obtain ⟨gs, explains⟩ := cleaning_reaches rest there before
  obtain ⟨now, born⟩ := explains.holds.leaf
  refine ⟨met, ?_, now, born.1⟩
  have diligent := ((dutiful_reaches before).running t _ running).2.1
  obtain ⟨g, permits, -⟩ := explains.permits running performed
  have held : (gs t).smo.held = locksOf done := (explains.holds.owning.disciplined.held t).trans (heldBy_running before running)
  by_contra locked
  rw [Bool.not_eq_false] at locked
  obtain ⟨m', history⟩ := s
  obtain ⟨permitted, -⟩ := permits
  cases permitted with
  | @lockFailed site b n there' taken =>
    simp only [Op.locks, decide_eq_true_eq] at locked
    exact taken locked.2
  | @lockTaken site b n there' free target =>
    simp only [Op.locks, decide_eq_true_eq] at locked
    obtain ⟨rfl, -⟩ := locked
    obtain ⟨born', level⟩ := explains.holds.discipline.born_of_target target there'
    obtain rfl := born_unique born born'
    have bottom : now.header.level = 0 := explains.holds.discipline.levels.sound b _ born
    rcases diligent.lock b 0 1 rfl with ⟨-, other⟩ | above
    · exact other rfl
    · rw [← held, ← List.length_pos_iff, ← level] at above
      exact absurd bottom above.ne'
  | _ => cases locked

end

/-! ## What is still owed -/

section
variable [LinearOrder Key] [BoundedOrder Key] [KeyBytes Key] {cfg : Config} {a : GlobalAddress} {key : Key}
  {leaf now : LeafNode Key} {i j : ℕ} {done : List (Done Key Value)}

/-- The call is about to read the leaf again, or it has read both copies there and decided on neither. -/
def Owes (cfg : Config) (a : GlobalAddress) (key : Key) (leaf : LeafNode Key) (i j : ℕ) (done : List (Done Key Value)) : Prop :=
  sinceFill done = some (a, []) ∨
    ∃ snap more, sinceFill done = some (a, more ++ [⟨⟨.insert, .readNode a⟩, .leaf snap⟩]) ∧ Usable cfg key snap ∧
      snap.kvBlocks i = leaf.kvBlocks i ∧ snap.kvBlocks j = leaf.kvBlocks j ∧ ¬ Decided key a snap i j more

omit [BoundedOrder Key] [KeyBytes Key] in
theorem Owes.congr (owes : Owes cfg a key leaf i j done) (one : now.kvBlocks i = leaf.kvBlocks i)
    (two : now.kvBlocks j = leaf.kvBlocks j) :
    Owes cfg a key now i j done := by
  refine owes.imp id ?_
  rintro ⟨snap, more, since, usable, low, high, open_⟩
  exact ⟨snap, more, since, usable, low.trans one.symm, high.trans two.symm, open_⟩

omit [BoundedOrder Key] in
theorem Owes.not_discharged (owes : Owes cfg a key leaf i j done) (less : i < j) (low : candidate cfg leaf key i)
    (high : candidate cfg leaf key j) : ¬ Discharged cfg key done := by
  -- a call does not return before it has decided
  rintro (none | ⟨b, n, more, since, resolved⟩)
  · rcases owes with filled | ⟨snap, more, since, -⟩
    · rw [none] at filled
      cases filled
    · rw [none] at since
      cases since
  · rcases owes with filled | ⟨snap, seen, since', usable, one, two, open_⟩
    · rw [filled] at since
      simp at since
    · rw [since'] at since
      obtain ⟨rfl, same⟩ := Prod.mk.inj (Option.some.inj since)
      obtain ⟨rfl, last⟩ := List.append_inj' same rfl
      obtain rfl : n = .leaf snap := by
        cases last
        rfl
      unfold candidate at low high
      rw [← one] at low
      rw [← two] at high
      exact open_ (resolved usable i j less low high)

section
variable {t : Thread} {c : BitVec 64} {s s' : State Key Value} {o : Op Key Value} {r : o.act.Reply}

omit [BoundedOrder Key] [KeyBytes Key] in
theorem Owes.step (owes : Owes cfg a key leaf i j done) (diligent : Diligent a done o)
    (performed : State.exec cfg.usable t o c s = some (r, s'))
    (there : s.memory.nodes a = some (.leaf leaf)) (usable : Usable cfg key leaf)
    (low : (s.memory.items (leaf.kvBlocks i).getAddr).key = key) (high : (s.memory.items (leaf.kvBlocks j).getAddr).key = key)
    (there' : s'.memory.nodes a = some (.leaf now)) (live : (now.kvBlocks j).isFree = false) :
    Owes cfg a key leaf i j (⟨o, r⟩ :: done) := by
  -- as long as both copies stay, what is owed stays owed
  rcases owes with filled | ⟨snap, more, since, fine, one, two, open_⟩
  · obtain rfl := diligent.reread a filled
    obtain rfl : r = .leaf leaf := Option.some.inj ((exec_readNode performed).symm.trans there)
    refine Or.inr ⟨leaf, [], sinceFill_cons rfl filled, usable, rfl, rfl, ?_⟩
    rintro (⟨k, other, -, -, inside⟩ | ⟨desired, found, -, inside⟩)
    · cases inside
    · cases inside
  · have keeps : o.fillsAt r = none := (diligent.once.resolve_left (by rw [since]; rintro ⟨⟩)) r
    refine Or.inr ⟨snap, ⟨o, r⟩ :: more, sinceFill_cons keeps since, fine, one, two, ?_⟩
    rintro (⟨k, other, which, different, inside⟩ | ⟨desired, found, gone, inside⟩)
    · rcases List.mem_cons.1 inside with new | old
      · cases new
        have read := exec_readKey performed
        rcases which with rfl | rfl
        · exact different (by rw [read, one, low])
        · exact different (by rw [read, two, high])
      · exact open_ (Or.inl ⟨k, other, which, different, old⟩)
    · rcases List.mem_cons.1 inside with new | old
      · cases new
        -- the deletion finds the copy and takes it away
        have after := exec_casBlock there two.symm performed
        obtain rfl : now = leaf.setBlock j desired := Node.leaf.inj (Option.some.inj (there'.symm.trans after))
        simp [LeafNode.setBlock, gone] at live
      · exact open_ (Or.inr ⟨desired, found, gone, old⟩)

end

end

/-! ## Every step -/

section
variable [LinearOrder Key] [BoundedOrder Key] [KeyBytes Key] {cfg : Config} {a : GlobalAddress} {start : Memory Key Value}

theorem Permits.filling {t : Thread} {gs : Thread → Local Key Value} {m m' : Memory Key Value} {g : Local Key Value}
    {i : ℕ} {expected desired found : KVBlock} (permitted : Permits cfg t gs m ⟨.insert, .casBlock a i expected desired⟩ found m' g)
    (hits : found = expected) :
    ∃ address snap, ∃ leaf : LeafNode Key, ∃ item, (gs t).put.ready cfg a snap address item ∧ i < cfg.branchFactor ∧
      (gs t).put.missed cfg snap item.key cfg.branchFactor ∧
      m' = m.setNode a (.leaf (leaf.setBlock i (.make (.ofKey item.key) address false false))) := by
  cases permitted with
  | slotMissed _ missed => exact absurd hits missed
  | slotFilled _ _ _ ready bound _ missed => exact ⟨_, _, _, _, ready, bound, missed, rfl⟩

/-- Of two copies of a new key, a running insert of the key still owes the deletion of the higher one. -/
structure Converging (cfg : Config) (start : Memory Key Value) (a : GlobalAddress) (P : IndexPool Key Value) : Prop where
  owed : ∀ key i j, (∀ k, ¬ Copy cfg start a key k) → i < j → Copy cfg P.shared.memory a key i → Copy cfg P.shared.memory a key j →
    ∃ t activity, P.threads t = some activity ∧ activity.call.key = some key ∧
      ∀ leaf, P.shared.memory.nodes a = some (.leaf leaf) → leaf.header.covers key ∧ Owes cfg a key leaf i j activity.done
  landed : ∀ key, landed a key P.shared.history = true → (∃ i, Ever cfg P.shared a key i) ∧ ∀ k, ¬ Copy cfg start a key k

section
variable {gs : Thread → Local Key Value} {P : IndexPool Key Value}

omit [BoundedOrder Key] in
theorem Cleaning.usable {s : State Key Value} (inv : Cleaning cfg start a gs s) {leaf : LeafNode Key}
    (born : Born gs s.memory a (.leaf leaf)) {key : Key}
    (covers : leaf.header.covers key) (sparse : (takenIndices cfg.branchFactor leaf).length ≤ cfg.splitThreshold) :
    Usable cfg key leaf :=
  ⟨inv.discipline.words.free a _ born inv.opened, covers, sparse, inv.discipline.bits.free a leaf born inv.opened⟩

omit [LinearOrder Key] [BoundedOrder Key] in
theorem Cleaning.candidate_of_copy {s : State Key Value} (inv : Cleaning cfg start a gs s) {m : Memory Key Value}
    (passed : s.Passed m)
    {leaf : LeafNode Key} (there : m.nodes a = some (.leaf leaf)) {key : Key} {i : ℕ} (copy : Copy cfg m a key i) :
    candidate cfg leaf key i ∧ (m.items (leaf.kvBlocks i).getAddr).key = key := by
  obtain ⟨x, is, bound, live, item⟩ := copy
  obtain rfl : x = leaf := Node.leaf.inj (Option.some.inj (is.symm.trans there))
  exact ⟨⟨bound, live, by rw [inv.print m x i passed there bound live, item]⟩, item⟩

omit [BoundedOrder Key] in
theorem Cleaning.new_of_missed {s : State Key Value} (inv : Cleaning cfg start a gs s) {t : Thread} {address : GlobalAddress}
    {snap : LeafNode Key} {item : KVItem Key Value} (ready : (gs t).put.ready cfg a snap address item)
    (missed : (gs t).put.missed cfg snap item.key cfg.branchFactor) : ∀ k, ¬ Copy cfg start a item.key k := by
  intro k copy
  obtain ⟨m, passed, there⟩ := inv.seen t snap ready.seen
  obtain ⟨j, still⟩ := inv.lasting m item.key k passed copy
  obtain ⟨is, here⟩ := inv.candidate_of_copy passed there still
  obtain ⟨other, looked, different⟩ := missed j is.1 is
  obtain ⟨bound, live, found⟩ := inv.looked t snap j other ready.seen looked
  have same := (inv.spent m snap j passed there bound live).2
  exact different (by rw [← found, ← same, here])

omit [BoundedOrder Key] in
theorem Cleaning.item_key {s : State Key Value} (inv : Cleaning cfg start a gs s) {t : Thread} {call : Call Key Value}
    (called : callOf t s.history = some call) {snap : LeafNode Key} {address : GlobalAddress} {item : KVItem Key Value}
    (ready : (gs t).put.ready cfg a snap address item) : call.key = some item.key := by
  have wanted := inv.wanting.wanted t
  rw [called, inv.wanting.item t _ _ _ ready.written] at wanted
  exact wanted.symm

section
variable {t : Thread} {call : Call Key Value} {o : Op Key Value} {r : o.act.Reply} {c : BitVec 64} {s : State Key Value}
  {g : Local Key Value} {next : o.act.Reply → Index Key Value (Outcome Value)} {done : List (Done Key Value)}

theorem Cleaning.landed (inv : Cleaning cfg start a gs P.shared) (called : callOf t P.shared.history = some call)
    (permits : (machine cfg).permits t gs P.shared o r s g) (fills : o.fillsAt r = some a) {key : Key}
    (wanted : call.key = some key) :
    (∃ i, Copy cfg s.memory a key i) ∧ ∀ k, ¬ Copy cfg start a key k := by
  obtain ⟨i, expected, desired, is⟩ := fillsAt_eq_some fills
  cases is
  obtain ⟨address, snap, leaf, item, ready, bound, missed, after⟩ := permits.1.filling rfl
  obtain rfl : key = item.key := Option.some.inj (wanted.symm.trans (inv.item_key called ready))
  refine ⟨⟨i, leaf.setBlock i (.make (.ofKey item.key) address false false), ?_, bound, ?_, ?_⟩, inv.new_of_missed ready missed⟩
  · rw [after]
    exact Function.update_self ..
  · simp [LeafNode.setBlock]
  · rw [after]
    simp only [LeafNode.setBlock, Function.update_self, Memory.setNode, inv.owning.owned.placing ready.written]

theorem Converging.act (converging : Converging cfg start a P) (inv : Cleaning cfg start a gs P.shared)
    (running : P.threads t = some ⟨call, .perform o next, done⟩) (called : callOf t P.shared.history = some call)
    (diligent : Diligent a done o)
    (performed : State.exec cfg.usable t o c P.shared = some (r, s)) (permits : (machine cfg).permits t gs P.shared o r s g)
    (met : sheltered cfg a t o r P.shared) : Converging cfg start a (P.set t (some ⟨call, next r, ⟨o, r⟩ :: done⟩) s) := by
  obtain ⟨⟨fits, keeps, sparse⟩, opens, -⟩ := met
  have inv' := inv.act permits fits keeps opens
  have effect := inv.discipline.effect permits.1
  obtain ⟨leaf, born⟩ := inv.leaf
  obtain ⟨now, there, fence, touch⟩ := inv.discipline.touch inv'.discipline effect inv.opened inv'.opened keeps born
  have history : s.history = .performed t o r P.shared.memory :: P.shared.history := permits.2
  constructor
  · intro key i j new less one two
    -- the insert that has just filled a slot owes everything that concerns its copy
    have fresh : ∀ {k : ℕ} {address : GlobalAddress} {snap : LeafNode Key} {item : KVItem Key Value},
        (gs t).put.ready cfg a snap address item → item.key = key →
        (⟨o, r⟩ : Done Key Value) =
          ⟨⟨.insert, .casBlock a k (leaf.kvBlocks k) (.make (.ofKey item.key) address false false)⟩, leaf.kvBlocks k⟩ →
        ∃ u activity, (P.set t (some ⟨call, next r, ⟨o, r⟩ :: done⟩) s).threads u = some activity ∧ activity.call.key = some key ∧
          ∀ x, s.memory.nodes a = some (.leaf x) → x.header.covers key ∧ Owes cfg a key x i j activity.done := by
      intro k address snap item ready is filled
      subst is
      refine ⟨t, _, Function.update_self .., inv.item_key called ready, fun x there' => ?_⟩
      obtain rfl : now = x := Node.leaf.inj (Option.some.inj (there.1.symm.trans there'))
      constructor
      · obtain ⟨m, passed, seen⟩ := inv.seen t snap ready.seen
        have covers := ready.covers
        unfold Header.covers at covers ⊢
        rw [fence, ← inv.fence m snap leaf passed seen born.1]
        exact covers
      · left
        have fills : o.fillsAt r = some a := by
          cases filled
          exact if_pos rfl
        simp only [sinceFill, fillNext, fills]
    rcases inv.copy_origin effect born.1 there.1 touch one with ⟨low, same⟩ | ⟨address, snap, item, -, ready, -, is, filled⟩
    · rcases inv.copy_origin effect born.1 there.1 touch two with ⟨high, same'⟩ | ⟨address, snap, item, -, ready, -, is, filled⟩
      · obtain ⟨u, activity, runs, wanted, owes⟩ := converging.owed key i j new less low high
        obtain ⟨covers, owes⟩ := owes leaf born.1
        have covers' : ∀ x, s.memory.nodes a = some (.leaf x) → x.header.covers key ∧ x = now := by
          intro x there'
          obtain rfl : now = x := Node.leaf.inj (Option.some.inj (there.1.symm.trans there'))
          refine ⟨?_, rfl⟩
          unfold Header.covers at covers ⊢
          rw [fence]
          exact covers
        by_cases own : u = t
        · subst own
          obtain rfl : _ = activity := Option.some.inj (running.symm.trans runs)
          refine ⟨u, _, Function.update_self .., wanted, fun x there' => ?_⟩
          obtain ⟨within, rfl⟩ := covers' x there'
          have live := (inv'.candidate_of_copy (passed_now s) there.1 two).1.2.1
          have usable := inv.usable born covers (sparse leaf born.1)
          have later := owes.step diligent performed born.1 usable (inv.candidate_of_copy (passed_now _) born.1 low).2
            (inv.candidate_of_copy (passed_now _) born.1 high).2 there.1 live
          exact ⟨within, later.congr same same'⟩
        · refine ⟨u, activity, (Function.update_of_ne own ..).trans runs, wanted, fun x there' => ?_⟩
          obtain ⟨within, rfl⟩ := covers' x there'
          exact ⟨within, owes.congr same same'⟩
      · exact fresh ready is filled
    · exact fresh ready is filled
  · intro key lands
    simp only [Pool.set_shared, history, Faunus.landed, Bool.or_eq_true, decide_eq_true_eq] at lands
    rcases lands with ⟨fills, inserts⟩ | old
    · rw [called] at inserts
      obtain ⟨⟨i, copy⟩, new⟩ := inv.landed called permits fills (Call.key_of_inserted inserts)
      exact ⟨⟨i, (ever_step history).2 (Or.inl copy)⟩, new⟩
    · obtain ⟨⟨i, ever⟩, new⟩ := converging.landed key old
      exact ⟨⟨i, (ever_step history).2 (Or.inr ever)⟩, new⟩

end

omit [BoundedOrder Key] [KeyBytes Key] in
theorem Converging.invoke (converging : Converging cfg start a P) {t : Thread} {call : Call Key Value} (free : P.threads t = none)
    (body : Index Key Value (Outcome Value)) :
    Converging cfg start a (P.set t (some ⟨call, body, []⟩) { P.shared with history := .invoked t call :: P.shared.history }) := by
  constructor
  · intro key i j new less one two
    obtain ⟨u, activity, runs, wanted, owes⟩ := converging.owed key i j new less one two
    have other : u ≠ t := by
      rintro rfl
      rw [free] at runs
      cases runs
    exact ⟨u, activity, (Function.update_of_ne other ..).trans runs, wanted, owes⟩
  · intro key lands
    obtain ⟨⟨i, ever⟩, new⟩ := converging.landed key lands
    exact ⟨⟨i, (ever_mark (by simp)).2 ever⟩, new⟩

omit [BoundedOrder Key] in
theorem Converging.finish (converging : Converging cfg start a P) (inv : Cleaning cfg start a gs P.shared) {t : Thread}
    {call : Call Key Value}
    {outcome : Outcome Value} {done : List (Done Key Value)} (running : P.threads t = some ⟨call, .value outcome, done⟩)
    (discharged : ∀ key, call.key = some key → Discharged cfg key done) :
    Converging cfg start a (P.set t none { P.shared with history := .returned t call outcome :: P.shared.history }) := by
  constructor
  · intro key i j new less one two
    obtain ⟨u, activity, runs, wanted, owes⟩ := converging.owed key i j new less one two
    have other : u ≠ t := by
      rintro rfl
      obtain rfl : _ = activity := Option.some.inj (running.symm.trans runs)
      obtain ⟨leaf, born⟩ := inv.leaf
      exact (owes leaf born.1).2.not_discharged less (inv.candidate_of_copy (passed_now _) born.1 one).1
        (inv.candidate_of_copy (passed_now _) born.1 two).1 (discharged key wanted)
    exact ⟨u, activity, (Function.update_of_ne other ..).trans runs, wanted, owes⟩
  · intro key lands
    obtain ⟨⟨i, ever⟩, new⟩ := converging.landed key lands
    exact ⟨⟨i, (ever_mark (by simp)).2 ever⟩, new⟩

theorem converging_reaches {leaf : LeafNode Key} (rest : AtRest cfg start) (there : start.nodes a = some (.leaf leaf))
    (run : Reaches (system cfg clients fun _ _ => False) (sheltered cfg a) (Pool.start ⟨start, []⟩) P) :
    Converging cfg start a P := by
  induction run with
  | refl =>
    constructor
    · intro key i j new less one
      exact absurd one (new i)
    · rintro key ⟨⟩
  | @tail P P' before step ih =>
    obtain ⟨gs, explains⟩ := cleaning_reaches rest there before
    have dutiful := dutiful_reaches before
    cases step with
    | @invoke t call free admitted => exact ih.invoke free _
    | @act t call o next done c r s running performed met =>
      obtain ⟨g, permits, -⟩ := explains.permits running performed
      exact ih.act explains.holds running (reaches_callOf before running) (dutiful.running t _ running).2.1 performed permits met
    | @«return» t call outcome done running => exact ih.finish explains.holds running (dutiful.running t _ running).2
    | environment moved => exact moved.1.elim

/-- In every run of inserts and reads on a leaf at or below the split threshold whose steps fit: once the leaf holds a
key, it holds the key in every later state, and when all calls have returned, each key that an insert has put there has
exactly one copy, in the lowest slot that ever held one. -/
theorem duplicates_converge {leaf : LeafNode Key} (rest : AtRest cfg start) (there : start.nodes a = some (.leaf leaf))
    (run : Reaches (system cfg clients fun _ _ => False) (undisturbed cfg a) (Pool.start ⟨start, []⟩) P) :
    (∀ key, (∃ i, Ever cfg P.shared a key i) → ∃ i, Copy cfg P.shared.memory a key i) ∧
      (P.Quiescent → ∀ key, landed a key P.shared.history = true →
        ∃ i, (∀ j, Copy cfg P.shared.memory a key j ↔ j = i) ∧ ∀ j, Ever cfg P.shared a key j → i ≤ j) := by
  have sheltered := reaches_sheltered rest there run
  obtain ⟨gs, explains⟩ := cleaning_reaches rest there sheltered
  have lowest : ∀ key, (∃ i, Ever cfg P.shared a key i) →
      ∃ i, Copy cfg P.shared.memory a key i ∧ Ever cfg P.shared a key i ∧ ∀ j, Ever cfg P.shared a key j → i ≤ j :=
    fun key ⟨i, ever⟩ => (explains.holds.anchored key).lowest ever
  refine ⟨fun key ever => (lowest key ever).imp fun i low => low.1, fun quiet key landed => ?_⟩
  obtain ⟨owed, new⟩ := converging_reaches rest there sheltered
  obtain ⟨ever, fresh⟩ := new key landed
  obtain ⟨i, copy, -, least⟩ := lowest key ever
  refine ⟨i, fun j => ⟨fun other => ?_, fun same => same ▸ copy⟩, least⟩
  -- a second copy would still be owed its deletion by a running call
  by_contra different
  have less : i < j := lt_of_le_of_ne (least j ⟨_, passed_now _, other⟩) (Ne.symm different)
  obtain ⟨t, activity, runs, -⟩ := owed key i j fresh less copy other
  rw [quiet t] at runs
  cases runs

end

end

/-! ## Two inserts of one key -/

def clientCalls (_ : State Key Value) (_ : Thread) (call : Call Key Value) : Bool := call.key.isSome

def undisturbedly (cfg : Config) (a : GlobalAddress) : Test (signature Key Value) Thread (State Key Value) := fun _ o r s =>
  Op.fits o r && (!Op.updates o && match s.memory.nodes a with
    | some (.leaf leaf) => decide ((takenIndices cfg.branchFactor leaf).length ≤ cfg.splitThreshold)
    | _ => true)

theorem undisturbed_of_undisturbedly {cfg : Config} {a : GlobalAddress} (t : Thread) (o : Op Key Value) (r : o.act.Reply)
    (s : State Key Value)
    (met : undisturbedly cfg a t o r s = true) : undisturbed cfg a t o r s := by
  simp only [undisturbedly, Bool.and_eq_true, Bool.not_eq_true'] at met
  refine ⟨met.1, met.2.1, fun leaf there => ?_⟩
  have small := met.2.2
  rw [there] at small
  exact of_decide_eq_true small

/-- Both find the leaf empty and fill a slot; one of them sees both copies. -/
def racingInserts : IndexPool (Fin 256) ℕ :=
  (Pool.start ⟨smallMemory, []⟩).drive (system smallConfig clients fun _ _ => False) clientCalls (undisturbedly smallConfig ⟨0⟩)
    ([.invoke ⟨0, 0⟩ (.insert firstKey 10), .invoke ⟨0, 1⟩ (.insert firstKey 11), .act ⟨0, 0⟩ 1, .act ⟨0, 1⟩ 2] ++
      List.replicate 5 (.act ⟨0, 0⟩ 0) ++ List.replicate 4 (.act ⟨0, 1⟩ 0) ++ [.act ⟨0, 1⟩ 2, .act ⟨0, 0⟩ 0] ++
      List.replicate 7 (.act ⟨0, 1⟩ 5) ++ [.return ⟨0, 1⟩, .act ⟨0, 0⟩ 0, .return ⟨0, 0⟩])

theorem racingInserts_quiescent : racingInserts.Quiescent := by
  intro t
  by_cases first : t = ⟨0, 0⟩
  · subst first
    rfl
  by_cases second : t = ⟨0, 1⟩
  · subst second
    rfl
  refine (drive_untouched _ _ ?_).trans rfl
  simp [Move.thread, first, second]

theorem duplicates_converge_racingInserts : racingInserts.shared.history.length = 25 ∧
    ∃ i, (∀ j, Copy smallConfig racingInserts.shared.memory ⟨0⟩ firstKey j ↔ j = i) ∧
      ∀ j, Ever smallConfig racingInserts.shared ⟨0⟩ firstKey j → i ≤ j :=
  ⟨by decide +kernel, (duplicates_converge
    ⟨smallMemory, _, Memory.emptyTree_initialized _ _, .refl, fun _ => rfl, rfl⟩
    (show smallMemory.nodes ⟨0⟩ = some (.leaf (.init (⊥, ⊤))) from rfl)
    (reaches_drive (fun _ _ _ possible => possible) undisturbed_of_undisturbedly _ _ : Reaches _ _ _ racingInserts)).2
    racingInserts_quiescent firstKey (by decide +kernel)⟩

end Faunus
