import Faunus.Index.Ownership

/-! Live blocks do not dangle, as long as blocks hold whole addresses. -/

set_option autoImplicit false

namespace Faunus

open Interleaving

variable {Key Value : Type}

/-! ## Items in flight -/

/-- The item an insert holds after an operation: allocated, and not in a slot yet. -/
def itemNext : (o : Op Key Value) → o.act.Reply → Option GlobalAddress → Option GlobalAddress
  | ⟨_, .allocItem⟩, (a : GlobalAddress), _ => some a
  | ⟨site, .casBlock _ _ expected _⟩, (found : KVBlock), item =>
    match site with
    | .tryDeleteKvblock => item
    | _ => if found = expected then none else item
  | _, _, item => item

def itemOf (t : Thread) (history : List (Event Key Value)) : Option GlobalAddress := since t itemNext none history

section
variable [LinearOrder Key] [BoundedOrder Key] [KeyBytes Key] {cfg : Config}

/-- Every live block of the tree points to an item of its own with its fingerprint, which no allocator
and no insert has. -/
def Intact (cfg : Config) (s : State Key Value) : Prop :=
  ∀ a leaf i, Reachable s.memory a → s.memory.nodes a = some (.leaf leaf) → i < cfg.branchFactor →
    (leaf.kvBlocks i).isFree = false →
    (∀ server, (leaf.kvBlocks i).getAddr ∉ s.memory.freeItems server) ∧
    (∀ t, itemOf t s.history ≠ some (leaf.kvBlocks i).getAddr) ∧
    (∀ b other j, Reachable s.memory b → s.memory.nodes b = some (.leaf other) → j < cfg.branchFactor →
      (other.kvBlocks j).isFree = false → (other.kvBlocks j).getAddr = (leaf.kvBlocks i).getAddr → b = a ∧ j = i) ∧
    Fingerprint.ofKey (s.memory.items (leaf.kvBlocks i).getAddr).key = (leaf.kvBlocks i).getFingerprint

theorem Permits.item {t : Thread} {gs : Thread → Local Key Value} {m m' : Memory Key Value} {o : Op Key Value}
    {r : o.act.Reply} {g : Local Key Value} (permitted : Permits cfg t gs m o r m' g) :
    g.put.item.map Prod.fst = itemNext o r ((gs t).put.item.map Prod.fst) := by
  cases permitted with
  | @slotMissed site a leaf i expected desired there missed =>
    cases site <;> simp [itemNext, missed]
  | slotFilled there target eq => simp [itemNext, eq]
  | _ => simp_all [itemNext]

/-! ## Runs -/

/-- Every address an insert gets fits into a block, and no deletion takes a block for a pointer. -/
def fitting : Condition (signature Key Value) Thread (State Key Value) := fun _ o r _ => Op.fits o r = true

structure Owning (cfg : Config) (gs : Thread → Local Key Value) (s : State Key Value) : Prop where
  disciplined : Disciplined cfg gs s
  owned : Owned cfg gs s.memory
  item : ∀ t, (gs t).put.item.map Prod.fst = itemOf t s.history

omit [LinearOrder Key] [BoundedOrder Key] in
theorem Owned.reset {gs : Thread → Local Key Value} {m : Memory Key Value} {t : Thread} {g : Local Key Value}
    (owned : Owned cfg gs m) (smo : g.smo = (gs t).smo) (item : g.put.item = none) (freeing : g.put.freeing = none) :
    Owned cfg (Function.update gs t g) m := by
  refine owned.move (fun _ => none) (by simp) (fun x p _ held => ?_) (fun x known => known) owned.nodup
    (fun b i x fp live => owned.fingerprint b i x fp ((live_same smo rfl).1 live)) ?_
  · rcases holds_cases (m := m) held with ⟨server, rfl, listed⟩ | ⟨-, _, _, now⟩ | ⟨-, now⟩ | ⟨b, i, fp, rfl, now⟩ | ⟨old, -⟩
    · exact listed
    · simp [item] at now
    · simp [freeing] at now
    · exact ⟨fp, (live_same smo rfl).1 now⟩
    · exact old
  · exact (Function.forall_update_iff gs (p := fun _ l => ∀ x item, l.put.item = some (x, item, true) → m.items x = item)).2
      ⟨by simp [item], fun u _ => owned.written u⟩

theorem Owning.invoke {gs : Thread → Local Key Value} {s : State Key Value} {t : Thread} {call : Call Key Value}
    {g : Local Key Value} (inv : Owning cfg gs s) (idle : gs t = .idle) (begins : (machine cfg).begins t call gs s g) :
    Owning cfg (Function.update gs t g) { s with history := .invoked t call :: s.history } := by
  have disciplined := inv.disciplined.invoke idle begins
  obtain ⟨target, rfl, -⟩ := begins
  exact ⟨disciplined, inv.owned.reset (by rw [idle]; rfl) rfl rfl,
    since_invoked (fun l => l.put.item.map Prod.fst) inv.item rfl⟩

theorem Owning.act {gs : Thread → Local Key Value} {s s' : State Key Value} {t : Thread} {o : Op Key Value}
    {r : o.act.Reply} {g : Local Key Value} (inv : Owning cfg gs s) (permits : (machine cfg).permits t gs s o r s' g)
    (fits : o.fits r = true) : Owning cfg (Function.update gs t g) s' := by
  refine ⟨inv.disciplined.act permits,
    inv.owned.effect inv.disciplined.discipline (inv.disciplined.discipline.effect permits.1) fits, ?_⟩
  rw [permits.2]
  exact since_performed (fun l => l.put.item.map Prod.fst) inv.item permits.1.item

theorem Owning.finish {gs : Thread → Local Key Value} {s : State Key Value} {t : Thread} {call : Call Key Value}
    {outcome : Outcome Value} (inv : Owning cfg gs s) (ends : (machine cfg).ends t call outcome (gs t)) :
    Owning cfg (Function.update gs t .idle) { s with history := .returned t call outcome :: s.history } :=
  ⟨inv.disciplined.finish ends, inv.owned.reset ends.1.symm rfl rfl,
    since_returned (fun l => l.put.item.map Prod.fst) inv.item rfl⟩

theorem owning_initialized {m : Memory Key Value} (initialized : m.Initialized) : Owning cfg (fun _ => .idle) ⟨m, []⟩ := by
  have dead : ∀ a i x fp, ¬ Live cfg (fun _ => (.idle : Local Key Value)) m a i x fp := by
    rintro a i x fp ⟨leaf, ⟨t, -, kept⟩ | ⟨-, born⟩, -, taken, -⟩
    · cases kept
    · have found := born.1
      rw [initialized.nodes] at found
      by_cases same : a = m.rootOffset
      · subst same
        rw [Function.update_self] at found
        cases found
        simp [LeafNode.init, KVBlock.empty] at taken
      · simp [same] at found
  have nothing : ∀ p x, ¬ Holds cfg (fun _ => (.idle : Local Key Value)) m p x := by
    intro p x held
    cases p with
    | free server =>
      rw [Holds, initialized.freeItems] at held
      cases held
    | item t =>
      obtain ⟨_, _, own⟩ := held
      cases own
    | freeing t => cases held
    | slot a i =>
      obtain ⟨fp, live⟩ := held
      exact dead a i x fp live
  refine ⟨disciplined_initialized initialized,
    ⟨fun x p _ held => absurd held (nothing p x), fun x p held => absurd held (nothing p x),
    fun server => ?_, fun a i x fp live => absurd live (dead a i x fp), fun t x item own => (by cases own)⟩, fun _ => rfl⟩
  rw [initialized.freeItems]
  exact List.nodup_nil

theorem preserves_owning {admits : State Key Value → Thread → Call Key Value → Prop} :
    Preserves (system cfg admits fun _ _ => False) (machine cfg) (Owning cfg) fitting where
  invoke _ _ _ _ _ inv idle _ begins := inv.invoke idle begins
  act _ _ _ _ _ _ _ _ inv _ fits permits := inv.act permits fits
  finish _ _ _ _ _ inv ends := inv.finish ends
  env _ _ _ _ moved := moved.1.elim

omit [LinearOrder Key] [BoundedOrder Key] in
theorem Owning.intact {gs : Thread → Local Key Value} {s : State Key Value} (inv : Owning cfg gs s) : Intact cfg s := by
  -- a live block of a reachable leaf has its item for itself
  intro a leaf i reachable there bound taken
  have discipline := inv.disciplined.discipline
  have live := discipline.live_of_born (discipline.levels.born_reachable reachable there).1 bound taken
  have here : Holds cfg gs s.memory (.slot a i) (leaf.kvBlocks i).getAddr := ⟨_, live⟩
  refine ⟨fun server listed => ?_, fun t flying => ?_, fun b other j also present small used same => ?_,
    inv.owned.fingerprint a i _ _ live⟩
  · cases inv.owned.unique _ (.free server) _ listed here
  · rw [← inv.item, Option.map_eq_some_iff] at flying
    obtain ⟨⟨x, item, wrote⟩, own, rfl⟩ := flying
    cases inv.owned.unique _ (.item t) _ ⟨item, wrote, own⟩ here
  · have second := discipline.live_of_born (discipline.levels.born_reachable also present).1 small used
    rw [same] at second
    cases inv.owned.unique _ (.slot b j) _ ⟨_, second⟩ here
    exact ⟨rfl, rfl⟩

/-- In every run whose allocated addresses fit into a block and whose deletions free nothing, no live block dangles. -/
theorem no_dangling_block {m : Memory Key Value} (initialized : m.Initialized) {P : IndexPool Key Value}
    (run : Reaches (system cfg calls fun _ _ => False) fitting (Pool.start ⟨m, []⟩) P) : Intact cfg P.shared := by
  obtain ⟨gs, explains⟩ := (explains_start (owning_initialized initialized)).reaches
    (implements_machine (fun _ _ inv => inv.disciplined.discipline) fun _ _ _ admitted => admitted) preserves_owning run
  exact explains.holds.intact

end

/-! ## Two inserts -/

/-- An insert that finds a free slot in a tree of one leaf. -/
def insertAlone (t : Thread) (key : Fin 256) (value : ℕ) (address : BitVec 64) :
    List (Move Thread (BitVec 64) (Call (Fin 256) ℕ)) :=
  .invoke t (.insert key value) :: .act t address :: List.replicate 7 (.act t 0) ++ [.return t]

def twoInserts (allows : Test (signature (Fin 256) ℕ) Thread (State (Fin 256) ℕ)) (one two : BitVec 64) :
    IndexPool (Fin 256) ℕ :=
  (Pool.start ⟨smallMemory, []⟩).drive (system smallConfig calls fun _ _ => False) rootCalls allows
    (insertAlone ⟨0, 0⟩ firstKey 10 one ++ insertAlone ⟨0, 0⟩ secondKey 20 two)

theorem no_dangling_block_twoInserts :
    (twoInserts (fun _ o r _ => o.fits r) 1 2).shared.history.length = 20 ∧
      Intact smallConfig (twoInserts (fun _ o r _ => o.fits r) 1 2).shared :=
  ⟨rfl, no_dangling_block (Memory.emptyTree_initialized _ _)
    (reaches_drive calls_of_rootCalls (fun _ _ _ _ met => met) _ _ : Reaches _ _ _ (twoInserts _ 1 2))⟩

set_option maxRecDepth 8000 in
/-- Addresses that agree in their lower 46 bits end up as one address in two blocks. -/
theorem dangling_block_twoInserts :
    Reaches (system smallConfig calls fun _ _ => False) anything (Pool.start ⟨smallMemory, []⟩)
      (twoInserts freely (2 ^ 46) (2 ^ 47)) ∧ ¬ Intact smallConfig (twoInserts freely (2 ^ 46) (2 ^ 47)).shared := by
  refine ⟨reaches_drive calls_of_rootCalls (fun _ _ _ _ _ => trivial) _ _, fun intact => ?_⟩
  have same := (intact ⟨0⟩ _ 0 .refl rfl (by decide) rfl).2.2.1 ⟨0⟩ _ 1 .refl rfl (by decide) rfl rfl
  exact absurd same.2 (by decide)

end Faunus
