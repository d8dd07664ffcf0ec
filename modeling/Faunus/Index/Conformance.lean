import Faunus.Index.Preservation

/-! The operations of the index do only what the machine permits. -/

set_option autoImplicit false

namespace Faunus

open Interleaving

variable {Key Value : Type} [LinearOrder Key] [BoundedOrder Key] [KeyBytes Key]

/-- What a call has established when it returns. -/
def Returns (cfg : Config) (put : Put Key Value) : Call Key Value → Outcome Value → Prop
  | .insert key value, outcome => outcome.ok = true → put.placed = some ⟨key, value⟩
  | .read key, outcome => outcome.ok = false →
    ∃ a leaf, put.seen = some (a, leaf) ∧ leaf.header.covers key ∧ put.missed cfg leaf key cfg.branchFactor
  | .split _, _ => True
  | .maintain, _ => True

def Call.key : Call Key Value → Option Key
  | .insert key _ => some key
  | .read key => some key
  | .split _ => none
  | .maintain => none

def machine (cfg : Config) :
    Machine (signature Key Value) Thread (Call Key Value) (Outcome Value) (State Key Value) (Local Key Value) where
  idle := .idle
  begins _ call gs s g := ∃ target, g = ⟨.idle, { View.idle with target }, { Put.idle with wanted := call.key }⟩ ∧
    ∀ a level, target = some (a, level) → Known gs s.memory a level
  permits t gs s o r s' g :=
    Permits cfg t gs s.memory o r s'.memory g ∧ s'.history = .performed t o r s.memory :: s.history
  ends _ call outcome g := g.smo = .idle ∧ Returns cfg g.put call outcome

/-- The program of the thread does what is permitted wherever the discipline holds. -/
def Conforms (cfg : Config) (t : Thread) {A : Type} (post : A → Local Key Value → Prop) (p : Index Key Value A)
    (g : Local Key Value) : Prop :=
  Follows (machine cfg).permits (State.exec cfg.usable) (fun gs s => Discipline gs s.memory cfg) t post p g

section
variable {cfg : Config} {t : Thread} {A B : Type} {post : A → Local Key Value → Prop} {g : Local Key Value}

theorem conforms_bind {p : Index Key Value B} {f : B → Index Key Value A}
    (first : Conforms cfg t (fun b g => Conforms cfg t post (f b) g) p g) : Conforms cfg t post (p >>= f) g :=
  follows_bind first

theorem conforms_mono {p : Index Key Value A} {weak : A → Local Key Value → Prop} (conforms : Conforms cfg t weak p g)
    (implies : ∀ a g, weak a g → post a g) : Conforms cfg t post p g :=
  follows_mono conforms implies

/-! ## Single operations -/

theorem conforms_perform {o : Op Key Value} {next : o.act.Reply → Index Key Value A}
    (step : ∀ gs m c r m', Discipline gs m cfg → gs t = g → Memory.exec cfg.usable t o c m = some (r, m') →
      ∃ g', Permits cfg t gs m o r m' g' ∧ Conforms cfg t post (next r) g') :
    Conforms cfg t post (.perform o next) g := by
  intro gs s inv own c r s' performed
  obtain ⟨done, history⟩ := State.exec_eq_some performed
  obtain ⟨g', permitted, rest⟩ := step gs s.memory c r s'.memory inv own done
  exact ⟨g', ⟨permitted, history⟩, rest⟩

theorem conforms_readRoot {site : Site} {f : GlobalAddress → Index Key Value A}
    (step : ∀ gs m, Discipline gs m cfg → gs t = g →
      ∃ g', Permits cfg t gs m ⟨site, .readRoot⟩ m.rootOffset m g' ∧ Conforms cfg t post (f m.rootOffset) g') :
    Conforms cfg t post (readRoot site >>= f) g := by
  refine conforms_perform fun gs m c r m' inv own done => ?_
  cases done
  exact step gs m inv own

theorem conforms_readNode {site : Site} {a : GlobalAddress} {f : Node Key → Index Key Value A}
    (step : ∀ gs m n, Discipline gs m cfg → gs t = g → m.nodes a = some n →
      ∃ g', Permits cfg t gs m ⟨site, .readNode a⟩ n m g' ∧ Conforms cfg t post (f n) g') :
    Conforms cfg t post (readNode site a >>= f) g := by
  refine conforms_perform fun gs m c r m' inv own done => ?_
  simp only [Memory.exec] at done
  split at done
  · rename_i n there
    cases done
    exact step gs m _ inv own there
  · cases done

theorem conforms_writeNode {site : Site} {a : GlobalAddress} {n : Node Key} {f : Unit → Index Key Value A}
    (step : ∀ gs m, Discipline gs m cfg → gs t = g →
      ∃ g', Permits cfg t gs m ⟨site, .writeNode a n⟩ () (m.setNode a n) g' ∧ Conforms cfg t post (f ()) g') :
    Conforms cfg t post (writeNode site a n >>= f) g := by
  refine conforms_perform fun gs m c r m' inv own done => ?_
  cases done
  exact step gs m inv own

theorem conforms_casLock {site : Site} {a : GlobalAddress} {f : BitVec 64 → Index Key Value A}
    (taken : ∀ gs m n, Discipline gs m cfg → gs t = g → m.nodes a = some n → n.header.lock = 0 →
      ∃ g', Permits cfg t gs m ⟨site, .casLock a 0 1⟩ (0 : BitVec 64) (m.setNode a (n.setLock 1)) g' ∧
        Conforms cfg t post (f 0) g')
    (failed : ∀ gs m n, Discipline gs m cfg → gs t = g → m.nodes a = some n → n.header.lock ≠ 0 →
      ∃ g', Permits cfg t gs m ⟨site, .casLock a 0 1⟩ n.header.lock m g' ∧ Conforms cfg t post (f n.header.lock) g') :
    Conforms cfg t post (casLock site a 0 1 >>= f) g := by
  refine conforms_perform fun gs m c r m' inv own done => ?_
  simp only [Memory.exec] at done
  split at done
  · rename_i n there
    split at done
    · rename_i unlocked
      cases done
      rw [unlocked]
      exact taken gs m n inv own there unlocked
    · rename_i locked
      cases done
      exact failed gs m n inv own there locked
  · cases done

theorem conforms_faaLock {site : Site} {a : GlobalAddress} {f : Unit → Index Key Value A}
    (step : ∀ gs m n, Discipline gs m cfg → gs t = g → m.nodes a = some n →
      ∃ g', Permits cfg t gs m ⟨site, .faaLock a (-1)⟩ () (m.setNode a (n.setLock (n.header.lock + -1))) g' ∧
        Conforms cfg t post (f ()) g') :
    Conforms cfg t post (faaLock site a (-1) >>= f) g := by
  refine conforms_perform fun gs m c r m' inv own done => ?_
  simp only [Memory.exec] at done
  split at done
  · rename_i n there
    cases done
    exact step gs m n inv own there
  · cases done

theorem conforms_faaBlock {site : Site} {a : GlobalAddress} {i : ℕ} {increment : BitVec 64} {f : Unit → Index Key Value A}
    (step : ∀ gs m leaf, Discipline gs m cfg → gs t = g → m.nodes a = some (.leaf leaf) →
      ∃ g', Permits cfg t gs m ⟨site, .faaBlock a i increment⟩ ()
        (m.setNode a (.leaf (leaf.setBlock i ((leaf.kvBlocks i).add increment)))) g' ∧ Conforms cfg t post (f ()) g') :
    Conforms cfg t post (faaBlock site a i increment >>= f) g := by
  refine conforms_perform fun gs m c r m' inv own done => ?_
  simp only [Memory.exec] at done
  split at done
  · rename_i leaf there
    cases done
    exact step gs m leaf inv own there
  · cases done

theorem conforms_casBlock {site : Site} {a : GlobalAddress} {i : ℕ} {expected desired : KVBlock}
    {f : KVBlock → Index Key Value A}
    (changed : ∀ gs m leaf, Discipline gs m cfg → gs t = g → m.nodes a = some (.leaf leaf) → leaf.kvBlocks i = expected →
      ∃ g', Permits cfg t gs m ⟨site, .casBlock a i expected desired⟩ expected
        (m.setNode a (.leaf (leaf.setBlock i desired))) g' ∧ Conforms cfg t post (f expected) g')
    (missed : ∀ found, found ≠ expected → Conforms cfg t post (f found) g) :
    Conforms cfg t post (casBlock site a i expected desired >>= f) g := by
  refine conforms_perform fun gs m c r m' inv own done => ?_
  simp only [Memory.exec] at done
  split at done
  · rename_i leaf there
    split at done
    · rename_i same
      cases done
      rw [same]
      exact changed gs m leaf inv own there same
    · rename_i differs
      cases done
      exact ⟨gs t, .slotMissed there differs, own ▸ missed _ differs⟩
  · cases done

theorem conforms_readItem {site : Site} {a : GlobalAddress} {f : KVItem Key Value → Index Key Value A}
    (step : ∀ gs m, Discipline gs m cfg → gs t = g →
      ∃ g', Permits cfg t gs m ⟨site, .readItem a⟩ (m.items a) m g' ∧ Conforms cfg t post (f (m.items a)) g') :
    Conforms cfg t post (readItem site a >>= f) g := by
  refine conforms_perform fun gs m c r m' inv own done => ?_
  cases done
  exact step gs m inv own

theorem conforms_readKey {site : Site} {a : GlobalAddress} {f : Key → Index Key Value A}
    (step : ∀ gs m, Discipline gs m cfg → gs t = g →
      ∃ g', Permits cfg t gs m ⟨site, .readKey a⟩ (m.items a).key m g' ∧ Conforms cfg t post (f (m.items a).key) g') :
    Conforms cfg t post (readKey site a >>= f) g := by
  refine conforms_perform fun gs m c r m' inv own done => ?_
  cases done
  exact step gs m inv own

theorem conforms_writeItem {site : Site} {a : GlobalAddress} {item : KVItem Key Value} {f : Unit → Index Key Value A}
    (step : ∀ gs m, Discipline gs m cfg → gs t = g →
      ∃ g', Permits cfg t gs m ⟨site, .writeItem a item⟩ () (m.setItem a item) g' ∧ Conforms cfg t post (f ()) g') :
    Conforms cfg t post (writeItem site a item >>= f) g := by
  refine conforms_perform fun gs m c r m' inv own done => ?_
  cases done
  exact step gs m inv own

theorem conforms_allocNode {site : Site} {f : GlobalAddress → Index Key Value A}
    (step : ∀ gs m a, Discipline gs m cfg → gs t = g → a ∉ m.nodesIssued →
      ∃ g', Permits cfg t gs m ⟨site, .allocNode⟩ a { m with nodesIssued := a :: m.nodesIssued } g' ∧
        Conforms cfg t post (f a) g') :
    Conforms cfg t post (allocNode site >>= f) g := by
  refine conforms_perform fun gs m c r m' inv own done => ?_
  simp only [Memory.exec] at done
  split at done
  · cases done
  · rename_i unused
    cases done
    exact step gs m _ inv own unused

theorem conforms_allocItem {site : Site} {f : GlobalAddress → Index Key Value A}
    (step : ∀ gs m a m', Discipline gs m cfg → gs t = g → cfg.usable a = true → m.allocItem t.server a = some m' →
      ∃ g', Permits cfg t gs m ⟨site, .allocItem⟩ a m' g' ∧ Conforms cfg t post (f a) g') :
    Conforms cfg t post (allocItem site >>= f) g := by
  refine conforms_perform fun gs m c r m' inv own done => ?_
  simp only [Memory.exec] at done
  split at done
  · rename_i usable
    split at done
    · rename_i allocated eq
      cases done
      exact step gs m _ _ inv own usable eq
    · cases done
  · cases done

theorem conforms_freeItem {site : Site} {a : GlobalAddress} {f : Unit → Index Key Value A}
    (step : ∀ gs m, Discipline gs m cfg → gs t = g →
      ∃ g', Permits cfg t gs m ⟨site, .freeItem a⟩ () (m.freeItem t.server a) g' ∧ Conforms cfg t post (f ()) g') :
    Conforms cfg t post (freeItem site a >>= f) g := by
  refine conforms_perform fun gs m c r m' inv own done => ?_
  cases done
  exact step gs m inv own

theorem conforms_enqueue {site : Site} {a : GlobalAddress} {f : Unit → Index Key Value A}
    (target : g.view.target = some (a, 0)) (rest : Conforms cfg t post (f ()) g) :
    Conforms cfg t post (enqueue site a >>= f) g := by
  refine conforms_perform fun gs m c r m' inv own done => ?_
  cases done
  subst own
  exact ⟨gs t, .enqueue target, rest⟩

theorem conforms_dequeue {site : Site} {f : GlobalAddress → Index Key Value A}
    (rest : ∀ a, Conforms cfg t post (f a) { g with view := { g.view with target := some (a, 0) } }) :
    Conforms cfg t post (dequeue site >>= f) g := by
  refine conforms_perform fun gs m c r m' inv own done => ?_
  subst own
  simp only [Memory.exec] at done
  split at done
  · rename_i queued
    cases done
    exact ⟨_, .dequeue queued, rest _⟩
  · cases done

theorem conforms_threadHash {site : Site} {f : BitVec 64 → Index Key Value A}
    (rest : ∀ hash, Conforms cfg t post (f hash) g) : Conforms cfg t post (threadHash site >>= f) g := by
  refine conforms_perform fun gs m c r m' inv own done => ?_
  cases done
  subst own
  exact ⟨gs t, .threadHash, rest _⟩

theorem conforms_setDifferentRandomFpAddr {site : Site} {b : KVBlock} {f : KVBlock → Index Key Value A}
    (rest : ∀ random, Conforms cfg t post (f random) g) :
    Conforms cfg t post (setDifferentRandomFpAddr site b >>= f) g := by
  refine conforms_perform fun gs m c r m' inv own done => ?_
  simp only [Memory.exec] at done
  split at done
  · cases done
  cases done
  subst own
  refine ⟨gs t, .randFingerprint, conforms_perform fun gs' m c r m' inv own done => ?_⟩
  simp only [Memory.exec] at done
  split at done
  · cases done
  cases done
  exact ⟨gs' t, .randAddr, own ▸ rest _⟩

end

end Faunus
