import Faunus.Cache.Reclamation
import Faunus.Interleaving.Ledger
import Faunus.Rdma.Regions

/-! Reclamation is safe inside guards.

Chunks move between the free list, the skiplist, the retired queue and the hands of
threads. A thread that published its epoch before a chunk was unlinked published an
epoch no later than the one the chunk is retired with, and a reclaimer that took the
chunk meets that thread's record in its scan, unless the thread has left its guard.
-/

set_option autoImplicit false

namespace Faunus.Cache

open Interleaving

section
variable {Key Addr Node : Type} [LinearOrder Key]

/-- Everything an operation can do. -/
inductive Effect (t : ℕ) (s : Shared Key Addr Node) :
    (o : Act Key Addr Node) → o.Reply → Shared Key Addr Node → Prop where
  | threadRecord : Effect t s .threadRecord (decide (t ∈ s.registry)) s
  | loadHead : Effect t s .loadHead s.registry s
  | pushed {expected : List ℕ} : Effect t s (.casHead expected) none
      { s with registry := t :: s.registry, epochs := Function.update s.epochs t 0 }
  | contended {expected : List ℕ} : Effect t s (.casHead expected) (some s.registry) s
  | loadEpoch : Effect t s .loadEpoch s.globalEpoch s
  | bumpEpoch : Effect t s .bumpEpoch () { s with globalEpoch := s.globalEpoch + 1 }
  | storeRecord {epoch : ℕ} : Effect t s (.storeRecord epoch) () { s with epochs := Function.update s.epochs t epoch }
  | loadRecord {u : ℕ} : Effect t s (.loadRecord u) (s.epochs u) s
  | find {key : Key} {found : Option ℕ} : (∀ chunk, found = some chunk → chunk ∈ s.linked) →
      Effect t s (.find key) found s
  | insert {chunk : ℕ} : Effect t s (.insert chunk) () { s with linked := chunk :: s.linked }
  | erased {chunk : ℕ} : chunk ∈ s.linked → Effect t s (.erase chunk) true { s with linked := s.linked.erase chunk }
  | missing {chunk : ℕ} : Effect t s (.erase chunk) false s
  | sampleVictim {victim : Option ℕ} : Effect t s .sampleVictim victim s
  | readStart {chunk : ℕ} : Effect t s (.readStart chunk) (s.entries chunk).start s
  | readStop {chunk : ℕ} : Effect t s (.readStop chunk) (s.entries chunk).stop s
  | readFirst {chunk : ℕ} : Effect t s (.readFirst chunk) (s.entries chunk).first s
  | readSecond {chunk : ℕ} : Effect t s (.readSecond chunk) (s.entries chunk).second s
  | writeRange {chunk : ℕ} {start stop : Key} : Effect t s (.writeRange chunk start stop) () { s with
      entries := Function.update s.entries chunk { s.entries chunk with start := start, stop := stop } }
  | writeItem {chunk : ℕ} {first : Addr} {second : Node} : Effect t s (.writeItem chunk first second) () { s with
      entries := Function.update s.entries chunk { s.entries chunk with first := first, second := second } }
  | touch {chunk stamp : ℕ} : Effect t s (.touch chunk) () { s with lastAccess := Function.update s.lastAccess chunk stamp }
  | readAccess {chunk : ℕ} : Effect t s (.readAccess chunk) (s.lastAccess chunk) s
  | allocated {chunk : ℕ} : chunk ∈ s.freeList →
      Effect t s .allocateNogrowth (some chunk) { s with freeList := s.freeList.erase chunk }
  | exhausted : Effect t s .allocateNogrowth none s
  | freeCount {count : ℕ} : Effect t s .freeCount count s
  | free {x : RetiredItem} : Effect t s (.free x) () { s with freeList := x.offset :: s.freeList }
  | retire {x : RetiredItem} : Effect t s (.retire x) () { s with retired := x :: s.retired }
  | dequeued {x : RetiredItem} : x ∈ s.retired →
      Effect t s .tryDequeue (some x) { s with retired := s.retired.erase x }
  | drained : Effect t s .tryDequeue none s
  | reenqueue {x : RetiredItem} : Effect t s (.reenqueue x) () { s with retired := x :: s.retired }

theorem Shared.effect {t c : ℕ} {o : Act Key Addr Node} {r : o.Reply} {s s' : Shared Key Addr Node}
    (performed : Shared.exec t o c s = some (r, s')) : Effect t s o r s' := by
  cases o with
  | casHead expected =>
    simp only [Shared.exec] at performed
    split at performed
    · cases performed
      exact .pushed
    · cases performed
      exact .contended
  | find key =>
    simp only [Shared.exec] at performed
    split at performed
    · cases performed
      exact .find (by simp)
    · split at performed
      · cases performed
      · rename_i chunk listed
        split at performed
        · cases performed
          refine .find ?_
          rintro _ ⟨⟩
          exact (List.mem_filter.mp (List.mem_of_getElem? listed)).1
        · cases performed
  | erase chunk =>
    simp only [Shared.exec] at performed
    split at performed
    · rename_i linked
      cases performed
      exact .erased linked
    · cases performed
      exact .missing
  | sampleVictim =>
    simp only [Shared.exec] at performed
    split at performed
    · cases performed
      exact .sampleVictim
    · split at performed
      · cases performed
      · cases performed
        exact .sampleVictim
  | allocateNogrowth =>
    simp only [Shared.exec] at performed
    split at performed
    · cases performed
      exact .exhausted
    · rename_i listed
      cases performed
      exact .allocated (List.mem_of_getElem? listed)
  | tryDequeue =>
    simp only [Shared.exec] at performed
    split at performed
    · cases performed
      exact .drained
    · rename_i listed
      cases performed
      exact .dequeued (List.mem_of_getElem? listed)
  | _ =>
    cases performed
    constructor

theorem State.effect {t c : ℕ} {o : Act Key Addr Node} {r : o.Reply} {s s' : State Key Addr Node}
    (performed : State.exec t o c s = some (r, s')) :
    Effect t s.cache o r s'.cache ∧ s'.history = .performed t o r :: s.history := by
  unfold State.exec at performed
  split at performed
  · rename_i reply cache eq
    cases performed
    exact ⟨Shared.effect eq, rfl⟩
  · cases performed

end

/-! ## Epochs -/

section
variable {Key Addr Node : Type}

theorem update_same {A : Type} (f : Hand Key Addr Node → A) {gs : ℕ → Hand Key Addr Node} {t : ℕ}
    {g : Hand Key Addr Node} (same : f g = f (gs t)) (u : ℕ) : f (Function.update gs t g u) = f (gs u) := by
  by_cases own : u = t
  · subst own
    rw [Function.update_self]
    exact same
  · rw [Function.update_of_ne own]

def Hand.pledge (g : Hand Key Addr Node) : Bool × Bool × Option ℕ := (g.guarded, g.registered, g.loaded)

structure Epochs (gs : ℕ → Hand Key Addr Node) (s : Shared Key Addr Node) : Prop where
  guarded : ∀ u, (gs u).guarded = true ↔ s.epochs u ≠ 0
  registered : ∀ u, (gs u).registered = true → u ∈ s.registry
  known : ∀ u, s.epochs u ≠ 0 → u ∈ s.registry
  current : ∀ u, s.epochs u ≤ s.globalEpoch
  loaded : ∀ u e, (gs u).loaded = some e → e ≤ s.globalEpoch

variable {gs : ℕ → Hand Key Addr Node} {s s' : Shared Key Addr Node} {t : ℕ}

theorem Epochs.set (ok : Epochs gs s) {g : Hand Key Addr Node} {epoch : ℕ} (guarded : g.guarded = true ↔ epoch ≠ 0)
    (registered : g.registered = true → t ∈ s.registry) (known : epoch ≠ 0 → t ∈ s.registry)
    (current : epoch ≤ s.globalEpoch) (loaded : ∀ e, g.loaded = some e → e ≤ s.globalEpoch) :
    Epochs (Function.update gs t g) { s with epochs := Function.update s.epochs t epoch } := by
  -- one thread changes its pledge and the epoch it has published
  constructor
  all_goals
    intro u
    by_cases own : u = t
    · subst own
      simp only [Function.update_self]
      assumption
    · simp only [Function.update_of_ne own]
      first
        | exact ok.guarded u
        | exact ok.registered u
        | exact ok.known u
        | exact ok.current u
        | exact ok.loaded u

theorem Epochs.pledge (ok : Epochs gs s) {g : Hand Key Addr Node} (guarded : g.guarded = (gs t).guarded)
    (registered : g.registered = true → t ∈ s.registry) (loaded : ∀ e, g.loaded = some e → e ≤ s.globalEpoch) :
    Epochs (Function.update gs t g) s := by
  have set := ok.set (t := t) (g := g) (by rw [guarded]; exact ok.guarded t) registered (ok.known t) (ok.current t) loaded
  rwa [Function.update_eq_self] at set

theorem Epochs.keep (ok : Epochs gs s) {g : Hand Key Addr Node} (same : g.pledge = (gs t).pledge) :
    Epochs (Function.update gs t g) s := by
  refine ok.pledge (congrArg (·.1) same) ?_ ?_
  · rw [show g.registered = (gs t).registered from congrArg (·.2.1) same]
    exact ok.registered t
  · rw [show g.loaded = (gs t).loaded from congrArg (·.2.2) same]
    exact ok.loaded t

theorem Epochs.later (ok : Epochs gs s) (epochs : s'.epochs = s.epochs) (registry : s.registry ⊆ s'.registry)
    (globalEpoch : s.globalEpoch ≤ s'.globalEpoch) : Epochs gs s' := by
  constructor
  · rw [epochs]
    exact ok.guarded
  · exact fun u known => registry (ok.registered u known)
  · rw [epochs]
    exact fun u inside => registry (ok.known u inside)
  · rw [epochs]
    exact fun u => (ok.current u).trans globalEpoch
  · exact fun u e known => (ok.loaded u e known).trans globalEpoch

theorem Epochs.act {o : Act Key Addr Node} {r : o.Reply} (ok : Epochs gs s) (may : (gs t).may o)
    (effect : Effect t s o r s') : Epochs (Function.update gs t ((gs t).after o r)) s' := by
  cases effect with
  | threadRecord =>
    refine ok.pledge rfl ?_ (ok.loaded t)
    simp only [Hand.after, Bool.or_eq_true, decide_eq_true_eq]
    exact fun known => known.elim (ok.registered t) id
  | pushed =>
    have outside : s.epochs t = 0 := by
      by_contra inside
      rw [Hand.may, (ok.guarded t).mpr inside] at may
      cases may
    have epochs : Function.update s.epochs t 0 = s.epochs := Function.update_eq_self_iff.mpr outside.symm
    have wider : Epochs gs { s with registry := t :: s.registry, epochs := Function.update s.epochs t 0 } :=
      ok.later epochs (List.subset_cons_self ..) le_rfl
    exact wider.pledge rfl (fun _ => List.mem_cons_self ..) (wider.loaded t)
  | contended =>
    refine ok.keep ?_
    simp [Hand.pledge, Hand.after]
  | loadEpoch =>
    refine ok.pledge rfl (ok.registered t) ?_
    rintro e ⟨⟩
    exact le_rfl
  | bumpEpoch => exact Epochs.later (s := s) (ok.keep (by rfl)) rfl (List.Subset.refl _) (Nat.le_succ _)
  | @storeRecord epoch =>
    have bound : epoch ≤ s.globalEpoch := by
      rcases may with rfl | ⟨_, _, loaded⟩
      · exact Nat.zero_le _
      · exact ok.loaded t epoch loaded
    refine ok.set (by simp [Hand.after]) (ok.registered t) ?_ bound (ok.loaded t)
    intro inside
    rcases may with none | ⟨_, registered, _⟩
    · exact absurd none inside
    · exact ok.registered t registered
  | @erased chunk linked =>
    have done : Epochs (Function.update gs t ((gs t).after (.erase chunk) true)) s :=
      ok.pledge rfl (ok.registered t) (by rintro _ ⟨⟩)
    exact done.later rfl (List.Subset.refl _) le_rfl
  | _ => exact Epochs.later (s := s) (ok.keep (by rfl)) rfl (List.Subset.refl _) le_rfl

end

/-! ## Chunks -/

inductive Place where
  | free
  | linked
  | retired
  | batch (t : ℕ)
  | adding (t : ℕ)
  | retiring (t : ℕ)
  deriving DecidableEq

section
variable {Key Addr Node : Type}

def places (gs : ℕ → Hand Key Addr Node) (s : Shared Key Addr Node) : Ledger Place ℕ
  | .free => s.freeList
  | .linked => s.linked
  | .retired => s.retired.map RetiredItem.offset
  | .batch t => (gs t).batch.map RetiredItem.offset
  | .adding t => (gs t).adding.toList
  | .retiring t => (gs t).retiring.toList

structure Placed (chunks : List ℕ) (gs : ℕ → Hand Key Addr Node) (s : Shared Key Addr Node) : Prop where
  apart : Ledger.Apart (· ≠ ·) (places gs s)
  all : ∀ chunk ∈ chunks, Ledger.Lists (places gs s) chunk

variable {chunks : List ℕ} {gs gs' : ℕ → Hand Key Addr Node} {s s' : Shared Key Addr Node} {t : ℕ}

theorem Placed.unique (ok : Placed chunks gs s) {p q : Place} {chunk : ℕ} (here : chunk ∈ places gs s p)
    (there : chunk ∈ places gs s q) : p = q := by
  by_contra differ
  exact ok.apart.across p q differ chunk here chunk there rfl

theorem Placed.keep (ok : Placed chunks gs s) (same : places gs' s' = places gs s) : Placed chunks gs' s' := by
  constructor
  · rw [same]
    exact ok.apart
  · rw [same]
    exact ok.all

theorem Placed.move (ok : Placed chunks gs s) {p q : Place} (differ : p ≠ q) {chunk : ℕ} {rest : List ℕ}
    (here : (places gs s p).Perm (chunk :: rest))
    (after : places gs' s' = Function.update (Function.update (places gs s) p rest) q (chunk :: places gs s q)) :
    Placed chunks gs' s' := by
  constructor
  · rw [after]
    exact ok.apart.move (fun _ _ => Ne.symm) differ here
  · intro other slab
    rw [after]
    exact (Ledger.lists_move differ here).mpr (ok.all other slab)

theorem Placed.act {o : Act Key Addr Node} {r : o.Reply} (ok : Placed chunks gs s) (may : (gs t).may o)
    (effect : Effect t s o r s') : Placed chunks (Function.update gs t ((gs t).after o r)) s' := by
  cases effect with
  | @insert chunk =>
    have here : (places gs s (.adding t)).Perm [chunk] := by
      show (gs t).adding.toList.Perm [chunk]
      rw [may.1]
      rfl
    refine ok.move (q := .linked) (by simp) here ?_
    funext p
    cases p with
    | batch u | adding u | retiring u => by_cases own : u = t <;> simp [places, own, Hand.after]
    | free | linked | retired => simp [places]
  | @erased chunk linked =>
    refine ok.move (p := .linked) (q := .retiring t) (by simp) (List.perm_cons_erase linked) ?_
    have none : (gs t).retiring = none := may
    funext p
    cases p with
    | batch u | adding u | retiring u => by_cases own : u = t <;> simp [places, own, Hand.after, none]
    | free | linked | retired => simp [places]
  | @allocated chunk listed =>
    refine ok.move (p := .free) (q := .adding t) (by simp) (List.perm_cons_erase listed) ?_
    have none : (gs t).adding = none := may
    funext p
    cases p with
    | batch u | adding u | retiring u => by_cases own : u = t <;> simp [places, own, Hand.after, none]
    | free | linked | retired => simp [places]
  | @free x =>
    have here : (places gs s (.batch t)).Perm (x.offset :: ((gs t).batch.erase x).map RetiredItem.offset) :=
      (List.perm_cons_erase may.1).map RetiredItem.offset
    refine ok.move (q := .free) (by simp) here ?_
    funext p
    cases p with
    | batch u | adding u | retiring u => by_cases own : u = t <;> simp [places, own, Hand.after]
    | free | linked | retired => simp [places]
  | @retire x =>
    have here : (places gs s (.retiring t)).Perm [x.offset] := by
      show (gs t).retiring.toList.Perm [x.offset]
      rw [may.1]
      rfl
    refine ok.move (q := .retired) (by simp) here ?_
    funext p
    cases p with
    | batch u | adding u | retiring u => by_cases own : u = t <;> simp [places, own, Hand.after]
    | free | linked | retired => simp [places]
  | @dequeued x listed =>
    have here : (places gs s .retired).Perm (x.offset :: (s.retired.erase x).map RetiredItem.offset) :=
      (List.perm_cons_erase listed).map RetiredItem.offset
    refine ok.move (q := .batch t) (by simp) here ?_
    funext p
    cases p with
    | batch u | adding u | retiring u => by_cases own : u = t <;> simp [places, own, Hand.after]
    | free | linked | retired => simp [places]
  | @reenqueue x =>
    have here : (places gs s (.batch t)).Perm (x.offset :: ((gs t).batch.erase x).map RetiredItem.offset) :=
      (List.perm_cons_erase may).map RetiredItem.offset
    refine ok.move (q := .retired) (by simp) here ?_
    funext p
    cases p with
    | batch u | adding u | retiring u => by_cases own : u = t <;> simp [places, own, Hand.after]
    | free | linked | retired => simp [places]
  | exhausted =>
    have none : (gs t).adding = none := may
    refine ok.keep ?_
    funext p
    cases p with
    | batch u | adding u | retiring u => by_cases own : u = t <;> simp [places, own, Hand.after, none]
    | free | linked | retired => simp [places]
  | _ =>
    refine ok.keep ?_
    funext p
    cases p with
    | batch u | adding u | retiring u => by_cases own : u = t <;> simp [places, own, Hand.after]
    | free | linked | retired => simp [places]

end

/-! ## Shelter -/

section
variable {Key Addr Node : Type}

/-- Why no sheltered chunk is reclaimed: it is retired with an epoch no earlier than that of the sheltering
thread, whose record every reclaimer that took the chunk still has to read or has already accounted for. -/
structure Safe (gs : ℕ → Hand Key Addr Node) (s : State Key Addr Node) : Prop where
  guarded : ∀ u chunk, Sheltered u chunk s.history → (gs u).guarded = true
  away : ∀ u chunk, Sheltered u chunk s.history →
    chunk ∉ s.cache.freeList ∧ chunk ∉ s.cache.linked ∧ ∀ v, (gs v).adding ≠ some chunk
  retired : ∀ u x, Sheltered u x.offset s.history → x ∈ s.cache.retired → s.cache.epochs u ≤ x.retireEpoch
  taken : ∀ u v x, Sheltered u x.offset s.history → x ∈ (gs v).batch → s.cache.epochs u ≤ x.retireEpoch
  retiring : ∀ u v chunk e, Sheltered u chunk s.history → (gs v).retiring = some chunk → (gs v).loaded = some e →
    s.cache.epochs u ≤ e
  scanned : ∀ u v x records least, Sheltered u x.offset s.history → x ∈ (gs v).batch →
    (gs v).scan = some (records, least) → u ∈ records ∨ ∃ m ∈ least, m ≤ s.cache.epochs u

variable {chunks : List ℕ} {gs : ℕ → Hand Key Addr Node} {s : State Key Addr Node} {t : ℕ}

theorem Safe.unsheltered (safe : Safe gs s) {x : RetiredItem} (may : (gs t).may (.free x)) (u : ℕ) :
    ¬ Sheltered u x.offset s.history := by
  intro sheltered
  obtain ⟨taken, least, scan, older⟩ := may
  rcases safe.scanned u t x [] least sheltered taken scan with left | ⟨m, is, low⟩
  · cases left
  · have bound := safe.taken u t x sheltered taken
    have less := older m is
    omega

theorem lesser_le {least : Option ℕ} {e m : ℕ} (listed : m ∈ least) : ∃ m' ∈ lesser least e, m' ≤ m := by
  unfold lesser
  split
  · rename_i smaller
    exact ⟨e, rfl, (smaller.2 m listed).le⟩
  · exact ⟨m, listed, le_rfl⟩

theorem lesser_self {least : Option ℕ} {e : ℕ} (inside : e ≠ 0) : ∃ m ∈ lesser least e, m ≤ e := by
  unfold lesser
  split
  · exact ⟨e, rfl, le_rfl⟩
  · rename_i larger
    cases least with
    | none => exact absurd ⟨inside, nofun⟩ larger
    | some m =>
      refine ⟨m, rfl, ?_⟩
      by_contra less
      refine larger ⟨inside, ?_⟩
      rintro _ ⟨⟩
      omega

theorem Safe.step {g : Hand Key Addr Node} {s' : State Key Addr Node} (safe : Safe gs s)
    (sheltered : ∀ u chunk, Sheltered u chunk s'.history →
      Sheltered u chunk s.history ∧ s'.cache.epochs u = s.cache.epochs u)
    (guarded : ∀ chunk, Sheltered t chunk s'.history → g.guarded = true)
    (free : ∀ chunk ∈ s'.cache.freeList, chunk ∈ s.cache.freeList ∨ ∀ u, ¬ Sheltered u chunk s'.history)
    (linked : ∀ chunk ∈ s'.cache.linked, chunk ∈ s.cache.linked ∨ ∀ u, ¬ Sheltered u chunk s'.history)
    (adding : ∀ chunk, g.adding = some chunk → (gs t).adding = some chunk ∨ ∀ u, ¬ Sheltered u chunk s'.history)
    (retired : ∀ x ∈ s'.cache.retired, x ∈ s.cache.retired ∨
      ∀ u, Sheltered u x.offset s.history → s.cache.epochs u ≤ x.retireEpoch)
    (taken : ∀ x ∈ g.batch, x ∈ (gs t).batch ∨ ∀ u, Sheltered u x.offset s.history → s.cache.epochs u ≤ x.retireEpoch)
    (retiring : ∀ chunk e, g.retiring = some chunk → g.loaded = some e →
      ((gs t).retiring = some chunk ∧ (gs t).loaded = some e) ∨
        ∀ u, Sheltered u chunk s.history → s.cache.epochs u ≤ e)
    (scanned : ∀ x records least, x ∈ g.batch → g.scan = some (records, least) →
      (x ∈ (gs t).batch ∧ (gs t).scan = some (records, least)) ∨
        ∀ u, Sheltered u x.offset s.history → u ∈ records ∨ ∃ m ∈ least, m ≤ s.cache.epochs u) :
    Safe (Function.update gs t g) s' := by
  -- one thread acts, and no chunk becomes sheltered: everything that is new is harmless
  constructor
  · intro u chunk now
    by_cases own : u = t
    · subst own
      rw [Function.update_self]
      exact guarded chunk now
    · rw [Function.update_of_ne own]
      exact safe.guarded u chunk (sheltered u chunk now).1
  · intro u chunk now
    obtain ⟨notFree, notLinked, notAdding⟩ := safe.away u chunk (sheltered u chunk now).1
    refine ⟨fun listed => ?_, fun listed => ?_, fun v held => ?_⟩
    · exact (free chunk listed).elim notFree fun none => none u now
    · exact (linked chunk listed).elim notLinked fun none => none u now
    · by_cases own : v = t
      · subst own
        rw [Function.update_self] at held
        exact (adding chunk held).elim (notAdding v) fun none => none u now
      · rw [Function.update_of_ne own] at held
        exact notAdding v held
  · intro u x now listed
    obtain ⟨before, same⟩ := sheltered u x.offset now
    rw [same]
    exact (retired x listed).elim (safe.retired u x before) fun bound => bound u before
  · intro u v x now listed
    obtain ⟨before, same⟩ := sheltered u x.offset now
    rw [same]
    by_cases own : v = t
    · subst own
      rw [Function.update_self] at listed
      exact (taken x listed).elim (safe.taken u v x before) fun bound => bound u before
    · rw [Function.update_of_ne own] at listed
      exact safe.taken u v x before listed
  · intro u v chunk e now held stamp
    obtain ⟨before, same⟩ := sheltered u chunk now
    rw [same]
    by_cases own : v = t
    · subst own
      rw [Function.update_self] at held stamp
      exact (retiring chunk e held stamp).elim (fun old => safe.retiring u v chunk e before old.1 old.2)
        fun bound => bound u before
    · rw [Function.update_of_ne own] at held stamp
      exact safe.retiring u v chunk e before held stamp
  · intro u v x records least now listed scan
    obtain ⟨before, same⟩ := sheltered u x.offset now
    rw [same]
    by_cases own : v = t
    · subst own
      rw [Function.update_self] at listed scan
      exact (scanned x records least listed scan).elim
        (fun old => safe.scanned u v x records least before old.1 old.2) fun bound => bound u before
    · rw [Function.update_of_ne own] at listed scan
      exact safe.scanned u v x records least before listed scan

theorem Safe.erased {chunk : ℕ} {g : Hand Key Addr Node} {s' : State Key Addr Node} (safe : Safe gs s)
    (placed : Placed chunks gs s.cache) (later : Placed chunks (Function.update gs t g) s'.cache)
    (hands : ∀ u, gs u = hand u s.history) (linked : chunk ∈ s.cache.linked)
    (history : s'.history = .performed t (.erase chunk) true :: s.history) (retired : s'.cache.retired = s.cache.retired)
    (epochs : s'.cache.epochs = s.cache.epochs) (unlinked : s'.cache.linked = s.cache.linked.erase chunk)
    (free : s'.cache.freeList = s.cache.freeList) (own : g = { gs t with retiring := some chunk, loaded := none }) :
    Safe (Function.update gs t g) s' := by
  -- unlinking a chunk shelters it for every thread inside a guard
  have cases : ∀ u c, Sheltered u c s'.history → (c = chunk ∧ (gs u).guarded = true) ∨ Sheltered u c s.history := by
    intro u c now
    rw [history] at now
    rcases now with ⟨rfl, inside⟩ | before
    · exact .inl ⟨rfl, (congrArg Hand.guarded (hands u)).trans inside⟩
    · exact .inr before
  have here : chunk ∈ places gs s.cache .linked := linked
  have there : chunk ∈ places (Function.update gs t g) s'.cache (.retiring t) := by
    simp [places, own]
  have guarded : ∀ u, (Function.update gs t g u).guarded = (gs u).guarded :=
    update_same Hand.guarded (by rw [own])
  have batch : ∀ u, (Function.update gs t g u).batch = (gs u).batch := update_same Hand.batch (by rw [own])
  have adding : ∀ u, (Function.update gs t g u).adding = (gs u).adding := update_same Hand.adding (by rw [own])
  have scan : ∀ u, (Function.update gs t g u).scan = (gs u).scan := update_same Hand.scan (by rw [own])
  have batched : ∀ v x, x ∈ (gs v).batch → x.offset ≠ chunk := by
    rintro v x listed rfl
    cases placed.unique here (q := .batch v) (List.mem_map_of_mem listed)
  constructor
  · intro u c now
    rw [guarded]
    exact (cases u c now).elim And.right (safe.guarded u c)
  · intro u c now
    rcases cases u c now with ⟨rfl, inside⟩ | before
    · refine ⟨fun listed => ?_, fun listed => ?_, fun v held => ?_⟩
      · cases later.unique there (q := .free) listed
      · cases later.unique there (q := .linked) listed
      · cases later.unique there (q := .adding v) (by simp [places, held])
    · obtain ⟨notFree, notLinked, notAdding⟩ := safe.away u c before
      rw [free, unlinked]
      simp only [adding]
      exact ⟨notFree, fun listed => notLinked (List.mem_of_mem_erase listed), notAdding⟩
  · intro u x now listed
    rw [retired] at listed
    rw [epochs]
    rcases cases u x.offset now with ⟨same, inside⟩ | before
    · cases placed.unique here (q := .retired) (by rw [← same]; exact List.mem_map_of_mem listed)
    · exact safe.retired u x before listed
  · intro u v x now listed
    rw [batch] at listed
    rw [epochs]
    rcases cases u x.offset now with ⟨same, inside⟩ | before
    · exact absurd same (batched v x listed)
    · exact safe.taken u v x before listed
  · intro u v c e now held stamp
    rw [epochs]
    by_cases mine : v = t
    · subst mine
      rw [Function.update_self, own] at stamp
      cases stamp
    · rw [Function.update_of_ne mine] at held stamp
      rcases cases u c now with ⟨rfl, inside⟩ | before
      · cases placed.unique here (q := .retiring v) (by simp [places, held])
      · exact safe.retiring u v c e before held stamp
  · intro u v x records least now listed read
    rw [batch] at listed
    rw [scan] at read
    rw [epochs]
    rcases cases u x.offset now with ⟨same, inside⟩ | before
    · exact absurd same (batched v x listed)
    · exact safe.scanned u v x records least before listed read

theorem Safe.act {o : Act Key Addr Node} {r : o.Reply} {cache : Shared Key Addr Node} (safe : Safe gs s)
    (placed : Placed chunks gs s.cache) (epochs : Epochs gs s.cache) (hands : ∀ u, gs u = hand u s.history)
    (may : (gs t).may o) (effect : Effect t s.cache o r cache) :
    Safe (Function.update gs t ((gs t).after o r)) ⟨cache, .performed t o r :: s.history⟩ := by
  have later := placed.act may effect
  cases effect with
  | @erased chunk linked =>
    exact safe.erased placed later hands linked rfl rfl rfl rfl rfl rfl
  | @storeRecord epoch =>
    refine safe.step (fun u chunk now => ⟨now.2, ?_⟩) (fun chunk now => absurd rfl now.1) (fun _ => .inl)
      (fun _ => .inl) (fun _ => .inl) (fun _ => .inl) (fun _ => .inl) (fun _ _ held stamp => .inl ⟨held, stamp⟩)
      (fun _ _ _ listed scan => .inl ⟨listed, scan⟩)
    exact Function.update_of_ne (Ne.symm now.1) ..
  | pushed =>
    have outside : s.cache.epochs t = 0 := by
      by_contra inside
      rw [Hand.may, (epochs.guarded t).mpr inside] at may
      cases may
    refine safe.step (fun u chunk now => ⟨now, ?_⟩) (safe.guarded t) (fun _ => .inl)
      (fun _ => .inl) (fun _ => .inl) (fun _ => .inl) (fun _ => .inl) (fun _ _ held stamp => .inl ⟨held, stamp⟩)
      (fun _ _ _ listed scan => .inl ⟨listed, scan⟩)
    exact congrFun (Function.update_eq_self_iff.mpr outside.symm) u
  | loadEpoch =>
    refine safe.step (fun _ _ now => ⟨now, rfl⟩) (safe.guarded t) (fun _ => .inl) (fun _ => .inl) (fun _ => .inl)
      (fun _ => .inl) (fun _ => .inl) ?_ (fun _ _ _ listed scan => .inl ⟨listed, scan⟩)
    rintro chunk e held ⟨⟩
    exact .inr fun u _ => epochs.current u
  | loadHead =>
    refine safe.step (fun _ _ now => ⟨now, rfl⟩) (safe.guarded t) (fun _ => .inl) (fun _ => .inl) (fun _ => .inl)
      (fun _ => .inl) (fun _ => .inl) (fun _ _ held stamp => .inl ⟨held, stamp⟩) ?_
    rintro x records least listed ⟨⟩
    refine .inr fun u now => .inl (epochs.known u ?_)
    exact (epochs.guarded u).mp (safe.guarded u _ now)
  | @loadRecord w =>
    refine safe.step (fun _ _ now => ⟨now, rfl⟩) (safe.guarded t) (fun _ => .inl) (fun _ => .inl) (fun _ => .inl)
      (fun _ => .inl) (fun _ => .inl) (fun _ _ held stamp => .inl ⟨held, stamp⟩) ?_
    intro x records least listed scan
    obtain ⟨rest, least₀, before⟩ := may
    simp only [Hand.after, before, Option.map_some, List.tail_cons, Option.some.injEq, Prod.mk.injEq] at scan
    obtain ⟨rfl, rfl⟩ := scan
    right
    intro u now
    have inside := (epochs.guarded u).mp (safe.guarded u _ now)
    rcases safe.scanned u t x _ _ now listed before with left | ⟨m, is, low⟩
    · rcases List.mem_cons.mp left with rfl | remaining
      · exact .inr (lesser_self inside)
      · exact .inl remaining
    · obtain ⟨m', is', less⟩ := lesser_le is
      exact .inr ⟨m', is', less.trans low⟩
  | @insert chunk =>
    refine safe.step (fun _ _ now => ⟨now, rfl⟩) (safe.guarded t) (fun _ => .inl) ?_ (by rintro _ ⟨⟩)
      (fun _ => .inl) (fun _ => .inl) (fun _ _ held stamp => .inl ⟨held, stamp⟩)
      (fun _ _ _ listed scan => .inl ⟨listed, scan⟩)
    intro c listed
    rcases List.mem_cons.mp listed with rfl | before
    · exact .inr fun u now => (safe.away u c now).2.2 t may.1
    · exact .inl before
  | @allocated chunk listed =>
    refine safe.step (fun _ _ now => ⟨now, rfl⟩) (safe.guarded t) (fun _ left => .inl (List.mem_of_mem_erase left))
      (fun _ => .inl) ?_ (fun _ => .inl) (fun _ => .inl) (fun _ _ held stamp => .inl ⟨held, stamp⟩)
      (fun _ _ _ listed scan => .inl ⟨listed, scan⟩)
    rintro c ⟨⟩
    exact .inr fun u now => (safe.away u chunk now).1 listed
  | exhausted =>
    exact safe.step (fun _ _ now => ⟨now, rfl⟩) (safe.guarded t) (fun _ => .inl) (fun _ => .inl) (by rintro _ ⟨⟩)
      (fun _ => .inl) (fun _ => .inl) (fun _ _ held stamp => .inl ⟨held, stamp⟩)
      (fun _ _ _ listed scan => .inl ⟨listed, scan⟩)
  | @free x =>
    refine safe.step (fun _ _ now => ⟨now, rfl⟩) (safe.guarded t) ?_ (fun _ => .inl) (fun _ => .inl)
      (fun _ => .inl) (fun _ left => .inl (List.mem_of_mem_erase left)) (fun _ _ held stamp => .inl ⟨held, stamp⟩)
      (fun _ _ _ left scan => .inl ⟨List.mem_of_mem_erase left, scan⟩)
    intro c listed
    rcases List.mem_cons.mp listed with rfl | before
    · exact .inr (safe.unsheltered may)
    · exact .inl before
  | @retire x =>
    refine safe.step (fun _ _ now => ⟨now, rfl⟩) (safe.guarded t) (fun _ => .inl) (fun _ => .inl) (fun _ => .inl)
      ?_ (fun _ => .inl) (by rintro _ _ ⟨⟩) (fun _ _ _ listed scan => .inl ⟨listed, scan⟩)
    intro y listed
    rcases List.mem_cons.mp listed with rfl | before
    · exact .inr fun u now => safe.retiring u t _ _ now may.1 may.2
    · exact .inl before
  | @dequeued x listed =>
    refine safe.step (fun _ _ now => ⟨now, rfl⟩) (safe.guarded t) (fun _ => .inl) (fun _ => .inl) (fun _ => .inl)
      (fun _ left => .inl (List.mem_of_mem_erase left)) ?_ (fun _ _ held stamp => .inl ⟨held, stamp⟩)
      (by rintro _ _ _ _ ⟨⟩)
    intro y taken
    rcases List.mem_cons.mp taken with rfl | before
    · exact .inr fun u now => safe.retired u y now listed
    · exact .inl before
  | drained =>
    exact safe.step (fun _ _ now => ⟨now, rfl⟩) (safe.guarded t) (fun _ => .inl) (fun _ => .inl) (fun _ => .inl)
      (fun _ => .inl) (fun _ => .inl) (fun _ _ held stamp => .inl ⟨held, stamp⟩) (by rintro _ _ _ _ ⟨⟩)
  | @reenqueue x =>
    refine safe.step (fun _ _ now => ⟨now, rfl⟩) (safe.guarded t) (fun _ => .inl) (fun _ => .inl) (fun _ => .inl)
      ?_ (fun _ left => .inl (List.mem_of_mem_erase left)) (fun _ _ held stamp => .inl ⟨held, stamp⟩)
      (fun _ _ _ left scan => .inl ⟨List.mem_of_mem_erase left, scan⟩)
    intro y listed
    rcases List.mem_cons.mp listed with rfl | before
    · exact .inr fun u now => safe.taken u t y now may
    · exact .inl before
  | _ =>
    exact safe.step (fun _ _ now => ⟨now, rfl⟩) (safe.guarded t) (fun _ => .inl) (fun _ => .inl) (fun _ => .inl)
      (fun _ => .inl) (fun _ => .inl) (fun _ _ held stamp => .inl ⟨held, stamp⟩)
      (fun _ _ _ listed scan => .inl ⟨listed, scan⟩)

end

/-! ## Whole runs -/

structure Guarding {Key Addr Node : Type} (chunks : List ℕ) (gs : ℕ → Hand Key Addr Node)
    (s : State Key Addr Node) : Prop where
  hands : ∀ u, gs u = hand u s.history
  epochs : Epochs gs s.cache
  placed : Placed chunks gs s.cache
  safe : Safe gs s

section
variable {Key Addr Node : Type} {chunks : List ℕ} {gs : ℕ → Hand Key Addr Node} {s s' : State Key Addr Node} {t : ℕ}

theorem Guarding.reset (ok : Guarding chunks gs s) (free : (gs t).Free) (unguarded : (gs t).guarded = false)
    {call : Option (Call Key Addr Node)} {event : Event Key Addr Node}
    (hands : ∀ u, hand u (event :: s.history) = if t = u then { call := call } else hand u s.history)
    (sheltered : ∀ u chunk, Sheltered u chunk (event :: s.history) → Sheltered u chunk s.history) :
    Guarding chunks (Function.update gs t { call := call }) { s with history := event :: s.history } := by
  -- a thread with nothing in hand begins or ends a call
  constructor
  · intro u
    rw [hands, Function.update_apply]
    by_cases own : u = t
    · rw [if_pos own, if_pos own.symm]
    · rw [if_neg own, if_neg (Ne.symm own)]
      exact ok.hands u
  · exact ok.epochs.pledge unguarded.symm nofun nofun
  · refine ok.placed.keep ?_
    funext p
    cases p with
    | batch u | adding u | retiring u => by_cases own : u = t <;> simp [places, own, free.1, free.2.1, free.2.2]
    | free | linked | retired => simp [places]
  · refine ok.safe.step (fun u chunk now => ⟨sheltered u chunk now, rfl⟩) ?_ (fun _ => .inl) (fun _ => .inl) nofun
      (fun _ => .inl) nofun nofun nofun
    intro chunk now
    have inside := ok.safe.guarded t chunk (sheltered t chunk now)
    rw [unguarded] at inside
    cases inside

variable [LinearOrder Key]

theorem Guarding.act {o : Act Key Addr Node} {c : ℕ} {r : o.Reply} (ok : Guarding chunks gs s)
    (performed : State.exec t o c s = some (r, s')) (may : (gs t).may o) :
    Guarding chunks (Function.update gs t ((gs t).after o r)) s' := by
  obtain ⟨effect, history⟩ := State.effect performed
  obtain ⟨cache, _⟩ := s'
  simp only at effect history
  subst history
  refine ⟨?_, ok.epochs.act may effect, ok.placed.act may effect,
    ok.safe.act ok.placed ok.epochs ok.hands may effect⟩
  intro u
  by_cases own : u = t
  · subst own
    simp [hand, ok.hands u]
  · simp [hand, own, Ne.symm own, ok.hands u]

theorem preserves_guarding {fence : Node → Key × Key} {bound : ℕ} {admits : Call Key Addr Node → Prop}
    {assume : Condition (signature Key Addr Node) ℕ (State Key Addr Node)} :
    Preserves (rangeCache fence bound admits) (machine fence) (Guarding chunks) assume where
  invoke gs s t call g ok idle _ begins := by
    cases begins
    have nothing : (gs t).Free ∧ (gs t).guarded = false := by
      rw [idle]
      exact ⟨⟨rfl, rfl, rfl⟩, rfl⟩
    exact ok.reset nothing.1 nothing.2 (fun _ => rfl) (fun _ _ now => now)
  act gs s t o c r s' g ok performed _ permitted := by
    rw [permitted.2]
    exact ok.act performed permitted.1
  finish gs s t call outcome ok ends := ok.reset ends.1 ends.2.1 (fun _ => rfl) (fun _ _ now => now)
  env _ _ _ _ moved := moved.elim

omit [LinearOrder Key] in
theorem guarding_init {entrySize base maxEntries : ℕ} {entries : ℕ → Entry Key Addr Node} :
    Guarding (Allocation.getOffsetsFromChunk entrySize base (maxEntries * entrySize)) (fun _ => {})
      (State.init entrySize base maxEntries entries) := by
  refine ⟨fun _ => rfl, ?_, ?_, ?_⟩
  · exact ⟨fun _ => by simp [State.init], nofun, fun _ inside => absurd rfl inside, fun _ => Nat.zero_le _, nofun⟩
  · constructor
    · constructor
      · intro p
        cases p with
        | free => exact Allocation.getOffsetsFromChunk_nodup base maxEntries
        | linked | retired | batch u | adding u | retiring u => exact .nil
      · intro p q differ x inP y inQ
        cases p with
        | free =>
          cases q with
          | free => exact absurd rfl differ
          | linked | retired | batch u | adding u | retiring u => simp [places, State.init] at inQ
        | linked | retired | batch u | adding u | retiring u => simp [places, State.init] at inP
    · exact fun chunk slab => ⟨.free, slab⟩
  · exact ⟨nofun, nofun, nofun, nofun, nofun, nofun⟩

/-- Every chunk of the slab is in exactly one place, and a chunk that is about to be given back to the slab is
sheltered by no thread. -/
theorem reclamation_safe_inside_guards {fence : Node → Key × Key} {bound : ℕ} {admits : Call Key Addr Node → Prop}
    {entrySize base maxEntries : ℕ} {entries : ℕ → Entry Key Addr Node}
    {P : Pool (signature Key Addr Node) ℕ (Call Key Addr Node) (Outcome Addr Node) (State Key Addr Node)}
    (run : Reaches (rangeCache fence bound admits) anything (.start (.init entrySize base maxEntries entries)) P) :
    (∀ chunk ∈ Allocation.getOffsetsFromChunk entrySize base (maxEntries * entrySize),
      ∃ p, (places (fun t => hand t P.shared.history) P.shared.cache p).count chunk = 1 ∧
        ∀ q ≠ p, chunk ∉ places (fun t => hand t P.shared.history) P.shared.cache q) ∧
      ∀ t call x next done, P.threads t = some ⟨call, .perform (.free x) next, done⟩ →
        ∀ u, ¬ Sheltered u x.offset P.shared.history := by
  obtain ⟨gs, explains⟩ := (explains_start (M := machine fence) guarding_init).reaches
    implements_machine preserves_guarding run
  have ok := explains.holds
  have same : (fun t => hand t P.shared.history) = gs := funext fun t => (ok.hands t).symm
  constructor
  · intro chunk slab
    rw [same]
    obtain ⟨p, listed⟩ := ok.placed.all chunk slab
    refine ⟨p, List.count_eq_one_of_mem (ok.placed.apart.within p) listed, ?_⟩
    intro q differ there
    exact differ (ok.placed.unique there listed)
  · intro t call x next done running u
    have performed : State.exec t (.free x) 0 P.shared =
        some ((), ⟨{ P.shared.cache with freeList := x.offset :: P.shared.cache.freeList },
          .performed t (.free x) () :: P.shared.history⟩) := rfl
    obtain ⟨g, permitted, _⟩ := explains.permits (c := 0) running performed
    exact ok.safe.unsheltered permitted.1 u

end

/-- One chunk, one thread: what it adds and invalidates is retired, and its next but one call reclaims it. -/
def reclaiming : Pool (signature ℕ ℕ ℕ) ℕ (Call ℕ ℕ ℕ) (Outcome ℕ ℕ) (State ℕ ℕ ℕ) :=
  (Pool.start (.init 1 1 1 fun _ => ⟨0, 0, 0, 0⟩)).drive (rangeCache (fun n => (n, n + 5)) 1 fun _ => True)
    (fun _ _ _ => true) freely
    (List.flatten [Move.whole 0 (.add 0 5 7 0) 0 10, Move.whole 0 (.invalidate 1) 0 7, Move.whole 0 (.add 5 10 8 5) 0 31,
      Move.part 0 (.add 5 10 8 5) 0 8])

set_option maxRecDepth 8000 in
theorem reclamation_safe_inside_guards_reclaiming :
    (∃ call next done, reclaiming.threads 0 = some ⟨call, .perform (.free ⟨1, 1⟩) next, done⟩) ∧
      (∀ chunk ∈ [1], ∃ p,
        (places (fun t => hand t reclaiming.shared.history) reclaiming.shared.cache p).count chunk = 1 ∧
          ∀ q ≠ p, chunk ∉ places (fun t => hand t reclaiming.shared.history) reclaiming.shared.cache q) ∧
      ∀ u, ¬ Sheltered u 1 reclaiming.shared.history := by
  have run : Reaches (rangeCache (fun n => (n, n + 5)) 1 fun _ => True) anything
      (.start (.init 1 1 1 fun _ => ⟨0, 0, 0, 0⟩)) reclaiming :=
    reaches_drive (fun _ _ _ _ => trivial) (fun _ _ _ _ _ => trivial) _ _
  have safe := reclamation_safe_inside_guards run
  have freeing : ∃ call next done, reclaiming.threads 0 = some ⟨call, .perform (.free ⟨1, 1⟩) next, done⟩ :=
    ⟨_, _, _, by rfl⟩
  obtain ⟨call, next, done, running⟩ := freeing
  exact ⟨⟨call, next, done, running⟩, safe.1, safe.2 0 call ⟨1, 1⟩ next done running⟩

end Faunus.Cache
