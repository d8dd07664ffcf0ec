import Faunus.Cache.Guards

/-! Cache hits and the guard that is already closed.

`search` closes its guard before it returns the entry it found, so its caller copies
the item out of a chunk that nothing protects any more. The copy is an item that was
added with a range around the key in every run in which no entry is constructed in
a chunk that another thread is about to copy from.
-/

set_option autoImplicit false

namespace Faunus.Cache

open Interleaving

section
variable {Key Addr Node : Type}

def Act.writes : Act Key Addr Node → Option ℕ
  | .writeRange chunk _ _ => some chunk
  | .writeItem chunk _ _ => some chunk
  | _ => none

/-- The thread is about to copy from the chunk, outside of any guard. -/
def Exposed (t chunk : ℕ) (history : List (Event Key Addr Node)) : Prop :=
  (hand t history).found = some chunk ∧ (hand t history).guarded = false ∧ (hand t history).copying = true

/-- No entry is constructed in a chunk that some thread is about to copy from outside of a guard. -/
def unexposed : Condition (signature Key Addr Node) ℕ (State Key Addr Node) := fun _ o _ s =>
  ∀ chunk, Act.writes o = some chunk → ∀ u, ¬ Exposed u chunk s.history

theorem Added.later {history : List (Event Key Addr Node)} {e : Entry Key Addr Node} (added : Added history e)
    (event : Event Key Addr Node) : Added (event :: history) e := by
  obtain ⟨t, made⟩ := added
  exact ⟨t, List.mem_cons_of_mem _ made⟩

theorem Hand.after_call (g : Hand Key Addr Node) (o : Act Key Addr Node) (r : o.Reply) : (g.after o r).call = g.call := by
  cases o with
  | erase chunk => cases r <;> rfl
  | _ => rfl

variable {gs : ℕ → Hand Key Addr Node} {s : State Key Addr Node} {t : ℕ}

/-! ## What is stored -/

/-- The chunk holds as much of the entry as has been written. -/
structure Wrote (range : Option (Key × Key)) (item : Option (Addr × Node)) (written e : Entry Key Addr Node) : Prop where
  range : range.isSome = true → written.start = e.start ∧ written.stop = e.stop
  item : item.isSome = true → written.first = e.first ∧ written.second = e.second

structure Stored (gs : ℕ → Hand Key Addr Node) (s : State Key Addr Node) : Prop where
  invoked : ∀ u call, (gs u).call = some call → Event.invoked u call ∈ s.history
  linked : ∀ chunk ∈ s.cache.linked, Added s.history (s.cache.entries chunk)
  written : ∀ u chunk e, (gs u).adding = some chunk → (gs u).call = some (.add e.start e.stop e.first e.second) →
    Wrote (gs u).range (gs u).item (s.cache.entries chunk) e

theorem Stored.step {g : Hand Key Addr Node} {cache : Shared Key Addr Node} {event : Event Key Addr Node}
    (stored : Stored gs s) (call : g.call = (gs t).call)
    (linked : ∀ chunk ∈ cache.linked, Added s.history (cache.entries chunk))
    (others : ∀ u ≠ t, ∀ chunk, (gs u).adding = some chunk → cache.entries chunk = s.cache.entries chunk)
    (own : ∀ chunk e, g.adding = some chunk → (gs t).call = some (.add e.start e.stop e.first e.second) →
      Wrote g.range g.item (cache.entries chunk) e) :
    Stored (Function.update gs t g) ⟨cache, event :: s.history⟩ := by
  -- a step of one thread that links no chunk
  have calls : ∀ u, (Function.update gs t g u).call = (gs u).call := update_same Hand.call call
  constructor
  · intro u call made
    rw [calls] at made
    exact List.mem_cons_of_mem _ (stored.invoked u call made)
  · exact fun chunk listed => (linked chunk listed).later _
  · intro u chunk e held made
    rw [calls] at made
    by_cases mine : u = t
    · subst mine
      rw [Function.update_self] at held ⊢
      exact own chunk e held made
    · rw [Function.update_of_ne mine] at held ⊢
      show Wrote _ _ (cache.entries chunk) e
      rw [others u mine chunk held]
      exact stored.written u chunk e held made

theorem Stored.act {chunks : List ℕ} {o : Act Key Addr Node} {r : o.Reply} {cache : Shared Key Addr Node}
    (stored : Stored gs s) (placed : Placed chunks gs s.cache) (may : (gs t).may o) (effect : Effect t s.cache o r cache) :
    Stored (Function.update gs t ((gs t).after o r)) ⟨cache, .performed t o r :: s.history⟩ := by
  have same := (gs t).after_call o r
  -- Writing to the chunk in hand changes no linked entry and no chunk in another hand.
  have linkedApart : ∀ chunk, (gs t).adding = some chunk → ∀ c ∈ s.cache.linked, c ≠ chunk := by
    rintro chunk held c listed rfl
    cases placed.unique (p := .adding t) (q := .linked) (by simp [places, held]) listed
  have otherApart : ∀ chunk, (gs t).adding = some chunk → ∀ u ≠ t, ∀ c, (gs u).adding = some c → c ≠ chunk := by
    rintro chunk held u other c held' rfl
    have here : c ∈ places gs s.cache (.adding t) := by simp [places, held]
    have there : c ∈ places gs s.cache (.adding u) := by simp [places, held']
    cases placed.unique here there
    exact other rfl
  cases effect with
  | @insert chunk =>
    obtain ⟨held, range, item, start, stop, first, second, made⟩ := may
    refine stored.step same ?_ (fun _ _ _ _ => rfl) (by rintro _ _ ⟨⟩)
    intro c listed
    rcases List.mem_cons.mp listed with rfl | before
    · have wrote := stored.written t c ⟨start, stop, first, second⟩ held made
      have entry : s.cache.entries c = ⟨start, stop, first, second⟩ := by
        have range := wrote.range range
        have item := wrote.item item
        cases eq : s.cache.entries c with
        | mk a b d f =>
          rw [eq] at range item
          simp only at range item
          rw [range.1, range.2, item.1, item.2]
      exact ⟨t, entry ▸ stored.invoked t _ made⟩
    · exact stored.linked c before
  | @erased chunk listed =>
    exact stored.step same (fun c left => stored.linked c (List.mem_of_mem_erase left)) (fun _ _ _ _ => rfl)
      (stored.written t)
  | @writeRange chunk start stop =>
    obtain ⟨held, first, second, made⟩ := may
    refine stored.step same ?_ ?_ ?_
    · intro c listed
      simp only [Function.update_of_ne (linkedApart chunk held c listed)]
      exact stored.linked c listed
    · intro u other c held'
      exact Function.update_of_ne (otherApart chunk held u other c held') ..
    · intro c e held' made'
      obtain rfl : chunk = c := Option.some.inj (held.symm.trans held')
      have wrote := stored.written t chunk e held made'
      cases made.symm.trans made'
      simp only [Function.update_self]
      exact ⟨fun _ => ⟨rfl, rfl⟩, wrote.item⟩
  | @writeItem chunk first second =>
    obtain ⟨held, start, stop, made⟩ := may
    refine stored.step same ?_ ?_ ?_
    · intro c listed
      simp only [Function.update_of_ne (linkedApart chunk held c listed)]
      exact stored.linked c listed
    · intro u other c held'
      exact Function.update_of_ne (otherApart chunk held u other c held') ..
    · intro c e held' made'
      obtain rfl : chunk = c := Option.some.inj (held.symm.trans held')
      have wrote := stored.written t chunk e held made'
      cases made.symm.trans made'
      simp only [Function.update_self]
      exact ⟨wrote.range, fun _ => ⟨rfl, rfl⟩⟩
  | allocated listed =>
    exact stored.step same stored.linked (fun _ _ _ _ => rfl) fun _ _ _ _ => ⟨by rintro ⟨⟩, by rintro ⟨⟩⟩
  | exhausted => exact stored.step same stored.linked (fun _ _ _ _ => rfl) (by rintro _ _ ⟨⟩)
  | _ => exact stored.step same stored.linked (fun _ _ _ _ => rfl) (stored.written t)

/-! ## What is found -/

/-- What has been read so far agrees with the entry, and the last read is still to come. -/
structure Reads (g : Option Key × Option Key × Option Addr × Option Node) (e : Entry Key Addr Node) : Prop where
  start : ∀ x, g.1 = some x → x = e.start
  stop : ∀ x, g.2.1 = some x → x = e.stop
  first : g.2.2.1 = none
  second : ∀ x, g.2.2.2 = some x → x = e.second

def Hand.saw (g : Hand Key Addr Node) : Option Key × Option Key × Option Addr × Option Node :=
  (g.sawStart, g.sawStop, g.sawFirst, g.sawSecond)

def Hand.relies (g : Hand Key Addr Node) : Prop := g.guarded = true ∨ g.copying = true

structure Found (gs : ℕ → Hand Key Addr Node) (s : State Key Addr Node) : Prop where
  sheltered : ∀ u chunk, (gs u).found = some chunk → (gs u).guarded = true →
    chunk ∈ s.cache.linked ∨ Sheltered u chunk s.history
  valid : ∀ u chunk, (gs u).found = some chunk → (gs u).relies →
    Added s.history (s.cache.entries chunk) ∧ Reads (gs u).saw (s.cache.entries chunk)
  saw : ∀ u start stop first second, (gs u).saw = (some start, some stop, some first, some second) →
    Added s.history ⟨start, stop, first, second⟩

theorem Found.step {g : Hand Key Addr Node} {cache : Shared Key Addr Node} {event : Event Key Addr Node}
    (found : Found gs s)
    (sheltered : ∀ u ≠ t, ∀ chunk, (gs u).guarded = true → chunk ∈ s.cache.linked ∨ Sheltered u chunk s.history →
      chunk ∈ cache.linked ∨ Sheltered u chunk (event :: s.history))
    (same : ∀ u ≠ t, ∀ chunk, (gs u).found = some chunk → (gs u).relies → cache.entries chunk = s.cache.entries chunk)
    (own : ∀ chunk, g.found = some chunk → g.guarded = true →
      chunk ∈ cache.linked ∨ Sheltered t chunk (event :: s.history))
    (valid : ∀ chunk, g.found = some chunk → g.relies →
      Added s.history (cache.entries chunk) ∧ Reads g.saw (cache.entries chunk))
    (saw : ∀ start stop first second, g.saw = (some start, some stop, some first, some second) →
      Added s.history ⟨start, stop, first, second⟩) :
    Found (Function.update gs t g) ⟨cache, event :: s.history⟩ := by
  constructor
  · intro u chunk here inside
    by_cases mine : u = t
    · subst mine
      rw [Function.update_self] at here inside
      exact own chunk here inside
    · rw [Function.update_of_ne mine] at here inside
      exact sheltered u mine chunk inside (found.sheltered u chunk here inside)
  · intro u chunk here relies
    by_cases mine : u = t
    · subst mine
      rw [Function.update_self] at here relies ⊢
      obtain ⟨added, reads⟩ := valid chunk here relies
      exact ⟨added.later _, reads⟩
    · rw [Function.update_of_ne mine] at here relies ⊢
      obtain ⟨added, reads⟩ := found.valid u chunk here relies
      show Added (event :: s.history) (cache.entries chunk) ∧ Reads _ (cache.entries chunk)
      rw [same u mine chunk here relies]
      exact ⟨added.later _, reads⟩
  · intro u start stop first second read
    by_cases mine : u = t
    · subst mine
      rw [Function.update_self] at read
      exact (saw start stop first second read).later _
    · rw [Function.update_of_ne mine] at read
      exact (found.saw u start stop first second read).later _

theorem Found.keep {g : Hand Key Addr Node} {cache : Shared Key Addr Node} {event : Event Key Addr Node}
    (found : Found gs s) (call : g.call = (gs t).call) (guarded : g.guarded = (gs t).guarded)
    (here : g.found = (gs t).found) (saw : g.saw = (gs t).saw)
    (linked : s.cache.linked ⊆ cache.linked) (entries : cache.entries = s.cache.entries)
    (sheltered : ∀ u chunk, Sheltered u chunk s.history → Sheltered u chunk (event :: s.history)) :
    Found (Function.update gs t g) ⟨cache, event :: s.history⟩ := by
  -- a step that writes no entry and unlinks none, and of which the thread learns nothing
  have relies : g.relies ↔ (gs t).relies := by simp only [Hand.relies, Hand.copying, call, guarded]
  refine found.step ?_ (fun _ _ _ _ _ => by rw [entries]) ?_ ?_ ?_
  · intro u _ chunk _ before
    exact before.imp (fun listed => linked listed) (sheltered u chunk)
  · intro chunk is inside
    rw [here] at is
    rw [guarded] at inside
    exact (found.sheltered t chunk is inside).imp (fun listed => linked listed) (sheltered t chunk)
  · intro chunk is needed
    rw [here] at is
    rw [saw, entries]
    exact found.valid t chunk is (relies.mp needed)
  · rw [saw]
    exact found.saw t

theorem Found.untouched {chunks : List ℕ} {o : Act Key Addr Node} {r : o.Reply} {chunk : ℕ} (found : Found gs s)
    (ok : Guarding chunks gs s) (safely : unexposed t o r s) (writes : o.writes = some chunk)
    (held : (gs t).adding = some chunk) (u c : ℕ) (here : (gs u).found = some c) (relies : (gs u).relies) :
    c ≠ chunk := by
  rintro rfl
  cases inside : (gs u).guarded with
  | true =>
    rcases found.sheltered u c here inside with linked | sheltered
    · have adding : c ∈ places gs s.cache (.adding t) := by simp [places, held]
      cases ok.placed.unique adding (q := .linked) linked
    · exact (ok.safe.away u c sheltered).2.2 t held
  | false =>
    refine safely c writes u ?_
    rw [ok.hands u] at here inside relies
    refine ⟨here, inside, relies.resolve_left ?_⟩
    rw [inside]
    rintro ⟨⟩

theorem Found.act {chunks : List ℕ} {o : Act Key Addr Node} {r : o.Reply} {cache : Shared Key Addr Node}
    (found : Found gs s) (stored : Stored gs s) (ok : Guarding chunks gs s) (safely : unexposed t o r s)
    (may : (gs t).may o) (effect : Effect t s.cache o r cache) :
    Found (Function.update gs t ((gs t).after o r)) ⟨cache, .performed t o r :: s.history⟩ := by
  cases effect with
  | @storeRecord epoch =>
    refine found.step ?_ (fun _ _ _ _ _ => rfl) ?_ ?_ (found.saw t)
    · intro u other chunk _ before
      exact before.imp id fun sheltered => ⟨Ne.symm other, sheltered⟩
    · intro chunk here inside
      simp only [Hand.after, decide_eq_true_eq] at here inside
      rw [if_neg (fun closing => inside closing.1)] at here
      cases here
    · intro chunk here _
      simp only [Hand.after] at here
      split at here
      · rename_i closing
        exact found.valid t chunk here (.inr closing.2)
      · cases here
  | @find key result listed =>
    refine found.step (fun _ _ _ _ before => before) (fun _ _ _ _ _ => rfl) ?_ ?_ (by rintro _ _ _ _ ⟨⟩)
    · exact fun chunk here _ => .inl (listed chunk here)
    · intro chunk here _
      exact ⟨stored.linked chunk (listed chunk here), by rintro _ ⟨⟩, by rintro _ ⟨⟩, rfl, by rintro _ ⟨⟩⟩
  | insert => exact found.keep rfl rfl rfl rfl (List.subset_cons_self ..) rfl fun _ _ now => now
  | @erased erasedChunk linked =>
    have shelter : ∀ u chunk, (gs u).guarded = true → chunk ∈ s.cache.linked ∨ Sheltered u chunk s.history →
        chunk ∈ s.cache.linked.erase erasedChunk ∨
          Sheltered u chunk (.performed t (.erase erasedChunk) true :: s.history) := by
      intro u chunk inside before
      by_cases same : chunk = erasedChunk
      · subst same
        refine .inr (.inl ⟨rfl, ?_⟩)
        rw [← ok.hands u]
        exact inside
      · exact before.imp (fun listed => (List.mem_erase_of_ne same).mpr listed) .inr
    refine found.step (fun u _ chunk => shelter u chunk) (fun _ _ _ _ _ => rfl) ?_ (found.valid t) (found.saw t)
    intro chunk here inside
    exact shelter t chunk inside (found.sheltered t chunk here inside)
  | @readStart chunk =>
    refine found.step (fun _ _ _ _ before => before) (fun _ _ _ _ _ => rfl) (found.sheltered t) ?_ ?_
    · intro c here relies
      obtain ⟨added, reads⟩ := found.valid t c here relies
      cases may.1.symm.trans here
      refine ⟨added, ?_, reads.stop, reads.first, reads.second⟩
      rintro _ ⟨⟩
      rfl
    · intro start stop first second read
      cases may.2.symm.trans (congrArg (·.2.2.1) read)
  | @readStop chunk =>
    refine found.step (fun _ _ _ _ before => before) (fun _ _ _ _ _ => rfl) (found.sheltered t) ?_ ?_
    · intro c here relies
      obtain ⟨added, reads⟩ := found.valid t c here relies
      cases may.1.symm.trans here
      refine ⟨added, reads.start, ?_, reads.first, reads.second⟩
      rintro _ ⟨⟩
      rfl
    · intro start stop first second read
      cases may.2.symm.trans (congrArg (·.2.2.1) read)
  | @readSecond chunk =>
    obtain ⟨added, reads⟩ := found.valid t chunk may.1 (.inr may.2)
    refine found.step (fun _ _ _ _ before => before) (fun _ _ _ _ _ => rfl) (found.sheltered t) ?_ ?_
    · intro c here relies
      cases may.1.symm.trans here
      refine ⟨added, reads.start, reads.stop, reads.first, ?_⟩
      rintro _ ⟨⟩
      rfl
    · intro start stop first second read
      cases reads.first.symm.trans (congrArg (·.2.2.1) read)
  | @readFirst chunk =>
    obtain ⟨added, reads⟩ := found.valid t chunk may.1 (.inr may.2)
    refine found.step (fun _ _ _ _ before => before) (fun _ _ _ _ _ => rfl) (by rintro _ ⟨⟩) (by rintro _ ⟨⟩) ?_
    intro start stop first second read
    simp only [Hand.saw, Hand.after, Prod.mk.injEq, Option.some.injEq] at read
    obtain ⟨first', second', rfl, third'⟩ := read
    rw [reads.start start first', reads.stop stop second', reads.second second third']
    exact added
  | @writeRange chunk start stop =>
    have untouched := found.untouched ok safely rfl may.1
    refine found.step (fun _ _ _ _ before => before) ?_ (found.sheltered t) ?_ (found.saw t)
    · exact fun u _ c here relies => Function.update_of_ne (untouched u c here relies) ..
    · intro c here relies
      simp only [Function.update_of_ne (untouched t c here relies)]
      exact found.valid t c here relies
  | @writeItem chunk first second =>
    have untouched := found.untouched ok safely rfl may.1
    refine found.step (fun _ _ _ _ before => before) ?_ (found.sheltered t) ?_ (found.saw t)
    · exact fun u _ c here relies => Function.update_of_ne (untouched u c here relies) ..
    · intro c here relies
      simp only [Function.update_of_ne (untouched t c here relies)]
      exact found.valid t c here relies
  | _ => exact found.keep rfl rfl rfl rfl (List.Subset.refl _) rfl fun _ _ now => now

end

/-! ## Whole runs -/

section
variable {Key Addr Node : Type} [LinearOrder Key]

structure Hitting (fence : Node → Key × Key) (chunks : List ℕ) (gs : ℕ → Hand Key Addr Node)
    (s : State Key Addr Node) : Prop where
  guarding : Guarding chunks gs s
  fenced : ∀ u call, Event.invoked u call ∈ s.history → call.fenced fence = true
  stored : Stored gs s
  found : Found gs s

variable {fence : Node → Key × Key} {chunks : List ℕ} {gs : ℕ → Hand Key Addr Node} {s : State Key Addr Node} {t : ℕ}

omit [LinearOrder Key] in
theorem stored_begin {call : Option (Call Key Addr Node)} {event : Event Key Addr Node} (stored : Stored gs s)
    (made : ∀ c, call = some c → event = .invoked t c) :
    Stored (Function.update gs t { call := call }) { s with history := event :: s.history } := by
  constructor
  · intro u c is
    by_cases mine : u = t
    · subst mine
      rw [Function.update_self] at is
      rw [made c is]
      exact List.mem_cons_self ..
    · rw [Function.update_of_ne mine] at is
      exact List.mem_cons_of_mem _ (stored.invoked u c is)
  · exact fun chunk listed => (stored.linked chunk listed).later _
  · intro u chunk e held is
    by_cases mine : u = t
    · subst mine
      rw [Function.update_self] at held
      cases held
    · rw [Function.update_of_ne mine] at held is ⊢
      exact stored.written u chunk e held is

omit [LinearOrder Key] in
theorem found_begin {call : Option (Call Key Addr Node)} {event : Event Key Addr Node} (found : Found gs s)
    (sheltered : ∀ u chunk, Sheltered u chunk s.history → Sheltered u chunk (event :: s.history)) :
    Found (Function.update gs t { call := call }) { s with history := event :: s.history } :=
  found.step (fun u _ chunk _ before => before.imp id (sheltered u chunk)) (fun _ _ _ _ _ => rfl) nofun nofun nofun

theorem preserves_hitting {bound : ℕ} :
    Preserves (rangeCache fence bound fun call : Call Key Addr Node => call.fenced fence = true) (machine fence)
      (Hitting fence chunks) unexposed := by
  have below : Preserves (rangeCache fence bound fun call : Call Key Addr Node => call.fenced fence = true)
      (machine fence) (Guarding chunks) unexposed := preserves_guarding
  constructor
  · intro gs s t call g ok idle admitted begins
    refine ⟨below.invoke gs s t call g ok.guarding idle admitted begins, ?_, ?_, ?_⟩
    · intro u made listed
      rcases List.mem_cons.mp listed with eq | before
      · cases eq
        exact admitted
      · exact ok.fenced u made before
    · cases begins
      exact stored_begin ok.stored (by rintro c ⟨⟩; rfl)
    · cases begins
      exact found_begin ok.found fun _ _ now => now
  · intro gs s t o c r s' g ok performed safely permitted
    refine ⟨below.act gs s t o c r s' g ok.guarding performed safely permitted, ?_, ?_, ?_⟩
    all_goals
      obtain ⟨effect, history⟩ := State.effect performed
      obtain ⟨cache, _⟩ := s'
      simp only at effect history
      subst history
    · intro u made listed
      rcases List.mem_cons.mp listed with eq | before
      · cases eq
      · exact ok.fenced u made before
    · rw [permitted.2]
      exact ok.stored.act ok.guarding.placed permitted.1 effect
    · rw [permitted.2]
      exact ok.found.act ok.stored ok.guarding safely permitted.1 effect
  · intro gs s t call outcome ok ends
    refine ⟨below.finish gs s t call outcome ok.guarding ends, ?_, stored_begin ok.stored nofun,
      found_begin ok.found fun _ _ now => now⟩
    intro u made listed
    rcases List.mem_cons.mp listed with eq | before
    · cases eq
    · exact ok.fenced u made before
  · exact fun _ _ _ _ moved => moved.elim

theorem hitting_init {entrySize base maxEntries : ℕ} {entries : ℕ → Entry Key Addr Node} :
    Hitting fence (Allocation.getOffsetsFromChunk entrySize base (maxEntries * entrySize)) (fun _ => {})
      (State.init entrySize base maxEntries entries) :=
  ⟨guarding_init, nofun, ⟨nofun, nofun, nofun⟩, nofun, nofun, nofun⟩

/-- What `find_node` copies out of the cache has been added with a range around its key, in every run in which no
entry is constructed in a chunk that a thread is about to copy from. -/
theorem cache_hit_was_added {bound entrySize base maxEntries : ℕ} {entries : ℕ → Entry Key Addr Node}
    {P : Pool (signature Key Addr Node) ℕ (Call Key Addr Node) (Outcome Addr Node) (State Key Addr Node)}
    (run : Reaches (rangeCache fence bound fun call => call.fenced fence = true) unexposed
      (.start (.init entrySize base maxEntries entries)) P)
    {t : ℕ} {key : Key} {outcome : Outcome Addr Node} {done : List (Sigma (signature Key Addr Node).Reply)}
    (copied : P.threads t = some ⟨.findNode key, .value outcome, done⟩) :
    outcome ≠ .assertFailed ∧ ∀ first second, outcome = .hit first second →
      ∃ start stop, Added P.shared.history ⟨start, stop, first, second⟩ ∧ start ≤ key ∧ key < stop := by
  obtain ⟨gs, explains⟩ := (explains_start (M := machine fence) hitting_init).reaches
    implements_machine preserves_hitting run
  have ok := explains.holds
  have ends := (explains.ends copied).2.2
  have added : ∀ first second, (gs t).Saw key first second →
      ∃ start stop, Added P.shared.history ⟨start, stop, first, second⟩ ∧ start ≤ key ∧ key < stop := by
    rintro first second ⟨⟨start, stop, sawStart, sawStop, inside⟩, sawFirst, sawSecond⟩
    refine ⟨start, stop, ok.found.saw t start stop first second ?_, inside⟩
    simp only [Hand.saw, sawStart, sawStop, sawFirst, sawSecond]
  constructor
  · rintro rfl
    obtain ⟨first, second, saw, outside⟩ := ends
    obtain ⟨start, stop, ⟨u, made⟩, inside⟩ := added first second saw
    have range : fence second = (start, stop) := of_decide_eq_true (ok.fenced u _ made)
    rw [range] at outside
    exact outside inside
  · rintro first second rfl
    exact added first second ends

end

def Event.finds {Key Addr Node : Type} : Event Key Addr Node → Bool
  | .performed _ (.find _) _ => true
  | _ => false

theorem found_none {Key Addr Node : Type} {history : List (Event Key Addr Node)}
    (unseen : history.all (fun e => !e.finds) = true) (t : ℕ) : (hand t history).found = none := by
  induction history with
  | nil => rfl
  | cons event before ih =>
    simp only [List.all_cons, Bool.and_eq_true] at unseen
    have old := ih unseen.2
    cases event with
    | invoked u call =>
      simp only [hand]
      split
      · rfl
      · exact old
    | returned u =>
      simp only [hand]
      split
      · rfl
      · exact old
    | performed u o r =>
      simp only [hand]
      split
      · cases o with
        | find key => simp [Event.finds] at unseen
        | storeRecord e => simp [Hand.after, old]
        | erase chunk => cases r <;> exact old
        | readFirst chunk => rfl
        | _ => exact old
      · exact old

/-- Entries are only written before the first lookup. -/
def writesFirst : Test (signature ℕ ℕ ℕ) ℕ (State ℕ ℕ ℕ) := fun _ o _ s =>
  (Act.writes o).isNone || s.history.all fun e => !e.finds

theorem unexposed_writesFirst (t : ℕ) (o : Act ℕ ℕ ℕ) (r : o.Reply) (s : State ℕ ℕ ℕ)
    (first : writesFirst t o r s = true) : unexposed t o r s := by
  intro chunk writes u exposed
  have unseen : s.history.all (fun e => !e.finds) = true := by
    simpa [writesFirst, writes] using first
  have missing := exposed.1
  rw [found_none unseen u] at missing
  cases missing

/-- A small cache whose nodes begin where their number says and cover five keys. -/
def tinyCache : System (signature ℕ ℕ ℕ) ℕ ℕ (Call ℕ ℕ ℕ) (Outcome ℕ ℕ) (State ℕ ℕ ℕ) :=
  rangeCache (fun n => (n, n + 5)) 1 fun call => call.fenced (fun n => (n, n + 5)) = true

/-- One thread adds an entry; another finds it and copies it. -/
def copying : Pool (signature ℕ ℕ ℕ) ℕ (Call ℕ ℕ ℕ) (Outcome ℕ ℕ) (State ℕ ℕ ℕ) :=
  (Pool.start (.init 1 1 1 fun _ => ⟨0, 0, 0, 0⟩)).drive tinyCache
    (fun _ _ call => call.fenced fun n => (n, n + 5)) writesFirst
    (List.flatten [Move.whole 0 (.add 0 5 7 0) 0 10, Move.part 1 (.findNode 3) 0 12])

set_option maxRecDepth 8000 in
theorem cache_hit_was_added_copying : ∃ done,
    copying.threads 1 = some ⟨.findNode 3, .value (.hit 7 0), done⟩ ∧
      ∃ start stop, Added copying.shared.history ⟨start, stop, 7, 0⟩ ∧ start ≤ 3 ∧ 3 < stop := by
  have run : Reaches tinyCache unexposed (.start (.init 1 1 1 fun _ => ⟨0, 0, 0, 0⟩)) copying :=
    reaches_drive (fun _ _ _ ok => ok) unexposed_writesFirst _ _
  have copied : ∃ done, copying.threads 1 = some ⟨.findNode 3, .value (.hit 7 0), done⟩ := ⟨_, by rfl⟩
  obtain ⟨done, running⟩ := copied
  exact ⟨done, running, (cache_hit_was_added run running).2 7 0 rfl⟩

/-- Between the search of one thread and its copy, another thread invalidates the entry, reclaims its chunk and
constructs the entry of another node in it. -/
def recycled : Pool (signature ℕ ℕ ℕ) ℕ (Call ℕ ℕ ℕ) (Outcome ℕ ℕ) (State ℕ ℕ ℕ) :=
  (Pool.start (.init 1 1 1 fun _ => ⟨0, 0, 0, 0⟩)).drive tinyCache
    (fun _ _ call => call.fenced fun n => (n, n + 5)) freely
    (List.flatten [Move.whole 0 (.add 0 5 7 0) 0 10, Move.part 1 (.findNode 3) 0 10, Move.whole 0 (.invalidate 1) 0 7,
      Move.whole 0 (.add 5 10 8 5) 0 34, Move.part 0 (.add 5 10 8 5) 0 10,
      [.act 0 1, .act 0 0, .act 0 0, .act 0 0, .act 1 0, .act 1 0]])

set_option maxRecDepth 8000 in
theorem cache_hit_recycled : ∃ P : Pool (signature ℕ ℕ ℕ) ℕ (Call ℕ ℕ ℕ) (Outcome ℕ ℕ) (State ℕ ℕ ℕ),
    Reaches tinyCache anything (.start (.init 1 1 1 fun _ => ⟨0, 0, 0, 0⟩)) P ∧
      ∃ done, P.threads 1 = some ⟨.findNode 3, .value .assertFailed, done⟩ :=
  ⟨recycled, reaches_drive (fun _ _ _ ok => ok) (fun _ _ _ _ _ => trivial) _ _, _, by rfl⟩

end Faunus.Cache
