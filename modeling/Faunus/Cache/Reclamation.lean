import Faunus.Cache.RangeCache
import Faunus.Interleaving.Invariant

/-! What a thread has in hand while it uses the range cache.

The events of a thread determine what it has taken and not yet handed on: the chunk
it adds or retires, the batch it reclaims, how far its scan of the registry got, and
the entry it found. Every function of the cache is shown to act only as its hand allows.
-/

set_option autoImplicit false

namespace Faunus.Cache

open Interleaving

structure Hand (Key Addr Node : Type) where
  call : Option (Call Key Addr Node) := none
  registered : Bool := false
  /-- The epoch loaded last, since the thread last unlinked an entry. -/
  loaded : Option ℕ := none
  guarded : Bool := false
  adding : Option ℕ := none
  /-- What has been written to the chunk that is being added. -/
  range : Option (Key × Key) := none
  item : Option (Addr × Node) := none
  retiring : Option ℕ := none
  batch : List RetiredItem := []
  /-- The records still to be read, and the smallest epoch so far. -/
  scan : Option (List ℕ × Option ℕ) := none
  found : Option ℕ := none
  /-- What has been read from the entry that was found. -/
  sawStart : Option Key := none
  sawStop : Option Key := none
  sawFirst : Option Addr := none
  sawSecond : Option Node := none

section
variable {Key Addr Node : Type}

def Call.copies : Call Key Addr Node → Bool
  | .findNode _ => true
  | _ => false

/-- Only `find_node` goes on to use what it found after the guard is closed. -/
def Hand.copying (g : Hand Key Addr Node) : Bool := g.call.any Call.copies

def lesser (least : Option ℕ) (e : ℕ) : Option ℕ := if e ≠ 0 ∧ ∀ m ∈ least, e < m then some e else least

def Hand.after (g : Hand Key Addr Node) : (o : Act Key Addr Node) → o.Reply → Hand Key Addr Node
  | .threadRecord, known => { g with registered := g.registered || known }
  | .loadHead, records => { g with scan := some (records, none) }
  | .casHead _, failed => { g with registered := g.registered || failed.isNone }
  | .loadEpoch, e => { g with loaded := some e }
  | .storeRecord e, _ =>
    { g with guarded := decide (e ≠ 0), found := if e = 0 ∧ g.copying = true then g.found else none }
  | .loadRecord _, e => { g with scan := g.scan.map fun (records, least) => (records.tail, lesser least e) }
  | .find _, found =>
    { g with found := found, sawStart := none, sawStop := none, sawFirst := none, sawSecond := none }
  | .insert _, _ => { g with adding := none, range := none, item := none }
  | .erase chunk, true => { g with retiring := some chunk, loaded := none }
  | .readStart _, start => { g with sawStart := some start }
  | .readStop _, stop => { g with sawStop := some stop }
  | .readSecond _, node => { g with sawSecond := some node }
  | .readFirst _, address => { g with sawFirst := some address, found := none }
  | .writeRange _ start stop, _ => { g with range := some (start, stop) }
  | .writeItem _ first second, _ => { g with item := some (first, second) }
  | .allocateNogrowth, chunk => { g with adding := chunk, range := none, item := none }
  | .free x, _ => { g with batch := g.batch.erase x }
  | .retire _, _ => { g with retiring := none }
  | .tryDequeue, x => { g with batch := x.toList ++ g.batch, scan := none }
  | .reenqueue x, _ => { g with batch := g.batch.erase x }
  | _, _ => g

def hand (t : ℕ) : List (Event Key Addr Node) → Hand Key Addr Node
  | [] => {}
  | .invoked u call :: before => if u = t then { call := some call } else hand t before
  | .performed u o r :: before => if u = t then (hand t before).after o r else hand t before
  | .returned u :: before => if u = t then {} else hand t before

/-- The thread is inside a guard whose epoch it published before the chunk was unlinked. -/
def Sheltered (t chunk : ℕ) : List (Event Key Addr Node) → Prop
  | [] => False
  | .performed u (.storeRecord _) _ :: before => u ≠ t ∧ Sheltered t chunk before
  | .performed _ (.erase other) true :: before =>
    (other = chunk ∧ (hand t before).guarded = true) ∨ Sheltered t chunk before
  | _ :: before => Sheltered t chunk before

/-- The call that adds the entry has been made. -/
def Added (history : List (Event Key Addr Node)) (e : Entry Key Addr Node) : Prop :=
  ∃ t, Event.invoked t (.add e.start e.stop e.first e.second) ∈ history

/-- What a thread may do with what it has in hand. -/
def Hand.may (g : Hand Key Addr Node) : Act Key Addr Node → Prop
  | .casHead _ => g.guarded = false
  | .storeRecord e => e = 0 ∨ (g.guarded = false ∧ g.registered = true ∧ g.loaded = some e)
  | .loadRecord t => ∃ rest least, g.scan = some (t :: rest, least)
  | .insert chunk => g.adding = some chunk ∧ g.range.isSome ∧ g.item.isSome ∧
    ∃ start stop first second, g.call = some (.add start stop first second)
  | .erase _ => g.retiring = none
  | .readStart chunk => g.found = some chunk ∧ g.sawFirst = none
  | .readStop chunk => g.found = some chunk ∧ g.sawFirst = none
  | .readFirst chunk => g.found = some chunk ∧ g.copying = true
  | .readSecond chunk => g.found = some chunk ∧ g.copying = true
  | .writeRange chunk start stop =>
    g.adding = some chunk ∧ ∃ first second, g.call = some (.add start stop first second)
  | .writeItem chunk first second =>
    g.adding = some chunk ∧ ∃ start stop, g.call = some (.add start stop first second)
  | .allocateNogrowth => g.adding = none
  | .free x => x ∈ g.batch ∧ ∃ least, g.scan = some ([], least) ∧ ∀ m ∈ least, x.retireEpoch < m
  | .retire x => g.retiring = some x.offset ∧ g.loaded = some x.retireEpoch
  | .reenqueue x => x ∈ g.batch
  | _ => True

def Hand.duties (g : Hand Key Addr Node) : Option (Call Key Addr Node) × Option ℕ × Option ℕ :=
  (g.call, g.adding, g.retiring)

/-- What guards, reclamation and eviction leave as it is. -/
def Hand.stock (g : Hand Key Addr Node) := (g.duties, g.batch)

def Hand.Free (g : Hand Key Addr Node) : Prop := g.adding = none ∧ g.retiring = none ∧ g.batch = []

section
variable {g g' : Hand Key Addr Node} (same : g'.stock = g.stock)
include same

theorem Hand.call_of_stock : g'.call = g.call := congrArg (fun x => x.1.1) same

theorem Hand.retiring_of_stock : g'.retiring = g.retiring := congrArg (fun x => x.1.2.2) same

omit same in
theorem Hand.Free.of_stock (free : g.Free) (same : g'.stock = g.stock) : g'.Free := by
  have adding : g'.adding = g.adding := congrArg (fun x => x.1.2.1) same
  have batch : g'.batch = g.batch := congrArg Prod.snd same
  exact ⟨adding.trans free.1, (Hand.retiring_of_stock same).trans free.2.1, batch.trans free.2.2⟩

end

variable [LinearOrder Key]

/-- The thread has read all of an entry whose range contains the key. -/
structure Hand.Saw (g : Hand Key Addr Node) (key : Key) (first : Addr) (second : Node) : Prop where
  range : ∃ start stop, g.sawStart = some start ∧ g.sawStop = some stop ∧ start ≤ key ∧ key < stop
  first : g.sawFirst = some first
  second : g.sawSecond = some second

def Hand.ends (fence : Node → Key × Key) (g : Hand Key Addr Node) : Call Key Addr Node → Outcome Addr Node → Prop
  | .findNode key, .hit first second => g.Saw key first second
  | .findNode key, .assertFailed =>
    ∃ first second, g.Saw key first second ∧ ¬ ((fence second).1 ≤ key ∧ key < (fence second).2)
  | _, .assertFailed => False
  | _, .hit _ _ => False
  | _, _ => True

def machine (fence : Node → Key × Key) :
    Machine (signature Key Addr Node) ℕ (Call Key Addr Node) (Outcome Addr Node) (State Key Addr Node)
      (Hand Key Addr Node) where
  idle := {}
  begins _ call _ _ g := g = { call := some call }
  permits t gs _ o r _ g := (gs t).may o ∧ g = (gs t).after o r
  ends _ call outcome g := g.Free ∧ g.guarded = false ∧ g.ends fence call outcome

section Conformance
variable {fence : Node → Key × Key} {inv : (ℕ → Hand Key Addr Node) → State Key Addr Node → Prop} {t : ℕ} {A : Type}

abbrev Follows (fence : Node → Key × Key) (inv : (ℕ → Hand Key Addr Node) → State Key Addr Node → Prop) (t : ℕ)
    (post : A → Hand Key Addr Node → Prop) (p : Code Key Addr Node A) (g : Hand Key Addr Node) : Prop :=
  Interleaving.Follows (machine fence).permits State.exec inv t post p g

theorem follows_act {o : Act Key Addr Node} {next : o.Reply → Code Key Addr Node A} {post : A → Hand Key Addr Node → Prop}
    {g : Hand Key Addr Node} (may : g.may o) (each : ∀ r, Follows fence inv t post (next r) (g.after o r)) :
    Follows fence inv t post (Program.perform (I := signature Key Addr Node) o next) g := by
  intro gs s _ own c r s' _
  refine ⟨g.after o r, ?_, each r⟩
  rw [← own] at may ⊢
  exact ⟨may, rfl⟩

theorem follows_pushRecord {bound : ℕ} {old : List ℕ} {g : Hand Key Addr Node} (unguarded : g.guarded = false) :
    Follows fence inv t (fun _ g' => g'.stock = g.stock ∧ g'.guarded = g.guarded ∧ g'.registered = true)
      (pushRecord bound old) g := by
  induction bound generalizing old g with
  | zero => trivial
  | succ bound ih =>
    refine follows_act unguarded fun failed => ?_
    cases failed with
    | none => exact ⟨rfl, rfl, by simp [Hand.after]⟩
    | some head => exact follows_mono (ih (g := g.after (.casHead old) (some head)) unguarded) fun _ _ kept => kept

theorem follows_openGuard {bound : ℕ} {g : Hand Key Addr Node} (unguarded : g.guarded = false) :
    Follows fence inv t (fun _ g' => g'.stock = g.stock) (openGuard bound) g := by
  have publish : ∀ g' : Hand Key Addr Node, g'.stock = g.stock → g'.guarded = false → g'.registered = true →
      Follows fence inv t (fun _ g' => g'.stock = g.stock)
        (do let e ← perform .loadEpoch; perform (.storeRecord e)) g' := by
    intro g' kept unguarded registered
    refine follows_act trivial fun e => ?_
    refine follows_act (.inr ⟨unguarded, registered, rfl⟩) fun _ => ?_
    exact kept
  refine follows_act trivial fun known => ?_
  cases known with
  | true =>
    refine publish _ rfl unguarded ?_
    simp [Hand.after]
  | false =>
    refine follows_act trivial fun old => ?_
    show Follows fence inv t _ (pushRecord bound old >>= _) _
    refine follows_bind (follows_mono (follows_pushRecord unguarded) ?_)
    rintro _ g' ⟨kept, guarded, registered⟩
    exact publish g' kept (guarded.trans unguarded) registered

theorem follows_takeBatch {budget : ℕ} {batch : List RetiredItem} {g : Hand Key Addr Node} (same : g.batch.Perm batch) :
    Follows fence inv t (fun batch g' => g'.batch.Perm batch ∧ g'.duties = g.duties) (takeBatch budget batch) g := by
  induction budget generalizing batch g with
  | zero => exact ⟨same, rfl⟩
  | succ budget ih =>
    refine follows_act trivial fun x => ?_
    cases x with
    | none => exact ⟨same, rfl⟩
    | some x =>
      have more : (g.after .tryDequeue (some x)).batch.Perm (batch ++ [x]) :=
        (same.cons x).trans (List.perm_append_singleton x batch).symm
      exact follows_mono (ih more) fun _ _ kept => kept

theorem follows_scanRecords {records : List ℕ} {least : Option ℕ} {g : Hand Key Addr Node}
    (scan : g.scan = some (records, least)) :
    Follows fence inv t (fun least g' => g'.stock = g.stock ∧ g'.scan = some ([], least))
      (scanRecords records least) g := by
  induction records generalizing least g with
  | nil => exact ⟨rfl, scan⟩
  | cons u rest ih =>
    refine follows_act ⟨rest, least, scan⟩ fun e => ?_
    have later : (g.after (.loadRecord u) e).scan = some (rest, lesser least e) := by simp [Hand.after, scan]
    exact follows_mono (ih later) fun _ _ kept => kept

theorem follows_scanMinEpoch {g : Hand Key Addr Node} :
    Follows fence inv t (fun minEpoch g' => g'.stock = g.stock ∧
      ∃ least, g'.scan = some ([], least) ∧ ∀ m ∈ least, m = minEpoch) scanMinEpoch g := by
  refine follows_act trivial fun records => ?_
  show Follows fence inv t _ (scanRecords records none >>= _) _
  refine follows_bind (follows_mono (follows_scanRecords rfl) ?_)
  rintro least g' ⟨kept, scan⟩
  cases least with
  | some e => exact ⟨kept, some e, scan, by simp⟩
  | none => exact follows_act trivial fun e => ⟨kept, none, scan, by simp⟩

theorem follows_sweep {minEpoch : ℕ} {items kept : List RetiredItem} {g : Hand Key Addr Node}
    (batch : g.batch.Perm (items ++ kept)) (scan : ∃ least, g.scan = some ([], least) ∧ ∀ m ∈ least, m = minEpoch) :
    Follows fence inv t (fun kept g' => g'.batch.Perm kept ∧ g'.duties = g.duties) (sweep minEpoch items kept) g := by
  induction items generalizing kept g with
  | nil => exact ⟨batch, rfl⟩
  | cons r rest ih =>
    simp only [sweep]
    split
    · rename_i old
      obtain ⟨least, done, small⟩ := scan
      have member : r ∈ g.batch := batch.symm.subset (by simp)
      refine follows_act ⟨member, least, done, fun m is => small m is ▸ old⟩ fun _ => ?_
      have fewer : (g.after (.free r) ()).batch.Perm (rest ++ kept) := by simpa [Hand.after] using batch.erase r
      exact follows_mono (ih fewer ⟨least, done, small⟩) fun _ _ kept => kept
    · refine ih (batch.trans ?_) scan
      have moved : (r :: (rest ++ kept)).Perm (rest ++ kept ++ [r]) := (List.perm_append_singleton r _).symm
      simpa using moved

theorem follows_reenqueueAll {items : List RetiredItem} {g : Hand Key Addr Node} (batch : g.batch.Perm items) :
    Follows fence inv t (fun _ g' => g'.batch = [] ∧ g'.duties = g.duties) (reenqueueAll items) g := by
  induction items generalizing g with
  | nil => exact ⟨List.perm_nil.mp batch, rfl⟩
  | cons r rest ih =>
    refine follows_act (o := .reenqueue r) (batch.symm.subset (by simp)) fun _ => ?_
    have fewer : (g.after (.reenqueue r) ()).batch.Perm rest := by simpa [Hand.after] using batch.erase r
    exact follows_mono (ih fewer) fun _ _ kept => kept

theorem follows_tryReclaimBudgeted {budget : ℕ} {g : Hand Key Addr Node} (empty : g.batch = []) :
    Follows fence inv t (fun _ g' => g'.stock = g.stock) (tryReclaimBudgeted budget) g := by
  refine follows_bind (follows_mono (follows_takeBatch (.of_eq empty)) ?_)
  rintro batch g₁ ⟨same, duties₁⟩
  split
  · rename_i nothing
    rw [List.isEmpty_iff.mp nothing] at same
    exact Prod.ext duties₁ (same.eq_nil.trans empty.symm)
  · refine follows_bind (follows_mono follows_scanMinEpoch ?_)
    rintro minEpoch g₂ ⟨kept₂, scan⟩
    have same₂ : g₂.batch = g₁.batch := congrArg Prod.snd kept₂
    have perm : g₂.batch.Perm (batch ++ []) := by
      rw [same₂, List.append_nil]
      exact same
    refine follows_bind (follows_mono (follows_sweep perm scan) ?_)
    rintro kept g₃ ⟨left, duties₃⟩
    refine follows_bind (follows_mono (follows_reenqueueAll left) ?_)
    rintro _ g₄ ⟨empty₄, duties₄⟩
    have duties₂ : g₂.duties = g₁.duties := congrArg Prod.fst kept₂
    have all : g₄.stock = g.stock :=
      Prod.ext (duties₄.trans (duties₃.trans (duties₂.trans duties₁))) (empty₄.trans empty.symm)
    by_cases nothing : kept.isEmpty
    · simp only [nothing]
      exact all
    · simp only [nothing]
      exact follows_act trivial fun _ => all

theorem follows_eraseAndRetire {chunk : ℕ} {g : Hand Key Addr Node} (idle : g.retiring = none) :
    Follows fence inv t (fun _ g' => g'.stock = g.stock) (eraseAndRetire chunk) g := by
  refine follows_act idle fun erased => ?_
  cases erased with
  | false => exact rfl
  | true =>
    refine follows_act trivial fun e => ?_
    refine follows_act ⟨rfl, rfl⟩ fun _ => ?_
    show ((g.call, g.adding, none), g.batch) = ((g.call, g.adding, g.retiring), g.batch)
    rw [idle]

theorem follows_evictPowerOfTwo {g : Hand Key Addr Node} (idle : g.retiring = none) :
    Follows fence inv t (fun _ g' => g'.stock = g.stock) evictPowerOfTwo g := by
  refine follows_act trivial fun (count : ℕ) => ?_
  show Follows fence inv t _ (if _ then Program.value () else _) _
  split
  · exact rfl
  · refine follows_act trivial fun v1 => ?_
    cases v1 with
    | none => exact rfl
    | some v1 =>
      refine follows_act trivial fun v2 => ?_
      cases v2 with
      | none => exact rfl
      | some v2 =>
        refine follows_act trivial fun a1 => ?_
        refine follows_act trivial fun a2 => ?_
        exact follows_eraseAndRetire idle

theorem follows_allocEntry {start stop : Key} {first : Addr} {second : Node} {g : Hand Key Addr Node}
    (call : g.call = some (.add start stop first second)) (idle : g.adding = none) :
    Follows fence inv t (fun e g' => g'.call = g.call ∧ g'.adding = e ∧ g'.retiring = g.retiring ∧
      g'.batch = g.batch ∧ (e.isSome → g'.range.isSome ∧ g'.item.isSome)) (allocEntry start stop first second) g := by
  refine follows_act idle fun e => ?_
  cases e with
  | none => exact ⟨rfl, rfl, rfl, rfl, nofun⟩
  | some e =>
    refine follows_act ⟨rfl, first, second, call⟩ fun _ => ?_
    refine follows_act ⟨rfl, start, stop, call⟩ fun _ => ?_
    exact ⟨rfl, rfl, rfl, rfl, fun _ => ⟨rfl, rfl⟩⟩

theorem follows_addAttempts {attempts : ℕ} {start stop : Key} {first : Addr} {second : Node} {g : Hand Key Addr Node}
    (call : g.call = some (.add start stop first second)) (free : g.Free) :
    Follows fence inv t (fun _ g' => g'.stock = g.stock) (addAttempts start stop first second attempts) g := by
  induction attempts generalizing g with
  | zero => exact rfl
  | succ attempts ih =>
    refine follows_bind (follows_mono (follows_allocEntry call free.1) ?_)
    rintro e g₁ ⟨call₁, adding₁, retiring₁, batch₁, written⟩
    cases e with
    | some e =>
      obtain ⟨range, item⟩ := written rfl
      refine follows_act ⟨adding₁, range, item, start, stop, first, second, call₁.trans call⟩ fun _ => ?_
      show ((g₁.call, none, g₁.retiring), g₁.batch) = ((g.call, g.adding, g.retiring), g.batch)
      rw [call₁, retiring₁, batch₁, free.1]
    | none =>
      have same₁ : g₁.stock = g.stock := by
        show ((g₁.call, g₁.adding, g₁.retiring), g₁.batch) = ((g.call, g.adding, g.retiring), g.batch)
        rw [call₁, adding₁, retiring₁, batch₁, free.1]
      refine follows_bind (follows_mono (follows_tryReclaimBudgeted (batch₁.trans free.2.2)) ?_)
      intro _ g₂ same₂
      have stock₂ := same₂.trans same₁
      refine follows_bind (follows_mono (follows_evictPowerOfTwo ?_) ?_)
      · exact (Hand.retiring_of_stock stock₂).trans free.2.1
      · intro _ g₃ same₃
        have stock₃ := same₃.trans stock₂
        refine follows_mono (ih ((Hand.call_of_stock stock₃).trans call) (free.of_stock stock₃)) ?_
        intro _ g₄ same₄
        exact same₄.trans stock₃

theorem follows_closeGuard {g : Hand Key Addr Node} : Follows fence inv t
    (fun _ g' => g'.stock = g.stock ∧ g'.guarded = false) closeGuard g :=
  follows_act (.inl rfl) fun _ => ⟨rfl, rfl⟩

theorem follows_search {bound : ℕ} {key : Key} {g : Hand Key Addr Node} (unguarded : g.guarded = false) :
    Follows fence inv t (fun e g' => g'.stock = g.stock ∧ g'.guarded = false ∧ ∀ c, e = some c →
        (g.copying = true → g'.found = some c) ∧
        ∃ start stop, g'.sawStart = some start ∧ g'.sawStop = some stop ∧ start ≤ key ∧ key < stop)
      (search bound key) g := by
  refine follows_bind (follows_mono (follows_openGuard unguarded) ?_)
  intro _ g₁ stock
  refine follows_act trivial fun e => ?_
  cases e with
  | none => exact follows_act (.inl rfl) fun _ => ⟨stock, rfl, nofun⟩
  | some e =>
    refine follows_act ⟨rfl, rfl⟩ fun (start : Key) => ?_
    refine follows_act ⟨rfl, rfl⟩ fun (stop : Key) => ?_
    show Follows fence inv t _ (if start ≤ key ∧ key < stop then _ else _) _
    split
    · rename_i inside
      refine follows_act trivial fun _ => ?_
      refine follows_act (.inl rfl) fun _ => ?_
      refine ⟨stock, rfl, ?_⟩
      rintro c ⟨⟩
      refine ⟨fun copying => ?_, start, stop, rfl, rfl, inside⟩
      have same : g₁.copying = true := (congrArg (Option.any Call.copies) (Hand.call_of_stock stock)).trans copying
      exact if_pos ⟨rfl, same⟩
    · exact follows_act (.inl rfl) fun _ => ⟨stock, rfl, nofun⟩

theorem follows_findNode {bound : ℕ} {key : Key} {g : Hand Key Addr Node} (call : g.call = some (.findNode key))
    (unguarded : g.guarded = false) :
    Follows fence inv t (fun outcome g' => g'.stock = g.stock ∧ g'.guarded = false ∧ g'.ends fence (.findNode key) outcome)
      (findNode fence bound key) g := by
  refine follows_bind (follows_mono (follows_search unguarded) ?_)
  rintro e g₁ ⟨stock, closed, hit⟩
  cases e with
  | none => exact ⟨stock, closed, trivial⟩
  | some e =>
    obtain ⟨found, start, stop, sawStart, sawStop, inside⟩ := hit e rfl
    have copying : g.copying = true := by
      rw [Hand.copying, call]
      rfl
    have still : g₁.copying = true := (congrArg (Option.any Call.copies) (Hand.call_of_stock stock)).trans copying
    refine follows_act ⟨found copying, still⟩ fun node => ?_
    refine follows_act ⟨found copying, still⟩ fun address => ?_
    show Follows fence inv t _ (if (fence node).1 ≤ key ∧ key < (fence node).2 then _ else _) _
    have saw : Hand.Saw ((g₁.after (.readSecond e) node).after (.readFirst e) address) key address node :=
      ⟨⟨start, stop, sawStart, sawStop, inside⟩, rfl, rfl⟩
    split
    · exact ⟨stock, closed, saw⟩
    · rename_i outside
      exact ⟨stock, closed, address, node, saw, outside⟩

theorem follows_body {bound : ℕ} (call : Call Key Addr Node) :
    Follows fence inv t (fun outcome g' => g'.Free ∧ g'.guarded = false ∧ g'.ends fence call outcome)
      (call.body fence bound) { call := some call } := by
  have nothing : Hand.Free ({ call := some call } : Hand Key Addr Node) := ⟨rfl, rfl, rfl⟩
  cases call with
  | search key =>
    refine follows_bind (follows_mono (follows_search rfl) ?_)
    rintro e g ⟨stock, closed, _⟩
    exact ⟨nothing.of_stock stock, closed, trivial⟩
  | findNode key =>
    refine follows_mono (follows_findNode rfl rfl) ?_
    rintro outcome g ⟨stock, closed, ends⟩
    exact ⟨nothing.of_stock stock, closed, ends⟩
  | add start stop first second =>
    refine follows_bind (follows_bind (follows_mono (follows_openGuard rfl) ?_))
    intro _ g₁ stock₁
    refine follows_bind (follows_mono
      (follows_addAttempts (Hand.call_of_stock stock₁) (nothing.of_stock stock₁)) ?_)
    intro _ g₂ stock₂
    refine follows_mono follows_closeGuard ?_
    rintro _ g₃ ⟨stock₃, closed⟩
    exact ⟨nothing.of_stock (stock₃.trans (stock₂.trans stock₁)), closed, trivial⟩
  | invalidate e =>
    refine follows_bind (follows_bind (follows_mono (follows_openGuard rfl) ?_))
    intro _ g₁ stock₁
    refine follows_bind (follows_mono (follows_eraseAndRetire (Hand.retiring_of_stock stock₁)) ?_)
    intro _ g₂ stock₂
    refine follows_mono follows_closeGuard ?_
    rintro _ g₃ ⟨stock₃, closed⟩
    exact ⟨nothing.of_stock (stock₃.trans (stock₂.trans stock₁)), closed, trivial⟩

theorem implements_machine {bound : ℕ} {admits : Call Key Addr Node → Prop} :
    Implements (rangeCache fence bound admits) (machine fence) inv := by
  intro gs s t call _ _ _
  exact ⟨_, rfl, follows_body call⟩

end Conformance

end

end Faunus.Cache
