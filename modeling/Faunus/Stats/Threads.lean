import Faunus.Rdma.Verbs
import Faunus.Stats.Histograms
import Faunus.Stats.Latency

/-! The statistics of a worker thread.

A tracker collects what an operation of the index does and records it, with the
operation itself, when the operation ends. The worker then records the operation once
more through its recorder, in the same statistics.
-/

set_option autoImplicit false

namespace Faunus.Stats

open Rdma (Verb RDMAOp)

inductive OperationKind where
  | insert
  | read
  | update
  | delete
  deriving DecidableEq

inductive RDMAOpType where
  | read
  | write
  | cas
  | faa
  deriving DecidableEq

def opType : Verb → RDMAOpType
  | .read .. => .read
  | .write .. => .write
  | .cas .. => .cas
  | .faa .. => .faa

structure CacheStats where
  hits : ℕ
  misses : ℕ

structure OperationEntry where
  successes : ℕ
  failures : ℕ
  latencySamples : HistogramLatencySampler
  rttCountsPerOp : DiscreteHistogram
  rdmaOpCountsPerOp : RDMAOpType → DiscreteHistogram
  bytesReadPerOp : LogarithmicByteHistogram
  bytesWrittenPerOp : LogarithmicByteHistogram
  cacheStats : CacheStats
  retryCountsPerOp : DiscreteHistogram
  localLockAcquisitions : ℕ
  localLockHandovers : ℕ

namespace OperationEntry

/-- The entry after `reset`. -/
def empty : OperationEntry where
  successes := 0
  failures := 0
  latencySamples := .empty
  rttCountsPerOp := .empty
  rdmaOpCountsPerOp := fun _ => .empty
  bytesReadPerOp := .empty
  bytesWrittenPerOp := .empty
  cacheStats := ⟨0, 0⟩
  retryCountsPerOp := .empty
  localLockAcquisitions := 0
  localLockHandovers := 0

noncomputable def recordOperation (latency : ℝ) (success : Bool) (e : OperationEntry) : OperationEntry :=
  if success then { e with successes := e.successes + 1, latencySamples := e.latencySamples.addSample latency }
  else { e with failures := e.failures + 1 }

def recordRttCount (rttCount : BitVec 32) (e : OperationEntry) : OperationEntry :=
  { e with rttCountsPerOp := e.rttCountsPerOp.record rttCount }

def recordRdmaOperation (type : RDMAOpType) (count : BitVec 32) (e : OperationEntry) : OperationEntry :=
  { e with rdmaOpCountsPerOp := Function.update e.rdmaOpCountsPerOp type ((e.rdmaOpCountsPerOp type).record count) }

def recordBytesRead (bytes : BitVec 64) (e : OperationEntry) : OperationEntry :=
  { e with bytesReadPerOp := e.bytesReadPerOp.record bytes }

def recordBytesWritten (bytes : BitVec 64) (e : OperationEntry) : OperationEntry :=
  { e with bytesWrittenPerOp := e.bytesWrittenPerOp.record bytes }

def recordCacheHit (e : OperationEntry) : OperationEntry :=
  { e with cacheStats := { e.cacheStats with hits := e.cacheStats.hits + 1 } }

def recordCacheMiss (e : OperationEntry) : OperationEntry :=
  { e with cacheStats := { e.cacheStats with misses := e.cacheStats.misses + 1 } }

def recordRetryCount (retryCount : BitVec 32) (e : OperationEntry) : OperationEntry :=
  { e with retryCountsPerOp := e.retryCountsPerOp.record retryCount }

def recordLocalLockAcquisition (wasHandover : Bool) (e : OperationEntry) : OperationEntry :=
  { e with
    localLockAcquisitions := e.localLockAcquisitions + 1
    localLockHandovers := if wasHandover then e.localLockHandovers + 1 else e.localLockHandovers }

end OperationEntry

abbrev ThreadStats : Type := OperationKind → OperationEntry

def ThreadStats.reset : ThreadStats := fun _ => .empty

def ThreadStats.onEntry (stats : ThreadStats) (kind : OperationKind) (record : OperationEntry → OperationEntry) : ThreadStats :=
  Function.update stats kind (record (stats kind))

structure ThreadStatsTracker where
  stats : ThreadStats
  currentOp : OperationKind
  trackingActive : Bool
  rttCount : BitVec 32
  rdmaOpCounts : RDMAOpType → BitVec 32
  bytesRead : BitVec 64
  bytesWritten : BitVec 64
  retryCount : BitVec 32

namespace ThreadStatsTracker

def beginOperation (t : ThreadStatsTracker) (kind : OperationKind) : ThreadStatsTracker where
  stats := t.stats
  currentOp := kind
  trackingActive := true
  rttCount := 0
  rdmaOpCounts := fun _ => 0
  bytesRead := 0
  bytesWritten := 0
  retryCount := 0

/-- The loop of `end_operation` over the types of verbs. -/
def recordRdmaCounts (counts : RDMAOpType → BitVec 32) (kind : OperationKind) (stats : ThreadStats) : ThreadStats :=
  [RDMAOpType.read, .write, .cas, .faa].foldl
    (fun stats type => if 0 < counts type then stats.onEntry kind (.recordRdmaOperation type (counts type)) else stats) stats

noncomputable def endOperation (t : ThreadStatsTracker) (latency : ℝ) (success : Bool) : ThreadStatsTracker :=
  if !t.trackingActive then t
  else
    let stats := t.stats.onEntry t.currentOp (.recordOperation latency success)
    let stats := stats.onEntry t.currentOp (.recordRttCount t.rttCount)
    let stats := recordRdmaCounts t.rdmaOpCounts t.currentOp stats
    let stats := stats.onEntry t.currentOp (.recordBytesRead t.bytesRead)
    let stats := stats.onEntry t.currentOp (.recordBytesWritten t.bytesWritten)
    let stats := stats.onEntry t.currentOp (.recordRetryCount t.retryCount)
    { t with stats := stats, trackingActive := false }

def countVerb (t : ThreadStatsTracker) (op : RDMAOp) : ThreadStatsTracker :=
  let t := { t with rdmaOpCounts := Function.update t.rdmaOpCounts (opType op.verb) (t.rdmaOpCounts (opType op.verb) + 1) }
  match op.verb with
  | .read _ bytes => { t with bytesRead := t.bytesRead + bytes }
  | .write _ bytes => { t with bytesWritten := t.bytesWritten + bytes }
  | _ => t

/-- What the index reports to the tracker while it works. -/
inductive Note where
  | rdmaOp (op : RDMAOp)
  | rdmaOps (ops : List RDMAOp)
  | cacheHit
  | cacheMiss
  | retry
  | localLockAcquisition (wasHandover : Bool)

def note (t : ThreadStatsTracker) (event : Note) : ThreadStatsTracker :=
  if !t.trackingActive then t
  else
    match event with
    | .rdmaOp op => { t with rttCount := t.rttCount + 1 }.countVerb op
    | .rdmaOps ops => ops.foldl countVerb { t with rttCount := t.rttCount + 1 }
    | .cacheHit => { t with stats := t.stats.onEntry t.currentOp .recordCacheHit }
    | .cacheMiss => { t with stats := t.stats.onEntry t.currentOp .recordCacheMiss }
    | .retry => { t with retryCount := t.retryCount + 1 }
    | .localLockAcquisition wasHandover => { t with stats := t.stats.onEntry t.currentOp (.recordLocalLockAcquisition wasHandover) }

end ThreadStatsTracker

/-- `OperationRecorder::record_result`, on the statistics the tracker refers to. -/
noncomputable def recordResult (t : ThreadStatsTracker) (kind : OperationKind) (latency : ℝ) (success : Bool) : ThreadStatsTracker :=
  { t with stats := t.stats.onEntry kind (.recordOperation latency success) }

/-- `OperationRecorder::reset`. -/
def resetStats (t : ThreadStatsTracker) : ThreadStatsTracker := { t with stats := .reset }

/-- `perform_put` and `perform_get` with what the index did in it. -/
structure ClientCall where
  put : Bool
  notes : List ThreadStatsTracker.Note
  latency : ℝ
  ok : Bool

def ClientCall.kind (call : ClientCall) : OperationKind := if call.put then .insert else .read

noncomputable def perform (t : ThreadStatsTracker) (call : ClientCall) : ThreadStatsTracker :=
  let t := t.beginOperation call.kind
  let t := call.notes.foldl ThreadStatsTracker.note t
  let t := t.endOperation call.latency call.ok
  recordResult t call.kind call.latency call.ok

/-! ## What a call adds -/

/-- The counters that count operations. -/
structure Tally where
  successes : ℕ
  failures : ℕ
  latencies : ℕ
  rtts : ℕ

def OperationEntry.tally (e : OperationEntry) :
    Tally := ⟨e.successes, e.failures, e.latencySamples.totalSamples, e.rttCountsPerOp.totalSamples⟩

/-- The records of an operation with a number of rounds of `record_operation`. -/
def Tally.add (tally : Tally) (rounds rtts : ℕ) (success : Bool) : Tally where
  successes := tally.successes + if success then rounds else 0
  failures := tally.failures + if success then 0 else rounds
  latencies := tally.latencies + if success then rounds else 0
  rtts := tally.rtts + rtts

theorem tally_recordOperation (latency : ℝ) (success : Bool) (e : OperationEntry) :
    (e.recordOperation latency success).tally = e.tally.add 1 0 success := by
  cases success with
  | false => rfl
  | true =>
    simp only [OperationEntry.recordOperation, OperationEntry.tally, Tally.add, if_true,
      HistogramLatencySampler.totalSamples_addSample]
    rfl

def Quiet (record : OperationEntry → OperationEntry) : Prop := ∀ e, (record e).tally = e.tally

theorem tally_onEntry_self (stats : ThreadStats) (kind : OperationKind) (record : OperationEntry → OperationEntry) :
    (stats.onEntry kind record kind).tally = (record (stats kind)).tally := by
  rw [ThreadStats.onEntry, Function.update_self]

theorem tally_onEntry_other (stats : ThreadStats) {kind other : OperationKind} (record : OperationEntry → OperationEntry)
    (apart : other ≠ kind) :
    (stats.onEntry kind record other).tally = (stats other).tally := by
  rw [ThreadStats.onEntry, Function.update_of_ne apart]

theorem Quiet.tally_onEntry {record : OperationEntry → OperationEntry} (quiet : Quiet record) (stats : ThreadStats)
    (kind other : OperationKind) :
    (stats.onEntry kind record other).tally = (stats other).tally := by
  by_cases same : other = kind
  · rw [same, tally_onEntry_self, quiet]
  · exact tally_onEntry_other stats record same

theorem tally_recordRdmaCounts (counts : RDMAOpType → BitVec 32) (kind : OperationKind) (stats : ThreadStats)
    (other : OperationKind) :
    (ThreadStatsTracker.recordRdmaCounts counts kind stats other).tally = (stats other).tally := by
  unfold ThreadStatsTracker.recordRdmaCounts
  induction [RDMAOpType.read, .write, .cas, .faa] generalizing stats with
  | nil => rfl
  | cons type rest ih =>
    rw [List.foldl_cons, ih]
    split_ifs
    · have quiet : Quiet (.recordRdmaOperation type (counts type)) := fun _ => rfl
      exact quiet.tally_onEntry stats kind other
    · rfl

namespace ThreadStatsTracker

/-- The tracker goes on with the same operation and has counted no further one. -/
structure Tracks (t t' : ThreadStatsTracker) : Prop where
  currentOp : t'.currentOp = t.currentOp
  trackingActive : t'.trackingActive = t.trackingActive
  tally : ∀ kind, (t'.stats kind).tally = (t.stats kind).tally

theorem Tracks.refl (t : ThreadStatsTracker) : Tracks t t := ⟨rfl, rfl, fun _ => rfl⟩

theorem Tracks.trans {t t' t'' : ThreadStatsTracker} (first : Tracks t t') (second : Tracks t' t'') : Tracks t t'' where
  currentOp := second.currentOp.trans first.currentOp
  trackingActive := second.trackingActive.trans first.trackingActive
  tally kind := (second.tally kind).trans (first.tally kind)

theorem tracks_foldl {Event : Type} {step : ThreadStatsTracker → Event → ThreadStatsTracker}
    (tracks : ∀ t event, Tracks t (step t event))
    (events : List Event) (t : ThreadStatsTracker) : Tracks t (events.foldl step t) := by
  induction events generalizing t with
  | nil => exact .refl t
  | cons event rest ih => exact (tracks t event).trans (ih (step t event))

theorem tracks_countVerb (t : ThreadStatsTracker) (op : RDMAOp) : Tracks t (t.countVerb op) := by
  unfold countVerb
  split
  · exact ⟨rfl, rfl, fun _ => rfl⟩
  · exact ⟨rfl, rfl, fun _ => rfl⟩
  · exact ⟨rfl, rfl, fun _ => rfl⟩

theorem tracks_record (t : ThreadStatsTracker) {record : OperationEntry → OperationEntry} (quiet : Quiet record) :
    Tracks t { t with stats := t.stats.onEntry t.currentOp record } :=
  ⟨rfl, rfl, quiet.tally_onEntry t.stats t.currentOp⟩

theorem tracks_note (t : ThreadStatsTracker) (event : Note) : Tracks t (t.note event) := by
  have counted : Tracks t { t with rttCount := t.rttCount + 1 } := ⟨rfl, rfl, fun _ => rfl⟩
  unfold note
  split_ifs with idle
  · exact .refl t
  · cases event with
    | rdmaOp op => exact counted.trans (tracks_countVerb _ op)
    | rdmaOps ops => exact counted.trans (tracks_foldl tracks_countVerb ops _)
    | cacheHit =>
      have quiet : Quiet .recordCacheHit := fun _ => rfl
      exact tracks_record t quiet
    | cacheMiss =>
      have quiet : Quiet .recordCacheMiss := fun _ => rfl
      exact tracks_record t quiet
    | retry => exact ⟨rfl, rfl, fun _ => rfl⟩
    | localLockAcquisition wasHandover =>
      have quiet : Quiet (.recordLocalLockAcquisition wasHandover) := fun _ => rfl
      exact tracks_record t quiet

theorem tally_endOperation {t : ThreadStatsTracker} (active : t.trackingActive = true) (latency : ℝ) (success : Bool)
    (kind : OperationKind) :
    ((t.endOperation latency success).stats kind).tally =
      if kind = t.currentOp then (t.stats kind).tally.add 1 1 success else (t.stats kind).tally := by
  rw [endOperation, active]
  simp only [Bool.not_true, Bool.false_eq_true, if_false]
  have bytesRead : Quiet (.recordBytesRead t.bytesRead) := fun _ => rfl
  have bytesWritten : Quiet (.recordBytesWritten t.bytesWritten) := fun _ => rfl
  have retries : Quiet (.recordRetryCount t.retryCount) := fun _ => rfl
  rw [retries.tally_onEntry, bytesWritten.tally_onEntry, bytesRead.tally_onEntry, tally_recordRdmaCounts]
  split_ifs with same
  · have counted := tally_recordOperation latency success (t.stats t.currentOp)
    rw [same, tally_onEntry_self]
    simp only [ThreadStats.onEntry, Function.update_self, OperationEntry.recordRttCount, DiscreteHistogram.record]
    simp only [OperationEntry.tally, Tally.add, Tally.mk.injEq] at counted ⊢
    omega
  · rw [tally_onEntry_other _ _ same, tally_onEntry_other _ _ same]

end ThreadStatsTracker

theorem tally_perform (t : ThreadStatsTracker) (call : ClientCall) (kind : OperationKind) :
    ((perform t call).stats kind).tally = if kind = call.kind then (t.stats kind).tally.add 2 1 call.ok else
    (t.stats kind).tally := by
  -- a call is counted twice, its round trips once
  have tracks := ThreadStatsTracker.tracks_foldl ThreadStatsTracker.tracks_note call.notes (t.beginOperation call.kind)
  have current : (call.notes.foldl ThreadStatsTracker.note (t.beginOperation call.kind)).currentOp = call.kind := tracks.currentOp
  have before : ((call.notes.foldl ThreadStatsTracker.note (t.beginOperation call.kind)).stats kind).tally =
    (t.stats kind).tally := tracks.tally kind
  have ended := ThreadStatsTracker.tally_endOperation tracks.trackingActive call.latency call.ok kind
  rw [current, before] at ended
  unfold perform recordResult
  by_cases same : kind = call.kind
  · rw [if_pos same] at ended ⊢
    rw [← same, tally_onEntry_self, tally_recordOperation, same]
    rw [same] at ended
    rw [ended]
    cases call.ok <;> rfl
  · rw [if_neg same] at ended ⊢
    rw [tally_onEntry_other _ _ same]
    exact ended

/-! ## The calls since a reset -/

def callsOf (kind : OperationKind) (calls : List ClientCall) : List ClientCall := calls.filter (·.kind = kind)

noncomputable def performAll (t : ThreadStatsTracker) (calls : List ClientCall) :
    ThreadStatsTracker := calls.foldl perform (resetStats t)

theorem tally_performAll (t : ThreadStatsTracker) (calls : List ClientCall) (kind : OperationKind) :
    ((performAll t calls).stats kind).tally =
      ⟨2 * (callsOf kind calls).countP (·.ok), 2 * (callsOf kind calls).countP (!·.ok), 2 * (callsOf kind calls).countP (·.ok),
        (callsOf kind calls).length⟩ := by
  induction calls using List.reverseRecOn with
  | nil => rfl
  | append_singleton rest call ih =>
    rw [performAll, List.foldl_append, List.foldl_cons, List.foldl_nil, tally_perform, ← performAll, ih]
    by_cases same : call.kind = kind
    · have one : callsOf kind (rest ++ [call]) = callsOf kind rest ++ [call] := by simp [callsOf, same]
      rw [if_pos same.symm, one]
      cases ok : call.ok <;> simp [Tally.add, ok, Nat.mul_add]
    · have none : callsOf kind (rest ++ [call]) = callsOf kind rest := by simp [callsOf, same]
      rw [if_neg (Ne.symm same), none]

/-- Every call of a kind is counted once, and every successful one has one latency sample. -/
structure CountedOnce (e : OperationEntry) (kind : OperationKind) (calls : List ClientCall) : Prop where
  operations : e.successes + e.failures = (callsOf kind calls).length
  roundTrips : e.rttCountsPerOp.totalSamples = (callsOf kind calls).length
  latencies : e.latencySamples.totalSamples = (callsOf kind calls).countP (·.ok)

/-- The counts are right only as long as there is nothing to count. -/
theorem countedOnce_iff (t : ThreadStatsTracker) (calls : List ClientCall) (kind : OperationKind) :
    CountedOnce ((performAll t calls).stats kind) kind calls ↔ ∀ call ∈ calls, call.kind ≠ kind := by
  have tally := tally_performAll t calls kind
  simp only [OperationEntry.tally, Tally.mk.injEq] at tally
  obtain ⟨successes, failures, latencies, rtts⟩ := tally
  have split := (callsOf kind calls).length_eq_countP_add_countP (·.ok)
  have absent : (∀ call ∈ calls, call.kind ≠ kind) ↔ (callsOf kind calls).length = 0 := by
    rw [List.length_eq_zero_iff, callsOf, List.filter_eq_nil_iff]
    simp
  rw [absent]
  constructor
  · intro counted
    have := counted.operations
    simp only [Bool.not_eq_true, Bool.decide_eq_false] at split
    omega
  · intro zero
    have no : (callsOf kind calls).countP (·.ok) = 0 := Nat.eq_zero_of_le_zero (zero ▸ List.countP_le_length)
    have no' : (callsOf kind calls).countP (!·.ok) = 0 := Nat.eq_zero_of_le_zero (zero ▸ List.countP_le_length)
    exact ⟨by omega, by omega, by omega⟩

/-- One successful insertion counts for two. -/
theorem countedOnce_fails_put : ¬ ∀ (t : ThreadStatsTracker) (calls : List ClientCall) (kind : OperationKind),
    CountedOnce ((performAll t calls).stats kind) kind calls := by
  intro claimed
  let start : ThreadStatsTracker := ⟨.reset, .insert, false, 0, fun _ => 0, 0, 0, 0⟩
  have tally := tally_performAll start [⟨true, [], 1, true⟩] .insert
  have operations := (claimed start [⟨true, [], 1, true⟩] .insert).operations
  simp only [OperationEntry.tally, Tally.mk.injEq] at tally
  rw [tally.1, tally.2.1] at operations
  revert operations
  decide

end Faunus.Stats
