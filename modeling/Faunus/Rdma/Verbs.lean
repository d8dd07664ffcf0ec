import Faunus.Data.KVBlock

/-! RDMA verbs on bytes, and the result codes of `RDMAManager`.

A verb addresses the memory of one server and the buffers of the client. `none` is a copy
whose range leaves the memory, which has no meaning; failed checks return false. Assertions
are disabled, and the simulated delays and statistics are left out.
-/

set_option autoImplicit false

namespace Faunus.Rdma

abbrev Byte := BitVec 8

/-! ## Memory -/

def wordOf (bytes : List Byte) : BitVec 64 := bytes.foldr (fun b w => (w <<< 8) ||| b.setWidth 64) 0

def bytesOf (w : BitVec 64) : List Byte := (List.range 8).map fun i => (w >>> (8 * i)).setWidth 8

def readAt (memory : List Byte) (offset n : ℕ) : List Byte := (memory.drop offset).take n

def writeAt (memory : List Byte) (offset : ℕ) (bytes : List Byte) : List Byte :=
  memory.take offset ++ (bytes ++ memory.drop (offset + bytes.length))

abbrev Buffers := BitVec 64 → Byte

def Buffers.load (buffers : Buffers) (p : BitVec 64) (n : ℕ) : List Byte := (List.range n).map fun i =>
    buffers (p + BitVec.ofNat 64 i)

def Buffers.store (buffers : Buffers) (p : BitVec 64) (bytes : List Byte) :
    Buffers := fun q => (bytes[(q - p).toNat]?).getD (buffers q)

/-! ## Descriptors -/

/-- The union of `RDMAOp`, by its type. -/
inductive Verb where
  | read (buffer bytes : BitVec 64)
  | write (buffer bytes : BitVec 64)
  /-- The first word is the address of the expected value, which is overwritten with the value found. -/
  | cas (expected desired : BitVec 64)
  | faa (increment : BitVec 64)

structure RDMAOp where
  addr : GlobalAddress
  verb : Verb

structure Fabric where
  memServers : List (List Byte)
  buffers : Buffers

/-! ## RDMASimulation -/

/-- `std::copy` between the memory and a buffer; the check adds in 64 bits. -/
def copying {A : Type} (memory : List Byte) (addr buffer bytes : BitVec 64) (unchanged copied : A) : Option (Bool × A) :=
  if memory.length < (addr + bytes).toNat ∨ buffer = 0 then some (false, unchanged)
  else if addr.toNat + bytes.toNat ≤ memory.length then some (true, copied)
  else none

def rdmaRead (memory : List Byte) (buffers : Buffers) (addr buffer bytes : BitVec 64) : Option (Bool × Buffers) :=
  copying memory addr buffer bytes buffers (buffers.store buffer (readAt memory addr.toNat bytes.toNat))

def rdmaWrite (memory : List Byte) (buffers : Buffers) (addr buffer bytes : BitVec 64) : Option (Bool × List Byte) :=
  copying memory addr buffer bytes memory (writeAt memory addr.toNat (buffers.load buffer bytes.toNat))

def rdmaCas (memory : List Byte) (buffers : Buffers) (addr expected desired : BitVec 64) : Bool × List Byte × Buffers :=
  if memory.length < (addr + 8).toNat then (false, memory, buffers)
  else
    let found := readAt memory addr.toNat 8
    if found = buffers.load expected 8 then (true, writeAt memory addr.toNat (bytesOf desired), buffers)
    else (true, memory, buffers.store expected found)

/-- The previous value and the memory after it. -/
def rdmaFaa (memory : List Byte) (addr increment : BitVec 64) : BitVec 64 × List Byte :=
  if (addr + 8).toNat ≤ memory.length then
    let old := wordOf (readAt memory addr.toNat 8)
    (old, writeAt memory addr.toNat (bytesOf (old + increment)))
  else (0, memory)

/-! ## RDMAManager -/

def Fabric.getServer (f : Fabric) (a : GlobalAddress) : Option (List Byte) := f.memServers[a.serverIndex.toNat]?

def Fabric.setServer (f : Fabric) (a : GlobalAddress) (memory : List Byte) : Fabric :=
  { f with memServers := f.memServers.set a.serverIndex.toNat memory }

/-- The result of `rdma_faa` is dropped. -/
def executeRdma (op : RDMAOp) (f : Fabric) : Option (Bool × Fabric) :=
  match f.getServer op.addr with
  | none => some (false, f)
  | some memory =>
    match op.verb with
    | .read buffer bytes => (rdmaRead memory f.buffers op.addr.offset buffer bytes).map fun r => (r.1, { f with buffers := r.2 })
    | .write buffer bytes => (rdmaWrite memory f.buffers op.addr.offset buffer bytes).map fun r => (r.1, f.setServer op.addr r.2)
    | .cas expected desired =>
      let r := rdmaCas memory f.buffers op.addr.offset expected desired
      some (r.1, { f.setServer op.addr r.2.1 with buffers := r.2.2 })
    | .faa increment => some (true, f.setServer op.addr (rdmaFaa memory op.addr.offset increment).2)

def performOp (op : RDMAOp) (f : Fabric) : Option (Bool × Fabric) :=
  match f.getServer op.addr with
  | none => some (false, f)
  | some _ => executeRdma op f

def performBatch : List RDMAOp → Fabric → Option (Bool × Fabric)
  | [], f => some (true, f)
  | op :: ops, f =>
    match f.getServer op.addr with
    | none => some (false, f)
    | some _ =>
      match executeRdma op f with
      | none => none
      | some (true, f') => performBatch ops f'
      | some (false, f') => some (false, f')

/-! ## What result codes say -/

/-- The number of bytes of the addressed server. -/
def Fabric.sizeOf (f : Fabric) (a : GlobalAddress) : Option ℕ := (f.getServer a).map List.length

/-- The bytes a verb touches lie in the memory, and it has a buffer if it needs one. -/
def Verb.Within (size : ℕ) (addr : BitVec 64) : Verb → Prop
  | .read buffer bytes => addr.toNat + bytes.toNat ≤ size ∧ buffer ≠ 0
  | .write buffer bytes => addr.toNat + bytes.toNat ≤ size ∧ buffer ≠ 0
  | .cas _ _ => addr.toNat + 8 ≤ size
  | .faa _ => addr.toNat + 8 ≤ size

def RDMAOp.InBounds (f : Fabric) (op : RDMAOp) : Prop := ∃ size, f.sizeOf op.addr = some size ∧ op.verb.Within size op.addr.offset

/-- One operation after the other, up to the first that returns false. -/
def oneByOne : List RDMAOp → Fabric → Option Fabric
  | [], f => some f
  | op :: ops, f =>
    match performOp op f with
    | none => none
    | some (true, f') => oneByOne ops f'
    | some (false, f') => some f'

structure Truthful (f : Fabric) (ops : List RDMAOp) : Prop where
  result : ∃ ok f', performBatch ops f = some (ok, f') ∧ (ok = true ↔ ∀ op ∈ ops, op.InBounds f)
  effect : (performBatch ops f).map Prod.snd = oneByOne ops f
  single : ∀ op ∈ ops, ¬ op.InBounds f → ∃ f', performOp op f = some (false, f')

/-- A fetch-and-add has its word in the memory, and the end of a copy does not wrap around to within the memory. -/
def Verb.Checked (size : ℕ) (addr : BitVec 64) : Verb → Prop
  | .read buffer bytes => buffer ≠ 0 → (addr + bytes).toNat ≤ size → addr.toNat + bytes.toNat ≤ size
  | .write buffer bytes => buffer ≠ 0 → (addr + bytes).toNat ≤ size → addr.toNat + bytes.toNat ≤ size
  | .cas _ _ => True
  | .faa _ => addr.toNat + 8 ≤ size

def RDMAOp.Checked (f : Fabric) (op : RDMAOp) : Prop := ∀ size, f.sizeOf op.addr = some size → op.verb.Checked size op.addr.offset

/-! ## Sizes -/

theorem writeAt_length {memory bytes : List Byte} {offset : ℕ} (inside : offset + bytes.length ≤ memory.length) :
    (writeAt memory offset bytes).length = memory.length := by
  simp only [writeAt, List.length_append, List.length_take, List.length_drop]
  omega

theorem load_length (buffers : Buffers) (p : BitVec 64) (n : ℕ) : (buffers.load p n).length = n := by
  simp [Buffers.load]

theorem bytesOf_length (w : BitVec 64) : (bytesOf w).length = 8 := by
  simp [bytesOf]

section
variable {f : Fabric} {a : GlobalAddress} {memory memory' : List Byte}

theorem sizeOf_setServer (server : f.getServer a = some memory) (same : memory'.length = memory.length) (b : GlobalAddress) :
    (f.setServer a memory').sizeOf b = f.sizeOf b := by
  obtain ⟨inside, here⟩ := List.getElem?_eq_some_iff.1 server
  simp only [Fabric.sizeOf, Fabric.getServer, Fabric.setServer, List.getElem?_set]
  split_ifs with index
  · rw [← index, List.getElem?_eq_getElem inside, here]
    simp [same]
  · rfl

theorem offset_lt (a : GlobalAddress) : a.offset.toNat < 2 ^ 42 := by
  have masked : a.offset.toNat ≤ 0x0003FFFFFFFFFF := by
    rw [GlobalAddress.offset, BitVec.toNat_and]
    exact Nat.and_le_right
  omega

theorem word_end (a : GlobalAddress) : (a.offset + 8).toNat = a.offset.toNat + 8 := by
  have := offset_lt a
  rw [BitVec.toNat_add]
  exact Nat.mod_eq_of_lt (by simp; omega)

end

/-! ## Single operations -/

section
variable {A : Type} {memory : List Byte} {addr buffer bytes : BitVec 64} {unchanged copied : A}

theorem copying_spec (checked : buffer ≠ 0 → (addr + bytes).toNat ≤ memory.length → addr.toNat + bytes.toNat ≤ memory.length) :
    ∃ ok a, copying memory addr buffer bytes unchanged copied = some (ok, a) ∧
      (ok = true ↔ addr.toNat + bytes.toNat ≤ memory.length ∧ buffer ≠ 0) ∧
        (a = unchanged ∨ a = copied ∧ addr.toNat + bytes.toNat ≤ memory.length) := by
  have wrapped : (addr + bytes).toNat ≤ addr.toNat + bytes.toNat := by
    rw [BitVec.toNat_add]
    exact Nat.mod_le _ _
  unfold copying
  by_cases fails : memory.length < (addr + bytes).toNat ∨ buffer = 0
  · rw [if_pos fails]
    refine ⟨false, unchanged, rfl, ?_, .inl rfl⟩
    constructor
    · intro h
      cases h
    · rintro ⟨inside, given⟩
      rcases fails with beyond | null
      · omega
      · exact absurd null given
  · rw [if_neg fails]
    rw [not_or, not_lt] at fails
    have inside := checked fails.2 fails.1
    rw [if_pos inside]
    exact ⟨true, copied, rfl, ⟨fun _ => ⟨inside, fails.2⟩, fun _ => rfl⟩, .inr ⟨rfl, inside⟩⟩

end

theorem rdmaCas_spec (memory : List Byte) (buffers : Buffers) (a : GlobalAddress) (expected desired : BitVec 64) :
    ((rdmaCas memory buffers a.offset expected desired).1 = true ↔ a.offset.toNat + 8 ≤ memory.length) ∧
      (rdmaCas memory buffers a.offset expected desired).2.1.length = memory.length := by
  unfold rdmaCas
  rw [word_end]
  by_cases beyond : memory.length < a.offset.toNat + 8
  · rw [if_pos beyond]
    simpa using beyond
  · rw [if_neg beyond]
    dsimp only
    rw [not_lt] at beyond
    split_ifs
    · exact ⟨by simp [beyond], writeAt_length (by rwa [bytesOf_length])⟩
    · exact ⟨by simp [beyond], rfl⟩

theorem performOp_eq (op : RDMAOp) (f : Fabric) : performOp op f = executeRdma op f := by
  unfold performOp executeRdma
  cases f.getServer op.addr <;> rfl

theorem performOp_spec {op : RDMAOp} {f : Fabric} (checked : op.Checked f) :
    ∃ ok f', performOp op f = some (ok, f') ∧ (ok = true ↔ op.InBounds f) ∧ ∀ a, f'.sizeOf a = f.sizeOf a := by
  -- a checked operation returns true exactly if it is in bounds
  rw [performOp_eq]
  obtain ⟨addr, verb⟩ := op
  cases server : f.getServer addr with
  | none =>
    refine ⟨false, f, by simp [executeRdma, server], ?_, fun _ => rfl⟩
    simp [RDMAOp.InBounds, Fabric.sizeOf, server]
  | some memory =>
    have size : f.sizeOf addr = some memory.length := by rw [Fabric.sizeOf, server]; rfl
    have within : ∀ verb : Verb, (RDMAOp.mk addr verb).InBounds f ↔ verb.Within memory.length addr.offset := by
      intro verb
      simp [RDMAOp.InBounds, size]
    have checks := checked memory.length size
    rw [within]
    cases verb with
    | read buffer bytes =>
      obtain ⟨ok, buffers, copied, truth, -⟩ : ∃ ok b, rdmaRead memory f.buffers addr.offset buffer bytes = some (ok, b) ∧ _ ∧
        _ := copying_spec checks
      refine ⟨ok, { f with buffers }, ?_, truth, fun _ => rfl⟩
      simp only [executeRdma, server, copied, Option.map_some]
    | write buffer bytes =>
      obtain ⟨ok, memory', copied, truth, which⟩ :
        ∃ ok m, rdmaWrite memory f.buffers addr.offset buffer bytes = some (ok, m) ∧ _ ∧ _ := copying_spec checks
      have same : memory'.length = memory.length := by
        rcases which with rfl | ⟨rfl, inside⟩
        · rfl
        · exact writeAt_length (by rwa [load_length])
      refine ⟨ok, f.setServer addr memory', ?_, truth, sizeOf_setServer server same⟩
      simp only [executeRdma, server, copied, Option.map_some]
    | cas expected desired =>
      obtain ⟨truth, same⟩ := rdmaCas_spec memory f.buffers addr expected desired
      refine ⟨_, { f.setServer addr _ with buffers := _ }, by simp only [executeRdma, server]; rfl, truth, fun b => ?_⟩
      exact sizeOf_setServer server same b
    | faa increment =>
      have inside : (addr.offset + 8).toNat ≤ memory.length := by
        rw [word_end]
        exact checks
      have same : (rdmaFaa memory addr.offset increment).2.length = memory.length := by
        unfold rdmaFaa
        rw [if_pos inside]
        exact writeAt_length (by rw [bytesOf_length]; exact checks)
      refine ⟨true, _, by simp only [executeRdma, server], ⟨fun _ => checks, fun _ => rfl⟩, sizeOf_setServer server same⟩

theorem performOp_unchecked {op : RDMAOp} {f : Fabric} (unchecked : ¬ op.Checked f) :
    ¬ op.InBounds f ∧ ¬ ∃ f', performOp op f = some (false, f') := by
  -- an operation that is not checked is out of bounds, but does not return false
  rw [performOp_eq]
  obtain ⟨addr, verb⟩ := op
  simp only [RDMAOp.Checked, not_forall] at unchecked
  obtain ⟨size, known, unchecked⟩ := unchecked
  obtain ⟨memory, server, rfl⟩ := Option.map_eq_some_iff.1 known
  have within : ∀ verb : Verb, (RDMAOp.mk addr verb).InBounds f ↔ verb.Within memory.length addr.offset := by
    intro verb
    simp [RDMAOp.InBounds, known]
  rw [within]
  have lost : ∀ (A : Type) (buffer bytes : BitVec 64) (unchanged copied : A),
      ¬ (buffer ≠ 0 → (addr.offset + bytes).toNat ≤ memory.length → addr.offset.toNat + bytes.toNat ≤ memory.length) →
        copying memory addr.offset buffer bytes unchanged copied = none := by
    intro A buffer bytes unchanged copied wraps
    simp only [not_forall] at wraps
    obtain ⟨given, low, beyond⟩ := wraps
    unfold copying
    rw [if_neg (not_or.2 ⟨not_lt.2 low, given⟩), if_neg beyond]
  cases verb with
  | read buffer bytes =>
    have undefined : rdmaRead memory f.buffers addr.offset buffer bytes = none := lost _ _ _ _ _ unchecked
    simp only [Verb.Checked, not_forall] at unchecked
    obtain ⟨-, -, beyond⟩ := unchecked
    exact ⟨fun inside => beyond inside.1, by simp [executeRdma, server, undefined]⟩
  | write buffer bytes =>
    have undefined : rdmaWrite memory f.buffers addr.offset buffer bytes = none := lost _ _ _ _ _ unchecked
    simp only [Verb.Checked, not_forall] at unchecked
    obtain ⟨-, -, beyond⟩ := unchecked
    exact ⟨fun inside => beyond inside.1, by simp [executeRdma, server, undefined]⟩
  | cas expected desired => exact absurd trivial unchecked
  | faa increment => exact ⟨unchecked, by simp [executeRdma, server]⟩

/-! ## Batches -/

section
variable {f f' : Fabric} {op : RDMAOp}

theorem inBounds_congr (same : ∀ a, f'.sizeOf a = f.sizeOf a) : op.InBounds f' ↔ op.InBounds f := by
  simp only [RDMAOp.InBounds, same]

theorem checked_congr (same : ∀ a, f'.sizeOf a = f.sizeOf a) : op.Checked f' ↔ op.Checked f := by
  simp only [RDMAOp.Checked, same]

theorem performBatch_cons (op : RDMAOp) (ops : List RDMAOp) (f : Fabric) : performBatch (op :: ops) f =
    (performOp op f).bind fun r => if r.1 then performBatch ops r.2 else some (false, r.2) := by
  unfold performOp
  simp only [performBatch]
  cases f.getServer op.addr with
  | none => rfl
  | some _ =>
    cases executeRdma op f with
    | none => rfl
    | some r =>
      obtain ⟨ok, f'⟩ := r
      cases ok <;> rfl

theorem performBatch_oneByOne (ops : List RDMAOp) (f : Fabric) : (performBatch ops f).map Prod.snd = oneByOne ops f := by
  induction ops generalizing f with
  | nil => rfl
  | cons op ops ih =>
    rw [performBatch_cons, oneByOne]
    cases performed : performOp op f with
    | none => rfl
    | some r =>
      obtain ⟨ok, f'⟩ := r
      cases ok with
      | false => rfl
      | true => exact ih f'

theorem performBatch_spec {ops : List RDMAOp} (checked : ∀ op ∈ ops, op.Checked f) :
    ∃ ok f', performBatch ops f = some (ok, f') ∧ (ok = true ↔ ∀ op ∈ ops, op.InBounds f) := by
  induction ops generalizing f with
  | nil => exact ⟨true, f, rfl, by simp⟩
  | cons op ops ih =>
    obtain ⟨ok, f₁, performed, truth, same⟩ := performOp_spec (checked op List.mem_cons_self)
    have later : ∀ op ∈ ops, op.Checked f₁ := fun op member => (checked_congr same).2 (checked op (List.mem_cons_of_mem _ member))
    rw [performBatch_cons, performed, Option.bind_some]
    cases ok with
    | false =>
      refine ⟨false, f₁, rfl, ?_⟩
      simp only [List.forall_mem_cons, Bool.false_eq_true, false_iff, not_and]
      intro inside
      cases truth.2 inside
    | true =>
      obtain ⟨ok, f₂, rest, truth'⟩ := ih later
      refine ⟨ok, f₂, rest, ?_⟩
      simp only [List.forall_mem_cons, truth.1 rfl, true_and]
      rw [truth']
      simp only [inBounds_congr same]

end

/-- The result codes of a batch and of its operations are truthful if and only if each of its operations that has a
server is checked: a fetch-and-add has its word in the memory, and no copy wraps around. -/
theorem results_truthful (f : Fabric) (ops : List RDMAOp) : Truthful f ops ↔ ∀ op ∈ ops, op.Checked f := by
  constructor
  · intro truthful op member
    by_contra unchecked
    obtain ⟨outside, silent⟩ := performOp_unchecked unchecked
    exact silent (truthful.single op member outside)
  · intro checked
    refine ⟨performBatch_spec checked, performBatch_oneByOne ops f, ?_⟩
    intro op member outside
    obtain ⟨ok, f', performed, truth, -⟩ := performOp_spec (checked op member)
    cases ok with
    | false => exact ⟨f', performed⟩
    | true => exact absurd (truth.1 rfl) outside

def eightBytes : Fabric := ⟨[List.replicate 8 0], fun _ => 0⟩

/-- A fetch-and-add behind the end of the memory: a lock release without effect that reports success. -/
theorem results_untruthful_faa : ¬ ∀ (f : Fabric) (ops : List RDMAOp), Truthful f ops := by
  intro claimed
  obtain ⟨f', performed⟩ := (claimed eightBytes [⟨⟨8⟩, .faa (-1)⟩]).single ⟨⟨8⟩, .faa (-1)⟩ List.mem_cons_self (by
    rintro ⟨size, known, inside⟩
    cases known
    exact absurd inside (by unfold Verb.Within; decide))
  cases performed

end Faunus.Rdma
