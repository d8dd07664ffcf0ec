import Faunus.Data.KVBlock
import Faunus.Interleaving.Invariant

/-! Allocation of remote memory.

Every client has a `LocalAllocator` with one `SlabAllocator` per chunk size; slabs
that run empty ask the memory servers for a chunk of fresh memory and carve it up.
Free lists are multisets: a dequeue may deliver any of their elements, or miss.

Sizes and offsets are natural numbers below 2^64, and -1 is `none`. Sums and products
wrap around as those of `size_t` do; the source multiplies as `int64_t` and converts the
product, which is the same where the signed product is defined.
-/

set_option autoImplicit false

namespace Faunus.Allocation

open Interleaving

/-- The atomic steps of the allocators, for the client and chunk size they belong to. -/
inductive Act where
  | find (client size : ℕ)
  | construct (client size numSlabs : ℕ)
  | tryDequeue (client size : ℕ)
  | enqueue (client size offset : ℕ)
  | lockGrowth (client size : ℕ)
  | unlockGrowth (client size : ℕ)
  | readNumSlabs (client size : ℕ)
  | addNumSlabs (client size added : ℕ)
  | pickServer
  | serverAllocate (server size : ℕ)

def Act.Reply : Act → Type
  | .find _ _ => Bool
  | .tryDequeue _ _ => Option ℕ
  | .readNumSlabs _ _ => ℕ
  | .pickServer => ℕ
  | .serverAllocate _ _ => ℕ
  | _ => Unit

def signature : Signature := ⟨Act, Act.Reply⟩

abbrev Code (A : Type) := Program signature A

def perform (o : Act) : Code o.Reply := Program.perform (I := signature) o .value

structure SlabAllocator where
  numSlabs : ℕ
  freeList : List ℕ
  growing : Bool

abbrev Region := ℕ × ℕ

structure Heap where
  slabs : ℕ × ℕ → Option SlabAllocator
  nextOffset : ℕ → ℕ
  rr : ℕ
  /-- Clients whose construction has begun, and those whose construction is over. -/
  begun : List ℕ
  built : List ℕ
  live : List Region

/-- A value of type `size_t`. -/
def word (n : ℕ) : ℕ := n % 2 ^ 64

theorem word_of_lt {n : ℕ} (small : n < 2 ^ 64) : word n = n := Nat.mod_eq_of_lt small

def Heap.setSlab (h : Heap) (client size : ℕ) (slab : SlabAllocator) : Heap :=
  { h with slabs := Function.update h.slabs (client, size) (some slab) }

def Heap.modifySlab (h : Heap) (client size : ℕ) (f : SlabAllocator → SlabAllocator) : Option Heap :=
  (h.slabs (client, size)).map fun slab => h.setSlab client size (f slab)

/-- The choice says which element of a free list is delivered, or that none is. -/
def Heap.exec (servers : ℕ) : Exec signature ℕ ℕ Heap := fun _ o c h =>
  match o with
  | .find client size => some ((h.slabs (client, size)).isSome, h)
  | .construct client size numSlabs => some ((), h.setSlab client size ⟨numSlabs, [], false⟩)
  | .tryDequeue client size =>
    match h.slabs (client, size) with
    | none => none
    | some slab =>
      match slab.freeList[c]? with
      | none => some (none, h)
      | some offset =>
        some (some offset, h.setSlab client size { slab with freeList := slab.freeList.erase offset })
  | .enqueue client size offset =>
    (h.modifySlab client size fun slab => { slab with freeList := offset :: slab.freeList }).map ((), ·)
  | .lockGrowth client size =>
    match h.slabs (client, size) with
    | none => none
    | some slab => if slab.growing then none else some ((), h.setSlab client size { slab with growing := true })
  | .unlockGrowth client size =>
    (h.modifySlab client size fun slab => { slab with growing := false }).map ((), ·)
  | .readNumSlabs client size => (h.slabs (client, size)).map fun slab => (slab.numSlabs, h)
  | .addNumSlabs client size added =>
    (h.modifySlab client size fun slab => { slab with numSlabs := word (slab.numSlabs + added) }).map ((), ·)
  | .pickServer => if servers = 0 then none else some (h.rr % servers, { h with rr := word (h.rr + 1) })
  | .serverAllocate server size =>
    some (h.nextOffset server,
      { h with nextOffset := Function.update h.nextOffset server (word (h.nextOffset server + size)) })

/-! ## The source's functions -/

/-- `GlobalAddress gaddr(server_idx, offset)`, read back as an integer. -/
def globalAddress (server offset : ℕ) : ℕ :=
  (GlobalAddress.ofParts (BitVec.ofNat 8 server) (BitVec.ofNat 64 offset)).raw.toNat

/-- `RPCAllocator::allocate` over `MemoryServer::allocate`; it never returns -1. -/
def rpcAllocate (chunkSize : ℕ) : Code (Option ℕ) := do
  let server ← perform .pickServer
  let offset ← perform (.serverAllocate server chunkSize)
  pure (some (globalAddress server offset))

/-- The loop from `offset` up to `stop`. Its offsets are different words, so 2^64 rounds are enough. -/
def offsetsUpTo (slabSize stop : ℕ) : (fuel offset : ℕ) → List ℕ
  | 0, _ => []
  | fuel + 1, offset =>
    if offset < stop then offset :: offsetsUpTo slabSize stop fuel (word (offset + slabSize)) else []

def getOffsetsFromChunk (slabSize startOffset chunkSize : ℕ) : List ℕ :=
  offsetsUpTo slabSize (word (startOffset + chunkSize)) (2 ^ 64) startOffset

def enqueueAll (client size : ℕ) : List ℕ → Code Unit
  | [] => pure ()
  | offset :: rest => do
    perform (.enqueue client size offset)
    enqueueAll client size rest

def getSlabsNolock (client size slabsToAdd : ℕ) : Code Unit := do
  let chunkSize := word (slabsToAdd * size)
  let newChunk ← rpcAllocate chunkSize
  match newChunk with
  | none => pure ()
  | some start =>
    let newOffsets := getOffsetsFromChunk size start chunkSize
    enqueueAll client size newOffsets
    perform (.addNumSlabs client size newOffsets.length)

def slabAllocate (client size : ℕ) : Code (Option ℕ) := do
  match ← perform (.tryDequeue client size) with
  | some offset => pure (some offset)
  | none =>
    perform (.lockGrowth client size)
    match ← perform (.tryDequeue client size) with
    | some offset =>
      perform (.unlockGrowth client size)
      pure (some offset)
    | none =>
      let numSlabs ← perform (.readNumSlabs client size)
      getSlabsNolock client size numSlabs
      let found ← perform (.tryDequeue client size)
      perform (.unlockGrowth client size)
      pure found

/-- `SlabAllocator`'s constructor, for each of the sizes in turn. -/
def construct (client numSlabs : ℕ) : List ℕ → Code Unit
  | [] => pure ()
  | size :: sizes => do
    perform (.construct client size numSlabs)
    getSlabsNolock client size numSlabs
    construct client numSlabs sizes

def allocate (client size : ℕ) : Code (Option ℕ) := do
  match ← perform (.find client size) with
  | true => slabAllocate client size
  | false => pure none

def free (client size offset : ℕ) : Code Unit := do
  match ← perform (.find client size) with
  | true => perform (.enqueue client size offset)
  | false => pure ()

/-! ## Clients -/

inductive Call where
  | construct (client : ℕ) (sizes : List ℕ) (numChunksPerSlab : ℕ)
  | allocate (client size : ℕ)
  | free (client size offset : ℕ)

def Call.body : Call → Code (Option ℕ)
  | .construct client sizes numChunks => do
    Allocation.construct client numChunks sizes
    pure none
  | .allocate client size => Allocation.allocate client size
  | .free client size offset => do
    Allocation.free client size offset
    pure none

/-- An allocator is constructed once and used afterwards; what is freed is live. -/
def Call.admitted (h : Heap) : Call → Bool
  | .construct client _ _ => decide (client ∉ h.begun)
  | .allocate client _ => decide (client ∈ h.built)
  | .free client size offset => decide (client ∈ h.built) && decide ((size, offset) ∈ h.live)

def Call.invoked (h : Heap) : Call → Heap
  | .construct client _ _ => { h with begun := client :: h.begun }
  | .allocate _ _ => h
  | .free _ size offset => { h with live := h.live.erase (size, offset) }

def Call.returned (h : Heap) : Call → Option ℕ → Heap
  | .construct client _ _, _ => { h with built := client :: h.built }
  | .allocate _ size, some offset => { h with live := (size, offset) :: h.live }
  | .allocate _ _, none => h
  | .free _ _ _, _ => h

/-- Any number of threads using any number of allocators over so many servers. -/
def allocators (servers : ℕ) : System signature ℕ ℕ Call (Option ℕ) Heap where
  exec := Heap.exec servers
  body := Call.body
  admits h _ call := call.admitted h
  env _ _ := False
  invoked _ call h := call.invoked h
  returned _ call offset h := call.returned h offset

def Heap.empty : Heap where
  slabs _ := none
  nextOffset _ := 0
  rr := 0
  begun := []
  built := []
  live := []

end Faunus.Allocation
