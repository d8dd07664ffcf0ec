import Faunus.Rdma.Regions

/-! Allocations and the memory of the servers.

A memory server counts up without looking at the size of its memory. As long as every
chunk it is asked for ends within the memory that the address of the chunk names, so does
every block that is carved from it.
-/

set_option autoImplicit false

namespace Faunus.Allocation

open Interleaving

theorem globalAddress_mod (server offset : ℕ) : globalAddress server offset = server % 256 * 2 ^ 42 + offset % 2 ^ 42 := by
  -- an address has eight bits for the server and 42 for the offset
  have byte : BitVec.ofNat 8 server = BitVec.ofNat 8 (server % 256) := by
    apply BitVec.eq_of_toNat_eq
    simp
  have mask : ∀ n : ℕ, n &&& 4398046511103 = n % 2 ^ 42 := fun n => Nat.and_two_pow_sub_one_eq_mod n 42
  have masked : BitVec.ofNat 64 offset &&& 0x0003FFFFFFFFFF#64 = BitVec.ofNat 64 (offset % 2 ^ 42) &&& 0x0003FFFFFFFFFF#64 := by
    apply BitVec.eq_of_toNat_eq
    simp only [BitVec.toNat_and, BitVec.toNat_ofNat]
    rw [Nat.mod_eq_of_lt (show 4398046511103 < 2 ^ 64 by decide), mask, mask]
    omega
  have same : globalAddress server offset = globalAddress (server % 256) (offset % 2 ^ 42) := by
    simp only [globalAddress, GlobalAddress.ofParts, byte, masked]
  rw [same]
  apply globalAddress_eq
  · exact Nat.mod_lt _ (by decide)
  · exact Nat.mod_lt _ (by decide)

/-- The block lies inside the memory of the server that its address names. -/
def Region.Inside (servers : ℕ) (memory : ℕ → ℕ) (x : Region) : Prop :=
  (located x.2).1 < servers ∧ (located x.2).2 + x.1 ≤ memory (located x.2).1

/-- The chunk ends within the memory that its address names, and within the offsets that addresses can name. -/
def Fits (memory : ℕ → ℕ) (start size : ℕ) : Prop := (located start).2 + size ≤ min (memory (located start).1) (2 ^ 42)

instance instDecidableFits (memory : ℕ → ℕ) (start size : ℕ) : Decidable (Fits memory start size) :=
    inferInstanceAs (Decidable (_ ≤ _))

/-- No product wraps around, and a server is only asked for a chunk that fits. -/
def fitting (memory : ℕ → ℕ) : Condition signature ℕ Heap := fun _ o r h =>
  Products o r ∧ ∀ server size, o = .serverAllocate server size → Fits memory (globalAddress server (h.nextOffset server)) size

theorem offsetsUpTo_lt {size stop fuel offset x : ℕ} (listed : x ∈ offsetsUpTo size stop fuel offset) : x < stop := by
  induction fuel generalizing offset with
  | zero => simp [offsetsUpTo] at listed
  | succ fuel ih =>
    simp only [offsetsUpTo] at listed
    split at listed
    · rcases List.mem_cons.mp listed with rfl | later
      · assumption
      · exact ih later
    · simp at listed

section
variable {servers : ℕ} {memory : ℕ → ℕ} {gs : ℕ → List Region} {h : Heap}

theorem inside_carved {server slabs size offset : ℕ} (chosen : server < servers)
    (fits : Fits memory (globalAddress server offset) (slabs * size))
    {x : Region} (new : x ∈ carve size (getOffsetsFromChunk size (globalAddress server offset) (slabs * size))) :
    x.Inside servers memory := by
  -- the blocks of a chunk that fits lie inside
  obtain ⟨address, listed, rfl⟩ := List.mem_map.mp new
  have start := globalAddress_mod server offset
  have index : server % 256 < 256 := Nat.mod_lt _ (by decide)
  have small : offset % 2 ^ 42 < 2 ^ 42 := Nat.mod_lt _ (by decide)
  have known : server % 256 ≤ server := Nat.mod_le _ _
  unfold Fits at fits
  rw [start, located_eq index small, le_min_iff] at fits
  rw [start] at listed
  have whole : server % 256 * 2 ^ 42 + offset % 2 ^ 42 + slabs * size < 2 ^ 64 := by omega
  have inside := getOffsetsFromChunk_inside whole listed
  -- a block of no bytes would have to begin before the end, too
  have before := offsetsUpTo_lt listed
  rw [word_of_lt whole] at before
  generalize server % 256 = s at *
  generalize offset % 2 ^ 42 = o at *
  generalize slabs * size = chunk at *
  obtain ⟨d, rfl⟩ : ∃ d, address = s * 2 ^ 42 + d := Nat.exists_eq_add_of_le (by omega)
  have within : d < 2 ^ 42 := by omega
  have room : o + chunk ≤ memory s := fits.1
  unfold Region.Inside
  rw [located_eq index within]
  exact ⟨lt_of_le_of_lt known chosen, by change d + size ≤ memory s; omega⟩

/-- Every block lies inside, wherever it is kept. -/
def Bounded (servers : ℕ) (memory : ℕ → ℕ) (gs : ℕ → List Region) (h : Heap) : Prop :=
  ∀ x, Ledger.Lists (ledger gs h) x → x.Inside servers memory

theorem Bounded.shifts {gs' : ℕ → List Region} {h' : Heap} (bounded : Bounded servers memory gs h)
    (shifts : Ledger.Shifts (ledger gs h) (ledger gs' h')) : Bounded servers memory gs' h' := by
  intro x listed
  apply bounded
  exact shifts.lists listed

theorem bounded_empty : Bounded servers memory (fun _ => []) .empty := by
  rintro x ⟨p, listed⟩
  cases p <;> simp [ledger, Heap.listed, Heap.empty, carve] at listed

theorem preserves_bounded : Preserves (narrowAllocators servers) (machine servers) (Bounded servers memory) (fitting memory) where
  invoke gs h t call held bounded idle admitted begins := by
    cases begins
    exact bounded.shifts (shifts_invoke idle admitted)
  act gs h t o c r h' held bounded performed met permitted := by
    rcases shifts_act (System.guarded_exec.1 performed).1 permitted with ⟨shifts, -⟩ |
      ⟨server, slabs, size, chosen, -, rfl, rfl, rfl⟩
    · exact bounded.shifts shifts
    · intro x listed
      rw [ledger_setHeld] at listed
      rcases Ledger.lists_enter listed with new | old
      · exact inside_carved chosen (met.2 server _ rfl) new
      · exact bounded x old
  finish gs h t call offset bounded hands := bounded.shifts (shifts_finish hands)
  env _ _ _ _ moved := moved.elim

end

/-- In every run in which each chunk fits, every block that was allocated lies inside the memory of its server. -/
theorem allocation_fits {servers : ℕ} {memory : ℕ → ℕ} {P : Pool signature ℕ Call (Option ℕ) Heap}
    (run : Reaches (allocators servers) (fitting memory) (.start .empty) P) : ∀ x ∈ P.shared.live, x.Inside servers memory := by
  obtain ⟨gs, explains⟩ := (explains_start bounded_empty).reaches implements_machine preserves_bounded
    (reaches_guarded (fun _ _ _ _ met => met.1) run)
  intro x live
  apply explains.holds
  exact ⟨.live, live⟩

def fittingly (memory : ℕ → ℕ) : Test signature ℕ Heap := fun t o r h => unwrappedly t o r h && match o with
  | .serverAllocate server size => decide (Fits memory (globalAddress server (h.nextOffset server)) size)
  | _ => true

theorem fitting_of_fittingly (memory : ℕ → ℕ) (t : ℕ) (o : Act) (r : o.Reply) (h : Heap) (met : fittingly memory t o r h = true) :
    fitting memory t o r h := by
  obtain ⟨narrow, fits⟩ := Bool.and_eq_true_iff.1 met
  refine ⟨(unwrapped_of_unwrappedly t o r h narrow).1, ?_⟩
  rintro server size rfl
  exact of_decide_eq_true fits

/-- The second allocation grows the slab, on two servers of 24 bytes each. -/
def growingWithin : Pool signature ℕ Call (Option ℕ) Heap :=
  (Pool.start .empty).drive (allocators 2) (fun h _ call => call.admitted h) (fittingly fun _ => 24)
    (List.flatten [Move.whole 0 (.construct 0 [8] 1) 0 5, Move.whole 0 (.allocate 0 8) 0 2, Move.whole 1 (.allocate 0 8) 0 12])

theorem allocation_fits_growing : growingWithin.shared.live = [(8, 2 ^ 42 + 8), (8, 0)] ∧ ∀ x ∈ growingWithin.shared.live,
    x.Inside 2 fun _ => 24 :=
  ⟨by rfl, allocation_fits (reaches_drive (fun _ _ _ ok => ok) (fitting_of_fittingly _) _ _)⟩

/-- A block of 16 bytes on a server of 8 bytes. -/
def tooLarge : Pool signature ℕ Call (Option ℕ) Heap :=
  (Pool.start .empty).drive (allocators 1) (fun h _ call => call.admitted h) freely
    (List.flatten [Move.whole 0 (.construct 0 [16] 1) 0 5, Move.whole 0 (.allocate 0 16) 0 2])

theorem allocation_exceeds : ¬ ∀ (servers : ℕ) (memory : ℕ → ℕ) (P : Pool signature ℕ Call (Option ℕ) Heap),
    Reaches (allocators servers) anything (.start .empty) P → ∀ x ∈ P.shared.live, x.Inside servers memory := by
  intro claimed
  have run : Reaches (allocators 1) anything (.start .empty) tooLarge := reaches_drive (fun _ _ _ ok => ok)
    (fun _ _ _ _ _ => trivial) _ _
  have live : tooLarge.shared.live = [(16, 0)] := by rfl
  have inside : Region.Inside 1 (fun _ => 8) (16, 0) := by
    apply claimed 1 _ tooLarge run
    rw [live]
    exact List.mem_singleton_self _
  have exceeds : 16 ≤ 8 := inside.2
  omega

end Faunus.Allocation
