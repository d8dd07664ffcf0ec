import Faunus.Rdma.Allocator
import Faunus.Interleaving.Ledger

/-! Live allocations never overlap.

A region is carved from fresh memory of one server and from then on moves between
the free lists of the clients, the threads that are about to list or return it,
and the live allocations. A ledger over these places keeps all regions apart.
-/

set_option autoImplicit false

namespace Faunus.Allocation

open Interleaving

/-! ## Addresses -/

theorem globalAddress_eq {server offset : ℕ} (few : server < 256) (small : offset < 2 ^ 42) :
    globalAddress server offset = server * 2 ^ 42 + offset := by
  have low : offset &&& 4398046511103 = offset :=
    (Nat.and_two_pow_sub_one_eq_mod offset 42).trans (Nat.mod_eq_of_lt small)
  have high : server <<< 42 % 2 ^ 64 = server * 2 ^ 42 := by
    rw [Nat.shiftLeft_eq, Nat.mod_eq_of_lt (by omega)]
  have parts : server * 2 ^ 42 ||| offset = server * 2 ^ 42 + offset := by
    rw [Nat.mul_comm, Nat.two_pow_add_eq_or_of_lt small]
  simp only [globalAddress, GlobalAddress.ofParts, GlobalAddress.ofAddress]
  simp only [BitVec.toNat_setWidth, BitVec.toNat_or, BitVec.toNat_and, BitVec.toNat_shiftLeft, BitVec.toNat_ofNat]
  rw [Nat.mod_eq_of_lt (show server % 2 ^ 8 < 2 ^ 64 by omega), Nat.mod_eq_of_lt (show server < 2 ^ 8 by omega),
    Nat.mod_eq_of_lt (show offset < 2 ^ 64 by omega), high,
    Nat.mod_eq_of_lt (show 4398046511103 < 2 ^ 64 by omega), low, parts]
  exact Nat.mod_eq_of_lt (by omega)

/-- The server and the offset a raw address stands for. -/
def located (address : ℕ) : ℕ × ℕ :=
  let a := GlobalAddress.ofAddress (BitVec.ofNat 64 address)
  (a.serverIndex.toNat, a.offset.toNat)

theorem located_eq {server offset : ℕ} (few : server < 256) (small : offset < 2 ^ 42) :
    located (server * 2 ^ 42 + offset) = (server, offset) := by
  have index : (server * 2 ^ 42 + offset) >>> 42 = server := by
    rw [Nat.shiftRight_eq_div_pow]
    omega
  have low : (server * 2 ^ 42 + offset) &&& 4398046511103 = offset := by
    refine (Nat.and_two_pow_sub_one_eq_mod _ 42).trans ?_
    omega
  simp only [located, GlobalAddress.ofAddress, GlobalAddress.serverIndex, GlobalAddress.offset, Prod.mk.injEq]
  simp only [BitVec.toNat_setWidth, BitVec.toNat_and, BitVec.toNat_ushiftRight, BitVec.toNat_ofNat]
  rw [Nat.mod_eq_of_lt (show server * 2 ^ 42 + offset < 2 ^ 64 by omega),
    Nat.mod_eq_of_lt (show server * 2 ^ 42 + offset < 2 ^ 50 by omega),
    Nat.mod_eq_of_lt (show server * 2 ^ 42 + offset < 2 ^ 64 by omega), index,
    Nat.mod_eq_of_lt (show 4398046511103 < 2 ^ 64 by omega), low]
  exact ⟨Nat.mod_eq_of_lt (by omega), rfl⟩

/-! ## Carving -/

def Region.Apart (x y : Region) : Prop := x.2 + x.1 ≤ y.2 ∨ y.2 + y.1 ≤ x.2

theorem Region.apart_symm (x y : Region) (apart : Region.Apart x y) : Region.Apart y x := apart.symm

def carve (size : ℕ) (offsets : List ℕ) : List Region := offsets.map fun offset => (size, offset)

section Carving
variable {size stop : ℕ}

theorem offsetsUpTo_inside {fuel offset rounds : ℕ} (small : stop < 2 ^ 64) (whole : stop = offset + rounds * size) {x : ℕ}
    (listed : x ∈ offsetsUpTo size stop fuel offset) : offset ≤ x ∧ x + size ≤ stop := by
  -- the offsets of a chunk whose size is a multiple of the slab size lie inside it, slab and all
  induction fuel generalizing offset rounds with
  | zero => simp [offsetsUpTo] at listed
  | succ fuel ih =>
    simp only [offsetsUpTo] at listed
    split at listed
    · rename_i inside
      cases rounds with
      | zero => omega
      | succ rounds =>
        have step : stop = offset + size + rounds * size := by rw [whole, Nat.succ_mul]; omega
        rw [word_of_lt (by omega)] at listed
        rcases List.mem_cons.mp listed with rfl | later
        · exact ⟨le_rfl, by omega⟩
        · have := ih step later
          exact ⟨by omega, this.2⟩
    · simp at listed

theorem offsetsUpTo_apart {fuel offset rounds : ℕ} (small : stop < 2 ^ 64) (whole : stop = offset + rounds * size) :
    (carve size (offsetsUpTo size stop fuel offset)).Pairwise Region.Apart := by
  induction fuel generalizing offset rounds with
  | zero => exact .nil
  | succ fuel ih =>
    simp only [offsetsUpTo]
    split
    · rename_i inside
      cases rounds with
      | zero => omega
      | succ rounds =>
        have step : stop = offset + size + rounds * size := by rw [whole, Nat.succ_mul]; omega
        rw [word_of_lt (by omega)]
        refine .cons ?_ (ih step)
        intro y listed
        obtain ⟨x, later, rfl⟩ := List.mem_map.mp listed
        exact .inl (offsetsUpTo_inside small step later).1
    · exact .nil

theorem word_next (offset size j : ℕ) : word (word (offset + size) + j * size) = word (offset + (j + 1) * size) := by
  rw [word, word, word, Nat.mod_add_mod, Nat.succ_mul]
  congr 1
  omega

theorem mem_offsetsUpTo {fuel offset x : ℕ} (small : offset < 2 ^ 64) (listed : x ∈ offsetsUpTo size stop fuel offset) :
    ∃ k, x = word (offset + k * size) ∧ ∀ j ≤ k, word (offset + j * size) < stop := by
  -- a later offset is some steps on, and the loop has seen everything before it below the end
  induction fuel generalizing offset with
  | zero => simp [offsetsUpTo] at listed
  | succ fuel ih =>
    simp only [offsetsUpTo] at listed
    split at listed
    · rename_i inside
      have first : word (offset + 0 * size) = offset := by rw [Nat.zero_mul, Nat.add_zero, word_of_lt small]
      rcases List.mem_cons.mp listed with rfl | later
      · refine ⟨0, first.symm, fun j bound => ?_⟩
        rwa [Nat.le_zero.1 bound, first]
      · obtain ⟨k, rfl, before⟩ := ih (Nat.mod_lt _ (by decide)) later
        refine ⟨k + 1, word_next offset size k, fun j bound => ?_⟩
        cases j with
        | zero => rwa [first]
        | succ j =>
          rw [← word_next]
          exact before j (by omega)
    · simp at listed

theorem offsetsUpTo_nodup {fuel offset rounds : ℕ} (small : offset < 2 ^ 64) (ends : stop = word (offset + rounds * size)) :
    (offsetsUpTo size stop fuel offset).Nodup := by
  -- the offsets of a chunk are different words even where they wrap around
  induction fuel generalizing offset rounds with
  | zero => exact .nil
  | succ fuel ih =>
    simp only [offsetsUpTo]
    split
    · rename_i inside
      have next : word (offset + size) < 2 ^ 64 := Nat.mod_lt _ (by decide)
      cases rounds with
      | zero =>
        rw [Nat.zero_mul, Nat.add_zero, word_of_lt small] at ends
        omega
      | succ rounds =>
        rw [← word_next] at ends
        refine List.nodup_cons.2 ⟨fun again => ?_, ih next ends⟩
        obtain ⟨k, same, before⟩ := mem_offsetsUpTo next again
        -- the offsets recur after k + 1 steps, so the end is one of those the loop has seen
        have period : (k + 1) * size ≡ 0 [MOD 2 ^ 64] := by
          have eq : offset + (k + 1) * size ≡ offset + 0 [MOD 2 ^ 64] := by
            rw [word_next] at same
            rw [Nat.add_zero]
            exact same.symm.trans (word_of_lt small).symm
          exact Nat.ModEq.add_left_cancel' offset eq
        have back : stop = word (word (offset + size) + rounds % (k + 1) * size) := by
          have parts : rounds * size = rounds / (k + 1) * ((k + 1) * size) + rounds % (k + 1) * size := by
            rw [← Nat.mul_assoc, ← Nat.add_mul, Nat.div_add_mod']
          rw [ends, parts]
          have multiple : rounds / (k + 1) * ((k + 1) * size) ≡ 0 [MOD 2 ^ 64] := by
            simpa using period.mul_left (rounds / (k + 1))
          have moved := ((multiple.add_right (rounds % (k + 1) * size)).add_left (word (offset + size)))
          rwa [Nat.zero_add] at moved
        have seen := before (rounds % (k + 1)) (Nat.le_of_lt_succ (Nat.mod_lt _ (Nat.succ_pos k)))
        omega
    · exact .nil

theorem getOffsetsFromChunk_nodup (start slabs : ℕ) : (getOffsetsFromChunk size start (slabs * size)).Nodup := by
  by_cases small : start < 2 ^ 64
  · exact offsetsUpTo_nodup small rfl
  · have beyond : ¬ start < word (start + slabs * size) := fun below => small (below.trans (Nat.mod_lt _ (by decide)))
    rw [getOffsetsFromChunk, show (2 : ℕ) ^ 64 = (2 ^ 64 - 1) + 1 from rfl, offsetsUpTo, if_neg beyond]
    exact .nil

variable {start slabs : ℕ} (small : start + slabs * size < 2 ^ 64)
include small

theorem getOffsetsFromChunk_inside {x : ℕ} (listed : x ∈ getOffsetsFromChunk size start (slabs * size)) :
    start ≤ x ∧ x + size ≤ start + slabs * size := by
  rw [getOffsetsFromChunk, word_of_lt small] at listed
  exact offsetsUpTo_inside small rfl listed

theorem getOffsetsFromChunk_apart : (carve size (getOffsetsFromChunk size start (slabs * size))).Pairwise Region.Apart := by
  rw [getOffsetsFromChunk, word_of_lt small]
  exact offsetsUpTo_apart small rfl

end Carving

/-! ## What a thread may do -/

/-- The product that `get_slabs_nolock` is about to compute fits into its type. -/
def Products : (o : Act) → o.Reply → Prop
  | .construct _ size numSlabs, _ => numSlabs * size < 2 ^ 64
  | .readNumSlabs _ size, numSlabs => @HMul.hMul ℕ ℕ ℕ _ numSlabs size < 2 ^ 64
  | _, _ => True

def narrow : Condition signature ℕ Heap := fun _ o r _ => Products o r

/-- The allocators as long as no product wraps around. -/
noncomputable def narrowAllocators (servers : ℕ) : System signature ℕ ℕ Call (Option ℕ) Heap := (allocators servers).guarded narrow

/-- The regions a thread holds before and after an operation. -/
inductive Permits (servers : ℕ) (held : List Region) : (o : Act) → o.Reply → List Region → Prop where
  | find {client size : ℕ} {found : Bool} : Permits servers held (.find client size) found held
  | construct {client size numSlabs : ℕ} : Permits servers held (.construct client size numSlabs) () held
  | dequeued {client size offset : ℕ} :
      Permits servers held (.tryDequeue client size) (some offset) ((size, offset) :: held)
  | missed {client size : ℕ} : Permits servers held (.tryDequeue client size) none held
  | enqueue {client size offset : ℕ} {rest : List Region} :
      held = (size, offset) :: rest → Permits servers held (.enqueue client size offset) () rest
  | lockGrowth {client size : ℕ} : Permits servers held (.lockGrowth client size) () held
  | unlockGrowth {client size : ℕ} : Permits servers held (.unlockGrowth client size) () held
  | readNumSlabs {client size numSlabs : ℕ} : Permits servers held (.readNumSlabs client size) numSlabs held
  | addNumSlabs {client size added : ℕ} : Permits servers held (.addNumSlabs client size added) () held
  | pickServer {server : ℕ} : Permits servers held .pickServer server held
  | serverAllocate {server slabs size offset : ℕ} : server < servers → slabs * size < 2 ^ 64 →
      Permits servers held (.serverAllocate server (slabs * size)) offset
        (carve size (getOffsetsFromChunk size (globalAddress server offset) (slabs * size)) ++ held)

def Call.holds : Call → List Region
  | .free _ size offset => [(size, offset)]
  | _ => []

/-- What a thread holds when its call returns; `allocate` hands it on to its caller. -/
def Call.hands : Call → Option ℕ → List Region → Prop
  | .allocate _ size, some offset, held => (size, offset) ∈ held
  | _, _, _ => True

def machine (servers : ℕ) : Machine signature ℕ Call (Option ℕ) Heap (List Region) where
  idle := []
  begins _ call _ _ held := held = call.holds
  permits t gs _ o r _ held := Permits servers (gs t) o r held
  ends _ call offset held := call.hands offset held

section Conformance
variable {servers : ℕ} {inv : (ℕ → List Region) → Heap → Prop} {t : ℕ} {A : Type}

/-- Shorthand for a program that follows the machine. -/
abbrev Follows (servers : ℕ) (inv : (ℕ → List Region) → Heap → Prop) (t : ℕ) (post : A → List Region → Prop)
    (p : Code A) (held : List Region) : Prop :=
  Interleaving.Follows (machine servers).permits (narrowAllocators servers).exec inv t post p held

theorem follows_act {o : Act} {next : o.Reply → Code A} {post : A → List Region → Prop} {held : List Region}
    (each : ∀ c r h h', Heap.exec servers t o c h = some (r, h') → Products o r →
      ∃ rest, Permits servers held o r rest ∧ Follows servers inv t post (next r) rest) :
    Follows servers inv t post (Program.perform (I := signature) o next) held := by
  intro gs h _ own c r h' performed
  obtain ⟨performed, product⟩ := System.guarded_exec.1 performed
  obtain ⟨rest, permitted, later⟩ := each c r h h' performed product
  rw [← own] at permitted
  exact ⟨rest, permitted, later⟩

theorem follows_enqueueAll {client size : ℕ} {offsets : List ℕ} {held : List Region} :
    Follows servers inv t (fun _ rest => rest = held) (enqueueAll client size offsets) (carve size offsets ++ held) := by
  induction offsets with
  | nil => rfl
  | cons offset rest ih => exact follows_act fun _ _ _ _ _ _ => ⟨_, .enqueue rfl, ih⟩

theorem follows_getSlabsNolock {client size slabsToAdd : ℕ} {held : List Region} (product : slabsToAdd * size < 2 ^ 64) :
    Follows servers inv t (fun _ rest => rest = held) (getSlabsNolock client size slabsToAdd) held := by
  unfold getSlabsNolock
  rw [word_of_lt product]
  refine follows_act fun c server h h' picked _ => ⟨held, .pickServer, ?_⟩
  have few : @LT.lt ℕ _ server servers := by
    simp only [Heap.exec] at picked
    split at picked
    · cases picked
    · cases picked
      exact Nat.mod_lt _ (Nat.pos_of_ne_zero ‹_›)
  refine follows_act fun _ offset _ _ _ _ => ⟨_, .serverAllocate few product, ?_⟩
  show Follows servers inv t _ (enqueueAll client size _ >>= _) _
  refine follows_bind (follows_mono follows_enqueueAll ?_)
  rintro _ _ rfl
  exact follows_act fun _ _ _ _ _ _ => ⟨_, .addNumSlabs, rfl⟩

theorem follows_found {client size offset : ℕ} {held : List Region} :
    Follows servers inv t (fun found held => ∀ offset, found = some offset → (size, offset) ∈ held)
      (do perform (.unlockGrowth client size); pure (some offset)) ((size, offset) :: held) := by
  refine follows_act fun _ _ _ _ _ _ => ⟨_, .unlockGrowth, ?_⟩
  rintro _ ⟨⟩
  exact List.mem_cons_self ..

theorem follows_slabAllocate {client size : ℕ} : Follows servers inv t
    (fun found held => ∀ offset, found = some offset → (size, offset) ∈ held) (slabAllocate client size) [] := by
  refine follows_act fun _ first _ _ _ _ => ?_
  cases first with
  | some offset =>
    refine ⟨_, .dequeued, ?_⟩
    rintro _ ⟨⟩
    exact List.mem_cons_self ..
  | none =>
    refine ⟨[], .missed, ?_⟩
    refine follows_act fun _ _ _ _ _ _ => ⟨[], .lockGrowth, ?_⟩
    refine follows_act fun _ second _ _ _ _ => ?_
    cases second with
    | some offset => exact ⟨_, .dequeued, follows_found⟩
    | none =>
      refine ⟨[], .missed, ?_⟩
      refine follows_act fun _ numSlabs _ _ _ product => ⟨[], .readNumSlabs, ?_⟩
      show Follows servers inv t _ (getSlabsNolock client size numSlabs >>= _) _
      refine follows_bind (follows_mono (follows_getSlabsNolock product) ?_)
      rintro _ _ rfl
      refine follows_act fun _ third _ _ _ _ => ?_
      cases third with
      | some offset => exact ⟨_, .dequeued, follows_found⟩
      | none =>
        refine ⟨[], .missed, follows_act fun _ _ _ _ _ _ => ⟨[], .unlockGrowth, ?_⟩⟩
        rintro _ ⟨⟩

theorem follows_construct {client numSlabs : ℕ} {sizes : List ℕ} :
    Follows servers inv t (fun _ held => held = []) (construct client numSlabs sizes) [] := by
  induction sizes with
  | nil => rfl
  | cons size sizes ih =>
    refine follows_act fun _ _ _ _ _ product => ⟨[], .construct, ?_⟩
    show Follows servers inv t _ (getSlabsNolock client size numSlabs >>= _) _
    refine follows_bind (follows_mono (follows_getSlabsNolock product) ?_)
    rintro _ _ rfl
    exact ih

theorem follows_body (call : Call) :
    Follows servers inv t (fun offset held => call.hands offset held) call.body call.holds := by
  cases call with
  | construct client sizes numChunks =>
    refine follows_bind (follows_mono follows_construct ?_)
    intro _ _ _
    trivial
  | allocate client size =>
    refine follows_act fun _ found _ _ _ _ => ⟨[], .find, ?_⟩
    cases found with
    | false => trivial
    | true =>
      refine follows_mono follows_slabAllocate ?_
      intro found held listed
      cases found with
      | none => trivial
      | some offset => exact listed offset rfl
  | free client size offset =>
    refine follows_act fun _ found _ _ _ _ => ⟨[(size, offset)], .find, ?_⟩
    cases found with
    | false => trivial
    | true => exact follows_act fun _ _ _ _ _ _ => ⟨[], .enqueue rfl, trivial⟩

theorem implements_machine : Implements (narrowAllocators servers) (machine servers) inv := by
  intro gs h t call _ _ _
  exact ⟨call.holds, rfl, follows_body call⟩

end Conformance

/-! ## Where regions lie -/

inductive Place where
  | listed (client size : ℕ)
  | live
  | held (t : ℕ)
  deriving DecidableEq

def Heap.listed (h : Heap) (client size : ℕ) : List ℕ := (h.slabs (client, size)).elim [] SlabAllocator.freeList

def ledger (gs : ℕ → List Region) (h : Heap) : Ledger Place Region
  | .listed client size => carve size (h.listed client size)
  | .live => h.live
  | .held t => gs t

section Bookkeeping
variable {gs : ℕ → List Region} {h h' : Heap}

theorem Heap.modifySlab_eq_some {client size : ℕ} {f : SlabAllocator → SlabAllocator} {r : Unit}
    (performed : (h.modifySlab client size f).map ((), ·) = some (r, h')) :
    ∃ slab, h.slabs (client, size) = some slab ∧ h' = h.setSlab client size (f slab) := by
  obtain ⟨after, modified, eq⟩ := Option.map_eq_some_iff.mp performed
  obtain ⟨slab, found, set⟩ := Option.map_eq_some_iff.mp modified
  cases eq
  exact ⟨slab, found, set.symm⟩

theorem ledger_setHeld (t : ℕ) (held : List Region) :
    ledger (Function.update gs t held) h = Function.update (ledger gs h) (.held t) held := by
  funext p
  cases p with
  | held u => by_cases same : u = t <;> simp [ledger, same]
  | listed client size => simp [ledger]
  | live => simp [ledger]

theorem ledger_setSlab (client size : ℕ) (slab : SlabAllocator) : ledger gs (h.setSlab client size slab) =
    Function.update (ledger gs h) (.listed client size) (carve size slab.freeList) := by
  funext p
  cases p with
  | held u => simp [ledger]
  | listed client' size' =>
    by_cases same : (client', size') = (client, size)
    · cases same
      simp [ledger, Heap.listed, Heap.setSlab]
    · have other : Place.listed client' size' ≠ .listed client size := by
        rintro ⟨⟩
        exact same rfl
      rw [Function.update_of_ne other]
      simp only [ledger, Heap.listed, Heap.setSlab, Function.update_of_ne same]
  | live => simp [ledger, Heap.setSlab]

theorem ledger_setLive (live : List Region) :
    ledger gs { h with live := live } = Function.update (ledger gs h) .live live := by
  funext p
  cases p with
  | held u => simp [ledger]
  | listed client size => simp [ledger, Heap.listed]
  | live => simp [ledger]

theorem shifts_sameList {client size : ℕ} {slab slab' : SlabAllocator} (found : h.slabs (client, size) = some slab)
    (same : slab'.freeList = slab.freeList) : Ledger.Shifts (ledger gs h) (ledger gs (h.setSlab client size slab')) := by
  have unchanged : ledger gs (h.setSlab client size slab') = ledger gs h := by
    rw [ledger_setSlab, same]
    apply Function.update_eq_self_iff.mpr
    simp [ledger, Heap.listed, found]
  rw [unchanged]
  exact .keep

end Bookkeeping

/-! ## What a step does to the ledger -/

section Shifts
variable {servers : ℕ} {gs : ℕ → List Region} {h h' : Heap} {t : ℕ}

theorem shifts_invoke {call : Call} (idle : gs t = []) (admitted : call.admitted h = true) :
    Ledger.Shifts (ledger gs h) (ledger (Function.update gs t call.holds) (call.invoked h)) := by
  have unchanged : Function.update gs t [] = gs := Function.update_eq_self_iff.mpr idle.symm
  cases call with
  | construct client sizes numChunks =>
    simp only [Call.holds, unchanged]
    exact .keep
  | allocate client size =>
    simp only [Call.holds, unchanged]
    exact .keep
  | free client size offset =>
    simp only [Call.admitted, Bool.and_eq_true, decide_eq_true_eq] at admitted
    have here : (ledger gs h .live).Perm ((size, offset) :: h.live.erase (size, offset)) := List.perm_cons_erase admitted.2
    have moved := Ledger.Shifts.move (q := .held t) (by simp) here
    have after : ledger gs (Call.invoked h (.free client size offset)) = Function.update (ledger gs h) .live
      (h.live.erase (size, offset)) :=
      ledger_setLive _
    rw [Call.holds, ledger_setHeld, after]
    have alone : ledger gs h (.held t) = [] := idle
    rwa [alone] at moved

theorem shifts_finish {call : Call} {offset : Option ℕ} (hands : call.hands offset (gs t)) :
    Ledger.Shifts (ledger gs h) (ledger (Function.update gs t []) (call.returned h offset)) := by
  have dropped : Ledger.Shifts (ledger gs h) (ledger (Function.update gs t []) h) := by
    rw [ledger_setHeld]
    exact .drop List.nil_subperm
  cases call with
  | construct client sizes numChunks => exact dropped
  | free client size offset => exact dropped
  | allocate client size =>
    cases offset with
    | none => exact dropped
    | some offset =>
      have here : (ledger gs h (.held t)).Perm ((size, offset) :: (gs t).erase (size, offset)) := List.perm_cons_erase hands
      refine (Ledger.Shifts.move (q := .live) (by simp) here).trans ?_
      -- what else the thread holds is lost with its call
      have lost := Ledger.Shifts.drop
        (L := Function.update (Function.update (ledger gs h) (.held t) ((gs t).erase (size, offset))) .live
        ((size, offset) :: ledger gs h .live)) (p := .held t) (List.nil_subperm)
      convert lost using 1
      rw [Function.update_comm (by simp), Function.update_idem, ← ledger_setHeld, Call.returned, ledger_setLive]
      rfl

theorem shifts_act {o : Act} {c : ℕ} {r : o.Reply} {held : List Region} (performed : Heap.exec servers t o c h = some (r, h'))
    (permitted : Permits servers (gs t) o r held) :
    (Ledger.Shifts (ledger gs h) (ledger (Function.update gs t held) h') ∧ h'.nextOffset = h.nextOffset) ∨
      ∃ server slabs size, server < servers ∧ slabs * size < 2 ^ 64 ∧ o = .serverAllocate server (slabs * size) ∧
        held = carve size (getOffsetsFromChunk size (globalAddress server (h.nextOffset server)) (slabs * size)) ++ gs t ∧
          h' = { h with nextOffset := Function.update h.nextOffset server (word (h.nextOffset server + slabs * size)) } := by
  -- an operation carves new regions from fresh memory, or it enters none
  have unchanged : Function.update gs t (gs t) = gs := Function.update_eq_self t gs
  cases permitted with
  | find =>
    cases performed
    rw [unchanged]
    exact .inl ⟨.keep, rfl⟩
  | construct =>
    cases performed
    rw [unchanged, ledger_setSlab]
    exact .inl ⟨.drop List.nil_subperm, rfl⟩
  | @dequeued client size offset =>
    simp only [Heap.exec] at performed
    split at performed
    · cases performed
    · rename_i slab found
      split at performed
      · cases performed
      · rename_i got
        cases performed
        have here : (ledger gs h (.listed client size)).Perm ((size, offset) :: carve size (slab.freeList.erase offset)) := by
          simpa [ledger, Heap.listed, found, carve] using
            (List.perm_cons_erase (List.mem_of_getElem? got)).map fun offset => (size, offset)
        rw [ledger_setHeld, ledger_setSlab]
        exact .inl ⟨.move (by simp) here, rfl⟩
  | missed =>
    simp only [Heap.exec] at performed
    rw [unchanged]
    split at performed
    · cases performed
    · split at performed
      · cases performed
        exact .inl ⟨.keep, rfl⟩
      · cases performed
  | @enqueue client size offset rest own =>
    obtain ⟨slab, found, rfl⟩ := Heap.modifySlab_eq_some performed
    have here : (ledger gs h (.held t)).Perm ((size, offset) :: held) := .of_eq own
    have moved := Ledger.Shifts.move (q := .listed client size) (by simp) here
    refine .inl ⟨?_, rfl⟩
    rw [ledger_setSlab, ledger_setHeld]
    simpa [ledger, Heap.listed, found, carve] using moved
  | lockGrowth =>
    simp only [Heap.exec] at performed
    rw [unchanged]
    split at performed
    · cases performed
    · rename_i slab found
      split at performed
      · cases performed
      · cases performed
        exact .inl ⟨shifts_sameList found rfl, rfl⟩
  | unlockGrowth =>
    obtain ⟨slab, found, rfl⟩ := Heap.modifySlab_eq_some performed
    rw [unchanged]
    exact .inl ⟨shifts_sameList found rfl, rfl⟩
  | readNumSlabs =>
    obtain ⟨slab, found, eq⟩ := Option.map_eq_some_iff.mp performed
    cases eq
    rw [unchanged]
    exact .inl ⟨.keep, rfl⟩
  | addNumSlabs =>
    obtain ⟨slab, found, rfl⟩ := Heap.modifySlab_eq_some performed
    rw [unchanged]
    exact .inl ⟨shifts_sameList found rfl, rfl⟩
  | pickServer =>
    simp only [Heap.exec] at performed
    split at performed
    · cases performed
    · cases performed
      rw [unchanged]
      exact .inl ⟨.keep, rfl⟩
  | @serverAllocate server slabs size offset chosen product =>
    cases performed
    exact .inr ⟨server, slabs, size, chosen, product, rfl, rfl, rfl⟩

end Shifts

/-! ## The invariant -/

/-- The region lies in memory some server has handed out. -/
def Region.Within (servers : ℕ) (h : Heap) (x : Region) : Prop :=
  ∃ server < servers, server * 2 ^ 42 ≤ x.2 ∧ x.2 + x.1 ≤ server * 2 ^ 42 + h.nextOffset server

structure Sound (servers : ℕ) (gs : ℕ → List Region) (h : Heap) : Prop where
  apart : Ledger.Apart Region.Apart (ledger gs h)
  within : ∀ x, Ledger.Lists (ledger gs h) x → x.Within servers h

def Heap.Below (h : Heap) : Prop := ∀ server, h.nextOffset server < 2 ^ 42

section Steps
variable {servers : ℕ} {gs gs' : ℕ → List Region} {h h' : Heap}

theorem Sound.shifts (sound : Sound servers gs h) (offsets : h'.nextOffset = h.nextOffset)
    (shifts : Ledger.Shifts (ledger gs h) (ledger gs' h')) : Sound servers gs' h' := by
  constructor
  · exact sound.apart.shifts Region.apart_symm shifts
  · intro x listed
    have before := sound.within x (shifts.lists listed)
    simpa only [Region.Within, offsets] using before

/-- Fresh memory of a server lies above everything it handed out, and within its own part of the address space. -/
theorem Sound.carved (sound : Sound servers gs h) (few : servers ≤ 256) {server slabs size t : ℕ}
    (chosen : server < servers) (below : Heap.Below { h with
      nextOffset := Function.update h.nextOffset server (h.nextOffset server + slabs * size) })
    (before : h.Below) :
    Sound servers (Function.update gs t
      (carve size (getOffsetsFromChunk size (globalAddress server (h.nextOffset server)) (slabs * size)) ++ gs t))
      { h with nextOffset := Function.update h.nextOffset server (h.nextOffset server + slabs * size) } := by
  have after := below server
  simp only [Function.update_self] at after
  have start := globalAddress_eq (show server < 256 by omega) (before server)
  have small : globalAddress server (h.nextOffset server) + slabs * size < 2 ^ 64 := by
    rw [start]
    omega
  have fresh : ∀ x ∈ carve size (getOffsetsFromChunk size (globalAddress server (h.nextOffset server)) (slabs * size)),
      server * 2 ^ 42 + h.nextOffset server ≤ x.2 ∧
        x.2 + x.1 ≤ server * 2 ^ 42 + (h.nextOffset server + slabs * size) := by
    intro x new
    obtain ⟨offset, listed, rfl⟩ := List.mem_map.mp new
    have inside := getOffsetsFromChunk_inside small listed
    rw [start] at inside
    exact ⟨inside.1, by omega⟩
  have away : ∀ x ∈ carve size (getOffsetsFromChunk size (globalAddress server (h.nextOffset server)) (slabs * size)),
      ∀ y, Ledger.Lists (ledger gs h) y → Region.Apart x y := by
    intro x new y listed
    obtain ⟨low, high⟩ := fresh x new
    obtain ⟨other, _, lower, upper⟩ := sound.within y listed
    have bound := before other
    rcases Nat.lt_trichotomy other server with less | same | more
    · right
      have : (other + 1) * 2 ^ 42 ≤ server * 2 ^ 42 := Nat.mul_le_mul_right _ less
      omega
    · subst same
      right
      omega
    · left
      have : (server + 1) * 2 ^ 42 ≤ other * 2 ^ 42 := Nat.mul_le_mul_right _ more
      omega
  have entered := sound.apart.enter Region.apart_symm (q := .held t) (getOffsetsFromChunk_apart small) away
  constructor
  · rw [ledger_setHeld]
    exact entered
  · intro x listed
    rw [ledger_setHeld] at listed
    rcases Ledger.lists_enter listed with new | old
    · obtain ⟨low, high⟩ := fresh x new
      refine ⟨server, chosen, Nat.le_trans (Nat.le_add_right _ _) low, ?_⟩
      simpa only [Function.update_self] using high
    · obtain ⟨other, chosen', lower, upper⟩ := sound.within x old
      refine ⟨other, chosen', lower, ?_⟩
      by_cases same : other = server
      · subst same
        simp only [Function.update_self]
        omega
      · simpa only [Function.update_of_ne same] using upper

end Steps

/-! ## Whole runs -/

/-- Regions are sound as long as no bump offset has left its server's part of the address space. -/
def inv (servers : ℕ) (gs : ℕ → List Region) (h : Heap) : Prop := h.Below → Sound servers gs h

section Runs
variable {servers : ℕ} {gs : ℕ → List Region} {h h' : Heap}

theorem inv_empty : inv servers (fun _ => []) .empty := by
  intro _
  have nothing : ledger (fun _ => []) .empty = fun _ => [] := by
    funext p
    cases p <;> rfl
  constructor
  · rw [nothing]
    exact .of_empty
  · rintro x ⟨p, listed⟩
    rw [nothing] at listed
    simp at listed

theorem inv_shifts {gs' : ℕ → List Region} (sound : inv servers gs h) (offsets : h'.nextOffset = h.nextOffset)
    (shifts : Ledger.Shifts (ledger gs h) (ledger gs' h')) : inv servers gs' h' := by
  intro below
  have before : h.Below := by
    intro server
    rw [← offsets]
    exact below server
  exact (sound before).shifts offsets shifts

/-- The bump offset of the server does not wrap around. -/
def Act.Bumps (h : Heap) : Act → Prop
  | .serverAllocate server size => h.nextOffset server + size < 2 ^ 64
  | _ => True

theorem inv_act {t : ℕ} {o : Act} {c : ℕ} {r : o.Reply} {held : List Region} (few : servers ≤ 256)
    (sound : inv servers gs h) (performed : Heap.exec servers t o c h = some (r, h')) (bumps : o.Bumps h)
    (permitted : Permits servers (gs t) o r held) : inv servers (Function.update gs t held) h' := by
  rcases shifts_act performed permitted with ⟨shifts, offsets⟩ | ⟨server, slabs, size, chosen, -, rfl, rfl, rfl⟩
  · exact inv_shifts sound offsets shifts
  · rw [word_of_lt bumps]
    intro below
    have before : h.Below := by
      intro other
      have bound := below other
      by_cases same : other = server
      · subst same
        simp only [Function.update_self] at bound
        omega
      · simpa only [Function.update_of_ne same] using bound
    exact (sound before).carved few chosen below before

/-- Neither a product nor a bump offset wraps around. -/
def unwrapped : Condition signature ℕ Heap := fun _ o r h => Products o r ∧ o.Bumps h

theorem preserves_inv (few : servers ≤ 256) :
    Preserves (narrowAllocators servers) (machine servers) (inv servers) unwrapped where
  invoke gs h t call held sound idle admitted begins := by
    cases begins
    have offsets : (call.invoked h).nextOffset = h.nextOffset := by cases call <;> rfl
    exact inv_shifts sound offsets (shifts_invoke idle admitted)
  act gs h t o c r h' held sound performed met permitted := inv_act few sound (System.guarded_exec.1 performed).1 met.2 permitted
  finish gs h t call offset sound hands := by
    have offsets : (call.returned h offset).nextOffset = h.nextOffset := by cases call <;> cases offset <;> rfl
    exact inv_shifts sound offsets (shifts_finish hands)
  env _ _ _ _ moved := moved.elim

end Runs

def Region.Holds (x : Region) (address : ℕ) : Prop := x.2 ≤ address ∧ address < x.2 + x.1

/-- In every run in which nothing wraps around, no address belongs to two live allocations, and each of them lies within
one server. -/
theorem live_allocations_disjoint {servers : ℕ} (few : servers ≤ 256) {P : Pool signature ℕ Call (Option ℕ) Heap}
    (run : Reaches (allocators servers) unwrapped (.start .empty) P) (below : ∀ server, P.shared.nextOffset server < 2 ^ 42) :
    P.shared.live.Pairwise (fun x y => ∀ address, ¬ (x.Holds address ∧ y.Holds address)) ∧
      ∀ x ∈ P.shared.live, ∃ server < servers, ∀ address, x.Holds address →
        (located address).1 = server ∧ (located address).2 < P.shared.nextOffset server := by
  obtain ⟨gs, explains⟩ := (explains_start inv_empty).reaches implements_machine (preserves_inv few)
    (reaches_guarded (fun _ _ _ _ met => met.1) run)
  have sound := explains.holds below
  constructor
  · refine (sound.apart.within .live).imp ?_
    rintro x y apart address ⟨⟨low, high⟩, low', high'⟩
    rcases apart with less | more <;> omega
  · intro x live
    obtain ⟨server, chosen, lower, upper⟩ := sound.within x ⟨.live, live⟩
    refine ⟨server, chosen, ?_⟩
    rintro address ⟨low, high⟩
    have bound := below server
    obtain ⟨offset, rfl⟩ := Nat.exists_eq_add_of_le (lower.trans low)
    have small : offset < P.shared.nextOffset server := by omega
    rw [located_eq (by omega) (by omega)]
    exact ⟨rfl, small⟩

def unwrappedly : Test signature ℕ Heap := fun _ o r h =>
  (match o, r with
    | .construct _ size numSlabs, _ => decide (numSlabs * size < 2 ^ 64)
    | .readNumSlabs _ size, numSlabs => decide (@HMul.hMul ℕ ℕ ℕ _ numSlabs size < 2 ^ 64)
    | _, _ => true) &&
  match o with
    | .serverAllocate server size => decide (h.nextOffset server + size < 2 ^ 64)
    | _ => true

theorem unwrapped_of_unwrappedly (t : ℕ) (o : Act) (r : o.Reply) (h : Heap) (met : unwrappedly t o r h = true) :
    unwrapped t o r h := by
  cases o with
  | construct client size numSlabs => simpa [unwrapped, unwrappedly, Products, Act.Bumps] using met
  | readNumSlabs client size => simpa [unwrapped, unwrappedly, Products, Act.Bumps] using met
  | serverAllocate server size => simpa [unwrapped, unwrappedly, Products, Act.Bumps] using met
  | _ => exact ⟨trivial, trivial⟩

/-- One client over two servers: its second allocation grows the slab. -/
def growing : Pool signature ℕ Call (Option ℕ) Heap :=
  (Pool.start .empty).drive (allocators 2) (fun h _ call => call.admitted h) unwrappedly
    (List.flatten [Move.whole 0 (.construct 0 [8] 1) 0 5, Move.whole 0 (.allocate 0 8) 0 2, Move.whole 1 (.allocate 0 8) 0 12])

theorem live_allocations_disjoint_growing :
    growing.shared.live = [(8, 2 ^ 42 + 8), (8, 0)] ∧
      growing.shared.live.Pairwise (fun x y => ∀ address, ¬ (x.Holds address ∧ y.Holds address)) ∧
      ∀ x ∈ growing.shared.live, ∃ server < 2, ∀ address, x.Holds address →
        (located address).1 = server ∧ (located address).2 < growing.shared.nextOffset server := by
  have run : Reaches (allocators 2) unwrapped (.start .empty) growing :=
    reaches_drive (fun _ _ _ ok => ok) unwrapped_of_unwrappedly _ _
  refine ⟨by rfl, live_allocations_disjoint (by decide) run ?_⟩
  have offsets : growing.shared.nextOffset = Function.update (Function.update (fun _ => 0) 0 8) 1 16 := by rfl
  intro server
  rw [offsets]
  simp only [Function.update_apply]
  split
  · omega
  · split <;> omega

/-- The bump offsets stay below 2^42 on the way. -/
def stayingBelow (servers : ℕ) : Test signature ℕ Heap := fun _ _ _ h =>
  decide (∀ server < servers, h.nextOffset server < 2 ^ 42)

/-- A chunk of 2^64 - 8 bytes takes the bump offset back to 0. -/
def bumpedBack : Pool signature ℕ Call (Option ℕ) Heap :=
  (Pool.start .empty).drive (allocators 1) (fun h _ call => call.admitted h) (stayingBelow 1)
    (List.flatten [Move.whole 0 (.construct 0 [8, 2 ^ 64 - 8] 1) 0 9, Move.whole 0 (.construct 1 [8] 1) 0 5,
      Move.whole 0 (.allocate 0 8) 0 2, Move.whole 0 (.allocate 1 8) 0 2])

/-- Two clients are given the same eight bytes. -/
theorem live_allocations_overlap : ¬ ∀ servers ≤ 256, ∀ P : Pool signature ℕ Call (Option ℕ) Heap,
    Reaches (allocators servers) (fun _ _ _ h => ∀ server < servers, h.nextOffset server < 2 ^ 42) (.start .empty) P →
    (∀ server < servers, P.shared.nextOffset server < 2 ^ 42) →
    P.shared.live.Pairwise fun x y => ∀ address, ¬ (x.Holds address ∧ y.Holds address) := by
  intro claimed
  have run : Reaches (allocators 1) (fun _ _ _ h => ∀ server < 1, h.nextOffset server < 2 ^ 42) (.start .empty) bumpedBack :=
    reaches_drive (fun _ _ _ ok => ok) (fun _ _ _ _ met => of_decide_eq_true met) _ _
  have live : bumpedBack.shared.live = [(8, 0), (8, 0)] := by rfl
  have disjoint := claimed 1 (by decide) bumpedBack run (by decide +kernel)
  rw [live, List.pairwise_pair] at disjoint
  exact disjoint 0 ⟨⟨le_rfl, by decide⟩, le_rfl, by decide⟩

end Faunus.Allocation
