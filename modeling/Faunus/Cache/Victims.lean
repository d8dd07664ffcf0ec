import Mathlib.Algebra.BigOperators.Group.Finset.Basic
import Mathlib.Algebra.Order.BigOperators.Group.Finset
import Mathlib.Data.BitVec

/-! The choice of a victim.

A layer is drawn by the number of entries whose top layer it is, and a position below
that number. The list of the layer is then walked, which also links the entries that
reach further up: the entries behind that many others are not drawn in this layer.
-/

set_option autoImplicit false

namespace Faunus.Cache

inductive SkiplistNode (E : Type) where
  | head
  | node (e : E)
  | tail
  deriving DecidableEq

def SkiplistNode.entry {E : Type} : SkiplistNode E → Option E
  | .node e => some e
  | _ => none

structure Skiplist (E : Type) where
  next : ℕ → SkiplistNode E → SkiplistNode E
  layerEntries : ℕ → BitVec 32
  numEntries : BitVec 32
  topLayer : ℕ

namespace Skiplist

variable {E : Type}

/-- The loop over the layers that are left; a number that no layer reaches stands for layer 0. -/
def chooseLayer (s : Skiplist E) (r : BitVec 32) : ℕ → ℕ → BitVec 32 → ℕ
  | 0, _, _ => 0
  | left + 1, L, accum => if r < accum + s.layerEntries L then L else chooseLayer s r left (L + 1) (accum + s.layerEntries L)

def walk (s : Skiplist E) (lvl : ℕ) : ℕ → SkiplistNode E → SkiplistNode E
  | 0, x => x
  | idx + 1, x =>
    match s.next lvl x with
    | .tail => x
    | y => walk s lvl idx y

/-- With the two random numbers it draws; nothing is returned for a remainder by zero. -/
def pickVictimSample (s : Skiplist E) (draw draw' : BitVec 32) : Option (Option E) :=
  if s.numEntries = 0 then some none
  else
    let lvl := s.chooseLayer (draw % s.numEntries) (s.topLayer + 1) 0 0
    if s.layerEntries lvl = 0 then none
    else some (s.next lvl (s.walk lvl (draw' % s.layerEntries lvl).toNat .head)).entry

def Links (s : Skiplist E) (lvl : ℕ) : SkiplistNode E → List E → Prop
  | x, [] => s.next lvl x = .tail
  | x, e :: rest => s.next lvl x = .node e ∧ Links s lvl (.node e) rest

/-- What the skiplist maintains. -/
structure Maintains {Key : Type} [LinearOrder Key] (s : Skiplist E) (key : E → Key) (height : E → ℕ) (entries : List E) : Prop where
  ordered : entries.Pairwise (key · < key ·)
  topped : ∀ e ∈ entries, height e ≤ s.topLayer
  counted : ∀ L, (s.layerEntries L).toNat = entries.countP (height · = L)
  summed : s.numEntries.toNat = ∑ L ∈ Finset.range (s.topLayer + 1), (s.layerEntries L).toNat
  linked : ∀ L, s.Links L .head (entries.filter (L ≤ height ·))

/-- Some draws return the entry, and none divides by zero. -/
structure Evictable (s : Skiplist E) (e : E) : Prop where
  drawn : ∃ draw draw', s.pickVictimSample draw draw' = some (some e)
  defined : ∀ draw draw', s.pickVictimSample draw draw' ≠ none

/-! ## The walk -/

theorem next_walk {s : Skiplist E} {lvl : ℕ} {x : SkiplistNode E} {list : List E} (links : s.Links lvl x list) (idx : ℕ) :
    s.next lvl (s.walk lvl idx x) = (list[idx]?).elim .tail .node := by
  induction idx generalizing x list with
  | zero =>
    cases list with
    | nil => exact links
    | cons e rest => exact links.1
  | succ idx ih =>
    cases list with
    | nil =>
      have last : s.next lvl x = .tail := links
      simp only [walk, last]
      rfl
    | cons e rest =>
      have here : s.next lvl x = .node e := links.1
      simp only [walk, here]
      exact ih links.2

theorem entry_elim (found : Option E) : (found.elim .tail .node : SkiplistNode E).entry = found := by
  cases found <;> rfl

/-! ## The choice of a layer -/

/-- The entries whose top layer lies below a layer. -/
def below (s : Skiplist E) (L : ℕ) : ℕ := ∑ l ∈ Finset.range L, (s.layerEntries l).toNat

theorem below_succ (s : Skiplist E) (L : ℕ) : s.below (L + 1) = s.below L + (s.layerEntries L).toNat := Finset.sum_range_succ ..

theorem below_mono (s : Skiplist E) {L L' : ℕ} (le : L ≤ L') : s.below L ≤ s.below L' :=
  Finset.sum_le_sum_of_subset (Finset.range_mono le)

theorem chooseLayer_spec {s : Skiplist E} {r accum : BitVec 32} {left L : ℕ} (start : accum.toNat = s.below L)
    (low : s.below L ≤ r.toNat) (high : r.toNat < s.below (L + left)) (fits : s.below (L + left) < 2 ^ 32) :
    s.below (s.chooseLayer r left L accum) ≤ r.toNat ∧ r.toNat < s.below (s.chooseLayer r left L accum + 1) := by
  induction left generalizing L accum with
  | zero => exact absurd high (not_lt.2 low)
  | succ left ih =>
    have bound : s.below (L + 1) < 2 ^ 32 := lt_of_le_of_lt (s.below_mono (by omega)) fits
    have next : (accum + s.layerEntries L).toNat = s.below (L + 1) := by
      rw [BitVec.toNat_add, start, ← below_succ, Nat.mod_eq_of_lt bound]
    unfold chooseLayer
    split_ifs with here
    · rw [BitVec.lt_def, next] at here
      exact ⟨low, here⟩
    · rw [BitVec.lt_def, next, not_lt] at here
      have shift : L + 1 + left = L + (left + 1) := by omega
      exact ih next here (shift ▸ high) (shift ▸ fits)

theorem eq_of_below {s : Skiplist E} {n L L' : ℕ} (low : s.below L ≤ n) (high : n < s.below (L + 1)) (low' : s.below L' ≤ n)
    (high' : n < s.below (L' + 1)) : L = L' := by
  rcases Nat.lt_trichotomy L L' with less | same | more
  · have := s.below_mono (by omega : L + 1 ≤ L')
    omega
  · exact same
  · have := s.below_mono (by omega : L' + 1 ≤ L)
    omega

section
variable {Key : Type} [LinearOrder Key] {s : Skiplist E} {key : E → Key} {height : E → ℕ} {entries : List E}
  (ok : s.Maintains key height entries)
include ok

theorem Maintains.chosen {r : BitVec 32} (inside : r.toNat < s.numEntries.toNat) :
    s.below (s.chooseLayer r (s.topLayer + 1) 0 0) ≤ r.toNat ∧ r.toNat < s.below (s.chooseLayer r (s.topLayer + 1) 0 0 + 1) := by
  have total : s.below (0 + (s.topLayer + 1)) = s.numEntries.toNat := by
    rw [ok.summed, Nat.zero_add]
    rfl
  refine chooseLayer_spec rfl (Nat.zero_le _) (total ▸ inside) ?_
  rw [total]
  exact s.numEntries.isLt

theorem Maintains.layerEntries_ne_zero {r : BitVec 32} (inside : r.toNat < s.numEntries.toNat) :
    s.layerEntries (s.chooseLayer r (s.topLayer + 1) 0 0) ≠ 0 := by
  obtain ⟨low, high⟩ := ok.chosen inside
  intro zero
  have none : (s.layerEntries (s.chooseLayer r (s.topLayer + 1) 0 0)).toNat = 0 := congrArg BitVec.toNat zero
  rw [below_succ] at high
  omega

theorem Maintains.pickVictimSample_eq (draw draw' : BitVec 32) (some : s.numEntries ≠ 0) :
    ∃ L idx, s.below L ≤ (draw % s.numEntries).toNat ∧ (draw % s.numEntries).toNat < s.below (L + 1) ∧
      idx = (draw' % s.layerEntries L).toNat ∧ idx < (s.layerEntries L).toNat ∧
      s.pickVictimSample draw draw' = Option.some (entries.filter (L ≤ height ·))[idx]? := by
  have inside : (draw % s.numEntries).toNat < s.numEntries.toNat := by
    rw [BitVec.toNat_umod]
    exact Nat.mod_lt _ (Nat.pos_of_ne_zero fun zero => some (BitVec.eq_of_toNat_eq zero))
  obtain ⟨low, high⟩ := ok.chosen inside
  have nonzero := ok.layerEntries_ne_zero inside
  refine ⟨_, _, low, high, rfl, ?_, ?_⟩
  · rw [BitVec.toNat_umod]
    exact Nat.mod_lt _ (Nat.pos_of_ne_zero fun zero => nonzero (BitVec.eq_of_toNat_eq zero))
  · rw [pickVictimSample, if_neg some]
    simp only [if_neg nonzero, next_walk (ok.linked _)]
    exact congrArg Option.some (entry_elim _)

theorem Maintains.defined (draw draw' : BitVec 32) : s.pickVictimSample draw draw' ≠ none := by
  by_cases empty : s.numEntries = 0
  · rw [pickVictimSample, if_pos empty]
    exact Option.some_ne_none _
  · obtain ⟨L, idx, -, -, -, -, picked⟩ := ok.pickVictimSample_eq draw draw' empty
    rw [picked]
    exact Option.some_ne_none _

theorem Maintains.drawn_iff (e : E) : (∃ draw draw', s.pickVictimSample draw draw' = Option.some (Option.some e)) ↔
    ∃ L idx, idx < (s.layerEntries L).toNat ∧ (entries.filter (L ≤ height ·))[idx]? = Option.some e := by
  -- an entry is drawn at a position of a layer that lies below the number of the layer
  constructor
  · rintro ⟨draw, draw', picked⟩
    by_cases empty : s.numEntries = 0
    · rw [pickVictimSample, if_pos empty] at picked
      cases picked
    · obtain ⟨L, idx, -, -, -, inside, picked'⟩ := ok.pickVictimSample_eq draw draw' empty
      rw [picked'] at picked
      exact ⟨L, idx, inside, Option.some.inj picked⟩
  · rintro ⟨L, idx, inside, found⟩
    have occupied : 0 < entries.countP (height · = L) := by
      rw [← ok.counted]
      omega
    obtain ⟨other, member, same⟩ := List.countP_pos_iff.1 occupied
    have reached : L ≤ s.topLayer := of_decide_eq_true same ▸ ok.topped other member
    have total : s.below (L + 1) ≤ s.numEntries.toNat := by
      rw [ok.summed]
      exact s.below_mono (by omega)
    rw [below_succ] at total
    have wide := s.numEntries.isLt
    have narrow := (s.layerEntries L).isLt
    have empty : s.numEntries ≠ 0 := by
      intro zero
      have none : s.numEntries.toNat = 0 := congrArg BitVec.toNat zero
      omega
    have first : (BitVec.ofNat 32 (s.below L) % s.numEntries).toNat = s.below L := by
      rw [BitVec.toNat_umod, BitVec.toNat_ofNat, Nat.mod_eq_of_lt (by omega), Nat.mod_eq_of_lt (by omega)]
    have second : (BitVec.ofNat 32 idx % s.layerEntries L).toNat = idx := by
      rw [BitVec.toNat_umod, BitVec.toNat_ofNat, Nat.mod_eq_of_lt (by omega : idx < 2 ^ 32), Nat.mod_eq_of_lt inside]
    obtain ⟨L', idx', low, high, here, -, picked⟩ :=
      ok.pickVictimSample_eq (.ofNat 32 (s.below L)) (.ofNat 32 idx) empty
    rw [first] at low high
    have layer : L' = L := eq_of_below low high le_rfl (by rw [below_succ]; omega)
    subst layer
    rw [second] at here
    rw [here, found] at picked
    exact ⟨_, _, picked⟩

end

theorem position_eq {Key : Type} [LinearOrder Key] {key : E → Key} {list : List E} (ordered : list.Pairwise (key · < key ·))
    {idx : ℕ} {e : E}
    (found : list[idx]? = some e) : idx = list.countP (key · < key e) := by
  -- the position of an entry in a sorted list is the number of smaller ones
  induction list generalizing idx with
  | nil => cases found
  | cons first rest ih =>
    obtain ⟨before, ordered⟩ := List.pairwise_cons.1 ordered
    cases idx with
    | zero =>
      cases found
      refine (List.countP_eq_zero.2 fun other member => ?_).symm
      rw [decide_eq_true_eq, not_lt]
      rcases List.mem_cons.1 member with rfl | later
      · exact le_rfl
      · exact (before other later).le
    | succ idx =>
      have later : rest[idx]? = some e := found
      rw [List.countP_cons_of_pos (by simpa using before e (List.mem_of_getElem? later)), ← ih ordered later]

/-- An entry can be evicted if and only if, in some layer it reaches, fewer entries lie before it than end there. -/
theorem evictable_iff {Key : Type} [LinearOrder Key] {s : Skiplist E} {key : E → Key} {height : E → ℕ} {entries : List E}
    (ok : s.Maintains key height entries) {e : E} (cached : e ∈ entries) :
    s.Evictable e ↔
      ∃ L ≤ height e, entries.countP (fun other => L ≤ height other ∧ key other < key e) < entries.countP (height · = L) := by
  have position : ∀ L idx, (entries.filter (L ≤ height ·))[idx]? = some e →
      idx = entries.countP (fun other => L ≤ height other ∧ key other < key e) := by
    intro L idx found
    rw [position_eq (ok.ordered.filter _) found, List.countP_filter]
    refine List.countP_congr fun other _ => ?_
    simp [and_comm]
  constructor
  · intro evictable
    obtain ⟨L, idx, inside, found⟩ := (ok.drawn_iff e).1 evictable.drawn
    have reaches := (List.mem_filter.1 (List.mem_of_getElem? found)).2
    refine ⟨L, of_decide_eq_true reaches, ?_⟩
    rwa [← position L idx found, ← ok.counted]
  · rintro ⟨L, reaches, inside⟩
    refine ⟨(ok.drawn_iff e).2 ?_, ok.defined⟩
    have listed : e ∈ entries.filter (L ≤ height ·) := List.mem_filter.2 ⟨cached, decide_eq_true reaches⟩
    obtain ⟨idx, found⟩ := List.mem_iff_getElem?.1 listed
    rw [← position L idx found, ← ok.counted] at inside
    exact ⟨L, idx, inside, found⟩

/-- Two entries, of which the first one reaches layer 1. -/
def tallFirst : Skiplist ℕ where
  next
    | 0, .head => .node 0
    | 0, .node 0 => .node 1
    | 1, .head => .node 0
    | _, _ => .tail
  layerEntries L := if L < 2 then 1 else 0
  numEntries := 2
  topLayer := 1

def tallFirstHeight (e : ℕ) : ℕ := if e = 0 then 1 else 0

theorem maintains_tallFirst : tallFirst.Maintains id tallFirstHeight [0, 1] where
  ordered := by decide
  topped := by decide
  counted L := by
    match L with
    | 0 => decide
    | 1 => decide
    | L + 2 => rfl
  summed := by decide
  linked L := by
    match L with
    | 0 => exact ⟨rfl, rfl, rfl⟩
    | 1 => exact ⟨rfl, rfl⟩
    | L + 2 => rfl

theorem evictable_iff_tallFirst : 0 ∈ [0, 1] ∧ tallFirst.Evictable 0 :=
  ⟨by decide, (evictable_iff maintains_tallFirst (by decide)).2 ⟨0, by decide, by decide⟩⟩

/-- The entry behind the one that reaches layer 1 is never drawn. -/
theorem evictable_fails_second : ¬ ∀ (s : Skiplist ℕ) (height : ℕ → ℕ) (entries : List ℕ), s.Maintains id height entries →
    ∀ e ∈ entries, s.Evictable e := by
  intro claimed
  have evictable := claimed tallFirst tallFirstHeight [0, 1] maintains_tallFirst 1 (by decide)
  obtain ⟨L, idx, inside, found⟩ := (maintains_tallFirst.drawn_iff 1).1 evictable.drawn
  match L, idx with
  | 0, 0 => exact absurd found (by decide)
  | 0, idx + 1 => exact absurd inside (by simp [tallFirst])
  | 1, idx =>
    have only : idx = 0 := Nat.lt_one_iff.1 inside
    rw [only] at found
    exact absurd found (by decide)
  | L + 2, idx => exact absurd inside (Nat.not_lt_zero idx)

end Skiplist

end Faunus.Cache
