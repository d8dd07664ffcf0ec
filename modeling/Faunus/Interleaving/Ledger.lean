import Mathlib.Data.List.Perm.Subperm
import Mathlib.Data.List.Pairwise
import Mathlib.Logic.Function.Basic

/-! Ledgers of things that lie at places.

A ledger lists what lies at each place. Its things are apart when no two of them
collide, wherever they lie. Things move between places, are dropped, and new ones
are entered; each rule below is one such bookkeeping step.
-/

set_option autoImplicit false

namespace Interleaving

abbrev Ledger (Place Thing : Type) := Place → List Thing

variable {Place Thing : Type} {apart : Thing → Thing → Prop} {L L' : Ledger Place Thing}

structure Ledger.Apart (apart : Thing → Thing → Prop) (L : Ledger Place Thing) : Prop where
  within : ∀ p, (L p).Pairwise apart
  across : ∀ p q, p ≠ q → ∀ x ∈ L p, ∀ y ∈ L q, apart x y

/-- Something lies somewhere. -/
def Ledger.Lists (L : Ledger Place Thing) (x : Thing) : Prop := ∃ p, x ∈ L p

namespace Ledger

theorem Apart.of_empty : Apart apart (fun _ : Place => ([] : List Thing)) where
  within _ := .nil
  across := by simp

section
variable (symmetric : ∀ x y, apart x y → apart y x)
include symmetric

theorem Apart.of_subperm (ok : Apart apart L) (fewer : ∀ p, (L' p).Subperm (L p)) : Apart apart L' := by
  constructor
  · intro p
    obtain ⟨l, perm, sub⟩ := fewer p
    have sorted := (ok.within p).sublist sub
    exact (perm.pairwise_iff (fun {x y} => symmetric x y)).mp sorted
  · intro p q differ x inP y inQ
    exact ok.across p q differ x ((fewer p).subset inP) y ((fewer q).subset inQ)

variable [DecidableEq Place]

theorem Apart.enter (ok : Apart apart L) {q : Place} {xs : List Thing} (new : xs.Pairwise apart)
    (away : ∀ x ∈ xs, ∀ y, L.Lists y → apart x y) : Apart apart (Function.update L q (xs ++ L q)) := by
  -- enter new things at one place
  have member : ∀ p x, x ∈ Function.update L q (xs ++ L q) p → (p = q ∧ x ∈ xs) ∨ x ∈ L p := by
    intro p x inside
    by_cases same : p = q
    · subst same
      rw [Function.update_self] at inside
      rcases List.mem_append.mp inside with first | second
      · exact .inl ⟨rfl, first⟩
      · exact .inr second
    · rw [Function.update_of_ne same] at inside
      exact .inr inside
  constructor
  · intro p
    by_cases same : p = q
    · subst same
      rw [Function.update_self, List.pairwise_append]
      exact ⟨new, ok.within p, fun x inside y listed => away x inside y ⟨p, listed⟩⟩
    · rw [Function.update_of_ne same]
      exact ok.within p
  · intro p p' differ x inP y inQ
    rcases member p x inP with ⟨rfl, first⟩ | first
    · rcases member p' y inQ with ⟨rfl, _⟩ | second
      · exact absurd rfl differ
      · exact away x first y ⟨p', second⟩
    · rcases member p' y inQ with ⟨rfl, second⟩ | second
      · exact symmetric y x (away y second x ⟨p, first⟩)
      · exact ok.across p p' differ x first y second

theorem Apart.move (ok : Apart apart L) {p q : Place} (differ : p ≠ q) {x : Thing} {rest : List Thing}
    (here : (L p).Perm (x :: rest)) :
    Apart apart (Function.update (Function.update L p rest) q (x :: L q)) := by
  -- move one thing from a place to another
  have fewer : ∀ r, (Function.update L p rest r).Subperm (L r) := by
    intro r
    by_cases same : r = p
    · subst same
      rw [Function.update_self]
      exact (List.sublist_cons_self x rest).subperm.trans here.symm.subperm
    · rw [Function.update_of_ne same]
  have left : Apart apart (Function.update L p rest) := ok.of_subperm symmetric fewer
  have order := (here.pairwise_iff (fun {x y} => symmetric x y)).mp (ok.within p)
  have away : ∀ y, Ledger.Lists (Function.update L p rest) y → apart x y := by
    rintro y ⟨r, listed⟩
    by_cases same : r = p
    · subst same
      rw [Function.update_self] at listed
      exact (List.pairwise_cons.mp order).1 y listed
    · rw [Function.update_of_ne same] at listed
      exact ok.across p r (Ne.symm same) x (here.symm.subset (List.mem_cons_self ..)) y listed
  have one : [x].Pairwise apart := .cons (by simp) .nil
  have moved := left.enter symmetric (q := q) one
    (fun z only => by cases List.mem_singleton.mp only; exact away)
  rwa [Function.update_of_ne differ.symm] at moved

end

theorem lists_move [DecidableEq Place] {p q : Place} (differ : p ≠ q) {x : Thing} {rest : List Thing}
    (here : (L p).Perm (x :: rest)) {y : Thing} :
    Lists (Function.update (Function.update L p rest) q (x :: L q)) y ↔ L.Lists y := by
  -- moving a thing neither loses nor adds any
  constructor
  · rintro ⟨r, listed⟩
    by_cases target : r = q
    · subst target
      rw [Function.update_self] at listed
      rcases List.mem_cons.mp listed with rfl | old
      · exact ⟨p, here.symm.subset (List.mem_cons_self ..)⟩
      · exact ⟨r, old⟩
    · rw [Function.update_of_ne target] at listed
      by_cases source : r = p
      · subst source
        rw [Function.update_self] at listed
        exact ⟨r, here.symm.subset (List.mem_cons_of_mem _ listed)⟩
      · rw [Function.update_of_ne source] at listed
        exact ⟨r, listed⟩
  · rintro ⟨r, listed⟩
    by_cases source : r = p
    · subst source
      rcases List.mem_cons.mp (here.subset listed) with rfl | old
      · refine ⟨q, ?_⟩
        rw [Function.update_self]
        exact List.mem_cons_self ..
      · refine ⟨r, ?_⟩
        rw [Function.update_of_ne differ, Function.update_self]
        exact old
    · refine ⟨r, ?_⟩
      by_cases target : r = q
      · subst target
        rw [Function.update_self]
        exact List.mem_cons_of_mem _ listed
      · rw [Function.update_of_ne target, Function.update_of_ne source]
        exact listed

/-- Bookkeeping that enters nothing. -/
inductive Shifts [DecidableEq Place] : Ledger Place Thing → Ledger Place Thing → Prop where
  | keep {L : Ledger Place Thing} : Shifts L L
  | drop {L : Ledger Place Thing} {p : Place} {rest : List Thing} : rest.Subperm (L p) → Shifts L (Function.update L p rest)
  | move {L : Ledger Place Thing} {p q : Place} {x : Thing} {rest : List Thing} : p ≠ q → (L p).Perm (x :: rest) →
      Shifts L (Function.update (Function.update L p rest) q (x :: L q))
  | trans {L L' L'' : Ledger Place Thing} : Shifts L L' → Shifts L' L'' → Shifts L L''

section Shifts
variable [DecidableEq Place]

theorem subperm_drop {p : Place} {rest : List Thing} (fewer : rest.Subperm (L p)) (q : Place) :
    (Function.update L p rest q).Subperm (L q) := by
  by_cases same : q = p
  · subst same
    rwa [Function.update_self]
  · rw [Function.update_of_ne same]

theorem Apart.shifts (ok : Apart apart L) (symmetric : ∀ x y, apart x y → apart y x) (shifts : Shifts L L') : Apart apart L' := by
  induction shifts with
  | keep => exact ok
  | drop fewer => exact ok.of_subperm symmetric (subperm_drop fewer)
  | move differ here => exact ok.move symmetric differ here
  | trans _ _ first second => exact second (first ok)

theorem Shifts.lists (shifts : Shifts L L') {x : Thing} (listed : L'.Lists x) : L.Lists x := by
  induction shifts with
  | keep => exact listed
  | drop fewer =>
    obtain ⟨q, here⟩ := listed
    exact ⟨q, (subperm_drop fewer q).subset here⟩
  | move differ here => exact (lists_move differ here).mp listed
  | trans _ _ first second => exact first (second listed)

theorem lists_enter {q : Place} {xs : List Thing} {x : Thing} (listed : Lists (Function.update L q (xs ++ L q)) x) :
    x ∈ xs ∨ L.Lists x := by
  obtain ⟨p, here⟩ := listed
  by_cases same : p = q
  · subst same
    rw [Function.update_self] at here
    exact (List.mem_append.mp here).imp_right fun old => ⟨p, old⟩
  · rw [Function.update_of_ne same] at here
    exact .inr ⟨p, here⟩

end Shifts

end Ledger

end Interleaving
