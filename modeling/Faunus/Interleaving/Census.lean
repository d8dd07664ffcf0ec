import Mathlib.Data.List.Nodup
import Mathlib.Logic.Function.Basic

/-! Counting threads by their ghosts. -/

set_option autoImplicit false

namespace Interleaving

variable {T G : Type} {gs : T → G} {p : G → Prop} {n : Nat}

/-- Exactly so many threads have the property. -/
def Census (gs : T → G) (p : G → Prop) (n : Nat) : Prop := ∃ l : List T, l.Nodup ∧ (∀ t, t ∈ l ↔ p (gs t)) ∧ l.length = n

theorem census_none (none : ∀ t, ¬ p (gs t)) : Census gs p 0 :=
  ⟨[], .nil, fun t => iff_of_false List.not_mem_nil (none t), rfl⟩

theorem Census.pos (census : Census gs p n) {t : T} (inside : p (gs t)) : 0 < n := by
  obtain ⟨l, -, members, rfl⟩ := census
  exact List.length_pos_of_mem ((members t).2 inside)

theorem Census.eq_zero (census : Census gs p n) (none : ∀ t, ¬ p (gs t)) : n = 0 := by
  obtain ⟨l, -, members, rfl⟩ := census
  exact List.length_eq_zero_iff.2 (List.eq_nil_iff_forall_not_mem.2 fun t inside => none t ((members t).1 inside))

theorem Census.unique (census : Census gs p n) (few : n ≤ 1) {t u : T} (one : p (gs t)) (two : p (gs u)) : t = u := by
  obtain ⟨l, -, members, rfl⟩ := census
  cases l with
  | nil => exact absurd ((members t).2 one) List.not_mem_nil
  | cons first rest =>
    obtain rfl : rest = [] := List.length_eq_zero_iff.1 (by rw [List.length_cons] at few; omega)
    exact (List.mem_singleton.1 ((members t).2 one)).trans (List.mem_singleton.1 ((members u).2 two)).symm

section
variable [DecidableEq T] {t : T} {g : G}

theorem Census.keep (census : Census gs p n) (same : p g ↔ p (gs t)) : Census (Function.update gs t g) p n := by
  obtain ⟨l, nodup, members, length⟩ := census
  refine ⟨l, nodup, fun u => (members u).trans ?_, length⟩
  by_cases here : u = t
  · subst here
    rw [Function.update_self]
    exact same.symm
  · rw [Function.update_of_ne here]

theorem Census.enter (census : Census gs p n) (outside : ¬ p (gs t)) (inside : p g) : Census (Function.update gs t g) p (n + 1) := by
  obtain ⟨l, nodup, members, rfl⟩ := census
  refine ⟨t :: l, nodup.cons fun old => outside ((members t).1 old), fun u => ?_, rfl⟩
  by_cases here : u = t
  · subst here
    rw [Function.update_self]
    exact iff_of_true List.mem_cons_self inside
  · rw [Function.update_of_ne here, List.mem_cons, ← members u]
    exact or_iff_right here

theorem Census.leave (census : Census gs p n) (inside : p (gs t)) (outside : ¬ p g) : Census (Function.update gs t g) p (n - 1) := by
  obtain ⟨l, nodup, members, rfl⟩ := census
  refine ⟨l.erase t, nodup.erase t, fun u => ?_, List.length_erase_of_mem ((members t).2 inside)⟩
  rw [nodup.mem_erase_iff, members u]
  by_cases here : u = t
  · subst here
    rw [Function.update_self]
    exact iff_of_false (fun both => both.1 rfl) outside
  · rw [Function.update_of_ne here]
    exact and_iff_right here

end

end Interleaving
