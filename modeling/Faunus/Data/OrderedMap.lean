import Mathlib.Data.List.Induction
import Mathlib.Data.List.Sort
import Mathlib.Order.Basic

/-! Ordered maps as strictly sorted association lists. -/

set_option autoImplicit false

namespace OrderedMap

variable {K V : Type} [LinearOrder K]

/-- `m[k] = v`: overwrite the binding of `k`, or insert it in order. -/
def assign (k : K) (v : V) : List (K × V) → List (K × V)
  | [] => [(k, v)]
  | (k', v') :: rest =>
    if k < k' then (k, v) :: (k', v') :: rest
    else if k = k' then (k, v) :: rest
    else (k', v') :: assign k v rest

/-- Assign the bindings in list order, later ones over earlier ones. -/
def ofList (bindings : List (K × V)) : List (K × V) :=
  bindings.foldl (fun m b => assign b.1 b.2 m) []

def Sorted (m : List (K × V)) : Prop := m.Pairwise fun a b => a.1 < b.1

theorem mem_assign {k : K} {v : V} {m : List (K × V)} {e : K × V} (inside : e ∈ assign k v m) : e = (k, v) ∨ e ∈ m := by
  induction m with
  | nil => exact Or.inl (List.mem_singleton.1 inside)
  | cons first rest ih =>
    obtain ⟨k', v'⟩ := first
    unfold assign at inside
    split_ifs at inside with less same
    · exact List.mem_cons.1 inside
    · exact (List.mem_cons.1 inside).imp id (List.mem_cons_of_mem _)
    · rcases List.mem_cons.1 inside with rfl | later
      · exact Or.inr List.mem_cons_self
      · exact (ih later).imp id (List.mem_cons_of_mem _)

theorem sorted_assign {k : K} {v : V} {m : List (K × V)} (sorted : Sorted m) : Sorted (assign k v m) := by
  induction m with
  | nil => exact List.pairwise_singleton _ _
  | cons first rest ih =>
    obtain ⟨k', v'⟩ := first
    obtain ⟨head, tail⟩ := List.pairwise_cons.1 sorted
    unfold assign
    split_ifs with less same
    · refine List.pairwise_cons.2 ⟨fun e inside => ?_, sorted⟩
      rcases List.mem_cons.1 inside with rfl | later
      · exact less
      · exact lt_trans less (head e later)
    · exact List.pairwise_cons.2 ⟨fun e inside => same ▸ head e inside, tail⟩
    · refine List.pairwise_cons.2 ⟨fun e inside => ?_, ih tail⟩
      rcases mem_assign inside with rfl | later
      · exact lt_of_le_of_ne (not_lt.1 less) (Ne.symm same)
      · exact head e later

theorem mem_foldl_assign {bindings m : List (K × V)} {e : K × V}
    (inside : e ∈ bindings.foldl (fun m b => assign b.1 b.2 m) m) : e ∈ bindings ∨ e ∈ m := by
  induction bindings generalizing m with
  | nil => exact Or.inr inside
  | cons b rest ih =>
    rcases ih inside with later | now
    · exact Or.inl (List.mem_cons_of_mem _ later)
    · rcases mem_assign now with rfl | before
      · exact Or.inl List.mem_cons_self
      · exact Or.inr before

theorem mem_of_mem_ofList {bindings : List (K × V)} {e : K × V} (inside : e ∈ ofList bindings) : e ∈ bindings :=
  (mem_foldl_assign inside).resolve_right List.not_mem_nil

theorem key_assign {k : K} {v : V} {m : List (K × V)} {k' : K} (bound : k' = k ∨ ∃ e ∈ m, e.1 = k') :
    ∃ e ∈ assign k v m, e.1 = k' := by
  -- assigning keeps every key and adds one
  induction m with
  | nil =>
    rcases bound with rfl | ⟨e, inside, -⟩
    · exact ⟨_, List.mem_singleton_self _, rfl⟩
    · cases inside
  | cons first rest ih =>
    obtain ⟨l, w⟩ := first
    unfold assign
    split_ifs with less same
    · rcases bound with rfl | ⟨e, inside, eq⟩
      · exact ⟨_, List.mem_cons_self, rfl⟩
      · exact ⟨e, List.mem_cons_of_mem _ inside, eq⟩
    · rcases bound with rfl | ⟨e, inside, rfl⟩
      · exact ⟨_, List.mem_cons_self, rfl⟩
      · rcases List.mem_cons.1 inside with rfl | later
        · exact ⟨_, List.mem_cons_self, same⟩
        · exact ⟨e, List.mem_cons_of_mem _ later, rfl⟩
    · rcases bound with rfl | ⟨e, inside, rfl⟩
      · obtain ⟨e, inside, eq⟩ := ih (Or.inl rfl)
        exact ⟨e, List.mem_cons_of_mem _ inside, eq⟩
      · rcases List.mem_cons.1 inside with rfl | later
        · exact ⟨_, List.mem_cons_self, rfl⟩
        · obtain ⟨e', inside', eq⟩ := ih (Or.inr ⟨e, later, rfl⟩)
          exact ⟨e', List.mem_cons_of_mem _ inside', eq⟩

theorem key_foldl_assign {bindings m : List (K × V)} {k : K} (bound : (∃ e ∈ bindings, e.1 = k) ∨ ∃ e ∈ m, e.1 = k) :
    ∃ e ∈ bindings.foldl (fun m b => assign b.1 b.2 m) m, e.1 = k := by
  induction bindings generalizing m with
  | nil => exact bound.resolve_left (by simp)
  | cons b rest ih =>
    rcases bound with ⟨e, inside, rfl⟩ | before
    · rcases List.mem_cons.1 inside with rfl | later
      · exact ih (Or.inr (key_assign (Or.inl rfl)))
      · exact ih (Or.inl ⟨e, later, rfl⟩)
    · exact ih (Or.inr (key_assign (Or.inr before)))

theorem key_ofList {bindings : List (K × V)} {e : K × V} (inside : e ∈ bindings) : ∃ e' ∈ ofList bindings, e'.1 = e.1 :=
  key_foldl_assign (Or.inl ⟨e, inside, rfl⟩)

theorem length_assign_le {k : K} {v : V} {m : List (K × V)} : (assign k v m).length ≤ m.length + 1 := by
  induction m with
  | nil => exact le_refl _
  | cons first rest ih =>
    obtain ⟨l, w⟩ := first
    unfold assign
    split_ifs
    · exact le_refl _
    · exact Nat.le_succ _
    · exact Nat.succ_le_succ ih

theorem length_foldl_assign_le {bindings m : List (K × V)} :
    (bindings.foldl (fun m b => assign b.1 b.2 m) m).length ≤ bindings.length + m.length := by
  induction bindings generalizing m with
  | nil => simp
  | cons b rest ih =>
    have one := length_assign_le (k := b.1) (v := b.2) (m := m)
    have more := ih (m := assign b.1 b.2 m)
    simp only [List.foldl_cons, List.length_cons]
    omega

theorem length_ofList_le (bindings : List (K × V)) : (ofList bindings).length ≤ bindings.length := length_foldl_assign_le

theorem sorted_foldl_assign {bindings m : List (K × V)} (sorted : Sorted m) :
    Sorted (bindings.foldl (fun m b => assign b.1 b.2 m) m) := by
  induction bindings generalizing m with
  | nil => exact sorted
  | cons b rest ih => exact ih (sorted_assign sorted)

theorem sorted_ofList (bindings : List (K × V)) : Sorted (ofList bindings) := sorted_foldl_assign List.Pairwise.nil

theorem Sorted.lt {m : List (K × V)} (sorted : Sorted m) {i j : ℕ} {a b : K × V} (less : i < j) (one : m[i]? = some a)
    (two : m[j]? = some b) : a.1 < b.1 := by
  obtain ⟨_, rfl⟩ := List.getElem?_eq_some_iff.1 one
  obtain ⟨_, rfl⟩ := List.getElem?_eq_some_iff.1 two
  exact List.pairwise_iff_getElem.1 sorted i j _ _ less

theorem mem_assign_iff {k : K} {v : V} {m : List (K × V)} (sorted : Sorted m) {e : K × V} :
    e ∈ assign k v m ↔ e = (k, v) ∨ e ∈ m ∧ e.1 ≠ k := by
  induction m with
  | nil => simp [assign]
  | cons first rest ih =>
    obtain ⟨l, w⟩ := first
    obtain ⟨head, tail⟩ := List.pairwise_cons.1 sorted
    have above : ∀ x ∈ rest, k ≤ l → x.1 ≠ k := fun x inside low => ne_of_gt (lt_of_le_of_lt low (head x inside))
    unfold assign
    split_ifs with less same
    · constructor
      · intro inside
        rcases List.mem_cons.1 inside with rfl | later
        · exact .inl rfl
        · refine .inr ⟨later, ?_⟩
          rcases List.mem_cons.1 later with rfl | last
          · exact ne_of_gt less
          · exact above e last less.le
      · exact fun bound => bound.elim (fun eq => eq ▸ List.mem_cons_self) fun old => List.mem_cons_of_mem _ old.1
    · subst same
      constructor
      · intro inside
        exact (List.mem_cons.1 inside).imp id fun later => ⟨List.mem_cons_of_mem _ later, above e later le_rfl⟩
      · rintro (rfl | ⟨inside, other⟩)
        · exact List.mem_cons_self
        · rcases List.mem_cons.1 inside with rfl | later
          · exact absurd rfl other
          · exact List.mem_cons_of_mem _ later
    · rw [List.mem_cons, ih tail, List.mem_cons]
      constructor
      · rintro (rfl | rfl | ⟨later, other⟩)
        · exact .inr ⟨.inl rfl, Ne.symm same⟩
        · exact .inl rfl
        · exact .inr ⟨.inr later, other⟩
      · rintro (rfl | ⟨rfl | later, other⟩)
        · exact .inr (.inl rfl)
        · exact .inl rfl
        · exact .inr (.inr ⟨later, other⟩)

/-- The binding of a key is the last one that was assigned to it. -/
theorem mem_ofList_iff {bindings : List (K × V)} {e : K × V} :
    e ∈ ofList bindings ↔ ∃ before after, bindings = before ++ e :: after ∧ ∀ x ∈ after, x.1 ≠ e.1 := by
  induction bindings using List.reverseRecOn with
  | nil => simp [ofList]
  | append_singleton bindings b ih =>
    have last : ofList (bindings ++ [b]) = assign b.1 b.2 (ofList bindings) := by simp [ofList, List.foldl_append]
    rw [last, mem_assign_iff (sorted_ofList bindings), ih]
    constructor
    · rintro (rfl | ⟨⟨before, after, rfl, others⟩, other⟩)
      · exact ⟨bindings, [], rfl, by simp⟩
      · refine ⟨before, after ++ [b], by simp, ?_⟩
        intro x inside
        rcases List.mem_append.1 inside with old | new
        · exact others x old
        · cases List.mem_singleton.1 new
          exact Ne.symm other
    · rintro ⟨before, after, eq, others⟩
      rcases List.eq_nil_or_concat after with rfl | ⟨init, x, rfl⟩
      · have := List.append_inj_right' eq rfl
        simp only [List.cons.injEq, and_true] at this
        exact .inl this.symm
      · rw [List.concat_eq_append, ← List.cons_append, ← List.append_assoc] at eq
        obtain ⟨same, is⟩ := List.append_inj' eq rfl
        simp only [List.cons.injEq, and_true] at is
        subst is
        refine .inr ⟨⟨before, init, same, fun y inside => others y (by simp [inside])⟩, ?_⟩
        exact Ne.symm (others b (by simp))

theorem keys_nodup {m : List (K × V)} (sorted : Sorted m) : (m.map Prod.fst).Nodup :=
  (List.pairwise_map.2 sorted).imp ne_of_lt

theorem mem_ofList_of_length {bindings : List (K × V)} (all : (ofList bindings).length = bindings.length) {e : K × V}
    (inside : e ∈ bindings) :
    e ∈ ofList bindings := by
  have nodup : (ofList bindings).Nodup := (keys_nodup (sorted_ofList bindings)).of_map _
  have within : (ofList bindings).Subperm bindings := List.subperm_of_subset nodup fun x => mem_of_mem_ofList
  exact (within.perm_of_length_le (le_of_eq all.symm)).mem_iff.2 inside

theorem Sorted.mem_take_iff {m : List (K × V)} (sorted : Sorted m) {i : ℕ} {e x : K × V} (middle : m[i]? = some e) :
    x ∈ m.take i ↔ x ∈ m ∧ x.1 < e.1 := by
  -- below a position stand the smaller keys
  constructor
  · intro inside
    obtain ⟨j, found⟩ := List.mem_iff_getElem?.1 inside
    rw [List.getElem?_take] at found
    split_ifs at found with low
    exact ⟨List.mem_of_getElem? found, sorted.lt low found middle⟩
  · rintro ⟨inside, less⟩
    obtain ⟨j, found⟩ := List.mem_iff_getElem?.1 inside
    refine List.mem_iff_getElem?.2 ⟨j, ?_⟩
    rw [List.getElem?_take, if_pos ?_, found]
    by_contra high
    rcases Nat.lt_or_eq_of_le (not_lt.1 high) with above | rfl
    · exact lt_asymm less (sorted.lt above middle found)
    · obtain rfl := Option.some.inj (middle.symm.trans found)
      exact lt_irrefl _ less

theorem Sorted.mem_drop_iff {m : List (K × V)} (sorted : Sorted m) {i : ℕ} {e x : K × V} (middle : m[i]? = some e) :
    x ∈ m.drop i ↔ x ∈ m ∧ e.1 ≤ x.1 := by
  constructor
  · intro inside
    obtain ⟨j, found⟩ := List.mem_iff_getElem?.1 inside
    rw [List.getElem?_drop] at found
    refine ⟨List.mem_of_getElem? found, ?_⟩
    rcases Nat.eq_zero_or_pos j with rfl | positive
    · exact le_of_eq (congrArg Prod.fst (Option.some.inj (middle.symm.trans found)))
    · exact le_of_lt (sorted.lt (by omega) middle found)
  · rintro ⟨inside, le⟩
    rw [← List.take_append_drop i m, List.mem_append] at inside
    exact inside.resolve_left fun low => not_lt.2 le ((sorted.mem_take_iff middle).1 low).2

end OrderedMap
