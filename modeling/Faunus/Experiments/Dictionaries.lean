import Mathlib.Data.List.GetD
import Mathlib.Order.Nat

/-! Dictionaries that refer to each other.

A value is a scalar or a reference to a dictionary, and two places may refer to the
same dictionary. What can be read from a value does not depend on where the
dictionaries lie: dictionaries that are created later may lie further up.
-/

set_option autoImplicit false

namespace Faunus.Experiments

inductive Value (α : Type) where
  | scalar (a : α)
  | dict (ref : ℕ)
  deriving DecidableEq

/-- The entries of a dictionary, in the order of their insertion. -/
abbrev Dict (κ α : Type) : Type := List (κ × Value α)

/-- All dictionaries; a reference is a position. -/
abbrev Heap (κ α : Type) : Type := List (Dict κ α)

variable {κ α : Type}

namespace Dict

def set [DecidableEq κ] (d : Dict κ α) (key : κ) (value : Value α) : Dict κ α :=
  match d with
  | [] => [(key, value)]
  | entry :: rest => if entry.1 = key then (key, value) :: rest else entry :: set rest key value

def update [DecidableEq κ] (d e : Dict κ α) : Dict κ α := e.foldl (fun d entry => set d entry.1 entry.2) d

end Dict

namespace Heap

def dict (h : Heap κ α) (ref : ℕ) : Dict κ α := h.getD ref []

def get [DecidableEq κ] (h : Heap κ α) (ref : ℕ) (key : κ) : Option (Value α) := (h.dict ref).lookup key

def put [DecidableEq κ] (h : Heap κ α) (ref : ℕ) (key : κ) (value : Value α) :
    Heap κ α := h.set ref (Dict.set (h.dict ref) key value)

/-- A new dictionary, at the position `h.length`. -/
def alloc (h : Heap κ α) (d : Dict κ α) : Heap κ α := h ++ [d]

def valueAt [DecidableEq κ] (h : Heap κ α) (value : Value α) : List κ → Option (Value α)
  | [] => some value
  | key :: rest =>
    match value with
    | .scalar _ => none
    | .dict ref => (h.get ref key).bind fun next => h.valueAt next rest

end Heap

def Value.leaf : Value α → Option α
  | .scalar a => some a
  | .dict _ => none

/-- What is found under a path: nothing, a scalar or a dictionary. -/
def Heap.leafAt [DecidableEq κ] (h : Heap κ α) (value : Value α) (path : List κ) :
    Option (Option α) := (h.valueAt value path).map Value.leaf

namespace Heap

@[simp] theorem length_put [DecidableEq κ] (h : Heap κ α) (ref : ℕ) (key : κ) (value : Value α) :
    (h.put ref key value).length = h.length := List.length_set

@[simp] theorem length_alloc (h : Heap κ α) (d : Dict κ α) : (h.alloc d).length = h.length + 1 := by
  simp [alloc]

theorem dict_put_self [DecidableEq κ] (h : Heap κ α) {ref : ℕ} (inside : ref < h.length) (key : κ) (value : Value α) :
    (h.put ref key value).dict ref = Dict.set (h.dict ref) key value := by
  simp [dict, put, inside]

theorem dict_put_other [DecidableEq κ] (h : Heap κ α) {ref other : ℕ} (apart : other ≠ ref) (key : κ) (value : Value α) :
    (h.put ref key value).dict other = h.dict other := by
  simp [dict, put, apart.symm]

theorem dict_alloc_self (h : Heap κ α) (d : Dict κ α) : (h.alloc d).dict h.length = d := by
  simp [dict, alloc]

theorem dict_alloc_other (h : Heap κ α) (d : Dict κ α) {other : ℕ} (apart : other ≠ h.length) :
    (h.alloc d).dict other = h.dict other := by
  unfold dict alloc
  rcases Nat.lt_or_gt_of_ne apart with below | above
  · rw [List.getD_append _ _ _ _ below]
  · have outside : (h ++ [d]).length ≤ other := by
      rw [List.length_append, List.length_singleton]
      omega
    rw [List.getD_eq_default _ _ outside, List.getD_eq_default _ _ (Nat.le_of_lt above)]

theorem dict_of_length_le (h : Heap κ α) {ref : ℕ} (outside : h.length ≤ ref) : h.dict ref = [] := List.getD_eq_default _ _ outside

end Heap

/-! ## Dictionaries below a bound -/

/-- The dictionaries below the bound stay as they are. -/
structure Keeps (base : ℕ) (h h' : Heap κ α) : Prop where
  length : h.length ≤ h'.length
  dict : ∀ ref < base, h'.dict ref = h.dict ref

theorem Keeps.refl (base : ℕ) (h : Heap κ α) : Keeps base h h := ⟨le_rfl, fun _ _ => rfl⟩

theorem Keeps.trans {base : ℕ} {h h' h'' : Heap κ α} (first : Keeps base h h') (second : Keeps base h' h'') : Keeps base h h'' where
  length := first.length.trans second.length
  dict ref below := (second.dict ref below).trans (first.dict ref below)

theorem keeps_put [DecidableEq κ] {base ref : ℕ} (own : base ≤ ref) (h : Heap κ α) (key : κ) (value : Value α) :
    Keeps base h (h.put ref key value) where
  length := (h.length_put ref key value).ge
  dict other below := h.dict_put_other (by omega) key value

theorem keeps_alloc {base : ℕ} {h : Heap κ α} (large : base ≤ h.length) (d : Dict κ α) : Keeps base h (h.alloc d) where
  length := by simp
  dict other below := h.dict_alloc_other d (by omega)

/-! ## Dictionaries further up -/

/-- The references from the bound on lie further up. -/
def shiftRef (base up ref : ℕ) : ℕ := if ref < base then ref else ref + up

theorem shiftRef_of_lt {base ref : ℕ} (below : ref < base) (up : ℕ) : shiftRef base up ref = ref := if_pos below

theorem shiftRef_of_le {base ref : ℕ} (above : base ≤ ref) (up : ℕ) : shiftRef base up ref = ref + up := if_neg (by omega)

theorem shiftRef_injective (base up : ℕ) : Function.Injective (shiftRef base up) := by
  intro ref ref' same
  unfold shiftRef at same
  split_ifs at same <;> omega

def Value.shift (base up : ℕ) : Value α → Value α
  | .scalar a => .scalar a
  | .dict ref => .dict (shiftRef base up ref)

@[simp] theorem Value.leaf_shift (base up : ℕ) (value : Value α) : (value.shift base up).leaf = value.leaf := by
  cases value <;> rfl

/-- The value refers to dictionaries below the bound only. -/
def Value.Below (base : ℕ) : Value α → Prop
  | .scalar _ => True
  | .dict ref => ref < base

instance Value.decidableBelow (base : ℕ) (value : Value α) : Decidable (value.Below base) :=
  match value with
  | .scalar _ => .isTrue trivial
  | .dict ref => inferInstanceAs (Decidable (ref < base))

theorem Value.Below.shift {base : ℕ} {value : Value α} (below : value.Below base) (up : ℕ) : value.shift base up = value := by
  cases value with
  | scalar a => rfl
  | dict ref => exact congrArg Value.dict (shiftRef_of_lt below up)

def Dict.shift (base up : ℕ) (d : Dict κ α) : Dict κ α := d.map fun entry => (entry.1, entry.2.shift base up)

theorem Dict.lookup_shift [DecidableEq κ] (base up : ℕ) (d : Dict κ α) (key : κ) :
    (d.shift base up).lookup key = (d.lookup key).map (Value.shift base up) := by
  induction d with
  | nil => rfl
  | cons entry rest ih =>
    obtain ⟨other, value⟩ := entry
    simp only [shift, List.map_cons, List.lookup_cons] at ih ⊢
    cases key == other with
    | true => rfl
    | false => exact ih

theorem Dict.set_shift [DecidableEq κ] (base up : ℕ) (d : Dict κ α) (key : κ) (value : Value α) :
    Dict.set (d.shift base up) key (value.shift base up) = (Dict.set d key value).shift base up := by
  induction d with
  | nil => rfl
  | cons entry rest ih =>
    simp only [shift, List.map_cons, set] at ih ⊢
    split_ifs
    · rfl
    · rw [List.map_cons, ih]

theorem Dict.update_shift [DecidableEq κ] (base up : ℕ) (d e : Dict κ α) :
    Dict.update (d.shift base up) (e.shift base up) = (Dict.update d e).shift base up := by
  induction e generalizing d with
  | nil => rfl
  | cons entry rest ih =>
    have step := ih (Dict.set d entry.1 entry.2)
    rw [← Dict.set_shift] at step
    exact step

/-- The same dictionaries, those from the bound on further up. -/
structure Shifted (base up : ℕ) (h h' : Heap κ α) : Prop where
  large : base ≤ h.length
  length : h'.length = h.length + up
  dict : ∀ ref, h'.dict (shiftRef base up ref) = (h.dict ref).shift base up

namespace Shifted
variable {base up : ℕ} {h h' : Heap κ α} (shifted : Shifted base up h h')
include shifted

theorem get [DecidableEq κ] (ref : ℕ) (key : κ) : h'.get (shiftRef base up ref) key = (h.get ref key).map (Value.shift base up) := by
  rw [Heap.get, shifted.dict, Dict.lookup_shift, Heap.get]

theorem next : shiftRef base up h.length = h'.length := by
  rw [shiftRef_of_le shifted.large, shifted.length]

theorem alloc (d : Dict κ α) : Shifted base up (h.alloc d) (h'.alloc (d.shift base up)) where
  large := by
    have := shifted.large
    simp only [Heap.length_alloc]
    omega
  length := by
    simp only [Heap.length_alloc, shifted.length]
    omega
  dict ref := by
    by_cases new : ref = h.length
    · rw [new, shifted.next, Heap.dict_alloc_self, Heap.dict_alloc_self]
    · have apart : shiftRef base up ref ≠ h'.length := fun same => new (shiftRef_injective base up (same.trans shifted.next.symm))
      rw [Heap.dict_alloc_other _ _ new, Heap.dict_alloc_other _ _ apart, shifted.dict]

theorem put [DecidableEq κ] (ref : ℕ) (key : κ) (value : Value α) :
    Shifted base up (h.put ref key value) (h'.put (shiftRef base up ref) key (value.shift base up)) := by
  have inside : shiftRef base up ref < h'.length ↔ ref < h.length := by
    have := shifted.large
    rw [shifted.length, shiftRef]
    split_ifs <;> omega
  refine ⟨by simpa using shifted.large, by simpa using shifted.length, fun other => ?_⟩
  by_cases same : other = ref
  · subst same
    by_cases exist : other < h.length
    · rw [Heap.dict_put_self _ exist, Heap.dict_put_self _ (inside.2 exist), shifted.dict, Dict.set_shift]
    · rw [Heap.dict_of_length_le _ (by simp; omega), Heap.dict_of_length_le _ (by simp; omega)]
      rfl
  · have apart : shiftRef base up other ≠ shiftRef base up ref := fun equal => same (shiftRef_injective base up equal)
    rw [Heap.dict_put_other _ same, Heap.dict_put_other _ apart, shifted.dict]

theorem leafAt [DecidableEq κ] (value : Value α) (path : List κ) : h'.leafAt (value.shift base up) path = h.leafAt value path := by
  induction path generalizing value with
  | nil => simp [Heap.leafAt, Heap.valueAt]
  | cons key rest ih =>
    cases value with
    | scalar a => rfl
    | dict ref =>
      simp only [Heap.leafAt, Value.shift, Heap.valueAt, shifted.get] at ih ⊢
      cases h.get ref key with
      | none => rfl
      | some next => exact ih next

end Shifted

/-- The dictionaries refer to dictionaries that exist. -/
def Heap.Closed (h : Heap κ α) : Prop := ∀ d ∈ h, ∀ entry ∈ d, entry.2.Below h.length

instance Heap.decidableClosed (h : Heap κ α) :
    Decidable h.Closed := inferInstanceAs (Decidable (∀ d ∈ h, ∀ entry ∈ d, entry.2.Below h.length))

theorem Dict.shift_of_below {base : ℕ} {d : Dict κ α} (below : ∀ entry ∈ d, entry.2.Below base) (up : ℕ) : d.shift base up = d := by
  have same : ∀ entry ∈ d, (entry.1, entry.2.shift base up) = id entry := fun entry member => by
    rw [(below entry member).shift up]
    rfl
  rw [shift, List.map_congr_left same, List.map_id]

theorem Keeps.shifted {h h' : Heap κ α} (keeps : Keeps h.length h h') (closed : h.Closed) :
    Shifted h.length (h'.length - h.length) h h' where
  large := le_rfl
  length := by
    have := keeps.length
    omega
  dict ref := by
    by_cases old : ref < h.length
    · have below : ∀ entry ∈ h.dict ref, entry.2.Below h.length := by
        rw [Heap.dict, List.getD_eq_getElem _ _ old]
        exact closed _ (List.getElem_mem old)
      rw [shiftRef_of_lt old, keeps.dict ref old, Dict.shift_of_below below]
    · rw [shiftRef_of_le (by omega), Heap.dict_of_length_le h (by omega), Heap.dict_of_length_le h' (by omega)]
      rfl

end Faunus.Experiments
