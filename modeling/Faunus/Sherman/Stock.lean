import Faunus.Data.OrderedMap
import Faunus.Sherman.Growth

/-! What the leaves hold.

The records of a leaf are unsorted. Their keys are distinct, lie inside the leaf and
agree with the fingerprints, and the leaf keeps one record empty.
-/

set_option autoImplicit false

namespace Faunus.Sherman

open Interleaving

variable {Key Value : Type}

def LeafPage.entries (cardinality : ℕ) (p : LeafPage Key) : List LeafEntry := (p.used cardinality).map p.records

def Memory.keyAt (m : Memory Key Value) (r : LeafEntry) : Key := (m.items r.kvPtr).key

section
variable {p : LeafPage Key} {card i : ℕ} {r : LeafEntry}

theorem mem_used : i ∈ p.used card ↔ i < card ∧ (p.records i).isEmpty = false := by
  simp [LeafPage.used]

theorem nodup_used (p : LeafPage Key) (card : ℕ) : (p.used card).Nodup := List.nodup_range.filter _

theorem mem_entries : r ∈ p.entries card ↔ ∃ i < card, (p.records i).isEmpty = false ∧ p.records i = r := by
  simp [LeafPage.entries, mem_used, and_assoc]

theorem not_empty_of_mem (inside : r ∈ p.entries card) : r.isEmpty = false := by
  obtain ⟨i, -, full, rfl⟩ := mem_entries.1 inside
  exact full

theorem length_entries (p : LeafPage Key) (card : ℕ) : (p.entries card).length = (p.used card).length := List.length_map ..

theorem entries_setRecord (bound : i < card) (empty : (p.records i).isEmpty = true) (full : r.isEmpty = false) :
    ((p.setRecord i r).entries card).Perm (r :: p.entries card) := by
  -- filling an empty record
  have fresh : i ∉ p.used card := by
    rw [mem_used, empty]
    simp
  have slots : ((p.setRecord i r).used card).Perm (i :: p.used card) := by
    refine (List.perm_ext_iff_of_nodup (nodup_used _ card) (List.nodup_cons.2 ⟨fresh, nodup_used p card⟩)).2 fun j => ?_
    rw [List.mem_cons, mem_used, mem_used]
    by_cases here : j = i
    · subst here
      simp [LeafPage.setRecord, bound, full]
    · simp [LeafPage.setRecord, here]
  have others : (p.used card).map (p.setRecord i r).records = (p.used card).map p.records := by
    refine List.map_congr_left fun j inside => ?_
    have other : j ≠ i := by
      rintro rfl
      exact fresh inside
    simp [LeafPage.setRecord, other]
  have moved := slots.map (p.setRecord i r).records
  rw [List.map_cons, others] at moved
  simpa [LeafPage.entries, LeafPage.setRecord] using moved

theorem entries_setRecord_null (empty : (p.records i).isEmpty = true) (also : r.isEmpty = true) :
    (p.setRecord i r).entries card = p.entries card := by
  have slots : (p.setRecord i r).used card = p.used card := by
    refine List.filter_congr fun j _ => ?_
    by_cases here : j = i
    · subst here
      simp [LeafPage.setRecord, empty, also]
    · simp [LeafPage.setRecord, here]
  rw [LeafPage.entries, slots]
  refine List.map_congr_left fun j inside => ?_
  have other : j ≠ i := by
    rintro rfl
    rw [mem_used, empty] at inside
    cases inside.2
  simp [LeafPage.setRecord, other]

theorem entries_eq_of_getElem? {l : List LeafEntry} (records : ∀ i, p.records i = l[i]?.getD .empty) (short : l.length ≤ card)
    (full : ∀ r ∈ l, r.isEmpty = false) : p.entries card = l := by
  have slots : p.used card = List.range l.length := by
    rw [LeafPage.used, show card = l.length + (card - l.length) by omega, List.range_add, List.filter_append]
    rw [List.filter_eq_self.2, List.filter_eq_nil_iff.2, List.append_nil]
    · intro i inside
      obtain ⟨j, -, rfl⟩ := List.mem_map.1 inside
      rw [records, List.getElem?_eq_none (Nat.le_add_right _ _)]
      simp [LeafEntry.empty, LeafEntry.isEmpty]
    · intro i inside
      have bound := List.mem_range.1 inside
      rw [records, List.getElem?_eq_getElem bound, Option.getD_some, full _ (List.getElem_mem bound)]
      rfl
  refine List.ext_getElem (by rw [length_entries, slots, List.length_range]) fun i one two => ?_
  simp [LeafPage.entries, slots, records, two]

end

/-! ## Leaves in order -/

variable [LinearOrder Key] [KeyBytes Key]

/-- The records of a leaf are where they belong. -/
structure Filed (cfg : Config) (m : Memory Key Value) (p : LeafPage Key) : Prop where
  distinct : ((p.entries cfg.leafCardinality).map m.keyAt).Nodup
  stored : ∀ r ∈ p.entries cfg.leafCardinality,
    p.hdr.covers (m.keyAt r) ∧ r.fingerprint = .ofKey (m.keyAt r) ∧ r.kvPtr ∈ m.itemsIssued

structure Stocked (cfg : Config) (m : Memory Key Value) (p : LeafPage Key) : Prop extends Filed cfg m p where
  room : (p.entries cfg.leafCardinality).length < cfg.leafCardinality

section
variable {cfg : Config} {m m' : Memory Key Value} {p : LeafPage Key}

theorem Filed.frame (filed : Filed cfg m p) (same : ∀ x ∈ m.itemsIssued, (m'.items x).key = (m.items x).key)
    (more : m.itemsIssued ⊆ m'.itemsIssued) : Filed cfg m' p := by
  have keys : ∀ r ∈ p.entries cfg.leafCardinality, m'.keyAt r = m.keyAt r := fun r inside => same _ (filed.stored r inside).2.2
  refine ⟨?_, fun r inside => ?_⟩
  · rw [List.map_congr_left keys]
    exact filed.distinct
  · rw [keys r inside]
    obtain ⟨covers, fp, issued⟩ := filed.stored r inside
    exact ⟨covers, fp, more issued⟩

theorem Stocked.frame (stocked : Stocked cfg m p) (same : ∀ x ∈ m.itemsIssued, (m'.items x).key = (m.items x).key)
    (more : m.itemsIssued ⊆ m'.itemsIssued) : Stocked cfg m' p :=
  ⟨stocked.toFiled.frame same more, stocked.room⟩

theorem Stocked.bare (stocked : Stocked cfg m p) (none : m.itemsIssued = []) : p.entries cfg.leafCardinality = [] := by
  refine List.eq_nil_iff_forall_not_mem.2 fun r inside => ?_
  have issued := (stocked.stored r inside).2.2
  rw [none] at issued
  cases issued

theorem Filed.setRecord (filed : Filed cfg m p) {i : ℕ} {r : LeafEntry} (bound : i < cfg.leafCardinality)
    (empty : (p.records i).isEmpty = true) (full : r.isEmpty = false) (covers : p.hdr.covers (m.keyAt r))
    (fp : r.fingerprint = .ofKey (m.keyAt r)) (issued : r.kvPtr ∈ m.itemsIssued)
    (absent : ∀ r' ∈ p.entries cfg.leafCardinality, m.keyAt r' ≠ m.keyAt r) : Filed cfg m (p.setRecord i r) := by
  have perm := entries_setRecord bound empty full
  refine ⟨(perm.map m.keyAt).nodup_iff.2 ?_, fun r' inside => ?_⟩
  · rw [List.map_cons, List.nodup_cons]
    refine ⟨fun also => ?_, filed.distinct⟩
    obtain ⟨r', inside, same⟩ := List.mem_map.1 also
    exact absent r' inside same
  · rcases List.mem_cons.1 (perm.mem_iff.1 inside) with rfl | old
    · exact ⟨covers, fp, issued⟩
    · exact filed.stored r' old

end

/-! ## Splitting a leaf -/

omit [KeyBytes Key] in
theorem sorted_sortByKey {keyed : List (Key × LeafEntry)} (distinct : (keyed.map Prod.fst).Nodup) :
    OrderedMap.Sorted (sortByKey keyed) := by
  have order := List.pairwise_insertionSort (fun a b : Key × LeafEntry => a.1 ≤ b.1) keyed
  have different : ((sortByKey keyed).map Prod.fst).Nodup := ((List.perm_insertionSort _ keyed).map Prod.fst).nodup_iff.2 distinct
  exact order.imp₂ (fun a b le ne => lt_of_le_of_ne le ne) (List.pairwise_map.1 different)

section
variable {cfg : Config} {m : Memory Key Value} {p : LeafPage Key}

/-- The records of a leaf with their keys, in order. -/
def LeafPage.sorted (cfg : Config) (m : Memory Key Value) (p : LeafPage Key) : List (Key × LeafEntry) :=
  sortByKey ((p.entries cfg.leafCardinality).map fun r => (m.keyAt r, r))

omit [KeyBytes Key] in
theorem mem_sorted {e : Key × LeafEntry} :
    e ∈ p.sorted cfg m ↔ e.2 ∈ p.entries cfg.leafCardinality ∧ e.1 = m.keyAt e.2 := by
  rw [LeafPage.sorted, sortByKey, List.mem_insertionSort, List.mem_map]
  constructor
  · rintro ⟨r, inside, rfl⟩
    exact ⟨inside, rfl⟩
  · rintro ⟨inside, key⟩
    exact ⟨e.2, inside, Prod.ext key.symm rfl⟩

omit [KeyBytes Key] in
theorem length_sorted : (p.sorted cfg m).length = (p.entries cfg.leafCardinality).length := by
  rw [LeafPage.sorted, sortByKey, List.length_insertionSort, List.length_map]

omit [KeyBytes Key] in
theorem length_sorted_le (cfg : Config) (m : Memory Key Value) (p : LeafPage Key) :
    (p.sorted cfg m).length ≤ cfg.leafCardinality := by
  rw [length_sorted, length_entries]
  exact le_trans (List.length_filter_le _ _) (le_of_eq List.length_range)

theorem Filed.sorted (filed : Filed cfg m p) : OrderedMap.Sorted (p.sorted cfg m) := by
  refine sorted_sortByKey ?_
  rw [List.map_map]
  exact filed.distinct

omit [KeyBytes Key] in
theorem entries_splitLeft (cfg : Config) (m : Memory Key Value) (p : LeafPage Key) (splitKey : Key) (sibling : GlobalAddress) :
    (p.splitLeft (p.sorted cfg m) splitKey sibling).entries cfg.leafCardinality =
      ((p.sorted cfg m).take ((p.sorted cfg m).length / 2)).map Prod.snd := by
  have short := length_sorted_le cfg m p
  refine entries_eq_of_getElem? (fun i => ?_) (by simp; omega) fun r inside => ?_
  · rw [List.getElem?_map, List.getElem?_take, LeafPage.splitLeft]
    simp only
    split
    · split_ifs <;> simp_all
    · split_ifs <;> simp_all
  · obtain ⟨e, there, rfl⟩ := List.mem_map.1 inside
    exact not_empty_of_mem (mem_sorted.1 (List.mem_of_mem_take there)).1

omit [KeyBytes Key] in
theorem entries_splitRight (cfg : Config) (m : Memory Key Value) (p : LeafPage Key) (splitKey : Key) :
    (p.splitRight (p.sorted cfg m) splitKey).entries cfg.leafCardinality =
      ((p.sorted cfg m).drop ((p.sorted cfg m).length / 2)).map Prod.snd := by
  have short := length_sorted_le cfg m p
  refine entries_eq_of_getElem? (fun i => ?_) (by simp; omega) fun r inside => ?_
  · rw [List.getElem?_map, List.getElem?_drop, LeafPage.splitRight]
    simp only
    split <;> simp_all
  · obtain ⟨e, there, rfl⟩ := List.mem_map.1 inside
    exact not_empty_of_mem (mem_sorted.1 (List.mem_of_mem_drop there)).1

theorem Filed.part (filed : Filed cfg m p) {q : LeafPage Key} {part : List (Key × LeafEntry)} (some : part.Sublist (p.sorted cfg m))
    (entries : q.entries cfg.leafCardinality = part.map Prod.snd) (covers : ∀ e ∈ part, q.hdr.covers e.1) : Filed cfg m q := by
  have keys : ∀ e ∈ part, m.keyAt e.2 = e.1 := fun e inside => (mem_sorted.1 (some.subset inside)).2.symm
  refine ⟨?_, fun r inside => ?_⟩
  · rw [entries, List.map_map, show part.map (m.keyAt ∘ Prod.snd) = part.map Prod.fst from List.map_congr_left keys]
    exact OrderedMap.keys_nodup (filed.sorted.sublist some)
  · rw [entries] at inside
    obtain ⟨e, there, rfl⟩ := List.mem_map.1 inside
    have old := (mem_sorted.1 (some.subset there)).1
    have stored := filed.stored e.2 old
    rw [keys e there] at stored ⊢
    exact ⟨covers e there, stored.2⟩

section
variable (filed : Filed cfg m p) (two : 2 ≤ (p.sorted cfg m).length) {e : Key × LeafEntry}
  (middle : (p.sorted cfg m)[(p.sorted cfg m).length / 2]? = some e)
include filed middle

theorem Filed.middle_covered : p.hdr.covers e.1 := by
  obtain ⟨old, key⟩ := mem_sorted.1 (List.mem_of_getElem? middle)
  rw [key]
  exact (filed.stored e.2 old).1

include two

theorem Filed.middle_inside : p.hdr.lowest < e.1 ∧ e.1 < p.hdr.highest := by
  obtain ⟨first, there⟩ : ∃ first, (p.sorted cfg m)[0]? = some first := ⟨_, List.getElem?_eq_getElem (by omega)⟩
  obtain ⟨old, key⟩ := mem_sorted.1 (List.mem_of_getElem? there)
  have low : p.hdr.lowest ≤ first.1 := key ▸ (filed.stored first.2 old).1.1
  exact ⟨lt_of_le_of_lt low (filed.sorted.lt (by omega) there middle), (filed.middle_covered middle).2⟩

theorem Filed.splitLeft_stocked (sibling : GlobalAddress) : Stocked cfg m (p.splitLeft (p.sorted cfg m) e.1 sibling) := by
  have entries := entries_splitLeft cfg m p e.1 sibling
  have short := length_sorted_le cfg m p
  refine ⟨filed.part (List.take_sublist _ _) entries fun x inside => ?_, ?_⟩
  · obtain ⟨there, less⟩ := (filed.sorted.mem_take_iff middle).1 inside
    obtain ⟨old, key⟩ := mem_sorted.1 there
    exact ⟨key ▸ (filed.stored x.2 old).1.1, less⟩
  · rw [entries, List.length_map, List.length_take]
    omega

theorem Filed.splitRight_stocked : Stocked cfg m (p.splitRight (p.sorted cfg m) e.1) := by
  have entries := entries_splitRight cfg m p e.1
  have short := length_sorted_le cfg m p
  refine ⟨filed.part (List.drop_sublist _ _) entries fun x inside => ?_, ?_⟩
  · obtain ⟨there, le⟩ := (filed.sorted.mem_drop_iff middle).1 inside
    obtain ⟨old, key⟩ := mem_sorted.1 there
    exact ⟨le, key ▸ (filed.stored x.2 old).1.2⟩
  · rw [entries, List.length_map, List.length_drop]
    omega

omit filed two middle in
omit [KeyBytes Key] in
theorem mem_entries_split (splitKey : Key) (sibling : GlobalAddress) {r : LeafEntry} :
    r ∈ p.entries cfg.leafCardinality ↔
      r ∈ (p.splitLeft (p.sorted cfg m) splitKey sibling).entries cfg.leafCardinality ∨
        r ∈ (p.splitRight (p.sorted cfg m) splitKey).entries cfg.leafCardinality := by
  rw [entries_splitLeft, entries_splitRight, ← List.mem_append, ← List.map_append, List.take_append_drop, List.mem_map]
  constructor
  · intro inside
    exact ⟨(m.keyAt r, r), mem_sorted.2 ⟨inside, rfl⟩, rfl⟩
  · rintro ⟨e, there, rfl⟩
    exact (mem_sorted.1 there).1

end

end

/-! ## The whole tree -/

def Memory.shelf (cfg : Config) (m : Memory Key Value) : Set LeafEntry :=
  {r | ∃ a p, m.pages a = some (.leaf p) ∧ r ∈ p.entries cfg.leafCardinality}

/-- The pairs stored in the tree are those of the map. -/
def Represents (cfg : Config) (m : Memory Key Value) (map : Key → Option Value) : Prop :=
  ∀ k v, map k = some v ↔ ∃ r ∈ m.shelf cfg, m.items r.kvPtr = ⟨k, v⟩

variable [BoundedOrder Key]

/-- A tree at rest, or one whose last split is not finished. -/
structure Sound (cfg : Config) (m : Memory Key Value) (pending : Set GlobalAddress) (top : ℕ) : Prop where
  linked : Linked m pending top
  room : ∀ a p, m.pages a = some (.internal p) → p.cnt < cfg.internalCardinality
  free : ∀ a, m.locks a = false
  stocked : ∀ a p, m.pages a = some (.leaf p) → Stocked cfg m p

section
variable {cfg : Config} {m m' : Memory Key Value} {pending : Set GlobalAddress} {top : ℕ} {map : Key → Option Value}
    {a b : GlobalAddress}

theorem Sound.once (sound : Sound cfg m pending top) {p q : LeafPage Key} {i j : ℕ} (one : m.pages a = some (.leaf p))
    (two : m.pages b = some (.leaf q)) (here : i ∈ p.used cfg.leafCardinality) (there : j ∈ q.used cfg.leafCardinality)
    (same : m.keyAt (p.records i) = m.keyAt (q.records j)) : a = b ∧ i = j := by
  have entry : ∀ {p : LeafPage Key} {i}, i ∈ p.used cfg.leafCardinality → p.records i ∈ p.entries cfg.leafCardinality :=
    fun inside => List.mem_map.2 ⟨_, inside, rfl⟩
  have covers := ((sound.stocked a p one).stored _ (entry here)).1
  have covers' := ((sound.stocked b q two).stored _ (entry there)).1
  obtain rfl : a = b := by
    refine sound.linked.forest.disjoint a b _ _ (m.keyAt (p.records i)) (tiles_page one) (tiles_page two) ?_ covers (same ▸ covers')
    rw [Page.tile_level, Page.tile_level]
    exact (sound.linked.leaf a p one).1.trans (sound.linked.leaf b q two).1.symm
  obtain rfl : p = q := Page.leaf.inj (Option.some.inj (one.symm.trans two))
  have distinct := (sound.stocked a p one).distinct
  rw [LeafPage.entries, List.map_map] at distinct
  exact ⟨rfl, List.inj_on_of_nodup_map distinct here there same⟩

theorem Sound.shelf_once (sound : Sound cfg m pending top) {r r' : LeafEntry} (one : r ∈ m.shelf cfg) (two : r' ∈ m.shelf cfg)
    (same : m.keyAt r = m.keyAt r') : r = r' := by
  obtain ⟨a, p, page, inside⟩ := one
  obtain ⟨b, q, page', inside'⟩ := two
  obtain ⟨i, used, rfl⟩ := List.mem_map.1 inside
  obtain ⟨j, used', rfl⟩ := List.mem_map.1 inside'
  obtain ⟨rfl, rfl⟩ := sound.once page page' used used' same
  obtain rfl : p = q := Page.leaf.inj (Option.some.inj (page.symm.trans page'))
  rfl

omit [KeyBytes Key] [BoundedOrder Key] in
theorem Represents.assign (represents : Represents cfg m map) {key : Key} {value : Value}
    (others : ∀ k ≠ key, ∀ v, (∃ r ∈ m'.shelf cfg, m'.items r.kvPtr = ⟨k, v⟩) ↔ ∃ r ∈ m.shelf cfg, m.items r.kvPtr = ⟨k, v⟩)
    (own : ∀ v, (∃ r ∈ m'.shelf cfg, m'.items r.kvPtr = ⟨key, v⟩) ↔ v = value) :
    Represents cfg m' (Function.update map key (some value)) := by
  intro k v
  by_cases here : k = key
  · subst here
    rw [Function.update_self, own v, Option.some.injEq]
    exact eq_comm
  · rw [Function.update_of_ne here, others k here v]
    exact represents k v

theorem Sound.issued (sound : Sound cfg m pending top) {r : LeafEntry} (inside : r ∈ m.shelf cfg) : r.kvPtr ∈ m.itemsIssued := by
  obtain ⟨a, p, page, entry⟩ := inside
  exact ((sound.stocked a p page).stored r entry).2.2

theorem Sound.nothing (sound : Sound cfg m pending top) (represents : Represents cfg m map) (none : m.itemsIssued = [])
    (k : Key) : map k = .none := by
  refine Option.eq_none_iff_forall_ne_some.2 fun v stored => ?_
  obtain ⟨r, inside, -⟩ := (represents k v).1 stored
  have issued := sound.issued inside
  rw [none] at issued
  cases issued

theorem Sound.absent (sound : Sound cfg m pending top) {p : LeafPage Key} {key : Key} (there : m.pages a = some (.leaf p))
    (covers : p.hdr.covers key) (none : ∀ r ∈ p.entries cfg.leafCardinality, m.keyAt r ≠ key) :
    ∀ r ∈ m.shelf cfg, m.keyAt r ≠ key := by
  rintro r ⟨b, q, page, inside⟩ same
  have covers' := ((sound.stocked b q page).stored r inside).1
  rw [same] at covers'
  obtain rfl : a = b := by
    refine sound.linked.forest.disjoint a b _ _ key (tiles_page there) (tiles_page page) ?_ covers covers'
    rw [Page.tile_level, Page.tile_level]
    exact (sound.linked.leaf a p there).1.trans (sound.linked.leaf b q page).1.symm
  obtain rfl : p = q := Page.leaf.inj (Option.some.inj (there.symm.trans page))
  exact none r inside same

theorem Sound.represents_update (sound : Sound cfg m pending top) (represents : Represents cfg m map) {r : LeafEntry} {value : Value}
    (inside : r ∈ m.shelf cfg) :
    Represents cfg (m.setItem r.kvPtr ⟨m.keyAt r, value⟩) (Function.update map (m.keyAt r) (some value)) := by
  -- a value is written over the old one
  refine represents.assign (fun k other v => ?_) fun v => ?_
  · refine exists_congr fun r' => and_congr_right fun inside' => ?_
    by_cases same : r'.kvPtr = r.kvPtr
    · rw [same]
      simp only [Memory.setItem, Function.update_self, Memory.keyAt]
      refine iff_of_false (fun eq => other (congrArg KVItem.key eq).symm) fun eq => other ?_
      simp only [Memory.keyAt, eq]
    · simp only [Memory.setItem, Function.update_of_ne same]
  · constructor
    · rintro ⟨r', inside', eq⟩
      have same : r' = r := by
        refine sound.shelf_once inside' inside ?_
        by_cases ptr : r'.kvPtr = r.kvPtr
        · simp only [Memory.keyAt, ptr]
        · simp only [Memory.setItem, Function.update_of_ne ptr] at eq
          simp only [Memory.keyAt, eq]
      subst same
      simp only [Memory.setItem, Function.update_self] at eq
      exact (congrArg KVItem.value eq).symm
    · rintro rfl
      exact ⟨r, inside, by simp [Memory.setItem]⟩

theorem Sound.setItem (sound : Sound cfg m pending top) {x : GlobalAddress} {value : Value} :
    Sound cfg (m.setItem x ⟨(m.items x).key, value⟩) pending top := by
  refine ⟨sound.linked.congr rfl rfl rfl, sound.room, sound.free, fun a p there => ?_⟩
  refine (sound.stocked a p there).frame (fun y _ => ?_) fun _ inside => inside
  by_cases here : y = x
  · subst here
    simp [Memory.setItem]
  · simp [Memory.setItem, here]

theorem Sound.represents_add (sound : Sound cfg m pending top) (represents : Represents cfg m map) {x : GlobalAddress} {key : Key}
    {value : Value} (items : m'.items = Function.update m.items x ⟨key, value⟩) (unissued : x ∉ m.itemsIssued)
    (absent : ∀ r ∈ m.shelf cfg, m.keyAt r ≠ key) (shelf : ∀ r, r ∈ m'.shelf cfg ↔ r = ⟨.ofKey key, x⟩ ∨ r ∈ m.shelf cfg) :
    Represents cfg m' (Function.update map key (some value)) := by
  -- a record is added
  have old : ∀ r ∈ m.shelf cfg, m'.items r.kvPtr = m.items r.kvPtr := by
    intro r inside
    rw [items, Function.update_of_ne]
    rintro rfl
    exact unissued (sound.issued inside)
  have new : m'.items x = ⟨key, value⟩ := by rw [items, Function.update_self]
  refine represents.assign (fun k other v => ⟨?_, ?_⟩) fun v => ⟨?_, ?_⟩
  · rintro ⟨r, inside, eq⟩
    rcases (shelf r).1 inside with rfl | was
    · rw [new] at eq
      exact absurd (congrArg KVItem.key eq).symm other
    · exact ⟨r, was, old r was ▸ eq⟩
  · rintro ⟨r, inside, eq⟩
    exact ⟨r, (shelf r).2 (.inr inside), (old r inside).trans eq⟩
  · rintro ⟨r, inside, eq⟩
    rcases (shelf r).1 inside with rfl | was
    · rw [new] at eq
      exact (congrArg KVItem.value eq).symm
    · rw [old r was] at eq
      exact absurd (congrArg KVItem.key eq) (absent r was)
  · rintro rfl
    exact ⟨_, (shelf _).2 (.inl rfl), new⟩

/-- The item of an insert lies at the null address, where no record points to it. -/
def Memory.Loses (m m' : Memory Key Value) : Prop := m.itemsIssued = [] ∧ .null ∈ m'.itemsIssued

instance (m m' : Memory Key Value) : Decidable (m.Loses m') := inferInstanceAs (Decidable (_ ∧ _))

def Memory.store (m m' : Memory Key Value) (map : Key → Option Value) (key : Key) (value : Value) : Key → Option Value :=
  if m.Loses m' then map else Function.update map key (some value)

omit [KeyBytes Key] [BoundedOrder Key] in
theorem store_of_not_loses {key : Key} {value : Value} (keeps : ¬ m.Loses m') :
    m.store m' map key value = Function.update map key (some value) :=
  if_neg keeps

omit [KeyBytes Key] [BoundedOrder Key] in
theorem store_of_ne {key k : Key} {value : Value} (other : k ≠ key) : m.store m' map key value k = map k := by
  unfold Memory.store
  split
  · rfl
  · exact Function.update_of_ne other _ _

def Memory.issueItem (m : Memory Key Value) (x : GlobalAddress) (item : KVItem Key Value) : Memory Key Value :=
  { m with items := Function.update m.items x item, itemsIssued := x :: m.itemsIssued }

theorem Sound.issueItem (sound : Sound cfg m pending top) {x : GlobalAddress} (unissued : x ∉ m.itemsIssued)
    (item : KVItem Key Value) :
    Sound cfg (m.issueItem x item) pending top := by
  refine ⟨sound.linked.congr rfl rfl rfl, sound.room, sound.free, fun b q page => ?_⟩
  refine (sound.stocked b q page).frame (fun y issued => ?_) (List.subset_cons_self _ _)
  have other : y ≠ x := by
    rintro rfl
    exact unissued issued
  simp [Memory.issueItem, other]

theorem Sound.filed_setRecord (sound : Sound cfg m pending top) {p : LeafPage Key} {i : ℕ} {x : GlobalAddress} {key : Key}
    (value : Value) (there : m.pages a = some (.leaf p)) (covers : p.hdr.covers key) (bound : i < cfg.leafCardinality)
    (empty : (p.records i).isEmpty = true) (unissued : x ∉ m.itemsIssued) (notNull : x ≠ .null)
    (none : ∀ r ∈ p.entries cfg.leafCardinality, m.keyAt r ≠ key) :
    Filed cfg (m.issueItem x ⟨key, value⟩) (p.setRecord i ⟨.ofKey key, x⟩) := by
  have own : (m.issueItem x ⟨key, value⟩).keyAt ⟨.ofKey key, x⟩ = key := by simp [Memory.keyAt, Memory.issueItem]
  refine ((sound.issueItem unissued _).stocked a p there).toFiled.setRecord bound empty (by simp [LeafEntry.isEmpty, notNull])
    (own.symm ▸ covers) (by rw [own]) List.mem_cons_self fun r inside => ?_
  have other : r.kvPtr ≠ x := by
    rintro rfl
    exact unissued ((sound.stocked a p there).stored r inside).2.2
  rw [own]
  simpa [Memory.keyAt, Memory.issueItem, other] using none r inside

section
variable (sound : Sound cfg m pending top) {p q : LeafPage Key} (there : m.pages a = some (.leaf p)) (hdr : q.hdr = p.hdr)
include sound there

include hdr in
theorem Sound.setLeaf (stocked : Stocked cfg m q) : Sound cfg (m.setPage a (.leaf q)) pending top := by
  -- a leaf is rewritten in place
  refine ⟨sound.linked.replace there ?_ ?_ ?_, fun b n page => ?_, sound.free, fun b n page => ?_⟩
  · simp only [Page.hdr, hdr]
    exact ⟨rfl, rfl, rfl, rfl⟩
  · simp only [Page.Proper, hdr]
    exact sound.linked.leaf a p there
  · have tile : (Page.leaf q).tile = (Page.leaf p).tile := by simp only [Page.tile, hdr]
    rw [tile, ← tiles_page there, Function.update_eq_self]
    exact sound.linked.forest
  · rcases setPage_cases page with ⟨-, eq⟩ | ⟨-, was⟩
    · cases eq
    · exact sound.room b n was
  · rcases setPage_cases page with ⟨-, eq⟩ | ⟨-, was⟩
    · obtain rfl := Page.leaf.inj eq
      exact stocked.frame (fun _ _ => rfl) fun _ inside => inside
    · exact (sound.stocked b n was).frame (fun _ _ => rfl) fun _ inside => inside

omit sound in
theorem Sound.setRecord_null {i : ℕ} {x : GlobalAddress} {fp : Fingerprint} (sound : Sound cfg m pending top)
    (item : KVItem Key Value)
    (empty : (p.records i).isEmpty = true) (unissued : x ∉ m.itemsIssued) (null : x = .null) (none : m.itemsIssued = []) :
    Sound cfg ((m.issueItem x item).setPage a (.leaf (p.setRecord i ⟨fp, x⟩))) pending top ∧
      ∀ r, r ∉ ((m.issueItem x item).setPage a (.leaf (p.setRecord i ⟨fp, x⟩))).shelf cfg := by
  -- a first item at the null address leaves the leaves empty
  have stocked := sound.stocked a p there
  have same : (p.setRecord i ⟨fp, x⟩).entries cfg.leafCardinality = [] := by
    rw [entries_setRecord_null empty (by simp [LeafEntry.isEmpty, null]), stocked.bare none]
  refine ⟨(sound.issueItem unissued item).setLeaf there rfl ⟨⟨?_, fun r inside => ?_⟩, ?_⟩, ?_⟩
  · rw [same]
    exact List.nodup_nil
  · rw [same] at inside
    cases inside
  · have room := stocked.room
    rw [stocked.bare none] at room
    rw [same]
    exact room
  · rintro r ⟨b, n, page, inside⟩
    rcases setPage_cases page with ⟨-, eq⟩ | ⟨-, was⟩
    · obtain rfl := Page.leaf.inj eq
      rw [same] at inside
      cases inside
    · rw [(sound.stocked b n was).bare none] at inside
      cases inside

omit sound in
omit [LinearOrder Key] [KeyBytes Key] [BoundedOrder Key] in
theorem shelf_setLeaf {e : LeafEntry}
    (own : ∀ r, r ∈ q.entries cfg.leafCardinality ↔ r = e ∨ r ∈ p.entries cfg.leafCardinality) (r : LeafEntry) :
    r ∈ (m.setPage a (.leaf q)).shelf cfg ↔ r = e ∨ r ∈ m.shelf cfg := by
  constructor
  · rintro ⟨b, n, page, inside⟩
    rcases setPage_cases page with ⟨-, eq⟩ | ⟨-, was⟩
    · obtain rfl := Page.leaf.inj eq
      exact ((own r).1 inside).imp_right fun old => ⟨a, p, there, old⟩
    · exact .inr ⟨b, n, was, inside⟩
  · have here : ∀ {r}, r ∈ q.entries cfg.leafCardinality → r ∈ (m.setPage a (.leaf q)).shelf cfg :=
      fun inside => ⟨a, q, by simp [Memory.setPage], inside⟩
    rintro (is | ⟨b, n, page, inside⟩)
    · exact here ((own r).2 (.inl is))
    · by_cases same : b = a
      · subst same
        obtain rfl : p = n := Page.leaf.inj (Option.some.inj (there.symm.trans page))
        exact here ((own r).2 (.inr inside))
      · exact ⟨b, n, by simpa [Memory.setPage, same] using page, inside⟩

omit sound there in
omit [KeyBytes Key] [BoundedOrder Key] in
def Memory.splitLeaf (cfg : Config) (m : Memory Key Value) (a new : GlobalAddress) (q : LeafPage Key) (mid : Key) :
    Memory Key Value :=
  m.divided a new (.leaf (q.splitLeft (q.sorted cfg m) mid new)) (.leaf (q.splitRight (q.sorted cfg m) mid))

variable {new : GlobalAddress} (unissued : new ∉ m.pagesIssued)
include unissued

include hdr in
theorem Sound.splitLeaf (notNull : new ≠ .null) (filed : Filed cfg m q) (two : 2 ≤ (q.sorted cfg m).length) {e : Key × LeafEntry}
    (middle : (q.sorted cfg m)[(q.sorted cfg m).length / 2]? = some e) :
    Sound cfg (m.splitLeaf cfg a new q e.1) (Insert.insert new pending) top := by
  have inside := filed.middle_inside two middle
  have other : a ≠ new := by
    rintro rfl
    exact unissued (sound.linked.issued a _ there)
  have level : q.hdr.level = p.hdr.level := by rw [hdr]
  rw [hdr] at inside
  refine ⟨sound.linked.splitLeaf there unissued notNull ?_ inside ⟨?_, rfl⟩, fun b n page => ?_, sound.free, fun b n page => ?_⟩
  · constructor <;> simp [LeafPage.splitLeft, LeafPage.splitRight, hdr]
  · simp only [LeafPage.splitLeft, hdr]
    exact (sound.linked.leaf a p there).2
  · rcases divided_cases other page with ⟨-, eq⟩ | ⟨-, eq⟩ | ⟨-, -, was⟩
    · cases eq
    · cases eq
    · exact sound.room b n was
  · rcases divided_cases other page with ⟨-, eq⟩ | ⟨-, eq⟩ | ⟨-, -, was⟩
    · obtain rfl := Page.leaf.inj eq
      exact (filed.splitRight_stocked two middle).frame (fun _ _ => rfl) fun _ inside => inside
    · obtain rfl := Page.leaf.inj eq
      exact (filed.splitLeft_stocked two middle new).frame (fun _ _ => rfl) fun _ inside => inside
    · exact (sound.stocked b n was).frame (fun _ _ => rfl) fun _ inside => inside

theorem Sound.shelf_splitLeaf {e : LeafEntry}
    (own : ∀ r, r ∈ q.entries cfg.leafCardinality ↔ r = e ∨ r ∈ p.entries cfg.leafCardinality) (mid : Key) (r : LeafEntry) :
    r ∈ (m.splitLeaf cfg a new q mid).shelf cfg ↔ r = e ∨ r ∈ m.shelf cfg := by
  have unused := sound.linked.unused unissued
  have other : a ≠ new := by
    rintro rfl
    exact unissued (sound.linked.issued a _ there)
  constructor
  · rintro ⟨b, n, page, inside⟩
    rcases divided_cases other page with ⟨-, eq⟩ | ⟨-, eq⟩ | ⟨-, -, was⟩
    · obtain rfl := Page.leaf.inj eq
      exact ((own r).1 ((mem_entries_split mid new).2 (.inr inside))).imp_right fun old => ⟨a, p, there, old⟩
    · obtain rfl := Page.leaf.inj eq
      exact ((own r).1 ((mem_entries_split mid new).2 (.inl inside))).imp_right fun old => ⟨a, p, there, old⟩
    · exact .inr ⟨b, n, was, inside⟩
  · have here : r ∈ q.entries cfg.leafCardinality → r ∈ (m.splitLeaf cfg a new q mid).shelf cfg := by
      intro inside
      rcases (mem_entries_split mid new).1 inside with left | right
      · exact ⟨a, _, divided_left, left⟩
      · exact ⟨new, _, divided_right other, right⟩
    rintro (is | ⟨b, n, page, inside⟩)
    · exact here ((own r).2 (.inl is))
    · by_cases same : b = a
      · subst same
        obtain rfl : p = n := Page.leaf.inj (Option.some.inj (there.symm.trans page))
        exact here ((own r).2 (.inr inside))
      · have notNew : b ≠ new := by
          rintro rfl
          rw [unused] at page
          cases page
        exact ⟨b, n, (divided_other notNew same).trans page, inside⟩

end

/-! ## Kept leaves -/

/-- Every leaf is still a leaf and starts at the same key. -/
def Kept (m m' : Memory Key Value) : Prop :=
  ∀ a p, m.pages a = some (.leaf p) → ∃ p', m'.pages a = some (.leaf p') ∧ p'.hdr.lowest = p.hdr.lowest

omit [LinearOrder Key] [KeyBytes Key] [BoundedOrder Key] in
theorem Kept.refl (m : Memory Key Value) : Kept m m := fun _ p there => ⟨p, there, rfl⟩

omit [LinearOrder Key] [KeyBytes Key] [BoundedOrder Key] in
theorem Kept.trans {m'' : Memory Key Value} (one : Kept m m') (two : Kept m' m'') : Kept m m'' := by
  intro a p there
  obtain ⟨p', there', same⟩ := one a p there
  obtain ⟨p'', there'', same'⟩ := two a p' there'
  exact ⟨p'', there'', same'.trans same⟩

omit [LinearOrder Key] [KeyBytes Key] [BoundedOrder Key] in
theorem kept_setLeaf {p q : LeafPage Key} (there : m.pages a = some (.leaf p)) (lowest : q.hdr.lowest = p.hdr.lowest) :
    Kept m (m.setPage a (.leaf q)) := by
  intro b n page
  by_cases here : b = a
  · subst here
    obtain rfl : p = n := Page.leaf.inj (Option.some.inj (there.symm.trans page))
    exact ⟨q, by simp [Memory.setPage], lowest⟩
  · exact ⟨n, by simpa [Memory.setPage, here] using page, rfl⟩

theorem Sound.kept_splitLeaf (sound : Sound cfg m pending top) {p q : LeafPage Key} (there : m.pages a = some (.leaf p))
    (hdr : q.hdr = p.hdr) {new : GlobalAddress} (unissued : new ∉ m.pagesIssued) (mid : Key) :
    Kept m (m.splitLeaf cfg a new q mid) := by
  intro b n page
  by_cases here : b = a
  · subst here
    obtain rfl : p = n := Page.leaf.inj (Option.some.inj (there.symm.trans page))
    have lowest : q.hdr.lowest = p.hdr.lowest := congrArg Header.lowest hdr
    exact ⟨_, divided_left, lowest⟩
  · have notNew : b ≠ new := by
      rintro rfl
      exact unissued (sound.linked.issued b _ page)
    exact ⟨n, (divided_other notNew here).trans page, rfl⟩

/-! ## Above the leaves -/

/-- The leaves and the items are left alone. -/
structure SameLeaves (m m' : Memory Key Value) : Prop where
  leaves : ∀ a p, m'.pages a = some (.leaf p) ↔ m.pages a = some (.leaf p)
  items : m'.items = m.items
  itemsIssued : m'.itemsIssued = m.itemsIssued

omit [LinearOrder Key] [KeyBytes Key] [BoundedOrder Key] in
theorem SameLeaves.trans {m'' : Memory Key Value} (one : SameLeaves m m') (two : SameLeaves m' m'') : SameLeaves m m'' :=
  ⟨fun a p => (two.leaves a p).trans (one.leaves a p), two.items.trans one.items, two.itemsIssued.trans one.itemsIssued⟩

omit [LinearOrder Key] [KeyBytes Key] [BoundedOrder Key] in
theorem SameLeaves.kept (same : SameLeaves m m') : Kept m m' := fun a p there => ⟨p, (same.leaves a p).2 there, rfl⟩

omit [LinearOrder Key] [KeyBytes Key] [BoundedOrder Key] in
theorem SameLeaves.shelf (same : SameLeaves m m') : m'.shelf cfg = m.shelf cfg := by
  ext r
  simp only [Memory.shelf, same.leaves]

theorem SameLeaves.stocked (same : SameLeaves m m') (sound : Sound cfg m pending top) {p : LeafPage Key}
    (there : m'.pages a = some (.leaf p)) : Stocked cfg m' p := by
  refine (sound.stocked a p ((same.leaves a p).1 there)).frame (fun _ _ => by rw [same.items]) ?_
  rw [same.itemsIssued]
  exact List.Subset.refl _

section
variable (sound : Sound cfg m pending top) {n : InternalPage Key} {q : Page Key}
  (there : m.pages a = some (.internal n)) (waits : b ∈ pending) (found : m.pages b = some q) (level : q.hdr.level + 1 = n.hdr.level)
  (covers : n.hdr.covers q.hdr.lowest)
include sound there

omit [LinearOrder Key] [KeyBytes Key] [BoundedOrder Key] sound in
theorem sameLeaves_setPage (n' : InternalPage Key) : SameLeaves m (m.setPage a (.internal n')) := by
  refine ⟨fun b p => ⟨fun page => ?_, fun page => ?_⟩, rfl, rfl⟩
  · rcases setPage_cases page with ⟨-, eq⟩ | ⟨-, was⟩
    · cases eq
    · exact was
  · have other : b ≠ a := by
      rintro rfl
      cases there.symm.trans page
    simpa [Memory.setPage, other] using page

include waits found level covers

theorem Sound.link (space : (n.withRecord q.hdr.lowest b).cnt ≠ cfg.internalCardinality) :
    Sound cfg (m.setPage a (.internal (n.withRecord q.hdr.lowest b))) (pending \ {b}) top := by
  refine ⟨sound.linked.link there waits found level covers, fun c p page => ?_, sound.free,
    fun c p page => (sameLeaves_setPage there _).stocked sound page⟩
  rcases setPage_cases page with ⟨-, eq⟩ | ⟨-, was⟩
  · obtain rfl := Page.internal.inj eq
    obtain ⟨index, placed⟩ := sound.linked.placed there waits found level
    have old := sound.room a n there
    have cnt := placed.cnt (sound.linked.internal a n there).2
    omega
  · exact sound.room c p was

variable {new : GlobalAddress} (unissued : new ∉ m.pagesIssued)
include unissued

omit waits found level covers in
theorem Sound.sameLeaves_divided (left right : InternalPage Key) :
    SameLeaves m (m.divided a new (.internal left) (.internal right)) := by
  have other : a ≠ new := by
    rintro rfl
    exact unissued (sound.linked.issued a _ there)
  refine ⟨fun b p => ⟨fun page => ?_, fun page => ?_⟩, rfl, rfl⟩
  · rcases divided_cases other page with ⟨-, eq⟩ | ⟨-, eq⟩ | ⟨-, -, was⟩
    · cases eq
    · cases eq
    · exact was
  · have notNew : b ≠ new := by
      rintro rfl
      exact unissued (sound.linked.issued b _ page)
    have notLeft : b ≠ a := by
      rintro rfl
      cases there.symm.trans page
    rw [divided_other notNew notLeft, page]

theorem Sound.linkAndSplit (notNull : new ≠ .null) (three : 3 ≤ cfg.internalCardinality)
    (full : (n.withRecord q.hdr.lowest b).cnt = cfg.internalCardinality) :
    Sound cfg (m.divided a new (.internal ((n.withRecord q.hdr.lowest b).splitLeft new))
      (.internal (n.withRecord q.hdr.lowest b).splitRight))
      (Insert.insert new (pending \ {b})) top := by
  have other : a ≠ new := by
    rintro rfl
    exact unissued (sound.linked.issued a _ there)
  have ordered := sound.linked.withRecord_ordered there waits found level covers
  refine ⟨sound.linked.linkAndSplit there waits found level covers unissued notNull (full ▸ three), fun c p page => ?_, sound.free,
    fun c p page => (sound.sameLeaves_divided there unissued _ _).stocked sound page⟩
  rcases divided_cases other page with ⟨-, eq⟩ | ⟨-, eq⟩ | ⟨-, -, was⟩
  · obtain rfl := Page.internal.inj eq
    rw [InternalPage.splitRight_cnt ordered]
    omega
  · obtain rfl := Page.internal.inj eq
    rw [InternalPage.splitLeft_cnt ordered]
    omega
  · exact sound.room c p was

end

section
variable (sound : Sound cfg m pending top) {q : Page Key} {new : GlobalAddress} (unissued : new ∉ m.pagesIssued)
include sound unissued

theorem Sound.sameLeaves_raised (key : Key) (right : GlobalAddress) (level : ℕ) : SameLeaves m (m.raised new key right level) := by
  refine ⟨fun b p => ⟨fun page => ?_, fun page => ?_⟩, rfl, rfl⟩
  · rcases raised_cases page with ⟨-, eq⟩ | was
    · cases eq
    · exact was
  · have notNew : b ≠ new := by
      rintro rfl
      exact unissued (sound.linked.issued b _ page)
    rw [raised_other notNew, page]

theorem Sound.raise (waits : b ∈ pending) (found : m.pages b = some q) (level : q.hdr.level = top) (notNull : new ≠ .null)
    (three : 3 ≤ cfg.internalCardinality) : Sound cfg (m.raised new q.hdr.lowest b (top + 1)) (pending \ {b}) (top + 1) := by
  refine ⟨sound.linked.raise waits found level unissued notNull, fun c p page => ?_, sound.free,
    fun c p page => (sound.sameLeaves_raised unissued _ _ _).stocked sound page⟩
  rcases raised_cases page with ⟨-, eq⟩ | was
  · obtain rfl := Page.internal.inj eq
    exact lt_of_lt_of_le (by decide : 1 < 3) three
  · exact sound.room c p was

end

end

end Faunus.Sherman
