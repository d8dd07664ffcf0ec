import Faunus.Index.Effects

/-! Who owns an item.

An item address is in a free list, with the thread that allocated it, with the
thread that took it out of a slot, or in one live slot. A leaf under split counts
with the blocks its thread has read, since these are written back.
-/

set_option autoImplicit false

namespace Faunus

open Interleaving

variable {Key Value : Type}

inductive Place where
  | free (server : ℕ)
  | item (t : Thread)
  | freeing (t : Thread)
  | slot (a : GlobalAddress) (i : ℕ)

section
variable (cfg : Config) (gs : Thread → Local Key Value) (m : Memory Key Value)

/-- The blocks of a leaf, as its splitting thread has read them if there is one. -/
def Content (a : GlobalAddress) (leaf : LeafNode Key) : Prop :=
  (∃ t, (gs t).smo.held = [a] ∧ (gs t).smo.kept = some leaf) ∨
    (∀ t, (gs t).smo.held = [a] → (gs t).smo.kept = none) ∧ Born gs m a (.leaf leaf)

/-- Slot `i` of the leaf at `a` holds a live block with this address and fingerprint. -/
def Live (a : GlobalAddress) (i : ℕ) (x : GlobalAddress) (fp : Fingerprint) : Prop :=
  ∃ leaf, Content gs m a leaf ∧ i < cfg.branchFactor ∧ (leaf.kvBlocks i).isFree = false ∧
    (leaf.kvBlocks i).getAddr = x ∧ (leaf.kvBlocks i).getFingerprint = fp

def Holds : Place → GlobalAddress → Prop
  | .free server, x => x ∈ m.freeItems server
  | .item t, x => ∃ item wrote, (gs t).put.item = some (x, item, wrote)
  | .freeing t, x => (gs t).put.freeing = some x
  | .slot a i, x => ∃ fp, Live cfg gs m a i x fp

structure Owned [KeyBytes Key] : Prop where
  unique : ∀ x p q, Holds cfg gs m p x → Holds cfg gs m q x → p = q
  issued : ∀ x p, Holds cfg gs m p x → x ∈ m.itemsIssued ∧ x.Fits
  nodup : ∀ server, (m.freeItems server).Nodup
  fingerprint : ∀ a i x fp, Live cfg gs m a i x fp → .ofKey (m.items x).key = fp
  written : ∀ t x item, (gs t).put.item = some (x, item, true) → m.items x = item

end

section
variable {cfg : Config} {gs gs' : Thread → Local Key Value} {m m' : Memory Key Value} {t : Thread} {g : Local Key Value}
  {a b : GlobalAddress} {i : ℕ} {x : GlobalAddress} {fp : Fingerprint}

/-! ## Live blocks -/

theorem Discipline.live_of_born {leaf : LeafNode Key} (inv : Discipline gs m cfg) (born : Born gs m a (.leaf leaf))
    (bound : i < cfg.branchFactor) (taken : (leaf.kvBlocks i).isFree = false) :
    Live cfg gs m a i (leaf.kvBlocks i).getAddr (leaf.kvBlocks i).getFingerprint := by
  -- a live block of a leaf in memory counts, under split or not
  by_cases kept : ∃ u snap, (gs u).smo.held = [a] ∧ (gs u).smo.kept = some snap
  · obtain ⟨u, snap, only, noted⟩ := kept
    obtain ⟨c, now, only', there, -, blocks⟩ := inv.notes.kept u snap noted
    obtain rfl : a = c := by simpa [only] using only'
    obtain rfl := Node.leaf.inj (born_unique born there)
    have same : leaf.kvBlocks i = snap.kvBlocks i := by
      rcases blocks i with same | ⟨free, -⟩
      · exact same
      · simp [taken] at free
    exact ⟨snap, Or.inl ⟨u, only, noted⟩, bound, same ▸ taken, by rw [same], by rw [same]⟩
  · refine ⟨leaf, Or.inr ⟨fun u only => ?_, born⟩, bound, taken, rfl, rfl⟩
    cases noted : (gs u).smo.kept with
    | none => rfl
    | some snap => exact absurd ⟨u, snap, only, noted⟩ kept

theorem live_cases (live : Live cfg (Function.update gs t g) m' b i x fp) :
    Live cfg gs m b i x fp ∨ ∃ now : LeafNode Key,
      (g.smo.held = [b] ∧ g.smo.kept = some now ∨ Born (Function.update gs t g) m' b (.leaf now)) ∧
        i < cfg.branchFactor ∧ (now.kvBlocks i).isFree = false ∧ (now.kvBlocks i).getAddr = x ∧
        (now.kvBlocks i).getFingerprint = fp := by
  obtain ⟨now, content, block⟩ := live
  rcases content with ⟨u, only, kept⟩ | ⟨-, born⟩
  · by_cases same : u = t
    · subst same
      rw [Function.update_self] at only kept
      exact Or.inr ⟨now, Or.inl ⟨only, kept⟩, block⟩
    · rw [Function.update_of_ne same] at only kept
      exact Or.inl ⟨now, Or.inl ⟨u, only, kept⟩, block⟩
  · exact Or.inr ⟨now, Or.inr born, block⟩

theorem Owned.of_origin [KeyBytes Key] (owned : Owned cfg gs m) (origin : Place → Place → Prop)
    (injective : ∀ p q o, origin p o → origin q o → p = q)
    (holds : ∀ p x, Holds cfg gs' m' p x → ∃ o, origin p o ∧ Holds cfg gs m o x)
    (issued : m'.itemsIssued = m.itemsIssued) (nodup : ∀ server, (m'.freeItems server).Nodup)
    (fingerprint : ∀ a i x fp, Live cfg gs' m' a i x fp → .ofKey (m'.items x).key = fp)
    (written : ∀ t x item, (gs' t).put.item = some (x, item, true) → m'.items x = item) :
    Owned cfg gs' m' := by
  refine ⟨fun x p q one two => ?_, fun x p one => ?_, nodup, fingerprint, written⟩
  · obtain ⟨o, from_, old⟩ := holds p x one
    obtain ⟨o', from_', old'⟩ := holds q x two
    obtain rfl := owned.unique x o o' old old'
    exact injective p q o from_ from_'
  · obtain ⟨o, -, old⟩ := holds p x one
    rw [issued]
    exact owned.issued x o old

theorem Owned.keep [KeyBytes Key] (owned : Owned cfg gs m)
    (live : ∀ b i x fp, Live cfg (Function.update gs t g) m' b i x fp → Live cfg gs m b i x fp)
    (item : g.put.item = (gs t).put.item) (freeing : g.put.freeing = (gs t).put.freeing)
    (free : m'.freeItems = m.freeItems) (issued : m'.itemsIssued = m.itemsIssued) (items : m'.items = m.items) :
    Owned cfg (Function.update gs t g) m' := by
  -- blocks may die; everything else stays where it is
  have sameItem : ∀ u, (Function.update gs t g u).put.item = (gs u).put.item :=
    (Function.forall_update_iff gs (p := fun u l => l.put.item = (gs u).put.item)).2 ⟨item, fun _ _ => rfl⟩
  have sameFreeing : ∀ u, (Function.update gs t g u).put.freeing = (gs u).put.freeing :=
    (Function.forall_update_iff gs (p := fun u l => l.put.freeing = (gs u).put.freeing)).2 ⟨freeing, fun _ _ => rfl⟩
  refine owned.of_origin Eq (fun p q o one two => one.trans two.symm) (fun p x held => ⟨p, rfl, ?_⟩) issued
    (by rw [free]; exact owned.nodup) (fun b i x fp now => ?_) (fun u x written => ?_)
  · cases p with
    | free server => simpa only [Holds, free] using held
    | item u => simpa only [Holds, sameItem] using held
    | freeing u => simpa only [Holds, sameFreeing] using held
    | slot b i =>
      obtain ⟨fp, now⟩ := held
      exact ⟨fp, live b i x fp now⟩
  · rw [items]
    exact owned.fingerprint b i x fp (live b i x fp now)
  · rw [items, sameItem]
    exact owned.written u x written

/-- The leaves stay as they are up to lock bits, or lose blocks; the thread keeps what it has read or forgets it. -/
theorem Discipline.live_before (inv : Discipline gs m cfg)
    (leaves : ∀ b now, Born (Function.update gs t g) m' b (.leaf now) → ∃ old, Born gs m b (.leaf old) ∧
      ∀ i < cfg.branchFactor, (now.kvBlocks i).isFree = false → (old.kvBlocks i).isFree = false ∧
        (old.kvBlocks i).getAddr = (now.kvBlocks i).getAddr ∧
        (old.kvBlocks i).getFingerprint = (now.kvBlocks i).getFingerprint)
    (notes : g.smo.kept = none ∨ g.smo.held = (gs t).smo.held ∧ g.smo.kept = (gs t).smo.kept)
    (live : Live cfg (Function.update gs t g) m' b i x fp) : Live cfg gs m b i x fp := by
  rcases live_cases live with old | ⟨now, ⟨only, kept⟩ | born, bound, taken, rfl, rfl⟩
  · exact old
  · rcases notes with none | ⟨held, same⟩
    · simp [none] at kept
    · exact ⟨now, Or.inl ⟨t, held ▸ only, same ▸ kept⟩, bound, taken, rfl, rfl⟩
  · obtain ⟨old, before, blocks⟩ := leaves b now born
    obtain ⟨still, addr, print⟩ := blocks i bound taken
    rw [← addr, ← print]
    exact inv.live_of_born before bound still

theorem Discipline.live_quiet (inv : Discipline gs m cfg) (same : SameLeaves cfg gs (Function.update gs t g) m m')
    (notes : g.smo.kept = none ∨ g.smo.held = (gs t).smo.held ∧ g.smo.kept = (gs t).smo.kept)
    (live : Live cfg (Function.update gs t g) m' b i x fp) : Live cfg gs m b i x fp := by
  refine inv.live_before (fun c now born => ?_) notes live
  obtain ⟨old, before, like⟩ := same.before c now born
  refine ⟨old, before, fun j small taken => ?_⟩
  exact ⟨(like.isFree small).symm.trans taken, (like.getAddr small).symm, (like.getFingerprint small).symm⟩

theorem Discipline.live_setFree {leaf : LeafNode Key} {desired : KVBlock} {j : ℕ} (inv : Discipline gs m cfg)
    (born : Born gs m a (.leaf leaf)) (freed : desired.isFree = true)
    (live : Live cfg (Function.update gs t (gs t)) (m.setNode a (.leaf (leaf.setBlock j desired))) b i x fp) :
    Live cfg gs m b i x fp := by
  refine inv.live_before (fun c now present => ?_) (Or.inr ⟨rfl, rfl⟩) live
  rw [Function.update_eq_self, born_setNode born] at present
  rcases present with ⟨rfl, eq⟩ | ⟨-, old⟩
  · cases eq
    refine ⟨leaf, born, fun k small taken => ?_⟩
    by_cases here : k = j
    · subst here
      simp [LeafNode.setBlock, freed] at taken
    · simp only [LeafNode.setBlock, Function.update_of_ne here] at taken ⊢
      exact ⟨taken, trivial, trivial⟩
  · exact ⟨now, old, fun k small taken => ⟨taken, rfl, rfl⟩⟩

theorem live_same (smo : g.smo = (gs t).smo) (nodes : m'.nodes = m.nodes) :
    Live cfg (Function.update gs t g) m' b i x fp ↔ Live cfg gs m b i x fp := by
  have own : ∀ u, (Function.update gs t g u).smo = (gs u).smo :=
    (Function.forall_update_iff gs (p := fun u l => l.smo = (gs u).smo)).2 ⟨smo, fun _ _ => rfl⟩
  simp only [Live, Content, Born, Fresh, own, nodes]

theorem holds_cases {p : Place} (held : Holds cfg (Function.update gs t g) m' p x) :
    (∃ server, p = .free server ∧ x ∈ m'.freeItems server) ∨ (p = .item t ∧ ∃ item wrote, g.put.item = some (x, item, wrote)) ∨
      (p = .freeing t ∧ g.put.freeing = some x) ∨
      (∃ b i fp, p = .slot b i ∧ Live cfg (Function.update gs t g) m' b i x fp) ∨
      Holds cfg gs m p x ∧ ∃ u ≠ t, p = .item u ∨ p = .freeing u := by
  -- a place of another thread is as it was
  cases p with
  | free server => exact Or.inl ⟨server, rfl, held⟩
  | slot b i =>
    obtain ⟨fp, live⟩ := held
    exact Or.inr (Or.inr (Or.inr (Or.inl ⟨b, i, fp, rfl, live⟩)))
  | item u =>
    by_cases same : u = t
    · subst same
      simp only [Holds, Function.update_self] at held
      exact Or.inr (Or.inl ⟨rfl, held⟩)
    · simp only [Holds, Function.update_of_ne same] at held
      exact Or.inr (Or.inr (Or.inr (Or.inr ⟨held, u, same, Or.inl rfl⟩)))
  | freeing u =>
    by_cases same : u = t
    · subst same
      simp only [Holds, Function.update_self] at held
      exact Or.inr (Or.inr (Or.inl ⟨rfl, held⟩))
    · simp only [Holds, Function.update_of_ne same] at held
      exact Or.inr (Or.inr (Or.inr (Or.inr ⟨held, u, same, Or.inr rfl⟩)))

theorem Owned.move [KeyBytes Key] (owned : Owned cfg gs m) (moved : GlobalAddress → Option Place)
    (there : ∀ x p q, moved x = some q → Holds cfg gs' m' p x → p = q ∧ x ∈ m'.itemsIssued ∧ x.Fits)
    (rest : ∀ x p, moved x = none → Holds cfg gs' m' p x → Holds cfg gs m p x)
    (issued : ∀ x ∈ m.itemsIssued, x ∈ m'.itemsIssued) (nodup : ∀ server, (m'.freeItems server).Nodup)
    (fingerprint : ∀ a i x fp, Live cfg gs' m' a i x fp → .ofKey (m'.items x).key = fp)
    (written : ∀ t x item, (gs' t).put.item = some (x, item, true) → m'.items x = item) :
    Owned cfg gs' m' := by
  refine ⟨fun x p q one two => ?_, fun x p one => ?_, nodup, fingerprint, written⟩
  · cases goes : moved x with
    | none => exact owned.unique x p q (rest x p goes one) (rest x q goes two)
    | some o => exact (there x p o goes one).1.trans (there x q o goes two).1.symm
  · cases goes : moved x with
    | none =>
      obtain ⟨known, fits⟩ := owned.issued x p (rest x p goes one)
      exact ⟨issued x known, fits⟩
    | some o => exact (there x p o goes one).2

end

/-! ## Addresses on the move -/

section
variable [KeyBytes Key] {cfg : Config} {gs : Thread → Local Key Value} {m m' : Memory Key Value} {t : Thread}
  {a x : GlobalAddress} {i : ℕ} {item : KVItem Key Value}

theorem Owned.allocated (owned : Owned cfg gs m) (alloc : m.allocItem t.server x = some m') :
    (∀ p, Holds cfg gs m p x → p = .free t.server) ∧ (∀ server, x ∉ m'.freeItems server) ∧ x ∈ m'.itemsIssued ∧
      (∀ y server, y ≠ x → (y ∈ m'.freeItems server ↔ y ∈ m.freeItems server)) ∧
      (∀ y ∈ m.itemsIssued, y ∈ m'.itemsIssued) ∧ (∀ server, (m'.freeItems server).Nodup) ∧ m'.items = m.items := by
  -- an allocated address was in no other place
  unfold Memory.allocItem at alloc
  split at alloc
  · rename_i freed
    cases alloc
    have here : Holds cfg gs m (.free t.server) x := freed
    refine ⟨fun p held => owned.unique x p _ held here, fun server => ?_, (owned.issued x _ here).1, fun y server other => ?_,
      fun y known => known, fun server => ?_, rfl⟩
    · by_cases same : server = t.server
      · subst same
        simp only [Function.update_self]
        exact (owned.nodup _).not_mem_erase
      · simp only [Function.update_of_ne same]
        intro also
        exact same (Place.free.inj (owned.unique x (.free server) _ also here))
    · by_cases same : server = t.server
      · subst same
        simp only [Function.update_self]
        exact List.mem_erase_of_ne other
      · simp only [Function.update_of_ne same]
    · by_cases same : server = t.server
      · subst same
        simp only [Function.update_self]
        exact (owned.nodup _).erase x
      · simp only [Function.update_of_ne same]
        exact owned.nodup server
  · split at alloc
    · cases alloc
    · rename_i unknown
      cases alloc
      exact ⟨fun p held => absurd (owned.issued x p held).1 unknown,
        fun server also => unknown (owned.issued x (.free server) also).1, List.mem_cons_self, fun _ _ _ => Iff.rfl,
        fun y known => List.mem_cons_of_mem _ known, owned.nodup, rfl⟩

theorem Owned.allocItem (owned : Owned cfg gs m) (fits : x.Fits) (alloc : m.allocItem t.server x = some m') :
    Owned cfg (Function.update gs t { gs t with put := { (gs t).put with item := some (x, item, false) } }) m' := by
  obtain ⟨unheld, unlisted, known, free, issued, nodup, items⟩ := owned.allocated alloc
  have live : ∀ {b i y fp}, Live cfg (Function.update gs t
      { gs t with put := { (gs t).put with item := some (x, item, false) } }) m' b i y fp ↔ Live cfg gs m b i y fp :=
    live_same rfl (Memory.allocItem_frame alloc).1
  refine owned.move (fun y => if y = x then some (.item t) else none) ?_ ?_ issued nodup ?_ ?_
  · intro y p q goes held
    split_ifs at goes with here
    cases goes
    subst here
    refine ⟨?_, known, fits⟩
    rcases holds_cases (m := m) held with ⟨server, rfl, listed⟩ | ⟨rfl, -⟩ | ⟨rfl, freeing⟩ | ⟨b, i, fp, rfl, now⟩ |
      ⟨old, u, -, rfl | rfl⟩
    · exact absurd listed (unlisted server)
    · rfl
    · cases unheld (.freeing t) freeing
    · cases unheld (.slot b i) ⟨fp, live.1 now⟩
    · cases unheld _ old
    · cases unheld _ old
  · intro y p goes held
    have other : y ≠ x := by
      rintro rfl
      simp at goes
    rcases holds_cases (m := m) held with ⟨server, rfl, listed⟩ | ⟨rfl, _, _, own⟩ | ⟨rfl, freeing⟩ | ⟨b, i, fp, rfl, now⟩ |
      ⟨old, -⟩
    · exact (free y server other).1 listed
    · cases own
      exact absurd rfl other
    · exact freeing
    · exact ⟨fp, live.1 now⟩
    · exact old
  · intro b i y fp now
    rw [items]
    exact owned.fingerprint b i y fp (live.1 now)
  · rw [items]
    exact (Function.forall_update_iff gs (p := fun _ l => ∀ y item, l.put.item = some (y, item, true) → m.items y = item)).2
      ⟨by simp, fun u _ => owned.written u⟩

theorem Owned.writeItem (owned : Owned cfg gs m) (own : (gs t).put.item = some (x, item, false)) :
    Owned cfg (Function.update gs t { gs t with put := { (gs t).put with item := some (x, item, true) } })
      (m.setItem x item) := by
  -- an item is written before a block points to it
  have live : ∀ {b i y fp}, Live cfg (Function.update gs t { gs t with put := { (gs t).put with item := some (x, item, true) } })
      (m.setItem x item) b i y fp ↔ Live cfg gs m b i y fp := live_same rfl rfl
  have here : Holds cfg gs m (.item t) x := ⟨item, false, own⟩
  refine owned.move (fun _ => none) (by simp) (fun y p _ held => ?_) (fun y known => known) owned.nodup ?_ ?_
  · rcases holds_cases (m := m) held with ⟨server, rfl, listed⟩ | ⟨rfl, _, _, now⟩ | ⟨rfl, freeing⟩ | ⟨b, i, fp, rfl, now⟩ |
      ⟨old, -⟩
    · exact listed
    · cases now
      exact here
    · exact freeing
    · exact ⟨fp, live.1 now⟩
    · exact old
  · intro b i y fp now
    have other : y ≠ x := by
      rintro rfl
      cases owned.unique y _ (.slot b i) here ⟨fp, live.1 now⟩
    simp only [Memory.setItem, Function.update_of_ne other]
    exact owned.fingerprint b i y fp (live.1 now)
  · refine (Function.forall_update_iff gs (p := fun _ l => ∀ y new, l.put.item = some (y, new, true) →
      (m.setItem x item).items y = new)).2 ⟨?_, fun u other y new theirs => ?_⟩
    · rintro y new ⟨⟩
      simp [Memory.setItem]
    · have different : y ≠ x := by
        rintro rfl
        exact other (Place.item.inj (owned.unique y (.item u) (.item t) ⟨new, true, theirs⟩ here))
      simp only [Memory.setItem, Function.update_of_ne different]
      exact owned.written u y new theirs

theorem Owned.freeItem (owned : Owned cfg gs m) (own : (gs t).put.freeing = some x) :
    Owned cfg (Function.update gs t { gs t with put := { (gs t).put with freeing := none } }) (m.freeItem t.server x) := by
  have live : ∀ {b i y fp}, Live cfg (Function.update gs t { gs t with put := { (gs t).put with freeing := none } })
      (m.freeItem t.server x) b i y fp ↔ Live cfg gs m b i y fp := live_same rfl rfl
  have here : Holds cfg gs m (.freeing t) x := own
  have free : ∀ y server, y ∈ (m.freeItem t.server x).freeItems server ↔
      y = x ∧ server = t.server ∨ y ∈ m.freeItems server := by
    intro y server
    by_cases same : server = t.server
    · subst same
      simp [Memory.freeItem]
    · simp [Memory.freeItem, same]
  have unlisted : ∀ server, x ∉ m.freeItems server := by
    intro server listed
    cases owned.unique x (.free server) _ listed here
  refine owned.move (fun y => if y = x then some (.free t.server) else none) ?_ ?_ (fun y known => known) ?_ ?_ ?_
  · intro y p q goes held
    split_ifs at goes with same
    cases goes
    subst same
    refine ⟨?_, owned.issued y _ here⟩
    rcases holds_cases (m := m) held with ⟨server, rfl, listed⟩ | ⟨rfl, now⟩ | ⟨rfl, now⟩ | ⟨b, i, fp, rfl, now⟩ |
      ⟨old, u, other, rfl | rfl⟩
    · rcases (free y server).1 listed with ⟨-, rfl⟩ | old
      · rfl
      · exact absurd old (unlisted server)
    · cases owned.unique y (.item t) _ now here
    · cases now
    · cases owned.unique y (.slot b i) _ ⟨fp, live.1 now⟩ here
    · cases owned.unique y _ _ old here
    · exact absurd (Place.freeing.inj (owned.unique y _ _ old here)) other
  · intro y p goes held
    have other : y ≠ x := by
      rintro rfl
      simp at goes
    rcases holds_cases (m := m) held with ⟨server, rfl, listed⟩ | ⟨rfl, now⟩ | ⟨rfl, now⟩ | ⟨b, i, fp, rfl, now⟩ | ⟨old, -⟩
    · exact ((free y server).1 listed).resolve_left fun same => other same.1
    · exact now
    · cases now
    · exact ⟨fp, live.1 now⟩
    · exact old
  · intro server
    by_cases same : server = t.server
    · subst same
      simp only [Memory.freeItem, Function.update_self]
      exact List.nodup_cons.2 ⟨unlisted _, owned.nodup _⟩
    · simp only [Memory.freeItem, Function.update_of_ne same]
      exact owned.nodup server
  · intro b i y fp now
    exact owned.fingerprint b i y fp (live.1 now)
  · exact (Function.forall_update_iff gs (p := fun _ l => ∀ y item, l.put.item = some (y, item, true) → m.items y = item)).2
      ⟨owned.written t, fun u _ => owned.written u⟩

omit [KeyBytes Key] in
theorem Discipline.live_setBlock {g : Local Key Value} {leaf : LeafNode Key} {block : KVBlock} {b : GlobalAddress} {j : ℕ}
    {y : GlobalAddress} {fp : Fingerprint} (inv : Discipline gs m cfg) (born : Born gs m a (.leaf leaf))
    (bound : i < cfg.branchFactor) (unlocked : (leaf.kvBlocks i).isLocked = false) (smo : g.smo = (gs t).smo)
    (live : Live cfg (Function.update gs t g) (m.setNode a (.leaf (leaf.setBlock i block))) b j y fp) :
    (b = a ∧ j = i ∧ block.getAddr = y ∧ block.getFingerprint = fp) ∨ ¬ (b = a ∧ j = i) ∧ Live cfg gs m b j y fp := by
  -- an unlocked slot is exchanged: no thread has read the leaf under split
  have own : ∀ u, (Function.update gs t g u).smo = (gs u).smo :=
    (Function.forall_update_iff gs (p := fun u l => l.smo = (gs u).smo)).2 ⟨smo, fun _ _ => rfl⟩
  obtain ⟨now, content, small, taken, rfl, rfl⟩ := live
  simp only [Content, own] at content
  rcases content with ⟨u, only, kept⟩ | ⟨-, present⟩
  · have other : b ≠ a := by
      rintro rfl
      have locked := inv.bits.taken b leaf u born (by simp [only]) i bound
      rw [unlocked, inv.notes.keptSlots u now kept i bound] at locked
      cases locked
    exact Or.inr ⟨fun same => other same.1, now, Or.inl ⟨u, only, kept⟩, small, taken, rfl, rfl⟩
  · rw [born_update (by rw [smo]), born_setNode born] at present
    rcases present with ⟨rfl, eq⟩ | ⟨other, old⟩
    · cases eq
      by_cases here : j = i
      · subst here
        simp [LeafNode.setBlock]
      · simp only [LeafNode.setBlock, Function.update_of_ne here] at taken ⊢
        exact Or.inr ⟨fun same => here same.2, inv.live_of_born born small taken⟩
    · exact Or.inr ⟨fun same => other same.1, inv.live_of_born old small taken⟩

theorem Owned.place {g : Local Key Value} {leaf : LeafNode Key} (owned : Owned cfg gs m) (inv : Discipline gs m cfg)
    (born : Born gs m a (.leaf leaf)) (bound : i < cfg.branchFactor) (unlocked : (leaf.kvBlocks i).isLocked = false)
    (own : (gs t).put.item = some (x, item, true)) (smo : g.smo = (gs t).smo) (placed : g.put.item = none)
    (freeing : (leaf.kvBlocks i).isFree = true ∧ g.put.freeing = (gs t).put.freeing ∨
      (leaf.kvBlocks i).isFree = false ∧ g.put.freeing = some (leaf.kvBlocks i).getAddr) :
    Owned cfg (Function.update gs t g)
      (m.setNode a (.leaf (leaf.setBlock i (.make (.ofKey item.key) x false false)))) := by
  -- the thread's item goes into a slot; the address that was there is about to be freed
  have mine : Holds cfg gs m (.item t) x := ⟨item, true, own⟩
  obtain ⟨known, fits⟩ := owned.issued x _ mine
  have live : ∀ {b j y fp}, Live cfg (Function.update gs t g)
      (m.setNode a (.leaf (leaf.setBlock i (.make (.ofKey item.key) x false false)))) b j y fp →
      (b = a ∧ j = i ∧ x = y ∧ .ofKey item.key = fp) ∨ ¬ (b = a ∧ j = i) ∧ Live cfg gs m b j y fp := by
    intro b j y fp now
    have cases := inv.live_setBlock born bound unlocked smo now
    rwa [KVBlock.getAddr_make _ _ fits, KVBlock.getFingerprint_make _ _ (Fingerprint.byte_ofKey _)] at cases
  have replaced : (leaf.kvBlocks i).isFree = false → Holds cfg gs m (.slot a i) (leaf.kvBlocks i).getAddr :=
    fun taken => ⟨_, inv.live_of_born born bound taken⟩
  refine owned.move (fun y => if y = x then some (.slot a i)
    else if (leaf.kvBlocks i).isFree = false ∧ y = (leaf.kvBlocks i).getAddr then some (.freeing t) else none)
    ?_ ?_ (fun y known => known) owned.nodup ?_ ?_
  · intro y p q goes held
    split_ifs at goes with same old
    · cases goes
      subst same
      refine ⟨?_, known, fits⟩
      rcases holds_cases (m := m) held with ⟨server, rfl, listed⟩ | ⟨rfl, _, _, now⟩ | ⟨rfl, now⟩ | ⟨b, j, fp, rfl, now⟩ |
        ⟨before, u, other, rfl | rfl⟩
      · cases owned.unique y (.free server) _ listed mine
      · simp [placed] at now
      · rcases freeing with ⟨-, eq⟩ | ⟨taken, eq⟩
        · cases owned.unique y (.freeing t) _ (eq.symm.trans now) mine
        · rw [eq] at now
          have before := replaced taken
          rw [Option.some.inj now] at before
          cases owned.unique y (.slot a i) _ before mine
      · rcases live now with ⟨rfl, rfl, -⟩ | ⟨-, before⟩
        · rfl
        · cases owned.unique y (.slot b j) _ ⟨fp, before⟩ mine
      · exact absurd (Place.item.inj (owned.unique y _ _ before mine)) other
      · cases owned.unique y _ _ before mine
    · cases goes
      obtain ⟨taken, rfl⟩ := old
      have here := replaced taken
      refine ⟨?_, owned.issued _ _ here⟩
      rcases holds_cases (m := m) held with ⟨server, rfl, listed⟩ | ⟨rfl, _, _, now⟩ | ⟨rfl, now⟩ | ⟨b, j, fp, rfl, now⟩ |
        ⟨before, u, other, rfl | rfl⟩
      · cases owned.unique _ (.free server) _ listed here
      · simp [placed] at now
      · rfl
      · rcases live now with ⟨-, -, eq, -⟩ | ⟨elsewhere, before⟩
        · exact absurd eq.symm same
        · cases owned.unique _ (.slot b j) _ ⟨fp, before⟩ here
          exact absurd ⟨rfl, rfl⟩ elsewhere
      · cases owned.unique _ _ _ before here
      · cases owned.unique _ _ _ before here
  · intro y p goes held
    split_ifs at goes with other old
    rcases holds_cases (m := m) held with ⟨server, rfl, listed⟩ | ⟨rfl, _, _, now⟩ | ⟨rfl, now⟩ | ⟨b, j, fp, rfl, now⟩ |
      ⟨before, -⟩
    · exact listed
    · simp [placed] at now
    · rcases freeing with ⟨-, eq⟩ | ⟨taken, eq⟩
      · exact eq.symm.trans now
      · rw [eq] at now
        exact absurd ⟨taken, (Option.some.inj now).symm⟩ old
    · rcases live now with ⟨-, -, eq, -⟩ | ⟨-, before⟩
      · exact absurd eq.symm other
      · exact ⟨fp, before⟩
    · exact before
  · intro b j y fp now
    rcases live now with ⟨-, -, rfl, rfl⟩ | ⟨-, before⟩
    · simp only [Memory.setNode, owned.written t x item own]
    · exact owned.fingerprint b j y fp before
  · exact (Function.forall_update_iff gs (p := fun _ l => ∀ y item, l.put.item = some (y, item, true) → m.items y = item)).2
      ⟨by simp [placed], fun u _ => owned.written u⟩

end

/-! ## Splitting a leaf -/

section
variable {cfg : Config} {gs : Thread → Local Key Value} {m : Memory Key Value} {t : Thread} {leaf : LeafNode Key}

theorem taken_of_keyed {keyed : List (Key × KVBlock)} {n : ℕ} {e : Key × KVBlock}
    (all : keyed.map Prod.snd = (takenIndices cfg.branchFactor leaf).map leaf.kvBlocks) (found : keyed[n]? = some e) :
    ∃ j, (takenIndices cfg.branchFactor leaf)[n]? = some j ∧ leaf.kvBlocks j = e.2 ∧ j < cfg.branchFactor ∧
      (leaf.kvBlocks j).isFree = false := by
  have same : (keyed.map Prod.snd)[n]? = some e.2 := by simp [found]
  rw [all, List.getElem?_map, Option.map_eq_some_iff] at same
  obtain ⟨j, taken, eq⟩ := same
  have member := List.mem_of_getElem? taken
  simp only [takenIndices, List.mem_filter, List.mem_range, Bool.not_eq_true'] at member
  exact ⟨j, taken, eq, member⟩

theorem takenIndices_nodup : (takenIndices cfg.branchFactor leaf).Nodup := List.nodup_range.filter _

/-- Where an address was before the leaf at `a` was split: the entry at position `k` comes from the slot whose
key was read as the `n`-th one. -/
def SplitOrigin (a new : GlobalAddress) (taken : List ℕ) (keyed entries : List (Key × KVBlock)) (p o : Place) : Prop :=
  (p = o ∧ ∀ j, p ≠ .slot a j ∧ p ≠ .slot new j) ∨
    ∃ (n k j : ℕ) (e : Key × KVBlock), keyed[n]? = some e ∧ taken[n]? = some j ∧ entries[k]? = some e ∧ o = .slot a j ∧
      p = if k < entries.length / 2 then .slot a k else .slot new (k - entries.length / 2)

theorem SplitOrigin.injective [LinearOrder Key] {a new : GlobalAddress} {taken : List ℕ} {keyed entries : List (Key × KVBlock)}
    {p q o : Place} (nodup : taken.Nodup) (order : OrderedMap.Sorted entries)
    (one : SplitOrigin a new taken keyed entries p o) (two : SplitOrigin a new taken keyed entries q o) : p = q := by
  rcases one with ⟨rfl, away⟩ | ⟨n, k, j, e, read, slot, found, rfl, rfl⟩
  · rcases two with ⟨rfl, -⟩ | ⟨-, -, j, -, -, -, -, rfl, -⟩
    · rfl
    · exact absurd rfl (away j).1
  · rcases two with ⟨rfl, away⟩ | ⟨n', k', j', e', read', slot', found', same, rfl⟩
    · exact absurd rfl (away j).1
    · cases same
      obtain rfl : n = n' := (List.getElem?_inj (List.getElem?_eq_some_iff.1 slot).1 nodup).1 (slot.trans slot'.symm)
      obtain rfl : e = e' := Option.some.inj (read.symm.trans read')
      rcases lt_trichotomy k k' with less | rfl | more
      · exact absurd (order.lt less found found') (lt_irrefl _)
      · rfl
      · exact absurd (order.lt more found' found) (lt_irrefl _)

variable [LinearOrder Key] [BoundedOrder Key] [KeyBytes Key] {a new : GlobalAddress} {left right : LeafNode Key}
  {entries : List (Key × KVBlock)} {middleKey : Key} {block : KVBlock} {g : Local Key Value}

omit [KeyBytes Key] [BoundedOrder Key] in
theorem Discipline.live_split {b y : GlobalAddress} {j : ℕ} {fp : Fingerprint} (inv : Discipline gs m cfg)
    (only : (gs t).smo.held = [a]) (kept : (gs t).smo.kept = some leaf) (order : OrderedMap.Sorted entries)
    (middle : entries[entries.length / 2]? = some (middleKey, block))
    (distributes : Distributes cfg leaf entries middleKey left right)
    (fresh : (gs t).smo.fresh = some (new, some (.leaf right))) (published : g.smo.fresh = none) (forgotten : g.smo.kept = none)
    (live : Live cfg (Function.update gs t g) (m.setNode a (.leaf left)) b j y fp) :
    (b ≠ a ∧ b ≠ new ∧ Live cfg gs m b j y fp) ∨
      ∃ k e, entries[k]? = some e ∧ (b = a ∧ j = k ∧ k < entries.length / 2 ∨ b = new ∧ k = j + entries.length / 2) ∧
        e.2.getAddr = y ∧ e.2.getFingerprint = fp := by
  -- a live block after a split is outside both halves or one of the entries
  obtain ⟨c, now, only', born, -, -⟩ := inv.notes.kept t leaf kept
  obtain rfl : a = c := by simpa [only] using only'
  obtain ⟨x, content, bound, taken, rfl, rfl⟩ := live
  rcases content with ⟨u, theirs, noted⟩ | ⟨-, present⟩
  · have other : u ≠ t := by
      rintro rfl
      simp [forgotten] at noted
    rw [Function.update_of_ne other] at theirs noted
    refine Or.inl ⟨?_, ?_, x, Or.inl ⟨u, theirs, noted⟩, bound, taken, rfl, rfl⟩
    · rintro rfl
      exact other (inv.chains.owner u t b (by simp [theirs]) (by simp [only]))
    · rintro rfl
      exact inv.not_held_fresh (u := u) fresh (by simp [theirs])
  · rcases (inv.levels.born_split born fresh published).1 present with ⟨rfl, eq⟩ | ⟨other, old | ⟨rfl, eq⟩⟩
    · cases eq
      obtain ⟨low, e, found, eq, -⟩ := distributes.left_live order middle bound taken
      exact Or.inr ⟨j, e, found, Or.inl ⟨rfl, rfl, low⟩, by simp [eq], by simp [eq]⟩
    · refine Or.inl ⟨other, ?_, inv.live_of_born old bound taken⟩
      rintro rfl
      exact old.2 ⟨t, _, fresh⟩
    · cases eq
      obtain ⟨e, found, eq, -⟩ := distributes.right_live order middle bound taken
      exact Or.inr ⟨_, e, found, Or.inr ⟨rfl, rfl⟩, by simp [eq], by simp [eq]⟩

omit [BoundedOrder Key] in
theorem Owned.splitLeaf (owned : Owned cfg gs m) (inv : Discipline gs m cfg) (only : (gs t).smo.held = [a])
    (kept : (gs t).smo.kept = some leaf)
    (all : (gs t).smo.keyed.map Prod.snd = (takenIndices cfg.branchFactor leaf).map leaf.kvBlocks)
    (sorted : entries = OrderedMap.ofList (gs t).smo.keyed)
    (middle : entries[entries.length / 2]? = some (middleKey, block))
    (distributes : Distributes cfg leaf entries middleKey left right)
    (fresh : (gs t).smo.fresh = some (new, some (.leaf right))) (published : g.smo.fresh = none) (forgotten : g.smo.kept = none)
    (put : g.put = (gs t).put) : Owned cfg (Function.update gs t g) (m.setNode a (.leaf left)) := by
  -- the blocks of both halves are blocks of the leaf that was read, none of them twice
  have order : OrderedMap.Sorted entries := sorted ▸ OrderedMap.sorted_ofList _
  have content : Content gs m a leaf := Or.inl ⟨t, only, kept⟩
  have entry : ∀ {k : ℕ} {e : Key × KVBlock}, entries[k]? = some e → ∃ n j : ℕ, (gs t).smo.keyed[n]? = some e ∧
      (takenIndices cfg.branchFactor leaf)[n]? = some j ∧ Live cfg gs m a j e.2.getAddr e.2.getFingerprint := by
    intro k e found
    have member : e ∈ (gs t).smo.keyed := OrderedMap.mem_of_mem_ofList (sorted ▸ List.mem_of_getElem? found)
    obtain ⟨n, at_⟩ := List.mem_iff_getElem?.1 member
    obtain ⟨j, taken, eq, small, live⟩ := taken_of_keyed all at_
    exact ⟨n, j, at_, taken, leaf, content, small, live, by rw [eq], by rw [eq]⟩
  have samePut : ∀ u, (Function.update gs t g u).put = (gs u).put :=
    (Function.forall_update_iff gs (p := fun u l => l.put = (gs u).put)).2 ⟨put, fun _ _ => rfl⟩
  refine owned.of_origin (SplitOrigin a new (takenIndices cfg.branchFactor leaf) (gs t).smo.keyed entries)
    (fun p q o => SplitOrigin.injective takenIndices_nodup order) (fun p x held => ?_) rfl owned.nodup ?_ ?_
  · cases p with
    | free server => exact ⟨_, Or.inl ⟨rfl, by simp⟩, held⟩
    | item u => exact ⟨_, Or.inl ⟨rfl, by simp⟩, by simpa only [Holds, samePut] using held⟩
    | freeing u => exact ⟨_, Or.inl ⟨rfl, by simp⟩, by simpa only [Holds, samePut] using held⟩
    | slot b j =>
      obtain ⟨fp, now⟩ := held
      rcases inv.live_split only kept order middle distributes fresh published forgotten now with
        ⟨offLeft, offRight, old⟩ | ⟨k, e, found, where_, rfl, rfl⟩
      · exact ⟨_, Or.inl ⟨rfl, fun _ => ⟨fun same => offLeft (Place.slot.inj same).1,
          fun same => offRight (Place.slot.inj same).1⟩⟩, fp, old⟩
      · obtain ⟨n, from_, read, slot, old⟩ := entry found
        refine ⟨.slot a from_, Or.inr ⟨n, k, from_, e, read, slot, found, rfl, ?_⟩, _, old⟩
        rcases where_ with ⟨rfl, rfl, low⟩ | ⟨rfl, rfl⟩
        · rw [if_pos low]
        · rw [if_neg (by omega), Nat.add_sub_cancel]
  · intro b j y fp now
    rcases inv.live_split only kept order middle distributes fresh published forgotten now with
      ⟨-, -, old⟩ | ⟨k, e, found, -, rfl, rfl⟩
    · exact owned.fingerprint b j y fp old
    · obtain ⟨n, j, -, -, old⟩ := entry found
      exact owned.fingerprint a j _ _ old
  · simp only [samePut]
    exact owned.written

end

/-! ## Every operation -/

def Op.whole : (o : Op Key Value) → o.act.Reply → Bool
  | ⟨_, .allocItem⟩, (a : GlobalAddress) => decide a.Fits
  | _, _ => true

/-- A deletion takes its block for a pointer and frees the item. -/
def Op.mistaken : Op Key Value → Bool
  | ⟨.tryDeleteKvblock, .freeItem _⟩ => true
  | _ => false

def Op.fits (o : Op Key Value) (r : o.act.Reply) : Bool := o.whole r && !o.mistaken

section
variable [LinearOrder Key] [KeyBytes Key] {cfg : Config} {gs : Thread → Local Key Value}
  {m m' : Memory Key Value} {t : Thread} {g : Local Key Value} {o : Op Key Value} {r : o.act.Reply}

theorem Owned.effect (owned : Owned cfg gs m) (inv : Discipline gs m cfg) (effect : Effect cfg t gs m o r m' g)
    (fits : o.fits r = true) : Owned cfg (Function.update gs t g) m' := by
  cases effect with
  | quiet _ same notes put items free issued =>
    exact owned.keep (fun _ _ _ _ => inv.live_quiet same (notes.imp id fun keep => ⟨keep.1, keep.2.1⟩)) (by rw [put])
      (by rw [put]) free issued items
  | @readKept a leaf born only =>
    refine owned.keep (fun b i x fp live => ?_) rfl rfl rfl rfl rfl
    rcases live_cases live with old | ⟨now, ⟨held, is⟩ | present, bound, taken, rfl, rfl⟩
    · exact old
    · obtain rfl : a = b := by simpa [only] using held
      cases is
      exact inv.live_of_born born bound taken
    · exact inv.live_of_born ((born_update (by rfl)).1 present) bound taken
  | readKeptKey =>
    exact owned.keep (fun _ _ _ _ => inv.live_quiet (sameLeaves_of_born fun _ _ => born_update (by rfl))
      (Or.inr ⟨rfl, rfl⟩)) rfl rfl rfl rfl rfl
  | leafSplit only kept all sorted middle distributes fresh published forgotten put =>
    exact owned.splitLeaf inv only kept all sorted middle distributes fresh published forgotten put
  | allocItem allocated => exact owned.allocItem (by simpa [Op.fits, Op.whole, Op.mistaken] using fits) allocated
  | writeItem own => exact owned.writeItem own
  | readLeaf => exact owned.keep (fun _ _ _ _ => (live_same (by rfl) (by rfl)).1) rfl rfl rfl rfl rfl
  | lookItem => exact owned.keep (fun _ _ _ _ => (live_same (by rfl) (by rfl)).1) rfl rfl rfl rfl rfl
  | lookKey => exact owned.keep (fun _ _ _ _ => (live_same (by rfl) (by rfl)).1) rfl rfl rfl rfl rfl
  | slotFilled born eq ready bound free =>
    exact owned.place inv born bound (eq ▸ ready.slots _ bound) ready.written rfl rfl (Or.inl ⟨eq ▸ free, rfl⟩)
  | slotUpdated born ready candidate taken unlocked =>
    exact owned.place inv born candidate.1 unlocked ready.written rfl rfl (Or.inr ⟨taken, rfl⟩)
  | slotDeleted born eq seen covers candidate other lower looked also freed =>
    exact owned.keep (fun _ _ _ _ => inv.live_setFree born freed) rfl rfl rfl rfl rfl
  | freeReplaced own => exact owned.freeItem own
  | freeDeleted => cases fits

end

end Faunus
