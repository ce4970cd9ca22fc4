import LatchTree.Proofs.Turn

/-!
The content of a store: all of it but the words of the latches. What a request answers and how it
changes the content does not depend on the words.
-/

namespace LatchTree

variable {K V : Type}

/-- A store, its latches apart. -/
structure Content (K V : Type) where
  node : Ref → Node K V
  /-- The number of nodes ever made. -/
  made : Nat
  slots : Array (Option Ref)
  vacant : List NodeId
  entries : UInt64
  relocations : UInt64

namespace Store

variable (s : Store K V)

def content : Content K V :=
  ⟨s.node, s.cells.size, s.slots, s.vacant, s.entries, s.relocations⟩

@[simp] theorem node_mapWord (r i : Ref) (f : Latch.Word → Latch.Word) :
    (s.mapWord r f).node i = s.node i := by
  simp only [node, mapWord, Array.getElem?_modify]
  cases h : s.cells[i]? with
  | none => split_ifs <;> rfl
  | some c => split_ifs <;> rfl

theorem node_mapNode (r i : Ref) (f : Node K V → Node K V) :
    (s.mapNode r f).node i = if i = r ∧ r < s.cells.size then f (s.node i) else s.node i := by
  simp only [node, mapNode, Array.getElem?_modify]
  by_cases hi : r = i
  · subst hi
    cases h : s.cells[r]? with
    | none => simp [Array.getElem?_eq_none_iff.1 h]
    | some c => simp [(Array.getElem?_eq_some_iff.1 h).1]
  · simp [hi, Ne.symm hi]

/-- A new node comes after those that there are. -/
theorem node_of_push {s' : Store K V} {n : Node K V} (hs' : s'.cells = s.cells.push { node := n })
    (i : Ref) : s'.node i = if i = s.cells.size then n else s.node i := by
  rw [node, hs', Array.getElem?_push]
  split_ifs <;> rfl

@[simp] theorem content_mapWord (r : Ref) (f : Latch.Word → Latch.Word) :
    (s.mapWord r f).content = s.content := by
  simp only [content, Content.mk.injEq]
  exact ⟨funext fun i => node_mapWord s r i f, by simp [mapWord], rfl, rfl, rfl, rfl⟩

@[simp] theorem content_letGo (h : Hold) : (s.letGo h).content = s.content := by
  cases h <;> exact content_mapWord ..

@[simp] theorem content_unwind (hs : List Hold) : (s.unwind hs).content = s.content := by
  induction hs generalizing s with
  | nil => rfl
  | cons h hs ih => exact (ih _).trans (s.content_letGo h)

@[simp] theorem table_unwind (hs : List Hold) : (s.unwind hs).table = s.table := by
  induction hs generalizing s with
  | nil => rfl
  | cons h hs ih => exact (ih _).trans (by cases h <;> rfl)

end Store

namespace Content

variable (x : Content K V)

def ref? (id : NodeId) : Option Ref :=
  (x.slots[id]?).join

def heap : Heap K V :=
  fun id => (x.ref? id).map x.node

/-- The slots name the nodes in use, each once, and the vacant ones are known. -/
structure Sound : Prop where
  nil : x.ref? .nil = some 0
  anchor : x.ref? .anchor = some 1
  made : ∀ id r, x.ref? id = some r → r < x.made
  inj : ∀ i j r, x.ref? i = some r → x.ref? j = some r → i = j
  vacant : ∀ id ∈ x.vacant, id < x.slots.size ∧ x.ref? id = none
  nodup : x.vacant.Nodup

/-- The slots are in order and lead to a fresh tree, and only the nodes of that tree have children. -/
structure TidyTree (t : Shape K V) : Prop where
  sound : x.Sound
  tree : x.heap.FreshTree t
  childless : ∀ r, (∀ i ∈ NodeId.anchor :: t.ids, x.ref? i ≠ some r) →
    (x.node r).left = .nil ∧ (x.node r).right = .nil

variable {x} {x' : Content K V} {t t' : Shape K V}

theorem heap_of_ref {id : NodeId} {r : Ref} (h : x.ref? id = some r) :
    x.heap id = some (x.node r) := by
  rw [heap, h, Option.map_some]

theorem ref_of_heap {id : NodeId} {n : Node K V} (h : x.heap id = some n) :
    ∃ r, x.ref? id = some r ∧ x.node r = n := by
  rwa [heap, Option.map_eq_some_iff] at h

theorem TidyTree.ref_some (hx : x.TidyTree t) {i : NodeId}
    (hi : i ∈ NodeId.nil :: NodeId.anchor :: t.ids) : ∃ r, x.ref? i = some r := by
  rw [List.mem_cons, List.mem_cons] at hi
  rcases hi with rfl | rfl | hi
  · exact ⟨0, hx.sound.nil⟩
  · exact ⟨1, hx.sound.anchor⟩
  · obtain ⟨n, hn⟩ := hx.tree.hangs.mem_some hi
    obtain ⟨r, hr, -⟩ := ref_of_heap hn
    exact ⟨r, hr⟩

/-- The root hangs below the anchor, which has no key. -/
theorem TidyTree.node_anchor (hx : x.TidyTree t) : x.node 1 = { Node.reserved with left := t.top } :=
  Option.some.inj ((heap_of_ref hx.sound.anchor).symm.trans hx.tree.anchor)

theorem ref_lt {i : NodeId} {r : Ref} (h : x.ref? i = some r) : i < x.slots.size := by
  by_contra hi
  rw [ref?, Array.getElem?_eq_none (Nat.le_of_not_lt hi)] at h
  exact absurd h (by simp)

/-- There are slots for all nodes of the tree and the two reserved ones. -/
theorem TidyTree.size_le (hx : x.TidyTree t) : t.ids.length + 2 ≤ x.slots.size := by
  have hsub : (NodeId.nil :: NodeId.anchor :: t.ids).Subperm (List.range x.slots.size) := by
    refine hx.tree.distinct.subperm fun i hi => ?_
    obtain ⟨r, hr⟩ := hx.ref_some hi
    exact List.mem_range.2 (ref_lt hr)
  have hle := hsub.length_le
  rw [List.length_cons, List.length_cons, List.length_range] at hle
  omega

/-- The node `n` is made and gets the slot that was freed last, or a new one. -/
def make (n : Node K V) : NodeId × Content K V :=
  match x.vacant with
  | id :: rest => (id, { x with
      node := fun r => if r = x.made then n else x.node r
      made := x.made + 1
      slots := x.slots.setIfInBounds id (some x.made)
      vacant := rest })
  | [] => (x.slots.size, { x with
      node := fun r => if r = x.made then n else x.node r
      made := x.made + 1
      slots := x.slots.push (some x.made) })

/-- The slot `id` is vacated. -/
def vacate (id : NodeId) : Content K V :=
  { x with slots := x.slots.setIfInBounds id none, vacant := id :: x.vacant }

/-! ## Slots given and taken -/

theorem Sound.make_free (hx : x.Sound) (n : Node K V) : x.ref? (x.make n).1 = none := by
  unfold make
  cases hv : x.vacant with
  | nil => simp [ref?]
  | cons id rest => exact (hx.vacant id (hv ▸ List.mem_cons_self)).2

theorem Sound.ref_make (hx : x.Sound) (n : Node K V) (i : NodeId) :
    (x.make n).2.ref? i = if i = (x.make n).1 then some x.made else x.ref? i := by
  unfold make
  cases hv : x.vacant with
  | nil =>
    simp only [ref?, Array.getElem?_push]
    split_ifs <;> rfl
  | cons id rest =>
    have hlt := (hx.vacant id (hv ▸ List.mem_cons_self)).1
    simp only [ref?, Array.getElem?_setIfInBounds, hlt, if_true]
    by_cases hi : i = id
    · simp [hi]
    · simp [hi, Ne.symm hi]

theorem ref_vacate (x : Content K V) (id i : NodeId) :
    (x.vacate id).ref? i = if i = id then none else x.ref? i := by
  simp only [ref?, vacate, Array.getElem?_setIfInBounds]
  by_cases hi : i = id
  · subst hi
    by_cases hlt : i < x.slots.size <;> simp [hlt]
  · simp [hi, Ne.symm hi]

@[simp] theorem node_make (x : Content K V) (n : Node K V) (r : Ref) :
    (x.make n).2.node r = if r = x.made then n else x.node r := by
  unfold make
  cases x.vacant <;> rfl

@[simp] theorem made_make (x : Content K V) (n : Node K V) : (x.make n).2.made = x.made + 1 := by
  unfold make
  cases x.vacant <;> rfl

@[simp] theorem entries_make (x : Content K V) (n : Node K V) :
    (x.make n).2.entries = x.entries := by
  unfold make
  cases x.vacant <;> rfl

@[simp] theorem relocations_make (x : Content K V) (n : Node K V) :
    (x.make n).2.relocations = x.relocations := by
  unfold make
  cases x.vacant <;> rfl

theorem Sound.vacant_make (hx : x.Sound) (n : Node K V) : (x.make n).2.vacant.Nodup ∧
    ∀ id ∈ (x.make n).2.vacant,
      id ∈ x.vacant ∧ id ≠ (x.make n).1 ∧ id < (x.make n).2.slots.size := by
  have hnodup := hx.nodup
  have hlt := hx.vacant
  unfold make
  cases hv : x.vacant with
  | nil => simp
  | cons id rest =>
    rw [hv, List.nodup_cons] at hnodup
    refine ⟨hnodup.2, fun i hi => ⟨List.mem_cons_of_mem _ hi, ?_, ?_⟩⟩
    · rintro rfl
      exact hnodup.1 hi
    · simpa using (hlt i (hv ▸ List.mem_cons_of_mem _ hi)).1

theorem Sound.make (hx : x.Sound) (n : Node K V) : (x.make n).2.Sound := by
  have hfree := hx.make_free n
  have hold : ∀ i r, x.ref? i = some r → (x.make n).2.ref? i = some r := by
    intro i r hi
    rw [hx.ref_make, if_neg, hi]
    rintro rfl
    exact absurd (hfree.symm.trans hi) (by simp)
  refine ⟨hold _ _ hx.nil, hold _ _ hx.anchor, fun i r hi => ?_, fun i j r hi hj => ?_,
    fun id hid => ?_, (hx.vacant_make n).1⟩
  · rw [hx.ref_make] at hi
    rw [made_make]
    split_ifs at hi with he
    · exact Option.some.inj hi ▸ Nat.lt_succ_self _
    · exact Nat.lt_succ_of_lt (hx.made i r hi)
  · rw [hx.ref_make] at hi hj
    split_ifs at hi hj with hi' hj' hj'
    · exact hi'.trans hj'.symm
    · exact absurd (hx.made j r hj) (by simp [Option.some.inj hi])
    · exact absurd (hx.made i r hi) (by simp [Option.some.inj hj])
    · exact hx.inj i j r hi hj
  · obtain ⟨hv, hne, hlt⟩ := (hx.vacant_make n).2 id hid
    rw [hx.ref_make, if_neg hne]
    exact ⟨hlt, (hx.vacant id hv).2⟩

/-- The slot of a new node is none of those of the tree. -/
theorem TidyTree.not_mem_make (hx : x.TidyTree t) (n : Node K V) :
    (x.make n).1 ∉ NodeId.nil :: NodeId.anchor :: t.ids := by
  intro hi
  obtain ⟨r, hr⟩ := hx.ref_some hi
  exact absurd ((hx.sound.make_free n).symm.trans hr) (by simp)

theorem TidyTree.ref_make (hx : x.TidyTree t) (n : Node K V) {i : NodeId}
    (hi : i ∈ NodeId.nil :: NodeId.anchor :: t.ids) : (x.make n).2.ref? i = x.ref? i := by
  rw [hx.sound.ref_make, if_neg]
  rintro rfl
  exact hx.not_mem_make n hi

theorem Sound.heap_make (hx : x.Sound) (n : Node K V) : (x.make n).2.heap (x.make n).1 = some n := by
  have href : (x.make n).2.ref? (x.make n).1 = some x.made := by rw [hx.ref_make, if_pos rfl]
  rw [heap_of_ref href, node_make, if_pos rfl]

theorem TidyTree.make (hx : x.TidyTree t) {n : Node K V} (hl : n.left = .nil) (hr : n.right = .nil) :
    (x.make n).2.TidyTree t := by
  refine ⟨hx.sound.make n, hx.tree.congr fun i hi => ?_, fun r hr' => ?_⟩
  · have hi : i ∈ NodeId.nil :: NodeId.anchor :: t.ids := by simpa using hi
    obtain ⟨r, hr⟩ := hx.ref_some hi
    rw [heap_of_ref ((hx.ref_make n hi).trans hr), heap_of_ref hr, node_make, if_neg]
    exact (hx.sound.made i r hr).ne
  · rw [node_make]
    split_ifs with he
    · exact ⟨hl, hr⟩
    · exact hx.childless r fun i hi => hx.ref_make n (List.mem_cons_of_mem _ hi) ▸ hr' i hi

theorem Sound.vacate (hx : x.Sound) {id : NodeId} {r : Ref} (hr : x.ref? id = some r)
    (hnil : id ≠ .nil) (hanchor : id ≠ .anchor) : (x.vacate id).Sound := by
  have hold : ∀ i r, (x.vacate id).ref? i = some r → x.ref? i = some r := by
    intro i r hi
    rw [ref_vacate] at hi
    split_ifs at hi
    exact hi
  refine ⟨?_, ?_, fun i r hi => hx.made i r (hold i r hi),
    fun i j r hi hj => hx.inj i j r (hold i r hi) (hold j r hj), fun i hi => ?_, ?_⟩
  · rw [ref_vacate, if_neg hnil.symm, hx.nil]
  · rw [ref_vacate, if_neg hanchor.symm, hx.anchor]
  · have hsize : (x.vacate id).slots.size = x.slots.size := by simp [Content.vacate]
    rw [ref_vacate, hsize]
    rcases List.mem_cons.1 hi with rfl | hi
    · exact ⟨ref_lt hr, if_pos rfl⟩
    · obtain ⟨hlt, hnone⟩ := hx.vacant i hi
      exact ⟨hlt, by split_ifs <;> simp [hnone]⟩
  · refine List.nodup_cons.2 ⟨fun hmem => ?_, hx.nodup⟩
    exact absurd (hr.symm.trans (hx.vacant id hmem).2) (by simp)

theorem ref_vacate_other (x : Content K V) {id i : NodeId}
    (hid : id ∉ NodeId.nil :: NodeId.anchor :: t.ids)
    (hi : i ∈ NodeId.nil :: NodeId.anchor :: t.ids) : (x.vacate id).ref? i = x.ref? i := by
  rw [Content.ref_vacate, if_neg]
  rintro rfl
  exact hid hi

theorem TidyTree.vacate (hx : x.TidyTree t) {id : NodeId} {r : Ref} (hr : x.ref? id = some r)
    (hid : id ∉ NodeId.nil :: NodeId.anchor :: t.ids) : (x.vacate id).TidyTree t := by
  have hne : id ≠ .nil ∧ id ≠ .anchor := by simp_all
  refine ⟨hx.sound.vacate hr hne.1 hne.2, hx.tree.congr fun i hi => ?_, fun r hr' => ?_⟩
  · have hi : i ∈ NodeId.nil :: NodeId.anchor :: t.ids := by simpa using hi
    obtain ⟨r, hr⟩ := hx.ref_some hi
    rw [heap_of_ref ((ref_vacate_other x hid hi).trans hr), heap_of_ref hr]
    rfl
  · exact hx.childless r fun i hi =>
      ref_vacate_other x hid (List.mem_cons_of_mem _ hi) ▸ hr' i hi

/-- The slots and the count of entries stay. -/
structure Keeps (x x' : Content K V) : Prop where
  slots : x'.slots = x.slots
  vacant : x'.vacant = x.vacant
  made : x'.made = x.made
  entries : x'.entries = x.entries

theorem Keeps.ref (h : x.Keeps x') (i : NodeId) : x'.ref? i = x.ref? i := by
  rw [ref?, h.slots, ref?]

theorem Keeps.sound (h : x.Keeps x') (hx : x.Sound) : x'.Sound where
  nil := (h.ref _).trans hx.nil
  anchor := (h.ref _).trans hx.anchor
  made := fun id r hr => h.made ▸ hx.made id r (h.ref id ▸ hr)
  inj := fun i j r hi hj => hx.inj i j r (h.ref i ▸ hi) (h.ref j ▸ hj)
  vacant := by
    intro id hid
    rw [h.slots, h.ref]
    exact hx.vacant id (h.vacant ▸ hid)
  nodup := h.vacant ▸ hx.nodup

end Content

/-! ## Lock sets read and written -/

theorem Members.lookup_zip {ls : LockSet} {ms : Members K V}
    (hkeys : ms.map Prod.fst = ls.map Prod.fst) (hd : (ls.map Prod.fst).Nodup)
    {m : (NodeId × Ref) × (NodeId × Node K V)} (hm : m ∈ ls.zip ms) :
    ms.lookup m.1.1 = some m.2.2 := by
  induction ls generalizing ms with
  | nil => exact absurd hm List.not_mem_nil
  | cons l ls ih =>
    cases ms with
    | nil => exact absurd hm List.not_mem_nil
    | cons n ms =>
      rw [List.map_cons, List.map_cons, List.cons.injEq] at hkeys
      rw [List.map_cons, List.nodup_cons] at hd
      rw [List.zip_cons_cons, List.mem_cons] at hm
      rcases hm with rfl | hm
      · rw [← hkeys.1]
        exact List.lookup_cons_self
      · have hne : m.1.1 ≠ n.1 := by
          intro he
          refine hd.1 (List.mem_map.2 ⟨m.1, (List.of_mem_zip hm).1, he.trans hkeys.1⟩)
        rw [List.lookup_cons, beq_false_of_ne hne]
        exact ih hkeys.2 hd.2 hm

namespace Content

variable {x : Content K V} {ls : LockSet} {ms : Members K V}

/-- The nodes of a lock set. -/
def members (x : Content K V) (ls : LockSet) : Members K V :=
  ls.map fun m => (m.1, x.node m.2)

/-- The nodes of a lock set are overwritten. -/
def write (x : Content K V) (ls : LockSet) (ms : Members K V) : Content K V :=
  { x with node := fun r => match (ls.zip ms).find? (·.1.2 == r) with
      | some m => m.2.2
      | none => x.node r }

@[simp] theorem fst_members : (x.members ls).map Prod.fst = ls.map Prod.fst := by
  simp [members, Function.comp_def]

theorem lookup_members (hd : (ls.map Prod.fst).Nodup) {m : NodeId × Ref} (hm : m ∈ ls) :
    (x.members ls).lookup m.1 = some (x.node m.2) := by
  refine Members.lookup_zip fst_members hd (m := (m, (m.1, x.node m.2))) ?_
  rw [members, List.zip_eq_zipWith, List.zipWith_map_right, List.zipWith_self]
  exact List.mem_map_of_mem hm

theorem members_shows (hls : ∀ m ∈ ls, x.ref? m.1 = some m.2) (hd : (ls.map Prod.fst).Nodup)
    {ids : List NodeId} (hids : ∀ i ∈ ids, i ≠ .nil → i ∈ ls.map Prod.fst) :
    (x.members ls).Shows ids x.heap where
  has := by rwa [fst_members]
  lookup := by
    intro i hi
    rw [fst_members] at hi
    obtain ⟨m, hm, rfl⟩ := List.mem_map.1 hi
    rw [lookup_members hd hm, heap_of_ref (hls m hm)]

theorem Sound.nodup_refs (hx : x.Sound) (hls : ∀ m ∈ ls, x.ref? m.1 = some m.2)
    (hd : (ls.map Prod.fst).Nodup) : (ls.map Prod.snd).Nodup := by
  refine hd.of_map.map_on fun m hm m' hm' he => Prod.ext ?_ he
  exact hx.inj _ _ _ (hls m hm) (he ▸ hls m' hm')

theorem refs_zip (hkeys : ms.map Prod.fst = ls.map Prod.fst) :
    (ls.zip ms).map (·.1.2) = ls.map Prod.snd := by
  have hlen : ls.length ≤ ms.length := by
    simpa using (congrArg List.length hkeys).ge
  simpa [Function.comp_def] using congrArg (List.map Prod.snd) (List.map_fst_zip hlen)

theorem node_write (hd : ((ls.zip ms).map (·.1.2)).Nodup)
    {m : (NodeId × Ref) × (NodeId × Node K V)} (hm : m ∈ ls.zip ms) :
    (x.write ls ms).node m.1.2 = m.2.2 := by
  cases hfind : (ls.zip ms).find? (·.1.2 == m.1.2) with
  | none => exact absurd (beq_self_eq_true _) (List.find?_eq_none.1 hfind m hm)
  | some m' =>
    have he : m' = m := List.inj_on_of_nodup_map hd (List.mem_of_find?_eq_some hfind) hm
      (by simpa using List.find?_some hfind)
    simp only [write, hfind, he]

theorem node_write_other (hkeys : ms.map Prod.fst = ls.map Prod.fst) {r : Ref}
    (hr : r ∉ ls.map Prod.snd) : (x.write ls ms).node r = x.node r := by
  have hnone : (ls.zip ms).find? (·.1.2 == r) = none := by
    rw [List.find?_eq_none]
    intro m hm he
    exact hr (refs_zip hkeys ▸ List.mem_map.2 ⟨m, hm, by simpa using he⟩)
  simp only [write, hnone]

theorem Sound.heap_write (hx : x.Sound) (hls : ∀ m ∈ ls, x.ref? m.1 = some m.2)
    (hd : (ls.map Prod.fst).Nodup) (hkeys : ms.map Prod.fst = ls.map Prod.fst) {i : NodeId}
    (hi : i ∈ ls.map Prod.fst) : (x.write ls ms).heap i = ms.lookup i := by
  have hlen : ls.length ≤ ms.length := by
    simpa using (congrArg List.length hkeys).ge
  rw [← List.map_fst_zip hlen, List.map_map] at hi
  obtain ⟨m, hm, rfl⟩ := List.mem_map.1 hi
  have href : (x.write ls ms).ref? m.1.1 = some m.1.2 := hls _ (List.of_mem_zip hm).1
  have hnodup : ((ls.zip ms).map (·.1.2)).Nodup := refs_zip hkeys ▸ hx.nodup_refs hls hd
  exact (heap_of_ref href).trans ((congrArg some (node_write hnodup hm)).trans
    (Members.lookup_zip hkeys hd hm).symm)

theorem Sound.heap_write_other (hx : x.Sound) (hls : ∀ m ∈ ls, x.ref? m.1 = some m.2)
    (hkeys : ms.map Prod.fst = ls.map Prod.fst) {i : NodeId} (hi : i ∉ ls.map Prod.fst) :
    (x.write ls ms).heap i = x.heap i := by
  cases hr : x.ref? i with
  | none =>
    have hr' : (x.write ls ms).ref? i = none := hr
    rw [heap, heap, hr, hr', Option.map_none, Option.map_none]
  | some r =>
    have hr' : (x.write ls ms).ref? i = some r := hr
    rw [heap_of_ref hr', heap_of_ref hr, node_write_other hkeys]
    intro hmem
    obtain ⟨m, hm, rfl⟩ := List.mem_map.1 hmem
    exact hi (hx.inj _ _ _ hr (hls m hm) ▸ List.mem_map_of_mem hm)

end Content

namespace Store

theorem content_mapNodes (l : List ((NodeId × Ref) × (NodeId × Node K V))) (s : Store K V)
    (hd : (l.map (·.1.2)).Nodup) (hlt : ∀ m ∈ l, m.1.2 < s.cells.size) :
    (l.foldl (fun s m => s.mapNode m.1.2 fun _ => m.2.2) s).content = { s.content with
      node := fun r => match l.find? (·.1.2 == r) with
        | some m => m.2.2
        | none => s.node r } := by
  induction l generalizing s with
  | nil => rfl
  | cons m l ih =>
    rw [List.map_cons, List.nodup_cons] at hd
    have hsize : (s.mapNode m.1.2 fun _ => m.2.2).cells.size = s.cells.size := by
      simp [Store.mapNode]
    rw [List.foldl_cons, ih _ hd.2 fun m' hm' => hsize ▸ hlt m' (List.mem_cons_of_mem _ hm')]
    simp only [Store.content, Content.mk.injEq, hsize]
    refine ⟨funext fun r => ?_, trivial, rfl, rfl, rfl, rfl⟩
    rw [List.find?_cons, Store.node_mapNode]
    by_cases hr : m.1.2 = r
    · subst hr
      have hnone : l.find? (·.1.2 == m.1.2) = none := by
        rw [List.find?_eq_none]
        intro m' hm' he
        exact hd.1 (List.mem_map.2 ⟨m', hm', by simpa using he⟩)
      simp [hnone, hlt m List.mem_cons_self]
    · have hb : (m.1.2 == r) = false := by simpa using hr
      simp [hb, Ne.symm hr]

theorem content_putMembers {s : Store K V} {ls : LockSet} {ms : Members K V}
    (hs : s.content.Sound) (hls : ∀ m ∈ ls, s.content.ref? m.1 = some m.2)
    (hd : (ls.map Prod.fst).Nodup) (hkeys : ms.map Prod.fst = ls.map Prod.fst) :
    (s.putMembers ls ms).content = s.content.write ls ms := by
  have hnodup : ((ls.zip ms).map (·.1.2)).Nodup := Content.refs_zip hkeys ▸ hs.nodup_refs hls hd
  exact s.content_mapNodes (ls.zip ms) hnodup fun m hm =>
    hs.made _ _ (hls _ (List.of_mem_zip hm).1)

end Store

/-! ## What requests do to the content -/

/-- Whatever the words are, the request is answered with `a` and makes the content `x` to `x'`. -/
def Request.Yields (q : Request K V) (x : Content K V) (a : q.Answer) (x' : Content K V) : Prop :=
  ∀ s : Store K V, s.content = x → (q.serve s).1 = .ok a ∧ (q.serve s).2.content = x'

namespace Request

variable {x : Content K V} {r : Ref}

theorem yields_resolve {id : NodeId} (h : x.ref? id = some r) : (resolve id).Yields x r x := by
  rintro s rfl
  have hserve : serve s (resolve id) = (.ok r, { s with table := s.table.enter.leave }) := by
    simp only [serve, Store.get, show ({ s with table := s.table.enter }).ref? id = some r from h]
    rfl
  rw [hserve]
  exact ⟨rfl, rfl⟩

theorem yields_read : (read r).Yields x (x.node r) x := by
  rintro s rfl
  exact ⟨rfl, Store.content_mapWord ..⟩

theorem yields_reserve : (reserve r).Yields x (x.node r) x := by
  rintro s rfl
  exact ⟨rfl, Store.content_mapWord ..⟩

theorem yields_leave : (leave r).Yields x () x := by
  rintro s rfl
  exact ⟨rfl, Store.content_mapWord ..⟩

theorem yields_unreserve : (unreserve r).Yields x () x := by
  rintro s rfl
  exact ⟨rfl, Store.content_mapWord ..⟩

theorem yields_latch : (latch r).Yields x () x := by
  rintro s rfl
  exact ⟨rfl, Store.content_mapWord ..⟩

theorem yields_upgrade : (upgrade r).Yields x () x := by
  rintro s rfl
  exact ⟨rfl, Store.content_mapWord ..⟩

theorem yields_lock : (lock r).Yields x () x := by
  rintro s rfl
  exact ⟨rfl, Store.content_mapWord ..⟩

theorem yields_unlock : (unlock r).Yields x () x := by
  rintro s rfl
  exact ⟨rfl, Store.content_mapWord ..⟩

theorem yields_countUp :
    countUp.Yields x () { x with entries := x.entries + 1 } := by
  rintro s rfl
  exact ⟨rfl, rfl⟩

theorem yields_countDown :
    countDown.Yields x () { x with entries := x.entries - 1 } := by
  rintro s rfl
  exact ⟨rfl, rfl⟩

/-! ## Making and freeing -/

theorem yields_alloc (n : Node K V) : (alloc n).Yields x (x.make n).1 (x.make n).2 := by
  rintro s rfl
  simp only [serve, Store.alloc, Content.make, Store.content]
  cases s.vacant with
  | nil =>
    refine ⟨rfl, ?_⟩
    simp only [Content.mk.injEq, Array.size_push, and_true]
    exact funext fun i => s.node_of_push rfl i
  | cons id rest =>
    refine ⟨rfl, ?_⟩
    simp only [Content.mk.injEq, Array.size_push, and_true]
    exact funext fun i => s.node_of_push rfl i

theorem yields_free {id : NodeId} (hnil : id ≠ .nil) (hanchor : id ≠ .anchor)
    (h : x.ref? id = some r) : (free id).Yields x () (x.vacate id) := by
  rintro s rfl
  have hserve : serve s (free id) = (.ok (), { s with
      slots := s.slots.setIfInBounds id none, vacant := id :: s.vacant, table := .free }) := by
    have href : ({ s with table := s.table.latch.lock } : Store K V).ref? id = some r := h
    simp only [serve, Store.free, hnil, hanchor, or_self, if_false, href]
    rfl
  rw [hserve]
  exact ⟨rfl, rfl⟩

/-! ## Writing -/

/-- An edit of the nodes of a lock set is written back to the heap, and to no other node. -/
theorem yields_commit {ls : LockSet} {w : Section K V} {ids : List NodeId}
    {Q : Option V → Heap K V → Prop} (hx : x.Sound) (hls : ∀ m ∈ ls, x.ref? m.1 = some m.2)
    (hd : (ls.map Prod.fst).Nodup) (hids : ∀ i ∈ ids, i ≠ .nil → i ∈ ls.map Prod.fst)
    (he : w.edit.Makes ids x.heap Q) : ∃ v x', (commit ls w).Yields x v x' ∧ Q v x'.heap ∧
      x.Keeps x' ∧ (∀ r, r ∉ ls.map Prod.snd → x'.node r = x.node r) ∧
        x'.relocations = if w.relocates then x.relocations + 1 else x.relocations := by
  obtain ⟨v, ms, h', hrun, hkeys, hshows, hrest, hq⟩ :=
    he (x.members ls) (Content.members_shows hls hd hids)
  rw [Content.fst_members] at hkeys hrest
  have hheap : (x.write ls ms).heap = h' := by
    funext i
    by_cases hi : i ∈ ls.map Prod.fst
    · exact (hx.heap_write hls hd hkeys hi).trans (hshows.lookup i (hkeys ▸ hi))
    · exact (hx.heap_write_other hls hkeys hi).trans (hrest i hi).symm
  refine ⟨v, { x.write ls ms with
      relocations := if w.relocates then x.relocations + 1 else x.relocations },
    ?_, hheap ▸ hq, ⟨rfl, rfl, rfl, rfl⟩, fun r hr => Content.node_write_other hkeys hr, rfl⟩
  rintro s rfl
  have hput := Store.content_putMembers hx hls hd hkeys
  have hrelocations : (s.putMembers ls ms).relocations = s.relocations :=
    congrArg Content.relocations hput
  have hserve : serve s (commit ls w) = (.ok v, if w.relocates then
      { s.putMembers ls ms with relocations := (s.putMembers ls ms).relocations + 1 }
      else s.putMembers ls ms) := by
    simp only [serve, Store.commit]
    rw [show s.members ls = s.content.members ls from rfl, hrun]
    rfl
  rw [hserve]
  refine ⟨rfl, ?_⟩
  cases w.relocates with
  | false => exact hput
  | true =>
    rw [if_pos rfl, if_pos rfl, hrelocations]
    exact congrArg (fun y : Content K V => { y with relocations := s.relocations + 1 }) hput

end Request

end LatchTree
