import LatchTree.Proofs.Shape

/-!
Heaps: what the ids reach. A heap is a linked tree if its links unfold to a shape, parent links
included, and no node is met twice; a reserve tree if moreover both reserved nodes are known, and a
fresh tree if they are as they are made. Here is what a change of one node does to that.
-/

namespace LatchTree

variable {K V : Type}

/-- The nodes that the ids reach. -/
abbrev Heap (K V : Type) := NodeId → Option (Node K V)

/-- The heap in which `id` reaches `n`. -/
def Heap.set (h : Heap K V) (id : NodeId) (n : Node K V) : Heap K V :=
  fun i => if i = id then some n else h i

@[simp] theorem Heap.set_same (h : Heap K V) (id : NodeId) (n : Node K V) :
    h.set id n id = some n := by simp [Heap.set]

theorem Heap.set_ne {h : Heap K V} {id i : NodeId} (n : Node K V) (hi : i ≠ id) :
    h.set id n i = h i := by simp [Heap.set, hi]

/-! ## Links that unfold to a shape -/

/-- The links below `parent` unfold to the shape. -/
def Shape.Hangs (h : Heap K V) : NodeId → Shape K V → Prop
  | _, nil => True
  | parent, node c l a r =>
    h a.id = some (a.node c parent .left l.top r.top) ∧ l.Hangs h a.id ∧ r.Hangs h a.id

/-- The links around the hole are those of the path, and the hole is at `hole`. The anchor is `w`, but
for its link down. -/
def Path.Hangs (w : Node K V) (h : Heap K V) : NodeId → Path K V → Prop
  | hole, top => h .anchor = some { w with left := hole }
  | hole, under d c a u p =>
    h a.id = some (a.node c p.parent d hole u.top) ∧ u.Hangs h a.id ∧ p.Hangs w h a.id

/-- No node is there twice, and none is reserved. -/
def Shape.Distinct (t : Shape K V) : Prop :=
  (NodeId.nil :: NodeId.anchor :: t.ids).Nodup

instance (t : Shape K V) : Decidable t.Distinct :=
  inferInstanceAs (Decidable (List.Nodup _))

/-- The links from the anchor unfold to the shape. The anchor is `w`, but for its link down, and there
need be no sentinel. -/
structure Heap.LinkedTree (w : Node K V) (h : Heap K V) (t : Shape K V) : Prop where
  anchor : h .anchor = some { w with left := t.top }
  hangs : t.Hangs h .anchor
  distinct : t.Distinct

/-- What the two reserved slots hold, the link down from the anchor apart. -/
structure Reserve (K V : Type) where
  sentinel : Node K V
  anchor : Node K V
  black : sentinel.color = .black

/-- The two reserved nodes as they are made. -/
abbrev Reserve.fresh : Reserve K V := ⟨.reserved, .reserved, rfl⟩

/-- A linked tree below the anchor of a reserve, next to its sentinel. -/
structure Heap.ReserveTree (r : Reserve K V) (h : Heap K V) (t : Shape K V) : Prop
    extends h.LinkedTree r.anchor t where
  sentinel : h .nil = some r.sentinel

/-- A linked tree with the reserved nodes as they are made. -/
abbrev Heap.FreshTree (h : Heap K V) (t : Shape K V) : Prop :=
  h.ReserveTree .fresh t

variable {h h' : Heap K V} {t t' u : Shape K V} {p : Path K V} {q i hole : NodeId} {w : Node K V}

@[simp] theorem Shape.hangs_nil : (nil : Shape K V).Hangs h q := trivial

@[simp] theorem Shape.hangs_join (d : Side) (c : Color) (x : Shape K V) (a : Row K V)
    (y : Shape K V) : (join d c x a y).Hangs h q ↔
      h a.id = some (a.node c q d x.top y.top) ∧ x.Hangs h a.id ∧ y.Hangs h a.id := by
  cases d with
  | left => exact Iff.rfl
  | right => exact and_congr_right fun _ => and_comm

theorem Shape.Hangs.congr (ht : t.Hangs h q) (heq : ∀ i ∈ t.ids, h' i = h i) : t.Hangs h' q := by
  induction t generalizing q with
  | nil => trivial
  | node c l a r ihl ihr =>
    obtain ⟨ha, hl, hr⟩ := ht
    refine ⟨?_, ihl hl fun i hi => heq i (by simp [hi]), ihr hr fun i hi => heq i (by simp [hi])⟩
    rw [heq a.id (by simp), ha]

theorem Shape.Hangs.top_some (ht : t.Hangs h q) (hne : t.top ≠ .nil) : ∃ n, h t.top = some n := by
  cases t with
  | nil => exact absurd rfl hne
  | node c l a r => exact ⟨_, ht.1⟩

theorem Shape.Hangs.row (ht : t.Hangs h q) {a : Row K V}
    (ha : a ∈ t.rows) : ∃ n, h a.id = some n ∧ n.key = a.key ∧ n.value = a.value := by
  induction t generalizing q with
  | nil => exact absurd ha List.not_mem_nil
  | node c l b r ihl ihr =>
    obtain ⟨hb, hl, hr⟩ := ht
    rw [rows, List.mem_append, List.mem_cons] at ha
    rcases ha with ha | rfl | ha
    · exact ihl hl ha
    · exact ⟨_, hb, rfl, rfl⟩
    · exact ihr hr ha

theorem Shape.Hangs.mem_some (ht : t.Hangs h q) {i : NodeId} (hi : i ∈ t.ids) :
    ∃ n, h i = some n := by
  obtain ⟨a, ha, rfl⟩ := List.mem_map.1 hi
  obtain ⟨n, hn, -⟩ := ht.row ha
  exact ⟨n, hn⟩

/-- From a given node on, links unfold in one way only. -/
theorem Shape.Hangs.unique {q' : NodeId} (ht : t.Hangs h q) (hu : u.Hangs h q')
    (hti : ∀ i ∈ t.ids, i ≠ .nil) (hui : ∀ i ∈ u.ids, i ≠ .nil) (htop : t.top = u.top) : t = u := by
  induction t generalizing u q q' with
  | nil =>
    cases u with
    | nil => rfl
    | node c l a r => exact absurd htop.symm (hui a.id (by simp))
  | node c l a r ihl ihr =>
    cases u with
    | nil => exact absurd htop (hti a.id (by simp))
    | node c' l' a' r' =>
      obtain ⟨ha, hl, hr⟩ := ht
      obtain ⟨ha', hl', hr'⟩ := hu
      have hid : a.id = a'.id := htop
      have hnode := Option.some.inj ((hid ▸ ha).symm.trans ha')
      simp only [Row.node, Node.mk.injEq] at hnode
      obtain ⟨hkey, hvalue, rfl, -, hlt, hrt⟩ := hnode
      obtain rfl : a = a' := Row.ext hid hkey hvalue
      obtain rfl : l = l' := ihl hl hl' (fun i hi => hti i (by simp [hi]))
        (fun i hi => hui i (by simp [hi])) hlt
      obtain rfl : r = r' := ihr hr hr' (fun i hi => hti i (by simp [hi]))
        (fun i hi => hui i (by simp [hi])) hrt
      rfl

theorem Path.Hangs.congr (hp : p.Hangs w h hole) (htop : h' .anchor = h .anchor)
    (heq : ∀ i ∈ p.ids, h' i = h i) : p.Hangs w h' hole := by
  induction p generalizing hole with
  | top => exact htop.trans hp
  | under d c a u p ih =>
    obtain ⟨ha, hu, hp⟩ := hp
    refine ⟨?_, hu.congr fun i hi => heq i (by simp [ids, hi]),
      ih hp fun i hi => heq i (by simp [ids, hi])⟩
    rw [heq a.id (by simp [ids]), ha]

/-- A linked tree, with a part of the shape in focus. -/
theorem Path.linkedTree_plug : h.LinkedTree w (p.plug t) ↔ p.Hangs w h t.top ∧ t.Hangs h p.parent ∧
    (NodeId.nil :: NodeId.anchor :: (t.ids ++ p.ids)).Nodup := by
  induction p generalizing t with
  | top =>
    refine ⟨fun hb => ⟨hb.anchor, hb.hangs, by simpa [Shape.Distinct, ids] using hb.distinct⟩, ?_⟩
    rintro ⟨htop, ht, hd⟩
    exact ⟨htop, ht, by simpa [Shape.Distinct, ids] using hd⟩
  | under d c a u p ih =>
    have hperm : (NodeId.nil :: NodeId.anchor :: ((Shape.join d c t a u).ids ++ p.ids)).Perm
        (NodeId.nil :: NodeId.anchor :: (t.ids ++ (under d c a u p).ids)) := by
      refine ((((Shape.ids_join_perm d c t a u).append_right _).trans ?_).cons _).cons _
      simpa [ids] using List.perm_middle.symm
    rw [plug_under, ih, hperm.nodup_iff, Shape.top_join, Shape.hangs_join]
    simp only [Hangs, parent]
    tauto

theorem Heap.freshTree_iff : h.FreshTree t ↔ h .nil = some .reserved ∧ h.LinkedTree .reserved t :=
  ⟨fun hb => ⟨hb.sentinel, hb.toLinkedTree⟩, fun ⟨hnil, hr⟩ => ⟨hr, hnil⟩⟩

/-- A fresh tree, with a part of the shape in focus. -/
theorem Path.freshTree_plug : h.FreshTree (p.plug t) ↔ h .nil = some .reserved ∧
    p.Hangs .reserved h t.top ∧ t.Hangs h p.parent ∧
      (NodeId.nil :: NodeId.anchor :: (t.ids ++ p.ids)).Nodup := by
  rw [Heap.freshTree_iff, Path.linkedTree_plug]

/-! ## Facts of a linked tree -/

namespace Shape

theorem Distinct.ne_nil (ht : t.Distinct) (hi : i ∈ t.ids) : i ≠ .nil := by
  rintro rfl
  exact (List.nodup_cons.1 ht).1 (List.mem_cons_of_mem _ hi)

theorem Distinct.ne_anchor (ht : t.Distinct) (hi : i ∈ t.ids) : i ≠ .anchor := by
  rintro rfl
  exact (List.nodup_cons.1 (List.nodup_cons.1 ht).2).1 hi

theorem ids_of_rows (h : t'.rows = t.rows) : t'.ids = t.ids :=
  congrArg (List.map Row.id) h

theorem Distinct.of_rows (ht : t.Distinct) (h : t'.rows = t.rows) : t'.Distinct := by
  rw [Distinct, ids_of_rows h]
  exact ht

end Shape

namespace Heap.LinkedTree

theorem ne_nil (hb : h.LinkedTree w t) (hi : i ∈ t.ids) : i ≠ .nil :=
  Shape.Distinct.ne_nil hb.distinct hi

theorem ne_anchor (hb : h.LinkedTree w t) (hi : i ∈ t.ids) : i ≠ .anchor :=
  Shape.Distinct.ne_anchor hb.distinct hi

/-- The top of the part in focus. -/
theorem focus {d : Side} {c : Color} {x y : Shape K V} {a : Row K V}
    (hb : h.LinkedTree w (p.plug (.join d c x a y))) :
    h a.id = some (a.node c p.parent d x.top y.top) := by
  obtain ⟨-, ht, -⟩ := Path.linkedTree_plug.1 hb
  exact ((Shape.hangs_join ..).1 ht).1

theorem empty_or_join (hb : h.LinkedTree w t) : t.top = .nil ↔ t = .nil := by
  refine ⟨fun htop => ?_, fun ht => by rw [ht, Shape.top_nil]⟩
  by_contra hne
  exact hb.ne_nil (Shape.top_mem_ids hne) htop

end Heap.LinkedTree

namespace Heap.FreshTree

/-- The links of a heap unfold in one way only. -/
theorem unique (hb : h.FreshTree t) (hb' : h.FreshTree u) : t = u := by
  have htop := hb.anchor.symm.trans hb'.anchor
  simp only [Option.some.injEq, Node.mk.injEq] at htop
  exact hb.hangs.unique hb'.hangs (fun i => hb.ne_nil) (fun i => hb'.ne_nil) htop.2.2.2.2.1

theorem congr (hb : h.FreshTree t)
    (heq : ∀ i, i = .nil ∨ i = .anchor ∨ i ∈ t.ids → h' i = h i) : h'.FreshTree t where
  sentinel := (heq _ (.inl rfl)).trans hb.sentinel
  anchor := (heq _ (.inr (.inl rfl))).trans hb.anchor
  hangs := hb.hangs.congr fun i hi => heq i (.inr (.inr hi))
  distinct := hb.distinct

end Heap.FreshTree

/-! ## Changes -/

/-- The link down to the hole is turned elsewhere. -/
theorem Path.Hangs.relink (hp : p.Hangs w h hole) (hd : (NodeId.anchor :: p.ids).Nodup) :
    ∃ n, h p.parent = some n ∧ n.child p.side = hole ∧
      ∀ hole', p.Hangs w (h.set p.parent (n.setChild p.side hole')) hole' := by
  cases p with
  | top => exact ⟨_, hp, rfl, fun hole' => by simp [Hangs, parent, side, Node.setChild]⟩
  | under d c a u p =>
    obtain ⟨ha, hu, hup⟩ := hp
    simp only [ids, List.nodup_cons, List.mem_cons, List.mem_append, not_or] at hd
    obtain ⟨⟨htop, -⟩, ⟨hau, hap⟩, -⟩ := hd
    refine ⟨_, ha, by simp [side], fun hole' => ⟨by simp [side, parent], ?_, ?_⟩⟩
    · exact hu.congr fun i hi => Heap.set_ne _ fun e : i = a.id => hau (e ▸ hi)
    · exact hup.congr (Heap.set_ne _ htop) fun i hi => Heap.set_ne _ fun e : i = a.id => hap (e ▸ hi)

/-- The heap in which `id` has another parent; the sentinel keeps none. -/
def Heap.adopt (h : Heap K V) (id parent : NodeId) : Heap K V :=
  if id = .nil then h
  else match h id with
    | some n => h.set id { n with parent := parent }
    | none => h

theorem Heap.adopt_ne {id i : NodeId} (parent : NodeId) (hi : i ≠ id) :
    h.adopt id parent i = h i := by
  by_cases hid : id = .nil
  · simp [Heap.adopt, hid]
  · cases hn : h id with
    | none => simp [Heap.adopt, hid, hn]
    | some n => simp [Heap.adopt, hid, hn, Heap.set_ne _ hi]

theorem Heap.adopt_same {id parent : NodeId} {n : Node K V} (hid : id ≠ .nil)
    (hn : h id = some n) : h.adopt id parent id = some { n with parent := parent } := by
  simp [Heap.adopt, hid, hn]

theorem Heap.adopt_eq_set {id parent : NodeId} {n : Node K V} (hid : id ≠ .nil)
    (hn : h id = some n) : h.adopt id parent = h.set id { n with parent := parent } := by
  simp [Heap.adopt, hid, hn]

/-- The shape is hung below another node. -/
theorem Shape.Hangs.adopt (ht : t.Hangs h q) (hd : (NodeId.nil :: t.ids).Nodup) (q' : NodeId) :
    t.Hangs (h.adopt t.top q') q' := by
  cases t with
  | nil => trivial
  | node c l a r =>
    obtain ⟨ha, hl, hr⟩ := ht
    rw [List.nodup_cons, ids_node, List.perm_middle.nodup_iff, List.nodup_cons] at hd
    obtain ⟨hnil, hmem, -⟩ := hd
    have hid : a.id ≠ .nil := fun e => hnil (by simp [e])
    refine ⟨?_, ?_, ?_⟩
    · rw [show (node c l a r).top = a.id from rfl, Heap.adopt_same hid ha, Row.node_withParent]
    · refine hl.congr fun i hi => Heap.adopt_ne _ fun e : i = a.id => hmem ?_
      exact List.mem_append_left _ (e ▸ hi)
    · refine hr.congr fun i hi => Heap.adopt_ne _ fun e : i = a.id => hmem ?_
      exact List.mem_append_right _ (e ▸ hi)

end LatchTree
