import LatchTree.Proofs.Pivot
import LatchTree.Proofs.Move

/-!
What the edits of the tree do to its shape: recolouring, rotating, linking, splicing and relocating.
-/

namespace LatchTree

variable {K V : Type} {cmp : K → K → Ordering}

theorem Shape.nodup_join (d : Side) (c : Color) (x : Shape K V) (a : Row K V) (y : Shape K V) :
    (join d c x a y).ids.Nodup ↔ a.id ∉ x.ids ∧ a.id ∉ y.ids ∧ x.ids.Nodup ∧ y.ids.Nodup ∧
      ∀ i ∈ x.ids, i ∉ y.ids := by
  rw [(ids_join_perm d c x a y).nodup_iff, List.nodup_cons, List.mem_append, List.nodup_append]
  grind

theorem Path.nodup_plug (p : Path K V) (t : Shape K V) :
    (p.plug t).ids.Nodup ↔ t.ids.Nodup ∧ p.ids.Nodup ∧ ∀ i ∈ t.ids, i ∉ p.ids := by
  rw [(ids_plug_perm p t).nodup_iff, List.nodup_append]
  grind

@[simp] theorem Row.node_under (a : Row K V) (c : Color) (q : NodeId) (d : Side) (i j q' : NodeId) :
    (a.node c q d i j).under q' = a.node c q' d i j :=
  Row.node_withParent ..

/-- The top of a shape that hangs somewhere has a link back. -/
theorem Shape.Hangs.top_parent {h : Heap K V} {t : Shape K V} {q : NodeId} (ht : t.Hangs h q)
    (hne : t.top ≠ .nil) : ∃ n, h t.top = some n ∧ n.parent = q := by
  cases t with
  | nil => exact absurd rfl hne
  | node c l a r => exact ⟨_, ht.1, rfl⟩

theorem Node.sideOfChild_eq {n : Node K V} {d : Side} {i : NodeId} (h : n.child d = i)
    (hne : n.child d.other ≠ i) : n.sideOfChild i = d := by
  cases d with
  | left => exact if_pos h
  | right => exact if_neg hne

theorem Path.Hangs.child_side {h : Heap K V} {p : Path K V} {w n : Node K V} {u : NodeId}
    (hp : p.Hangs w h u) (hn : h p.parent = some n) : n.child p.side = u := by
  cases p with
  | top =>
    obtain rfl : n = _ := Option.some.inj (hn.symm.trans hp)
    rfl
  | under d c a s q =>
    obtain rfl : n = _ := Option.some.inj (hn.symm.trans hp.1)
    exact Row.child_node ..

/-- Above the hole, the link on the left is to it or to a node beside it, if there is any. -/
theorem Path.Hangs.left_mem {h : Heap K V} {p : Path K V} {w n : Node K V} {u : NodeId}
    (hp : p.Hangs w h u) (hn : h p.parent = some n) : n.left ∈ u :: .nil :: p.ids := by
  cases p with
  | top =>
    obtain rfl : n = _ := Option.some.inj (hn.symm.trans hp)
    exact List.mem_cons_self
  | under d c a s q =>
    obtain rfl : n = _ := Option.some.inj (hn.symm.trans hp.1)
    have hs := s.top_mem
    cases d <;> simp only [Row.node, ids, List.mem_cons, List.mem_append] at hs ⊢ <;> tauto

theorem Path.Hangs.sideOfChild {h : Heap K V} {p : Path K V} {w n : Node K V} {u : NodeId}
    (hp : p.Hangs w h u) (hu : u ∉ NodeId.nil :: p.ids) (hn : h p.parent = some n) :
    n.sideOfChild u = p.side := by
  cases p with
  | top => exact if_pos (hp.child_side hn)
  | under d c a s q =>
    refine Node.sideOfChild_eq (hp.child_side hn) fun he => hu ?_
    obtain rfl : n = _ := Option.some.inj (hn.symm.trans hp.1)
    have hs := s.top_mem
    rw [← he, side, Row.child_other_node]
    simp only [ids, List.mem_cons, List.mem_append] at hs ⊢
    tauto

/-! ## The node in focus -/

/-- The node in focus gets another colour, key or value. -/
theorem Heap.LinkedTree.setFocus {h : Heap K V} {w : Node K V} {p : Path K V} {d : Side} {c : Color}
    {x y : Shape K V} {a a' : Row K V} (hr : h.LinkedTree w (p.plug (.join d c x a y))) (c' : Color)
    (hid : a'.id = a.id) :
    (h.set a.id (a'.node c' p.parent d x.top y.top)).LinkedTree w (p.plug (.join d c' x a' y)) := by
  obtain ⟨hp, ht, hd⟩ := Path.linkedTree_plug.1 hr
  obtain ⟨-, hx, hy⟩ := (Shape.hangs_join ..).1 ht
  simp only [List.nodup_cons, List.mem_cons, List.nodup_append, List.mem_append,
    Shape.mem_ids_join, Shape.nodup_join] at hd
  rw [Shape.top_join] at hp
  refine Path.linkedTree_plug.2 ⟨?_, (Shape.hangs_join ..).2 ⟨?_, ?_, ?_⟩, ?_⟩
  · rw [Shape.top_join, hid]
    exact hp.congr (Heap.set_ne _ (by grind)) fun i hi => Heap.set_ne _ (by grind)
  · rw [hid, Heap.set_same]
  · rw [hid]
    exact hx.congr fun i hi => Heap.set_ne _ (by grind)
  · rw [hid]
    exact hy.congr fun i hi => Heap.set_ne _ (by grind)
  · simp only [List.nodup_cons, List.mem_cons, List.nodup_append, List.mem_append,
      Shape.mem_ids_join, Shape.nodup_join, hid]
    exact hd

/-! ## Rotating -/

section

variable {h : Heap K V} {w : Node K V} {p : Path K V} {d : Side} {cx cy : Color} {A B O : Shape K V}
  {x y : Row K V}

/-- Any link between two nodes of a tree can be rotated; the one above is free to lead elsewhere. -/
theorem Heap.LinkedTree.pivot (hr : h.LinkedTree w (p.plug (.join d cx A x (.join d cy B y O)))) :
    ∃ up, h.Pivot d x.id (x.node cx p.parent d A.top y.id) (y.node cy x.id d B.top O.top) up ∧
      up.sideOfChild x.id = p.side ∧
        ∀ v, p.Hangs w (h.set p.parent (up.setChild p.side v)) v := by
  obtain ⟨hhole, ht, hd⟩ := Path.linkedTree_plug.1 hr
  simp only [Shape.hangs_join, Shape.top_join] at ht hhole
  obtain ⟨hax, -, hay, hBy, -⟩ := ht
  simp only [List.nodup_cons, List.mem_cons, List.nodup_append, List.mem_append,
    Shape.mem_ids_join, Shape.nodup_join] at hd
  have hparent := p.parent_mem
  have htop := B.top_mem
  rw [List.mem_cons] at hparent htop
  obtain ⟨up, hup, -, hrelink⟩ := hhole.relink (by simp only [List.nodup_cons]; grind)
  have hchild := hhole.child_side hup
  have hleft := hhole.left_mem hup
  have hside : up.sideOfChild x.id = p.side := hhole.sideOfChild (by grind) hup
  refine ⟨up, ?_, hside, hrelink⟩
  constructor
  case node => exact hax
  case moved => rwa [Row.child_other_node]
  case above => rwa [Row.parent_node]
  case link => rw [hside, hchild]
  case back => exact Row.parent_node ..
  case single =>
    rw [Row.child_other_node]
    simp only [List.mem_cons] at hleft
    grind
  case inner =>
    rw [Row.child_node, Row.child_other_node]
    exact hBy.top_parent
  case distinct =>
    simp only [Row.parent_node, Row.child_other_node, List.nodup_cons, List.mem_cons]
    grind
  case apart =>
    simp only [Row.child_node, Row.child_other_node, Row.parent_node, List.mem_cons]
    grind

/-- The child of `x` away from `d` comes to stand above it. -/
theorem Heap.LinkedTree.rotate (hr : h.LinkedTree w (p.plug (.join d cx A x (.join d cy B y O)))) :
    ∃ up, h.Pivot d x.id (x.node cx p.parent d A.top y.id) (y.node cy x.id d B.top O.top) up ∧
      Heap.LinkedTree w
        (h.rotate d x.id (x.node cx p.parent d A.top y.id) (y.node cy x.id d B.top O.top) up)
        (p.plug (.join d cy (.join d cx A x B) y O)) := by
  obtain ⟨up, hpivot, hside, hrelink⟩ := hr.pivot
  refine ⟨up, hpivot, ?_⟩
  obtain ⟨-, ht, hd⟩ := Path.linkedTree_plug.1 hr
  simp only [Shape.hangs_join, Shape.top_join] at ht
  obtain ⟨-, hA, -, hBy, hO⟩ := ht
  simp only [List.nodup_cons, List.mem_cons, List.nodup_append, List.mem_append,
    Shape.mem_ids_join, Shape.nodup_join] at hd
  have hparent := p.parent_mem
  have htop := B.top_mem
  rw [List.mem_cons] at hparent htop
  have hrest : ∀ i, i ≠ p.parent → i ≠ x.id → i ≠ y.id → (i = B.top → i = .nil) →
      h.rotate d x.id (x.node cx p.parent d A.top y.id) (y.node cy x.id d B.top O.top) up i = h i := by
    intro i hiP hix hiy hiB
    refine h.rotate_rest d ?_ ?_
    · simp [hiP, hix, hiy]
    · rwa [Row.child_node]
  refine Path.linkedTree_plug.2 ⟨?_, ?_, ?_⟩
  · rw [Shape.top_join]
    have habove := hpivot.rotate_above
    rw [hside, Row.parent_node, Row.child_other_node] at habove
    have hpath : ∀ i ∈ NodeId.anchor :: p.ids, h.rotate d x.id (x.node cx p.parent d A.top y.id)
        (y.node cy x.id d B.top O.top) up i = h.set p.parent (up.setChild p.side y.id) i := by
      intro i hi
      rw [List.mem_cons] at hi
      by_cases hiP : i = p.parent
      · rw [hiP, habove, Heap.set_same]
      · rw [Heap.set_ne _ hiP]
        exact hrest i hiP (by grind) (by grind) (by grind)
    exact (hrelink y.id).congr (hpath _ List.mem_cons_self) fun i hi =>
      hpath i (List.mem_cons_of_mem _ hi)
  · simp only [Shape.hangs_join, Shape.top_join]
    refine ⟨?_, ⟨?_, ?_, ?_⟩, ?_⟩
    · simpa using hpivot.rotate_moved
    · exact (h.rotate_node d).trans (by simp)
    · exact hA.congr fun i hi => hrest _ (by grind) (by grind) (by grind) (by grind)
    · refine (hBy.adopt (by simp only [List.nodup_cons]; grind) x.id).congr fun i hi => ?_
      rw [h.rotate_other d, Row.child_node]
      simp only [Row.parent_node, Row.child_other_node, List.mem_cons]
      grind
    · exact hO.congr fun i hi => hrest _ (by grind) (by grind) (by grind) (by grind)
  · simp only [List.nodup_cons, List.mem_cons, List.nodup_append, List.mem_append,
      Shape.mem_ids_join, Shape.nodup_join]
    grind

end

namespace Edit

variable {ids : List NodeId} {h : Heap K V} {p : Path K V}

/-- In whatever heap the links unfold to `t`, on any reserve, the edit makes them unfold to `t'`, which
has the same rows. -/
structure Turns (cmp : K → K → Ordering) (e : Edit K V Unit) (ids : List NodeId)
    (t t' : Shape K V) : Prop where
  reshapes : t.Reshapes ids t'
  rows : t'.rows = t.rows
  makes : ∀ (r : Reserve K V) (h : Heap K V), h.ReserveTree r t →
    e.Makes ids h fun _ h' => h'.ReserveTree r t'

theorem Turns.seq {e e' : Edit K V Unit} {t t₁ t₂ : Shape K V} (he : e.Turns cmp ids t t₁)
    (he' : e'.Turns cmp ids t₁ t₂) : Turns cmp (do e; e') ids t t₂ where
  reshapes := he.reshapes.trans he'.reshapes
  rows := he'.rows.trans he.rows
  makes := fun r h hb => .bind ((he.makes r h hb).mono fun _ h' hb' => he'.makes r h' hb')

/-! ## Colours -/

theorem paint_turns {d : Side} {c : Color} {x y : Shape K V} {a : Row K V} (c' : Color)
    (hid : a.id ∈ ids) :
    (paint a.id c').Turns cmp ids (p.plug (.join d c x a y)) (p.plug (.join d c' x a y)) := by
  refine ⟨.single (.paint c' hid), by cases d <;> simp [Path.rows_plug, Shape.join, Shape.rows],
    fun r h hb => ?_⟩
  have hnil : a.id ≠ .nil := hb.distinct.ne_nil (by simp)
  refine .modify hid hnil hb.focus ?_
  rw [Row.node_withColor]
  exact ⟨hb.setFocus c' rfl, (Heap.set_ne _ hnil.symm).trans hb.sentinel⟩

/-! ## Values -/

theorem overwrite_makes {d : Side} {c : Color} {x y : Shape K V} {a : Row K V} (v : V)
    (hb : h.FreshTree (p.plug (.join d c x a y))) (hid : a.id ∈ ids) :
    (overwrite a.id v).Makes ids h fun old h' =>
      old = a.value ∧ h'.FreshTree (p.plug (.join d c x { a with value := some v } y)) := by
  have hne := hb.ne_nil (i := a.id) (by simp)
  refine .bind (.get hid hne hb.focus (.bind (.modify hid hne hb.focus (.pure ⟨Row.value_node .., ?_⟩))))
  refine Heap.freshTree_iff.2 ⟨(Heap.set_ne _ hne.symm).trans hb.sentinel, ?_⟩
  have hr : Heap.LinkedTree .reserved _ (p.plug (.join d c x { a with value := some v } y)) :=
    (Heap.freshTree_iff.1 hb).2.setFocus c rfl
  cases d <;> exact hr

/-! ## Turning links -/

theorem Makes.transplant_hole {Q : Unit → Heap K V → Prop} {u v : NodeId} {w m n : Node K V}
    (hp : p.Hangs w h u) (hu : u ≠ .nil) (hup : u ∉ p.ids) (huid : u ∈ ids) (hm : h u = some m)
    (hpar : m.parent = p.parent) (hid : p.parent ∈ ids) (hne : p.parent ≠ .nil)
    (hn : h p.parent = some n) (hv : v ≠ .nil → v ∈ ids ∧ ∃ l, h v = some l)
    (hq : Q () ((h.set p.parent (n.setChild p.side v)).adopt v p.parent)) :
    (Edit.transplant u v).Makes ids h Q := by
  have hside : n.sideOfChild u = p.side := hp.sideOfChild (by simp [hu, hup]) hn
  refine .transplant huid hu hm hpar hid hne hn ?_ hv ?_
  · rw [hside]
    exact hp.child_side hn
  · rwa [hside]

/-- The child of `x` away from `d` comes to stand above it. -/
theorem rotate_turns {d : Side} {cx cy : Color} {A B O : Shape K V} {x y : Row K V}
    (hp : p.parent ∈ ids) (hx : x.id ∈ ids) (hy : y.id ∈ ids) (hB : B.top ≠ .nil → B.top ∈ ids) :
    (rotate x.id d).Turns cmp ids (p.plug (.join d cx A x (.join d cy B y O)))
      (p.plug (.join d cy (.join d cx A x B) y O)) := by
  refine ⟨.single (.rotate hx hy), by rw [Path.rows_plug, Path.rows_plug, Shape.rows_rotate],
    fun r h hb => ?_⟩
  obtain ⟨up, hpivot, hr⟩ := hb.rotate
  refine .rotate hpivot (fun i hi hne => ?_) ⟨hr, hpivot.rotate_nil.trans hb.sentinel⟩
  simp only [Row.parent_node, Row.child_other_node, Row.child_node, List.mem_cons,
    List.not_mem_nil, or_false] at hi
  rcases hi with rfl | rfl | rfl | rfl
  · exact hp
  · exact hx
  · exact hy
  · exact hB hne

/-! ## Linking a new node -/

/-- A new node without children is hung where there was none. -/
theorem link_makes {c : Color} {a : Row K V} (hb : h.FreshTree (p.plug .nil))
    (ha : h a.id = some (a.node c p.parent .left .nil .nil)) (hnew : a.id ∉ (p.plug .nil).ids)
    (hnil : a.id ≠ .nil) (hanchor : a.id ≠ .anchor) (hp : p.parent ∈ ids) :
    (modify p.parent (·.setChild p.side a.id)).Makes ids h fun _ h' =>
      h'.FreshTree (p.plug (.node c .nil a .nil)) := by
  obtain ⟨hres, hhole, -, hd⟩ := Path.freshTree_plug.1 hb
  rw [Path.mem_ids_plug] at hnew
  have hparent := p.parent_mem
  simp only [Shape.ids_nil, List.nil_append, List.not_mem_nil, false_or, List.nodup_cons,
    List.mem_cons] at hd hparent hnew
  obtain ⟨n, hn, -, hhole'⟩ := hhole.relink (List.nodup_cons.2 hd.2)
  refine .modify hp (by grind) hn (Path.freshTree_plug.2 ⟨?_, ?_, ?_, ?_⟩)
  · exact (Heap.set_ne _ (by grind)).trans hres
  · exact hhole' a.id
  · exact ⟨(Heap.set_ne _ (by grind)).trans ha, trivial, trivial⟩
  · simp only [Shape.ids_node, Shape.ids_nil, List.nil_append, List.singleton_append,
      List.nodup_cons, List.mem_cons]
    grind

/-! ## Taking a node out -/

/-- The only child `x` of the node takes its place. -/
theorem transplant_makes {d : Side} {c : Color} {x : Shape K V} {a : Row K V}
    (hb : h.FreshTree (p.plug (.join d c x a .nil))) (hp : p.parent ∈ ids) (ha : a.id ∈ ids)
    (hx : x.top ≠ .nil → x.top ∈ ids) :
    (transplant a.id x.top).Makes ids h fun _ h' =>
      h'.FreshTree (p.plug x) ∧ h' a.id = h a.id := by
  obtain ⟨hnil, hhole, ht, hd⟩ := Path.freshTree_plug.1 hb
  simp only [Shape.hangs_join, Shape.top_join] at ht hhole
  obtain ⟨haa, hxa, -⟩ := ht
  have hd' := hd
  simp only [List.nodup_cons, List.mem_cons, List.nodup_append, List.mem_append,
    Shape.mem_ids_join, Shape.nodup_join, Shape.ids_nil] at hd'
  have hparent := p.parent_mem
  have htop := x.top_mem
  rw [List.mem_cons] at hparent htop
  obtain ⟨n, hn, -, hhole'⟩ := hhole.relink (by simp only [List.nodup_cons]; grind)
  have hanil : a.id ≠ .nil := by grind
  have hPnil : p.parent ≠ .nil := by grind
  refine .transplant_hole hhole hanil (by grind) ha haa (Row.parent_node ..) hp hPnil hn
    (fun hne => ⟨hx hne, hxa.top_some hne⟩) ⟨Path.freshTree_plug.2 ⟨?_, ?_, ?_, ?_⟩, ?_⟩
  · by_cases hxnil : x.top = .nil
    · simp only [Heap.adopt, if_pos hxnil]
      exact (Heap.set_ne _ hPnil.symm).trans hnil
    · exact (Heap.adopt_ne _ (Ne.symm hxnil)).trans ((Heap.set_ne _ hPnil.symm).trans hnil)
  · exact (hhole' x.top).congr (Heap.adopt_ne _ (by grind)) fun i hi => Heap.adopt_ne _ (by grind)
  · have hxa' : x.Hangs (h.set p.parent (n.setChild p.side x.top)) a.id :=
      hxa.congr fun i hi => Heap.set_ne _ (by grind)
    exact hxa'.adopt (by simp only [List.nodup_cons]; grind) p.parent
  · simp only [List.nodup_cons, List.mem_cons, List.nodup_append, List.mem_append]
    grind
  · exact (Heap.adopt_ne _ (by grind)).trans (Heap.set_ne _ (by grind))

/-- What is left of a node that is taken out. -/
def husk (a : Row K V) (c : Color) : Node K V :=
  ⟨a.key, none, c, .nil, .nil, .nil⟩

theorem discard_makes {a : Row K V} {c : Color} {q : NodeId} {d : Side} {u v : NodeId}
    {t : Shape K V} (hb : h.FreshTree t) (ha : h a.id = some (a.node c q d u v)) (hid : a.id ∈ ids)
    (hnil : a.id ≠ .nil) (hanchor : a.id ≠ .anchor) (hmem : a.id ∉ t.ids) :
    (discard a.id).Makes ids h fun v h' =>
      v = a.value ∧ h'.FreshTree t ∧ h' a.id = some (husk a c) := by
  refine .bind (.get hid hnil ha (.bind (.modify hid hnil ha (.bind (.modify hid hnil
    (Heap.set_same ..) (.pure ⟨Row.value_node .., ?_, ?_⟩))))))
  · refine hb.congr fun i hi => ?_
    have hne : i ≠ a.id := by rintro rfl; tauto
    exact (Heap.set_ne _ hne).trans (Heap.set_ne _ hne)
  · rw [Heap.set_same]
    cases d <;> rfl

/-- A node with at most one child is taken out. -/
theorem splice_makes {d : Side} {c : Color} {x : Shape K V} {a : Row K V}
    (hb : h.FreshTree (p.plug (.join d c x a .nil))) (hp : p.parent ∈ ids) (ha : a.id ∈ ids)
    (hx : x.top ≠ .nil → x.top ∈ ids) :
    (splice a.id x.top).Makes ids h fun v h' =>
      v = a.value ∧ h'.FreshTree (p.plug x) ∧ h' a.id = some (husk a c) := by
  refine .bind ((transplant_makes hb hp ha hx).mono fun _ h' ⟨hb', ha'⟩ => ?_)
  have hmem : a.id ∈ (p.plug (.join d c x a .nil)).ids := by simp
  have hd := (Path.freshTree_plug.1 hb).2.2.2
  simp only [List.nodup_cons, List.mem_cons, List.nodup_append, List.mem_append,
    Shape.mem_ids_join, Shape.nodup_join, Shape.ids_nil] at hd
  refine discard_makes hb' (ha'.trans hb.focus) ha (hb.ne_nil hmem) (hb.ne_anchor hmem) ?_
  rw [Path.mem_ids_plug]
  grind

/-! ## Relocating a node -/

/-- Where `y` is about to take the place of `z`: nothing has changed around `z` yet, and below `y`
hangs what is to be on its right. -/
structure Ready (h : Heap K V) (p : Path K V) (c cy : Color) (zl : Shape K V) (z : Row K V)
    (right : NodeId) (y : Row K V) (zr : Shape K V) : Prop where
  sentinel : h .nil = some .reserved
  hole : p.Hangs .reserved h z.id
  erased : h z.id = some (z.node c p.parent .left zl.top right)
  left : zl.Hangs h z.id
  moved : ∃ parent, h y.id = some (y.node cy parent .left .nil zr.top)
  right : zr.Hangs h y.id

/-- Once it is out of the part on the right, `y` takes that part below it. -/
theorem Ready.of_freshTree {c cy : Color} {zl t : Shape K V} {z y : Row K V} {q : NodeId}
    (hb : h.FreshTree (p.plug (.node c zl z t))) (hne : t ≠ .nil)
    (hy : y.id ∉ NodeId.nil :: NodeId.anchor :: (p.plug (.node c zl z t)).ids) :
    Ready ((h.set y.id (y.node cy q .right t.top .nil)).adopt t.top y.id) p c cy zl z t.top y t := by
  obtain ⟨hnil, hhole, ⟨hz, hl, hr⟩, hd⟩ := Path.freshTree_plug.1 hb
  have htop := Shape.top_mem_ids hne
  simp only [Shape.ids_node, List.nodup_cons, List.mem_cons, List.nodup_append,
    List.mem_append] at hd
  simp only [Path.mem_ids_plug, Shape.ids_node, List.mem_cons, List.mem_append] at hy
  have hrest : ∀ i, i ≠ y.id → i ≠ t.top →
      ((h.set y.id (y.node cy q .right t.top .nil)).adopt t.top y.id) i = h i := fun i hiy hit =>
    (Heap.adopt_ne _ hit).trans (Heap.set_ne _ hiy)
  refine ⟨?_, ?_, ?_, ?_, ?_, ?_⟩
  · exact (hrest _ (by grind) (by grind)).trans hnil
  · exact hhole.congr (hrest _ (by grind) (by grind)) fun i hi => hrest _ (by grind) (by grind)
  · exact (hrest _ (by grind) (by grind)).trans hz
  · exact hl.congr fun i hi => hrest _ (by grind) (by grind)
  · exact ⟨q, (Heap.adopt_ne _ (by grind)).trans (Heap.set_same ..)⟩
  · have hr' : t.Hangs (h.set y.id (y.node cy q .right t.top .nil)) z.id :=
      hr.congr fun i hi => Heap.set_ne _ (by grind)
    exact hr'.adopt (by grind) y.id

theorem takeOver_makes {c cy : Color} {zl x : Shape K V} {z y : Row K V} {q : Path K V}
    (hb : h.FreshTree (p.plug (.node c zl z (q.plug (.node cy .nil y x)))))
    (hy : y.id ∈ ids) (hx : x.top ≠ .nil → x.top ∈ ids)
    (hzr : (q.plug (.node cy .nil y x)).top ∈ ids)
    (hyp : (q.onto (.under .right c z zl p)).parent ∈ ids) :
    (takeOver z.id (q.plug (.node cy .nil y x)).top y.id (q.onto (.under .right c z zl p)).parent
      x.top).Makes ids h fun _ h' =>
        Ready h' p c cy zl z (q.plug (.node cy .nil y x)).top y (q.plug x) := by
  cases q with
  | top =>
    obtain ⟨hnil, hhole, ht, -⟩ := Path.freshTree_plug.1 hb
    obtain ⟨hz', hl, hy', -, hx'⟩ := ht
    unfold takeOver
    rw [if_pos (by rfl)]
    exact .pure ⟨hnil, hhole, hz', hl, ⟨_, hy'⟩, hx'⟩
  | under d b e s q =>
    let q' : Path K V := .under d b e s q
    let p' : Path K V := .under .right c z zl p
    have hb' : h.FreshTree ((q'.onto p').plug (.join .right cy x y .nil)) := by
      rw [Path.plug_onto]
      exact hb
    have hd := (Path.freshTree_plug.1 hb').2.2.2
    simp only [Path.ids_onto, q', p', Path.ids, List.nodup_cons, List.mem_cons, List.nodup_append,
      List.mem_append, Shape.mem_ids_join, Shape.nodup_join, Shape.ids_nil] at hd
    have hne : (q'.onto p').parent ≠ z.id := by
      change e.id ≠ z.id
      grind
    unfold takeOver
    rw [if_neg hne]
    refine .bind ((transplant_makes hb' hyp hy hx).mono fun _ h₁ hm => ?_)
    obtain ⟨hb₁, hy₁⟩ := hm
    rw [Path.plug_onto] at hb₁
    rw [hb'.focus] at hy₁
    have hb₁' : h₁.FreshTree (p.plug (.node c zl z (q'.plug x))) := hb₁
    have hyout : y.id ∉ NodeId.nil :: NodeId.anchor :: (p.plug (.node c zl z (q'.plug x))).ids := by
      simp only [Path.mem_ids_plug, Shape.ids_node, q', Path.ids, List.mem_cons, List.mem_append]
      grind
    have hne' : q'.plug x ≠ .nil := q'.plug_ne_nil (by simp) x
    have hmem : (q'.plug x).top ∈ (p.plug (.node c zl z (q'.plug x))).ids := by
      simp [Path.mem_ids_plug, Shape.ids_node, Shape.top_mem_ids hne']
    have htop : (q'.plug x).top = (q'.plug (.node cy .nil y x)).top := q'.top_plug (by simp) _ _
    change (q'.plug (.node cy .nil y x)).top ∈ ids at hzr
    change Makes _ ids h₁ fun _ h' => Ready h' p c cy zl z (q'.plug (.node cy .nil y x)).top y _
    rw [← htop] at hzr ⊢
    have hrnil : (q'.plug x).top ≠ .nil := hb₁'.ne_nil hmem
    have hry : (q'.plug x).top ≠ y.id := by grind
    obtain ⟨m, hm⟩ := hb₁'.hangs.mem_some hmem
    have hm₂ : (h₁.set y.id (y.node cy (q'.onto p').parent .right (q'.plug x).top .nil))
        (q'.plug x).top = some m := (Heap.set_ne _ hry).trans hm
    refine .bind (.modify hy (by grind) hy₁ ?_)
    rw [Row.setChild_node]
    refine .modify hzr hrnil hm₂ ?_
    rw [Shape.top_nil, ← Heap.adopt_eq_set hrnil hm₂]
    exact .of_freshTree hb₁' hne' hyout

theorem Ready.replaced {c cy : Color} {zl zr : Shape K V} {z y : Row K V} {right : NodeId}
    (hr : Ready h p c cy zl z right y zr) (hzl : zl ≠ .nil)
    (hd : (NodeId.nil :: NodeId.anchor :: z.id :: y.id :: (zl.ids ++ zr.ids ++ p.ids)).Nodup)
    (hp : p.parent ∈ ids) (hz : z.id ∈ ids) (hy : y.id ∈ ids) (hl : zl.top ∈ ids) :
    Makes (do
      transplant z.id y.id
      modify y.id (·.setChild .left zl.top)
      modify zl.top fun n => { n with parent := y.id }
      paint y.id c
      discard z.id) ids h fun v h' =>
        v = z.value ∧ h'.FreshTree (p.plug (.node c zl y zr)) ∧ h' z.id = some (husk z c) := by
  have htop := Shape.top_mem_ids hzl
  have hparent := p.parent_mem
  simp only [List.nodup_cons, List.mem_cons, List.nodup_append, List.mem_append] at hd hparent
  have hlnil : zl.top ≠ .nil := by grind
  have hynil : y.id ≠ .nil := by grind
  have hznil : z.id ≠ .nil := by grind
  have hPnil : p.parent ≠ .nil := by grind
  have hly : zl.top ≠ y.id := by grind
  have hPy : p.parent ≠ y.id := by grind
  have hPl : p.parent ≠ zl.top := by grind
  obtain ⟨q, hmoved⟩ := hr.moved
  obtain ⟨n, hn, -, hhole⟩ := hr.hole.relink (by simp only [List.nodup_cons]; grind)
  let h₁ := (h.set p.parent (n.setChild p.side y.id)).adopt y.id p.parent
  have hy₁ : h₁ y.id = some (y.node cy p.parent .left .nil zr.top) :=
    (Heap.adopt_same hynil ((Heap.set_ne _ hPy.symm).trans hmoved)).trans
      (congrArg some (Row.node_withParent ..))
  obtain ⟨m, hm⟩ := hr.left.top_some hlnil
  let h₂ := h₁.set y.id (y.node cy p.parent .left zl.top zr.top)
  have hl₂ : h₂ zl.top = some m :=
    (Heap.set_ne _ hly).trans ((Heap.adopt_ne _ hly).trans ((Heap.set_ne _ hPl.symm).trans hm))
  let h₃ := h₂.adopt zl.top y.id
  have hy₃ : h₃ y.id = some (y.node cy p.parent .left zl.top zr.top) :=
    (Heap.adopt_ne _ hly.symm).trans (Heap.set_same ..)
  let h₄ := h₃.set y.id (y.node c p.parent .left zl.top zr.top)
  have hrest : ∀ i, i ≠ y.id → i ≠ zl.top → h₄ i = (h.set p.parent (n.setChild p.side y.id)) i :=
    fun i hiy hil => (Heap.set_ne _ hiy).trans ((Heap.adopt_ne _ hil).trans
      ((Heap.set_ne _ hiy).trans (Heap.adopt_ne _ hiy)))
  have hrest' : ∀ i, i ≠ y.id → i ≠ zl.top → i ≠ p.parent → h₄ i = h i :=
    fun i hiy hil hiP => (hrest i hiy hil).trans (Heap.set_ne _ hiP)
  have htree : h₄.FreshTree (p.plug (.node c zl y zr)) := by
    refine Path.freshTree_plug.2 ⟨?_, ?_, ⟨Heap.set_same .., ?_, ?_⟩, ?_⟩
    · exact (hrest' _ hynil.symm hlnil.symm hPnil.symm).trans hr.sentinel
    · exact (hhole y.id).congr (hrest _ (by grind) (by grind)) fun i hi =>
        hrest _ (by grind) (by grind)
    · have hl₂ : zl.Hangs h₂ z.id := hr.left.congr fun i hi =>
        (Heap.set_ne _ (by grind)).trans ((Heap.adopt_ne _ (by grind)).trans
          (Heap.set_ne _ (by grind)))
      exact (hl₂.adopt (by grind) y.id).congr fun i hi => Heap.set_ne _ (by grind)
    · exact hr.right.congr fun i hi => hrest' _ (by grind) (by grind) (by grind)
    · simp only [Shape.ids_node, List.nodup_cons, List.mem_cons, List.nodup_append,
        List.mem_append]
      grind
  refine .bind (.transplant_hole hr.hole hznil (by grind) hz hr.erased (Row.parent_node ..) hp hPnil hn
    (fun _ => ⟨hy, _, hmoved⟩) ?_)
  refine .bind (.modify hy hynil hy₁ ?_)
  rw [Row.setChild_node]
  refine .bind (.modify hl hlnil hl₂ ?_)
  rw [← Heap.adopt_eq_set hlnil hl₂]
  refine .bind (.modify hy hynil hy₃ ?_)
  rw [Row.node_withColor]
  refine discard_makes htree ((hrest' _ (by grind) (by grind) (by grind)).trans hr.erased) hz
    hznil (by grind) ?_
  simp only [Path.mem_ids_plug, Shape.ids_node, List.mem_append, List.mem_cons]
  grind

/-- A node with two children is taken out, and the one after it takes its place. -/
theorem replace_makes {c cy : Color} {zl x : Shape K V} {z y : Row K V} {q : Path K V}
    (hb : h.FreshTree (p.plug (.node c zl z (q.plug (.node cy .nil y x))))) (hzl : zl ≠ .nil)
    (hp : p.parent ∈ ids) (hz : z.id ∈ ids) (hl : zl.top ∈ ids)
    (hzr : (q.plug (.node cy .nil y x)).top ∈ ids) (hy : y.id ∈ ids)
    (hyp : (q.onto (.under .right c z zl p)).parent ∈ ids) (hx : x.top ≠ .nil → x.top ∈ ids) :
    (replace z.id zl.top (q.plug (.node cy .nil y x)).top c y.id
      (q.onto (.under .right c z zl p)).parent x.top).Makes ids h fun v h' =>
        v = z.value ∧ h'.FreshTree (p.plug (.node c zl y (q.plug x))) ∧
          h' z.id = some (husk z c) := by
  have hd := (Path.freshTree_plug.1 hb).2.2.2
  refine .bind ((takeOver_makes hb hy hx hzr hyp).mono fun _ h₁ hr => ?_)
  refine hr.replaced hzl ?_ hp hz hy hl
  simp only [Shape.ids_node, Shape.ids_nil, Path.nodup_plug, Path.mem_ids_plug, List.nodup_cons,
    List.mem_cons, List.nodup_append, List.mem_append] at hd ⊢
  grind

end Edit

end LatchTree
