import LatchTree.Proofs.Entries

/-!
The place of a node that a lookup has come to: where it is in the tree, whether the search for a key
comes to it, and what that says of the node below it. A place that is held stays when others write.
-/

namespace LatchTree

variable {K V : Type} {cmp : K → K → Ordering} {k : K} {x x' : Content K V} {t t' : Shape K V}
  {p : Path K V} {r : Ref} {i : NodeId} {g : Grips}

namespace Shape

/-- The search for `k` comes to the node `i`, from the anchor down. -/
def Meets (cmp : K → K → Ordering) (k : K) (t : Shape K V) (i : NodeId) : Prop :=
  i = .anchor ∨ i ∈ t.trail cmp k

theorem exists_plug (hi : i ∈ t.ids) :
    ∃ p c l a u, t = Path.plug p (node c l a u) ∧ a.id = i := by
  induction t with
  | nil => exact absurd hi List.not_mem_nil
  | node c l a u ihl ihu =>
    rw [ids_node, List.mem_append, List.mem_cons] at hi
    rcases hi with hi | rfl | hi
    · obtain ⟨p, c', l', a', u', rfl, rfl⟩ := ihl hi
      exact ⟨p.onto (.under .left c a u .top), c', l', a', u', by rw [Path.plug_onto]; rfl, rfl⟩
    · exact ⟨.top, c, l, a, u, rfl, rfl⟩
    · obtain ⟨p, c', l', a', u', rfl, rfl⟩ := ihu hi
      exact ⟨p.onto (.under .right c a l .top), c', l', a', u', by rw [Path.plug_onto]; rfl, rfl⟩

theorem mem_trail_focus (cmp : K → K → Ordering) (k : K) {d : Side} {c : Color} {X Y : Shape K V}
    {a : Row K V} (hd : (p.plug (join d c X a Y)).ids.Nodup) :
    a.id ∈ (p.plug (join d c X a Y)).trail cmp k ↔ p.Leads cmp k := by
  rw [Path.mem_trail_plug, mem_trail_join]
  constructor
  · rintro (h | h)
    · exact absurd h.mem_ids (((Path.nodup_plug ..).1 hd).2.2 _ (by simp))
    · exact h.1
  · exact fun h => .inr ⟨h, .inl rfl⟩

end Shape

theorem Path.Leads.not_has [Std.TransCmp cmp] (hp : p.Leads cmp k)
    (hs : (p.plug .nil : Shape K V).Sorted cmp) : ¬(p.plug .nil : Shape K V).Has cmp k := by
  rw [hp.has_plug hs]
  exact Shape.has_nil

namespace Content

/-- The node `r` is in the tree, or the anchor, under the id `i`. -/
structure At (x : Content K V) (t : Shape K V) (r : Ref) (i : NodeId) : Prop where
  ref : x.ref? i = some r
  mem : i ∈ NodeId.anchor :: t.ids

theorem TidyTree.anchor (hx : x.TidyTree t) : x.At t 1 .anchor :=
  ⟨hx.sound.anchor, List.mem_cons_self⟩

theorem TidyTree.nodup (hx : x.TidyTree t) : t.ids.Nodup :=
  (List.nodup_cons.1 (List.nodup_cons.1 hx.tree.distinct).2).2

namespace At

theorem made (hx : x.TidyTree t) (h : x.At t r i) : r < x.made :=
  hx.sound.made _ _ h.ref

theorem ne_nil (hx : x.TidyTree t) (h : x.At t r i) : i ≠ .nil := by
  rintro rfl
  exact (List.nodup_cons.1 hx.tree.distinct).1 h.mem

/-- What is at a place: the anchor above the tree, or a node of it, seen from the side `d`. -/
theorem focus (hx : x.TidyTree t) (h : x.At t r i) (d : Side) :
    (i = .anchor ∧ x.node r = { Node.reserved with left := t.top }) ∨
      ∃ p c X a Y, t = Path.plug p (.join d c X a Y) ∧ a.id = i ∧
        x.node r = a.node c p.parent d X.top Y.top := by
  rcases List.mem_cons.1 h.mem with rfl | hi
  · obtain rfl := Option.some.inj (h.ref.symm.trans hx.sound.anchor)
    exact .inl ⟨rfl, hx.node_anchor⟩
  · obtain ⟨p, c, l, a, u, rfl, rfl⟩ := Shape.exists_plug hi
    refine .inr ⟨p, c, ?_⟩
    cases d with
    | left =>
      exact ⟨l, a, u, rfl, rfl, TidyTree.node_focus (d := .left) hx h.ref⟩
    | right =>
      exact ⟨u, a, l, rfl, rfl, TidyTree.node_focus (d := .right) hx h.ref⟩

/-- The link on the side of `k` leads to a node of the tree, and to that the search for `k` comes if
it came to the place and goes on from there. -/
theorem next (hx : x.TidyTree t) (h : x.At t r i) (hn : (x.node r).towards cmp k ≠ .nil) :
    (x.node r).towards cmp k ∈ t.ids ∧ ((x.node r).order cmp k ≠ .eq →
      (t.Meets cmp k ((x.node r).towards cmp k) ↔ t.Meets cmp k i)) := by
  rcases h.focus hx (Node.sideOf ((x.node r).order cmp k)) with
    ⟨rfl, hnode⟩ | ⟨p, c, X, a, Y, ht, rfl, hnode⟩
  · rw [hnode] at hn ⊢
    change t.top ≠ .nil at hn
    change t.top ∈ t.ids ∧ (_ → (t.Meets cmp k t.top ↔ _))
    cases t with
    | nil => exact absurd rfl hn
    | node c l a u => simp [Shape.top, Shape.trail, Shape.Meets]
  · have horder : (x.node r).order cmp k = a.order cmp k := by rw [hnode, Row.order_node]
    rw [horder] at hnode ht ⊢
    have htop : (x.node r).towards cmp k = X.top := by
      rw [Node.towards, horder, hnode, Row.child_node]
    rw [htop] at hn ⊢
    obtain ⟨c', l', a', u', rfl⟩ : ∃ c' l' a' u', X = .node c' l' a' u' := by
      cases X with
      | nil => exact absurd rfl hn
      | node c' l' a' u' => exact ⟨c', l', a', u', rfl⟩
    subst ht
    have hid := hx.tree.ne_anchor (i := a.id) (by simp)
    have hid' := hx.tree.ne_anchor (i := a'.id) (by simp)
    refine ⟨by simp [Shape.top], fun ho => ?_⟩
    have hleads := Shape.mem_trail_focus cmp k (d := .left)
      (p := .under (Node.sideOf (a.order cmp k)) c a Y p) hx.nodup
    have hup := Shape.mem_trail_focus cmp k hx.nodup
    constructor
    · exact fun hm => .inr (hup.2 (hleads.1 (hm.resolve_left hid')).2)
    · refine fun hm => .inr (hleads.2 ⟨(Side.ordering_sideOf ho).symm, hup.1 ?_⟩)
      exact hm.resolve_left hid

/-- A place with no link on the side of `k` has a hole there. -/
theorem hole (hx : x.TidyTree t) (h : x.At t r i) (ho : (x.node r).order cmp k ≠ .eq)
    (hn : (x.node r).towards cmp k = .nil) : (i = .anchor ∧ t = .nil) ∨
      ∃ d c a Y p, t = Path.plug (.under d c a Y p) .nil ∧ a.id = i ∧
        a.order cmp k = d.ordering ∧ x.node r = a.node c p.parent d .nil Y.top := by
  rcases h.focus hx (Node.sideOf ((x.node r).order cmp k)) with
    ⟨rfl, hnode⟩ | ⟨p, c, X, a, Y, ht, rfl, hnode⟩
  · rw [hnode] at hn
    exact .inl ⟨rfl, hx.tree.empty_or_join.1 hn⟩
  · have horder : (x.node r).order cmp k = a.order cmp k := by rw [hnode, Row.order_node]
    rw [horder] at ho hnode ht
    rw [Node.towards, horder, hnode, Row.child_node] at hn
    subst ht
    have hX : X = .nil := by
      by_contra hX
      exact hx.tree.ne_nil (by simp [Shape.top_mem_ids hX]) hn
    subst hX
    exact .inr ⟨_, c, a, Y, p, rfl, rfl, (Side.ordering_sideOf ho).symm, hnode⟩

/-- The search for `k` ends at a place with no link on the side of `k`. -/
theorem missed (hx : x.TidyTree t) (h : x.At t r i) (ho : (x.node r).order cmp k ≠ .eq)
    (hn : (x.node r).towards cmp k = .nil) (hm : t.Meets cmp k i) :
    ∃ p, t = Path.plug p .nil ∧ p.Leads cmp k := by
  rcases h.hole hx ho hn with ⟨-, rfl⟩ | ⟨d, c, a, Y, p, rfl, rfl, hord, -⟩
  · exact ⟨.top, rfl, trivial⟩
  · refine ⟨_, rfl, hord, (Shape.mem_trail_focus cmp k hx.nodup).1 ?_⟩
    exact hm.resolve_left (hx.tree.ne_anchor (by simp))

/-- A node that compares equal with `k` is the one that the search comes to. -/
theorem found [Std.TransCmp cmp] (hx : x.TidyTree t) (hs : t.Sorted cmp) (h : x.At t r i)
    (ho : (x.node r).order cmp k = .eq) : t.Meets cmp k i ∧
      ∃ p c l a u, t = Path.plug p (.node c l a u) ∧ p.Leads cmp k ∧ a.order cmp k = .eq ∧
        a.value = (x.node r).value := by
  rcases h.focus hx .left with ⟨rfl, hnode⟩ | ⟨p, c, l, a, u, ht, rfl, hnode⟩
  · rw [hnode] at ho
    exact absurd ho (by simp [Node.order, Node.reserved])
  · rw [hnode, Row.order_node] at ho
    subst ht
    have hp : p.Leads cmp k :=
      Path.leads_of_has ((Shape.has_join ..).2 (.inl ho)) hs
    refine ⟨.inr ((Shape.mem_trail_focus cmp k hx.nodup).2 hp), p, c, l, a, u, rfl, hp, ho, ?_⟩
    rw [hnode, Row.value_node]

end At

/-- Only a node in the tree has a node below it. -/
theorem TidyTree.at_of_towards (hx : x.TidyTree t) (hn : (x.node r).towards cmp k ≠ .nil) :
    ∃ i, x.At t r i := by
  by_contra hne
  obtain ⟨hl, hr⟩ := hx.childless r fun i hi href => hne ⟨i, href, hi⟩
  refine hn ?_
  rw [Node.towards]
  cases Node.sideOf ((x.node r).order cmp k) with
  | left => exact hl
  | right => exact hr

/-! ## When others write -/

namespace Changes

theorem relocations (hc : Changes cmp g x x' t t') :
    x'.relocations = x.relocations ∨ x'.relocations = x.relocations + 1 := by
  obtain ⟨-, -, ⟨h, -⟩ | ⟨h, -⟩⟩ := hc.moves
  · exact .inl h
  · exact .inr h

theorem sorted [Std.TransCmp cmp] (hc : Changes cmp g x x' t t') (hs : t.Sorted cmp) :
    t'.Sorted cmp := by
  obtain ⟨ids, -, ⟨-, h⟩ | ⟨-, h⟩⟩ := hc.moves
  · exact h.sorted hs
  · exact h.sorted hs

theorem filled (hc : Changes cmp g x x' t t') (hf : t.Filled) : t'.Filled := by
  obtain ⟨ids, -, ⟨-, h⟩ | ⟨-, h⟩⟩ := hc.moves
  · exact h.filled hf
  · exact h.filled hf

/-- A place whose node is not locked stays, with its node as it is. -/
theorem place (hc : Changes cmp g x x' t t') (h : x.At t r i) (hg : (g r).locked = false) :
    x'.At t' r i ∧ x'.node r = x.node r := by
  refine ⟨⟨(hc.refs i (List.mem_cons_of_mem _ h.mem)).trans h.ref, ?_⟩,
    hc.frame r (h.made hc.before) hg⟩
  rcases List.mem_cons.1 h.mem with rfl | hi
  · exact List.mem_cons_self
  refine List.mem_cons_of_mem _ ?_
  obtain ⟨ids, hids, hmove⟩ := hc.moves
  have hout : i ∉ ids := fun hi' =>
    absurd (hids i hi' (h.ne_nil hc.before) r h.ref) (by simp [hg])
  rcases hmove with ⟨-, hmove⟩ | ⟨-, hmove⟩
  · exact hmove.mem_ids hi hout
  · exact hmove.mem_ids hi hout

variable [Std.TransCmp cmp]

/-- As long as no entry is moved up, the search still comes to the place. -/
theorem meets (hc : Changes cmp g x x' t t') (hs : t.Sorted cmp) (h : x.At t r i)
    (hg : (g r).locked = false) (hm : t.Meets cmp k i) :
    x'.relocations = x.relocations + 1 ∨ (x'.relocations = x.relocations ∧ t'.Meets cmp k i) := by
  obtain ⟨ids, hids, hmove⟩ := hc.moves
  have hout : i ∉ ids := fun hi' =>
    absurd (hids i hi' (h.ne_nil hc.before) r h.ref) (by simp [hg])
  rcases hmove with ⟨hrel, hmove⟩ | ⟨hrel, -⟩
  · exact .inr ⟨hrel, hm.imp_right fun hi => hmove.mem_trail hs hi hout⟩
  · exact .inl hrel

/-- The search for a key that is missed at the place is missed there still, even if an entry is
moved up. -/
theorem meets_of_miss (hc : Changes cmp g x x' t t') (hs : t.Sorted cmp) (h : x.At t r i)
    (hg : (g r).locked = false) (ho : (x.node r).order cmp k ≠ .eq)
    (hn : (x.node r).towards cmp k = .nil) (hm : t.Meets cmp k i) : t'.Meets cmp k i := by
  obtain ⟨h', hnode⟩ := hc.place h hg
  obtain ⟨ids, hids, ⟨-, hmove⟩ | ⟨-, hmove⟩⟩ := hc.moves
  · refine hm.imp_right fun hi => hmove.mem_trail hs hi fun hi' => ?_
    exact absurd (hids i hi' (h.ne_nil hc.before) r h.ref) (by simp [hg])
  have hs' := hc.sorted hs
  have hsub := hmove.rows
  rcases h.hole hc.before ho hn with ⟨hi, -⟩ | ⟨d, c, a, Y, p, rfl, rfl, hord, ha⟩
  · exact .inl hi
  rcases h'.focus hc.after d with ⟨hi, -⟩ | ⟨p', c', X, b, Y', rfl, hid, hb⟩
  · exact .inl hi
  rw [hnode, ha] at hb
  obtain rfl : a = b := by
    cases a; cases b; cases d <;> simp_all [Row.node]
  have hup := (Shape.mem_trail_focus cmp k hc.before.nodup).1
    (hm.resolve_left (hc.before.tree.ne_anchor (by simp)))
  refine .inr ((Shape.mem_trail_focus cmp k hc.after.nodup).2 ?_)
  refine Path.leads_of_gap ((Shape.mem_rows_join ..).2 (.inl rfl)) hord hs' fun e he hon => ?_
  exact Path.Leads.gap ⟨hord, hup⟩ hs (hsub.subset he) hon

/-- The search for an entry does not come to the place if it did not before. -/
theorem meets_of_has (hc : Changes cmp g x x' t t') (hs : t.Sorted cmp) (h : x.At t r i)
    (hg : (g r).locked = false) (hk : t'.Has cmp k) (hm : t'.Meets cmp k i) : t.Meets cmp k i := by
  obtain ⟨ids, hids, hmove⟩ := hc.moves
  have hout : i ∉ ids := fun hi' =>
    absurd (hids i hi' (h.ne_nil hc.before) r h.ref) (by simp [hg])
  rcases List.mem_cons.1 h.mem with rfl | hi
  · exact .inl rfl
  refine hm.imp_right fun hm => ?_
  rcases hmove with ⟨-, hmove⟩ | ⟨-, hmove⟩
  · exact hmove.mem_trail_of_has hs hk hm hi hout
  · exact hmove.mem_trail_of_has hs hk hm hout

end Changes

end Content

end LatchTree
