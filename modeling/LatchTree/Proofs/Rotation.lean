import LatchTree.Proofs.Lookup.Place
import LatchTree.Proofs.Quiet

/-!
A rotation with no other thread about, of any link of any tree: the order of the nodes stays, links and
links back agree, and the rotation the other way restores every node.
-/

namespace LatchTree

variable {K V : Type} {s s' : Store K V} {h : Heap K V} {t : Shape K V} {d : Side} {x : NodeId}
  {w n m up : Node K V} {ids : List NodeId}

/-! ## Heaps -/

namespace Node

theorem unlink_setChild (n : Node K V) (d : Side) (i : NodeId) : (n.setChild d i).unlink = n.unlink := by
  cases d <;> rfl

theorem unlink_under (n : Node K V) (q : NodeId) : (n.under q).unlink = n.unlink := rfl

end Node

/-- All that a rotation changes is links. -/
theorem Heap.Pivot.unlink (hp : h.Pivot d x n m up) (i : NodeId) :
    (h.rotate d x n m up i).map Node.unlink = (h i).map Node.unlink := by
  by_cases hi : i ∈ [n.parent, x, n.child d.other]
  · simp only [List.mem_cons, List.not_mem_nil, or_false] at hi
    rcases hi with rfl | rfl | rfl
    · rw [hp.rotate_above, hp.above, Option.map_some, Option.map_some, Node.unlink_setChild]
    · rw [h.rotate_node d, hp.node, Option.map_some, Option.map_some, Node.unlink_under,
        Node.unlink_setChild]
    · rw [hp.rotate_moved, hp.moved, Option.map_some, Option.map_some, Node.unlink_under,
        Node.unlink_setChild]
  · by_cases hb : i = m.child d ∧ i ≠ .nil
    · obtain ⟨rfl, hne⟩ := hb
      obtain ⟨b, hb, -⟩ := hp.inner hne
      rw [hp.rotate_inner hne hb, hb, Option.map_some, Option.map_some, Node.unlink_under]
    · rw [h.rotate_rest d hi fun he => by tauto]

/-! ## Stores -/

/-- A rotation under a lock set of the nodes whose links it changes. -/
def Tree.turn (x : NodeId) (d : Side) : Program K V Unit := do
  let ids ← rotation x d
  alter ids (Edit.rotate x d)

namespace Store

/-- What the ids do not tell apart is the same in every node, also in those that no slot reaches. -/
theorem Touches.node_congr {α : Type} {f : Node K V → α} (ha : s.Touches ids s')
    (hheap : ∀ i, (s'.node? i).map f = (s.node? i).map f) (r : Ref) : f (s'.node r) = f (s.node r) := by
  by_cases hr : ∃ i, s.ref? i = some r
  · obtain ⟨i, hi⟩ := hr
    have heq := hheap i
    rw [node?_of_ref hi, node?_of_ref ((ha.ref i).trans hi)] at heq
    exact Option.some.inj heq
  · rw [ha.node r fun i _ _ hi => hr ⟨i, hi⟩]

/-- A store is told from another that has no latch held by what its slots reach. -/
theorem Quiet.eq_of_heap (hs : s.Quiet) (hs' : s'.Quiet) (ha : s.Touches ids s')
    (hheap : s'.node? = s.node?) : s' = s := by
  refine eq_of_content hs.unlatched.shows hs'.unlatched.shows ?_ ha.spin
  have hnode : s'.node = s.node :=
    funext fun r => ha.node_congr (f := id) (fun i => by rw [hheap]) r
  simp only [content, Content.mk.injEq]
  exact ⟨hnode, ha.keeps.made, ha.keeps.slots, ha.keeps.vacant, ha.keeps.entries, ha.relocations⟩

theorem Quiet.turn (hs : s.Quiet) (hp : Heap.Pivot s.node? d x n m up) : ∃ s',
    (Tree.turn x d).run s [] = (.ok (), s') ∧ s'.Quiet ∧
      s.Touches [n.parent, x, n.child d.other, m.child d] s' ∧
        s'.node? = Heap.rotate s.node? d x n m up := by
  have hids : ∀ i ∈ [n.parent, x, n.child d.other, m.child d], i ≠ .nil →
      ∃ r, s.ref? i = some r := by
    intro i hi hne
    simp only [List.mem_cons, List.not_mem_nil, or_false] at hi
    rcases hi with rfl | rfl | rfl | rfl
    · exact exists_ref hp.above
    · exact exists_ref hp.node
    · exact exists_ref hp.moved
    · obtain ⟨b, hb, -⟩ := hp.inner hne
      exact exists_ref hb
  obtain ⟨s', hexec, hs', ha, hheap⟩ := hs.alter hids (e := Edit.rotate x d)
    (Q := fun h => h = Heap.rotate s.node? d x n m up) (.rotate hp (fun i hi _ => hi) rfl)
  refine ⟨s', ?_, hs', ha, hheap⟩
  rw [Tree.turn, Tree.rotation, bind_assoc, hs.unlatched.look, hp.node]
  simp only [Program.child, bind_assoc]
  rw [hs.unlatched.look, hp.moved]
  exact Program.run_of_exec hexec (by simp)

end Store

/-- Any child that is not the sentinel can be rotated above its parent: it takes the place of its
parent, has it for a child, and passes its inner child on to it. That keeps the order of the nodes and
the links back, and writes links only, of the nodes around. The rotation the other way restores the
store. -/
theorem Tree.turn_back (hs : s.Quiet) (ht : Heap.LinkedTree w s.node? t) (hx : x ∈ t.ids)
    (hn : s.node? x = some n) (hy : n.child d.other ≠ .nil) :
    ∃ m up s' t', s.node? (n.child d.other) = some m ∧ s.node? n.parent = some up ∧
      (Tree.turn x d).run s [] = (.ok (), s') ∧ s'.node? = Heap.rotate s.node? d x n m up ∧
      s'.Quiet ∧ Heap.LinkedTree w s'.node? t' ∧ t'.rows = t.rows ∧
      s.Touches [n.parent, x, n.child d.other, m.child d] s' ∧
      (∀ r, (s'.node r).key = (s.node r).key ∧ (s'.node r).value = (s.node r).value ∧
        (s'.node r).color = (s.node r).color) ∧
      (Tree.turn (n.child d.other) d.other).run s' [] = (.ok (), s) := by
  obtain ⟨p, c, l, a, u, rfl, rfl⟩ := Shape.exists_plug hx
  -- both mirror images are one, with the link that turns away from `d`
  obtain ⟨A, Z, hAZ⟩ : ∃ A Z, Shape.node c l a u = .join d c A a Z := by
    cases d with
    | left => exact ⟨l, u, rfl⟩
    | right => exact ⟨u, l, rfl⟩
  rw [hAZ] at ht hx ⊢
  obtain rfl : n = a.node c p.parent d A.top Z.top := Option.some.inj (hn.symm.trans ht.focus)
  rw [Row.child_other_node] at hy
  obtain rfl | ⟨cy, B, y, O, rfl⟩ := Shape.eq_nil_or_join d Z
  · exact absurd rfl hy
  rw [Shape.top_join] at hn hy ⊢
  obtain ⟨up, hp, ht'⟩ := ht.rotate
  obtain ⟨s', hrun, hs', ha, hheap⟩ := hs.turn hp
  obtain ⟨s'', hrun', hs'', ha', hheap'⟩ := hs'.turn (hheap ▸ hp.back_pivot)
  obtain rfl : s'' = s := by
    refine hs.eq_of_heap hs'' (ha.trans (ha'.mono fun i hi _ => ?_)) ?_
    · simpa [or_comm, or_left_comm] using hi
    · exact hheap'.trans (hheap ▸ hp.back_rotate)
  refine ⟨_, up, s', _, hp.moved, hp.above, hrun, hheap, hs', hheap ▸ ht', ?_, ha, fun r => ?_, hrun'⟩
  · rw [Path.rows_plug, Path.rows_plug, Shape.rows_rotate]
  · have hunlink : (s'.node r).unlink = (s''.node r).unlink :=
      ha.node_congr (fun i => hheap ▸ hp.unlink i) r
    simpa [Node.unlink] using hunlink

/-- A root whose only child has a subtree to pass on, below an anchor with other links of its own. -/
def Store.leaning : Store Nat Nat :=
  .still 3 ⟨none, none, .red, 5, 2, 4⟩ [⟨some 1, some 10, .black, .anchor, .nil, 3⟩,
    ⟨some 3, some 30, .red, 2, 4, .nil⟩, ⟨some 2, some 20, .red, 3, .nil, .nil⟩,
    ⟨some 9, some 90, .black, 2, 3, 4⟩]

theorem Tree.turn_back_leaning : ∃ s', (Tree.turn 2 .left).run Store.leaning [] = (.ok (), s') ∧
    s'.node? 3 = some ⟨some 3, some 30, .red, .anchor, 2, .nil⟩ ∧
    (Tree.turn 3 .right).run s' [] = (.ok (), Store.leaning) := by
  let t : Shape Nat Nat := .node .black .nil ⟨2, some 1, some 10⟩
    (.node .red (.node .red .nil ⟨4, some 2, some 20⟩ .nil) ⟨3, some 3, some 30⟩ .nil)
  have ht : Heap.LinkedTree ⟨none, none, .red, 5, .nil, 4⟩ Store.leaning.node? t :=
    ⟨rfl, ⟨rfl, trivial, rfl, ⟨rfl, trivial, trivial⟩, trivial⟩, by decide⟩
  have hn : Store.leaning.node? 2 = some ⟨some 1, some 10, .black, .anchor, .nil, 3⟩ := rfl
  obtain ⟨m, up, s', -, hm, -, hrun, hheap, -, -, -, -, -, hback⟩ :=
    Tree.turn_back (d := .left) (Store.still_quiet ..) ht (by simp [t]) hn (by decide)
  have hm' : Store.leaning.node? 3 = some ⟨some 3, some 30, .red, 2, 4, .nil⟩ := rfl
  obtain rfl := Option.some.inj (hm.symm.trans hm')
  exact ⟨s', hrun, hheap ▸ rfl, hback⟩

end LatchTree
