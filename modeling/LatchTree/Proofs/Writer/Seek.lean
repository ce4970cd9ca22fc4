import LatchTree.Proofs.FixUp.Insert
import LatchTree.Proofs.FixUp.Delete

/-!
Finding a place in the tree: the descent of a writer, which moves its reservation down, and the least
node of a subtree.
-/

namespace LatchTree

variable {K V : Type} {cmp : K → K → Ordering} {R : Shape K V → Prop} {k : K}
  {x : Content K V} {t : Shape K V}
  {p : Path K V}

/-- Where the descent for `k` may end: at the node that compares equal with `k`, or at the node below
which `k` belongs. -/
inductive Content.Sought (cmp : K → K → Ordering) (k : K) (x : Content K V) (t : Shape K V) :
    NodeId → Ref → Node K V → Prop
  | found {p : Path K V} {c : Color} {l r : Shape K V} {a : Row K V} {ref : Ref}
      (ht : t = p.plug (.node c l a r)) (hp : p.Leads cmp k) (ha : a.order cmp k = .eq)
      (href : x.ref? a.id = some ref) : Sought cmp k x t a.id ref (a.node c p.parent .left l.top r.top)
  | missing {p : Path K V} {ref : Ref} {n : Node K V} (ht : t = p.plug .nil) (hp : p.Leads cmp k)
      (href : x.ref? p.parent = some ref) (hn : n.order cmp k = p.side.ordering) :
      Sought cmp k x t p.parent ref n

theorem Grips.only_calm (r : Ref) : (only r .reserving).Calm := holding_calm (some (0, r))

namespace Program.Ensures

/-- The reservation moves from one node to another. -/
theorem moveReservation {α : Type} {Q : α → Content K V → Grips → Prop}
    {f : Ref → Node K V → Program K V α} {r s : Ref} {i j : NodeId} (hx : x.Sound)
    (hi : x.ref? i = some r) (hj : x.ref? j = some s) (hne : i ≠ j)
    (h : (f s (x.node s)).Ensures cmp R x (.only s .reserving) Q) :
    Ensures cmp R (do
      let c ← Program.resolve j
      let m ← Program.reserve c
      Program.unreserve r
      f c m) x (.only r .reserving) Q := by
  have hrs : s ≠ r := fun he => hne (hx.inj _ _ _ hi (he ▸ hj))
  have hgrip : Request.grip (Request.grip (.only r .reserving) (.reserve s : Request K V))
      (.unreserve r : Request K V) = .only s .reserving := by
    funext i
    simp only [Request.grip, Grips.only, Function.update_apply]
    split_ifs with hir his
    · exact absurd (his.symm.trans hir) hrs
    all_goals rfl
  refine .bind (.resolve hj (.bind (.request ⟨hx.made _ _ hj, ?_⟩ Request.yields_reserve
    (.bind (.request ⟨hx.made _ _ hi, ?_⟩ Request.yields_unreserve ?_)))))
  · exact Function.update_of_ne hrs ..
  · simp [Request.grip, Function.update_of_ne hrs.symm, Grips.only]
  · rwa [hgrip]

theorem seek {Q : NodeId × Ref × Node K V → Content K V → Grips → Prop} {fuel : Nat} {c : Color}
    {l u : Shape K V} {a : Row K V} {r : Ref} (hx : x.TidyTree (p.plug (.node c l a u)))
    (hp : p.Leads cmp k) (href : x.ref? a.id = some r) (hfuel : (Shape.node c l a u).size ≤ fuel)
    (h : ∀ y s n, x.Sought cmp k (p.plug (.node c l a u)) y s n →
      Q (y, s, n) x (.only s .reserving)) :
    (Tree.seek cmp k fuel a.id r (a.node c p.parent .left l.top u.top)).Ensures cmp R x
      (.only r .reserving) Q := by
  induction fuel generalizing p c l u a r with
  | zero => simp [Shape.size, Shape.rows] at hfuel
  | succ fuel ih =>
    -- the same step on both sides
    have hstep : ∀ (d : Side) (X Y : Shape K V), Shape.join d c X a Y = .node c l a u →
        a.order cmp k = d.ordering →
        (Tree.seek cmp k (fuel + 1) a.id r (a.node c p.parent d X.top Y.top)).Ensures cmp R x
          (.only r .reserving) Q := by
      intro d X Y hj hord
      rw [← hj] at hx hfuel h
      unfold Tree.seek
      simp only [Row.order_node, hord, Node.sideOf_ordering, Row.child_node, Side.ordering_ne_eq,
        false_or]
      cases X with
      | nil =>
        rw [if_pos Shape.top_nil]
        exact .pure (h _ _ _ (.missing (p := .under d c a Y p) rfl ⟨hord, hp⟩ href
          ((Row.order_node ..).trans hord)))
      | node c' l' a' u' =>
        have hx' : x.TidyTree ((Path.under d c a Y p).plug (.node c' l' a' u')) := hx
        have hmem : a'.id ∈ ((Path.under d c a Y p).plug (.node c' l' a' u')).ids := by simp
        obtain ⟨s, hs⟩ := hx'.ref_some (List.mem_cons_of_mem _ (List.mem_cons_of_mem _ hmem))
        have hnode : x.node s = a'.node c' a.id .left l'.top u'.top :=
          Content.TidyTree.node_focus (d := .left) hx' hs
        have hne : a.id ≠ a'.id := by
          intro he
          have hd := (Path.freshTree_plug.1 hx'.tree).2.2.2
          simp only [Path.ids, Shape.ids_node, he, List.nodup_cons, List.nodup_append,
            List.mem_append, List.mem_cons] at hd
          grind
        rw [show (Shape.node c' l' a' u').top = a'.id from rfl, if_neg (hx'.tree.ne_nil hmem)]
        refine .moveReservation hx.sound href hs hne ?_
        rw [hnode]
        refine ih (p := .under d c a Y p) hx' ⟨hord, hp⟩ hs ?_ h
        rw [Shape.size_join] at hfuel
        omega
    cases hord : a.order cmp k with
    | gt => exact hstep .left l u rfl hord
    | lt => exact hstep .right u l rfl hord
    | eq =>
      unfold Tree.seek
      simp only [Row.order_node, hord, true_or, if_true]
      exact .pure (h _ _ _ (.found rfl hp hord href))

/-- The whole descent, from the anchor. -/
theorem descend {α : Type} {Q : α → Content K V → Grips → Prop}
    {f : NodeId × Ref × Node K V → Program K V α} {fuel : Nat} (hx : x.TidyTree t)
    (hfuel : t.size < fuel) (h : ∀ y s n, x.Sought cmp k t y s n →
      (f (y, s, n)).Ensures cmp R x (.only s .reserving) Q) :
    Ensures cmp R (do
      let top ← Program.resolve .anchor
      let n ← Program.reserve top
      let w ← Tree.seek cmp k fuel .anchor top n
      f w) x .free Q := by
  obtain ⟨fuel, rfl⟩ := Nat.exists_eq_add_of_lt hfuel
  refine .bind (.resolve hx.sound.anchor (.bind (.request ⟨hx.sound.made _ _ hx.sound.anchor, rfl⟩
    Request.yields_reserve (.bind ?_))))
  rw [hx.node_anchor]
  change (Tree.seek cmp k _ .anchor 1 _).Ensures cmp R x (.only 1 .reserving) _
  unfold Tree.seek
  have hord : ({ Node.reserved with left := t.top } : Node K V).order cmp k = .gt := rfl
  simp only [hord, reduceCtorEq, false_or]
  cases t with
  | nil => exact .pure (h _ _ _ (.missing (p := .top) rfl trivial hx.sound.anchor hord))
  | node c l a r =>
    obtain ⟨s, hs⟩ := hx.ref_some (i := a.id) (by simp)
    have hnode : x.node s = a.node c .anchor .left l.top r.top :=
      Content.TidyTree.node_focus (p := .top) (d := .left) hx hs
    change Ensures cmp R (if a.id = .nil then _ else _) x _ _
    rw [if_neg (hx.tree.ne_nil (by simp))]
    refine .moveReservation hx.sound hx.sound.anchor hs
      (hx.tree.ne_anchor (i := a.id) (by simp)).symm ?_
    rw [hnode]
    exact .seek (p := .top) hx trivial hs (by omega) h

/-- The least node of a subtree has no left child, and nothing in the subtree comes before it. -/
theorem least {Q : NodeId → Content K V → Grips → Prop} {g : Grips} {fuel : Nat} {u : Shape K V}
    (hu : u ≠ .nil) (hx : x.TidyTree (p.plug u)) (hg : g.Calm) (hfuel : u.size ≤ fuel)
    (h : ∀ (q : Path K V) c y w, u = q.plug (.node c .nil y w) → q.before = [] → Q y.id x g) :
    (Tree.least fuel u.top).Ensures cmp R x g Q := by
  induction u generalizing p fuel with
  | nil => exact absurd rfl hu
  | node c l a r ihl _ =>
    have hsize := Shape.size_node c l a r
    obtain ⟨fuel, rfl⟩ := Nat.exists_eq_add_of_lt (show 0 < fuel by omega)
    refine .bind (.look hx.sound hg (Content.TidyTree.focus (d := .left) hx) ?_)
    rw [Row.left_node]
    by_cases hl : l = .nil
    · subst hl
      exact .pure (h .top c a r rfl rfl)
    · have hxl : x.TidyTree ((Path.under .left c a r p).plug l) := hx
      rw [if_neg (hxl.tree.ne_nil (by simp [Shape.top_mem_ids hl]))]
      refine ihl hl hxl (by omega) fun q c' y w hq hbefore => ?_
      refine h (q.onto (.under .left c a r .top)) c' y w ?_ ?_
      · rw [Path.plug_onto, ← hq]
        rfl
      · rw [Path.before_onto, hbefore]
        rfl

end Program.Ensures

end LatchTree
