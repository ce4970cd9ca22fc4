import LatchTree.Proofs.Writer.Set

/-!
Removing an entry: from a settled tree to a settled tree, with one row less or none.
-/

namespace LatchTree

variable {K V : Type} {cmp : K → K → Ordering} {R : Shape K V → Prop} {k : K}
  {x x' : Content K V} {t : Shape K V}
  {p : Path K V}

/-- What removing `k` answers, and what rows it leaves. -/
inductive Shape.Removes (cmp : K → K → Ordering) (k : K) (t : Shape K V) :
    Option V → List (Row K V) → Prop
  | present {p : Path K V} {c : Color} {l r : Shape K V} {a : Row K V}
      (ht : t = p.plug (.node c l a r)) (hp : p.Leads cmp k) (ha : a.order cmp k = .eq) :
      Removes cmp k t a.value (p.before ++ (l.rows ++ r.rows) ++ p.after)
  | absent {p : Path K V} (ht : t = p.plug .nil) (hp : p.Leads cmp k) :
      Removes cmp k t none t.rows

theorem Path.Even.le {m n : Nat} (h : p.Even m n) : m ≤ n := by
  induction p generalizing m with
  | top => exact le_of_eq h
  | under d c a u p ih => exact (Nat.le_add_right ..).trans (ih h.2)

/-- The colours of a path do not depend on its rows. -/
theorem Path.redBlack_onto {q : Path K V} {d : Side} {c : Color} {a b : Row K V} {u : Shape K V}
    {n : Nat} (h : ((q.onto (.under d c a u p)).plug t).RedBlack n) :
    ((q.onto (.under d c b u p)).plug t).RedBlack n := by
  rw [Path.plug_onto] at h ⊢
  exact Path.redBlack_row b h

theorem Path.parent_onto_under (q : Path K V) (d : Side) (c : Color) (a b : Row K V)
    (u : Shape K V) (hq : a.id ∉ q.ids) : (q.onto (.under d c b u p)).parent =
      if (q.onto (.under d c a u p)).parent = a.id then b.id
      else (q.onto (.under d c a u p)).parent := by
  cases q with
  | top => exact (if_pos rfl).symm
  | under d' c' e u' q =>
    refine (if_neg fun he => hq ?_).symm
    rw [← he]
    exact List.mem_cons_self

namespace Content.SettledTree

variable {t' : Shape K V} {z : Row K V} (hx : x.SettledTree t) (h : t.rows.Perm (z :: t'.rows))

include hx h

/-- The node of a row that is taken out of the tree is one that the rest does not have. -/
theorem not_mem_erased : z.id ∉ NodeId.nil :: NodeId.anchor :: t'.ids := by
  have hd := hx.tidy.tree.distinct
  have hperm : (NodeId.nil :: NodeId.anchor :: t.ids).Perm
      (z.id :: NodeId.nil :: NodeId.anchor :: t'.ids) :=
    (((h.map Row.id).cons _).cons _).trans (((List.Perm.swap ..).cons _).trans (.swap ..))
  exact (List.nodup_cons.1 (hperm.nodup_iff.1 hd)).1

/-- With its node freed and the row no longer counted, a fix-up comes to a settled tree. -/
theorem erased {x₁ : Content K V} {n : Nat} (hk : x.Keeps x₁)
    (hs : Settles { x₁.vacate z.id with entries := x₁.entries - 1 } t' n x') :
    ∃ t'', x'.SettledTree t'' ∧ t''.rows = t'.rows := by
  refine hs.settledTree (hx.filled.erase h) ?_ fun i r hi => ?_
  · change x₁.entries - 1 = UInt64.ofNat t'.size
    rw [hk.entries, hx.entries, Shape.size_of_perm h, UInt64.ofNat_add]
    exact UInt64.add_sub_cancel ..
  · have hi : (x₁.vacate z.id).ref? i = some r := hi
    rw [Content.ref_vacate] at hi
    split_ifs at hi with hiz
    have hu := hx.used i r ((hk.ref i).symm.trans hi)
    simp only [List.mem_cons, Shape.mem_ids_of_perm h, hiz, false_or] at hu ⊢
    exact hu

end Content.SettledTree

namespace Program.Ensures

variable {d : Side} {c : Color} {X l r : Shape K V} {a z : Row K V} {s : Ref} {fuel n : Nat}

/-! ## Taking a node out -/

/-- A node with at most one child is taken out. -/
theorem splice {Q : Option V → Content K V → Grips → Prop}
    (hx : x.TidyTree (p.plug (.join d c X z .nil))) (hs : x.ref? z.id = some s)
    (hR : R (p.plug X))
    (h : ∀ x', x'.TidyTree (p.plug X) → x.Keeps x' → Q z.value x' .free) :
    (LockSet.within [p.parent, z.id, X.top] (some (z.id, s))
      { edit := Edit.splice z.id X.top }).Ensures cmp R x (.only s .reserving) Q := by
  have hparent := p.parent_mem
  have htop := X.top_mem
  refine .within hx (fun i hi hne => ?_) (fun m hm => ?_)
    ((Edit.splice_makes hx.tree (by simp) (by simp) (by simp)).mono
      fun v h' ⟨hv, hb, hz⟩ => ⟨hv, hb, fun i hi hi' m hm => ?_⟩)
    (.splice (by simp)) (.inr hR) h
  · simp only [List.mem_cons, List.not_mem_nil, or_false] at hi hparent htop
    simp only [List.mem_cons, Path.mem_ids_plug, Shape.mem_ids_join]
    rcases hi with rfl | rfl | rfl <;> tauto
  · obtain rfl := Option.mem_some_iff.1 hm
    exact ⟨by simp, hx.tree.ne_nil (by simp), hs⟩
  · simp only [Path.mem_ids_plug, Shape.mem_ids_join, Shape.ids_nil, List.not_mem_nil,
      or_false] at hi hi'
    obtain rfl : i = z.id := by tauto
    obtain rfl := Option.some.inj (hz.symm.trans hm)
    exact ⟨rfl, rfl⟩

/-- A node with two children is taken out, and the one after it takes its place. -/
theorem replace {Q : Option V → Content K V → Grips → Prop} {q : Path K V} {cy : Color}
    {y : Row K V} (hx : x.TidyTree (p.plug (.node c l z (q.plug (.node cy .nil y X)))))
    (hl : l ≠ .nil) (hq : q.before = []) (hs : x.ref? z.id = some s)
    (hR : R (p.plug (.node c l y (q.plug X))))
    (h : ∀ x', x'.TidyTree (p.plug (.node c l y (q.plug X))) → x.Keeps x' → Q z.value x' .free) :
    (LockSet.within [p.parent, z.id, l.top, (q.plug (.node cy .nil y X)).top, y.id,
      (q.onto (.under .right c z l p)).parent, X.top] (some (z.id, s))
      { edit := Edit.replace z.id l.top (q.plug (.node cy .nil y X)).top c y.id
          (q.onto (.under .right c z l p)).parent X.top,
        relocates := true }).Ensures cmp R x (.only s .reserving) Q := by
  have hparent := p.parent_mem
  have hparent' := (q.onto (.under .right c z l p)).parent_mem
  have htop := X.top_mem
  have htop' := (q.plug (.node cy .nil y X)).top_mem
  have htopl := Shape.top_mem_ids hl
  refine .within hx (fun i hi hne => ?_) (fun m hm => ?_)
    ((Edit.replace_makes hx.tree hl (by simp) (by simp) (by simp) (by simp) (by simp) (by simp)
      (by simp)).mono fun v h' ⟨hv, hb, hz⟩ => ⟨hv, hb, fun i hi hi' m hm => ?_⟩)
    (.mk (by simp) (by simp) hq) (.inr hR) h
  · simp only [List.mem_cons, List.not_mem_nil, or_false, Path.ids_onto, List.mem_append,
      Path.mem_ids_plug, Path.ids, Shape.ids_node, Shape.ids_nil, false_or]
      at hi hparent hparent' htop htop'
    simp only [List.mem_cons, Path.mem_ids_plug, Shape.ids_node, Shape.ids_nil, List.mem_append,
      List.not_mem_nil, false_or]
    rcases hi with rfl | rfl | rfl | rfl | rfl | rfl | rfl
    · exact hparent.imp_right .inr
    · exact .inr (.inl (.inr (.inl rfl)))
    · exact .inr (.inl (.inl htopl))
    · exact .inr (.inl (.inr (.inr (htop'.resolve_left hne))))
    · exact .inr (.inl (.inr (.inr (.inl (.inl rfl)))))
    · rcases hparent' with h | h | h | h | h
      · exact .inl h
      · exact .inr (.inl (.inr (.inr (.inr h))))
      · exact .inr (.inl (.inr (.inl h)))
      · exact .inr (.inl (.inl h))
      · exact .inr (.inr h)
    · exact .inr (.inl (.inr (.inr (.inl (.inr (htop.resolve_left hne))))))
  · obtain rfl := Option.mem_some_iff.1 hm
    exact ⟨by simp, hx.tree.ne_nil (by simp), hs⟩
  · simp only [Path.mem_ids_plug, Shape.ids_node, Shape.ids_nil, List.mem_append, List.mem_cons,
      List.not_mem_nil, false_or] at hi hi'
    obtain rfl : i = z.id := by tauto
    obtain rfl := Option.some.inj (hz.symm.trans hm)
    exact ⟨rfl, rfl⟩

/-- Afterwards some node, of the colour that is answered with, is missing above `X`. -/
theorem detach {Q : Option V × NodeId × NodeId × Color → Content K V → Grips → Prop}
    (hx : x.TidyTree (p.plug (.node c l z r))) (hrb : (p.plug (.node c l z r)).RedBlack n)
    (hs : x.ref? z.id = some s) (hfuel : r.size ≤ fuel)
    (hR : ∀ t', t'.rows = p.before ++ (l.rows ++ r.rows) ++ p.after → R t')
    (h : ∀ x' (q : Path K V) d cy (X : Shape K V) b, x'.TidyTree (q.plug X) → x.Keeps x' →
      (q.plug (.join d cy X b .nil)).RedBlack n →
      (q.plug X).rows = p.before ++ (l.rows ++ r.rows) ++ p.after →
      Q (z.value, X.top, q.parent, cy) x' .free) :
    (Tree.detach fuel z.id s (z.node c p.parent .left l.top r.top)).Ensures cmp R x
      (.only s .reserving) Q := by
  unfold Tree.detach
  rw [Row.left_node, Row.right_node, Row.parent_node, Row.color_node]
  have htop : ∀ u : Shape K V, (∀ i ∈ u.ids, i ≠ .nil) → u ≠ .nil → u.top ≠ .nil :=
    fun u hu hne => hu _ (Shape.top_mem_ids hne)
  have hltop : l ≠ .nil → l.top ≠ .nil := htop l fun i hi => hx.tree.ne_nil (by simp [hi])
  have hrtop : r ≠ .nil → r.top ≠ .nil := htop r fun i hi => hx.tree.ne_nil (by simp [hi])
  by_cases hl : l = .nil
  · subst hl
    simp only [Shape.top_nil, true_or, if_true]
    have hrows : (p.plug r).rows = p.before ++ (Shape.nil.rows ++ r.rows) ++ p.after := by
      simp [Path.rows_plug, Shape.rows]
    refine .bind (.splice (d := .right) hx hs (hR _ hrows) fun x' hx' hk => ?_)
    exact .pure (h x' p .right c r z hx' hk hrb hrows)
  by_cases hr : r = .nil
  · subst hr
    simp only [Shape.top_nil, or_true, if_true, if_neg (hltop hl)]
    have hrows : (p.plug l).rows = p.before ++ (l.rows ++ Shape.nil.rows) ++ p.after := by
      simp [Path.rows_plug, Shape.rows]
    refine .bind (.splice (d := .left) hx hs (hR _ hrows) fun x' hx' hk => ?_)
    exact .pure (h x' p .left c l z hx' hk hrb hrows)
  rw [if_neg fun he => he.elim (hltop hl) (hrtop hr)]
  have hg := Grips.only_calm s
  refine .bind (.least (p := .under .right c z l p) hr hx hg hfuel fun q cy y X hrq hq => ?_)
  subst hrq
  have hfocus : x.TidyTree ((q.onto (.under .right c z l p)).plug (.join .left cy .nil y X)) := by
    rw [Path.plug_onto]
    exact hx
  refine .bind (.look hx.sound hg hfocus.focus ?_)
  rw [Row.parent_node, Row.right_node, Row.color_node]
  have hzq : z.id ∉ q.ids := by
    have hd := (Path.freshTree_plug.1 hfocus.tree).2.2.2
    simp only [Path.ids_onto, Path.ids, List.nodup_cons, List.nodup_append, List.mem_append,
      List.mem_cons] at hd
    grind
  have hrows : (p.plug (.node c l y (q.plug X))).rows = p.before ++
      (l.rows ++ (q.plug (.node cy .nil y X)).rows) ++ p.after := by
    simp [Path.rows_plug, Shape.rows, hq]
  refine .bind (.replace hx hl hq hs (hR _ hrows) fun x' hx' hk => .pure ?_)
  have hpar := Path.parent_onto_under (p := p) q .right c z y l hzq
  rw [← hpar]
  refine h x' (q.onto (.under .right c y l p)) .right cy X y ?_ hk ?_ ?_
  · rw [Path.plug_onto]
    exact hx'
  · refine Path.redBlack_onto (a := z) ?_
    rw [Path.plug_onto]
    exact hrb
  · rw [Path.plug_onto]
    exact hrows

/-! ## After that -/

theorem free {Q : Unit → Content K V → Grips → Prop} {g : Grips} {i : NodeId} (hx : x.TidyTree t)
    (hs : x.ref? i = some s) (hi : i ∉ NodeId.nil :: NodeId.anchor :: t.ids)
    (h : Q () (x.vacate i) g) : (Program.request (.free i)).Ensures cmp R x g Q := by
  have hi' := hi
  simp only [List.mem_cons, not_or] at hi'
  refine .change trivial (Request.yields_free hi'.1 hi'.2.1 hs)
    (.still hx (hx.vacate hs hi) (fun r _ => rfl) (fun j hj => Content.ref_vacate_other x hi hj)
      le_rfl rfl) (.inl rfl) h

/-- A node of the colour `c` was taken out above `X`. -/
theorem refill (hx : x.TidyTree (p.plug X)) (hrb : (p.plug (.join d c X a .nil)).RedBlack n)
    (hfuel : p.length < fuel) :
    (Tree.refill fuel c X.top p.parent).Ensures cmp R x .free fun _ x' g' =>
      (∃ n, x.Settles (p.plug X) n x') ∧ g' = .free := by
  have hroot := Path.rooted_of_redBlack hrb
  obtain ⟨hp, hj, hcol⟩ := Path.calm_plug.1 hrb.calm
  obtain ⟨hjc, hX, -⟩ := Shape.calm_join.1 hj
  obtain ⟨m, hm, hpe⟩ := Path.even_plug.1 hrb.even
  obtain ⟨k, hXe, -, rfl⟩ := Shape.even_join.1 hm
  unfold Tree.refill
  cases c with
  | red =>
    rw [if_neg (by simp)]
    refine .pure ⟨⟨n, _, n, hx, .refl x, rfl, ⟨?_, ?_, ?_⟩, .inl rfl⟩, rfl⟩
    · exact Path.color_plug hroot fun _ => (hjc rfl).1
    · exact Path.calm_plug.2 ⟨hp, hX, fun _ => (hjc rfl).1⟩
    · exact Path.even_plug.2 ⟨k, hXe, hpe⟩
  | black =>
    rw [if_pos rfl]
    obtain ⟨n, rfl⟩ := Nat.exists_eq_succ_of_ne_zero (Nat.ne_of_gt (hpe.le.trans_lt' k.succ_pos))
    exact (deleteFixUp hx hX.blacken hXe hp hpe hroot (Nat.zero_lt_of_lt hfuel)
      fun _ => hfuel).mono fun _ x' g' ⟨hs, hg⟩ => ⟨⟨_, hs⟩, hg⟩

/-- The entry in focus is removed. -/
theorem erase {Q : Option V → Content K V → Grips → Prop} (hx : x.SettledTree (p.plug (.node c l z r)))
    (hs : x.ref? z.id = some s) (hfuel : (p.plug (.node c l z r)).size < fuel)
    (hR : ∀ t', t'.rows = p.before ++ (l.rows ++ r.rows) ++ p.after → R t')
    (h : ∀ x' t', x'.SettledTree t' → t'.rows = p.before ++ (l.rows ++ r.rows) ++ p.after →
      x.Allots x' → Q z.value x' .free) :
    Ensures cmp R (do
      let (v, y, yp, color) ← Tree.detach fuel z.id s (z.node c p.parent .left l.top r.top)
      Program.request (.free z.id)
      Program.request .countDown
      Tree.refill fuel color y yp
      return v) x (.only s .reserving) Q := by
  obtain ⟨n, hn⟩ := hx.colors
  have hall := Shape.rows_perm p c l z r
  have hsize := hall.length_eq
  simp only [List.length_append, List.length_cons] at hsize
  rw [Shape.size, hsize] at hfuel
  refine .bind (.detach hx.tidy hn hs (by rw [Shape.size]; omega) hR
    fun x' q d cy X b hx' hk hrb hrows => ?_)
  have hperm : (p.plug (.node c l z r)).rows.Perm (z :: (q.plug X).rows) := by
    rw [hrows]
    exact hall
  have hz : z.id ∉ NodeId.nil :: NodeId.anchor :: (q.plug X).ids := hx.not_mem_erased hperm
  have hs' : x'.ref? z.id = some s := (hk.ref z.id).trans hs
  refine .bind (.free hx' hs' hz (.bind (.countDown (hx'.vacate hs' hz) (.bind ?_))))
  have hlen := congrArg List.length hrows
  simp only [List.length_append] at hlen
  have hle := q.length_le_size X
  rw [Shape.size] at hle
  refine (refill ((hx'.vacate hs' hz).count _) hrb (by omega)).mono fun _ x'' g' hq => ?_
  obtain ⟨⟨n', hset⟩, rfl⟩ := hq
  obtain ⟨t', ht', hrows'⟩ := hx.erased hperm hk hset
  have hallots : x.Allots { x'.vacate z.id with entries := x'.entries - 1 } := by
    refine .vacated z.id (by simp [hs]) ?_ ?_
    · simp only [Content.vacate, hk.slots]
    · simp only [Content.vacate, hk.vacant]
  exact h x'' t' ht' (hrows'.trans hrows) (hallots.keeps hset.keeps)

/-- Either the descent comes to a node that compares equal with `k`, or nothing changes. -/
theorem remove_cases {Q : Option V → Content K V → Grips → Prop} (hx : x.SettledTree t)
    (hfuel : t.size < fuel) (hR : ∀ old t', t.Removes cmp k old t'.rows → R t')
    (hfound : ∀ (p : Path K V) c l a r, t = p.plug (.node c l a r) → p.Leads cmp k →
      a.order cmp k = .eq → ∀ x' t', x'.SettledTree t' →
      t'.rows = p.before ++ (l.rows ++ r.rows) ++ p.after → x.Allots x' → Q a.value x' .free)
    (hmissing : ∀ p : Path K V, t = p.plug .nil → p.Leads cmp k → Q none x .free) :
    (Tree.remove cmp fuel k).Ensures cmp R x .free Q := by
  refine .descend hx.tidy hfuel fun y s n hsought => ?_
  cases hsought with
  | @found p c l r a ref ht hp ha href =>
    subst ht
    simp only [Row.order_node, ha, if_true]
    refine .erase hx href hfuel (fun t' hrows => hR a.value t' ?_) (hfound p c l a r rfl hp ha)
    rw [hrows]
    exact .present rfl hp ha
  | @missing p ref n ht hp href hn =>
    simp only [hn, Side.ordering_ne_eq, if_false]
    have hgrip : Request.grip (.only s .reserving) (.unreserve s : Request K V) = .free := by
      funext i
      simp only [Request.grip, Grips.only, Function.update_apply]
      split_ifs <;> rfl
    refine .bind (.request ⟨hx.tidy.sound.made _ _ href, ?_⟩ Request.yields_unreserve (.pure ?_))
    · simp [Grips.only]
    · exact hgrip ▸ hmissing p ht hp

theorem remove (hx : x.SettledTree t) (hfuel : t.size < fuel)
    (hR : ∀ old t', t.Removes cmp k old t'.rows → R t') :
    (Tree.remove cmp fuel k).Ensures cmp R x .free fun old x' g' =>
      g' = .free ∧ x.Allots x' ∧ ∃ t', x'.SettledTree t' ∧ t.Removes cmp k old t'.rows := by
  refine .remove_cases hx hfuel hR (fun p c l a r ht hp ha x' t' hx' hrows hallots => ?_)
    fun p ht hp => ⟨rfl, .none rfl rfl, t, hx, .absent ht hp⟩
  refine ⟨rfl, hallots, t', hx', ?_⟩
  rw [hrows]
  exact .present ht hp ha

end Program.Ensures

end LatchTree
