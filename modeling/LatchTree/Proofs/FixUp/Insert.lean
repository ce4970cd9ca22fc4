import LatchTree.Proofs.FixUp.Alter

/-!
After an insertion: from a tree in which one red node may have a red parent, the fix-up comes to a tree
that keeps the rules of colours, with the same rows.
-/

namespace LatchTree

variable {K V : Type} {cmp : K → K → Ordering} {r : Reserve K V} {p : Path K V} {d e : Side} {n m : Nat}

namespace Shape

variable {T u W X Y : Shape K V} {a b f : Row K V}

/-- With the parent and its sibling black, and the grandparent red, the rules hold below it. -/
theorem calm_recolor (hT : T.Calm) (hu : u.Calm) (hw : (join e .red W f X).Calm) :
    (join e .red (join d .black T a u) b (join e .black W f X)).Calm := by
  obtain ⟨-, hW, hX⟩ := calm_join.1 hw
  exact calm_join.2 ⟨by simp, calm_join.2 ⟨by simp, hT, hu⟩, calm_join.2 ⟨by simp, hW, hX⟩⟩

theorem even_recolor (hT : T.Even m) (hu : u.Even m) (hw : (join e .red W f X).Even m) :
    (join e .red (join d .black T a u) b (join e .black W f X)).Even (m + 1) := by
  obtain ⟨k, hW, hX, rfl⟩ := even_join.1 hw
  exact even_join.2 ⟨_, even_join.2 ⟨_, hT, hu, rfl⟩, even_join.2 ⟨_, hW, hX, rfl⟩, rfl⟩

/-- With the parent, now black, above the grandparent, now red, the rules hold below it. -/
theorem redBlack_raise (hX : X.RedBlack m) (hY : Y.RedBlack m) (hW : W.RedBlack m)
    (hu : u.RedBlack m) :
    (join e .black (join e .red X a Y) b (join e .red W f u)).RedBlack (m + 1) where
  root := color_join ..
  calm := calm_join.2 ⟨by simp, calm_join.2 ⟨fun _ => ⟨hX.root, hY.root⟩, hX.calm, hY.calm⟩,
    calm_join.2 ⟨fun _ => ⟨hW.root, hu.root⟩, hW.calm, hu.calm⟩⟩
  even := even_join.2 ⟨_, even_join.2 ⟨_, hX.even, hY.even, rfl⟩,
    even_join.2 ⟨_, hW.even, hu.even, rfl⟩, rfl⟩

end Shape

namespace Program.Works

/-- Afterwards the two red nodes are both on the side `e`, the lower one being the answer. -/
theorem straighten {Q : NodeId → Shape K V → Prop} {A B u : Shape K V} {z a : Row K V}
    (ht : (p.plug (.join d .red (.join e .red A z B) a u)).Distinct)
    (hA : A.RedBlack m) (hB : B.RedBlack m) (hu : u.RedBlack m)
    (h : ∀ X Y W lo hi, (p.plug (.join e .red (.join e .red X lo Y) hi W)).Distinct →
      X.RedBlack m → Y.RedBlack m → W.RedBlack m →
        Q lo.id (p.plug (.join e .red (.join e .red X lo Y) hi W))) :
    (Tree.straighten z.id a.id e).Works cmp r Q
      (p.plug (.join d .red (.join e .red A z B) a u)) := by
  have hne := ht.top_ne_top (Shape.join_ne_nil _ _ _ _ _)
  rw [Shape.top_join] at hne
  refine .bind (.child Shape.reaches_focus ?_)
  rcases eq_or_ne d e with rfl | hde
  · rw [Row.child_other_node, if_neg hne]
    exact .pure (h A B u z a ht hA hB hu)
  · obtain rfl : d = e.other := by cases d <;> cases e <;> simp_all [Side.other]
    simp only [Shape.join_other] at ht ⊢
    rw [Row.child_node, Shape.top_join, if_pos rfl]
    have hturn : (Edit.rotate a.id e).Turns cmp [p.parent, a.id, z.id, A.top]
        (p.plug (.join e .red u a (.join e .red A z B)))
        (p.plug (.join e .red (.join e .red u a A) z B)) :=
      Edit.rotate_turns (by simp) (by simp) (by simp) (by simp)
    exact .bind (.rotation (.bind (.alters ht hturn (Path.mem_rotation _ _ _ _ _ _ _ _ _)
      fun ht' => .pure (h u A B a z ht' hu hA hB))))

/-- The parent of the lower red node takes the place and the colour of its own parent. -/
theorem raiseParent {Q : Unit → Shape K V → Prop} {X Y W w : Shape K V} {lo hi b : Row K V}
    (ht : (p.plug (.join e .black (.join e .red (.join e .red X lo Y) hi W) b w)).Distinct)
    (h : (p.plug (.join e .black (.join e .red X lo Y) hi (.join e .red W b w))).Distinct →
      Q () (p.plug (.join e .black (.join e .red X lo Y) hi (.join e .red W b w)))) :
    (Tree.raiseParent lo.id b.id e).Works cmp r Q
      (p.plug (.join e .black (.join e .red (.join e .red X lo Y) hi W) b w)) := by
  have hlo := Shape.reaches_focus (r := r) (p := .under e .red hi W (.under e .black b w p)) (d := e)
    (c := .red) (X := X) (a := lo) (Y := Y)
  refine .bind (.looks hlo ?_)
  rw [Row.parent_node, Path.parent_under]
  have hturn : (do
      Edit.paint hi.id .black
      Edit.paint b.id .red
      Edit.rotate b.id e.other : Edit K V Unit).Turns cmp [p.parent, b.id, hi.id, W.top]
        (p.plug (.join e .black (.join e .red (.join e .red X lo Y) hi W) b w))
        (p.plug (.join e .black (.join e .red X lo Y) hi (.join e .red W b w))) := by
    refine (Edit.paint_turns (p := .under e .black b w p) .black (by simp)).seq
      ((Edit.paint_turns (p := p) .red (by simp)).seq ?_)
    have hrot : (Edit.rotate b.id e.other).Turns cmp [p.parent, b.id, hi.id, W.top]
        (p.plug (.join e.other .red w b (.join e.other .black W hi (.join e .red X lo Y))))
        (p.plug (.join e.other .black (.join e.other .red w b W) hi (.join e .red X lo Y))) :=
      Edit.rotate_turns (by simp) (by simp) (by simp) (by simp)
    simpa only [Shape.join_other] using hrot
  have hids := Path.mem_rotation p e.other .black .red w W (.join e .red X lo Y) b hi
  have hrotation : (Tree.rotation b.id e.other).Works cmp r
      (fun ids t' => ids = [p.parent, b.id, hi.id, W.top] ∧ t' = _) (p.plug (.join e.other .black w b
        (.join e.other .red W hi (.join e .red X lo Y)))) := .rotation ⟨rfl, rfl⟩
  simp only [Shape.join_other] at hids hrotation
  refine .bind (hrotation.mono ?_)
  rintro _ _ ⟨rfl, rfl⟩
  exact .alters ht hturn hids h

theorem recolor_turns (cmp : K → K → Ordering) {T u W X : Shape K V} {a b f : Row K V} :
    Edit.Turns cmp (do
      Edit.paint a.id .black
      Edit.paint f.id .black
      Edit.paint b.id .red) [a.id, f.id, b.id]
        (p.plug (.join e .black (.join d .red T a u) b (.join e .red W f X)))
        (p.plug (.join e .red (.join d .black T a u) b (.join e .black W f X))) := by
  exact (Edit.paint_turns (p := .under e .black b _ p) .black (by simp)).seq
    ((Edit.paint_sibling_turns (by simp)).seq (Edit.paint_turns (p := p) .red (by simp)))

theorem allowsRed {Q : Bool → Shape K V → Prop} {t : Shape K V} {i : NodeId} {b : Node K V}
    (hne : i ≠ .anchor) (hb : t.Reaches r i b) (h : Q (b.color = .black) t) :
    (Tree.allowsRed i).Works cmp r Q t := by
  rw [Tree.allowsRed, if_neg hne]
  exact .isBlack hb h

theorem blackenRoot_mends {t : Shape K V} (ht : t.Distinct) (hc : t.Calm) (he : t.Even n) :
    Tree.blackenRoot.Works cmp r (fun _ t' => t'.Mended n) t :=
  .blackenRoot ht (Shape.mended_blacken hc.blacken he)

/-- Under a black uncle, one or two rotations end it. -/
theorem turnParent_mends {T u w : Shape K V} {a b : Row K V}
    (ht : (p.plug (.join e .black (.join d .red T a u) b w)).Distinct) (hT : T.color = .red)
    (hcalm : T.Calm) (heven : T.Even m) (hu : u.RedBlack m) (hw : w.RedBlack m) (hp : p.Calm)
    (hpe : p.Even (m + 1) n) : (do
      let z ← Tree.straighten T.top a.id e
      Tree.raiseParent z b.id e
      Tree.blackenRoot : Program K V Unit).Works cmp r (fun _ t' => t'.Mended n)
        (p.plug (.join e .black (.join d .red T a u) b w)) := by
  obtain ⟨A, z, B, rfl⟩ := Shape.eq_join_of_red e hT
  obtain ⟨m, hA, hB, rfl⟩ := Shape.even_join.1 heven
  obtain ⟨hcol, hAc, hBc⟩ := Shape.calm_join.1 hcalm
  rw [Shape.top_join]
  refine .bind (.straighten (m := m) (p := .under e .black b w p) ht ⟨(hcol rfl).1, hAc, hA⟩
    ⟨(hcol rfl).2, hBc, hB⟩ hu fun X Y W lo hi ht' hX hY hW => ?_)
  refine .bind (.raiseParent (p := p) ht' fun ht'' => ?_)
  have hrb : (Shape.join e .black (.join e .red X lo Y) hi (.join e .red W b w)).RedBlack (m + 1) :=
    Shape.redBlack_raise hX hY hW hw
  exact blackenRoot_mends ht'' (Path.calm_plug.2 ⟨hp, hrb.calm, fun _ => hrb.root⟩)
    (Path.even_plug.2 ⟨_, hrb.even, hpe⟩)

/-- The node in focus is red, and may have a red parent. -/
theorem insertFixUp {fuel : Nat} {T : Shape K V} (ht : (p.plug T).Distinct) (hT : T.color = .red)
    (hcalm : T.Calm) (hp : p.Calm) (hroot : p.Rooted) (heven : (p.plug T).Even n)
    (hfuel : p.length < fuel) :
    (Tree.insertFixUp fuel T.top).Works cmp r (fun _ t' => t'.Mended n) (p.plug T) := by
  induction fuel generalizing p T n with
  | zero => exact absurd hfuel (Nat.not_lt_zero _)
  | succ fuel ih =>
    obtain ⟨z, hz, -, hpar⟩ := Shape.reaches_top (r := r) p T
    have hTne : T ≠ .nil := by
      rintro rfl
      exact absurd hT (by simp)
    refine .bind (.looks hz ?_)
    rw [hpar hTne]
    cases p with
    | top => exact .bind (.pure (blackenRoot_mends ht hcalm heven))
    | under d c a u q =>
      have hane : a.id ≠ .anchor := ht.ne_anchor (by simp)
      refine .bind (.allowsRed hane Shape.reaches_focus ?_)
      rw [Row.color_node]
      cases c with
      | black => exact blackenRoot_mends ht (Path.calm_plug.2 ⟨hp, hcalm, by simp⟩) heven
      | red =>
        -- a red parent is not the root, so it has a parent of its own, which is black
        obtain ⟨hu, hcol, hq⟩ := hp
        obtain ⟨hucol, hqcol⟩ := hcol rfl
        cases q with
        | top => exact absurd (hroot.1 rfl) (by simp)
        | under e c b w q =>
          obtain rfl : c = .black := hqcol
          obtain ⟨hw, -, hq⟩ := hq
          obtain ⟨m, hTe, hue, hwe, hqe⟩ := Path.even_plug.1 heven
          change w.Even m at hwe
          have hside : w.top ≠ a.id := by
            simpa using Shape.Distinct.top_ne_top (p := q) ht (Shape.join_ne_nil d .red T a u)
          have ha : ((Path.under d .red a u (.under e .black b w q)).plug T).Reaches r a.id _ :=
            Shape.reaches_focus (r := r) (p := .under e .black b w q)
          have hb : ((Path.under d .red a u (.under e .black b w q)).plug T).Reaches r b.id _ :=
            Shape.reaches_focus (r := r) (p := q)
          refine .bind (.looks ha ?_)
          rw [Row.parent_node, Path.parent_under]
          refine .bind (.looks hb ?_)
          rw [Shape.top_join, Path.parent_under]
          simp only [Node.sideOfChild_node b .black q.parent e hside, Row.child_other_node]
          obtain ⟨f, hf, hfcol⟩ := Shape.reaches_sibling (r := r) (p := q) (d := e) (c := .black)
            (X := .join d .red T a u) (a := b) (Y := w)
          refine .bind (.isRed hf ?_)
          rw [hfcol]
          cases hwcol : w.color with
          | red =>
            obtain ⟨W, f, X, rfl⟩ := Shape.eq_join_of_red e hwcol
            rw [Shape.top_join]
            have hturn := recolor_turns cmp (p := q) (d := d) (e := e) (T := T) (u := u)
              (W := W) (X := X) (a := a) (b := b) (f := f)
            refine .bind (.alters ht hturn (fun i hi _ => ?_) fun ht' => ?_)
            · simp only [List.mem_cons, List.not_mem_nil, or_false] at hi
              rcases hi with rfl | rfl | rfl <;> simp
            · have hlt : q.length < fuel := by
                simp only [Path.length] at hfuel
                omega
              have hrec := ih (p := q) (n := n) ht' (by simp) (Shape.calm_recolor hcalm hu hw) hq
                hroot.2.2 (Path.even_plug.2 ⟨_, Shape.even_recolor hTe hue hwe, hqe⟩) hlt
              rwa [Shape.top_join] at hrec
          | black => exact turnParent_mends ht hT hcalm hTe ⟨hucol, hu, hue⟩ ⟨hwcol, hw, hwe⟩ hq hqe

end Program.Works

namespace Program.Ensures

/-- The node in focus is red, and may have a red parent. -/
theorem insertFixUp {R : Shape K V → Prop} {x : Content K V} {fuel : Nat} {T : Shape K V}
    (hx : x.TidyTree (p.plug T)) (hT : T.color = .red) (hcalm : T.Calm) (hp : p.Calm)
    (hroot : p.Rooted) (heven : (p.plug T).Even n) (hfuel : p.length < fuel) :
    (Tree.insertFixUp fuel T.top).Ensures cmp R x .free fun _ x' g' =>
      x.Settles (p.plug T) n x' ∧ g' = .free :=
  (Works.insertFixUp hx.tree.distinct hT hcalm hp hroot heven hfuel).settles hx

end Program.Ensures

end LatchTree
