import LatchTree.Proofs.FixUp.Alter

/-!
After an erasure: from a tree in which the paths through one place lack one black node, the fix-up comes
to a tree that keeps the rules of colours, with the same rows.
-/

namespace LatchTree

variable {K V : Type} {cmp : K → K → Ordering} {r : Reserve K V} {p : Path K V} {d : Side} {c : Color}
  {t X W N F : Shape K V} {a e : Row K V} {n k : Nat}

/-- An edit that first looks at a node of the tree. -/
theorem Edit.Turns.get {f : Node K V → Edit K V Unit} {ids : List NodeId} {t t' : Shape K V}
    {id : NodeId} {b : Node K V} (hid : id ∈ ids) (hne : id ≠ .nil)
    (hb : ∀ r : Reserve K V, t.Reaches r id b) (hf : (f b).Turns cmp ids t t') :
    Edit.Turns cmp (do f (← Edit.get id)) ids t t' where
  reshapes := hf.reshapes
  rows := hf.rows
  makes := fun r h ht => .bind (.get hid hne (hb r h ht) (hf.makes r h ht))

/-- With the sibling in the place of its parent, and its far child black, no path lacks a node. -/
theorem Path.redBlack_raise (hroot : (Path.under d c a W p).Rooted) (hp : p.Calm)
    (hcol : c = .red → p.color = .black) (hpe : p.Even (k + 1 + c.weight) (n + 1)) (hX : X.Calm)
    (hXe : X.Even k) (hN : N.Calm) (hNe : N.Even k) (hF : F.Calm) (hFe : F.Even k)
    (hFcol : F.color = .red) :
    (p.plug (.join d c (.join d .black X a N) e F.blacken)).RedBlack (n + 1) := by
  have hFb := hFe.blacken
  rw [if_pos hFcol] at hFb
  refine ⟨?_, Path.calm_plug.2 ⟨hp, ?_, fun hc => ?_⟩, Path.even_plug.2 ⟨_, ?_, hpe⟩⟩
  · exact Path.color_plug hroot.2 fun h => (Shape.color_join ..).trans (hroot.1 h)
  · exact Shape.calm_join.2 ⟨fun _ => ⟨Shape.color_join .., Shape.color_blacken F⟩,
      Shape.calm_join.2 ⟨by simp, hX, hN⟩, hF.blacken⟩
  · rw [Shape.color_join]
    cases hc' : c with
    | black => rfl
    | red => exact absurd (hcol hc') (by simp [hc])
  · exact Shape.even_join.2 ⟨_, Shape.even_join.2 ⟨k, hXe, hNe, rfl⟩, hFb, rfl⟩

/-- A red node in the place that lacks a black one makes up for it by turning black. -/
theorem Path.mended_blacken (hroot : p.Rooted) (hp : p.Calm) (hpe : p.Even (k + 1) (n + 1))
    (hX : X.blacken.Calm) (hXe : X.Even k) (hred : X.color = .red) :
    (p.plug X.blacken).Mended n := by
  have hbe := hXe.blacken
  rw [if_pos hred] at hbe
  refine ⟨n + 1, ⟨?_, ?_, ?_⟩, .inr rfl⟩
  · exact Path.color_plug hroot fun _ => Shape.color_blacken X
  · exact Path.calm_plug.2 ⟨hp, hX, fun _ => Shape.color_blacken X⟩
  · exact Path.even_plug.2 ⟨k + 1, hbe, hpe⟩

namespace Shape

/-- With the sibling red, the paths on both sides of the parent lack one black node. -/
theorem calm_dim (hX : X.Calm) (hN : N.Calm) (hF : F.Calm)
    (hNF : N.color = .black ∧ F.color = .black) :
    (join d c X a (join d .red N e F)).blacken.Calm := by
  rw [blacken_join]
  exact calm_join.2 ⟨by simp, hX, calm_join.2 ⟨fun _ => hNF, hN, hF⟩⟩

theorem even_dim (hX : X.Even k) (hN : N.Even k) (hF : F.Even k) :
    (join d c X a (join d .red N e F)).Even (k + c.weight) :=
  even_join.2 ⟨k, hX, even_join.2 ⟨k, hN, hF, rfl⟩, rfl⟩

end Shape

namespace Program.Works

theorem blacken {Q : Unit → Shape K V → Prop} (ht : (p.plug X).Distinct)
    (h : Q () (p.plug X.blacken)) : (Tree.blacken X.top).Works cmp r Q (p.plug X) := by
  unfold Tree.blacken
  split_ifs with hnil
  · obtain rfl : X = .nil := by
      by_contra hne
      exact ht.ne_nil (Path.mem_ids_plug .. |>.2 (.inl (Shape.top_mem_ids hne))) hnil
    exact .pure h
  · obtain ⟨m, hm, hcol, -⟩ := Shape.reaches_top (r := r) p X
    refine .bind (.isRed hm ?_)
    rw [hcol]
    cases hc : X.color with
    | black =>
      rw [Shape.blacken_of_black hc] at h
      exact .pure h
    | red =>
      obtain ⟨A, b, B, rfl⟩ := Shape.eq_join_of_red .left hc
      refine .alters ht (Edit.paint_turns .black (by simp)) (fun i hi _ => ?_) fun _ => h
      simp [List.mem_singleton.1 hi]

/-- Afterwards the sibling is black; the place is one level deeper if it was not. -/
theorem blackSibling {Q : NodeId → Shape K V → Prop} (ht : ((Path.under d c a W p).plug X).Distinct)
    (hcalm : (Path.under d c a W p).Calm) (heven : (Path.under d c a W p).Even (k + 1) n)
    (hroot : (Path.under d c a W p).Rooted)
    (h : ∀ c' W' p', ((Path.under d c' a W' p').plug X).Distinct →
      (Path.under d c' a W' p').Calm → (Path.under d c' a W' p').Even (k + 1) n →
      (Path.under d c' a W' p').Rooted → W'.color = .black → (c' = .black → p'.length ≤ p.length) →
      Q W'.top ((Path.under d c' a W' p').plug X)) :
    (Tree.blackSibling a.id W.top d).Works cmp r Q ((Path.under d c a W p).plug X) := by
  obtain ⟨m, hm, hcol⟩ := Shape.reaches_sibling (r := r) (p := p) (d := d) (c := c) (X := X) (a := a) (Y := W)
  refine .bind (.isRed hm ?_)
  rw [hcol]
  cases hW : W.color with
  | black => exact .pure (h c W p ht hcalm heven hroot hW fun _ => le_rfl)
  | red =>
    obtain ⟨N, e, F, rfl⟩ := Shape.eq_join_of_red d hW
    obtain ⟨hWc, hcol, hp⟩ := hcalm
    obtain rfl : c = .black := by
      cases c with
      | black => rfl
      | red => exact absurd (hcol rfl).1 (by simp)
    obtain ⟨hNF, hN, hF⟩ := Shape.calm_join.1 hWc
    obtain ⟨hWe, hpe⟩ := heven
    obtain ⟨_, hNe, hFe, rfl⟩ := Shape.even_join.1 hWe
    have hturn : (do
        Edit.paint e.id .black
        Edit.paint a.id .red
        Edit.rotate a.id d : Edit K V Unit).Turns cmp [p.parent, a.id, e.id, N.top]
          (p.plug (.join d .black X a (.join d .red N e F)))
          (p.plug (.join d .black (.join d .red X a N) e F)) :=
      (Edit.paint_sibling_turns (by simp)).seq ((Edit.paint_turns .red (by simp)).seq
        (Edit.rotate_turns (by simp) (by simp) (by simp) (by simp)))
    rw [Shape.top_join]
    refine .bind (.rotation (.bind (.alters ht hturn (Path.mem_rotation _ _ _ _ _ _ _ _ _)
      fun ht' => ?_)))
    have ha := Shape.reaches_focus (r := r) (p := .under d .black e F p) (d := d) (c := .red) (X := X) (a := a)
      (Y := N)
    refine .child ha ?_
    rw [Row.child_other_node]
    refine h .red N (.under d .black e F p) ht' ?_ ?_ ?_ (hNF rfl).1 (by simp)
    · exact ⟨hN, fun _ => ⟨(hNF rfl).1, rfl⟩, hF, by simp, hp⟩
    · exact ⟨hNe, hFe, hpe⟩
    · exact ⟨by simp, fun _ => rfl, hroot.2⟩

/-- Afterwards the far child of the sibling is red. -/
theorem redFarChild {Q : NodeId → Shape K V → Prop}
    (ht : (p.plug (.join d c X a (.join d .black N e F))).Distinct) (hN : N.Calm) (hF : F.Calm)
    (hNe : N.Even k) (hFe : F.Even k) (hred : ¬(N.color = .black ∧ F.color = .black))
    (h : ∀ N' e' F', (p.plug (.join d c X a (.join d .black N' e' F'))).Distinct →
      N'.Calm → F'.Calm → N'.Even k → F'.Even k → F'.color = .red →
      Q e'.id (p.plug (.join d c X a (.join d .black N' e' F')))) :
    (Tree.redFarChild a.id e.id N.top F.top d).Works cmp r Q
      (p.plug (.join d c X a (.join d .black N e F))) := by
  obtain ⟨m, hm, hcol⟩ := Shape.reaches_sibling (r := r) (p := .under d.other c a X p) (d := d) (c := .black)
    (X := N) (a := e) (Y := F)
  rw [Path.plug_other] at hm
  refine .bind (.isBlack hm ?_)
  rw [hcol]
  cases hFcol : F.color with
  | red => exact .pure (h N e F ht hN hF hNe hFe hFcol)
  | black =>
    have hNcol : N.color = .red := by
      cases hc : N.color with
      | red => rfl
      | black => exact absurd ⟨hc, hFcol⟩ hred
    obtain ⟨N₁, b, N₂, rfl⟩ := Shape.eq_join_of_red d hNcol
    obtain ⟨hNN, hN₁, hN₂⟩ := Shape.calm_join.1 hN
    obtain ⟨k, hN₁e, hN₂e, rfl⟩ := Shape.even_join.1 hNe
    have hturn : (do
        Edit.paint b.id .black
        Edit.paint e.id .red
        Edit.rotate e.id d.other : Edit K V Unit).Turns cmp [a.id, e.id, b.id, N₂.top]
          (p.plug (.join d c X a (.join d .black (.join d .red N₁ b N₂) e F)))
          (p.plug (.join d c X a (.join d .black N₁ b (.join d .red N₂ e F)))) := by
      have hrot : (Edit.rotate e.id d.other).Turns cmp [a.id, e.id, b.id, N₂.top]
          ((Path.under d.other c a X p).plug
            (.join d.other .red F e (.join d.other .black N₂ b N₁)))
          ((Path.under d.other c a X p).plug
            (.join d.other .black (.join d.other .red F e N₂) b N₁)) :=
        Edit.rotate_turns (by simp) (by simp) (by simp) (by simp)
      have he : (Edit.paint e.id .red).Turns cmp [a.id, e.id, b.id, N₂.top]
          (p.plug (.join d c X a (.join d .black (.join d .black N₁ b N₂) e F)))
          (p.plug (.join d c X a (.join d .red (.join d .black N₁ b N₂) e F))) :=
        Edit.paint_sibling_turns (by simp)
      have hb : (Edit.paint b.id .black).Turns cmp [a.id, e.id, b.id, N₂.top]
          ((Path.under d .black e F (.under d.other c a X p)).plug (.join d .red N₁ b N₂))
          ((Path.under d .black e F (.under d.other c a X p)).plug (.join d .black N₁ b N₂)) :=
        Edit.paint_turns .black (by simp)
      simp only [Path.plug_under, Shape.join_other] at hrot hb
      exact hb.seq (he.seq hrot)
    have hids := Path.mem_rotation (.under d.other c a X p) d.other .black .red F N₂ N₁ e b
    have hrotation : (Tree.rotation e.id d.other).Works cmp r
        (fun ids t' => ids = [a.id, e.id, b.id, N₂.top] ∧ t' = _)
        ((Path.under d.other c a X p).plug
          (.join d.other .black F e (.join d.other .red N₂ b N₁))) := .rotation ⟨rfl, rfl⟩
    simp only [Path.plug_under, Shape.join_other, Path.parent_under] at hids hrotation
    rw [Shape.top_join]
    refine .bind (hrotation.mono ?_)
    rintro _ _ ⟨rfl, rfl⟩
    refine .bind (.alters ht hturn hids fun ht' => .child Shape.reaches_focus ?_)
    rw [Row.child_other_node, Shape.top_join]
    refine h N₁ b (.join d .red N₂ e F) ht' hN₁ ?_ hN₁e ?_ (by simp)
    · exact Shape.calm_join.2 ⟨fun _ => ⟨(hNN rfl).2, hFcol⟩, hN₂, hF⟩
    · exact Shape.even_join.2 ⟨_, hN₂e, hFe, rfl⟩

/-- The sibling takes the place and the colour of the parent. -/
theorem raiseSibling {Q : Unit → Shape K V → Prop}
    (ht : (p.plug (.join d c X a (.join d .black N e F))).Distinct) (hF : F.color = .red)
    (h : (p.plug (.join d c (.join d .black X a N) e F.blacken)).Distinct →
      Q () (p.plug (.join d c (.join d .black X a N) e F.blacken))) :
    (Tree.raiseSibling a.id e.id d).Works cmp r Q
      (p.plug (.join d c X a (.join d .black N e F))) := by
  have he := Shape.reaches_focus (r := r) (p := .under d.other c a X p) (d := d) (c := .black) (X := N) (a := e)
    (Y := F)
  rw [Path.plug_other] at he
  refine .bind (.child he (.bind (.rotation ?_)))
  obtain ⟨F₁, f, F₂, rfl⟩ := Shape.eq_join_of_red d hF
  rw [Shape.blacken_join] at h
  rw [Row.child_other_node, Shape.top_join]
  have hturn : Edit.Turns cmp (do
      let color := (← Edit.get a.id).color
      Edit.paint e.id color
      Edit.paint a.id .black
      Edit.paint f.id .black
      Edit.rotate a.id d) ([p.parent, a.id, e.id, N.top] ++ [f.id])
        (p.plug (.join d c X a (.join d .black N e (.join d .red F₁ f F₂))))
        (p.plug (.join d c (.join d .black X a N) e (.join d .black F₁ f F₂))) := by
    refine .get (b := a.node c p.parent d X.top e.id) (by simp) (ht.ne_nil (by simp))
      (fun _ _ ht => (Shape.top_join d .black N e _) ▸ ht.focus) ?_
    rw [Row.color_node]
    have hf : (Edit.paint f.id .black).Turns cmp ([p.parent, a.id, e.id, N.top] ++ [f.id])
        ((Path.under d.other c e N (.under d.other .black a X p)).plug (.join d .red F₁ f F₂))
        ((Path.under d.other c e N (.under d.other .black a X p)).plug (.join d .black F₁ f F₂)) :=
      Edit.paint_turns .black (by simp)
    simp only [Path.plug_under, Shape.join_other] at hf
    exact (Edit.paint_sibling_turns (by simp)).seq ((Edit.paint_turns .black (by simp)).seq
      (hf.seq (Edit.rotate_turns (by simp) (by simp) (by simp) (by simp))))
  refine .alters ht hturn (fun i hi hne => ?_) h
  rcases List.mem_append.1 hi with hi | hi
  · exact Path.mem_rotation p d c .black X N (.join d .red F₁ f F₂) a e i hi hne
  · simp [List.mem_singleton.1 hi]

theorem isLacking {Q : Bool → Shape K V → Prop} {i q : NodeId} {b : Node K V} (hq : q ≠ .anchor)
    (hb : t.Reaches r i b) (h : Q (b.color = .black) t) : (Tree.isLacking i q).Works cmp r Q t := by
  rw [Tree.isLacking, if_neg hq]
  exact .isBlack hb h

theorem areBlack {Q : Bool → Shape K V → Prop} {i j : NodeId} {b b' : Node K V} (hb : t.Reaches r i b)
    (hb' : t.Reaches r j b') (h : Q (b.color = .black ∧ b'.color = .black) t) :
    (Program.areBlack i j).Works cmp r Q t := by
  refine .bind (.isBlack hb ?_)
  cases hc : b.color with
  | black =>
    refine .isBlack hb' ?_
    simpa [hc] using h
  | red => exact .pure (by simpa [hc] using h)

/-- With a red child of the black sibling, one or two rotations end it. -/
theorem turnSibling_mends (ht : (p.plug (.join d c X a (.join d .black N e F))).Distinct)
    (hroot : (Path.under d c a (.join d .black N e F) p).Rooted) (hp : p.Calm)
    (hcol : c = .red → p.color = .black) (hpe : p.Even (k + 1 + c.weight) (n + 1)) (hX : X.Calm)
    (hXe : X.Even k) (hN : N.Calm) (hNe : N.Even k) (hF : F.Calm) (hFe : F.Even k)
    (hred : ¬(N.color = .black ∧ F.color = .black)) : (do
      let w ← Tree.redFarChild a.id e.id N.top F.top d
      Tree.raiseSibling a.id w d
      Tree.blacken (← Tree.root) : Program K V Unit).Works cmp r (fun _ t' => t'.Mended n)
        (p.plug (.join d c X a (.join d .black N e F))) := by
  refine .bind (.redFarChild ht hN hF hNe hFe hred fun N' e' F' ht' hN' hF' hNe' hFe' hFcol => ?_)
  refine .bind (.raiseSibling ht' hFcol fun ht'' => ?_)
  refine .bind (.root (.blacken (p := .top) ht'' ?_))
  have hrb : (p.plug (.join d c (.join d .black X a N') e' F'.blacken)).RedBlack (n + 1) :=
    Path.redBlack_raise hroot hp hcol hpe hX hXe hN' hNe' hF' hFe' hFcol
  rw [Path.plug_top, Shape.blacken_of_black hrb.root]
  exact ⟨n + 1, hrb, .inr rfl⟩

/-- The paths through the place in focus lack one black node. What is there may be red, and its parent
too. -/
theorem deleteFixUp {fuel : Nat} (ht : (p.plug X).Distinct) (hX : X.blacken.Calm) (hXe : X.Even k)
    (hp : p.Calm) (hpe : p.Even (k + 1) (n + 1)) (hroot : p.Rooted) (hpos : 0 < fuel)
    (hfuel : X.color = .black → p.length < fuel) :
    (Tree.deleteFixUp fuel X.top p.parent).Works cmp r (fun _ t' => t'.Mended n) (p.plug X) := by
  induction fuel generalizing p X k with
  | zero => exact absurd hpos (Nat.lt_irrefl 0)
  | succ fuel ih =>
    cases p with
    | top =>
      obtain rfl : k = n := Nat.succ.inj hpe
      exact .bind (.pure (.blacken (p := .top) ht (Shape.mended_blacken hX hXe)))
    | under d c a W p =>
      have hane : a.id ≠ .anchor := ht.ne_anchor (by simp)
      obtain ⟨b, hb, hbcol, -⟩ := Shape.reaches_top (r := r) (.under d c a W p) X
      refine .bind (.isLacking hane hb ?_)
      rw [hbcol]
      cases hXcol : X.color with
      | red =>
        exact .blacken ht (Path.mended_blacken hroot hp hpe hX hXe hXcol)
      | black =>
        have hWne : W ≠ .nil := hpe.1.ne_nil
        have hside : W.top ≠ X.top :=
          (Shape.Distinct.top_ne_top (p := p) (d := d.other) (c := c) (a := a) (by simpa using ht)
            hWne).symm
        have ha := Shape.reaches_focus (r := r) (p := p) (d := d) (c := c) (X := X) (a := a) (Y := W)
        refine .bind (.looks ha ?_)
        simp only [Node.sideOfChild_node a c p.parent d hside]
        refine .bind (.child ha ?_)
        rw [Row.child_other_node, if_neg (ht.ne_nil (by simp [Shape.top_mem_ids hWne]))]
        refine .bind (.blackSibling ht hp hpe hroot fun c' W' p' ht₁ hp₁ hpe₁ hroot₁ hW' hlen => ?_)
        obtain ⟨N, e, F, rfl⟩ := Shape.eq_join_of_black d hpe₁.1.ne_nil hW'
        have he := Shape.reaches_focus (r := r) (p := .under d.other c' a X p') (d := d) (c := .black) (X := N)
          (a := e) (Y := F)
        obtain ⟨bN, hbN, hbNcol, -⟩ :=
          Shape.reaches_top (r := r) (.under d .black e F (.under d.other c' a X p')) N
        obtain ⟨bF, hbF, hbFcol⟩ := Shape.reaches_sibling (r := r) (p := .under d.other c' a X p') (d := d)
          (c := .black) (X := N) (a := e) (Y := F)
        rw [Path.plug_under] at hbN
        rw [Path.plug_other] at he hbN hbF
        rw [Shape.top_join]
        refine .bind (.child he (.bind (.child he ?_)))
        rw [Row.child_node, Row.child_other_node]
        refine .bind (.areBlack hbN hbF ?_)
        rw [hbNcol, hbFcol]
        obtain ⟨hWc, hcol, hp'⟩ := hp₁
        obtain ⟨-, hN, hF⟩ := Shape.calm_join.1 hWc
        obtain ⟨hWe, hpe'⟩ := hpe₁
        obtain ⟨m, hNe, hFe, hm⟩ := Shape.even_join.1 hWe
        obtain rfl : k = m := Nat.succ.inj hm
        rw [Shape.blacken_of_black hXcol] at hX
        by_cases hNF : N.color = .black ∧ F.color = .black
        · rw [decide_eq_true hNF, if_pos rfl]
          have hturn : (Edit.paint e.id .red).Turns cmp [e.id]
              (p'.plug (.join d c' X a (.join d .black N e F)))
              (p'.plug (.join d c' X a (.join d .red N e F))) := Edit.paint_sibling_turns (by simp)
          refine .bind (.alters ht₁ hturn (fun i hi _ => ?_) fun ht₂ => ?_)
          · simp [List.mem_singleton.1 hi]
          refine .bind (.looks Shape.reaches_focus ?_)
          rw [Row.parent_node]
          have hlt := hfuel hXcol
          simp only [Path.length] at hlt
          have hrec := ih (p := p') (X := .join d c' X a (.join d .red N e F))
            (k := k + c'.weight) ht₂ (Shape.calm_dim hX hN hF hNF) (Shape.even_dim hXe hNe hFe)
            hp' (Nat.add_right_comm k 1 _ ▸ hpe') hroot₁.2 (by omega) fun hc => ?_
          · rwa [Shape.top_join] at hrec
          · have hle := hlen ((Shape.color_join ..).symm.trans hc)
            omega
        · rw [decide_eq_false hNF, if_neg (by simp)]
          exact turnSibling_mends ht₁ hroot₁ hp' (fun hc => (hcol hc).2) hpe' hX hXe hN hNe hF hFe hNF

end Program.Works

namespace Program.Ensures

/-- The paths through the place in focus lack one black node. What is there may be red, and its parent
too. -/
theorem deleteFixUp {R : Shape K V → Prop} {x : Content K V} {fuel : Nat}
    (hx : x.TidyTree (p.plug X)) (hX : X.blacken.Calm) (hXe : X.Even k) (hp : p.Calm)
    (hpe : p.Even (k + 1) (n + 1)) (hroot : p.Rooted) (hpos : 0 < fuel)
    (hfuel : X.color = .black → p.length < fuel) :
    (Tree.deleteFixUp fuel X.top p.parent).Ensures cmp R x .free fun _ x' g' =>
      x.Settles (p.plug X) n x' ∧ g' = .free :=
  (Works.deleteFixUp hx.tree.distinct hX hXe hp hpe hroot hpos hfuel).settles hx

end Program.Ensures

end LatchTree
