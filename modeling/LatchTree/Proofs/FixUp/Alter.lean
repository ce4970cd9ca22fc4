import LatchTree.Proofs.FixUp.Works

/-!
The small steps of the fix-ups: looks at a node in focus, edits under one lock set, and the last step
of an insertion.
-/

namespace LatchTree

variable {K V : Type} {cmp : K → K → Ordering} {r : Reserve K V} {x x' : Content K V} {t t' : Shape K V}
  {p : Path K V} {d : Side} {c : Color} {X Y : Shape K V} {a : Row K V}

theorem Path.plug_other (p : Path K V) (d : Side) (c : Color) (X : Shape K V) (a : Row K V)
    (Y : Shape K V) : (Path.under d.other c a X p).plug Y = p.plug (.join d c X a Y) := by
  rw [plug_under, Shape.join_other]

/-- The nodes of a rotation are in the tree. -/
theorem Path.mem_rotation (p : Path K V) (d : Side) (cx cy : Color) (A B O : Shape K V)
    (u v : Row K V) : ∀ i ∈ [p.parent, u.id, v.id, B.top], i ≠ .nil →
      i ∈ NodeId.anchor :: (p.plug (.join d cx A u (.join d cy B v O))).ids := by
  intro i hi hne
  have hp := p.parent_mem
  have hB := B.top_mem
  simp only [List.mem_cons, List.not_mem_nil, or_false] at hi hp hB
  simp only [List.mem_cons, Path.mem_ids_plug, Shape.mem_ids_join]
  rcases hi with rfl | rfl | rfl | rfl <;> tauto

/-- The child in focus is told from its sibling. -/
theorem Node.sideOfChild_node (a : Row K V) (c : Color) (q : NodeId) (d : Side) {i j : NodeId}
    (h : j ≠ i) : (a.node c q d i j).sideOfChild i = d := by
  cases d with
  | left => exact if_pos rfl
  | right => exact if_neg h

/-- Colours the child away from the side in focus. -/
theorem Edit.paint_sibling_turns {e : Side} {c' c'' : Color} {N F : Shape K V} {b : Row K V}
    {ids : List NodeId} (hb : b.id ∈ ids) : (paint b.id c'').Turns cmp ids
      (p.plug (.join d c X a (.join e c' N b F))) (p.plug (.join d c X a (.join e c'' N b F))) := by
  have h : (paint b.id c'').Turns cmp ids _ _ :=
    paint_turns (p := .under d.other c a X p) (d := e) (c := c') (x := N) (y := F) c'' hb
  rw [Path.plug_other, Path.plug_other] at h
  exact h

namespace Content

/-- A fix-up leads from `x` with the tree `t` to `x'`: the rows stay, the colours keep the rules, and
the black height is `n` or one more. -/
def Settles (x : Content K V) (t : Shape K V) (n : Nat) (x' : Content K V) : Prop :=
  ∃ t' n', x'.TidyTree t' ∧ x.Keeps x' ∧ t'.rows = t.rows ∧ t'.RedBlack n' ∧ (n' = n ∨ n' = n + 1)

theorem TidyTree.focus (hx : x.TidyTree (p.plug (.join d c X a Y))) :
    x.heap a.id = some (a.node c p.parent d X.top Y.top) :=
  hx.tree.focus

theorem TidyTree.node_focus (hx : x.TidyTree (p.plug (.join d c X a Y))) {r : Ref}
    (hr : x.ref? a.id = some r) : x.node r = a.node c p.parent d X.top Y.top :=
  Option.some.inj ((heap_of_ref hr).symm.trans hx.focus)

end Content

namespace Shape

theorem reaches_anchor (t : Shape K V) :
    t.Reaches r .anchor { r.anchor with left := t.top } :=
  fun _ hb => hb.anchor

theorem reaches_focus :
    (p.plug (.join d c X a Y)).Reaches r a.id (a.node c p.parent d X.top Y.top) :=
  fun _ hb => hb.focus

/-- What is at the top of the part in focus, which may be empty. -/
theorem reaches_top (p : Path K V) (X : Shape K V) :
    ∃ n, (p.plug X).Reaches r X.top n ∧ n.color = X.color ∧ (X ≠ .nil → n.parent = p.parent) := by
  cases X with
  | nil => exact ⟨_, fun _ hb => hb.sentinel, r.black, fun h => absurd rfl h⟩
  | node c X a Y => exact ⟨_, reaches_focus (d := .left), rfl, fun _ => rfl⟩

/-- What is at the top of the part away from the one in focus. -/
theorem reaches_sibling : ∃ n, (p.plug (.join d c X a Y)).Reaches r Y.top n ∧
    n.color = Y.color := by
  obtain ⟨n, hn, hcol, -⟩ := reaches_top (r := r) (.under d.other c a X p) Y
  rw [Path.plug_other] at hn
  exact ⟨n, hn, hcol⟩

/-- Two children of a node have different ids, unless there are none. -/
theorem Distinct.top_ne_top (ht : (p.plug (.join d c X a Y)).Distinct) (hX : X ≠ .nil) :
    Y.top ≠ X.top := by
  have hnil : X.top ≠ .nil := ht.ne_nil (by simp [top_mem_ids hX])
  have hd := (List.nodup_cons.1 (List.nodup_cons.1 ht).2).2
  rw [Path.nodup_plug, nodup_join] at hd
  have hY := Y.top_mem
  rw [List.mem_cons] at hY
  rintro he
  rcases hY with hY | hY
  · exact hnil (he.symm.trans hY)
  · exact hd.1.2.2.2.2 _ (top_mem_ids hX) (he ▸ hY)

/-- The colours keep the rules, with a black height of `n` or one more. -/
def Mended (t : Shape K V) (n : Nat) : Prop :=
  ∃ n', t.RedBlack n' ∧ (n' = n ∨ n' = n + 1)

theorem mended_blacken {n : Nat} (hc : t.blacken.Calm) (he : t.Even n) : t.blacken.Mended n := by
  obtain ⟨n', hn, hrb⟩ := redBlack_blacken hc he
  exact ⟨n', hrb, hn⟩

end Shape

namespace Program.Works

theorem child {Q : NodeId → Shape K V → Prop} {i : NodeId} {n : Node K V} {e : Side}
    (hn : t.Reaches r i n) (h : Q (n.child e) t) : (Program.child i e).Works cmp r Q t :=
  .bind (.looks hn (.pure h))

theorem isRed {Q : Bool → Shape K V → Prop} {i : NodeId} {n : Node K V} (hn : t.Reaches r i n)
    (h : Q (n.color = .red) t) : (Program.isRed i).Works cmp r Q t :=
  .bind (.looks hn (.pure h))

theorem isBlack {Q : Bool → Shape K V → Prop} {i : NodeId} {n : Node K V} (hn : t.Reaches r i n)
    (h : Q (n.color = .black) t) : (Program.isBlack i).Works cmp r Q t :=
  .bind (.looks hn (.pure h))

theorem root {Q : NodeId → Shape K V → Prop} (h : Q t.top t) : Tree.root.Works cmp r Q t :=
  .child t.reaches_anchor h

theorem rotation {Q : List NodeId → Shape K V → Prop} {cx cy : Color} {A B O : Shape K V}
    {u v : Row K V}
    (h : Q [p.parent, u.id, v.id, B.top] (p.plug (.join d cx A u (.join d cy B v O)))) :
    (Tree.rotation u.id d).Works cmp r Q (p.plug (.join d cx A u (.join d cy B v O))) := by
  refine .bind (.looks Shape.reaches_focus ?_)
  rw [Row.child_other_node, Row.parent_node, Shape.top_join]
  have hv := Shape.reaches_focus (r := r) (p := .under d.other cx u A p) (d := d) (c := cy) (X := B) (a := v)
    (Y := O)
  rw [Path.plug_other] at hv
  refine .bind (.child hv (.pure ?_))
  rwa [Row.child_node]

theorem blackenRoot {Q : Unit → Shape K V → Prop} (ht : t.Distinct) (h : Q () t.blacken) :
    Tree.blackenRoot.Works cmp r Q t := by
  refine .bind (.root ?_)
  obtain ⟨n, hn, hcol, -⟩ := Shape.reaches_top (r := r) .top t
  refine .bind (.isRed hn ?_)
  rw [hcol]
  cases hc : t.color with
  | black =>
    rw [Shape.blacken_of_black hc] at h
    exact .pure h
  | red =>
    obtain ⟨X, a, Y, rfl⟩ := Shape.eq_join_of_red .left hc
    refine .alters ht (Edit.paint_turns (p := .top) .black (by simp)) (fun i hi _ => ?_) fun _ => h
    simp [List.mem_singleton.1 hi]

/-- A fix-up next to lookups that go on. -/
theorem settles {R : Shape K V → Prop} {P : Program K V Unit} {n : Nat}
    (h : P.Works cmp .fresh (fun _ t' => t'.Mended n) t) (hx : x.TidyTree t) :
    P.Ensures cmp R x .free fun _ x' g' => x.Settles t n x' ∧ g' = .free := by
  refine (h.ensures hx).mono ?_
  rintro _ x' g' ⟨hg, t', hx', hk, hrows, n', hrb, hn⟩
  exact ⟨⟨t', n', hx', hk, hrows, hrb, hn⟩, hg⟩

end Program.Works

theorem Program.Ensures.root {R : Shape K V → Prop} {g : Grips} {Q : NodeId → Content K V → Grips → Prop}
    (hx : x.TidyTree t) (hg : g.Calm) (h : Q t.top x g) : Tree.root.Ensures cmp R x g Q :=
  .child hx.sound hg hx.tree.anchor h

end LatchTree
