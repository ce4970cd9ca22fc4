import LatchTree.Proofs.RedBlack
import LatchTree.Proofs.Sections

/-!
Work on a tree, as its shape shows it: a program that only looks at nodes of the tree and turns their
links and colours under lock sets. What it does to the shape is proved first; that it does so in a
store is derived once for all such programs.
-/

namespace LatchTree

variable {K V α β : Type} {cmp : K → K → Ordering} {r : Reserve K V} {t t' : Shape K V} {i : NodeId}

/-- In every heap whose links unfold to the shape on the reserve `r`, `i` reaches `n`. -/
def Shape.Reaches (r : Reserve K V) (t : Shape K V) (i : NodeId) (n : Node K V) : Prop :=
  ∀ h : Heap K V, h.ReserveTree r t → h i = some n

namespace Content

variable {x x' : Content K V}

theorem Keeps.refl (x : Content K V) : x.Keeps x := ⟨rfl, rfl, rfl, rfl⟩

theorem Keeps.trans {x'' : Content K V} (h : x.Keeps x') (h' : x'.Keeps x'') : x.Keeps x'' :=
  ⟨h'.slots.trans h.slots, h'.vacant.trans h.vacant, h'.made.trans h.made,
    h'.entries.trans h.entries⟩

end Content

namespace Program

/-- From the shape `t` on the reserve `r` the program comes to its end with `Q`. -/
inductive Works (cmp : K → K → Ordering) (r : Reserve K V) (Q : α → Shape K V → Prop) :
    Program K V α → Shape K V → Prop
  | done {a : α} {t : Shape K V} (h : Q a t) : Works cmp r Q (.done a) t
  | look {t : Shape K V} {i : NodeId} {n : Node K V} {f : Node K V → Program K V α}
      (hn : t.Reaches r i n) (h : Works cmp r Q (f n) t) : Works cmp r Q (Program.look i >>= f) t
  | alter {t t' : Shape K V} {ids : List NodeId} {e : Edit K V Unit} {f : Unit → Program K V α}
      (he : e.Turns cmp ids t t') (hids : ∀ i ∈ ids, i ≠ .nil → i ∈ NodeId.anchor :: t.ids)
      (h : Works cmp r Q (f ()) t') : Works cmp r Q (Tree.alter ids e >>= f) t

namespace Works

variable {Q : α → Shape K V → Prop}

/-! ## Rules -/

theorem pure {a : α} (h : Q a t) : (Pure.pure a : Program K V α).Works cmp r Q t :=
  .done h

theorem mono {Q' : α → Shape K V → Prop} {p : Program K V α} (h : p.Works cmp r Q t)
    (hQ : ∀ a t', Q a t' → Q' a t') : p.Works cmp r Q' t := by
  induction h with
  | done h => exact .done (hQ _ _ h)
  | look hn _ ih => exact .look hn ih
  | alter he hids _ ih => exact .alter he hids ih

theorem bind {Q : β → Shape K V → Prop} {p : Program K V α} {f : α → Program K V β}
    (h : p.Works cmp r (fun a t' => (f a).Works cmp r Q t') t) : (p >>= f).Works cmp r Q t := by
  induction h with
  | done h => exact h
  | look hn _ ih =>
    rw [bind_assoc]
    exact .look hn ih
  | alter he hids _ ih =>
    rw [bind_assoc]
    exact .alter he hids ih

theorem looks {Q : Node K V → Shape K V → Prop} {n : Node K V} (hn : t.Reaches r i n) (h : Q n t) :
    (Program.look i).Works cmp r Q t := by
  rw [← bind_pure (Program.look i)]
  exact .look hn (.done h)

theorem alters {Q : Unit → Shape K V → Prop} {ids : List NodeId} {e : Edit K V Unit}
    (ht : t.Distinct) (he : e.Turns cmp ids t t')
    (hids : ∀ i ∈ ids, i ≠ .nil → i ∈ NodeId.anchor :: t.ids) (h : t'.Distinct → Q () t') :
    (Tree.alter ids e).Works cmp r Q t := by
  rw [← bind_pure (Tree.alter ids e)]
  exact .alter he hids (.done (h (ht.of_rows he.rows)))

/-! ## In a store -/

/-- The program does its work next to lookups that go on. -/
theorem ensures {R : Shape K V → Prop} {x : Content K V} {p : Program K V α}
    (h : p.Works cmp .fresh Q t) (hx : x.TidyTree t) : p.Ensures cmp R x .free fun a x' g' =>
      g' = .free ∧ ∃ t', x'.TidyTree t' ∧ x.Keeps x' ∧ t'.rows = t.rows ∧ Q a t' := by
  induction h generalizing x with
  | done h => exact ⟨rfl, _, hx, .refl x, rfl, h⟩
  | look hn _ ih =>
    exact .bind (.look hx.sound (Grips.holding_calm none) (hn _ hx.tree) (ih hx))
  | @alter t t' ids e f he hids _ ih =>
    have hedit : (Section.plain e).edit.Makes ids x.heap fun a h' => a = none ∧ h'.FreshTree t' ∧
        ∀ i ∈ t.ids, i ∉ t'.ids → ∀ n, h' i = some n → n.left = .nil ∧ n.right = .nil := by
      refine .bind ((he.makes .fresh _ hx.tree).mono fun _ h' hb =>
        .pure ⟨rfl, hb, fun i hi hi' => ?_⟩)
      rw [Shape.ids_of_rows he.rows] at hi'
      exact absurd hi hi'
    refine .bind (.bind (.within (v := none) hx hids (fun m hm => absurd hm (by simp)) hedit
      (.reshape he.reshapes) (.inl (congrArg (List.map Row.key) he.rows))
      fun x₁ hx₁ hk₁ => .pure ((ih hx₁).mono ?_)))
    rintro a x' g' ⟨hg, t₂, hx', hk, hrows, hq⟩
    exact ⟨hg, t₂, hx', hk₁.trans hk, hrows.trans he.rows, hq⟩

end Works

end Program

end LatchTree
