import LatchTree.Proofs.Edit

/-!
The links of a node turned elsewhere, whatever else is in the heap: a child put in the place of
another, and the rotation of a link, which the rotation the other way undoes.
-/

namespace LatchTree

variable {K V : Type}

namespace Node

variable (n : Node K V) (d : Side) (i j : NodeId)

@[simp] theorem child_setChild_same : (n.setChild d i).child d = i := by
  rw [child_setChild, if_pos rfl]

@[simp] theorem child_setChild_other : (n.setChild d i).child d.other = n.child d.other := by
  rw [child_setChild, if_neg d.other_ne]

@[simp] theorem setChild_setChild : (n.setChild d i).setChild d j = n.setChild d j := by
  cases d <;> rfl

@[simp] theorem setChild_child : n.setChild d (n.child d) = n := by cases d <;> rfl

/-- The node below another parent. -/
def under (q : NodeId) : Node K V :=
  { n with parent := q }

@[simp] theorem parent_under : (n.under i).parent = i := rfl

@[simp] theorem child_under : (n.under i).child d = n.child d := by cases d <;> rfl

@[simp] theorem under_under : (n.under i).under j = n.under j := rfl

@[simp] theorem setChild_under : (n.under i).setChild d j = (n.setChild d j).under i := by
  cases d <;> rfl

theorem under_parent : n.under n.parent = n := rfl

end Node

/-! ## Rotating -/

theorem Heap.adopt_set {h : Heap K V} {i j : NodeId} (hne : i ≠ j) (n : Node K V) (q : NodeId) :
    (h.set j n).adopt i q = (h.adopt i q).set j n := by
  funext k
  have hi : (h.set j n) i = h i := Heap.set_ne _ hne
  unfold Heap.adopt
  rw [hi]
  by_cases hnil : i = .nil
  · simp [hnil]
  · cases h i with
    | none => simp [hnil]
    | some m =>
      simp only [hnil, if_false, Heap.set]
      grind

/-- The heap after a rotation of `x` towards `d`. The nodes of `x`, of the child that moves up and of
the parent were `n`, `m` and `up`. -/
def Heap.rotate (h : Heap K V) (d : Side) (x : NodeId) (n m up : Node K V) : Heap K V :=
  (((h.adopt (m.child d) x).set n.parent (up.setChild (up.sideOfChild x) (n.child d.other))).set
    (n.child d.other) ((m.setChild d x).under n.parent)).set x
      ((n.setChild d.other (m.child d)).under (n.child d.other))

/-- The nodes around a link that can be rotated: the links down have links back. -/
structure Heap.Pivot (h : Heap K V) (d : Side) (x : NodeId) (n m up : Node K V) : Prop where
  node : h x = some n
  moved : h (n.child d.other) = some m
  above : h n.parent = some up
  link : up.child (up.sideOfChild x) = x
  /-- The child that moves up has no other link down to it. -/
  single : up.left ≠ n.child d.other
  back : m.parent = x
  inner : m.child d ≠ .nil → ∃ b, h (m.child d) = some b ∧ b.parent = n.child d.other
  distinct : [NodeId.nil, n.parent, x, n.child d.other].Nodup
  apart : m.child d ∉ [n.parent, x, n.child d.other]

namespace Heap

section

variable (h : Heap K V) (d : Side) {x i : NodeId} {n m up : Node K V}

theorem rotate_node :
    h.rotate d x n m up x = some ((n.setChild d.other (m.child d)).under (n.child d.other)) :=
  Heap.set_same ..

theorem rotate_other (hi : i ∉ [n.parent, x, n.child d.other]) :
    h.rotate d x n m up i = h.adopt (m.child d) x i := by
  simp only [List.mem_cons, List.not_mem_nil, or_false, not_or] at hi
  rw [rotate, Heap.set_ne _ hi.2.1, Heap.set_ne _ hi.2.2, Heap.set_ne _ hi.1]

/-- No other node is changed. -/
theorem rotate_rest (hi : i ∉ [n.parent, x, n.child d.other]) (hb : i = m.child d → i = .nil) :
    h.rotate d x n m up i = h i := by
  rw [h.rotate_other d hi]
  by_cases he : i = m.child d
  · rw [Heap.adopt, if_pos (he ▸ hb he)]
  · exact Heap.adopt_ne _ he

end

end Heap

namespace Heap.Pivot

variable {h : Heap K V} {d : Side} {x : NodeId} {n m up : Node K V}

theorem rotate_above (hp : h.Pivot d x n m up) : h.rotate d x n m up n.parent =
    some (up.setChild (up.sideOfChild x) (n.child d.other)) := by
  have hd := hp.distinct
  simp only [List.nodup_cons, List.mem_cons] at hd
  rw [rotate, Heap.set_ne _ (by grind), Heap.set_ne _ (by grind), Heap.set_same]

theorem rotate_moved (hp : h.Pivot d x n m up) : h.rotate d x n m up (n.child d.other) =
    some ((m.setChild d x).under n.parent) := by
  have hd := hp.distinct
  simp only [List.nodup_cons, List.mem_cons] at hd
  rw [rotate, Heap.set_ne _ (by grind), Heap.set_same]

theorem rotate_inner (hp : h.Pivot d x n m up) {b : Node K V} (hne : m.child d ≠ .nil)
    (hb : h (m.child d) = some b) : h.rotate d x n m up (m.child d) = some (b.under x) :=
  (h.rotate_other d hp.apart).trans (Heap.adopt_same hne hb)

theorem rotate_nil (hp : h.Pivot d x n m up) : h.rotate d x n m up .nil = h .nil :=
  h.rotate_rest d (List.nodup_cons.1 hp.distinct).1 fun _ => rfl

/-- The child that moved up is on the side where `x` was. -/
theorem side_back (hp : h.Pivot d x n m up) :
    (up.setChild (up.sideOfChild x) (n.child d.other)).sideOfChild (n.child d.other) =
      up.sideOfChild x := by
  have hs := hp.single
  unfold Node.sideOfChild
  split_ifs <;> simp_all [Node.setChild]

/-- The other way round the same links can be rotated. -/
theorem back_pivot (hp : h.Pivot d x n m up) : (h.rotate d x n m up).Pivot d.other (n.child d.other)
    ((m.setChild d x).under n.parent) ((n.setChild d.other (m.child d)).under (n.child d.other))
    (up.setChild (up.sideOfChild x) (n.child d.other)) := by
  have hd := hp.distinct
  have ha := hp.apart
  simp only [List.nodup_cons, List.mem_cons] at hd ha
  refine ⟨hp.rotate_moved, by simpa using h.rotate_node d, hp.rotate_above, ?_, ?_, by simp, ?_, ?_, ?_⟩
  · rw [hp.side_back, Node.child_setChild_same]
  · simp only [Side.other_other, Node.child_under, Node.child_setChild_same]
    unfold Node.sideOfChild
    split_ifs <;> simp only [Node.setChild]
    · grind
    · assumption
  · simp only [Node.child_under, Node.child_setChild_same]
    intro hne
    obtain ⟨b, hb, -⟩ := hp.inner hne
    exact ⟨_, hp.rotate_inner hne hb, by simp⟩
  · simp only [Side.other_other, Node.child_under, Node.child_setChild_same, Node.parent_under,
      List.nodup_cons, List.mem_cons]
    grind
  · simp only [Side.other_other, Node.child_under, Node.child_setChild_same, Node.parent_under,
      List.mem_cons]
    grind

/-- Which brings back the heap there was. -/
theorem back_rotate (hp : h.Pivot d x n m up) :
    (h.rotate d x n m up).rotate d.other (n.child d.other) ((m.setChild d x).under n.parent)
      ((n.setChild d.other (m.child d)).under (n.child d.other))
      (up.setChild (up.sideOfChild x) (n.child d.other)) = h := by
  have hp' := hp.back_pivot
  have hm : (((m.setChild d x).under n.parent).setChild d (m.child d)).under x = m := by
    simpa [hp.back] using m.under_parent
  have hn : (((n.setChild d.other (m.child d)).under (n.child d.other)).setChild d.other
      (n.child d.other)).under n.parent = n := by
    simpa using n.under_parent
  have hup : (up.setChild (up.sideOfChild x) (n.child d.other)).setChild (up.sideOfChild x) x =
      up := by
    conv_rhs => rw [← up.setChild_child (up.sideOfChild x), hp.link]
    rw [Node.setChild_setChild]
  funext i
  by_cases hi : i ∈ [n.parent, x, n.child d.other]
  · simp only [List.mem_cons, List.not_mem_nil, or_false] at hi
    rcases hi with rfl | rfl | rfl
    · have h₁ := hp'.rotate_above
      simp only [Side.other_other, Node.child_under, Node.child_setChild_same, Node.parent_under] at h₁
      rw [h₁, hp.side_back, hup, hp.above]
    · have h₁ := hp'.rotate_moved
      simp only [Side.other_other, Node.child_under, Node.child_setChild_same, Node.parent_under] at h₁
      rw [h₁, hn, hp.node]
    · rw [Heap.rotate, Heap.set_same, hp.moved]
      simpa using hm
  · by_cases hb : i = m.child d ∧ i ≠ .nil
    · obtain ⟨rfl, hne⟩ := hb
      obtain ⟨b, hb, hbp⟩ := hp.inner hne
      have h₁ := hp'.rotate_inner (b := b.under x) (by simpa using hne)
        (by simpa using hp.rotate_inner hne hb)
      simp only [Node.child_under, Node.child_setChild_same] at h₁
      rw [h₁, hb, Node.under_under, ← hbp, Node.under_parent]
    · have hb' : i = m.child d → i = .nil := by tauto
      rw [Heap.rotate_rest _ _ (by simpa [or_comm, or_left_comm, and_comm, and_left_comm] using hi)
        (by simpa using hb'), h.rotate_rest d hi hb']

end Heap.Pivot

namespace Edit

variable {ids : List NodeId} {h : Heap K V}

theorem Makes.relink {Q : Unit → Heap K V → Prop} {q u v : NodeId} {n : Node K V} (hid : q ∈ ids)
    (hne : q ≠ .nil) (hn : h q = some n) (hu : n.child (n.sideOfChild u) = u)
    (hq : Q () (h.set q (n.setChild (n.sideOfChild u) v))) : (relink q u v).Makes ids h Q := by
  refine .bind (.get hid hne hn ?_)
  unfold Node.sideOfChild at hu hq
  split_ifs with hl hr
  · rw [if_pos hl] at hq
    exact .modify hid hne hn hq
  · rw [if_neg hl] at hq
    exact .modify hid hne hn hq
  · rw [if_neg hl] at hu
    exact absurd hu hr

theorem Makes.transplant {Q : Unit → Heap K V → Prop} {q u v : NodeId} {m n : Node K V}
    (huid : u ∈ ids) (hu : u ≠ .nil) (hm : h u = some m) (hpar : m.parent = q) (hid : q ∈ ids)
    (hne : q ≠ .nil) (hn : h q = some n) (hl : n.child (n.sideOfChild u) = u)
    (hv : v ≠ .nil → v ∈ ids ∧ ∃ l, h v = some l)
    (hq : Q () ((h.set q (n.setChild (n.sideOfChild u) v)).adopt v q)) :
    (transplant u v).Makes ids h Q := by
  refine .bind (.get huid hu hm (.bind ?_))
  rw [hpar]
  refine .relink hid hne hn hl (.setParent (fun hv' => ⟨(hv hv').1, ?_⟩) hq)
  obtain ⟨-, l, hl⟩ := hv hv'
  by_cases he : v = q
  · exact ⟨_, by rw [he, Heap.set_same]⟩
  · exact ⟨l, (Heap.set_ne _ he).trans hl⟩

theorem Makes.rotate {Q : Unit → Heap K V → Prop} {d : Side} {x : NodeId} {n m up : Node K V}
    (hp : h.Pivot d x n m up)
    (hids : ∀ i ∈ [n.parent, x, n.child d.other, m.child d], i ≠ .nil → i ∈ ids)
    (hq : Q () (h.rotate d x n m up)) : (rotate x d).Makes ids h Q := by
  have hd := hp.distinct
  have ha := hp.apart
  simp only [List.nodup_cons, List.mem_cons, List.not_mem_nil, or_false, not_or] at hd ha
  have hPnil : n.parent ≠ .nil := by grind
  have hxnil : x ≠ .nil := by grind
  have hynil : n.child d.other ≠ .nil := by grind
  have hxP : x ≠ n.parent := by grind
  have hyP : n.child d.other ≠ n.parent := by grind
  have hxy : x ≠ n.child d.other := by grind
  obtain ⟨hbP, hbx, hby⟩ := ha
  have hx : x ∈ ids := hids _ (by simp) hxnil
  have hy : n.child d.other ∈ ids := hids _ (by simp) hynil
  -- the heaps after each write
  let h₁ := h.set x (n.setChild d.other (m.child d))
  let h₂ := h₁.adopt (m.child d) x
  let h₃ := h₂.set n.parent (up.setChild (up.sideOfChild x) (n.child d.other))
  let h₄ := h₃.adopt (n.child d.other) n.parent
  let h₅ := h₄.set (n.child d.other) ((m.under n.parent).setChild d x)
  have hx₂ : h₂ x = some (n.setChild d.other (m.child d)) :=
    (Heap.adopt_ne _ (Ne.symm hbx)).trans (Heap.set_same ..)
  have hx₅ : h₅ x = some (n.setChild d.other (m.child d)) := (Heap.set_ne _ hxy).trans
    ((Heap.adopt_ne _ hxy).trans ((Heap.set_ne _ hxP).trans hx₂))
  have hy₂ : h₂ (n.child d.other) = some m :=
    (Heap.adopt_ne _ (Ne.symm hby)).trans ((Heap.set_ne _ hxy.symm).trans hp.moved)
  have hy₄ : h₄ (n.child d.other) = some (m.under n.parent) :=
    Heap.adopt_same hynil ((Heap.set_ne _ hyP).trans hy₂)
  have hP₂ : h₂ n.parent = some up :=
    (Heap.adopt_ne _ (Ne.symm hbP)).trans ((Heap.set_ne _ hxP.symm).trans hp.above)
  have hrotate : h₅.set x ((n.setChild d.other (m.child d)).under (n.child d.other)) =
      h.rotate d x n m up := by
    have hcomm : h₂ = (h.adopt (m.child d) x).set x (n.setChild d.other (m.child d)) :=
      Heap.adopt_set hbx ..
    funext i
    simp only [h₅, h₄, h₃, hcomm]
    by_cases hix : i = x
    · rw [hix, Heap.set_same, Heap.rotate_node]
    by_cases hiy : i = n.child d.other
    · rw [hiy, Heap.set_ne _ hxy.symm, Heap.set_same, hp.rotate_moved, Node.setChild_under]
    rw [Heap.set_ne _ hix, Heap.set_ne _ hiy, Heap.adopt_ne _ hiy, Heap.rotate, Heap.set_ne _ hix,
      Heap.set_ne _ hiy]
    by_cases hiP : i = n.parent
    · rw [hiP, Heap.set_same, Heap.set_same]
    · rw [Heap.set_ne _ hiP, Heap.set_ne _ hiP, Heap.set_ne _ hix]
  refine .bind (.get hx hxnil hp.node ?_)
  simp only [if_neg hynil]
  refine .bind (.get hy hynil hp.moved (.bind (.modify hx hxnil hp.node ?_)))
  refine .bind (.setParent (fun hne => ⟨hids _ (by simp) hne, ?_⟩) ?_)
  · obtain ⟨b, hb, -⟩ := hp.inner hne
    exact ⟨b, (Heap.set_ne _ hbx).trans hb⟩
  refine .bind (.transplant hx hxnil hx₂ (Node.parent_setChild ..) (hids _ (by simp) hPnil) hPnil hP₂
    hp.link (fun _ => ⟨hy, _, hy₂⟩) ?_)
  refine .bind (.modify hy hynil hy₄ (.modify hx hxnil hx₅ ?_))
  exact hrotate ▸ hq

end Edit

end LatchTree
