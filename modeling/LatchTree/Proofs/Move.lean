import LatchTree.Proofs.Order

/-!
The moves of a tree: every section of writes that changes a shape recolours, rotates and overwrites,
links one node, splices one out, or relocates one entry. A move takes place at named nodes. Of the
others it says which are still met by a search.
-/

namespace LatchTree

variable {K V : Type} {cmp : K → K → Ordering} {k : K} {ids : List NodeId}

/-- A change at one place, at nodes of `ids`, that keeps all entries. -/
inductive Shape.Reshape (ids : List NodeId) : Shape K V → Shape K V → Prop
  | paint {p : Path K V} {d : Side} {c : Color} {x y : Shape K V} {a : Row K V} (c' : Color)
      (ha : a.id ∈ ids) : Reshape ids (p.plug (.join d c x a y)) (p.plug (.join d c' x a y))
  | assign {p : Path K V} {d : Side} {c : Color} {x y : Shape K V} {a : Row K V} (v : V)
      (ha : a.id ∈ ids) :
      Reshape ids (p.plug (.join d c x a y)) (p.plug (.join d c x { a with value := some v } y))
  | rotate {p : Path K V} {d : Side} {cx cy : Color} {A B O : Shape K V} {x y : Row K V}
      (hx : x.id ∈ ids) (hy : y.id ∈ ids) :
      Reshape ids (p.plug (.join d cx A x (.join d cy B y O)))
        (p.plug (.join d cy (.join d cx A x B) y O))

/-- A sequence of changes that keep all entries. -/
abbrev Shape.Reshapes (ids : List NodeId) : Shape K V → Shape K V → Prop :=
  Relation.ReflTransGen (Reshape ids)

/-- What one section of writes does, at nodes of `ids`, if it moves no entry up. -/
inductive Shape.Rewrite (cmp : K → K → Ordering) (ids : List NodeId) :
    Shape K V → Shape K V → Prop
  | reshape {t t' : Shape K V} (h : t.Reshapes ids t') : Rewrite cmp ids t t'
  | link {p : Path K V} {c : Color} {a : Row K V} {k : K} (hkey : a.key = some k)
      (hvalue : a.value ≠ none) (hp : p.Leads cmp k) (hnew : a.id ∉ (p.plug .nil).ids) :
      Rewrite cmp ids (p.plug .nil) (p.plug (.node c .nil a .nil))
  | splice {p : Path K V} {d : Side} {c : Color} {x : Shape K V} {a : Row K V} (ha : a.id ∈ ids) :
      Rewrite cmp ids (p.plug (.join d c x a .nil)) (p.plug x)

/-- The node after `z` in order, which is in its right subtree, takes its place. -/
inductive Shape.Relocate (ids : List NodeId) : Shape K V → Shape K V → Prop
  | mk {p q : Path K V} {c cy : Color} {zl x : Shape K V} {z y : Row K V} (hz : z.id ∈ ids)
      (hy : y.id ∈ ids) (hq : q.before = []) :
      Relocate ids (p.plug (.node c zl z (q.plug (.node cy .nil y x))))
        (p.plug (.node c zl y (q.plug x)))

/-- All rows have keys and values. -/
def Shape.Filled (t : Shape K V) : Prop :=
  ∀ a ∈ t.rows, a.key ≠ none ∧ a.value ≠ none

variable {t t' : Shape K V} {p : Path K V} {i : NodeId}

theorem Shape.rows_rotate (d : Side) (cx cy : Color) (A B O : Shape K V) (x y : Row K V) :
    (join d cy (join d cx A x B) y O).rows = (join d cx A x (join d cy B y O)).rows := by
  cases d <;> simp [join, rows]

theorem Path.mem_trail_congr {u u' : Shape K V}
    (h : p.Leads cmp k → (i ∈ u.trail cmp k ↔ i ∈ u'.trail cmp k)) :
    i ∈ (p.plug u).trail cmp k ↔ i ∈ (p.plug u').trail cmp k := by
  rw [mem_trail_plug, mem_trail_plug, and_congr_right h]

theorem Shape.mem_trail_rotate [Std.TransCmp cmp] {d : Side} {cx cy : Color} {A B O : Shape K V}
    {x y : Row K V} (hs : (join d cx A x (join d cy B y O)).Sorted cmp) (hx : i ≠ x.id)
    (hy : i ≠ y.id) : i ∈ (join d cx A x (join d cy B y O)).trail cmp k ↔
      i ∈ (join d cy (join d cx A x B) y O).trail cmp k := by
  have hxy : x.On cmp d y :=
    hs.join.2 y ((mem_rows_join ..).2 (.inl rfl))
  have hnear : x.order cmp k = d.ordering → y.order cmp k = d.ordering :=
    fun h => hxy.order (h.trans_ne (d.ordering_other_ne).symm)
  have hfar : y.order cmp k = d.other.ordering → x.order cmp k = d.other.ordering :=
    fun h => hxy.order_other (h.trans_ne d.ordering_other_ne)
  simp only [mem_trail_join]
  tauto

namespace Shape.Reshape

/-! ## What a change of links, colours and values keeps -/

theorem mem_ids (h : t.Reshape ids t') : i ∈ t'.ids ↔ i ∈ t.ids := by
  cases h with
  | paint c' ha => simp
  | assign v ha => simp
  | rotate hx hy =>
    simp only [Path.mem_ids_plug, mem_ids_join]
    tauto

theorem keys (h : t.Reshape ids t') : t'.keys = t.keys := by
  cases h with
  | @paint p d c x y a c' ha => cases d <;> simp [Shape.keys, Path.rows_plug, join, rows]
  | @assign p d c x y a v ha => cases d <;> simp [Shape.keys, Path.rows_plug, join, rows]
  | rotate hx hy => rw [Shape.keys, Shape.keys, Path.rows_plug, Path.rows_plug, rows_rotate]

theorem filled (h : t.Reshape ids t') (ht : t.Filled) : t'.Filled := by
  cases h with
  | @paint p d c x y a c' ha =>
    cases d <;> simpa [Filled, Path.rows_plug, join, rows] using ht
  | @assign p d c x y a v ha =>
    simp only [Filled, Path.rows_plug, List.mem_append, mem_rows_join] at ht ⊢
    rintro b ((hb | rfl | hb) | hb)
    · exact ht b (.inl (.inl hb))
    · exact ⟨(ht a (.inl (.inr (.inl rfl)))).1, Option.some_ne_none v⟩
    · exact ht b (.inl (.inr (.inr hb)))
    · exact ht b (.inr hb)
  | rotate hx hy =>
    rw [Filled, Path.rows_plug, rows_rotate, ← Path.rows_plug]
    exact ht

theorem sorted (h : t.Reshape ids t') (hs : t.Sorted cmp) : t'.Sorted cmp :=
  sorted_congr h.keys.symm hs

theorem mem_trail [Std.TransCmp cmp] (h : t.Reshape ids t') (hs : t.Sorted cmp) (hout : i ∉ ids) :
    i ∈ t.trail cmp k ↔ i ∈ t'.trail cmp k := by
  cases h with
  | paint c' ha => exact Path.mem_trail_congr fun _ => by simp only [mem_trail_join]
  | assign v ha => exact Path.mem_trail_congr fun _ => by simp only [mem_trail_join]; rfl
  | rotate hx hy =>
    refine Path.mem_trail_congr fun _ => mem_trail_rotate (Path.sorted_of_plug hs) ?_ ?_
    · rintro rfl
      exact hout hx
    · rintro rfl
      exact hout hy

end Shape.Reshape

namespace Shape.Rewrite

/-! ## What a rewrite keeps -/

theorem mem_ids (h : t.Rewrite cmp ids t') (hi : i ∈ t.ids) (hout : i ∉ ids) : i ∈ t'.ids := by
  cases h with
  | reshape h =>
    induction h with
    | refl => exact hi
    | tail _ h ih => exact h.mem_ids.2 ih
  | link hkey hvalue hp hnew =>
    rw [Path.mem_ids_plug] at hi ⊢
    exact .inr (hi.resolve_left List.not_mem_nil)
  | splice ha =>
    simp only [Path.mem_ids_plug, mem_ids_join, ids_nil, List.not_mem_nil, or_false] at hi ⊢
    rcases hi with (rfl | hi) | hi
    · exact absurd ha hout
    · exact .inl hi
    · exact .inr hi

theorem filled (h : t.Rewrite cmp ids t') (ht : t.Filled) : t'.Filled := by
  cases h with
  | reshape h =>
    induction h with
    | refl => exact ht
    | tail _ h ih => exact h.filled ih
  | @link p c a k hkey hvalue hp hnew =>
    simp only [Filled, Path.rows_plug, rows, List.nil_append, List.append_nil, List.mem_append,
      List.mem_singleton] at ht ⊢
    grind
  | @splice p d c x a ha =>
    simp only [Filled, Path.rows_plug, List.mem_append, mem_rows_join] at ht ⊢
    grind

variable [Std.TransCmp cmp]

theorem sorted (h : t.Rewrite cmp ids t') (hs : t.Sorted cmp) : t'.Sorted cmp := by
  cases h with
  | reshape h =>
    induction h with
    | refl => exact hs
    | tail _ h ih => exact h.sorted ih
  | link hkey hvalue hp hnew => exact hp.sorted_link hkey hs
  | @splice p d c x a ha =>
    refine hs.sublist ?_
    rw [Path.rows_plug, Path.rows_plug]
    refine (List.Sublist.append_left ?_ _).append_right _
    cases d <;> simp [join, rows]

/-- A search that met a node still meets it. -/
theorem mem_trail (h : t.Rewrite cmp ids t') (hs : t.Sorted cmp) (hi : i ∈ t.trail cmp k)
    (hout : i ∉ ids) : i ∈ t'.trail cmp k := by
  cases h with
  | reshape h =>
    induction h with
    | refl => exact hi
    | tail h' h ih => exact (h.mem_trail (sorted (.reshape h') hs) hout).1 ih
  | link hkey hvalue hp hnew =>
    rw [Path.mem_trail_plug] at hi ⊢
    exact .inl (hi.resolve_right fun h => List.not_mem_nil h.2)
  | splice ha =>
    rw [Path.mem_trail_plug, mem_trail_join] at hi
    rw [Path.mem_trail_plug]
    rcases hi with hi | ⟨hp, rfl | ⟨-, hi⟩ | ⟨-, hi⟩⟩
    · exact .inl hi
    · exact absurd ha hout
    · exact .inr ⟨hp, hi⟩
    · exact absurd hi List.not_mem_nil

/-- A search for an entry meets no more of the old nodes than before. -/
theorem mem_trail_of_has (h : t.Rewrite cmp ids t') (hs : t.Sorted cmp) (hk : t'.Has cmp k)
    (hi : i ∈ t'.trail cmp k) (hold : i ∈ t.ids) (hout : i ∉ ids) : i ∈ t.trail cmp k := by
  cases h with
  | reshape h =>
    clear hk
    induction h with
    | refl => exact hi
    | tail h' h ih => exact ih ((h.mem_trail (sorted (.reshape h') hs) hout).2 hi)
  | @link p c a k' hkey hvalue hp hnew =>
    rw [Path.mem_trail_plug] at hi ⊢
    rcases hi with hi | ⟨hp', hi⟩
    · exact .inl hi
    · rw [show node c nil a nil = join .left c nil a nil from rfl, mem_trail_join] at hi
      rcases hi with rfl | ⟨-, hi⟩ | ⟨-, hi⟩
      · exact absurd hold hnew
      · exact absurd hi List.not_mem_nil
      · exact absurd hi List.not_mem_nil
  | @splice p d c x a ha =>
    have hs' := sorted (.splice ha) hs
    rw [Path.mem_trail_plug] at hi ⊢
    rcases hi with hi | ⟨hp, hi⟩
    · exact .inl hi
    · obtain ⟨b, hb, hbk⟩ := (hp.has_plug hs').1 hk
      have hon := (Path.sorted_of_plug hs).join.1 b hb
      refine .inr ⟨hp, (mem_trail_join ..).2 (.inr (.inl ⟨hon.order ?_, hi⟩))⟩
      exact hbk.trans_ne (Side.ordering_ne_eq _).symm

end Shape.Rewrite

namespace Shape.Relocate

/-! ## What a relocation keeps -/

theorem mem_ids (h : t.Relocate ids t') (hi : i ∈ t.ids) (hout : i ∉ ids) : i ∈ t'.ids := by
  cases h with
  | mk hz hy hq =>
    simp only [Path.mem_ids_plug, ids_node, ids_nil, List.mem_append, List.mem_cons,
      List.nil_append] at hi ⊢
    grind

theorem rows (h : t.Relocate ids t') : t'.rows.Sublist t.rows := by
  cases h with
  | @mk p q c cy zl x z y hz hy hq =>
    simp only [Path.rows_plug, Shape.rows, hq, List.nil_append]
    refine (List.Sublist.append_left ?_ _).append_right _
    exact (List.sublist_cons_self ..).append_left _

theorem sorted (h : t.Relocate ids t') (hs : t.Sorted cmp) : t'.Sorted cmp :=
  hs.sublist h.rows

theorem filled (h : t.Relocate ids t') (ht : t.Filled) : t'.Filled :=
  fun a ha => ht a (h.rows.subset ha)

variable [Std.TransCmp cmp]

/-- A search for an entry meets no more of the old nodes than before. -/
theorem mem_trail_of_has (h : t.Relocate ids t') (hs : t.Sorted cmp) (hk : t'.Has cmp k)
    (hi : i ∈ t'.trail cmp k) (hout : i ∉ ids) : i ∈ t.trail cmp k := by
  have hs' := h.sorted hs
  cases h with
  | @mk p q c cy zl x z y hz hy hq =>
    rw [Path.mem_trail_plug] at hi ⊢
    rcases hi with hi | ⟨hp, hi⟩
    · exact .inl hi
    rw [show node c zl y (q.plug x) = join .left c zl y (q.plug x) from rfl, mem_trail_join] at hi
    rw [← Path.mem_trail_plug]
    rcases hi with rfl | ⟨hord, hi⟩ | ⟨hord, hi⟩
    · exact absurd hy hout
    · -- the search goes to the left, as it did at `z`
      have hzl : zl.Has cmp k :=
        (Path.Leads.has_plug (p := .under .left c y (q.plug x) p) ⟨hord, hp⟩ hs').1 hk
      have hlead := Path.leads_of_has (p := .under .left c z (q.plug (.node cy .nil y x)) p) hzl hs
      exact (Path.mem_trail_plug (.under .left c z _ p) zl i).2 (.inr ⟨hlead, hi⟩)
    · have hr : (q.plug x).Has cmp k :=
        (Path.Leads.has_plug (p := .under .right c y zl p) ⟨hord, hp⟩ hs').1 hk
      have hr' : (q.plug (node cy nil y x)).Has cmp k := by
        rw [Path.has_plug] at hr ⊢
        exact hr.imp_right fun hx => (has_join .left cy nil y x).2 (.inr (.inr hx))
      have hlead := Path.leads_of_has (p := .under .right c z zl p) hr' hs
      refine (Path.mem_trail_plug (.under .right c z zl p) _ i).2 (.inr ⟨hlead, ?_⟩)
      rw [Path.mem_trail_plug] at hi ⊢
      refine hi.imp_right fun ⟨hq', hi⟩ => ⟨hq', ?_⟩
      have hx : x.Has cmp k := by
        refine (Path.Leads.has_plug (p := q) hq' (Path.sorted_of_plug (p := .under .right c y zl p)
          hs')).1 hr
      have hlead' := Path.leads_of_has (p := .under .right cy y nil q) hx
        (Path.sorted_of_plug (p := .under .right c z zl p) hs)
      exact (mem_trail_join .left cy nil y x i).2 (.inr (.inr ⟨hlead'.1, hi⟩))

end Shape.Relocate

end LatchTree
