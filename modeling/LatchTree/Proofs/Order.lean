import LatchTree.Proofs.Shape

/-!
Keys in a shape: the order of the rows, and the way that a search for a key takes through them.
Nothing here supposes that the shape is sorted unless it says so.
-/

namespace LatchTree

variable {K V : Type} {cmp : K → K → Ordering} {k : K}

/-! ## Rows and a key -/

/-- What a node that compares so with a key looks like when the key is on its side `d`. -/
def Side.ordering : Side → Ordering
  | .left => .gt
  | .right => .lt

@[simp] theorem Side.ordering_ne_eq (d : Side) : d.ordering ≠ .eq := by cases d <;> simp [ordering]

@[simp] theorem Node.sideOf_ordering (d : Side) : sideOf d.ordering = d := by cases d <;> rfl

theorem Side.ordering_sideOf {o : Ordering} (ho : o ≠ .eq) : (Node.sideOf o).ordering = o := by
  cases o with
  | lt => rfl
  | eq => exact absurd rfl ho
  | gt => rfl

theorem Side.ordering_other_ne (d : Side) : d.other.ordering ≠ d.ordering := by
  cases d <;> simp [ordering, other]

namespace Row

/-- Orders the key of the row against `k`. -/
def order (cmp : K → K → Ordering) (a : Row K V) (k : K) : Ordering :=
  match a.key with
  | some key => cmp key k
  | none => .gt

@[simp] theorem order_node (a : Row K V) (c : Color) (p : NodeId) (d : Side) (x y : NodeId) :
    (a.node c p d x y).order cmp k = a.order cmp k := by
  rw [Node.order, key_node]
  rfl

/-- The key of `a` comes before that of `b`. -/
def Before (cmp : K → K → Ordering) (a b : Row K V) : Prop :=
  ∃ x y, a.key = some x ∧ b.key = some y ∧ cmp x y = .lt

theorem before_of_order_lt {a b : Row K V} (hb : b.key = some k) (h : a.order cmp k = .lt) :
    a.Before cmp b := by
  cases ha : a.key with
  | none => simp [order, ha] at h
  | some x => exact ⟨x, k, ha, hb, by simpa [order, ha] using h⟩

theorem before_of_order_gt [Std.OrientedCmp cmp] {a b : Row K V} (ha : a.key = some k)
    (hb : b.key ≠ none) (h : b.order cmp k = .gt) : a.Before cmp b := by
  obtain ⟨y, hy⟩ := Option.ne_none_iff_exists'.1 hb
  exact ⟨k, y, ha, hy, Std.OrientedCmp.lt_of_gt (by simpa [order, hy] using h)⟩

/-- The key of `a` is on the side `d` of that of `b`. -/
def On (cmp : K → K → Ordering) (d : Side) (a b : Row K V) : Prop :=
  match d with
  | .left => a.Before cmp b
  | .right => b.Before cmp a

variable {a b e : Row K V} {d : Side}

theorem on_other : a.On cmp d.other b ↔ b.On cmp d a := by cases d <;> exact Iff.rfl

section

variable [Std.TransCmp cmp]

theorem Before.trans (hab : a.Before cmp b) (hbe : b.Before cmp e) : a.Before cmp e := by
  obtain ⟨x, y, hx, hy, hxy⟩ := hab
  obtain ⟨y', z, hy', hz, hyz⟩ := hbe
  obtain rfl : y = y' := Option.some.inj (hy.symm.trans hy')
  exact ⟨x, z, hx, hz, Std.TransCmp.lt_trans hxy hyz⟩

theorem Before.asymm (hab : a.Before cmp b) : ¬b.Before cmp a := by
  intro hba
  obtain ⟨x, y, hx, hy, hxy⟩ := hab.trans hba
  obtain rfl : x = y := Option.some.inj (hx.symm.trans hy)
  exact absurd hxy (by simp [Std.ReflCmp.compare_self])

theorem Before.order_lt (hab : a.Before cmp b) (hb : b.order cmp k ≠ .gt) :
    a.order cmp k = .lt := by
  obtain ⟨x, y, hx, hy, hxy⟩ := hab
  simp only [order, hx, hy] at hb ⊢
  cases hyk : cmp y k with
  | lt => exact Std.TransCmp.lt_trans hxy hyk
  | eq => exact Std.TransCmp.lt_of_lt_of_eq hxy hyk
  | gt => exact absurd hyk hb

theorem Before.order_gt (hab : a.Before cmp b) (ha : a.order cmp k ≠ .lt) :
    b.order cmp k = .gt := by
  obtain ⟨x, y, hx, hy, hxy⟩ := hab
  simp only [order, hx, hy] at ha ⊢
  have hyx := Std.OrientedCmp.gt_of_lt hxy
  cases hxk : cmp x k with
  | lt => exact absurd hxk ha
  | eq => exact Std.TransCmp.gt_of_gt_of_eq hyx hxk
  | gt => exact Std.TransCmp.gt_trans hyx hxk

/-- A key not beyond `a`, which is on the side `d` of `b`, is on that side of `b` too. -/
theorem On.order (hab : a.On cmp d b) (ha : a.order cmp k ≠ d.other.ordering) :
    b.order cmp k = d.ordering := by
  cases d with
  | left => exact Before.order_gt hab ha
  | right => exact Before.order_lt hab ha

theorem On.order_other (hab : a.On cmp d b) (hb : b.order cmp k ≠ d.ordering) :
    a.order cmp k = d.other.ordering :=
  (on_other.2 hab).order (by simpa using hb)

end

end Row

/-! ## Searching -/

namespace Shape

/-- The nodes at which a search for `k` compares, from the top down. -/
def trail (cmp : K → K → Ordering) (k : K) : Shape K V → List NodeId
  | nil => []
  | node _ l a r => a.id :: match a.order cmp k with
    | .gt => l.trail cmp k
    | .lt => r.trail cmp k
    | .eq => []

/-- An entry of the shape compares equal with `k`. -/
def Has (cmp : K → K → Ordering) (k : K) (t : Shape K V) : Prop :=
  ∃ a ∈ t.rows, a.order cmp k = .eq

variable (d : Side) (c : Color) (x : Shape K V) (a : Row K V) (y : Shape K V)

@[simp] theorem trail_nil : (nil : Shape K V).trail cmp k = [] := rfl

@[simp] theorem mem_trail_join (i : NodeId) : i ∈ (join d c x a y).trail cmp k ↔ i = a.id ∨
    (a.order cmp k = d.ordering ∧ i ∈ x.trail cmp k) ∨
      (a.order cmp k = d.other.ordering ∧ i ∈ y.trail cmp k) := by
  cases d <;> cases ha : a.order cmp k <;> simp [join, trail, ha, Side.ordering, Side.other]

theorem mem_rows_join (b : Row K V) :
    b ∈ (join d c x a y).rows ↔ b = a ∨ b ∈ x.rows ∨ b ∈ y.rows := by
  cases d <;> simp only [join, rows, List.mem_append, List.mem_cons] <;> tauto

theorem has_join : (join d c x a y).Has cmp k ↔
    a.order cmp k = .eq ∨ x.Has cmp k ∨ y.Has cmp k := by
  simp only [Has, mem_rows_join, or_and_right, exists_or, exists_eq_left]

@[simp] theorem has_nil : ¬(nil : Shape K V).Has cmp k := by simp [Has, rows]

theorem mem_ids_of_mem_trail {t : Shape K V} {i : NodeId} (hi : i ∈ t.trail cmp k) : i ∈ t.ids := by
  induction t with
  | nil => exact absurd hi List.not_mem_nil
  | node c l a r ihl ihr =>
    rw [show node c l a r = join .left c l a r from rfl, mem_trail_join] at hi
    rw [ids_node, List.mem_append, List.mem_cons]
    rcases hi with hi | ⟨-, hi⟩ | ⟨-, hi⟩
    · exact .inr (.inl hi)
    · exact .inl (ihl hi)
    · exact .inr (.inr (ihr hi))

end Shape

namespace Path

/-- A search for `k` comes to the hole. -/
def Leads (cmp : K → K → Ordering) (k : K) : Path K V → Prop
  | top => True
  | under d _ a _ p => a.order cmp k = d.ordering ∧ p.Leads cmp k

/-- A search for `k` compares at the node `i` outside the hole. -/
def Passes (cmp : K → K → Ordering) (k : K) (i : NodeId) : Path K V → Prop
  | top => False
  | under d _ a u p => p.Passes cmp k i ∨ (p.Leads cmp k ∧
      (i = a.id ∨ (a.order cmp k = d.other.ordering ∧ i ∈ u.trail cmp k)))

theorem mem_trail_plug (p : Path K V) (t : Shape K V) (i : NodeId) :
    i ∈ (p.plug t).trail cmp k ↔ p.Passes cmp k i ∨ (p.Leads cmp k ∧ i ∈ t.trail cmp k) := by
  induction p generalizing t with
  | top => simp [Passes, Leads]
  | under d c a u p ih =>
    simp only [plug_under, ih, Shape.mem_trail_join, Passes, Leads]
    tauto

theorem Passes.mem_ids {p : Path K V} {i : NodeId} (h : p.Passes cmp k i) : i ∈ p.ids := by
  induction p with
  | top => exact h.elim
  | under d c a u p ih =>
    rw [ids, List.mem_cons, List.mem_append]
    rcases h with h | ⟨-, h | ⟨-, h⟩⟩
    · exact .inr (.inr (ih h))
    · exact .inl h
    · exact .inr (.inl (Shape.mem_ids_of_mem_trail h))

theorem has_plug (p : Path K V) (t : Shape K V) : (p.plug t).Has cmp k ↔
    (∃ a ∈ p.before ++ p.after, a.order cmp k = .eq) ∨ t.Has cmp k := by
  simp only [Shape.Has, rows_plug, List.mem_append]
  constructor
  · rintro ⟨a, (ha | ha) | ha, hk⟩
    · exact .inl ⟨a, .inl ha, hk⟩
    · exact .inr ⟨a, ha, hk⟩
    · exact .inl ⟨a, .inr ha, hk⟩
  · rintro (⟨a, ha | ha, hk⟩ | ⟨a, ha, hk⟩)
    · exact ⟨a, .inl (.inl ha), hk⟩
    · exact ⟨a, .inr ha, hk⟩
    · exact ⟨a, .inl (.inr ha), hk⟩

end Path

/-! ## Sorted shapes -/

namespace Shape

/-- All rows have keys, which ascend from left to right. -/
structure Sorted (cmp : K → K → Ordering) (t : Shape K V) : Prop where
  keyed : ∀ a ∈ t.rows, a.key ≠ none
  ascending : t.rows.Pairwise (Row.Before cmp)

theorem sorted_congr {t t' : Shape K V} (h : t.keys = t'.keys) :
    t.Sorted cmp → t'.Sorted cmp := by
  rw [keys, keys] at h
  have hkeyed : ∀ l : List (Row K V), (∀ a ∈ l, a.key ≠ none) ↔ ∀ x ∈ l.map Row.key, x ≠ none := by
    simp
  have hmap : ∀ l : List (Row K V), l.Pairwise (Row.Before cmp) ↔ (l.map Row.key).Pairwise
      fun x y => ∃ x' y', x = some x' ∧ y = some y' ∧ cmp x' y' = .lt := by
    intro l
    rw [List.pairwise_map]
    rfl
  rintro ⟨hk, ha⟩
  exact ⟨(hkeyed _).2 (h ▸ (hkeyed _).1 hk), (hmap _).2 (h ▸ (hmap _).1 ha)⟩

theorem Sorted.sublist {t t' : Shape K V} (hs : t.Sorted cmp) (h : t'.rows.Sublist t.rows) :
    t'.Sorted cmp :=
  ⟨fun a ha => hs.keyed a (h.subset ha), hs.ascending.sublist h⟩

/-- Everything on the side `d` of the top is on that side of it in order. -/
theorem Sorted.join {d : Side} {c : Color} {x : Shape K V} {a : Row K V} {y : Shape K V}
    (hs : (join d c x a y).Sorted cmp) :
    (∀ b ∈ x.rows, b.On cmp d a) ∧ ∀ b ∈ y.rows, a.On cmp d b := by
  have ha := hs.ascending
  cases d <;>
    simp only [Shape.join, rows, List.pairwise_append, List.pairwise_cons, List.mem_cons] at ha <;>
    exact ⟨fun b hb => by simp only [Row.On]; grind, fun b hb => by simp only [Row.On]; grind⟩

end Shape

namespace Path

variable {p : Path K V} {t : Shape K V}

theorem sorted_of_plug (h : (p.plug t).Sorted cmp) : t.Sorted cmp := by
  refine h.sublist ?_
  rw [rows_plug, List.append_assoc]
  exact (List.sublist_append_left ..).trans (List.sublist_append_right ..)

variable [Std.TransCmp cmp]

/-- All rows before the hole come before a key that belongs there. -/
theorem Leads.before (hp : p.Leads cmp k) (hs : (p.plug t).Sorted cmp) :
    ∀ a ∈ p.before, a.order cmp k = .lt := by
  induction p generalizing t with
  | top => simp [Path.before]
  | under d c a u p ih =>
    have ih := ih hp.2 hs
    have hj := sorted_of_plug (p := p) hs
    cases d with
    | left => exact ih
    | right =>
      intro b hb
      simp only [Path.before, List.mem_append, List.mem_singleton] at hb
      rcases hb with hb | hb | rfl
      · exact ih b hb
      · have hon := hj.join.2 b hb
        exact Row.Before.order_lt hon (by simp [hp.1, Side.ordering])
      · exact hp.1

theorem Leads.after (hp : p.Leads cmp k) (hs : (p.plug t).Sorted cmp) :
    ∀ a ∈ p.after, a.order cmp k = .gt := by
  induction p generalizing t with
  | top => simp [Path.after]
  | under d c a u p ih =>
    have ih := ih hp.2 hs
    have hj := sorted_of_plug (p := p) hs
    cases d with
    | right => exact ih
    | left =>
      intro b hb
      simp only [Path.after, List.cons_append, List.mem_cons, List.mem_append] at hb
      rcases hb with rfl | hb | hb
      · exact hp.1
      · have hon := hj.join.2 b hb
        exact Row.Before.order_gt hon (by simp [hp.1, Side.ordering])
      · exact ih b hb

/-- The only place for a key is where the search for it comes to. -/
theorem Leads.has_plug (hp : p.Leads cmp k) (hs : (p.plug t).Sorted cmp) :
    (p.plug t).Has cmp k ↔ t.Has cmp k := by
  rw [Path.has_plug, or_iff_right]
  rintro ⟨a, ha, hk⟩
  rcases List.mem_append.1 ha with ha | ha
  · simp [hp.before hs a ha] at hk
  · simp [hp.after hs a ha] at hk

/-- A new row may be put where the search for its key comes to. -/
theorem Leads.sorted_link {c : Color} {a : Row K V} (hp : p.Leads cmp k) (hkey : a.key = some k)
    (hs : (p.plug .nil).Sorted cmp) : (p.plug (.node c .nil a .nil)).Sorted cmp := by
  have hbefore : ∀ b ∈ p.before, b.Before cmp a :=
    fun b hb => Row.before_of_order_lt hkey (hp.before hs b hb)
  have hgt := hp.after hs
  obtain ⟨hkeyed, hasc⟩ := hs
  rw [rows_plug] at hkeyed hasc
  have hafter : ∀ b ∈ p.after, a.Before cmp b := fun b hb =>
    Row.before_of_order_gt hkey (hkeyed b (List.mem_append_right _ hb)) (hgt b hb)
  constructor
  · simp only [rows_plug, Shape.rows, List.nil_append, List.append_nil, List.mem_append,
      List.mem_singleton] at hkeyed ⊢
    grind
  · simp only [rows_plug, Shape.rows, List.nil_append, List.append_nil, List.pairwise_append,
      List.pairwise_cons, List.mem_append, List.mem_singleton] at hasc ⊢
    grind

/-- The search for a key that is in the hole comes to the hole. -/
theorem leads_of_has (ht : t.Has cmp k) (hs : (p.plug t).Sorted cmp) : p.Leads cmp k := by
  induction p generalizing t with
  | top => trivial
  | under d c a u p ih =>
    obtain ⟨b, hb, hk⟩ := ht
    have hj := sorted_of_plug (p := p) hs
    refine ⟨(hj.join.1 b hb).order (by simp [hk, (Side.ordering_ne_eq _).symm]), ih ?_ hs⟩
    exact ⟨b, (Shape.mem_rows_join ..).2 (.inr (.inl hb)), hk⟩

/-- Nothing lies between a key and the node above the hole that the search for it comes to. -/
theorem Leads.gap {d : Side} {c : Color} {a b : Row K V} {u : Shape K V}
    (hp : (under d c a u p).Leads cmp k) (hs : ((under d c a u p).plug .nil).Sorted cmp)
    (hb : b ∈ ((under d c a u p).plug .nil).rows) (hon : b.On cmp d a) :
    b.order cmp k = d.other.ordering := by
  have hbefore := hp.before hs b
  have hafter := hp.after hs b
  have hasc := hs.2
  rw [rows_plug, Shape.rows, List.append_nil] at hb hasc
  cases d with
  | left =>
    refine hbefore ((List.mem_append.1 hb).resolve_right fun hb => ?_)
    have hpair := (List.pairwise_append.1 hasc).2.1
    simp only [Path.after, List.cons_append, List.mem_cons, List.pairwise_cons] at hb hpair
    rcases hb with rfl | hb
    · exact hon.asymm hon
    · exact hon.asymm (hpair.1 b hb)
  | right =>
    refine hafter ((List.mem_append.1 hb).resolve_left fun hb => ?_)
    have hpair := (List.pairwise_append.1 hasc).1
    simp only [Path.before] at hb hpair
    rw [← List.append_assoc] at hb hpair
    have hlast := (List.pairwise_append.1 hpair).2.2
    rcases List.mem_append.1 hb with hb | hb
    · exact hon.asymm (hlast b hb a List.mem_cons_self)
    · obtain rfl := List.mem_singleton.1 hb
      exact hon.asymm hon

/-- The search for a key comes to a row that nothing lies between. -/
theorem leads_of_gap {d : Side} {a : Row K V} (ha : a ∈ t.rows) (hord : a.order cmp k = d.ordering)
    (hs : (p.plug t).Sorted cmp)
    (h : ∀ b ∈ (p.plug t).rows, b.On cmp d a → b.order cmp k = d.other.ordering) :
    p.Leads cmp k := by
  induction p generalizing t with
  | top => trivial
  | under e c b u p ih =>
    have hon := (sorted_of_plug (p := p) hs).join.1 a ha
    refine ⟨?_, ih ((Shape.mem_rows_join ..).2 (.inr (.inl ha))) hs h⟩
    by_cases hed : e = d
    · subst hed
      exact hon.order (hord.trans_ne (Side.ordering_other_ne _).symm)
    · obtain rfl : e = d.other := by cases e <;> cases d <;> simp_all [Side.other]
      have hmem : b ∈ ((under d.other c b u p).plug t).rows := by
        rw [Path.plug, rows_plug, List.mem_append, List.mem_append]
        exact .inl (.inr ((Shape.mem_rows_join ..).2 (.inl rfl)))
      exact h b hmem (Row.on_other.1 hon)

end Path

end LatchTree
