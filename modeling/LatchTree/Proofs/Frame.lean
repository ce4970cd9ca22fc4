import LatchTree.Proofs.Slots
import LatchTree.Proofs.Writer.Keys

/-!
What updates leave alone, whatever the comparison of keys says: an entry that is neither inserted nor
removed stays in its node, with its key, and with its value unless that is overwritten.
-/

namespace LatchTree

variable {K V : Type} {cmp : K → K → Ordering} {k : K} {t t' : Shape K V}

/-! ## The descent -/

namespace Heap

/-- The descent for `k` from the root, by what the nodes compare, comes to the node `id`. -/
inductive Descends (cmp : K → K → Ordering) (k : K) (h : Heap K V) : NodeId → Prop
  | root {n : Node K V} (hn : h .anchor = some n) (hne : n.left ≠ .nil) : Descends cmp k h n.left
  | step {id : NodeId} {n : Node K V} (hid : Descends cmp k h id) (hn : h id = some n)
      (ho : n.order cmp k ≠ .eq) (hne : n.towards cmp k ≠ .nil) :
      Descends cmp k h (n.towards cmp k)

/-- The descent for `k` meets the node `id`, which compares equal with `k`. -/
def Hits (cmp : K → K → Ordering) (k : K) (h : Heap K V) (id : NodeId) : Prop :=
  h.Descends cmp k id ∧ ∃ n, h id = some n ∧ n.order cmp k = .eq

variable {h : Heap K V} {i : NodeId}

theorem FreshTree.descends_iff (hb : h.FreshTree t) : h.Descends cmp k i ↔
    ∃ p c l a r, t = Path.plug p (.node c l a r) ∧ p.Leads cmp k ∧ a.id = i := by
  constructor
  · intro hi
    induction hi with
    | @root n hn hne =>
      obtain rfl := Option.some.inj (hb.anchor.symm.trans hn)
      cases t with
      | nil => exact absurd rfl hne
      | node c l a r => exact ⟨.top, c, l, a, r, rfl, trivial, rfl⟩
    | @step id n hid hn ho hne ih =>
      obtain ⟨p, c, l, a, r, rfl, hp, rfl⟩ := ih
      obtain rfl := Option.some.inj ((hb.focus (d := .left)).symm.trans hn)
      rw [Node.towards] at hne ⊢
      rw [Row.order_node] at ho hne ⊢
      cases hord : a.order cmp k with
      | eq => exact absurd hord ho
      | gt =>
        rw [hord] at hne
        cases l with
        | nil => exact absurd rfl hne
        | node c' l' a' r' => exact ⟨.under .left c a r p, c', l', a', r', rfl, ⟨hord, hp⟩, rfl⟩
      | lt =>
        rw [hord] at hne
        cases r with
        | nil => exact absurd rfl hne
        | node c' l' a' r' => exact ⟨.under .right c a l p, c', l', a', r', rfl, ⟨hord, hp⟩, rfl⟩
  · rintro ⟨p, c, l, a, r, rfl, hp, rfl⟩
    induction p generalizing c l a r with
    | top => exact .root hb.anchor (hb.ne_nil (Shape.top_mem_ids (by simp)))
    | under d c' a' u p ih =>
      have hne : a.id ≠ .nil := hb.ne_nil (by simp)
      have hup : h.Descends cmp k a'.id := by
        cases d with
        | left => exact ih _ _ _ _ hb hp.2
        | right => exact ih _ _ _ _ hb hp.2
      have hn := hb.focus (p := p) (d := d) (c := c') (x := .node c l a r) (a := a') (y := u)
      have htowards : (a'.node c' p.parent d (Shape.node c l a r).top u.top).towards cmp k =
          a.id := by
        rw [Node.towards, Row.order_node, hp.1, Node.sideOf_ordering, Row.child_node]
        rfl
      refine htowards ▸ .step hup hn ?_ (htowards ▸ hne)
      rw [Row.order_node, hp.1]
      exact d.ordering_ne_eq

theorem FreshTree.hits (hb : h.FreshTree t) {p : Path K V} {c : Color} {l r : Shape K V} {a : Row K V}
    (ht : t = p.plug (.node c l a r)) (hp : p.Leads cmp k) (ha : a.order cmp k = .eq) :
    h.Hits cmp k a.id := by
  refine ⟨hb.descends_iff.2 ⟨p, c, l, a, r, ht, hp, rfl⟩, _, (ht ▸ hb).focus (d := .left), ?_⟩
  rwa [Row.order_node]

/-- A descent that comes to a hole has met no node that compares equal. -/
theorem FreshTree.not_hits (hb : h.FreshTree t) (hf : t.Filled) {p : Path K V} (ht : t = p.plug .nil)
    (hp : p.Leads cmp k) (i : NodeId) : ¬h.Hits cmp k i := by
  rintro ⟨hi, n, hn, ho⟩
  obtain ⟨q, c, l, a, r, hq, hlead, rfl⟩ := hb.descends_iff.1 hi
  obtain rfl := Option.some.inj (((hq ▸ hb).focus (d := .left)).symm.trans hn)
  rw [Row.order_node] at ho
  have hvalue : a.value = none :=
    (Shape.Finds.present hq hlead ho).eq_found.trans (Shape.Finds.absent ht hp).eq_found.symm
  have hmem : a ∈ t.rows := by simp [hq, Path.rows_plug, Shape.rows]
  exact (hf a hmem).2 hvalue

end Heap

/-! ## Entries in their nodes -/

namespace Content

variable {x x' : Content K V} {i : NodeId}

theorem ref_congr (h : x'.slots = x.slots) (j : NodeId) : x'.ref? j = x.ref? j := by
  rw [ref?, h, ref?]

/-- The slot in which there is a node now is that of the new one. -/
theorem Allots.ref_inserted (h : x.Allots x') (hx : x.Sound) (hold : x.ref? i = .none)
    (hnew : x'.ref? i ≠ .none) (j : NodeId) :
    x'.ref? j = if j = i then some x.made else x.ref? j := by
  cases h with
  | none hslots =>
    rw [ref_congr hslots] at hnew
    exact absurd hold hnew
  | taken n hslots =>
    have href : ∀ j, x'.ref? j = if j = (x.make n).1 then some x.made else x.ref? j := fun j =>
      (ref_congr hslots j).trans (hx.ref_make n j)
    have hi : i = (x.make n).1 := by
      by_contra hne
      rw [href, if_neg hne] at hnew
      exact hnew hold
    rw [href, hi]
  | vacated id _ hslots =>
    rw [ref_congr hslots, ref_vacate, hold, ite_self] at hnew
    exact absurd rfl hnew

/-- The slot in which there is no node any more is the one that was vacated. -/
theorem Allots.ref_erased (h : x.Allots x') (hx : x.Sound) (hold : x.ref? i ≠ .none)
    (hnew : x'.ref? i = .none) (j : NodeId) : x'.ref? j = if j = i then .none else x.ref? j := by
  cases h with
  | none hslots =>
    rw [ref_congr hslots] at hnew
    exact absurd hnew hold
  | taken n hslots =>
    rw [ref_congr hslots, hx.ref_make] at hnew
    split_ifs at hnew
    exact absurd hnew hold
  | vacated id _ hslots =>
    have href : ∀ j, x'.ref? j = if j = id then .none else x.ref? j := fun j =>
      (ref_congr hslots j).trans (ref_vacate x id j)
    have hi : i = id := by
      by_contra hne
      rw [href, if_neg hne] at hnew
      exact hold hnew
    rw [href, hi]

end Content

namespace Store

variable {s s' : Store K V}

/-- The links lead to the node `r` in the slot `id`, and it has this key and this value. -/
structure Holds (s : Store K V) (id : NodeId) (r : Ref) (key : Option K) (value : Option V) :
    Prop where
  linked : ∃ ds, Heap.Reaches s.node? ds id
  ref : s.ref? id = some r
  key : (s.node r).key = key
  value : (s.node r).value = value

theorem UnlatchedTree.holds_iff (hs : s.UnlatchedTree t) {id : NodeId} {r : Ref} {key : Option K}
    {value : Option V} :
    s.Holds id r key value ↔ s.ref? id = some r ∧ ⟨id, key, value⟩ ∈ t.rows := by
  have hb := hs.settled.tidy.tree
  have hrow : ∀ a ∈ t.rows, s.ref? a.id = some r →
      (s.node r).key = a.key ∧ (s.node r).value = a.value := by
    intro a ha href
    obtain ⟨n, hn, hkey⟩ := hb.hangs.row ha
    obtain rfl : s.node r = n :=
      Option.some.inj ((Content.heap_of_ref (x := s.content) href).symm.trans hn)
    exact hkey
  constructor
  · rintro ⟨hlinked, href, rfl, rfl⟩
    obtain ⟨a, ha, rfl⟩ := List.mem_map.1 (hb.reaches_mem.1 hlinked)
    obtain ⟨hkey, hvalue⟩ := hrow a ha href
    rw [hkey, hvalue]
    exact ⟨href, ha⟩
  · rintro ⟨href, ha⟩
    obtain ⟨hkey, hvalue⟩ := hrow _ ha href
    exact ⟨hb.reaches_mem.2 (List.mem_map_of_mem ha), href, hkey, hvalue⟩

theorem UnlatchedTree.holds_row (hs : s.UnlatchedTree t) {a : Row K V} {r : Ref}
    (hr : s.ref? a.id = some r) (ha : a ∈ t.rows) : s.Holds a.id r a.key a.value :=
  hs.holds_iff.2 ⟨hr, ha⟩

/-- What an update answers and what it leaves. Where the descent meets a node that compares equal, setting
changes that value only; where it meets none, removing changes nothing. In the other cases one entry comes
in or goes, and the others stay in their nodes. -/
inductive Alters (cmp : K → K → Ordering) (s : Store K V) :
    Update K V → Option V → Store K V → Prop
  | overwritten {k : K} {v : V} {id : NodeId} {r : Ref} (hhit : Heap.Hits cmp k s.node? id)
      (hr : s.ref? id = some r) :
      Alters cmp s (.set k v) (s.node r).value (s.mapNode r fun n => { n with value := some v })
  | inserted {k : K} {v : V} {s' : Store K V} {z : NodeId} (hmiss : ∀ id, ¬Heap.Hits cmp k s.node? id)
      (hz : s.ref? z = none) (hholds : ∀ id r key value, s'.Holds id r key value ↔
        s.Holds id r key value ∨ id = z ∧ r = s.cells.size ∧ key = some k ∧ value = some v) :
      Alters cmp s (.set k v) none s'
  | erased {k : K} {s' : Store K V} {z : NodeId} {r : Ref} (hhit : Heap.Hits cmp k s.node? z)
      (hr : s.ref? z = some r) (hz : s'.ref? z = none)
      (hholds : ∀ id r key value, s'.Holds id r key value ↔ s.Holds id r key value ∧ id ≠ z) :
      Alters cmp s (.remove k) (s.node r).value s'
  | absent {k : K} (hmiss : ∀ id, ¬Heap.Hits cmp k s.node? id) : Alters cmp s (.remove k) none s

/-! ## Updates -/

variable {x' : Content K V} {v : V} {p : Path K V} {a : Row K V}

theorem content_assign {r : Ref} (hr : r < s.cells.size) :
    (s.mapNode r fun n => { n with value := some v }).content = s.content.assign r v := by
  simp only [content, Content.assign, Content.mk.injEq]
  refine ⟨funext fun i => ?_, by simp [mapNode], rfl, rfl, rfl, rfl⟩
  rw [node_mapNode]
  simp only [hr, and_true]

namespace UnlatchedTree

variable (hs : s.UnlatchedTree t) (hs' : s'.UnlatchedTree t') (hallots : s.content.Allots s'.content)

include hs hs' hallots

/-- One row more. -/
theorem alters_inserted {i : NodeId} (ht : t = p.plug .nil) (hp : p.Leads cmp k)
    (hrows : t'.rows = p.before ++ [⟨i, some k, some v⟩] ++ p.after) :
    s.Alters cmp (.set k v) none s' := by
  have hb' := hs'.settled.tidy.tree
  have hmem : ∀ b, b ∈ t'.rows ↔ b ∈ t.rows ∨ b = ⟨i, some k, some v⟩ := by
    intro b
    rw [hrows, ht, Path.rows_plug]
    simp only [Shape.rows, List.append_nil, List.mem_append, List.mem_singleton]
    tauto
  have hi' : i ∈ t'.ids := List.mem_map_of_mem ((hmem ⟨i, some k, some v⟩).2 (.inr rfl))
  have hi : i ∉ t.ids := by
    have hnodup := hs'.settled.tidy.nodup
    rw [Shape.ids, hrows] at hnodup
    rw [ht, Shape.ids, Path.rows_plug]
    simp only [Shape.rows, List.append_nil, List.map_append, List.map_cons, List.map_nil,
      List.nodup_append, List.mem_append, List.mem_singleton] at hnodup ⊢
    grind
  have hnew : s'.ref? i ≠ none := by
    obtain ⟨r, hr⟩ := hs'.settled.tidy.ref_some (i := i) (by simp [hi'])
    rw [show s'.ref? i = some r from hr]
    exact Option.some_ne_none r
  have hold : s.ref? i = none := by
    by_contra hne
    obtain ⟨r, hr⟩ := Option.ne_none_iff_exists'.1 hne
    have hused := hs.settled.used i r hr
    simp only [List.mem_cons, hi, or_false] at hused
    exact hused.elim (hb'.ne_nil hi') (hb'.ne_anchor hi')
  have href : ∀ j, s'.ref? j = if j = i then some s.cells.size else s.ref? j :=
    hallots.ref_inserted hs.settled.tidy.sound hold hnew
  refine .inserted (hs.settled.tidy.tree.not_hits hs.settled.filled ht hp) hold
    fun id r key value => ?_
  rw [hs'.holds_iff, hs.holds_iff, href, hmem, Row.mk.injEq]
  have hne : ⟨id, key, value⟩ ∈ t.rows → id ≠ i := fun hrow hid =>
    hi (hid ▸ List.mem_map_of_mem (f := Row.id) hrow)
  constructor
  · rintro ⟨hr, hrow | ⟨rfl, rfl, rfl⟩⟩
    · rw [if_neg (hne hrow)] at hr
      exact .inl ⟨hr, hrow⟩
    · rw [if_pos rfl] at hr
      exact .inr ⟨rfl, (Option.some.inj hr).symm, rfl, rfl⟩
  · rintro (⟨hr, hrow⟩ | ⟨rfl, rfl, rfl, rfl⟩)
    · exact ⟨(if_neg (hne hrow)).trans hr, .inl hrow⟩
    · exact ⟨if_pos rfl, .inr ⟨rfl, rfl, rfl⟩⟩

/-- One row less. -/
theorem alters_erased {c : Color} {l u : Shape K V} (ht : t = p.plug (.node c l a u))
    (hp : p.Leads cmp k) (ha : a.order cmp k = .eq)
    (hrows : t'.rows = p.before ++ (l.rows ++ u.rows) ++ p.after) :
    s.Alters cmp (.remove k) a.value s' := by
  have hb := hs.settled.tidy.tree
  have hrows₀ : t.rows = p.before ++ (l.rows ++ a :: u.rows) ++ p.after := by
    rw [ht, Path.rows_plug, Shape.rows]
  have ha₀ : a ∈ t.rows := by simp [hrows₀]
  have hid : a.id ∈ t.ids := List.mem_map_of_mem ha₀
  have hid' : a.id ∉ t'.ids := by
    have hnodup := hs.settled.tidy.nodup
    rw [Shape.ids, hrows₀] at hnodup
    rw [Shape.ids, hrows]
    simp only [List.map_append, List.map_cons, List.nodup_append, List.nodup_cons,
      List.mem_append, List.mem_cons] at hnodup ⊢
    grind
  have hmem : ∀ b, b ∈ t'.rows ↔ b ∈ t.rows ∧ b.id ≠ a.id := by
    intro b
    have hne : b ∈ t'.rows → b.id ≠ a.id := fun hb he => hid' (he ▸ List.mem_map_of_mem hb)
    have hback : b ∈ t.rows → b = a ∨ b ∈ t'.rows := by
      rw [hrows, hrows₀]
      simp only [List.mem_append, List.mem_cons]
      tauto
    constructor
    · intro hb
      refine ⟨?_, hne hb⟩
      rw [hrows] at hb
      rw [hrows₀]
      simp only [List.mem_append, List.mem_cons] at hb ⊢
      tauto
    · rintro ⟨hb, hne⟩
      exact (hback hb).resolve_left fun he => hne (congrArg Row.id he)
  obtain ⟨r, hr⟩ := hs.settled.tidy.ref_some (i := a.id) (by simp [hid])
  have hold : s.ref? a.id ≠ none := by
    rw [show s.ref? a.id = some r from hr]
    exact Option.some_ne_none r
  have hnew : s'.ref? a.id = none := by
    by_contra hne
    obtain ⟨r', hr'⟩ := Option.ne_none_iff_exists'.1 hne
    have hused := hs'.settled.used a.id r' hr'
    simp only [List.mem_cons, hid', or_false] at hused
    exact hused.elim (hb.ne_nil hid) (hb.ne_anchor hid)
  have href : ∀ j, s'.ref? j = if j = a.id then none else s.ref? j :=
    hallots.ref_erased hs.settled.tidy.sound hold hnew
  have hvalue : a.value = (s.node r).value := (hs.holds_row hr ha₀).value.symm
  rw [hvalue]
  refine .erased (hb.hits ht hp ha) hr hnew fun id r key value => ?_
  rw [hs'.holds_iff, hs.holds_iff, href, hmem]
  constructor
  · rintro ⟨hr, hrow, hne⟩
    rw [if_neg hne] at hr
    exact ⟨⟨hr, hrow⟩, hne⟩
  · rintro ⟨⟨hr, hrow⟩, hne⟩
    exact ⟨(if_neg hne).trans hr, hrow, hne⟩

omit hs' hallots in
theorem alters (cmp : K → K → Ordering) (u : Update K V) : ∃ old s',
    s.update cmp u = (.ok old, s') ∧ s.Alters cmp u old s' := by
  have hb := hs.settled.tidy.tree
  have hfuel := size_lt_patience hs.settled.tidy
  cases u with
  | set k v =>
    have hset : (Tree.set cmp s.patience k v).Ensures cmp (fun _ => True) s.content .free
        fun old x g => g = .free ∧ ((∃ r id t', s.ref? id = some r ∧ Heap.Hits cmp k s.node? id ∧
          old = (s.node r).value ∧ x = s.content.assign r v ∧ x.SettledTree t') ∨
          old = none ∧ ∃ (p : Path K V) (t' : Shape K V) (i : NodeId), t = p.plug .nil ∧
            p.Leads cmp k ∧ x.SettledTree t' ∧ s.content.Allots x ∧
            t'.rows = p.before ++ [⟨i, some k, some v⟩] ++ p.after) := by
      refine .set_cases hs.settled hfuel (fun _ _ _ => trivial)
        (fun p c l a u r ht hp ha hr hx' => ⟨rfl, .inl ⟨r, a.id, _, hr, hb.hits ht hp ha, ?_, rfl, hx'⟩⟩)
        fun p ht hp x t' i hx' hrows hallots =>
          ⟨rfl, .inr ⟨rfl, p, t', i, ht, hp, hx', hallots, hrows⟩⟩
      have hrow : a ∈ t.rows := by simp [ht, Path.rows_plug, Shape.rows]
      exact (hs.holds_row hr hrow).value.symm
    obtain ⟨old, s', g', hrun, ⟨rfl, hcases⟩, hw⟩ := hset.run hs.shows []
    refine ⟨old, s', hrun, ?_⟩
    rcases hcases with ⟨r, id, t', hr, hhit, rfl, hx, -⟩ | ⟨rfl, p, t', i, ht, hp, hx', hallots, hrows⟩
    · have hmade : r < s.cells.size := hs.settled.tidy.sound.made id r hr
      have hspin := Program.spin_run (Tree.set cmp s.patience k v) s []
      rw [hrun] at hspin
      obtain rfl : s' = s.mapNode r fun n => { n with value := some v } := by
        refine eq_of_content (hs.shows.congr hs.shows.table fun i => s.word_mapNode ..) hw ?_ hspin
        exact hx.trans (content_assign hmade).symm
      exact .overwritten hhit hr
    · exact alters_inserted hs ⟨hx', hw⟩ hallots ht hp hrows
  | remove k =>
    have hremove : (Tree.remove cmp s.patience k).Ensures cmp (fun _ => True) s.content .free
        fun old x g => g = .free ∧ ((∃ (p : Path K V) (c : Color) (l : Shape K V) (a : Row K V)
          (u t' : Shape K V), t = p.plug (.node c l a u) ∧ p.Leads cmp k ∧ a.order cmp k = .eq ∧
            x.SettledTree t' ∧ s.content.Allots x ∧ old = a.value ∧
            t'.rows = p.before ++ (l.rows ++ u.rows) ++ p.after) ∨
          old = none ∧ x = s.content ∧ ∃ p : Path K V, t = p.plug .nil ∧ p.Leads cmp k) :=
      .remove_cases hs.settled hfuel (fun _ _ _ => trivial)
        (fun p c l a u ht hp ha x t' hx' hrows hallots =>
          ⟨rfl, .inl ⟨p, c, l, a, u, t', ht, hp, ha, hx', hallots, rfl, hrows⟩⟩)
        fun p ht hp => ⟨rfl, .inr ⟨rfl, rfl, p, ht, hp⟩⟩
    obtain ⟨old, s', g', hrun, ⟨rfl, hcases⟩, hw⟩ := hremove.run hs.shows []
    refine ⟨old, s', hrun, ?_⟩
    rcases hcases with ⟨p, c, l, a, u, t', ht, hp, ha, hx', hallots, rfl, hrows⟩ |
      ⟨rfl, hx, p, ht, hp⟩
    · exact alters_erased hs ⟨hx', hw⟩ hallots ht hp ha hrows
    · have hspin := Program.spin_run (Tree.remove cmp s.patience k) s []
      rw [hrun] at hspin
      obtain rfl : s' = s := eq_of_content hs.shows hw hx hspin
      exact .absent (hb.not_hits hs.settled.filled ht hp)

end UnlatchedTree

/-- On a tree that updates have made, whatever the comparison of keys says, an update alters only the entry
that it sets or removes: the others stay in their nodes. No node ever made, be it in the tree or not, gets
another key. -/
theorem update_alters (cmp : K → K → Ordering) (spin : Bool) (us : List (Update K V))
    (u : Update K V) : ∃ olds s old s',
      (Store.empty spin).updates cmp us = (.ok olds, s) ∧ s.update cmp u = (.ok old, s') ∧
      s.Alters cmp u old s' ∧ s.cells.size ≤ s'.cells.size ∧
      ∀ r < s.cells.size, (s'.node r).key = (s.node r).key := by
  obtain ⟨olds, s, t, hrun, hs⟩ := (UnlatchedTree.empty spin).updates cmp us
  obtain ⟨old, s', hupdate, halters⟩ := hs.alters cmp u
  exact ⟨olds, s, old, s', hrun, hupdate, halters, (u.keepsKeys cmp s.patience).run hupdate⟩

end Store

end LatchTree
