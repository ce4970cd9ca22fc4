import LatchTree.Proofs.Updates
import LatchTree.Proofs.Lookup.Place

/-!
The slots of a tree, whatever the comparison of keys says: those in use are the two reserved ones and
those of the nodes that the links lead to, the others are listed as vacant, and there are as many as
were in use at once.
-/

namespace LatchTree

variable {K V : Type} {cmp : K → K → Ordering} {t t' : Shape K V}

/-! ## The nodes that the links lead to -/

/-- The links down from the anchor lead to the node `id`. The turns taken are listed from the node
up. -/
inductive Heap.Reaches (h : Heap K V) : List Side → NodeId → Prop
  | root {n : Node K V} (hn : h .anchor = some n) (hne : n.left ≠ .nil) : Reaches h [] n.left
  | child {ds : List Side} {id : NodeId} {n : Node K V} (d : Side) (hid : Reaches h ds id)
      (hn : h id = some n) (hne : n.child d ≠ .nil) : Reaches h (d :: ds) (n.child d)

/-- The turns on the way to the hole, from the hole up. -/
def Path.turns : Path K V → List Side
  | top => []
  | under d _ _ _ p => d :: p.turns

namespace Heap

variable {h : Heap K V} {ds ds' : List Side} {i : NodeId}

theorem FreshTree.reaches_iff (hb : h.FreshTree t) : h.Reaches ds i ↔
    ∃ p c l a r, t = Path.plug p (.node c l a r) ∧ p.turns = ds ∧ a.id = i := by
  constructor
  · intro hi
    induction hi with
    | @root n hn hne =>
      obtain rfl := Option.some.inj (hb.anchor.symm.trans hn)
      cases t with
      | nil => exact absurd rfl hne
      | node c l a r => exact ⟨.top, c, l, a, r, rfl, rfl, rfl⟩
    | @child ds id n d hid hn hne ih =>
      obtain ⟨p, c, l, a, r, rfl, rfl, rfl⟩ := ih
      obtain rfl := Option.some.inj ((hb.focus (d := .left)).symm.trans hn)
      cases d with
      | left =>
        cases l with
        | nil => exact absurd rfl hne
        | node c' l' a' r' => exact ⟨.under .left c a r p, c', l', a', r', rfl, rfl, rfl⟩
      | right =>
        cases r with
        | nil => exact absurd rfl hne
        | node c' l' a' r' => exact ⟨.under .right c a l p, c', l', a', r', rfl, rfl, rfl⟩
  · rintro ⟨p, c, l, a, r, rfl, rfl, rfl⟩
    induction p generalizing c l a r with
    | top => exact .root hb.anchor (hb.ne_nil (Shape.top_mem_ids (by simp)))
    | under d c' a' u p ih =>
      have hne : a.id ≠ .nil := hb.ne_nil (by simp)
      have hup : h.Reaches p.turns a'.id := by
        cases d with
        | left => exact ih _ _ _ _ hb
        | right => exact ih _ _ _ _ hb
      have hn := hb.focus (p := p) (d := d) (c := c') (x := .node c l a r) (a := a') (y := u)
      have hchild : (a'.node c' p.parent d (Shape.node c l a r).top u.top).child d = a.id :=
        Row.child_node ..
      exact hchild ▸ .child d hup hn (hchild ▸ hne)

theorem FreshTree.reaches_mem (hb : h.FreshTree t) : (∃ ds, h.Reaches ds i) ↔ i ∈ t.ids := by
  constructor
  · rintro ⟨ds, hi⟩
    obtain ⟨p, c, l, a, r, rfl, -, rfl⟩ := hb.reaches_iff.1 hi
    simp
  · intro hi
    obtain ⟨p, c, l, a, r, rfl, rfl⟩ := Shape.exists_plug hi
    exact ⟨p.turns, hb.reaches_iff.2 ⟨p, c, l, a, r, rfl, rfl, rfl⟩⟩

/-- What the links around a node tell of the last turn on the way to it. -/
theorem FreshTree.reaches_last (hb : h.FreshTree t) (hi : h.Reaches ds i) : ∃ m, h i = some m ∧
    match ds with
    | [] => m.parent = .anchor
    | d :: ds => h.Reaches ds m.parent ∧
        ∃ n, h m.parent = some n ∧ n.child d = i ∧ n.child d.other ≠ i := by
  obtain ⟨p, c, l, a, r, rfl, rfl, rfl⟩ := hb.reaches_iff.1 hi
  refine ⟨_, hb.focus (d := .left), ?_⟩
  cases p with
  | top => rfl
  | under d c' a' u p =>
    have hup : h.Reaches p.turns a'.id := by
      refine hb.reaches_iff.2 ?_
      cases d with
      | left => exact ⟨p, c', _, a', u, rfl, rfl, rfl⟩
      | right => exact ⟨p, c', u, a', _, rfl, rfl, rfl⟩
    refine ⟨hup, _, hb.focus (p := p), Row.child_node .., ?_⟩
    rw [Row.child_other_node]
    intro he
    rcases List.mem_cons.1 u.top_mem with hu | hu
    · exact hb.ne_nil (i := a.id) (by simp) (he.symm.trans hu)
    · have hd := (List.nodup_cons.1 (List.nodup_cons.1 hb.distinct).2).2
      rw [(Path.ids_plug_perm ..).nodup_iff] at hd
      exact (List.nodup_append.1 hd).2.2 a.id (by simp) _ (by simp [Path.ids, hu]) he.symm

/-- The links up tell the way to a node, so there is but one. -/
theorem FreshTree.reaches_once (hb : h.FreshTree t) (hi : h.Reaches ds i) (hi' : h.Reaches ds' i) :
    ds = ds' := by
  induction ds generalizing i ds' with
  | nil =>
    obtain ⟨m, hm, htop⟩ := hb.reaches_last hi
    obtain ⟨m', hm', hlast⟩ := hb.reaches_last hi'
    obtain rfl := Option.some.inj (hm.symm.trans hm')
    cases ds' with
    | nil => rfl
    | cons d' ds' => exact absurd htop (hb.ne_anchor (hb.reaches_mem.1 ⟨_, hlast.1⟩))
  | cons d ds ih =>
    obtain ⟨m, hm, hup, n, hn, hside, hother⟩ := hb.reaches_last hi
    obtain ⟨m', hm', hlast⟩ := hb.reaches_last hi'
    obtain rfl := Option.some.inj (hm.symm.trans hm')
    cases ds' with
    | nil => exact absurd hlast (hb.ne_anchor (hb.reaches_mem.1 ⟨_, hup⟩))
    | cons d' ds' =>
      obtain ⟨hup', n', hn', hside', -⟩ := hlast
      obtain rfl := Option.some.inj (hn.symm.trans hn')
      rw [ih hup hup']
      congr 1
      cases d with
      | left => cases d' with
        | left => rfl
        | right => exact absurd hside' hother
      | right => cases d' with
        | left => exact absurd hside' hother
        | right => rfl

end Heap

/-! ## The slots that nothing is in -/

namespace Content

variable {x x' : Content K V}

/-- All empty slots are listed as vacant. -/
def Listed (x : Content K V) : Prop :=
  ∀ id < x.slots.size, x.ref? id = none → id ∈ x.vacant

theorem Listed.congr (h : x.Listed) (hslots : x'.slots = x.slots) (hvacant : x'.vacant = x.vacant) :
    x'.Listed := by
  intro id hid hnone
  rw [hvacant]
  rw [hslots] at hid
  rw [ref?, hslots] at hnone
  exact h id hid hnone

theorem Listed.make (h : x.Listed) (hx : x.Sound) (n : Node K V) : (x.make n).2.Listed := by
  intro id hid hnone
  rw [hx.ref_make] at hnone
  split_ifs at hnone with hne
  unfold Content.make at hid hne ⊢
  cases hv : x.vacant with
  | nil =>
    simp only [hv, Array.size_push] at hid hne
    have hlt : id < x.slots.size := Nat.lt_of_le_of_ne (Nat.le_of_lt_succ hid) hne
    exact absurd (h id hlt hnone) (by simp [hv])
  | cons i rest =>
    simp only [hv, Array.size_setIfInBounds] at hid hne ⊢
    have hmem := h id hid hnone
    rw [hv] at hmem
    exact (List.mem_cons.1 hmem).resolve_left hne

theorem Listed.vacate (h : x.Listed) (i : NodeId) : (x.vacate i).Listed := by
  intro id hid hnone
  rw [ref_vacate] at hnone
  by_cases hi : id = i
  · exact hi ▸ List.mem_cons_self
  · rw [if_neg hi] at hnone
    exact List.mem_cons_of_mem _ (h id (by simpa [Content.vacate] using hid) hnone)

theorem Allots.listed (h : x.Allots x') (hx : x.Sound) (hl : x.Listed) : x'.Listed := by
  cases h with
  | none hslots hvacant => exact hl.congr hslots hvacant
  | taken n hslots hvacant => exact (hl.make hx n).congr hslots hvacant
  | vacated id hid hslots hvacant => exact (hl.vacate id).congr hslots hvacant

/-- There are no more slots than before, or none of them is vacant. -/
theorem Allots.slots_size (h : x.Allots x') : x'.slots.size = x.slots.size ∨
    x'.vacant = [] ∧ x.slots.size < x'.slots.size := by
  cases h with
  | none hslots hvacant => exact .inl (by rw [hslots])
  | taken n hslots hvacant =>
    rw [hslots, hvacant]
    unfold Content.make
    cases hv : x.vacant with
    | nil => exact .inr ⟨rfl, by simp⟩
    | cons id rest => exact .inl (by simp)
  | vacated id hid hslots hvacant => exact .inl (by simp [hslots, Content.vacate])

/-- Each slot is vacant, is one of the two reserved ones, or is one of the others in use. -/
theorem Sound.slots_perm (hx : x.Sound) (hl : x.Listed) {ids : List NodeId}
    (hd : (NodeId.nil :: NodeId.anchor :: ids).Nodup)
    (hids : ∀ i, i ∈ NodeId.nil :: NodeId.anchor :: ids ↔ ∃ r, x.ref? i = some r) :
    (x.vacant ++ .nil :: .anchor :: ids).Perm (List.range x.slots.size) := by
  refine (List.perm_ext_iff_of_nodup ?_ List.nodup_range).2 fun i => ?_
  · refine List.nodup_append.2 ⟨hx.nodup, hd, ?_⟩
    rintro i hi _ hj rfl
    obtain ⟨r, hr⟩ := (hids i).1 hj
    exact absurd ((hx.vacant i hi).2.symm.trans hr) (by simp)
  · rw [List.mem_append, List.mem_range, hids]
    constructor
    · rintro (hi | ⟨r, hr⟩)
      · exact (hx.vacant i hi).1
      · exact ref_lt hr
    · intro hi
      cases hr : x.ref? i with
      | none => exact .inl (hl i hi hr)
      | some r => exact .inr ⟨r, rfl⟩

theorem SettledTree.slots_perm (hx : x.SettledTree t) (hl : x.Listed) :
    (x.vacant ++ .nil :: .anchor :: t.ids).Perm (List.range x.slots.size) :=
  hx.tidy.sound.slots_perm hl hx.tidy.tree.distinct fun i =>
    ⟨hx.tidy.ref_some, fun ⟨r, hr⟩ => hx.used i r hr⟩

end Content

namespace Store

variable {s : Store K V}

/-- The slots in use are the reserved ones and those that the links lead to, each in one way; their
number is the count of entries. The others are listed as vacant, each once. -/
structure Stocked (s : Store K V) : Prop where
  occupied : ∀ id, id ≠ .nil → id ≠ .anchor →
    ((s.ref? id).isSome ↔ ∃ ds, Heap.Reaches s.node? ds id)
  once : ∀ ds ds' id, Heap.Reaches s.node? ds id → Heap.Reaches s.node? ds' id → ds = ds'
  reserved : (s.ref? .nil).isSome ∧ (s.ref? .anchor).isSome
  len : s.len = UInt64.ofNat s.size
  vacant : ∀ id, s.vacant.count id = if id < s.slots.size ∧ s.ref? id = none then 1 else 0

theorem UnlatchedTree.stocked (hs : s.UnlatchedTree t) (hl : s.content.Listed) : s.Stocked := by
  have hx := hs.settled
  have hb := hx.tidy.tree
  refine ⟨fun id hnil hanchor => ?_, fun ds ds' id => hb.reaches_once, ⟨?_, ?_⟩, ?_, fun id => ?_⟩
  · refine Iff.trans ⟨fun h => ?_, fun hid => ?_⟩ hb.reaches_mem.symm
    · obtain ⟨r, hr⟩ := Option.isSome_iff_exists.1 h
      have hid := hx.used id r hr
      simpa [hnil, hanchor] using hid
    · obtain ⟨r, hr⟩ := hx.tidy.ref_some (i := id) (by simp [hid])
      exact Option.isSome_iff_exists.2 ⟨r, hr⟩
  · exact Option.isSome_iff_exists.2 ⟨_, hx.tidy.sound.nil⟩
  · exact Option.isSome_iff_exists.2 ⟨_, hx.tidy.sound.anchor⟩
  · have hlen := (hx.slots_perm hl).length_eq
    simp only [List.length_append, List.length_cons, Shape.length_ids, List.length_range] at hlen
    have hsize : s.size = t.size := by
      change s.content.slots.size - s.content.vacant.length - 2 = t.size
      omega
    exact hsize ▸ hx.entries
  · have hmem : id ∈ s.vacant ↔ id < s.slots.size ∧ s.ref? id = none :=
      ⟨hx.tidy.sound.vacant id, fun h => hl id h.1 h.2⟩
    split_ifs with h
    · exact List.count_eq_one_of_mem hx.tidy.sound.nodup (hmem.2 h)
    · exact List.count_eq_zero_of_not_mem fun hid => h (hmem.1 hid)

theorem size_le_capacity (s : Store K V) : s.size ≤ s.capacity := by
  rw [size, capacity]
  omega

/-! ## The number of slots -/

theorem capacity_of_allots {s' : Store K V} (h : s.content.Allots s'.content) :
    s'.capacity = s.capacity ∨ s'.capacity = s'.size ∧ s.capacity ≤ s'.capacity := by
  refine h.slots_size.imp (fun h => congrArg (· - 2) h) fun ⟨hvacant, hlt⟩ => ⟨?_, ?_⟩
  · change s'.vacant = [] at hvacant
    rw [capacity, size, hvacant]
    rfl
  · exact Nat.sub_le_sub_right hlt.le 2

theorem UnlatchedTree.update_slots (hs : s.UnlatchedTree t) (hl : s.content.Listed)
    (cmp : K → K → Ordering) (u : Update K V) : ∃ old s' t', s.update cmp u = (.ok old, s') ∧
      s'.UnlatchedTree t' ∧ s'.content.Listed ∧
        (s'.capacity = s.capacity ∨ s'.capacity = s'.size ∧ s.capacity ≤ s'.capacity) := by
  obtain ⟨old, s', g', hrun, ⟨rfl, hallots, t', ht', -⟩, hw⟩ :=
    (u.ensures_allots (R := fun _ => True) cmp hs.settled (size_lt_patience hs.settled.tidy)
      fun _ _ _ => trivial).run hs.shows []
  exact ⟨old, s', t', hrun, ⟨ht', hw⟩, hallots.listed hs.settled.tidy.sound hl,
    capacity_of_allots hallots⟩

/-- The slots are as many as they were, or as many as were in use at one time. -/
theorem UnlatchedTree.updates_slots (hs : s.UnlatchedTree t) (hl : s.content.Listed)
    (cmp : K → K → Ordering) (us : List (Update K V)) : ∃ olds s' t',
      s.updates cmp us = (.ok olds, s') ∧ s'.UnlatchedTree t' ∧ s'.content.Listed ∧
      s.capacity ≤ s'.capacity ∧
      (∀ us', us' <+: us → (s.updates cmp us').2.size ≤ s'.capacity) ∧
      (s'.capacity = s.capacity ∨ ∃ us', us' <+: us ∧ s'.capacity = (s.updates cmp us').2.size) := by
  induction us generalizing s t with
  | nil =>
    refine ⟨[], s, t, rfl, hs, hl, le_rfl, fun us' hus' => ?_, .inl rfl⟩
    rw [List.prefix_nil.1 hus']
    exact s.size_le_capacity
  | cons u us ih =>
    obtain ⟨old, s₁, t₁, hu, hs₁, hl₁, hcap₁⟩ := hs.update_slots hl cmp u
    obtain ⟨olds, s₂, t₂, hus, hs₂, hl₂, hle, hall, hone⟩ := ih hs₁ hl₁
    have hcons : ∀ us', (s.updates cmp (u :: us')).2 = (s₁.updates cmp us').2 := by
      intro us'
      rw [Store.updates, hu]
      simp only
      rcases hrun : s₁.updates cmp us' with ⟨_ | _, s'⟩ <;> rfl
    have hle₁ : s.capacity ≤ s₁.capacity := hcap₁.elim (fun h => h.ge) fun h => h.2
    refine ⟨old :: olds, s₂, t₂, by rw [Store.updates, hu]; simp only [hus], hs₂, hl₂,
      hle₁.trans hle, fun us' hus' => ?_, ?_⟩
    · rcases List.prefix_cons_iff.1 hus' with rfl | ⟨us'', rfl, hus''⟩
      · exact s.size_le_capacity.trans (hle₁.trans hle)
      · exact hcons us'' ▸ hall us'' hus''
    · rcases hone with h₂ | ⟨us', hus', h₂⟩
      · rcases hcap₁ with h₁ | ⟨h₁, -⟩
        · exact .inl (h₂.trans h₁)
        · exact .inr ⟨[u], by simp, (h₂.trans h₁).trans (congrArg size (hcons [])).symm⟩
      · exact .inr ⟨u :: us', List.prefix_cons_inj u |>.2 hus', hcons us' ▸ h₂⟩

theorem listed_empty (spin : Bool) : (Store.empty spin : Store K V).content.Listed := by
  rintro (_ | _ | id) hid hnone
  · exact absurd hnone (by simp [content, Store.empty, Content.ref?])
  · exact absurd hnone (by simp [content, Store.empty, Content.ref?])
  · exact absurd hid (by simp [content, Store.empty])

/-- Whatever the comparison of keys says, updates of a new tree leave exactly the slots in use that the
links lead to, and there are as many slots as entries were in the tree at any one time. -/
theorem slots_updates (cmp : K → K → Ordering) (spin : Bool) (us : List (Update K V)) :
    ∃ olds s, (Store.empty spin).updates cmp us = (.ok olds, s) ∧ s.Stocked ∧
      IsGreatest {n | ∃ us', us' <+: us ∧ n = ((Store.empty spin).updates cmp us').2.size}
        s.capacity ∧
      (s.capacity < 2 ^ 64 → s.len.toNat = s.size ∧
        IsGreatest {n | ∃ us', us' <+: us ∧ n = ((Store.empty spin).updates cmp us').2.len.toNat}
          s.capacity) := by
  obtain ⟨olds, s, t, hrun, hs, hl, -, hall, hone⟩ :=
    (UnlatchedTree.empty spin).updates_slots (listed_empty spin) cmp us
  have hgreatest : IsGreatest
      {n | ∃ us', us' <+: us ∧ n = ((Store.empty spin).updates cmp us').2.size} s.capacity := by
    refine ⟨?_, ?_⟩
    · rcases hone with hone | hone
      · exact ⟨[], List.nil_prefix, hone⟩
      · exact hone
    · rintro n ⟨us', hus', rfl⟩
      exact hall us' hus'
  refine ⟨olds, s, hrun, hs.stocked hl, hgreatest, fun hlt => ?_⟩
  have hlen : ∀ us', us' <+: us → ((Store.empty spin).updates cmp us').2.len.toNat =
      ((Store.empty spin).updates cmp us').2.size := by
    intro us' hus'
    have hle := hall us' hus'
    obtain ⟨_, s', t', hrun', hs', hl', -⟩ :=
      (UnlatchedTree.empty spin).updates_slots (listed_empty spin) cmp us'
    rw [hrun'] at hle ⊢
    rw [(hs'.stocked hl').len, UInt64.toNat_ofNat']
    exact Nat.mod_eq_of_lt (hle.trans_lt hlt)
  refine ⟨?_, ?_⟩
  · have h := hlen us List.prefix_rfl
    rwa [hrun] at h
  · have hset : {n | ∃ us', us' <+: us ∧ n = ((Store.empty spin).updates cmp us').2.len.toNat} =
        {n | ∃ us', us' <+: us ∧ n = ((Store.empty spin).updates cmp us').2.size} :=
      Set.ext fun n => exists_congr fun us' => and_congr_right fun hus' => by rw [hlen us' hus']
    rwa [hset]

end Store

end LatchTree
