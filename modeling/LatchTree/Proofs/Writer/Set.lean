import LatchTree.Proofs.Writer.Seek

/-!
Setting an entry: from a settled tree to a settled tree, with one row changed or one more.
-/

namespace LatchTree

variable {K V : Type} {cmp : K → K → Ordering} {R : Shape K V → Prop} {k : K} {v : V}
  {x x' : Content K V}
  {t : Shape K V} {p : Path K V}

/-- A tidy tree between two operations: it keeps the rules of colours, all its nodes have entries,
which are counted, and no other slot is in use. -/
structure Content.SettledTree (x : Content K V) (t : Shape K V) : Prop where
  tidy : x.TidyTree t
  colors : ∃ n, t.RedBlack n
  filled : t.Filled
  entries : x.entries = UInt64.ofNat t.size
  used : ∀ i r, x.ref? i = some r → i ∈ NodeId.nil :: NodeId.anchor :: t.ids

/-- What an update does to the slots: they stay, or one is taken or vacated. -/
inductive Content.Allots (x x' : Content K V) : Prop
  | none (hslots : x'.slots = x.slots) (hvacant : x'.vacant = x.vacant)
  | taken (n : Node K V) (hslots : x'.slots = (x.make n).2.slots)
      (hvacant : x'.vacant = (x.make n).2.vacant)
  | vacated (id : NodeId) (hid : x.ref? id ≠ .none) (hslots : x'.slots = (x.vacate id).slots)
      (hvacant : x'.vacant = (x.vacate id).vacant)

/-- What setting `v` for `k` answers, and what rows it leaves. -/
inductive Shape.Sets (cmp : K → K → Ordering) (k : K) (v : V) (t : Shape K V) :
    Option V → List (Row K V) → Prop
  | present {p : Path K V} {c : Color} {l r : Shape K V} {a : Row K V}
      (ht : t = p.plug (.node c l a r)) (hp : p.Leads cmp k) (ha : a.order cmp k = .eq) :
      Sets cmp k v t a.value
        (p.before ++ (l.rows ++ { a with value := some v } :: r.rows) ++ p.after)
  | absent {p : Path K V} (i : NodeId) (ht : t = p.plug .nil) (hp : p.Leads cmp k) :
      Sets cmp k v t none (p.before ++ [⟨i, some k, some v⟩] ++ p.after)

/-- No node of the tree is above more nodes than there are. -/
theorem Path.length_le_size (p : Path K V) (t : Shape K V) : p.length ≤ (p.plug t).size := by
  have h := (p.ids_plug_perm t).length_eq
  rw [Shape.length_ids, List.length_append] at h
  have hp := p.length_le_ids
  omega

/-! ## One row more -/

namespace Shape

theorem rows_perm (p : Path K V) (c : Color) (l : Shape K V) (a : Row K V) (r : Shape K V) :
    (p.plug (.node c l a r)).rows.Perm (a :: (p.before ++ (l.rows ++ r.rows) ++ p.after)) := by
  have hmiddle : (p.before ++ l.rows ++ a :: (r.rows ++ p.after)).Perm
      (a :: (p.before ++ l.rows ++ (r.rows ++ p.after))) := List.perm_middle
  rw [Path.rows_plug, rows]
  simpa using hmiddle

section

variable {t' : Shape K V} {a : Row K V} (h : t'.rows.Perm (a :: t.rows))

include h

theorem mem_ids_of_perm {i : NodeId} : i ∈ t'.ids ↔ i = a.id ∨ i ∈ t.ids :=
  (h.map Row.id).mem_iff.trans List.mem_cons

theorem size_of_perm : t'.size = t.size + 1 :=
  h.length_eq

theorem Filled.insert (hf : t.Filled) (hk : a.key ≠ none) (hv : a.value ≠ none) : t'.Filled := by
  intro b hb
  rcases List.mem_cons.1 (h.mem_iff.1 hb) with rfl | hb
  · exact ⟨hk, hv⟩
  · exact hf b hb

theorem Filled.erase (hf : t'.Filled) : t.Filled :=
  fun b hb => hf b (h.mem_iff.2 (List.mem_cons_of_mem a hb))

end

end Shape

namespace Content

theorem Keeps.used (h : x.Keeps x') {ids : List NodeId}
    (hu : ∀ i r, x.ref? i = some r → i ∈ ids) : ∀ i r, x'.ref? i = some r → i ∈ ids :=
  fun i r hr => hu i r (h.ref i ▸ hr)

theorem Allots.keeps {x'' : Content K V} (h : x.Allots x') (hk : x'.Keeps x'') : x.Allots x'' := by
  cases h with
  | none hslots hvacant => exact .none (hk.slots.trans hslots) (hk.vacant.trans hvacant)
  | taken n hslots hvacant => exact .taken n (hk.slots.trans hslots) (hk.vacant.trans hvacant)
  | vacated id hid hslots hvacant =>
    exact .vacated id hid (hk.slots.trans hslots) (hk.vacant.trans hvacant)

/-- A request that leaves the tree and its nodes as they are. -/
theorem Changes.still {g : Grips} (hx : x.TidyTree t) (hx' : x'.TidyTree t)
    (hframe : ∀ r < x.made, x'.node r = x.node r)
    (hrefs : ∀ i ∈ NodeId.nil :: NodeId.anchor :: t.ids, x'.ref? i = x.ref? i)
    (hmade : x.made ≤ x'.made) (hrel : x'.relocations = x.relocations) :
    Changes cmp g x x' t t :=
  ⟨hx, hx', fun r hr _ => hframe r hr, hrefs, hmade, [], by simp, .inl ⟨hrel, .reshape .refl⟩⟩

/-- Only the count of entries changes. -/
theorem TidyTree.count (hx : x.TidyTree t) (n : UInt64) : TidyTree { x with entries := n } t :=
  ⟨⟨hx.sound.nil, hx.sound.anchor, hx.sound.made, hx.sound.inj, hx.sound.vacant, hx.sound.nodup⟩,
    hx.tree, hx.childless⟩

theorem Settles.keeps {n : Nat} (h : x.Settles t n x') : x.Keeps x' := by
  obtain ⟨t', n', -, hk, -⟩ := h
  exact hk

/-- After a fix-up the tree is settled, if nothing but its colours was in the way. -/
theorem Settles.settledTree {n : Nat} (h : x.Settles t n x')
    (hfilled : t.Filled)
    (hentries : x.entries = UInt64.ofNat t.size)
    (hused : ∀ i r, x.ref? i = some r → i ∈ NodeId.nil :: NodeId.anchor :: t.ids) :
    ∃ t', x'.SettledTree t' ∧ t'.rows = t.rows := by
  obtain ⟨t', n', hx', hk, hrows, hrb, -⟩ := h
  refine ⟨t', ⟨hx', ⟨n', hrb⟩, fun a ha => hfilled a (hrows ▸ ha), ?_, ?_⟩, hrows⟩
  · rw [hk.entries, hentries, Shape.size, Shape.size, hrows]
  · rw [Shape.ids, hrows]
    exact hk.used hused

/-- The value of the node `r` is set. -/
def assign (x : Content K V) (r : Ref) (v : V) : Content K V :=
  { x with node := fun i => if i = r then { x.node i with value := some v } else x.node i }

theorem node_assign (x : Content K V) (r i : Ref) (v : V) : (x.assign r v).node i =
    if i = r then { x.node i with value := some v } else x.node i := rfl

end Content

namespace Program.Ensures

theorem countUp {Q : Unit → Content K V → Grips → Prop} {g : Grips} (hx : x.TidyTree t)
    (h : Q () { x with entries := x.entries + 1 } g) :
    (Program.request .countUp).Ensures cmp R x g Q :=
  .change trivial Request.yields_countUp
    (.still hx (hx.count _) (fun _ _ => rfl) (fun _ _ => rfl) le_rfl rfl) (.inl rfl) h

theorem countDown {Q : Unit → Content K V → Grips → Prop} {g : Grips} (hx : x.TidyTree t)
    (h : Q () { x with entries := x.entries - 1 } g) :
    (Program.request .countDown).Ensures cmp R x g Q :=
  .change trivial Request.yields_countDown
    (.still hx (hx.count _) (fun _ _ => rfl) (fun _ _ => rfl) le_rfl rfl) (.inl rfl) h

theorem alloc {Q : NodeId → Content K V → Grips → Prop} {g : Grips} {n : Node K V}
    (hx : x.TidyTree t) (hl : n.left = .nil) (hr : n.right = .nil)
    (h : Q (x.make n).1 (x.make n).2 g) : (Program.request (.alloc n)).Ensures cmp R x g Q := by
  refine .change trivial (Request.yields_alloc n) (.still hx (hx.make hl hr) (fun r hr => ?_)
    (fun i hi => hx.ref_make n hi) (by simp) (by simp)) (.inl rfl) h
  rw [Content.node_make, if_neg hr.ne]

/-! ## Overwriting -/

/-- Only the value of the node changes. -/
theorem overwrite {Q : Option V → Content K V → Grips → Prop} {c : Color} {l r : Shape K V}
    {a : Row K V} {s : Ref} (hx : x.SettledTree (p.plug (.node c l a r))) (hs : x.ref? a.id = some s)
    (h : (x.assign s v).SettledTree (p.plug (.node c l { a with value := some v } r)) →
      Q a.value (x.assign s v) .free) :
    (LockSet.within [a.id] (some (a.id, s)) { edit := Edit.overwrite a.id v }).Ensures cmp R x
      (.only s .reserving) Q := by
  have hids : (p.plug (.node c l { a with value := some v } r)).ids =
      (p.plug (.node c l a r)).ids := by
    simp [Shape.ids, Path.rows_plug, Shape.rows]
  have hmove : (p.plug (.node c l a r)).Reshape [a.id]
      (p.plug (.node c l { a with value := some v } r)) := .assign (d := .left) v (by simp)
  refine .within_frame hx.tidy (fun i hi _ => ?_) (fun m hm => ?_)
    ((Edit.overwrite_makes (d := .left) v hx.tidy.tree (by simp)).mono
      fun old h' hm => ⟨hm.1, hm.2, fun i hi hi' => absurd (hids ▸ hi) hi'⟩)
    (.reshape (.single hmove)) (.inl hmove.keys) fun x' hx' hk hframe hrel => ?_
  · simp [List.mem_singleton.1 hi]
  · obtain rfl := Option.mem_some_iff.1 hm
    exact ⟨by simp, hx.tidy.tree.ne_nil (by simp), hs⟩
  have hassign : x' = x.assign s v := by
    have hnode : ∀ i, x'.node i = (x.assign s v).node i := by
      intro i
      by_cases hi : i = s
      · subst hi
        have hn := Content.TidyTree.focus (d := .left) hx.tidy
        have hn' := Content.TidyTree.focus (d := .left) hx'
        rw [Content.heap_of_ref hs] at hn
        rw [Content.heap_of_ref ((hk.ref _).trans hs)] at hn'
        rw [Option.some.inj hn', Content.node_assign, if_pos rfl, Option.some.inj hn]
        rfl
      · rw [Content.node_assign, if_neg hi]
        refine hframe i fun j hj hr => hi ?_
        rw [List.mem_singleton.1 hj, hs] at hr
        exact (Option.some.inj hr).symm
    cases x'
    simp only [Content.assign, Content.mk.injEq]
    exact ⟨funext hnode, hk.made, hk.slots, hk.vacant, hk.entries, hrel⟩
  subst hassign
  refine h ⟨hx', ?_, ?_, ?_, ?_⟩
  · obtain ⟨n, hn⟩ := hx.colors
    exact ⟨n, Path.redBlack_row (d := .left) _ hn⟩
  · exact hmove.filled hx.filled
  · rw [hk.entries, hx.entries, ← Shape.length_ids, ← Shape.length_ids, ← hids]
  · intro i ref href
    have hi := hx.used i ref ((hk.ref i) ▸ href)
    rw [← hids] at hi
    exact hi

/-! ## Linking -/

/-- A new node is made, hung where the search for its key ended, and counted. -/
theorem hang {Q : Unit → Content K V → Grips → Prop} {f : NodeId → Program K V Unit} {s : Ref}
    (c : Color) (hx : x.SettledTree (p.plug .nil)) (hp : p.Leads cmp k)
    (hs : x.ref? p.parent = some s)
    (hR : ∀ i, R (p.plug (.node c .nil ⟨i, some k, some v⟩ .nil)))
    (h : ∀ x' i, x'.TidyTree (p.plug (.node c .nil ⟨i, some k, some v⟩ .nil)) →
      x'.entries = x.entries + 1 →
      (∀ j r, x'.ref? j = some r →
        j ∈ NodeId.nil :: NodeId.anchor :: (p.plug (.node c .nil ⟨i, some k, some v⟩ .nil)).ids) →
      x.Allots x' →
      (f i).Ensures cmp R x' .free Q) :
    Ensures cmp R (do
      let z ← Program.request (.alloc { Node.entry k v with parent := p.parent, color := c })
      let _ ← LockSet.within [p.parent] (some (p.parent, s))
        (Section.plain (Edit.modify p.parent (·.setChild p.side z)))
      Program.request .countUp
      f z) x (.only s .reserving) Q := by
  have hparent := p.parent_mem
  let n : Node K V := { Node.entry k v with parent := p.parent, color := c }
  let a : Row K V := ⟨(x.make n).1, some k, some v⟩
  refine .bind (.alloc hx.tidy rfl rfl ?_)
  have hx₁ := hx.tidy.make (n := n) rfl rfl
  have hnew : a.id ∉ NodeId.nil :: NodeId.anchor :: (p.plug .nil).ids := hx.tidy.not_mem_make n
  have ha : (x.make n).2.heap a.id = some (a.node c p.parent .left .nil .nil) :=
    hx.tidy.sound.heap_make n
  have hpa : p.parent ∈ NodeId.anchor :: (p.plug .nil : Shape K V).ids := by
    simp only [List.mem_cons, Path.mem_ids_plug] at hparent ⊢
    tauto
  have hs₁ : (x.make n).2.ref? p.parent = some s :=
    (hx.tidy.ref_make n (List.mem_cons_of_mem _ hpa)).trans hs
  have hpnil : p.parent ≠ .nil := by
    intro he
    exact (List.nodup_cons.1 hx.tidy.tree.distinct).1 (he ▸ hpa)
  simp only [List.mem_cons, not_or] at hnew
  have hlink : (p.plug .nil).Rewrite cmp [p.parent] (p.plug (.node c .nil a .nil)) :=
    .link rfl (Option.some_ne_none v) hp hnew.2.2
  refine .bind (.within (v := none) hx₁ (fun i hi _ => ?_) (fun m hm => ?_) ?_ hlink (.inr (hR _))
    fun x₂ hx₂ hk₂ => ?_)
  · rw [List.mem_singleton.1 hi]
    exact hpa
  · obtain rfl := Option.mem_some_iff.1 hm
    exact ⟨by simp, hpnil, hs₁⟩
  · refine .bind ((Edit.link_makes hx₁.tree ha hnew.2.2 hnew.1 hnew.2.1 (by simp)).mono
      fun _ h' hb => .pure ⟨rfl, hb, fun i hi hi' => absurd ?_ hi'⟩)
    rw [Path.mem_ids_plug] at hi ⊢
    exact .inr (hi.resolve_left List.not_mem_nil)
  · refine .bind (.countUp hx₂ (h _ _ (hx₂.count _) ?_ (fun i r hr => ?_)
      (.taken n hk₂.slots hk₂.vacant)))
    · simp only
      rw [hk₂.entries, Content.entries_make]
    · have hr₁ : (x.make n).2.ref? i = some r := (hk₂.ref i).symm.trans hr
      rw [hx.tidy.sound.ref_make] at hr₁
      split_ifs at hr₁ with hi
      · simp [hi, n]
      · have hu := hx.used i r hr₁
        simp only [List.mem_cons, Path.mem_ids_plug, Shape.ids_nil, Shape.ids_node] at hu ⊢
        tauto

theorem link {Q : Unit → Content K V → Grips → Prop} {s : Ref} {fuel : Nat}
    (hx : x.SettledTree (p.plug .nil)) (hp : p.Leads cmp k) (hs : x.ref? p.parent = some s)
    (hfuel : (p.plug .nil : Shape K V).size < fuel)
    (hR : ∀ i t', t'.rows = p.before ++ [⟨i, some k, some v⟩] ++ p.after → R t')
    (h : ∀ x' t' i, x'.SettledTree t' → t'.rows = p.before ++ [⟨i, some k, some v⟩] ++ p.after →
      x.Allots x' → Q () x' .free) :
    (Tree.link fuel k v p.side.ordering p.parent s).Ensures cmp R x (.only s .reserving) Q := by
  unfold Tree.link
  rw [Node.sideOf_ordering]
  have hrows : ∀ (i : NodeId) (c : Color), (p.plug (.node c .nil ⟨i, some k, some v⟩ .nil)).rows =
      p.before ++ [⟨i, some k, some v⟩] ++ p.after := by
    intro i c
    simp [Path.rows_plug, Shape.rows]
  refine .hang _ hx hp hs (fun i => hR i _ (hrows i _)) fun x' i hx' hentries hused hallots => ?_
  replace hrows := hrows i
  have hperm : ∀ c : Color, (p.plug (.node c .nil ⟨i, some k, some v⟩ .nil)).rows.Perm
      (⟨i, some k, some v⟩ :: (p.plug .nil : Shape K V).rows) := fun c => by
    rw [Path.rows_plug p .nil]
    exact Shape.rows_perm p c .nil ⟨i, some k, some v⟩ .nil
  have hfilled : ∀ c : Color, (p.plug (.node c .nil ⟨i, some k, some v⟩ .nil)).Filled := fun c =>
    .insert (hperm c) hx.filled (Option.some_ne_none k) (Option.some_ne_none v)
  have hentries' : ∀ c : Color, x'.entries =
      UInt64.ofNat (p.plug (.node c .nil ⟨i, some k, some v⟩ .nil)).size := by
    intro c
    rw [hentries, hx.entries, Shape.size_of_perm (hperm c), UInt64.ofNat_add]
    rfl
  obtain ⟨m, hm⟩ := hx.colors
  unfold Tree.settle
  by_cases hanchor : p.parent = .anchor
  · have htop : p = .top := by
      cases p with
      | top => rfl
      | under d c a u p => exact absurd hanchor (hx.tidy.tree.ne_anchor (by simp))
    subst htop
    rw [if_pos hanchor] at hx' hused ⊢
    refine .pure (h x' _ i ⟨hx', ⟨1, rfl, ?_, 0, rfl, rfl, rfl⟩, hfilled _, hentries' _, hused⟩
      (hrows _) hallots)
    simp [Path.plug, Shape.Calm]
  · rw [if_neg hanchor] at hx' hused ⊢
    obtain ⟨hpc, -, -⟩ := Path.calm_plug.1 hm.calm
    obtain ⟨j, hj, hpe⟩ := Path.even_plug.1 hm.even
    refine (Ensures.insertFixUp (n := m) hx' rfl (by simp [Shape.Calm]) hpc
      (Path.rooted_of_redBlack hm) ?_ ?_).mono fun _ x'' g' hq => ?_
    · exact Path.even_plug.2 ⟨0, ⟨0, rfl, rfl, rfl⟩, (show j = 0 from hj) ▸ hpe⟩
    · have hle := p.length_le_size (.nil : Shape K V)
      omega
    · obtain ⟨hs, rfl⟩ := hq
      obtain ⟨t', ht', hrows'⟩ := hs.settledTree (hfilled _) (hentries' _) hused
      exact h x'' t' i ht' (hrows'.trans (hrows _)) (hallots.keeps hs.keeps)

/-- Either the descent comes to a node that compares equal with `k`, or a node is linked where it ends. -/
theorem set_cases {Q : Option V → Content K V → Grips → Prop} {fuel : Nat} (hx : x.SettledTree t)
    (hfuel : t.size < fuel) (hR : ∀ old t', t.Sets cmp k v old t'.rows → R t')
    (hfound : ∀ (p : Path K V) c l a r s, t = p.plug (.node c l a r) → p.Leads cmp k →
      a.order cmp k = .eq → x.ref? a.id = some s →
      (x.assign s v).SettledTree (p.plug (.node c l { a with value := some v } r)) →
      Q a.value (x.assign s v) .free)
    (hmissing : ∀ (p : Path K V), t = p.plug .nil → p.Leads cmp k → ∀ x' t' i, x'.SettledTree t' →
      t'.rows = p.before ++ [⟨i, some k, some v⟩] ++ p.after → x.Allots x' → Q none x' .free) :
    (Tree.set cmp fuel k v).Ensures cmp R x .free Q := by
  refine .descend hx.tidy hfuel fun y s n hsought => ?_
  cases hsought with
  | @found p c l r a ref ht hp ha href =>
    subst ht
    simp only [Row.order_node, ha, if_true]
    exact .overwrite hx href (hfound p c l a r _ rfl hp ha href)
  | @missing p ref n ht hp href hn =>
    subst ht
    simp only [hn, Side.ordering_ne_eq, if_false]
    refine .bind (.link hx hp href hfuel (fun i t' hrows => hR none t' ?_)
      fun x' t' i hx' hrows hallots => .pure (hmissing p rfl hp x' t' i hx' hrows hallots))
    rw [hrows]
    exact .absent i rfl hp

theorem set {fuel : Nat} (hx : x.SettledTree t) (hfuel : t.size < fuel)
    (hR : ∀ old t', t.Sets cmp k v old t'.rows → R t') :
    (Tree.set cmp fuel k v).Ensures cmp R x .free fun old x' g' =>
      g' = .free ∧ x.Allots x' ∧ ∃ t', x'.SettledTree t' ∧ t.Sets cmp k v old t'.rows := by
  refine .set_cases hx hfuel hR (fun p c l a r s ht hp ha _ hx' => ?_)
    fun p ht hp x' t' i hx' hrows hallots => ?_
  · refine ⟨rfl, .none rfl rfl, _, hx', ?_⟩
    rw [Path.rows_plug]
    exact .present ht hp ha
  · refine ⟨rfl, hallots, t', hx', ?_⟩
    rw [hrows]
    exact .absent i ht hp

end Program.Ensures

end LatchTree
