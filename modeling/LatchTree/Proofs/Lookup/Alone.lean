import LatchTree.Proofs.Lookup.Trust

/-!
A lookup that runs on while no writer does: it ends, and answers with what is bound to the key. Where
it has gone astray the count of relocations sends it back to the start.
-/

namespace LatchTree

variable {K V : Type} {cmp : K → K → Ordering} {k : K} {t : Shape K V} {o : Ref → Nat}
  {s s' : Store K V} {v : Option V} {m n : Nat}

/-- Without a writer all nodes admit readers, and so does the table of slots. -/
theorem Store.Shows.admits {f : Ref → Nat} (hw : s.Shows f .free) (r : Ref) :
    (s.word r).admitsReader = true ∧ s.table.admitsReader = true := by
  constructor
  · rw [hw.word, Latch.Word.admitsReader_compose (Nat.lt_of_succ_lt (hw.fits r))]
    rfl
  · rw [hw.table]
    decide

namespace Lookup

variable {l : Lookup K V}

theorem run_ask {q : Request K V} {next : q.Answer → Lookup K V} {a : q.Answer} {hs : List Hold}
    (hq : l.turn cmp k = .ask q next) (hen : q.enabled s = true) (hserve : q.serve s = (.ok a, s')) :
    run cmp k s hs (n + 1) l = run cmp k s' (q.held hs a) n (next a) := by
  rw [run, hq]
  simp only [hen, if_true, hserve]

/-- Run alone, the lookup ends with `v` after at most `n` requests. -/
inductive Ends (cmp : K → K → Ordering) (k : K) (v : Option V) :
    Nat → Store K V → Lookup K V → Prop
  | finished {n : Nat} {s : Store K V} : Ends cmp k v n s (.finished v)
  | ask {n : Nat} {s s' : Store K V} {l : Lookup K V} {q : Request K V}
      {next : q.Answer → Lookup K V} {a : q.Answer} (hq : l.turn cmp k = .ask q next)
      (hen : q.enabled s = true) (hserve : q.serve s = (.ok a, s'))
      (h : Ends cmp k v n s' (next a)) : Ends cmp k v (n + 1) s l

theorem Ends.mono (h : Ends cmp k v n s l) (hle : n ≤ m) : Ends cmp k v m s l := by
  induction h generalizing m with
  | finished => exact .finished
  | ask hq hen hserve _ ih =>
    obtain ⟨m, rfl⟩ := Nat.exists_eq_succ_of_ne_zero (Nat.ne_of_gt (Nat.zero_lt_of_lt hle))
    exact .ask hq hen hserve (ih (Nat.le_of_succ_le_succ hle))

theorem Ends.run (h : Ends cmp k v n s l) (hs : List Hold) (hlt : n < m) :
    ∃ s', Lookup.run cmp k s hs m l = (.ok v, s') := by
  induction h generalizing m hs with
  | finished =>
    obtain ⟨m, rfl⟩ := Nat.exists_eq_succ_of_ne_zero (Nat.ne_of_gt (Nat.zero_lt_of_lt hlt))
    exact ⟨_, rfl⟩
  | @ask n s s₁ l q next a hq hen hserve _ ih =>
    obtain ⟨m, rfl⟩ := Nat.exists_eq_succ_of_ne_zero (Nat.ne_of_gt (Nat.zero_lt_of_lt hlt))
    obtain ⟨s', hrun⟩ := ih (q.held hs a) (Nat.lt_of_succ_lt_succ hlt)
    exact ⟨s', (run_ask hq hen hserve).trans hrun⟩

/-- A lookup has not to wait where all nodes admit readers. -/
theorem enabled_of_turn (hadmits : ∀ r, (s.word r).admitsReader = true ∧ s.table.admitsReader = true)
    {q : Request K V} {next : q.Answer → Lookup K V} (hq : l.turn cmp k = .ask q next) :
    q.enabled s = true := by
  cases l with
  | start | missed | moving | backing | retreating | answering =>
    cases hq
    rfl
  | atTop | resolving | checking =>
    cases hq
    exact (hadmits 0).2
  | entering | againParent | againChild =>
    cases hq
    exact (hadmits _).1
  | stepping =>
    simp only [Lookup.turn] at hq
    split_ifs at hq
    · cases hq
      exact (hadmits _).1
    · cases hq
      rfl
  | apart =>
    simp only [Lookup.turn] at hq
    split_ifs at hq
    · cases hq
      exact (hadmits _).1
    · cases hq
      exact (hadmits _).1
  | finished => exact absurd hq (by simp [Lookup.turn])

variable {x : Content K V}

theorem Ends.turn (hx : x.TidyTree t) (ho : ∀ i, o i ≤ 2) (hsx : s.content = x)
    (hw : s.Shows (fun i => o i + l.nodes.count i) .free) (hl : l.Fits cmp k x t)
    {q : Request K V} {next : q.Answer → Lookup K V} (hq : l.turn cmp k = .ask q next)
    (h : ∀ a s', s'.content = x → s'.Shows (fun i => o i + (next a).nodes.count i) .free →
      (next a).Fits cmp k x t → q.serve s = (.ok a, s') → Ends cmp k v n s' (next a)) :
    Ends cmp k v (n + 1) s l := by
  subst hsx
  have hen := enabled_of_turn hw.admits hq
  obtain ⟨a, s', hs'⟩ := hl.serves hx hw (fun r _ _ => hl.room ho r) hq hen
  exact .ask hq hen hs'.serve (h a s' hs'.content hs'.shows hs'.fits hs'.serve)

/-- A lookup that ends has let go of all it held, and has changed nothing. -/
theorem Fits.run_keeps {g : Grips} (hx : x.TidyTree t) (ho : ∀ i, o i ≤ 2) (hsx : s.content = x)
    (hw : s.Shows (fun i => o i + l.nodes.count i) g) (hl : l.Fits cmp k x t) {hs : List Hold}
    (hrun : run cmp k s hs n l = (.ok v, s')) : s'.content = x ∧ s'.Shows o g := by
  induction n generalizing s l hs with
  | zero => exact absurd (Prod.mk.inj hrun).1 (by simp)
  | succ n ih =>
    subst hsx
    rw [run] at hrun
    cases hq : l.turn cmp k with
    | done w =>
      rw [hq] at hrun
      obtain ⟨-, rfl⟩ := Prod.mk.inj hrun
      cases l with
      | finished => exact ⟨rfl, hw⟩
      | stepping | apart =>
        simp only [Lookup.turn] at hq
        split_ifs at hq
      | _ => cases hq
    | fault f =>
      rw [hq] at hrun
      exact absurd (Prod.mk.inj hrun).1 (by simp)
    | ask q next =>
      simp only [hq] at hrun
      split_ifs at hrun with hen
      · obtain ⟨a, s₁, hs₁⟩ := hl.serves hx hw (fun r _ _ => hl.room ho r) hq hen
        rw [hs₁.serve] at hrun
        exact ih hs₁.content hs₁.shows hs₁.fits hrun
      · exact absurd (Prod.mk.inj hrun).1 (by simp)

/-! ## One pass -/

section

variable (hx : x.TidyTree t) (ho : ∀ i, o i ≤ 2)

include hx ho

theorem ends_answering {cur : Ref} (hsx : s.content = x)
    (hw : s.Shows (fun i => o i + [cur].count i) .free)
    (hl : (answering cur v).Fits cmp k x t) : Ends cmp k v 1 s (answering cur v) :=
  .turn hx ho hsx hw hl rfl fun _ _ _ _ _ _ => .finished

theorem ends_moving {seen : UInt64} {cur child : Ref} {b : Node K V} (hsx : s.content = x)
    (hw : s.Shows (fun i => o i + [cur, child].count i) .free)
    (hl : (moving seen cur child b).Fits cmp k x t)
    (h : ∀ s', s'.content = x → s'.Shows (fun i => o i + [child].count i) .free →
      Ends cmp k v n s' (visit cmp k seen child b)) :
    Ends cmp k v (n + 1) s (moving seen cur child b) := by
  refine .turn hx ho hsx hw hl rfl fun _ s' hs' hw' _ _ => h s' hs' ?_
  obtain ⟨-, hat, rfl⟩ := hl
  rwa [(Fits.visit cmp k seen hat).2.1] at hw'

theorem ends_stepping {seen : UInt64} {cur child : Ref} {b : Node K V} {next : NodeId}
    (hsx : s.content = x) (hw : s.Shows (fun i => o i + [cur].count i) .free)
    (hl : (stepping seen cur b next child).Fits cmp k x t)
    (h : ∀ s', s'.content = x → s'.Shows (fun i => o i + [child].count i) .free →
      Ends cmp k v n s' (visit cmp k seen child (x.node child))) :
    Ends cmp k v (n + 2) s (stepping seen cur b next child) := by
  have hmove : ∀ s₁ c, s₁.content = x → s₁.Shows (fun i => o i + [cur, child].count i) .free →
      (moving seen cur child c).Fits cmp k x t →
      Ends cmp k v (n + 1) s₁ (moving seen cur child c) := by
    intro s₁ c hs₁ hw₁ hl₁
    obtain rfl := hl₁.2.2
    exact ends_moving hx ho hs₁ hw₁ hl₁ h
  by_cases hlt : cur < child
  · have hq : (stepping seen cur b next child).turn cmp k =
        .ask (.read child) fun c => moving seen cur child c := if_pos hlt
    exact .turn hx ho hsx hw hl hq fun c s₁ hs₁ hw₁ hl₁ _ => hmove s₁ c hs₁ hw₁ hl₁
  · have hq : (stepping seen cur b next child).turn cmp k = .ask (.tryRead child) fun c =>
        c.elim (backing seen cur next child) (moving seen cur child) := by
      rw [turn, if_neg hlt]
      congr
      funext c
      cases c <;> rfl
    refine .turn hx ho hsx hw hl hq fun c s₁ hs₁ hw₁ hl₁ hserve => ?_
    cases c with
    | some c => exact hmove s₁ c hs₁ hw₁ hl₁
    | none =>
      have hadm := (hw.admits child).1
      have hserve' : Request.serve s (.tryRead child) =
          (.ok (some (s.node child)), s.mapWord child .enter) := by
        simp only [Request.serve, hadm, if_true]
      exact absurd (Except.ok.inj (Prod.mk.inj (hserve'.symm.trans hserve)).1)
        (Option.some_ne_none _)

theorem ends_resolving {seen : UInt64} {cur : Ref} {b : Node K V} {next : NodeId}
    (hsx : s.content = x) (hw : s.Shows (fun i => o i + [cur].count i) .free)
    (hl : (resolving seen cur b next).Fits cmp k x t)
    (h : ∀ s' child, x.ref? next = some child → s'.content = x →
      s'.Shows (fun i => o i + [child].count i) .free →
      Ends cmp k v n s' (visit cmp k seen child (x.node child))) :
    Ends cmp k v (n + 3) s (resolving seen cur b next) := by
  refine .turn hx ho hsx hw hl rfl fun child s₁ hs₁ hw₁ hl₁ _ => ?_
  have hchild := hl₁.2.2.2.2.2
  exact ends_stepping hx ho hs₁ hw₁ hl₁ fun s' => h s' child hchild

/-- What was seen at the start is still so: the miss is final. -/
theorem ends_missed {cur : Ref} (hsx : s.content = x)
    (hw : s.Shows (fun i => o i + [cur].count i) .free)
    (hl : (missed x.relocations cur).Fits cmp k x t)
    (hm : ∀ i, x.At t cur i → t.Meets cmp k i) :
    Ends cmp k (t.found cmp k) 2 s (missed x.relocations cur) := by
  obtain ⟨⟨i, hi⟩, hord, hn⟩ := id hl
  obtain ⟨p, hp, hlead⟩ := hi.missed hx hord hn (hm i hi)
  have hfound : none = t.found cmp k := (Shape.Finds.absent hp hlead).eq_found
  refine .ask rfl rfl rfl ?_
  have hrel : s.relocations = x.relocations := congrArg Content.relocations hsx
  rw [if_pos hrel, ← hfound]
  refine ends_answering hx ho hsx hw ⟨⟨i, hi⟩, ?_⟩
  rw [if_neg hord]
  exact ⟨hn, rfl⟩

section

/-! `T` says that the search for `k` comes to where the lookup is. If it does not, a node that compares
equal with `k` still has to be one that the search comes to. -/

variable {T : Prop} {seen : UInt64}
  (hlead : ∀ {p : Path K V} {c : Color} {l : Shape K V} {a : Row K V} {u : Shape K V},
    t = p.plug (.node c l a u) → (T → p.Leads cmp k) → a.order cmp k = .eq → p.Leads cmp k)
  (hmiss : ∀ s' cur', s'.content = x → s'.Shows (fun i => o i + [cur'].count i) .free →
    (missed seen cur').Fits cmp k x t → (T → ∀ i, x.At t cur' i → t.Meets cmp k i) →
    Ends cmp k (t.found cmp k) m s' (missed seen cur'))

include hmiss

/-- From a node to the side on which `k` lies, if every miss ends well. -/
theorem ends_below {p : Path K V} {d : Side} {c : Color} {X Y : Shape K V} {a : Row K V} {cur : Ref}
    (ht : t = p.plug (.join d c X a Y)) (hord : a.order cmp k = d.ordering)
    (hcur : x.ref? a.id = some cur) (hT : T → p.Leads cmp k) (hsx : s.content = x)
    (hw : s.Shows (fun i => o i + [cur].count i) .free)
    (h : X ≠ .nil → ∀ s' child, x.ref? X.top = some child → s'.content = x →
      s'.Shows (fun i => o i + [child].count i) .free →
      Ends cmp k (t.found cmp k) (3 * X.size + m + 1) s' (visit cmp k seen child (x.node child))) :
    Ends cmp k (t.found cmp k) (3 * (Shape.join d c X a Y).size + m + 1) s
      (visit cmp k seen cur (x.node cur)) := by
  have hat : x.At t cur a.id := ⟨hcur, by simp [ht]⟩
  obtain ⟨hfits, -, -⟩ := Fits.visit cmp k seen (x := x) (t := t) ⟨_, hat⟩
  have hnode : x.node cur = a.node c p.parent d X.top Y.top :=
    Content.TidyTree.node_focus (ht ▸ hx) hcur
  have ho' : (x.node cur).order cmp k = d.ordering := by
    rw [hnode, Row.order_node, hord]
  have hnext : (x.node cur).towards cmp k = X.top := by
    rw [Node.towards, ho', Node.sideOf_ordering, hnode, Row.child_node]
  rw [Shape.size_join]
  unfold Lookup.visit at hfits ⊢
  rw [if_neg (ho' ▸ Side.ordering_ne_eq d)] at hfits ⊢
  by_cases hX : X = .nil
  · rw [if_pos (by rw [hnext, hX, Shape.top_nil])] at hfits ⊢
    refine (hmiss s cur hsx hw hfits fun hT' i hi => ?_).mono (by omega)
    obtain rfl := hx.sound.inj _ _ _ hi.ref hcur
    have hd := hx.nodup
    rw [ht] at hd
    rw [ht]
    exact .inr ((Shape.mem_trail_focus cmp k hd).2 (hT hT'))
  · have hXtop : (x.node cur).towards cmp k ≠ .nil := by
      rw [hnext]
      refine hx.tree.ne_nil ?_
      rw [ht]
      simp [Shape.top_mem_ids hX]
    rw [if_neg hXtop] at hfits ⊢
    refine (ends_resolving (n := 3 * X.size + m + 1) hx ho hsx hw hfits
      fun s' child hchild => ?_).mono (by omega)
    exact h hX s' child (hnext ▸ hchild)

include hlead

/-- From a node down, if every miss ends well. -/
theorem ends_visit {p : Path K V} {w : Shape K V} {cur : Ref} (ht : t = p.plug w) (hne : w ≠ .nil)
    (hcur : x.ref? w.top = some cur) (hT : T → p.Leads cmp k) (hsx : s.content = x)
    (hw : s.Shows (fun i => o i + [cur].count i) .free) :
    Ends cmp k (t.found cmp k) (3 * w.size + m + 1) s (visit cmp k seen cur (x.node cur)) := by
  induction w generalizing p s cur with
  | nil => exact absurd rfl hne
  | node c l a u ihl ihu =>
    cases hord : a.order cmp k with
    | gt =>
      refine ends_below (d := .left) hx ho hmiss ht hord hcur hT hsx hw fun hl s' child hchild => ?_
      exact ihl (p := .under .left c a u p) ht hl hchild fun hT' => ⟨hord, hT hT'⟩
    | lt =>
      refine ends_below (d := .right) hx ho hmiss ht hord hcur hT hsx hw fun hu s' child hchild => ?_
      exact ihu (p := .under .right c a l p) ht hu hchild fun hT' => ⟨hord, hT hT'⟩
    | eq =>
      have hat : x.At t cur a.id := ⟨hcur, by simp [ht, Shape.ids_node]⟩
      obtain ⟨hfits, -, -⟩ := Fits.visit cmp k seen (x := x) (t := t) ⟨_, hat⟩
      have hnode : x.node cur = a.node c p.parent .left l.top u.top :=
        Content.TidyTree.node_focus (d := .left) (ht ▸ hx) hcur
      have ho' : (x.node cur).order cmp k = .eq := by
        rw [hnode, Row.order_node, hord]
      have hfound : a.value = t.found cmp k := (Shape.Finds.present ht (hlead ht hT hord) hord).eq_found
      unfold Lookup.visit at hfits ⊢
      rw [if_pos ho'] at hfits ⊢
      rw [← hfound, ← Row.value_node a c p.parent .left l.top u.top, ← hnode]
      exact (ends_answering hx ho hsx hw hfits).mono (by omega)

/-- From any place in the tree, or the anchor. -/
theorem ends_at {i : NodeId} {cur : Ref} (hi : x.At t cur i) (hT : T → t.Meets cmp k i)
    (hsx : s.content = x) (hw : s.Shows (fun i => o i + [cur].count i) .free) :
    Ends cmp k (t.found cmp k) (3 * t.size + m + 4) s
      (visit cmp k seen cur (x.node cur)) := by
  have hvisit : ∀ {p : Path K V} {w : Shape K V} {r : Ref} {s : Store K V}, t = p.plug w →
      w ≠ .nil → x.ref? w.top = some r → (T → p.Leads cmp k) → s.content = x →
      s.Shows (fun i => o i + [r].count i) .free →
      Ends cmp k (t.found cmp k) (3 * t.size + m + 1) s (visit cmp k seen r (x.node r)) := by
    intro p w r s ht hne hr hT hsx hw
    refine (ends_visit hx ho hlead hmiss ht hne hr hT hsx hw).mono ?_
    have hsize : w.size ≤ t.size := by
      rw [ht, Shape.size, Shape.size, Path.rows_plug, List.length_append, List.length_append]
      omega
    omega
  rcases List.mem_cons.1 hi.mem with rfl | hmem
  · obtain rfl : (1 : Ref) = cur := Option.some.inj (hx.sound.anchor.symm.trans hi.ref)
    have hnode := hx.node_anchor
    obtain ⟨hfits, -, -⟩ := Fits.visit cmp k seen ⟨_, hi⟩
    have ho' : (x.node 1).order cmp k ≠ .eq := by
      simp [hnode, Node.order, Node.reserved]
    have hnext : (x.node 1).towards cmp k = t.top := by
      rw [hnode]
      rfl
    unfold Lookup.visit at hfits ⊢
    rw [if_neg ho'] at hfits ⊢
    by_cases ht : t = .nil
    · rw [if_pos (by rw [hnext, ht, Shape.top_nil])] at hfits ⊢
      refine (hmiss s 1 hsx hw hfits fun _ j hj => ?_).mono (by omega)
      exact .inl (hx.sound.inj _ _ _ hj.ref hi.ref)
    · rw [if_neg (hnext ▸ hx.tree.ne_nil (Shape.top_mem_ids ht))] at hfits ⊢
      refine ends_resolving (n := 3 * t.size + m + 1) hx ho hsx hw hfits fun s' r hr hs' hw' => ?_
      exact hvisit (p := .top) rfl ht (hnext ▸ hr) (fun _ => trivial) hs' hw'
  · obtain ⟨p, c, l, a, u, ht, rfl⟩ := Shape.exists_plug hmem
    have hd := hx.nodup
    rw [ht] at hd
    refine (hvisit ht (by simp) hi.ref (fun h => ?_) hsx hw).mono (by omega)
    refine (Shape.mem_trail_focus cmp k (d := .left) hd).1 ?_
    have hm := (hT h).resolve_left (hx.tree.ne_anchor hmem)
    rwa [ht] at hm

theorem ends_atTop (hsx : s.content = x) (hw : s.Shows (fun i => o i + [].count i) .free) :
    Ends cmp k (t.found cmp k) (3 * t.size + m + 6) s (atTop seen) ∧
      Ends cmp k (t.found cmp k) (3 * t.size + m + 5) s (entering seen 1) := by
  have hentering : ∀ s' : Store K V, s'.content = x → s'.Shows (fun i => o i + [].count i) .free →
      Ends cmp k (t.found cmp k) (3 * t.size + m + 5) s' (entering seen 1) := by
    intro s' hs' hw'
    refine .turn hx ho hs' hw' (l := entering seen 1) rfl rfl fun b s₁ hs₁ hw₁ _ hserve => ?_
    obtain rfl : s'.node 1 = b := Except.ok.inj (Prod.mk.inj hserve).1
    have hb : s'.node 1 = x.node 1 := congrFun (congrArg Content.node hs') 1
    rw [hb] at hw₁ ⊢
    rw [(Fits.visit cmp k seen ⟨_, hx.anchor⟩).2.1] at hw₁
    exact ends_at hx ho hlead hmiss hx.anchor (fun _ => .inl rfl) hs₁ hw₁
  refine ⟨.turn hx ho hsx hw (l := atTop seen) trivial rfl fun top s₁ hs₁ hw₁ hl₁ _ => ?_,
    hentering s hsx hw⟩
  obtain rfl : top = (1 : Ref) := hl₁
  exact hentering s₁ hs₁ hw₁

end

/-! ## Whole lookups -/

/-- Whatever the comparison says, a lookup answers as a search does that nobody disturbs. -/
theorem ends_start (cmp : K → K → Ordering) (k : K) (hsx : s.content = x)
    (hw : s.Shows (fun i => o i + [].count i) .free) :
    Ends cmp k (t.found cmp k) (3 * t.size + 9) s start := by
  have hrel : s.relocations = x.relocations := congrArg Content.relocations hsx
  refine .ask rfl rfl rfl ?_
  rw [hrel]
  exact And.left (ends_atTop (m := 2) (T := True) hx ho (fun _ hT _ => hT trivial)
    (fun s' cur' hs' hw' hl' hm => ends_missed hx ho hs' hw' hl' (hm trivial)) hsx hw)

theorem ends_retreating {r : Ref} (hr : r < x.made) (hsx : s.content = x)
    (hw : s.Shows (fun i => o i + [r].count i) .free) :
    Ends cmp k (t.found cmp k) (3 * t.size + 10) s (retreating r []) := by
  have hfits : (retreating r []).Fits cmp k x t := ⟨hr, by simp⟩
  exact .turn hx ho hsx hw hfits rfl fun _ s₁ hs₁ hw₁ _ _ => ends_start hx ho cmp k hs₁ hw₁

/-- After a miss the lookup either is done or starts again. -/
theorem ends_missed_or_restart {seen : UInt64} {cur : Ref} (hsx : s.content = x)
    (hw : s.Shows (fun i => o i + [cur].count i) .free) (hl : (missed seen cur).Fits cmp k x t)
    (hm : seen = x.relocations → ∀ i, x.At t cur i → t.Meets cmp k i) :
    Ends cmp k (t.found cmp k) (3 * t.size + 11) s (missed seen cur) := by
  have hrel : s.relocations = x.relocations := congrArg Content.relocations hsx
  by_cases hseen : seen = x.relocations
  · subst hseen
    exact (ends_missed hx ho hsx hw hl (hm rfl)).mono (by omega)
  · obtain ⟨i, hi⟩ := hl.1
    refine .ask rfl rfl rfl ?_
    rw [if_neg fun h => hseen (h.symm.trans hrel)]
    exact ends_retreating hx ho (hi.made hx) hsx hw

variable [Std.TransCmp cmp] (hs : t.Sorted cmp)

include hs

/-- From a node that the search comes to, unless the count of relocations has moved. -/
theorem ends_visit_or_restart {seen : UInt64} {cur : Ref} {i : NodeId} (hi : x.At t cur i)
    (hmeets : seen = x.relocations → t.Meets cmp k i) (hsx : s.content = x)
    (hw : s.Shows (fun i => o i + [cur].count i) .free) :
    Ends cmp k (t.found cmp k) (6 * t.size + 15) s (visit cmp k seen cur (x.node cur)) := by
  refine (ends_at hx ho (fun ht _ hord => ?_) (fun s₁ cur' hs₁ hw₁ hl₁ hm₁ =>
    ends_missed_or_restart hx ho hs₁ hw₁ hl₁ hm₁) hi hmeets hsx hw).mono (by omega)
  subst ht
  exact Path.leads_of_has ((Shape.has_join .left ..).2 (.inl hord)) hs

theorem ends_atTop_or_restart (seen : UInt64) (hsx : s.content = x)
    (hw : s.Shows (fun i => o i + [].count i) .free) :
    Ends cmp k (t.found cmp k) (6 * t.size + 17) s (atTop seen) ∧
      Ends cmp k (t.found cmp k) (6 * t.size + 16) s (entering seen 1) := by
  have h : ∀ s₁ cur', s₁.content = x → s₁.Shows (fun i => o i + [cur'].count i) .free →
      (missed seen cur').Fits cmp k x t →
      (seen = x.relocations → ∀ i, x.At t cur' i → t.Meets cmp k i) →
      Ends cmp k (t.found cmp k) (3 * t.size + 11) s₁ (missed seen cur') :=
    fun s₁ cur' hs₁ hw₁ hl₁ hm₁ => ends_missed_or_restart hx ho hs₁ hw₁ hl₁ hm₁
  refine (ends_atTop (k := k) hx ho (fun ht _ hord => ?_) h hsx hw).imp (·.mono (by omega))
    (·.mono (by omega))
  subst ht
  exact Path.leads_of_has ((Shape.has_join .left ..).2 (.inl hord)) hs

omit ho in
/-- The answer that a lookup is about to give is the one that a search gives. -/
theorem Fits.found_eq {cur : Ref} (hl : (answering cur v).Fits cmp k x t)
    (hm : v = none → ∀ i, x.At t cur i → t.Meets cmp k i) : t.found cmp k = v := by
  obtain ⟨⟨i, hi⟩, hv⟩ := hl
  split_ifs at hv with hord
  · obtain ⟨-, p, c, l, a, u, hp, hq, ha, hav⟩ := hi.found hx hs hord
    rw [← (Shape.Finds.present hp hq ha).eq_found, hav, hv]
  · obtain ⟨hn, rfl⟩ := hv
    obtain ⟨p, hp, hq⟩ := hi.missed hx hord hn (hm rfl i hi)
    rw [← (Shape.Finds.absent hp hq).eq_found]

/-- From any phase but those of a lookup that has let go of a node too early, or is over. -/
theorem Fits.ends (hl : l.Fits cmp k x t) (hc : l.Coupled) (hd : ∀ w, l ≠ .finished w)
    (hm : l.Trusts x.relocations → l.OnPath cmp k x t)
    (hsx : s.content = x) (hw : s.Shows (fun i => o i + l.nodes.count i) .free) :
    Ends cmp k (t.found cmp k) (6 * t.size + 18) s l := by
  cases l with
  | start => exact (ends_start hx ho cmp k hsx hw).mono (by omega)
  | atTop seen => exact (ends_atTop_or_restart hx ho hs seen hsx hw).1.mono (by omega)
  | entering seen top =>
    obtain rfl : top = (1 : Ref) := hl
    exact (ends_atTop_or_restart hx ho hs seen hsx hw).2.mono (by omega)
  | missed seen cur =>
    exact (ends_missed_or_restart hx ho hsx hw hl fun h =>
      hm (congrArg some h) cur rfl).mono (by omega)
  | resolving seen cur b next =>
    obtain ⟨⟨i, hi⟩, rfl, hord, rfl, hn⟩ := id hl
    obtain ⟨hmem, hmeets⟩ := hi.next hx hn
    exact ends_resolving hx ho hsx hw hl fun s' child hchild => ends_visit_or_restart hx ho hs
      ⟨hchild, List.mem_cons_of_mem _ hmem⟩
      fun h => (hmeets hord).2 (hm (congrArg some h) cur rfl i hi)
  | stepping seen cur b next child =>
    obtain ⟨⟨i, hi⟩, rfl, hord, rfl, hn, hchild⟩ := id hl
    obtain ⟨hmem, hmeets⟩ := hi.next hx hn
    refine (ends_stepping hx ho hsx hw hl fun s' => ?_).mono (Nat.le_succ _)
    exact ends_visit_or_restart hx ho hs ⟨hchild, List.mem_cons_of_mem _ hmem⟩
      fun h => (hmeets hord).2 (hm (congrArg some h) cur rfl i hi)
  | moving seen cur child b =>
    obtain ⟨-, ⟨i, hi⟩, rfl⟩ := id hl
    refine (ends_moving (n := 6 * t.size + 15) hx ho hsx hw hl fun s' => ?_).mono (by omega)
    exact ends_visit_or_restart hx ho hs hi fun h => hm (congrArg some h) child rfl i hi
  | backing | apart | againParent | againChild | checking => exact hc.elim
  | retreating first rest =>
    obtain ⟨hfirst, hrest, hlen⟩ := id hl
    match rest with
    | [] => exact (ends_retreating hx ho hfirst hsx hw).mono (by omega)
    | [r] =>
      refine .mono (.turn hx ho hsx hw hl rfl fun _ s₁ hs₁ hw₁ _ _ => ?_)
        (show 3 * t.size + 10 + 1 ≤ _ by omega)
      exact ends_retreating hx ho (hrest r List.mem_cons_self) hs₁ hw₁
    | _ :: _ :: _ => exact absurd hlen (by simp)
  | answering cur v =>
    have hmeets : v = none → ∀ i, x.At t cur i → t.Meets cmp k i := by
      rintro rfl
      exact hm trivial cur rfl
    rw [hl.found_eq hx hs hmeets]
    exact (ends_answering hx ho hsx hw hl).mono (by omega)
  | finished w => exact absurd rfl (hd w)

end

end Lookup

end LatchTree
