import LatchTree.Proofs.Calls

/-!
The states that an update goes through. After each request the links from the anchor form a search
tree, whose keys are those from before the update or those from after it; from the former to the
latter it comes at once, by the writes under one lock set.
-/

namespace LatchTree

variable {K V α : Type} {cmp : K → K → Ordering} {t t' : Shape K V} {s s' : Store K V}

/-! ## What a state shows -/

/-- The links from the anchor form a search tree with the keys `ks`, in their order. Parent links lead
back, no node is met twice, and all links lead to slots in use. -/
structure Store.Displays (cmp : K → K → Ordering) (s : Store K V) (t : Shape K V) (ks : List K) :
    Prop where
  tree : Heap.FreshTree s.node? t
  sorted : t.Sorted cmp
  keys : t.keys = ks.map some
  links : ∀ i ∈ NodeId.anchor :: t.ids, ∀ n, s.node? i = some n →
    ∀ j ∈ [n.parent, n.left, n.right], (s.node? j).isSome

namespace Heap.FreshTree

variable {h : Heap K V}

theorem mem_some (hb : h.FreshTree t) {i : NodeId} (hi : i ∈ NodeId.nil :: NodeId.anchor :: t.ids) :
    (h i).isSome := by
  rw [List.mem_cons, List.mem_cons] at hi
  rcases hi with rfl | rfl | hi
  · simp [hb.sentinel]
  · simp [hb.anchor]
  · obtain ⟨n, hn⟩ := hb.hangs.mem_some hi
    simp [hn]

/-- The links of the nodes of a tree stay within it and the two reserved nodes. -/
theorem links (hb : h.FreshTree t) {i j : NodeId} {n : Node K V} (hi : i ∈ NodeId.anchor :: t.ids)
    (hn : h i = some n) (hj : j ∈ [n.parent, n.left, n.right]) :
    j ∈ NodeId.nil :: NodeId.anchor :: t.ids := by
  rcases List.mem_cons.1 hi with rfl | hi
  · obtain rfl := Option.some.inj (hb.anchor.symm.trans hn)
    have htop := t.top_mem
    simp only [Node.reserved, List.mem_cons, List.not_mem_nil, or_false] at hj htop ⊢
    rcases hj with rfl | rfl | rfl <;> tauto
  · obtain ⟨p, c, l, a, r, rfl, rfl⟩ := Shape.exists_plug hi
    obtain rfl := Option.some.inj ((hb.focus (d := .left)).symm.trans hn)
    have hp := p.parent_mem
    have hl := l.top_mem
    have hr := r.top_mem
    rw [Row.parent_node, Row.left_node, Row.right_node] at hj
    simp only [List.mem_cons, List.not_mem_nil, or_false, Path.mem_ids_plug, Shape.ids_node,
      List.mem_append] at hj hp hl hr ⊢
    rcases hj with rfl | rfl | rfl <;> tauto

end Heap.FreshTree

theorem Store.Displays.of_tidyTree {ks : List K} (hx : s.content.TidyTree t) (hs : t.Sorted cmp)
    (hk : t.keys = ks.map some) : s.Displays cmp t ks :=
  ⟨hx.tree, hs, hk, fun _ hi _ hn _ hj => hx.tree.mem_some (hx.tree.links hi hn hj)⟩

/-! ## What an update makes of the keys -/

def Entries.keys (m : Entries K V) : List K :=
  m.map Prod.fst

namespace Shape

theorem Filled.keys (hf : t.Filled) : t.keys = t.entries.keys.map some := by
  have h := congrArg (List.map Prod.fst) (Entries.map_ofRows hf)
  simpa [Shape.keys, Shape.entries, Entries.keys, Function.comp_def] using h

theorem Sets.filled {k : K} {v : V} {o : Option V} (h : t.Sets cmp k v o t'.rows)
    (hf : t.Filled) : t'.Filled := by
  generalize hrows : t'.rows = rows at h
  cases h with
  | @present p c l r a ht hp ha =>
    subst ht
    simp only [Filled, hrows, Path.rows_plug, Shape.rows, List.mem_append, List.mem_cons] at hf ⊢
    grind
  | @absent p i ht hp =>
    subst ht
    simp only [Filled, hrows, Path.rows_plug, Shape.rows, List.append_nil, List.mem_append,
      List.mem_singleton] at hf ⊢
    grind

theorem Removes.filled {k : K} {o : Option V} (h : t.Removes cmp k o t'.rows) (hf : t.Filled) :
    t'.Filled :=
  fun a ha => hf a (h.sublist.subset ha)

end Shape

theorem Update.Makes.keys [Std.TransCmp cmp] {u : Update K V} {old : Option V}
    (h : u.Makes cmp t old t'.rows) (hs : t.Sorted cmp) (hf : t.Filled) :
    t'.keys = (t.entries.update cmp u).2.keys.map some := by
  cases u with
  | set k v =>
    rw [(Shape.Sets.filled h hf).keys]
    exact congrArg (fun m => (Entries.keys m).map some) (Shape.Sets.eq_set h hs hf).2
  | remove k =>
    rw [(Shape.Removes.filled h hf).keys]
    exact congrArg (fun m => (Entries.keys m).map some) (Shape.Removes.eq_erase h hs hf).2

/-! ## Steps -/

/-- Only the writes under a lock set change nodes that there are. -/
theorem Request.node_serve {q : Request K V} (hq : ∀ ls w, q ≠ .commit ls w) {r : Ref}
    (hr : r < s.cells.size) : (q.serve s).2.node r = s.node r := by
  have hword : ∀ i f, (s.mapWord i f).node r = s.node r := fun i f => s.node_mapWord i r f
  cases q with
  | read i | leave i | reserve i | unreserve i | latch i | upgrade i | lock i | unlock i =>
    exact hword ..
  | tryRead i =>
    rw [serve]
    split_ifs
    · exact hword ..
    · rfl
  | commit ls w => exact absurd rfl (hq ls w)
  | alloc n =>
    have hnode : ∀ s' : Store K V, s'.cells = s.cells.push { node := n } →
        s'.node r = s.node r := fun s' hs' => by rw [s.node_of_push hs', if_neg hr.ne]
    simp only [serve, Store.alloc]
    cases s.vacant with
    | nil => exact hnode _ rfl
    | cons id rest => exact hnode _ rfl
  | free id =>
    simp only [serve, Store.free]
    split_ifs
    · rfl
    · split <;> rfl
  | resolve | relocations | countUp | countDown => rfl

/-- If no node that there was is changed, the tree is not. -/
theorem Content.Changes.same {x x' : Content K V} {g : Grips} (hc : Changes cmp g x x' t t')
    (hnode : ∀ r < x.made, x'.node r = x.node r) : t' = t := by
  refine hc.after.tree.unique (hc.before.tree.congr fun i hi => ?_)
  have hmem : i ∈ NodeId.nil :: NodeId.anchor :: t.ids := by simpa using hi
  obtain ⟨r, hr⟩ := hc.before.ref_some hmem
  rw [heap_of_ref hr, heap_of_ref ((hc.refs i hmem).trans hr), hnode r (hc.before.sound.made i r hr)]

/-- A node that a thread has locked is hidden from all others. -/
theorem Store.Shows.peek {n : Ref → Nat} {g : Grips} (hw : s.Shows n g) {r : Ref}
    (hr : (g r).locked = true) : s.peek r = none := by
  have hfits : n r + (g r).readers < Latch.Word.room := Nat.lt_of_succ_lt (hw.fits r)
  rw [Store.peek, hw.word, Latch.Word.admitsReader_compose hfits, hr]
  simp

/-- What a thread writes to nodes that it has locked makes no difference to others. -/
theorem Store.Shows.peek_congr {n : Ref → Nat} {g : Grips} (hw : s.Shows n g) (hw' : s'.Shows n g)
    {r : Ref} (hnode : (g r).locked = false → s'.node r = s.node r) : s'.peek r = s.peek r := by
  cases hr : (g r).locked with
  | true => rw [hw.peek hr, hw'.peek hr]
  | false => rw [Store.peek, Store.peek, hw.word, hw'.word, hnode hr]

namespace Program

/-- The requests of a program that runs alone, each with the store after it. -/
def trace (s : Store K V) : Program K V α → List (Request K V × Store K V)
  | .done _ | .halt _ => []
  | .ask q next =>
    if q.enabled s then
      match q.serve s with
      | (.ok a, s) => (q, s) :: trace s (next a)
      | (.error _, _) => []
    else []

/-- The trace of a run leads to where the run ends. -/
theorem trace_run {p : Program K V α} {hs : List Hold} {a : α} (h : p.run s hs = (.ok a, s')) :
    ((p.trace s).map Prod.snd).getLastD s = s' := by
  induction p generalizing s hs with
  | done b => exact (Prod.mk.inj h).2
  | halt f => cases h
  | ask q next ih =>
    rw [run] at h
    rw [trace]
    by_cases hen : q.enabled s = true
    · rw [if_pos hen] at h ⊢
      rcases hserve : q.serve s with ⟨f | b, s₁⟩ <;> rw [hserve] at h
      · cases h
      · rw [List.map_cons, List.getLastD_cons]
        exact ih b h
    · rw [if_neg hen] at h
      cases h

/-- A trace from `s` in two parts. The tree has the keys `ks` throughout the first and `ks'` throughout
the second. The second starts with the writes under a lock set: its nodes are still hidden from other
threads, and of no node do they see a change. -/
structure Switches (cmp : K → K → Ordering) (ks ks' : List K) (s : Store K V)
    (early late : List (Request K V × Store K V)) : Prop where
  before : ∀ s₁ ∈ s :: early.map Prod.snd, ∃ t, s₁.Displays cmp t ks
  after : ∀ s₁ ∈ late.map Prod.snd, ∃ t, s₁.Displays cmp t ks'
  commit : late = [] ∨ ∃ ls w s₁ rest, late = (.commit ls w, s₁) :: rest ∧
    (∀ m ∈ ls, s₁.peek m.2 = none) ∧
    ∀ r < s.cells.size, s₁.peek r = ((early.map Prod.snd).getLastD s).peek r

namespace Ensures

variable [Std.TransCmp cmp] {R : Shape K V → Prop} {g : Grips} {Q : α → Content K V → Grips → Prop}

/-- One request of a program that runs alone. Only writes under a lock set change the keys, and what
they change is hidden from other threads. -/
theorem step {q : Request K V} {next : q.Answer → Program K V α}
    (h : (Program.ask q next).Ensures cmp R s.content g Q) (hw : s.Shows (fun _ => 0) g)
    (hx : s.content.TidyTree t) (hs : t.Sorted cmp) :
    ∃ a s' t', q.enabled s = true ∧ q.serve s = (.ok a, s') ∧ s'.Shows (fun _ => 0) (q.grip g) ∧
      (next a).Ensures cmp R s'.content (q.grip g) Q ∧ s'.content.TidyTree t' ∧
      t'.Sorted cmp ∧ s.cells.size ≤ s'.cells.size ∧
      (t'.keys = t.keys ∨ R t' ∧ ∃ ls w, q = .commit ls w ∧ (∀ m ∈ ls, s'.peek m.2 = none) ∧
        ∀ r < s.cells.size, s'.peek r = s.peek r) := by
  have hq := h.1
  have hen := hw.enabled hq fun _ _ => rfl
  obtain ⟨a, s', hserve⟩ : ∃ a s', q.serve s = (.ok a, s') := by
    obtain ⟨-, a, x', hyields, -⟩ := h
    exact ⟨a, _, Prod.ext (hyields s rfl).1 rfl⟩
  obtain ⟨hshows, hnext, hx'⟩ := h.served hx hw hen hserve
  refine ⟨a, s', ?_⟩
  rcases hx' with hx' | ⟨t', hc, hkeys⟩
  · refine ⟨t, hen, hserve, hshows, hnext, hx' ▸ hx, hs, ?_, .inl rfl⟩
    exact (congrArg Content.made hx').ge
  refine ⟨t', hen, hserve, hshows, hnext, hc.after, hc.sorted hs, hc.made, ?_⟩
  by_cases hcommit : ∃ ls w, q = .commit ls w
  · obtain ⟨ls, w, rfl⟩ := hcommit
    refine hkeys.imp_right fun hR => ⟨hR, ls, w, rfl, fun m hm => hshows.peek ?_, fun r hr => ?_⟩
    · rw [Request.grip, hq m hm]
      rfl
    · exact hw.peek_congr hshows (hc.frame r hr)
  · push Not at hcommit
    obtain rfl : t' = t := hc.same fun r hr => by
      obtain rfl : (q.serve s).2 = s' := congrArg Prod.snd hserve
      exact Request.node_serve hcommit hr
    exact .inl rfl

variable {p : Program K V α} {ks ks' : List K}

/-- A program that has come to the keys `ks'` stays with them. -/
theorem trace_late (h : p.Ensures cmp R s.content g Q) (hw : s.Shows (fun _ => 0) g)
    (hx : s.content.TidyTree t) (hs : t.Sorted cmp) (hR : ∀ t, R t → t.keys = ks'.map some)
    (hk : t.keys = ks'.map some) :
    ∀ s₁ ∈ (p.trace s).map Prod.snd, ∃ t, s₁.Displays cmp t ks' := by
  induction p generalizing s g t with
  | done a => exact fun s₁ hs₁ => absurd hs₁ List.not_mem_nil
  | halt f => exact h.elim
  | ask q next ih =>
    obtain ⟨a, s', t', hen, hserve, hw', hnext, hx', hs', -, hkeys⟩ := h.step hw hx hs
    have hk' : t'.keys = ks'.map some := hkeys.elim (·.trans hk) fun hR' => hR t' hR'.1
    rw [trace, if_pos hen, hserve, List.map_cons, List.forall_mem_cons]
    exact ⟨⟨t', .of_tidyTree hx' hs' hk'⟩, ih a hnext hw' hx' hs' hk'⟩

/-- A program that changes the keys only to `ks'` does so at once. -/
theorem trace_switches (h : p.Ensures cmp R s.content g Q) (hw : s.Shows (fun _ => 0) g)
    (hx : s.content.TidyTree t) (hs : t.Sorted cmp) (hR : ∀ t, R t → t.keys = ks'.map some)
    (hk : t.keys = ks.map some) : ∃ early late, p.trace s = early ++ late ∧
      Switches cmp ks ks' s early late := by
  have hdisplays : ∃ t, s.Displays cmp t ks := ⟨t, .of_tidyTree hx hs hk⟩
  induction p generalizing s g t with
  | done a => exact ⟨[], [], rfl, by simpa using hdisplays, by simp, .inl rfl⟩
  | halt f => exact h.elim
  | ask q next ih =>
    obtain ⟨a, s', t', hen, hserve, hw', hnext, hx', hs', hsize, hkeys⟩ := h.step hw hx hs
    rw [trace, if_pos hen, hserve]
    rcases hkeys with hkeys | ⟨hR', ls, w, rfl, hhidden, hpeek⟩
    · -- the keys are still to change, if they do
      have hk' := hkeys.trans hk
      obtain ⟨early, late, htrace, hbefore, hafter, hcommit⟩ :=
        ih a hnext hw' hx' hs' hk' ⟨t', .of_tidyTree hx' hs' hk'⟩
      refine ⟨(q, s') :: early, late, congrArg _ htrace, ?_, hafter, ?_⟩
      · exact List.forall_mem_cons.2 ⟨hdisplays, hbefore⟩
      · refine hcommit.imp_right fun ⟨ls, w, s₁, rest, hlate, hhidden, hpeek⟩ => ?_
        refine ⟨ls, w, s₁, rest, hlate, hhidden, fun r hr => ?_⟩
        rw [List.map_cons, List.getLastD_cons]
        exact hpeek r (Nat.lt_of_lt_of_le hr hsize)
    · -- from here on the keys stay
      have hk' := hR t' hR'
      refine ⟨[], _, rfl, by simpa using hdisplays, ?_, .inr ⟨ls, w, s', _, rfl, hhidden, hpeek⟩⟩
      exact List.forall_mem_cons.2 ⟨⟨t', .of_tidyTree hx' hs' hk'⟩,
        hnext.trace_late hw' hx' hs' hR hk'⟩

end Ensures

end Program

/-! ## Updates -/

theorem Store.Displays.keys_unique {ks ks' : List K} (h : s.Displays cmp t ks)
    (h' : s.Displays cmp t' ks') : ks = ks' := by
  obtain rfl := h.tree.unique h'.tree
  exact (List.map_inj_right fun _ _ => Option.some.inj).1 (h.keys.symm.trans h'.keys)

theorem Store.Reads.displays {m : Entries K V} (h : s.Reads cmp t m) :
    s.Displays cmp t m.keys :=
  .of_tidyTree h.unlatched.settled.tidy h.sorted (h.entries ▸ h.unlatched.settled.filled.keys)

/-- After each request of an update, on a tree that calls have made, the links from the anchor form a
search tree. It has the keys of the map before the update up to the writes under one lock set, and
those of the map after the update from then on. -/
theorem Store.update_switches (cmp : K → K → Ordering) [Std.TransCmp cmp] (spin : Bool)
    (cs : List (Call K V)) (u : Update K V) :
    ∃ rs m s old m' s' early late,
      Entries.calls cmp [] cs = (rs, m) ∧ (Store.empty spin).calls cmp cs = (.ok rs, s) ∧
      m.update cmp u = (old, m') ∧ s.update cmp u = (.ok old, s') ∧
      (u.program cmp s.patience).trace s = early ++ late ∧
      ((early ++ late).map Prod.snd).getLastD s = s' ∧
      Program.Switches cmp m.keys m'.keys s early late ∧ (m.keys ≠ m'.keys → late ≠ []) := by
  obtain ⟨s, t, hcalls, h⟩ := (Store.Reads.empty cmp spin).calls cs
  rcases hreplies : Entries.calls cmp [] cs with ⟨rs, m⟩
  rw [hreplies] at hcalls h
  obtain ⟨s', t', hupdate, h'⟩ := h.update u
  rcases hold : m.update cmp u with ⟨old, m'⟩
  rw [hold] at hupdate h'
  have hsettled := h.unlatched.settled
  obtain ⟨early, late, htrace, hswitch⟩ : ∃ early late,
      (u.program cmp s.patience).trace s = early ++ late ∧
        Program.Switches cmp m.keys m'.keys s early late := by
    refine (u.ensures (R := fun t => t.keys = m'.keys.map some) cmp hsettled
      (size_lt_patience hsettled.tidy) fun old t' hu => ?_).trace_switches h.unlatched.shows
        hsettled.tidy h.sorted (fun _ hk => hk) h.displays.keys
    rw [hu.keys h.sorted hsettled.filled, h.entries, hold]
  have hlast := Program.trace_run hupdate
  rw [htrace] at hlast
  refine ⟨rs, m, s, old, m', s', early, late, rfl, hcalls, hold, hupdate, htrace, hlast, hswitch,
    fun hne hlate => hne ?_⟩
  -- with nothing late, the update ends in a state with the keys from before
  subst hlate
  rw [List.append_nil] at hlast
  obtain ⟨u, hu⟩ := hswitch.before s' (hlast ▸ List.getLastD_mem_cons)
  exact hu.keys_unique h'.displays

/-- Removing a key whose node has two children, so that another entry moves up. -/
theorem Store.update_switches_relocating : ∃ s s' early late,
    (Store.empty true).calls compare [.update (.set 2 20), .update (.set 1 10), .update (.set 3 30)] =
      (.ok [.value none, .value none, .value none], s) ∧
    s.update compare (.remove 2) = (.ok (some 20), s') ∧
    ((Update.remove 2).program compare s.patience).trace s = early ++ late ∧
    Program.Switches compare [1, 2, 3] [1, 3] s early late ∧ late ≠ [] := by
  obtain ⟨rs, m, s, old, m', s', early, late, hm, hcalls, hm', hupdate, htrace, -, hswitch, hlate⟩ :=
    Store.update_switches (K := Nat) (V := Nat) compare true
      [.update (.set 2 20), .update (.set 1 10), .update (.set 3 30)] (.remove 2)
  obtain ⟨rfl, rfl⟩ := Prod.mk.inj hm
  obtain ⟨rfl, rfl⟩ := Prod.mk.inj hm'
  exact ⟨s, s', early, late, hcalls, hupdate, htrace, hswitch, hlate (by decide)⟩

end LatchTree
