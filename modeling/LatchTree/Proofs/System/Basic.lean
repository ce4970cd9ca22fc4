import LatchTree.Proofs.Calls

/-!
A lookup next to a writer. Request by request they go on in any order; the writer makes one update
after the other. Whatever the order, the tree stays a search tree and the lookup keeps what it relies
on.
-/

namespace LatchTree

variable {K V σ : Type} {cmp : K → K → Ordering} {k : K}

/-- One tree, with a writer and a lookup at work on it. -/
structure System (K V : Type) where
  store : Store K V
  /-- What is left of the update under way. -/
  writer : Option (Program K V (Option V))
  reader : Lookup K V

/-- Who goes on. The writer takes up an update only after it is through with the one before. -/
inductive Action (K V : Type) where
  | update (u : Update K V)
  | write
  | look

/-- Goes on with the answer to a request, unless it has to wait or fails. -/
def Request.proceed (s : Store K V) (q : Request K V) (next : q.Answer → σ) :
    Option (Store K V × σ) :=
  if q.enabled s then
    match q.serve s with
    | (.ok a, s) => some (s, next a)
    | (.error _, _) => none
  else none

theorem Request.proceed_eq_some {s s' : Store K V} {q : Request K V} {next : q.Answer → σ} {x : σ}
    (h : q.proceed s next = some (s', x)) :
    q.enabled s = true ∧ ∃ a, q.serve s = (.ok a, s') ∧ x = next a := by
  unfold Request.proceed at h
  split_ifs at h with hen
  split at h
  · rename_i a s₁ hs
    cases h
    exact ⟨hen, a, hs, rfl⟩
  · cases h

namespace System

def step (cmp : K → K → Ordering) (k : K) (c : System K V) : Action K V → Option (System K V)
  | .update u =>
    match c.writer with
    | none => some { c with writer := some (u.program cmp c.store.patience) }
    | some _ => none
  | .write =>
    match c.writer with
    | some (.done _) => some { c with writer := none }
    | some (.ask q next) =>
      (q.proceed c.store next).map fun (s, p) => { c with store := s, writer := some p }
    | some (.halt _) | none => none
  | .look =>
    match c.reader.turn cmp k with
    | .ask q next =>
      (q.proceed c.store next).map fun (s, l) => { c with store := s, reader := l }
    | .done _ | .fault _ => none

/-- A step of the lookup. -/
theorem look_eq_some {c c' : System K V} (h : c.step cmp k .look = some c') : ∃ q next b,
    c.reader.turn cmp k = .ask q next ∧ q.enabled c.store = true ∧
      q.serve c.store = (.ok b, c'.store) ∧ c'.reader = next b ∧ c'.writer = c.writer := by
  simp only [System.step] at h
  split at h
  · rename_i q next hq
    obtain ⟨⟨s, l⟩, hs, rfl⟩ := Option.map_eq_some_iff.1 h
    obtain ⟨hen, b, hserve, rfl⟩ := Request.proceed_eq_some hs
    exact ⟨q, next, b, hq, hen, hserve, rfl, rfl⟩
  · cases h
  · cases h

/-- `n` steps from a tree that updates have made, with the lookup at its start. -/
structure Run (cmp : K → K → Ordering) (k : K) (c : ℕ → System K V) (n : ℕ) : Prop where
  made : ∃ spin us olds, (Store.empty spin).updates cmp us = (.ok olds, (c 0).store)
  idle : (c 0).writer = none
  start : (c 0).reader = .start
  step : ∀ i < n, ∃ a, (c i).step cmp k a = some (c (i + 1))

/-- An entry of the tree under the anchor has the key `k`. -/
def Linked (cmp : K → K → Ordering) (k : K) (c : System K V) : Prop :=
  ∃ t, Heap.FreshTree c.store.node? t ∧ t.Has cmp k

/-- How often an entry is moved up the tree in the first `n` steps. -/
def moves (c : ℕ → System K V) (n : ℕ) : ℕ :=
  Nat.count (fun i => (c (i + 1)).store.relocations ≠ (c i).store.relocations) n

/-! ## What holds throughout -/

/-- The links unfold to `t`; lookup and writer have what they rely on. -/
structure Intact (cmp : K → K → Ordering) (k : K) (c : System K V) (t : Shape K V) (g : Grips) :
    Prop where
  tidy : c.store.content.TidyTree t
  shows : c.store.Shows (fun r => c.reader.nodes.count r) g
  writer : (c.writer.getD (.done none)).Ensures cmp (fun _ => True) c.store.content g
    fun _ x g' => g' = .free ∧ ∃ t', x.SettledTree t'
  reader : c.reader.Fits cmp k c.store.content t

/-- The tree is a search tree with all its entries; lookup and writer have what they rely on. -/
structure Sound (cmp : K → K → Ordering) (k : K) (c : System K V) (t : Shape K V) (g : Grips) :
    Prop where
  tidy : c.store.content.TidyTree t
  sorted : t.Sorted cmp
  filled : t.Filled
  shows : c.store.Shows (fun r => c.reader.nodes.count r) g
  writer : (c.writer.getD (.done none)).Ensures cmp (fun _ => True) c.store.content g
    fun _ x g' => g' = .free ∧ ∃ t', x.SettledTree t'
  reader : c.reader.Fits cmp k c.store.content t

/-- What a step does to the tree, and to the place of the lookup. -/
inductive Moves (cmp : K → K → Ordering) (k : K) (c c' : System K V) (t t' : Shape K V) : Prop where
  | rest (hreader : c'.reader = c.reader) (hcontent : c'.store.content = c.store.content)
      (hshape : t' = t)
  | write (g : Grips) (hreader : c'.reader = c.reader)
      (hchanges : Content.Changes cmp g c.store.content c'.store.content t t')
      (hheld : ∀ r ∈ c.reader.nodes, (g r).locked = false)
  | look (hnext : Lookup.Next cmp k c.store.content c.reader c'.reader)
      (hcontent : c'.store.content = c.store.content) (hshape : t' = t)
      (hgoes : c.reader.Goes cmp k c.store.content t c'.reader)

end System

open Content in
/-- What a lookup relies on stays when others write, as they cannot at the nodes that it holds. -/
theorem Lookup.Fits.changes {l : Lookup K V} {x x' : Content K V} {t t' : Shape K V} {g : Grips}
    (hl : l.Fits cmp k x t) (hc : Changes cmp g x x' t t')
    (hg : ∀ r ∈ l.nodes, (g r).locked = false) : l.Fits cmp k x' t' := by
  have hmade : ∀ {r}, r < x.made → r < x'.made := fun hr => Nat.lt_of_lt_of_le hr hc.made
  have hat : ∀ {r}, (g r).locked = false → (∃ i, x.At t r i) →
      (∃ i, x'.At t' r i) ∧ x'.node r = x.node r := fun hr ⟨i, hi⟩ =>
    ⟨⟨i, (hc.place hi hr).1⟩, (hc.place hi hr).2⟩
  cases l with
  | start | atTop | finished => trivial
  | entering => exact hl
  | missed seen cur =>
    obtain ⟨hi, hn⟩ := hat (hg cur (by simp [nodes])) hl.1
    exact ⟨hi, hn ▸ hl.2⟩
  | resolving seen cur n next =>
    obtain ⟨hi, hn⟩ := hat (hg cur (by simp [nodes])) hl.1
    exact ⟨hi, hn ▸ hl.2⟩
  | stepping seen cur n next child =>
    obtain ⟨⟨i, hi⟩, rfl, ho, rfl, hne, hchild⟩ := hl
    obtain ⟨hi', hn⟩ := hat (hg cur (by simp [nodes])) ⟨i, hi⟩
    have hmem := (hi.next hc.before hne).1
    refine ⟨hi', hn, ho, rfl, hne, ?_⟩
    exact (hc.refs _ (List.mem_cons_of_mem _ (List.mem_cons_of_mem _ hmem))).trans hchild
  | moving seen cur child m =>
    obtain ⟨hi, hn⟩ := hat (hg child (by simp [nodes])) hl.2.1
    exact ⟨hmade hl.1, hi, hn.trans hl.2.2⟩
  | backing | apart => exact ⟨hmade hl.1, hmade hl.2.1, hl.2.2⟩
  | againParent seen cur n next child =>
    obtain ⟨hcur, hchild, hne, hn⟩ := hl
    exact ⟨hmade hcur, hmade hchild, hne, (hc.frame cur hcur (hg cur (by simp [nodes]))).trans hn⟩
  | againChild seen cur next child m =>
    obtain ⟨hcur, hchild, hne, hn⟩ := hl
    refine ⟨hmade hcur, hmade hchild, hne, ?_⟩
    exact (hc.frame child hchild (hg child (by simp [nodes]))).trans hn
  | checking seen cur next child m =>
    obtain ⟨hcur, hchild, hne, hm, hn⟩ := hl
    have hcur' := hc.frame cur hcur (hg cur (by simp [nodes]))
    have hchild' := hc.frame child hchild (hg child (by simp [nodes]))
    exact ⟨hmade hcur, hmade hchild, hne, hchild'.trans hm, hcur' ▸ hn⟩
  | retreating first rest =>
    exact ⟨hmade hl.1, fun r hr => hmade (hl.2.1 r hr), hl.2.2⟩
  | answering cur v =>
    obtain ⟨hi, hn⟩ := hat (hg cur (by simp [nodes])) hl.1
    exact ⟨hi, hn ▸ hl.2⟩

/-- A writer that is through with an update keeps the rules in the one that it takes up. -/
theorem Update.ensures_next {s : Store K V} {t : Shape K V} {g : Grips} (u : Update K V)
    (hx : s.content.TidyTree t) (h : g = .free ∧ ∃ t', s.content.SettledTree t') :
    (u.program cmp s.patience).Ensures cmp (fun _ => True) s.content g
      fun _ x g' => g' = .free ∧ ∃ t', x.SettledTree t' := by
  obtain ⟨rfl, t', hsettled⟩ := h
  obtain rfl := hx.tree.unique hsettled.tidy.tree
  exact (u.ensures cmp hsettled (Store.size_lt_patience hx) fun _ _ _ => trivial).mono
    fun _ x g' ⟨hg, t', ht', _⟩ => ⟨hg, t', ht'⟩

namespace System

variable {c c' : System K V} {t : Shape K V} {g : Grips}

theorem Sound.linked (h : c.Sound cmp k t g) : c.Linked cmp k ↔ t.Has cmp k := by
  constructor
  · rintro ⟨u, hu, hk⟩
    obtain rfl : u = t := hu.unique h.tidy.tree
    exact hk
  · exact fun hk => ⟨t, h.tidy.tree, hk⟩

theorem Sound.intact (h : c.Sound cmp k t g) : c.Intact cmp k t g :=
  ⟨h.tidy, h.shows, h.writer, h.reader⟩

theorem Intact.step (h : c.Intact cmp k t g) {a : Action K V} (hstep : c.step cmp k a = some c') :
    ∃ t' g', c'.Intact cmp k t' g' ∧ c.Moves cmp k c' t t' := by
  cases a with
  | update u =>
    simp only [System.step] at hstep
    split at hstep
    · rename_i hidle
      cases hstep
      have hwriter := h.writer
      rw [hidle] at hwriter
      exact ⟨t, g, ⟨h.tidy, h.shows, u.ensures_next h.tidy hwriter, h.reader⟩,
        .rest rfl rfl rfl⟩
    · cases hstep
  | write =>
    have hwriter := h.writer
    simp only [System.step] at hstep
    split at hstep
    · rename_i v hdone
      cases hstep
      rw [hdone] at hwriter
      exact ⟨t, g, ⟨h.tidy, h.shows, hwriter, h.reader⟩, .rest rfl rfl rfl⟩
    · rename_i q next hask
      obtain ⟨⟨s, p⟩, hs, rfl⟩ := Option.map_eq_some_iff.1 hstep
      obtain ⟨hen, a, hserve, rfl⟩ := Request.proceed_eq_some hs
      rw [hask] at hwriter
      obtain ⟨hshows, hnext, hx'⟩ := Program.Ensures.served hwriter h.tidy h.shows hen hserve
      have hheld : ∀ r ∈ c.reader.nodes, (g r).locked = false := fun r hr =>
        h.shows.unlocked fun hzero => absurd hr (List.count_eq_zero.1 hzero)
      rcases hx' with hx' | ⟨u, hc, -⟩
      · exact ⟨t, q.grip g, ⟨hx' ▸ h.tidy, hshows, hnext, hx' ▸ h.reader⟩, .rest rfl hx' rfl⟩
      · exact ⟨u, q.grip g, ⟨hc.after, hshows, hnext, h.reader.changes hc hheld⟩,
          .write g rfl hc hheld⟩
    · cases hstep
    · cases hstep
  | look =>
    obtain ⟨q, next, a, hask, hen, hserve, hreader, hwriter⟩ := look_eq_some hstep
    have hshows : c.store.Shows (fun r => 0 + c.reader.nodes.count r) g := by
      simpa only [Nat.zero_add] using h.shows
    obtain ⟨b, s', hb⟩ := h.reader.serves h.tidy hshows
      (fun r _ _ => h.reader.room (fun _ => Nat.zero_le _) r) hask hen
    obtain ⟨hans, rfl⟩ := Prod.mk.inj (hserve.symm.trans hb.serve)
    obtain rfl := Except.ok.inj hans
    have hcontent := hb.content
    have hshows' := hb.shows
    simp only [Nat.zero_add, ← hreader] at hshows'
    refine ⟨t, g, ⟨?_, hshows', ?_, ?_⟩, .look ?_ hcontent rfl ?_⟩
    · exact hcontent.symm ▸ h.tidy
    · rw [hwriter, hcontent]
      exact h.writer
    · rw [hreader, hcontent]
      exact hb.fits
    · rw [hreader]
      exact Lookup.next_of_turn hask hserve
    · rw [hreader]
      exact hb.goes

theorem Run.intact {s : ℕ → System K V} {n i : ℕ} (h : Run cmp k s n) (hi : i ≤ n) :
    ∃ t g, (s i).Intact cmp k t g := by
  induction i with
  | zero =>
    obtain ⟨spin, us, olds, hmade⟩ := h.made
    obtain ⟨olds', s', t, hrun, hs⟩ := (Store.UnlatchedTree.empty spin).updates cmp us
    obtain ⟨-, rfl⟩ := Prod.mk.inj (hmade.symm.trans hrun)
    refine ⟨t, .free, hs.settled.tidy, ?_, ?_, ?_⟩
    · rw [h.start]
      exact hs.shows
    · rw [h.idle]
      exact ⟨rfl, t, hs.settled⟩
    · rw [h.start]
      trivial
  | succ i ih =>
    obtain ⟨t, g, ht⟩ := ih (Nat.le_of_succ_le hi)
    obtain ⟨a, ha⟩ := h.step i hi
    obtain ⟨t', g', ht', -⟩ := ht.step ha
    exact ⟨t', g', ht'⟩

variable [Std.TransCmp cmp]

theorem Sound.step (h : c.Sound cmp k t g) {a : Action K V} (hstep : c.step cmp k a = some c') :
    ∃ t' g', c'.Sound cmp k t' g' ∧ c.Moves cmp k c' t t' := by
  obtain ⟨t', g', h', hm⟩ := h.intact.step hstep
  have hkept : t'.Sorted cmp ∧ t'.Filled := by
    cases hm with
    | rest hreader hcontent hshape => exact hshape ▸ ⟨h.sorted, h.filled⟩
    | write g hreader hc hheld => exact ⟨hc.sorted h.sorted, hc.filled h.filled⟩
    | look hnext hcontent hshape => exact hshape ▸ ⟨h.sorted, h.filled⟩
  exact ⟨t', g', ⟨h'.tidy, hkept.1, hkept.2, h'.shows, h'.writer, h'.reader⟩, hm⟩

namespace Run

variable {s : ℕ → System K V} {n i : ℕ}

theorem start_sound (h : Run cmp k s n) : ∃ t, (s 0).Sound cmp k t .free := by
  obtain ⟨spin, us, olds, hmade⟩ := h.made
  obtain ⟨olds', s', t, m, hrun, hreads⟩ := (Store.Reads.empty cmp spin).updates us
  obtain ⟨-, rfl⟩ := Prod.mk.inj (hmade.symm.trans hrun)
  refine ⟨t, hreads.unlatched.settled.tidy, hreads.sorted, hreads.unlatched.settled.filled, ?_, ?_, ?_⟩
  · rw [h.start]
    exact hreads.unlatched.shows
  · rw [h.idle]
    exact ⟨rfl, t, hreads.unlatched.settled⟩
  · rw [h.start]
    trivial

theorem sound (h : Run cmp k s n) (hi : i ≤ n) : ∃ t g, (s i).Sound cmp k t g := by
  induction i with
  | zero =>
    obtain ⟨t, ht⟩ := h.start_sound
    exact ⟨t, _, ht⟩
  | succ i ih =>
    obtain ⟨t, g, ht⟩ := ih (Nat.le_of_succ_le hi)
    obtain ⟨a, ha⟩ := h.step i hi
    obtain ⟨t', g', ht', -⟩ := ht.step ha
    exact ⟨t', g', ht'⟩

end Run

end System

end LatchTree
