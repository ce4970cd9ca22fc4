import LatchTree.Proofs.System.Basic

/-!
A lookup on its way through a run. Where it trusts that a miss will be final the search for the key
comes to it, unless it has let go of a node, had both nodes again, and gone on to a child to which the
search no longer comes.
-/

namespace LatchTree.System

variable {K V : Type} {cmp : K → K → Ordering} {k : K} {s : ℕ → System K V} {b i j n : ℕ}
  {v : Option V} {cur : Ref} {seen : UInt64}

/-- The lookup goes on to a child that it has taken up again, but the search for `k` does not. -/
def Strays (cmp : K → K → Ordering) (k : K) (c : System K V) : Prop :=
  ∃ seen cur next child m, c.reader = .checking seen cur next child m ∧
    c.store.ref? next = some child ∧ ∃ t, Heap.FreshTree c.store.node? t ∧ next ∉ t.trail cmp k

/-- At some step from `b` on the lookup strayed, and it has not set out anew since. -/
def Strayed (cmp : K → K → Ordering) (k : K) (s : ℕ → System K V) (b i : ℕ) : Prop :=
  ∃ j, b ≤ j ∧ j < i ∧ (s j).Strays cmp k ∧ ∀ j', j < j' → j' ≤ i → ¬(s j').reader.Anew

theorem Strayed.extend (h : Strayed cmp k s b i) (hij : i ≤ j)
    (hanew : ∀ j', i < j' → j' ≤ j → ¬(s j').reader.Anew) : Strayed cmp k s b j := by
  obtain ⟨m, hbm, hmi, hs, hm⟩ := h
  refine ⟨m, hbm, hmi.trans_le hij, hs, fun j' hj hj' => ?_⟩
  rcases Nat.lt_or_ge i j' with hlt | hle
  · exact hanew j' hlt hj'
  · exact hm j' hj hle

theorem moves_succ (s : ℕ → System K V) (i : ℕ) : moves s (i + 1) =
    moves s i + if (s (i + 1)).store.relocations ≠ (s i).store.relocations then 1 else 0 :=
  Nat.count_succ ..

theorem moves_mono (s : ℕ → System K V) (h : i ≤ j) : moves s i ≤ moves s j :=
  Nat.count_monotone _ h

theorem moves_le (s : ℕ → System K V) (i : ℕ) : moves s i ≤ i :=
  Nat.count_le _

theorem ofNat_eq_zero {a : UInt64} {m : ℕ} (h : a = a + UInt64.ofNat m) (hm : m < 2 ^ 64) :
    m = 0 := by
  have hzero : UInt64.ofNat m = 0 := left_eq_add.1 h
  have hnat := congrArg UInt64.toNat hzero
  rwa [UInt64.toNat_ofNat', Nat.mod_eq_of_lt hm] at hnat

/-- The count of relocations tells whether there were any, and if not the lookup is on its way. -/
structure Tracked (cmp : K → K → Ordering) (k : K) (s : ℕ → System K V) (b i : ℕ)
    (t : Shape K V) : Prop where
  counted : ∃ m, moves s b + m ≤ moves s i ∧ ∀ seen ∈ (s i).reader.seen,
    (s i).store.relocations = seen + UInt64.ofNat m
  onPath : (s i).reader.Trusts (s i).store.relocations →
    Strayed cmp k s b i ∨ (s i).reader.OnPath cmp k (s i).store.content t

theorem Tracked.start (t : Shape K V) (hb : (s b).reader = .start) : Tracked cmp k s b b t := by
  refine ⟨⟨0, le_rfl, ?_⟩, fun _ => .inr ?_⟩
  · rw [hb]
    exact fun seen h => absurd h (by simp [Lookup.seen])
  · rw [hb]
    exact fun r h => absurd h (by simp [Lookup.place])

/-- Each relocation is counted. -/
theorem Tracked.counted_changes {t t' : Shape K V} {g : Grips} (h : Tracked cmp k s b i t)
    (hc : Content.Changes cmp g (s i).store.content (s (i + 1)).store.content t t') :
    ∃ m, moves s b + m ≤ moves s (i + 1) ∧ ∀ seen ∈ (s i).reader.seen,
      (s (i + 1)).store.relocations = seen + UInt64.ofNat m ∧
        ((s (i + 1)).store.relocations = (s i).store.relocations + 1 → m ≠ 0) := by
  obtain ⟨m, hle, hcount⟩ := h.counted
  have hrel : (s (i + 1)).store.relocations = (s i).store.relocations ∨
    (s (i + 1)).store.relocations = (s i).store.relocations + 1 := hc.relocations
  rcases hrel with hrel | hmoved
  · refine ⟨m, hle.trans (moves_mono s (Nat.le_succ i)),
      fun seen hseen => ⟨hrel.trans (hcount seen hseen), fun h => ?_⟩⟩
    exact absurd (hrel.symm.trans h) (by simp)
  · refine ⟨m + 1, ?_, fun seen hseen => ⟨?_, fun _ => Nat.succ_ne_zero m⟩⟩
    · rw [moves_succ, if_pos fun h => absurd (h.symm.trans hmoved) (by simp)]
      exact Nat.succ_le_succ hle
    · rw [hmoved, hcount seen hseen, UInt64.ofNat_add, UInt64.add_assoc]
      rfl

variable [Std.TransCmp cmp]

theorem Tracked.step {t t' : Shape K V} {g : Grips} (h : Tracked cmp k s b i t)
    (hs : (s i).Sound cmp k t g) (hm : (s i).Moves cmp k (s (i + 1)) t t') (hbi : b ≤ i)
    (hfew : moves s (i + 1) < moves s b + 2 ^ 64) : Tracked cmp k s b (i + 1) t' := by
  obtain ⟨m, hle, hcount⟩ := h.counted
  have hpath := h.onPath
  have hmono : moves s i ≤ moves s (i + 1) := moves_mono s (Nat.le_succ i)
  have hleft : (¬Strayed cmp k s b i → ¬(s (i + 1)).reader.Anew → Strayed cmp k s b (i + 1) ∨
      (s (i + 1)).reader.OnPath cmp k (s (i + 1)).store.content t') →
      Strayed cmp k s b (i + 1) ∨
        (s (i + 1)).reader.OnPath cmp k (s (i + 1)).store.content t' := by
    intro h
    by_cases ha : (s (i + 1)).reader.Anew
    · exact .inr ha.onPath
    by_cases hstrayed : Strayed cmp k s b i
    · refine .inl (hstrayed.extend (Nat.le_succ i) fun j hij hji => ?_)
      rwa [Nat.le_antisymm hji hij]
    · exact h hstrayed ha
  cases hm with
  | rest hreader hcontent hshape =>
    have hrel : (s (i + 1)).store.relocations = (s i).store.relocations :=
      congrArg Content.relocations hcontent
    refine ⟨⟨m, hle.trans hmono, by rwa [hreader, hrel]⟩, fun ht => hleft fun hno _ => .inr ?_⟩
    rw [hreader, hrel] at ht
    rw [hreader, hcontent, hshape]
    exact (hpath ht).resolve_left hno
  | write g hreader hc hheld =>
    obtain ⟨m', hm', hcount'⟩ := h.counted_changes hc
    refine ⟨⟨m', hm', by simpa only [hreader] using fun seen hseen => (hcount' seen hseen).1⟩,
      fun ht => hleft fun hno _ => .inr ?_⟩
    rw [hreader] at ht ⊢
    refine hs.reader.onPath_changes hc hs.sorted hheld hs.filled
      (fun ht => (hpath ht).resolve_left hno) (fun hmoved hseen => ?_) ht
    obtain ⟨hrel, hne⟩ := hcount' _ hseen
    exact hne hmoved (ofNat_eq_zero hrel (Nat.lt_of_add_lt_add_left (hm'.trans_lt hfew)))
  | look hnext hcontent hshape hgoes =>
    have hrel : (s (i + 1)).store.relocations = (s i).store.relocations :=
      congrArg Content.relocations hcontent
    refine ⟨?_, fun ht => hleft fun hno ha => ?_⟩
    · rcases hnext.seen with hseen | hseen | hl
      · exact ⟨m, hle.trans hmono, by rwa [hseen, hrel]⟩
      · exact ⟨0, moves_mono s (hbi.trans (Nat.le_succ i)), by simp [hseen]⟩
      · refine ⟨0, moves_mono s (hbi.trans (Nat.le_succ i)), fun seen hseen => ?_⟩
        rw [hl] at hseen
        rw [← Option.some.inj hseen, hrel]
        exact (UInt64.add_zero _).symm
    · rw [hrel] at ht
      rw [hcontent, hshape]
      rcases hnext.onPath hs.tidy hs.sorted hs.reader hgoes
        (fun ht => (hpath ht).resolve_left hno) ht with h | ⟨seen, cur, next, child, m, hl, href, hout⟩
      · exact .inr h
      · refine .inl ⟨i, hbi, Nat.lt_succ_self i,
          ⟨seen, cur, next, child, m, hl, href, t, hs.tidy.tree, hout⟩, fun j hij hji => ?_⟩
        rwa [Nat.le_antisymm hji hij]

theorem Run.tracked (h : Run cmp k s n) (hb : (s b).reader = .start) (hbi : b ≤ i) (hi : i ≤ n)
    (hfew : moves s i < moves s b + 2 ^ 64) : ∃ t g, (s i).Sound cmp k t g ∧ Tracked cmp k s b i t := by
  induction i, hbi using Nat.le_induction with
  | base =>
    obtain ⟨t, g, ht⟩ := h.sound hi
    exact ⟨t, g, ht, .start t hb⟩
  | succ i hbi ih =>
    obtain ⟨t, g, ht, htrack⟩ := ih (Nat.le_of_succ_le hi)
      ((moves_mono s (Nat.le_succ i)).trans_lt hfew)
    obtain ⟨a, ha⟩ := h.step i hi
    obtain ⟨t', g', ht', hm⟩ := ht.step ha
    exact ⟨t', g', ht', htrack.step ht hm hbi hfew⟩

/-- Where a lookup finds that its miss is final the key is not in the tree, unless it has strayed. -/
theorem Run.missed (h : Run cmp k s n) (hb : (s b).reader = .start) (hbi : b ≤ i) (hi : i ≤ n)
    (hfew : moves s i < moves s b + 2 ^ 64) (hl : (s i).reader = .missed (s i).store.relocations cur) :
    Strayed cmp k s b i ∨ ¬(s i).Linked cmp k := by
  obtain ⟨t, g, ht, htrack⟩ := h.tracked hb hbi hi hfew
  have hpath := htrack.onPath
  have hfits := ht.reader
  rw [hl] at hpath hfits
  obtain ⟨⟨j, hj⟩, ho, hn⟩ := hfits
  refine (hpath rfl).imp_right fun hpath => ?_
  obtain ⟨p, rfl, hp⟩ := hj.missed ht.tidy ho hn (hpath cur rfl j hj)
  rw [ht.linked]
  exact hp.not_has ht.sorted

/-- A lookup that misses its key has last compared the counts, and has no other answer since. -/
theorem Run.decided (h : Run cmp k s n) (hi : i ≤ n)
    (hl : (∃ cur, (s i).reader = .answering cur none) ∨ (s i).reader = .finished none) :
    ∃ j < i, ∃ cur, (s j).reader = .missed (s j).store.relocations cur ∧
      ∀ i', j < i' → i' ≤ i →
        (s i').reader = .answering cur none ∨ (s i').reader = .finished none := by
  induction i with
  | zero =>
    rw [h.start] at hl
    simp at hl
  | succ i ih =>
    have ih := ih (Nat.le_of_succ_le hi)
    obtain ⟨t, g, ht⟩ := h.sound (Nat.le_of_succ_le hi)
    obtain ⟨a, ha⟩ := h.step i hi
    obtain ⟨t', g', ht', hm⟩ := ht.step ha
    have hkeep : (∀ cur, (s i).reader = .answering cur none ∨ (s i).reader = .finished none →
        (s (i + 1)).reader = .answering cur none ∨ (s (i + 1)).reader = .finished none) →
        (∃ cur, (s i).reader = .answering cur none) ∨ (s i).reader = .finished none →
        ∃ j < i + 1, ∃ cur, (s j).reader = .missed (s j).store.relocations cur ∧
          ∀ i', j < i' → i' ≤ i + 1 →
            (s i').reader = .answering cur none ∨ (s i').reader = .finished none := by
      intro hnext hl
      obtain ⟨j, hji, cur, hmiss, hj⟩ := ih hl
      refine ⟨j, Nat.lt_succ_of_lt hji, cur, hmiss, fun i' hj' hi' => ?_⟩
      rcases Nat.le_succ_iff.1 hi' with hi' | rfl
      · exact hj i' hj' hi'
      · exact hnext cur (hj i hji le_rfl)
    have hsame : (s (i + 1)).reader = (s i).reader → _ := fun hreader =>
      hkeep (fun cur h => by rwa [hreader]) (by rwa [hreader] at hl)
    cases hm with
    | rest hreader => exact hsame hreader
    | write g hreader => exact hsame hreader
    | look hnext hcontent hshape =>
      rcases hl with ⟨cur, hl⟩ | hl
      · rcases hnext.of_answering ht.reader hl with ⟨hmiss, -⟩ | ho
        · refine ⟨i, Nat.lt_succ_self i, cur, hmiss, fun i' hi hi' => .inl ?_⟩
          rwa [Nat.le_antisymm hi' hi]
        · have hfits := ht'.reader
          rw [hl, hcontent, hshape] at hfits
          exact absurd ho (hfits.miss ht.tidy ht.sorted ht.filled).1
      · obtain ⟨cur, hcur⟩ := hnext.of_finished hl
        exact hkeep (fun _ _ => .inr hl) (.inl ⟨cur, hcur⟩)

end LatchTree.System
