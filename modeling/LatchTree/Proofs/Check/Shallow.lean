import LatchTree.Proofs.Calls
import LatchTree.Proofs.Check.Walk
import LatchTree.Index

/-!
How deep a tree can be for the number of its entries. The trees that updates make pass the check, and
the limit of its depth is out of their reach.
-/

namespace LatchTree

variable {K V : Type} {cmp : K → K → Ordering}

/-! ## Black height, depth and size -/

namespace Shape

variable {t : Shape K V} {n d e : ℕ}

theorem Even.pow_le (h : t.Even n) : 2 ^ n ≤ t.size + 1 := by
  induction t generalizing n with
  | nil =>
    obtain rfl : n = 0 := h
    simp
  | node c l a r ihl ihr =>
    obtain ⟨m, hl, hr, rfl⟩ := h
    have hle : 2 ^ (m + c.weight) ≤ 2 ^ m * 2 := by
      rw [← pow_succ]
      exact Nat.pow_le_pow_right (by simp) (by cases c <;> simp [Color.weight])
    have := ihl hl
    have := ihr hr
    rw [size_node]
    omega

/-- At least every other node on a path down is black. -/
theorem height_le (hc : t.Calm) (he : t.Even n) : t.height + t.color.weight ≤ 2 * n + 1 := by
  induction t generalizing n with
  | nil => simp [height, Color.weight]
  | node c l a r ihl ihr =>
    obtain ⟨hcol, hcl, hcr⟩ := hc
    obtain ⟨m, hl, hr, rfl⟩ := he
    have hhl := ihl hcl hl
    have hhr := ihr hcr hr
    cases c with
    | red =>
      rw [(hcol rfl).1] at hhl
      rw [(hcol rfl).2] at hhr
      simp only [height, color, Color.weight] at hhl hhr ⊢
      omega
    | black =>
      simp only [height, color, Color.weight] at hhl hhr ⊢
      omega

theorem RedBlack.height_le (h : t.RedBlack n) : t.height ≤ 2 * n := by
  have hle := Shape.height_le h.calm h.even
  rw [h.root] at hle
  exact Nat.le_of_succ_le_succ hle

/-- A tree of fewer than 2 ^ 51 - 1 nodes passes at most 50 black nodes on any path. -/
theorem Even.le_of_size (h : t.Even n) (hsize : t.size < 2 ^ 51 - 1) : n ≤ 50 := by
  by_contra hgt
  have hle := Nat.pow_le_pow_right Nat.zero_lt_two (Nat.lt_of_not_le hgt)
  have hpow := h.pow_le
  omega

/-- A path down to where a child is missing passes all the black nodes that any path passes. -/
theorem le_of_mem_ends (hnil : .nil ∉ t.ids) (he : t.Even n) (h : e ∈ t.ends d) : d + n ≤ e + 1 := by
  induction t generalizing n d with
  | nil => simp [ends] at h
  | node c l a r ihl ihr =>
    obtain ⟨m, hl, hr, rfl⟩ := he
    have hweight : c.weight ≤ 1 := by cases c <;> simp [Color.weight]
    have hzero : ∀ u : Shape K V, u.top = .nil → .nil ∉ u.ids → u.Even m → m = 0 := by
      rintro (_ | ⟨c', l', a', r'⟩) htop hu hm
      · exact hm
      · exact absurd (htop ▸ top_mem_ids (by simp)) hu
    simp only [ids_node, List.mem_append, List.mem_cons, not_or] at hnil
    simp only [ends, List.mem_append, List.mem_ite_nil_right, List.mem_singleton] at h
    rcases h with ⟨htop | htop, rfl⟩ | h | h
    · have := hzero l htop hnil.1 hl
      omega
    · have := hzero r htop hnil.2.2 hr
      omega
    · have := ihr hnil.2.2 hr h
      omega
    · have := ihl hnil.1 hl h
      omega

theorem lt_of_mem_ends (h : e ∈ t.ends d) : e < d + t.height := by
  induction t generalizing d with
  | nil => simp [ends] at h
  | node c l a r ihl ihr =>
    simp only [ends, List.mem_append, List.mem_ite_nil_right, List.mem_singleton] at h
    rw [height]
    rcases h with ⟨-, rfl⟩ | h | h
    · omega
    · have := ihr h
      omega
    · have := ihl h
      omega

theorem exists_mem_ends (h : t ≠ nil) (d : ℕ) : ∃ e, e ∈ t.ends d := by
  induction t generalizing d with
  | nil => exact absurd rfl h
  | node c l a r ihl ihr =>
    simp only [ends, List.mem_append, List.mem_ite_nil_right, List.mem_singleton]
    by_cases htop : l.top = .nil ∨ r.top = .nil
    · exact ⟨d, .inl ⟨htop, rfl⟩⟩
    · have hl : l ≠ nil := by
        rintro rfl
        exact htop (.inl rfl)
      obtain ⟨e, he⟩ := ihl hl (d + 1)
      exact ⟨e, .inr (.inr he)⟩

end Shape

/-! ## The depths that are sampled -/

/-- What the depths of a red-black tree that is not empty are, as they are sampled. -/
theorem Shape.RedBlack.depths {t : Shape K V} {n : ℕ} (h : t.RedBlack n) (hnil : .nil ∉ t.ids)
    (hn : n < 2 ^ 63) (hne : t ≠ .nil) : n ≤ (Depth.empty.sampleAll (t.ends 1)).min.toNat ∧
      (Depth.empty.sampleAll (t.ends 1)).min ≤ (Depth.empty.sampleAll (t.ends 1)).max ∧
      (Depth.empty.sampleAll (t.ends 1)).max.toNat ≤ 2 * n := by
  have hheight := h.height_le
  have hlt : ∀ e ∈ t.ends 1, e < 1 + t.height := fun e => lt_of_mem_ends
  have hsmall : ∀ e ∈ t.ends 1, e < 2 ^ 64 := by
    intro e he
    have := hlt e he
    omega
  refine ⟨?_, ?_, ?_⟩
  · refine (Depth.le_min_sampleAll hsmall).2 ⟨?_, fun e he => ?_⟩
    · rw [show Depth.empty.min.toNat = 2 ^ 64 - 1 from rfl]
      omega
    · have := le_of_mem_ends hnil h.even he
      omega
  · obtain ⟨e, he⟩ := exists_mem_ends hne 1
    rw [UInt64.le_iff_toNat_le]
    exact (((Depth.le_min_sampleAll hsmall).1 le_rfl).2 e he).trans
      (((Depth.max_sampleAll_le hsmall).1 le_rfl).2 e he)
  · refine (Depth.max_sampleAll_le hsmall).2 ⟨Nat.zero_le _, fun e he => ?_⟩
    have := hlt e he
    omega

/-! ## The check -/

namespace Store

variable {s : Store K V} {t : Shape K V} {n : ℕ}

/-- A settled tree keeps all rules, if it is in order and not too deep. -/
theorem UnlatchedTree.valid (hs : s.UnlatchedTree t) (hsorted : t.Sorted cmp) (hn : t.RedBlack n)
    (hheight : t.height ≤ Tree.maxDepth) : Heap.Valid cmp s.node? t n where
  sentinel := ⟨_, hs.settled.tidy.tree.sentinel, rfl, rfl⟩
  anchor := ⟨_, hs.settled.tidy.tree.anchor, rfl, rfl, rfl, rfl⟩
  hangs := hs.settled.tidy.tree.hangs
  distinct := hs.settled.tidy.tree.distinct.sublist ((List.sublist_cons_self _ _).cons_cons _)
  sorted := hsorted
  colors := hn
  shallow := hheight

/-- The count of entries is not beyond what 64 bits tell, if the slots are not. -/
theorem UnlatchedTree.toNat_len (hs : s.UnlatchedTree t) (hslots : s.slots.size < 2 ^ 64) :
    s.len.toNat = t.size := by
  have hle : t.ids.length + 2 ≤ s.slots.size := hs.settled.tidy.size_le
  rw [Shape.length_ids] at hle
  rw [show s.len = UInt64.ofNat t.size from hs.settled.entries]
  exact UInt64.toNat_ofNat_of_lt' (lt_of_le_of_lt (Nat.le_of_add_right_le hle) hslots)

theorem UnlatchedTree.check_of_valid [Std.TransCmp cmp] (hs : s.UnlatchedTree t)
    (hv : Heap.Valid cmp s.node? t n) : ∃ s', s.check cmp t.size =
      (.ok (.ok ⟨t.size, n, Depth.empty.sampleAll (t.ends 1)⟩), s') := by
  have haccepts : (Tree.check cmp t.size).Accepts s.content 0 _ :=
    Tree.check_accepts hs.settled.tidy.sound.made
  obtain ⟨res, hres, hiff⟩ := haccepts
  obtain ⟨s', -, hrun⟩ := hres.run rfl hs.shows (fun _ => le_rfl) []
  rw [(hiff _).2 ⟨t, n, hv, rfl, rfl⟩] at hrun
  exact ⟨s', hrun⟩

end Store

namespace Index

variable {ix : Index K V} {report : Tree.Report} {s : Store K V}

theorem acquire_quiet (hlocked : ix.mutex.locked = false) (hpoisoned : ix.mutex.poisoned = false)
    (hlatch : ix.latch.admitsReader = true) :
    ∃ ix', ix.acquire ix.strategy.quietPermit = .ok ix' ∧ ix'.store = ix.store := by
  cases ix.strategy with
  | global | coupled =>
    refine ⟨{ ix with mutex := { ix.mutex with locked := true } }, ?_, rfl⟩
    simp [acquire, Strategy.quietPermit, hlocked, hpoisoned]
  | readWrite =>
    refine ⟨{ ix with latch := ix.latch.enter }, ?_, rfl⟩
    simp [acquire, Strategy.quietPermit, hlatch]

theorem validate_of (h : ix.store.validate cmp = (.ok (.ok report), s)) :
    (ix.validate cmp).1 = .ok true := by
  simp only [validate, onStore, h]
  rfl

theorem verify_of (h : ix.store.validate cmp = (.ok (.ok report), s))
    (hlocked : ix.mutex.locked = false) (hpoisoned : ix.mutex.poisoned = false)
    (hlatch : ix.latch.admitsReader = true) : ∃ stats, (ix.verify cmp).1 = .ok (.ok stats) ∧
      stats.count = ix.len ∧ stats.blacks = some (.ofNat report.blacks) ∧
      stats.depths = some report.depths := by
  obtain ⟨ix', hacquire, hstore⟩ := acquire_quiet hlocked hpoisoned hlatch
  have hlen : ix'.stats.count = ix.len := congrArg Store.len hstore
  rw [← hstore] at h
  simp only [verify, under, hacquire, onStore, h]
  exact ⟨_, rfl, hlen, rfl, rfl⟩

end Index

/-- Every tree that updates make passes the check, also that of an index, if it has fewer than
2 ^ 51 - 1 entries. What is reported is the black height of that tree and how deep it is where it ends:
at least as deep as its black height and at most twice that. There are exponentially many entries, so
that the limit of the depth is never reached. Slots are numbered in 64 bits; so the count of entries has
not wrapped around. -/
theorem Store.validate_updates (cmp : K → K → Ordering) [Std.TransCmp cmp] {spin : Bool}
    {us : List (Update K V)} {olds : List (Option V)} {s : Store K V}
    (hrun : (Store.empty spin).updates cmp us = (.ok olds, s)) (hslots : s.slots.size < 2 ^ 64)
    (hlen : s.len.toNat < 2 ^ 51 - 1) :
    ∃ t report s', Heap.Valid cmp s.node? t report.blacks ∧
      report.depths = Depth.empty.sampleAll (t.ends 1) ∧
      s.validate cmp = (.ok (.ok report), s') ∧ report.count = s.len.toNat ∧
      (∀ ix : Index K V, ix.store = s → (ix.validate cmp).1 = .ok true ∧
        (ix.mutex.locked = false → ix.mutex.poisoned = false → ix.latch.admitsReader = true →
          ∃ stats, (ix.verify cmp).1 = .ok (.ok stats) ∧ stats.count = ix.len ∧
            stats.blacks = some (.ofNat report.blacks) ∧ stats.depths = some report.depths)) ∧
      (s.len ≠ 0 → report.blacks ≤ report.depths.min.toNat ∧
        report.depths.min ≤ report.depths.max ∧ report.depths.max.toNat ≤ 2 * report.blacks ∧
        2 ^ report.blacks - 1 ≤ s.len.toNat ∧ 2 * report.blacks ≤ Tree.maxDepth) := by
  obtain ⟨olds', s₁, t, m, hrun', htree, hsorted, -⟩ :=
    (Store.Reads.empty (V := V) cmp spin).updates us
  obtain ⟨-, rfl⟩ := Prod.mk.inj (hrun'.symm.trans hrun)
  obtain ⟨n, hn⟩ := htree.settled.colors
  have hsize := htree.toNat_len hslots
  rw [hsize] at hlen
  have hblacks := hn.even.le_of_size hlen
  have hheight := hn.height_le
  have hvalid : Heap.Valid cmp s₁.node? t n := htree.valid hsorted hn (by rw [Tree.maxDepth]; omega)
  obtain ⟨s', hcheck⟩ := htree.check_of_valid hvalid
  have hvalidate : s₁.validate cmp =
      (.ok (.ok ⟨t.size, n, Depth.empty.sampleAll (t.ends 1)⟩), s') := by
    rw [validate, hsize]
    exact hcheck
  refine ⟨t, _, s', hvalid, rfl, hvalidate, hsize.symm, fun ix hix => ?_, fun hne => ?_⟩
  · subst hix
    exact ⟨Index.validate_of hvalidate, Index.verify_of hvalidate⟩
  · have hne' : t ≠ .nil := by
      rintro rfl
      exact hne (by rw [← UInt64.toNat_inj, hsize]; rfl)
    have hnil : .nil ∉ t.ids := fun hmem => htree.settled.tidy.tree.ne_nil hmem rfl
    obtain ⟨hmin, hle, hmax⟩ := hn.depths hnil (by omega) hne'
    refine ⟨hmin, hle, hmax, ?_, ?_⟩
    · rw [hsize]
      exact Nat.sub_le_of_le_add hn.even.pow_le
    · rw [Tree.maxDepth]
      exact Nat.mul_le_mul_left 2 hblacks

/-- Four keys, one of which is erased again. -/
theorem Store.validate_updates_compare : ∃ s : Store ℕ ℕ, ∃ t report s',
    ((Store.empty true).updates compare
      [.set 5 50, .set 3 30, .set 8 80, .set 1 10, .remove 8]).2 = s ∧
    s.slots.size = 6 ∧ s.len = 3 ∧ Heap.Valid compare s.node? t report.blacks ∧
    s.validate compare = (.ok (.ok report), s') ∧ report.depths.max.toNat ≤ 2 * report.blacks := by
  obtain ⟨olds, s, -, hrun, -⟩ := (Store.UnlatchedTree.empty true).updates (compare : ℕ → ℕ → Ordering)
    [.set 5 50, .set 3 30, .set 8 80, .set 1 10, .remove 8]
  have hs : s.slots.size = 6 ∧ s.len = 3 := by
    rw [show s = _ from (congrArg Prod.snd hrun).symm]
    decide +kernel
  obtain ⟨hslots, hlen⟩ := hs
  obtain ⟨t, report, s', hvalid, -, hvalidate, -, -, hdepths⟩ := Store.validate_updates compare hrun
    (by rw [hslots]; decide) (by rw [hlen]; decide)
  obtain ⟨-, -, hmax, -⟩ := hdepths (by rw [hlen]; decide)
  exact ⟨s, t, report, s', congrArg Prod.snd hrun, hslots, hlen, hvalid, hvalidate, hmax⟩

end LatchTree
