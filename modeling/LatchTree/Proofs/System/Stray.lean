import LatchTree.Proofs.System.Schedule
import LatchTree.Proofs.System.Track

/-!
Lookups that let go of a node before they have the child. They check that the one is still linked to
the other, not that the search for the key still comes to either: that is how an entry can be missed
that is in the tree all the time.
-/

namespace LatchTree.System

variable {K V : Type} {cmp : K → K → Ordering} {k : K} {s : ℕ → System K V} {b i j n : ℕ}
  {v : Option V}

section

variable [Std.TransCmp cmp]

omit [Std.TransCmp cmp] in
/-- The step by which a lookup strays takes it off the way of the search. -/
theorem Sound.astray_of_strays {c c' : System K V} {t t' : Shape K V} {g : Grips}
    (hs : c.Sound cmp k t g) (hm : c.Moves cmp k c' t t') (hstrays : c.Strays cmp k)
    (hanew : ¬c'.reader.Anew) :
    c'.reader.Astray cmp k c'.store.content t' := by
  obtain ⟨seen, cur, next, child, m, hl, href, u, hu, hout⟩ := hstrays
  obtain rfl := hu.unique hs.tidy.tree
  cases hm with
  | rest hreader =>
    rw [hreader, hl] at hanew
    exact absurd trivial hanew
  | write g hreader =>
    rw [hreader, hl] at hanew
    exact absurd trivial hanew
  | look hnext hcontent hshape =>
    have hfits := hs.reader
    rw [hl] at hfits hnext
    obtain ⟨-, -, hne, -, rfl⟩ := hfits
    rw [hcontent, hshape]
    generalize c'.reader = l' at hnext ⊢
    cases hnext with
    | unlinked => trivial
    | checking =>
      intro i hi hmeets
      obtain ⟨j, hj⟩ := hs.tidy.at_of_towards hne
      have hmem := (hj.next hs.tidy hne).1
      obtain rfl := hs.tidy.sound.inj _ _ _ hi.ref href
      exact hout (hmeets.resolve_left (hs.tidy.tree.ne_anchor hmem))

theorem Run.linked_of_reaches {fuel : ℕ} (h : Run cmp k s n) (hi : i ≤ n)
    (hr : (s i).store.reaches cmp k fuel ((s i).store.node 1).left = true) :
    (s i).Linked cmp k := by
  obtain ⟨t, g, ht⟩ := h.sound hi
  exact ht.linked_of_reaches hr

/-- The lookup stays off the way of the search as long as its key is in the tree. -/
theorem Sound.astray_step {c c' : System K V} {t t' : Shape K V} {g g' : Grips}
    (hs : c.Sound cmp k t g) (hs' : c'.Sound cmp k t' g') (hm : c.Moves cmp k c' t t')
    (hk : c'.Linked cmp k) (hanew : ¬c'.reader.Anew)
    (h : c.reader.Astray cmp k c.store.content t) :
    c'.reader.Astray cmp k c'.store.content t' := by
  cases hm with
  | rest hreader hcontent hshape =>
    rw [hreader, hcontent, hshape]
    exact h
  | write g hreader hc hheld =>
    rw [hreader]
    exact h.changes hc hs.sorted hs.reader hheld (hs'.linked.1 hk)
  | look hnext hcontent hshape hgoes =>
    rw [hcontent, hshape]
    exact hnext.astray hs.tidy hs.sorted hs.reader hgoes h hanew

theorem Run.astray (h : Run cmp k s n) (hi : i ≤ n)
    (hk : ∀ j, b ≤ j → j ≤ n → (s j).Linked cmp k) (hstrayed : Strayed cmp k s b i) :
    ∃ t g, (s i).Sound cmp k t g ∧ (s i).reader.Astray cmp k (s i).store.content t := by
  obtain ⟨j, hbj, hji, hstrays, hanew⟩ := hstrayed
  induction i, hji using Nat.le_induction with
  | base =>
    obtain ⟨t, g, ht⟩ := h.sound (Nat.le_of_succ_le hi)
    obtain ⟨a, ha⟩ := h.step j hi
    obtain ⟨t', g', ht', hm⟩ := ht.step ha
    exact ⟨t', g', ht', ht.astray_of_strays hm hstrays (hanew _ (Nat.lt_succ_self j) le_rfl)⟩
  | succ i hji ih =>
    obtain ⟨t, g, ht, hast⟩ := ih (Nat.le_of_succ_le hi)
      fun j' hj hj' => hanew j' hj (Nat.le_succ_of_le hj')
    obtain ⟨a, ha⟩ := h.step i hi
    obtain ⟨t', g', ht', hm⟩ := ht.step ha
    have hbi : b ≤ i + 1 := hbj.trans (Nat.le_of_succ_le (Nat.le_succ_of_le hji))
    refine ⟨t', g', ht', ht.astray_step ht' hm (hk _ hbi hi) (hanew _ ?_ le_rfl) hast⟩
    exact Nat.lt_succ_of_le (Nat.le_of_succ_le hji)

/-- While the key is in the tree from a start of the lookup to its end, the lookup misses it just if it
has strayed; or there were so many relocations that their count came round. -/
theorem Run.misses_linked (h : Run cmp k s n) (hbn : b ≤ n) (hb : (s b).reader = .start)
    (hk : ∀ i, b ≤ i → i ≤ n → (s i).Linked cmp k) (hv : (s n).reader = .finished v) :
    (Strayed cmp k s b n → v = none) ∧
      (v = none → Strayed cmp k s b n ∨ moves s b + 2 ^ 64 ≤ moves s n) := by
  constructor
  · intro hstrayed
    obtain ⟨t, g, -, hast⟩ := h.astray le_rfl hk hstrayed
    rw [hv] at hast
    exact hast
  · rintro rfl
    refine or_iff_not_imp_right.2 fun hfew => ?_
    obtain ⟨j, hj, cur, hmiss, hafter⟩ := h.decided le_rfl (.inr hv)
    have hbj : b ≤ j := by
      refine Nat.le_of_not_lt fun hjb => ?_
      have hb' := hafter b hjb hbn
      rw [hb] at hb'
      simp at hb'
    have hfew' : moves s j < moves s b + 2 ^ 64 :=
      (moves_mono s hj.le).trans_lt (Nat.lt_of_not_le hfew)
    have hstrayed := (h.missed hb hbj hj.le hfew' hmiss).resolve_right fun hno =>
      hno (hk j hbj hj.le)
    refine hstrayed.extend hj.le fun i hji hin => ?_
    rcases hafter i hji hin with hl | hl
    · rw [hl]
      exact id
    · rw [hl]
      exact id

/-- A lookup that has let go of a node, and still finds its key. -/
theorem Run.misses_linked_restarted : ∃ (s : ℕ → System Nat Nat) (n : ℕ), Run compare 7 s n ∧
    (s 0).reader = .start ∧ (∀ i, 0 ≤ i → i ≤ n → (s i).Linked compare 7) ∧
    (s n).reader = .finished (some 70) ∧ ¬Strayed compare 7 s 0 n := by
  let us : List (Update Nat Nat) := [.set 10 100, .set 8 80, .set 9 90, .set 7 70]
  let as : List (Action Nat Nat) := List.replicate 7 .look ++ .update (.set 6 60) ::
    (List.replicate 50 .write ++ List.replicate 2 .look ++ List.replicate 14 .write ++
      List.replicate 14 .look)
  have hpass : passes compare 7 (fun c => c.store.reaches compare 7 5 (c.store.node 1).left)
      (ready compare us) as = true := by
    decide +kernel
  have hover : (follow compare 7 (ready compare us) as 88).reader.answer? = some (some 70) := by
    decide +kernel
  have hrun := run_of_passes hpass
  have hlinked := fun i (_ : 0 ≤ i) hi => hrun.linked_of_reaches hi (of_passes (i := i) hpass hi)
  have hl := Lookup.finished_of_answer hover
  have hmisses := Run.misses_linked hrun (Nat.zero_le _) hrun.start hlinked hl
  exact ⟨_, 88, hrun, hrun.start, hlinked, hl, fun h => absurd (hmisses.1 h) (by simp)⟩

/-- A lookup of 7 lets go of 9, as 8 is locked for 6 to be set. Then 7 has taken the place of 8, and when
10 is removed that of 9; so 8 is below 9 again when the lookup checks that, and 7 is not below 8. -/
theorem Run.linked_missed : ∃ (s : ℕ → System Nat Nat) (n : ℕ), Run compare 7 s n ∧
    (∀ i ≤ n, (s i).Linked compare 7) ∧ (∃ i ≤ n, ¬(s i).reader.Coupled) ∧
    moves s n < 2 ^ 64 ∧ (s n).reader = .finished none := by
  let us : List (Update Nat Nat) := [.set 10 100, .set 8 80, .set 9 90, .set 7 70]
  let as : List (Action Nat Nat) := List.replicate 7 .look ++ .update (.set 6 60) ::
    (List.replicate 50 .write ++ List.replicate 2 .look ++ List.replicate 14 .write ++
      .update (.remove 10) :: (List.replicate 79 .write ++ List.replicate 6 .look))
  have hpass : passes compare 7 (fun c => c.store.reaches compare 7 5 (c.store.node 1).left)
      (ready compare us) as = true := by
    decide +kernel
  have hapart : decide (follow compare 7 (ready compare us) as 60).reader.Coupled = false := by
    decide +kernel
  have hover : (follow compare 7 (ready compare us) as 160).reader.answer? = some none := by
    decide +kernel
  have hrun := run_of_passes hpass
  refine ⟨_, 160, hrun, fun i hi => ?_, ⟨60, by decide, of_decide_eq_false hapart⟩,
    (moves_le _ 160).trans_lt (by decide), Lookup.finished_of_answer hover⟩
  exact hrun.linked_of_reaches hi (of_passes hpass hi)

end

end LatchTree.System
