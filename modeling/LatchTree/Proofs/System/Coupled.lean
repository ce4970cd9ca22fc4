import LatchTree.Proofs.System.Schedule
import LatchTree.Proofs.System.Track

/-!
Lookups that keep hold of a node until they have the child. Whatever a writer does meanwhile, such a
lookup misses no entry that is there when it last compares the counts of relocations, and goes on from
any node as a new one would.
-/

namespace LatchTree.System

variable {K V : Type} {cmp : K → K → Ordering} {k : K} {s : ℕ → System K V} {i n : ℕ}

/-- Without checking a child again there is no straying. -/
theorem not_strayed (hc : ∀ i ≤ n, (s i).reader.Coupled) (hi : i ≤ n) : ¬Strayed cmp k s 0 i := by
  rintro ⟨j, -, hj, ⟨seen, cur, next, child, m, hl, -⟩, -⟩
  have h := hc j (hj.le.trans hi)
  rw [hl] at h
  exact h

variable [Std.TransCmp cmp]

/-- With no update under way the lookup goes on to the answer of a new one. -/
theorem Run.resumes (h : Run cmp k s n) (hc : ∀ i ≤ n, (s i).reader.Coupled)
    (hfew : moves s n < 2 ^ 64) (hidle : (s n).writer = none)
    (hover : ∀ v, (s n).reader ≠ .finished v) (hs : List Hold) : ∃ v s₁ s₂,
      Lookup.run cmp k (s n).store hs (4 * (s n).store.patience) (s n).reader = (.ok v, s₁) ∧
        (s n).store.findCoupled cmp k = (.ok v, s₂) := by
  obtain ⟨t, g, ht, htrack⟩ := h.tracked h.start (Nat.zero_le n) le_rfl
    (hfew.trans_le (Nat.le_add_left ..))
  have hpath := fun ht => (htrack.onPath ht).resolve_left (not_strayed hc le_rfl)
  obtain rfl : g = .free := by
    have hwriter := ht.writer
    rw [hidle] at hwriter
    exact hwriter.1
  have hle := Store.le_patience ht.tidy
  have hfuel : 6 * t.size + 18 < 4 * (s n).store.patience := by omega
  have hfuel' : 3 * t.size + 9 < 4 * (s n).store.patience := by omega
  have hshows : (s n).store.Shows (fun r => 0 + (s n).reader.nodes.count r) .free := by
    simpa only [Nat.zero_add] using ht.shows
  have hends := ht.reader.ends (o := fun _ => 0) ht.tidy (by simp) ht.sorted (hc n le_rfl) hover
    hpath rfl hshows
  have hnew := Lookup.ends_start (o := fun r => (s n).reader.nodes.count r) ht.tidy
    (fun r => (List.count_le_length ..).trans ht.reader.nodes_length) cmp k rfl ht.shows
  obtain ⟨s₁, h₁⟩ := hends.run hs hfuel
  obtain ⟨s₂, h₂⟩ := hnew.run [] hfuel'
  exact ⟨_, s₁, s₂, h₁, h₂⟩

/-- A lookup that at no time lets go of a node before it has the child misses its key only if that is
not in the tree when it last compares the counts of relocations. Wherever it has stopped, with no
update under way, it goes on to the answer of a lookup that starts then. -/
theorem Run.coupled (h : Run cmp k s n) (hc : ∀ i ≤ n, (s i).reader.Coupled)
    (hfew : moves s n < 2 ^ 64) :
    ((s n).reader = .finished none → ∃ j < n, ∃ cur,
      (s j).reader = .missed (s j).store.relocations cur ∧
      (∀ i, j < i → i ≤ n →
        (s i).reader = .answering cur none ∨ (s i).reader = .finished none) ∧
      ¬(s j).Linked cmp k) ∧
    ((s n).writer = none → (∀ v, (s n).reader ≠ .finished v) → ∀ hs, ∃ v s₁ s₂,
      Lookup.run cmp k (s n).store hs (4 * (s n).store.patience) (s n).reader = (.ok v, s₁) ∧
        (s n).store.findCoupled cmp k = (.ok v, s₂)) := by
  refine ⟨fun hl => ?_, h.resumes hc hfew⟩
  obtain ⟨j, hj, cur, hmiss, hafter⟩ := h.decided le_rfl (.inr hl)
  have hfew' : moves s j < moves s 0 + 2 ^ 64 :=
    ((moves_mono s hj.le).trans_lt hfew).trans_le (Nat.le_add_left ..)
  have hunlinked := h.missed h.start (Nat.zero_le j) hj.le hfew' hmiss
  exact ⟨j, hj, cur, hmiss, hafter, hunlinked.resolve_left (not_strayed hc hj.le)⟩

/-- A lookup misses its key while the writer sets another, which it does before it has the root. -/
theorem Run.coupled_compare : ∃ (s : ℕ → System Nat Nat) (n : ℕ), Run compare 2 s n ∧
    (∀ i ≤ n, (s i).reader.Coupled) ∧ moves s n < 2 ^ 64 ∧ (s n).reader = .finished none ∧
    ∃ j < n, ¬(s j).Linked compare 2 := by
  let us : List (Update Nat Nat) := [.set 1 10]
  let as : List (Action Nat Nat) := List.replicate 3 .look ++ .update (.set 0 5) ::
    (List.replicate 24 .write ++ List.replicate 5 .look)
  have hpass : passes compare 2 (fun c => decide c.reader.Coupled) (ready compare us) as = true := by
    decide +kernel
  have hover : (follow compare 2 (ready compare us) as 33).reader.answer? = some none := by
    decide +kernel
  have hrun := run_of_passes hpass
  have hcoupled := fun i hi => of_decide_eq_true (of_passes (i := i) hpass hi)
  have hfew : moves (follow compare 2 (ready compare us) as) 33 < 2 ^ 64 :=
    (moves_le _ 33).trans_lt (by decide)
  have hl := Lookup.finished_of_answer hover
  obtain ⟨j, hj, -, -, -, hunlinked⟩ := (Run.coupled hrun hcoupled hfew).1 hl
  exact ⟨_, 33, hrun, hcoupled, hfew, hl, j, hj, hunlinked⟩

end LatchTree.System
