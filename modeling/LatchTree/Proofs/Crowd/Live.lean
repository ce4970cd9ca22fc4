import LatchTree.Proofs.Crowd.Basic

/-!
No deadlock. A writer that waits for readers to leave has closed no door above that one, and a reader
in that node can only wait for a door above it.
-/

namespace LatchTree.Crowd

variable {K V : Type} {cmp : K → K → Ordering} {c : Crowd K V} {t : Shape K V} {g : Grips}

/-- An update or a lookup that has been started is not finished. -/
def Busy (c : Crowd K V) : Prop :=
  c.writer ≠ none ∨ ∃ l ∈ c.lookups, ∀ v, l.phase ≠ .finished v

/-- The writer or one of the lookups can go on. -/
def Live (cmp : K → K → Ordering) (c : Crowd K V) : Prop :=
  (c.step cmp .write).isSome ∨ ∃ i, (c.step cmp (.look i)).isSome

/-- A request that is served takes its thread on. -/
theorem isSome_proceed {σ : Type} {s : Store K V} {q : Request K V} {next : q.Answer → σ}
    (hen : q.enabled s = true) (hans : ∃ a, (q.serve s).1 = .ok a) : (q.proceed s next).isSome := by
  obtain ⟨a, ha⟩ := hans
  rw [Request.proceed, if_pos hen, show q.serve s = (.ok a, (q.serve s).2) from Prod.ext ha rfl]
  rfl

/-- A lookup goes on if all doors above the nodes that it holds are open. -/
theorem Sound.look (h : c.Sound cmp t g) {l : Thread K V} (hl : l ∈ c.lookups)
    (hphase : ∀ v, l.phase ≠ .finished v)
    (hdoors : ∀ r, (∀ i, .reading i ∈ l.holds → i < r) → (g r).latched = false ∧ (g r).locked = false) :
    c.Live cmp := by
  have hfits := h.lookups l hl
  obtain ⟨i, hi⟩ := List.mem_iff_getElem?.1 hl
  obtain ⟨q, next, hq⟩ := hfits.ranked.asks cmp l.key hphase
  have hen : q.enabled c.store = true := by
    refine hfits.ranked.enabled hq h.shows.table fun r hr => ?_
    obtain ⟨hlatched, hlocked⟩ := hdoors r fun i hi => by
      simpa using hr i (by simpa using hfits.holds.mem_iff.1 hi)
    rw [h.shows.word, Latch.Word.admitsReader_compose (Nat.lt_of_succ_lt (h.shows.fits r)),
      hlatched, hlocked]
    rfl
  refine .inr ⟨i, ?_⟩
  simp only [Crowd.step, hi, Option.isSome_map, Thread.go, hq]
  exact isSome_proceed hen (hfits.phase.answered h.tidy hq)

theorem Sound.live (h : c.Sound cmp t g) (hbusy : c.Busy) : c.Live cmp := by
  cases hw : c.writer with
  | none =>
    -- all doors are open
    obtain ⟨l, hl, hphase⟩ := hbusy.resolve_left (· hw)
    have hwriter := h.writer
    rw [hw] at hwriter
    obtain ⟨rfl, -⟩ := hwriter
    exact h.look hl hphase fun r _ => ⟨rfl, rfl⟩
  | some p =>
    have hwriter := h.writer
    rw [hw] at hwriter
    cases p with
    | done v => exact .inl (by simp only [Crowd.step, hw]; rfl)
    | halt f => exact hwriter.elim
    | ask q next =>
      obtain ⟨hq, a, x', hyields, -, -⟩ := hwriter
      by_cases hen : q.enabled c.store = true
      · refine .inl ?_
        simp only [Crowd.step, hw, Option.isSome_map]
        exact isSome_proceed hen ⟨a, (hyields _ rfl).1⟩
      · -- the writer waits for a reader of the node `r`
        obtain ⟨r, rfl, hr⟩ : ∃ r, q = .lock r ∧ c.readers r ≠ 0 := by
          by_contra hnot
          refine hen (h.shows.enabled hq fun r hr => ?_)
          by_contra hzero
          exact hnot ⟨r, hr, hzero⟩
        obtain ⟨l, hl, hmem⟩ := List.mem_flatMap.1 (List.count_pos_iff.1 (Nat.pos_of_ne_zero hr))
        refine h.look hl (fun v hv => ?_) fun i hi => ?_
        · have hnil := (h.lookups l hl).holds
          rw [hv] at hnil
          rw [List.perm_nil.1 hnil] at hmem
          exact absurd hmem List.not_mem_nil
        · have hlast := hq.2.2.2.2 i
          have hlt := hi r hmem
          by_contra hclosed
          refine Nat.not_lt_of_le (Nat.le_of_lt_succ (hlast ?_)) hlt
          cases hlatched : (g i).latched with
          | true => exact .inl rfl
          | false => exact .inr (by simpa [hlatched] using hclosed)

/-- Whatever has been started and is not finished, someone can go on; and no lookup holds more than two
nodes. -/
theorem Run.never_stuck {s : ℕ → Crowd K V} {n : ℕ} (h : Run cmp s n) :
    ((s n).Busy → (s n).Live cmp) ∧ ∀ l ∈ (s n).lookups, l.holds.length ≤ 2 := by
  obtain ⟨t, g, ht⟩ := h.sound le_rfl
  refine ⟨ht.live, fun l hl => ?_⟩
  have hfits := ht.lookups l hl
  rw [hfits.holds.length_eq, List.length_map]
  exact hfits.phase.nodes_length

/-- A lookup of 1 reads the anchor, which the writer is about to lock and another lookup to enter. -/
def waiting : List (Action ℕ ℕ) :=
  [.update (.set 1 10), .enter 1, .enter 2, .look 0, .look 0, .look 1, .look 1, .look 0,
    .write, .write, .write, .write]

theorem Run.never_stuck_waiting :
    ((follow compare true waiting 12).step compare .write).isSome = false ∧
    ((follow compare true waiting 12).step compare (.look 1)).isSome = false ∧
    ∃ i, ((follow compare true waiting 12).step compare (.look i)).isSome = true := by
  have hwait : ((follow compare true waiting 12).step compare .write).isSome = false ∧
      ((follow compare true waiting 12).step compare (.look 1)).isSome = false ∧
      (follow compare true waiting 12).writer.isSome = true := by
    decide +kernel
  have hrun : Run compare (follow compare true waiting) 12 :=
    run_of_follow (by decide +kernel) (by decide)
  refine ⟨hwait.1, hwait.2.1, (Run.never_stuck hrun).1 (.inl ?_) |>.resolve_left (by simp [hwait.1])⟩
  exact Option.isSome_iff_ne_none.1 hwait.2.2

end LatchTree.Crowd
