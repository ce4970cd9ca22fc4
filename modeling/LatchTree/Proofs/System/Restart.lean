import LatchTree.Proofs.Crowd.Live
import LatchTree.Proofs.Granted
import LatchTree.Proofs.Lookup.Firm
import LatchTree.Proofs.System.Schedule

/-!
What sends a lookup back to its start. Latches that others hold make it wait or let go of a node, no more;
only a section of the writer that takes effect after the lookup has started makes it start again.
-/

namespace LatchTree

variable {K V : Type} {cmp : K → K → Ordering} {k : K} {t : Shape K V} {g : Grips}

/-! ## Steps that no section takes effect in -/

theorem Request.relocations_serve {s : Store K V} {q : Request K V}
    (hq : ∀ ls w, q ≠ .commit ls w) : (q.serve s).2.relocations = s.relocations := by
  cases q with
  | commit ls w => exact absurd rfl (hq ls w)
  | tryRead r =>
    rw [serve]
    split_ifs <;> rfl
  | alloc n =>
    simp only [serve, Store.alloc]
    cases s.vacant <;> rfl
  | free id =>
    simp only [serve, Store.free]
    split_ifs
    · rfl
    · split <;> rfl
  | _ => rfl

/-- A lookup changes nothing but the words of latches. -/
theorem Lookup.content_serve {l : Lookup K V} {q : Request K V} {next : q.Answer → Lookup K V}
    (hq : l.turn cmp k = .ask q next) (s : Store K V) : (q.serve s).2.content = s.content := by
  have hresolve : ∀ id, (Request.serve s (.resolve id)).2.content = s.content := by
    intro id
    simp only [Request.serve, Store.get]
    rfl
  have hread : ∀ r, (Request.serve s (.read r)).2.content = s.content :=
    fun r => Store.content_mapWord ..
  cases l with
  | start | missed =>
    cases hq
    rfl
  | atTop | resolving | checking =>
    cases hq
    exact hresolve _
  | entering | againParent | againChild =>
    cases hq
    exact hread _
  | moving | backing | retreating | answering =>
    cases hq
    exact Store.content_letGo ..
  | stepping =>
    simp only [turn] at hq
    split_ifs at hq
    · cases hq
      exact hread _
    · cases hq
      rw [Request.serve]
      split_ifs
      · exact Store.content_mapWord ..
      · rfl
  | apart =>
    simp only [turn] at hq
    split_ifs at hq
    all_goals
      cases hq
      exact hread _
  | finished => exact absurd hq (by simp [turn])

def Action.isLook : Action K V → Bool
  | .look => true
  | .update _ | .write => false

def Lookup.isStart : Lookup K V → Bool
  | start => true
  | _ => false

theorem Lookup.isStart_iff {l : Lookup K V} : l.isStart = true ↔ l = start := by
  cases l <;> simp [isStart]

namespace System

variable {c c' : System K V} {a : Action K V} {N : ℕ}

/-- The writes of the writer under a lock set take effect. -/
def commits (c : System K V) : Action K V → Bool
  | .write =>
    match c.writer with
    | some (.ask (.commit _ _) _) => true
    | _ => false
  | .update _ | .look => false

/-- The writer goes on by a request, or is through with one update, or takes up another. -/
theorem other_eq_some (h : c.step cmp k a = some c') (ha : a.isLook = false) :
    c'.reader = c.reader ∧ (c'.store = c.store ∨ ∃ q next b, a = .write ∧
      c.writer = some (.ask q next) ∧ q.serve c.store = (.ok b, c'.store)) := by
  cases a with
  | look => cases ha
  | update u =>
    simp only [System.step] at h
    split at h <;> cases h
    exact ⟨rfl, .inl rfl⟩
  | write =>
    simp only [System.step] at h
    split at h
    · cases h
      exact ⟨rfl, .inl rfl⟩
    · rename_i q next hask
      obtain ⟨⟨s, p⟩, hs, rfl⟩ := Option.map_eq_some_iff.1 h
      obtain ⟨-, b, hserve, -⟩ := Request.proceed_eq_some hs
      exact ⟨rfl, .inr ⟨q, next, b, rfl, hask, hserve⟩⟩
    · cases h
    · cases h

/-- A step in which no section takes effect leaves the tree as it is. -/
theorem Intact.spares (h : c.Intact cmp k t g) (hstep : c.step cmp k a = some c')
    (hno : c.commits a = false) :
    ∃ g', c'.Intact cmp k t g' ∧ c.store.content.Spares t c'.store.content := by
  obtain ⟨t', g', h', hm⟩ := h.step hstep
  have hkeeps : (∀ r < c.store.content.made, c'.store.content.node r = c.store.content.node r) ∧
      c'.store.content.relocations = c.store.content.relocations := by
    cases ha : a.isLook with
    | true =>
      cases a with
      | look =>
        obtain ⟨q, next, b, hq, -, hserve, -⟩ := look_eq_some hstep
        have hcontent := Lookup.content_serve hq c.store
        rw [hserve] at hcontent
        exact hcontent ▸ ⟨fun _ _ => rfl, rfl⟩
      | update | write => cases ha
    | false =>
      rcases (other_eq_some hstep ha).2 with hs | ⟨q, next, b, rfl, hask, hserve⟩
      · exact hs ▸ ⟨fun _ _ => rfl, rfl⟩
      · have hq : ∀ ls w, q ≠ .commit ls w := by
          rintro ls w rfl
          simp [commits, hask] at hno
        have hstore : (q.serve c.store).2 = c'.store := congrArg Prod.snd hserve
        exact hstore ▸ ⟨fun r hr => Request.node_serve hq hr, Request.relocations_serve hq⟩
  cases hm with
  | rest hreader hcontent hshape | look hnext hcontent hshape =>
    subst hshape
    exact ⟨g', h', hkeeps.1, fun i _ => congrArg (·.ref? i) hcontent, hkeeps.2⟩
  | write g₁ hreader hc hheld =>
    obtain rfl := hc.same hkeeps.1
    exact ⟨g', h', hkeeps.1, hc.refs, hkeeps.2⟩

theorem Intact.firm (h : c.Intact cmp k t g) (hf : c.reader.Firm cmp k c.store.content t N)
    (hstep : c.step cmp k a = some c') (hno : c.commits a = false) :
    ∃ g' M, c'.Intact cmp k t g' ∧ c'.reader.Firm cmp k c'.store.content t M ∧
      M + (if a.isLook then 1 else 0) ≤ N := by
  obtain ⟨g', h', hs⟩ := h.spares hstep hno
  cases ha : a.isLook with
  | true =>
    cases a with
    | look =>
      obtain ⟨q, next, b, hq, -, hserve, hreader, -⟩ := look_eq_some hstep
      have hcontent := Lookup.content_serve hq c.store
      rw [hserve] at hcontent
      obtain ⟨M, hlt, hM⟩ := hf.turn h.tidy h.reader hq hserve
      refine ⟨g', M, h', ?_, hlt⟩
      rw [hreader, hcontent]
      exact hM
    | update | write => cases ha
  | false =>
    obtain ⟨hreader, -⟩ := other_eq_some hstep ha
    exact ⟨g', N, h', hreader ▸ hf.spared h.tidy hs h.reader, le_rfl⟩

/-! ## The lookup goes on -/

theorem Run.ranked {s : ℕ → System K V} {n i : ℕ} (h : Run cmp k s n) (hi : i ≤ n) :
    (s i).reader.Ranked := by
  induction i with
  | zero =>
    rw [h.start]
    trivial
  | succ i ih =>
    have hr := ih (Nat.le_of_succ_le hi)
    obtain ⟨t, g, ht⟩ := h.intact (Nat.le_of_succ_le hi)
    obtain ⟨a, ha⟩ := h.step i hi
    cases hl : a.isLook with
    | true =>
      cases a with
      | look =>
        obtain ⟨q, next, b, hq, -, hserve, hreader, -⟩ := look_eq_some ha
        rw [hreader]
        exact (ht.reader.turn ht.tidy hr hq hserve).1
      | update | write => cases hl
    | false =>
      rw [(other_eq_some ha hl).1]
      exact hr

/-- A lookup that is not finished can go on, or else the writer can. -/
theorem Run.goes_on {s : ℕ → System K V} {n : ℕ} (h : Run cmp k s n)
    (hl : ∀ v, (s n).reader ≠ .finished v) :
    ((s n).step cmp k .look).isSome ∨ ((s n).step cmp k .write).isSome := by
  obtain ⟨t, g, ht⟩ := h.intact le_rfl
  let l : Thread K V :=
    { key := k, phase := (s n).reader, holds := (s n).reader.nodes.map .reading }
  let c : Crowd K V := { store := (s n).store, writer := (s n).writer, lookups := [l] }
  have hreaders : c.readers = fun r => (s n).reader.nodes.count r := by
    funext r
    rw [Crowd.readers, List.flatMap_singleton]
    exact List.count_map_of_injective _ _ (fun _ _ h => Hold.reading.inj h) _
  have hc : c.Sound cmp t g := by
    refine ⟨ht.tidy, fun _ => ?_, hreaders ▸ ht.shows, ht.writer, fun l' hl' => ?_⟩
    · obtain ⟨t', g', ht'⟩ := h.sound le_rfl
      rw [ht.tidy.tree.unique ht'.tidy.tree]
      exact ht'.sorted
    · obtain rfl := List.mem_singleton.1 hl'
      exact ⟨ht.reader, h.ranked le_rfl, .refl _⟩
  rcases hc.live (.inr ⟨l, List.mem_singleton_self l, hl⟩) with hw | ⟨i, hi⟩
  · refine .inr ?_
    obtain ⟨c', hc'⟩ := Option.isSome_iff_exists.1 hw
    simp only [Crowd.step] at hc'
    simp only [System.step]
    split at hc'
    · rename_i v hdone
      rw [show (s n).writer = some (.done v) from hdone]
      rfl
    · rename_i q next hask
      obtain ⟨x, hx, -⟩ := Option.map_eq_some_iff.1 hc'
      rw [show (s n).writer = some (.ask q next) from hask]
      simp only [Option.isSome_map]
      exact Option.isSome_iff_exists.2 ⟨x, hx⟩
    · cases hc'
    · cases hc'
  · refine .inl ?_
    obtain ⟨c', hc'⟩ := Option.isSome_iff_exists.1 hi
    simp only [Crowd.step] at hc'
    split at hc'
    · rename_i l' hl'
      obtain rfl : l' = l := List.mem_singleton.1 (List.mem_of_getElem? hl')
      obtain ⟨⟨s', l'⟩, hgo, -⟩ := Option.map_eq_some_iff.1 hc'
      obtain ⟨q, next, b, hq, hen, hserve, -⟩ := Thread.go_eq_some hgo
      simp only [System.step, show (s n).reader.turn cmp k = .ask q next from hq,
        Option.isSome_map]
      exact Crowd.isSome_proceed hen ⟨b, congrArg Prod.fst hserve⟩
    · cases hc'

/-! ## Runs -/

variable {s : ℕ → System K V} {as : ℕ → Action K V} {b i j n : ℕ}

/-- How many sections of the writer take effect in the first `n` steps. -/
def sections (s : ℕ → System K V) (as : ℕ → Action K V) (n : ℕ) : ℕ :=
  Nat.count (fun i => (s i).commits (as i) = true) n

/-- How many of the first `n` steps the lookup takes. -/
def looks (as : ℕ → Action K V) (n : ℕ) : ℕ :=
  Nat.count (fun i => (as i).isLook = true) n

/-- How often the lookup comes back to its start in the first `n` steps. -/
def restarts (s : ℕ → System K V) (n : ℕ) : ℕ :=
  Nat.count (fun i => (s i).reader.isStart = false ∧ (s (i + 1)).reader.isStart = true) n

theorem sections_mono (s : ℕ → System K V) (as : ℕ → Action K V) (h : i ≤ j) :
    sections s as i ≤ sections s as j :=
  Nat.count_monotone _ h

theorem sections_succ (s : ℕ → System K V) (as : ℕ → Action K V) (i : ℕ) :
    sections s as (i + 1) = sections s as i + if (s i).commits (as i) = true then 1 else 0 :=
  Nat.count_succ ..

theorem looks_succ (as : ℕ → Action K V) (i : ℕ) :
    looks as (i + 1) = looks as i + if (as i).isLook then 1 else 0 :=
  Nat.count_succ ..

section

variable (h : Run cmp k s n) (has : ∀ i < n, (s i).step cmp k (as i) = some (s (i + 1)))

include has

/-- As long as no section takes effect after a start of the lookup, the tree stays, and each request takes
the lookup nearer to its end. -/
theorem Intact.firm_until (ht : (s b).Intact cmp k t g) (hb : (s b).reader = .start) (hbi : b ≤ i)
    (hi : i ≤ n) (hno : sections s as i = sections s as b) :
    ∃ g' N, (s i).Intact cmp k t g' ∧ (s i).reader.Firm cmp k (s i).store.content t N ∧
      looks as i + N ≤ looks as b + (7 * t.size + 10) := by
  induction i, hbi using Nat.le_induction with
  | base => exact ⟨g, _, ht, hb ▸ le_rfl, le_rfl⟩
  | succ i hbi ih =>
    have hmono := sections_mono s as hbi
    rw [sections_succ] at hno
    have hcommits : (s i).commits (as i) = false := by
      by_contra hcommits
      rw [if_pos (by simpa using hcommits)] at hno
      omega
    obtain ⟨g₁, N, h₁, hf, hle⟩ := ih (Nat.le_of_succ_le hi) (by omega)
    obtain ⟨g₂, M, h₂, hf', hM⟩ := h₁.firm hf (has i hi) hcommits
    refine ⟨g₂, M, h₂, hf', ?_⟩
    rw [looks_succ]
    omega

/-- It is only from a retreat that a lookup comes to its start. -/
theorem retreats_of_restart (hi : i < n) (hl : (s i).reader.isStart = false)
    (hl' : (s (i + 1)).reader.isStart = true) :
    ∃ first rest, (s i).reader = .retreating first rest := by
  have hstep := has i hi
  rw [Lookup.isStart_iff] at hl'
  cases ha : (as i).isLook with
  | false =>
    have hreader := (other_eq_some hstep ha).1
    rw [← hreader, hl'] at hl
    cases hl
  | true =>
    cases hai : as i with
    | update | write =>
      rw [hai] at ha
      cases ha
    | look =>
      rw [hai] at hstep
      obtain ⟨q, next, b, hq, -, hserve, hreader, -⟩ := look_eq_some hstep
      have hnext := Lookup.next_of_turn hq hserve
      rw [← hreader, hl'] at hnext
      generalize (s i).reader = l at hnext
      generalize hstart : (Lookup.start : Lookup K V) = l' at hnext
      cases hnext with
      | restarting => exact ⟨_, _, rfl⟩
      | entering | moving =>
        rcases Lookup.visit_cases _ _ _ with ⟨-, h⟩ | h | h <;> exact absurd (hstart.trans h) (by simp)
      | againParent | againChild =>
        unfold Lookup.rejoin at hstart
        split_ifs at hstart
      | _ => cases hstart

include h

/-- Between a start of a lookup and its way back to the start a section takes effect. -/
theorem Run.sections_lt {first : Ref} {rest : List Ref} (hbi : b ≤ i) (hi : i ≤ n)
    (hb : (s b).reader = .start) (hl : (s i).reader = .retreating first rest) :
    sections s as b < sections s as i := by
  refine lt_of_le_of_ne (sections_mono s as hbi) fun hno => ?_
  obtain ⟨t, g, ht⟩ := h.intact (hbi.trans hi)
  obtain ⟨-, N, -, hf, -⟩ := ht.firm_until has hb hbi hi hno.symm
  rw [hl] at hf
  exact hf

theorem Run.restarts_le (hbi : b ≤ i) (hi : i ≤ n) (hb : (s b).reader = .start) :
    restarts s i + sections s as b ≤ restarts s b + sections s as i := by
  -- `p` is the last start
  have hlast : ∃ p, b ≤ p ∧ p ≤ i ∧ (s p).reader = .start ∧
      restarts s i + sections s as b ≤ restarts s b + sections s as p := by
    induction i, hbi using Nat.le_induction with
    | base => exact ⟨b, le_rfl, le_rfl, hb, le_rfl⟩
    | succ i hbi ih =>
      obtain ⟨p, hbp, hpi, hp, hle⟩ := ih (Nat.le_of_succ_le hi)
      by_cases hstart : (s i).reader.isStart = false ∧ (s (i + 1)).reader.isStart = true
      · obtain ⟨first, rest, hl⟩ := retreats_of_restart has hi hstart.1 hstart.2
        have hlt := h.sections_lt has hpi (Nat.le_of_succ_le hi) hp hl
        have hmono := sections_mono s as (Nat.le_add_right i 1)
        refine ⟨i + 1, Nat.le_succ_of_le hbi, le_rfl, Lookup.isStart_iff.1 hstart.2, ?_⟩
        rw [show restarts s (i + 1) = restarts s i + 1 from
          (Nat.count_succ ..).trans (by rw [if_pos hstart]; rfl)]
        omega
      · refine ⟨p, hbp, Nat.le_succ_of_le hpi, hp, ?_⟩
        rwa [show restarts s (i + 1) = restarts s i from
          (Nat.count_succ ..).trans (by rw [if_neg hstart]; rfl)]
  obtain ⟨p, -, hpi, -, hle⟩ := hlast
  exact hle.trans (Nat.add_le_add_left (sections_mono s as hpi) _)

/-- Only sections that take effect send a lookup back: one at least between a start and the way back to
it, so that there are as many sections as restarts. From a start on after which none takes effect, the
lookup does not start again; it makes at most seven requests for each slot, and while it is not finished
it or the writer can go on; and it answers what a search does that runs undisturbed on the tree. -/
theorem Run.restarts_le_sections (hbn : b ≤ n) (hb : (s b).reader = .start) :
    (∀ i j first rest, b ≤ i → i ≤ j → j ≤ n → (s i).reader = .start →
      (s j).reader = .retreating first rest → sections s as i < sections s as j) ∧
    restarts s n + sections s as b ≤ restarts s b + sections s as n ∧
    (sections s as n = sections s as b →
      restarts s n = restarts s b ∧ looks as n ≤ looks as b + 7 * (s b).store.slots.size ∧
      ((∀ v, (s n).reader ≠ .finished v) →
        ((s n).step cmp k .look).isSome ∨ ((s n).step cmp k .write).isSome) ∧
      ∀ v, (s n).reader = .finished v → ∀ i, b ≤ i → i ≤ n → ∀ s₀ : Store K V,
        s₀.content = (s i).store.content → s₀.Unlatched → s₀.find cmp k = (.ok v, s₀)) := by
  have hle := h.restarts_le has hbn le_rfl hb
  refine ⟨fun i j first rest _ hij hj hi hl => h.sections_lt has hij hj hi hl, hle, fun hno => ?_⟩
  obtain ⟨t, g, ht⟩ := h.intact hbn
  obtain ⟨-, N, -, hf, hlooks⟩ := ht.firm_until has hb hbn le_rfl hno
  refine ⟨?_, ?_, h.goes_on, fun v hv i hbi hi s₀ hs₀ hfree => ?_⟩
  · have hmono : restarts s b ≤ restarts s n := Nat.count_monotone _ hbn
    omega
  · have hsize : t.ids.length + 2 ≤ (s b).store.slots.size := ht.tidy.size_le
    rw [Shape.length_ids] at hsize
    omega
  · have hi' := sections_mono s as hi
    have hbi' := sections_mono s as hbi
    obtain ⟨_, _, hti, -⟩ := ht.firm_until has hb hbi hi (by omega)
    obtain rfl : v = t.found cmp k := by
      rw [hv] at hf
      exact hf
    exact hfree.shows.find (hs₀ ▸ hti.tidy) cmp k

end

/-- A lookup of 5 starts; then 2 is removed, and 3 moves up to its place. The lookup misses 5, starts again
and misses it for good. -/
theorem Run.restarts_le_sections_relocating : ∃ (s : ℕ → System ℕ ℕ) (as : ℕ → Action ℕ ℕ) (n : ℕ),
    Run compare 5 s n ∧ (∀ i < n, (s i).step compare 5 (as i) = some (s (i + 1))) ∧
    (s 0).reader = .start ∧ (s n).reader = .finished none ∧
    (∃ first rest, (s 38).reader = .retreating first rest ∧ 0 < sections s as 38) ∧
    restarts s n ≤ sections s as n := by
  let us : List (Update ℕ ℕ) := [.set 2 20, .set 1 10, .set 3 30]
  let as : List (Action ℕ ℕ) := List.replicate 2 .look ++ .update (.remove 2) ::
    (List.replicate 30 .write ++ List.replicate 14 .look)
  let retreats : Lookup ℕ ℕ → Bool
    | .retreating _ _ => true
    | _ => false
  have hpass : passes compare 5 (fun _ => true) (ready compare us) as = true := by decide +kernel
  have hover : (follow compare 5 (ready compare us) as 47).reader.answer? = some none := by
    decide +kernel
  have hback : retreats (follow compare 5 (ready compare us) as 38).reader = true := by
    decide +kernel
  have hrun : Run compare 5 (follow compare 5 (ready compare us) as) 47 := run_of_passes hpass
  have has : ∀ i < 47, (follow compare 5 (ready compare us) as i).step compare 5 (as.getD i .look) =
      some (follow compare 5 (ready compare us) as (i + 1)) := by
    intro i hi
    rw [List.getD_eq_getElem as _ hi]
    exact step_of_passes hpass hi
  obtain ⟨hlt, hle, -⟩ := Run.restarts_le_sections hrun has (Nat.zero_le _) hrun.start
  obtain ⟨first, rest, hl⟩ : ∃ first rest,
      (follow compare 5 (ready compare us) as 38).reader = .retreating first rest := by
    generalize (follow compare 5 (ready compare us) as 38).reader = l at hback
    cases l with
    | retreating => exact ⟨_, _, rfl⟩
    | _ => cases hback
  refine ⟨_, _, 47, hrun, has, hrun.start, Lookup.finished_of_answer hover, ⟨first, rest, hl, ?_⟩, ?_⟩
  · exact (Nat.zero_le _).trans_lt
      (hlt 0 38 first rest le_rfl (Nat.zero_le _) (by decide) hrun.start hl)
  · simpa [restarts, sections] using hle

end System

end LatchTree
