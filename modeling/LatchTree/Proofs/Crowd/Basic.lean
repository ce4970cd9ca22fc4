import LatchTree.Proofs.Crowd.Thread
import LatchTree.Proofs.System.Basic

/-!
Any number of lookups next to a writer. Request by request they go on in any order; the writer makes
one update after the other. Whatever the order, the links unfold to a tree and each lookup keeps what
it relies on.
-/

namespace LatchTree

variable {K V : Type} {cmp : K → K → Ordering}

/-- A lookup with its key, and the permissions that it holds. -/
structure Thread (K V : Type) where
  key : K
  phase : Lookup K V := .start
  holds : List Hold := []

/-- One tree, with a writer and lookups at work on it. -/
structure Crowd (K V : Type) where
  store : Store K V
  /-- What is left of the update under way. -/
  writer : Option (Program K V (Option V)) := none
  lookups : List (Thread K V) := []

/-- Makes the request of a lookup, if it is served at once. -/
def Thread.go (cmp : K → K → Ordering) (s : Store K V) (l : Thread K V) :
    Option (Store K V × Thread K V) :=
  match l.phase.turn cmp l.key with
  | .ask q next => q.proceed s fun a => { l with phase := next a, holds := q.held l.holds a }
  | .done _ | .fault _ => none

namespace Crowd

/-- Who goes on. The writer takes up an update only after it is through with the one before; a lookup
can start at any time. -/
inductive Action (K V : Type) where
  | update (u : Update K V)
  | write
  | enter (k : K)
  | look (i : ℕ)

def step (cmp : K → K → Ordering) (c : Crowd K V) : Action K V → Option (Crowd K V)
  | .update u =>
    match c.writer with
    | none => some { c with writer := some (u.program cmp c.store.patience) }
    | some _ => none
  | .write =>
    match c.writer with
    | some (.done _) => some { c with writer := none }
    | some (.ask q next) =>
      (q.proceed c.store next).map fun (s, p) => { c with store := s, writer := some p }
    | some (.halt _) | none => none
  | .enter k => some { c with lookups := c.lookups ++ [{ key := k }] }
  | .look i =>
    match c.lookups[i]? with
    | some l => (l.go cmp c.store).map fun (s, l) =>
        { c with store := s, lookups := c.lookups.set i l }
    | none => none

/-- How many permissions to read the node `r` the lookups hold. -/
def readers (c : Crowd K V) (r : Ref) : ℕ :=
  (c.lookups.flatMap Thread.holds).count (.reading r)

/-- `n` steps from an empty tree. In no node there are more readers than its latch can count. -/
structure Run (cmp : K → K → Ordering) (c : ℕ → Crowd K V) (n : ℕ) : Prop where
  start : ∃ spin, c 0 = { store := .empty spin }
  step : ∀ i < n, ∃ a, (c i).step cmp a = some (c (i + 1))
  room : ∀ i ≤ n, ∀ r, (c i).readers r + 2 < Latch.Word.room

end Crowd

/-! ## What holds throughout -/

/-- A lookup has what it relies on, and holds what its phase says. -/
structure Thread.Fits (cmp : K → K → Ordering) (x : Content K V) (t : Shape K V) (l : Thread K V) :
    Prop where
  phase : l.phase.Fits cmp l.key x t
  ranked : l.phase.Ranked
  holds : l.holds.Perm (l.phase.nodes.map .reading)

namespace Thread

variable {s s' : Store K V} {x x' : Content K V} {t t' : Shape K V} {l l' : Thread K V} {g : Grips}
  {o : Ref → ℕ}

theorem Fits.count (hl : l.Fits cmp x t) (r : Ref) :
    l.holds.count (.reading r) = l.phase.nodes.count r := by
  rw [hl.holds.count_eq, List.count_map_of_injective _ _ fun _ _ h => Hold.reading.inj h]

theorem held_perm {hs hs' : List Hold} (h : hs.Perm hs') (q : Request K V) (a : q.Answer) :
    (q.held hs a).Perm (q.held hs' a) := by
  cases q with
  | read | reserve | latch => exact h.cons _
  | tryRead r =>
    cases a with
    | none => exact h
    | some n => exact h.cons _
  | leave | unreserve | unlock => exact h.erase _
  | upgrade => exact (h.erase _).cons _
  | _ => exact h

theorem length_held_le (hs : List Hold) (q : Request K V) (a : q.Answer) :
    (q.held hs a).length ≤ hs.length + 1 := by
  have herase : ∀ h : Hold, (hs.erase h).length ≤ hs.length := fun h => List.length_erase_le
  cases q with
  | read | reserve | latch => exact le_rfl
  | tryRead r =>
    cases a with
    | none => exact Nat.le_succ _
    | some n => exact le_rfl
  | leave | unreserve | unlock => exact (herase _).trans (Nat.le_succ _)
  | upgrade => exact Nat.succ_le_succ (herase _)
  | _ => exact Nat.le_succ _

/-- A step of a lookup: a request that is served, and the phase that comes next. -/
theorem go_eq_some (h : l.go cmp s = some (s', l')) : ∃ q next a,
    l.phase.turn cmp l.key = .ask q next ∧ q.enabled s = true ∧ q.serve s = (.ok a, s') ∧
      l' = { l with phase := next a, holds := q.held l.holds a } := by
  unfold go at h
  split at h
  · rename_i q next hq
    obtain ⟨hen, a, hserve, rfl⟩ := Request.proceed_eq_some h
    exact ⟨q, next, a, hq, hen, hserve, rfl⟩
  · cases h
  · cases h

/-- A lookup goes on, next to `o r` readers in each node `r` and a writer. -/
theorem Fits.go (hl : l.Fits cmp s.content t) (hx : s.content.TidyTree t)
    (hw : s.Shows (fun r => o r + l.holds.count (.reading r)) g) (hgo : l.go cmp s = some (s', l'))
    (hroom : ∀ r, o r + l'.holds.count (.reading r) + 2 < Latch.Word.room) :
    s'.content = s.content ∧ s'.Shows (fun r => o r + l'.holds.count (.reading r)) g ∧
      l'.Fits cmp s.content t := by
  obtain ⟨q, next, a, hq, hen, hserve, rfl⟩ := go_eq_some hgo
  have hheld : ∀ r ∈ q.entered, (s.word r).admitsReader = true →
      q.held l.holds a = .reading r :: l.holds := by
    intro r hr hadm
    cases q with
    | read =>
      obtain rfl := Option.some.inj hr
      rfl
    | tryRead =>
      obtain rfl := Option.some.inj hr
      simp only [Request.serve, hadm, if_true] at hserve
      cases hserve
      rfl
    | _ => cases hr
  have ho : ∀ r ∈ q.entered, (s.word r).admitsReader = true →
      o r + l.phase.nodes.count r + 3 < Latch.Word.room := by
    intro r hr hadm
    have hroom := hroom r
    simp only [hheld r hr hadm, List.count_cons_self, hl.count] at hroom
    omega
  simp only [hl.count] at hw
  obtain ⟨b, s₁, hb⟩ := hl.phase.serves hx hw ho hq hen
  obtain ⟨hans, rfl⟩ := Prod.mk.inj (hserve.symm.trans hb.serve)
  obtain rfl := Except.ok.inj hans
  obtain ⟨hrank, hholds⟩ := hl.phase.turn hx hl.ranked hq hserve
  have hfits : Fits cmp s.content t { l with phase := next a, holds := q.held l.holds a } :=
    ⟨hb.fits, hrank, (held_perm hl.holds q a).trans hholds⟩
  refine ⟨hb.content, ?_, hfits⟩
  simp only [hfits.count]
  exact hb.shows

/-- What a lookup relies on stays when the writer writes. -/
theorem Fits.changes (hl : l.Fits cmp x t) (hc : Content.Changes cmp g x x' t t')
    (hg : ∀ r, Hold.reading r ∈ l.holds → (g r).locked = false) : l.Fits cmp x' t' := by
  refine ⟨hl.phase.changes hc fun r hr => hg r ?_, hl.ranked, hl.holds⟩
  exact hl.holds.mem_iff.2 (List.mem_map_of_mem hr)

end Thread

namespace Crowd

variable {c c' : Crowd K V} {t : Shape K V} {g : Grips} {i : ℕ}

/-- The links unfold to `t`, and writer and lookups have what they rely on. -/
structure Sound (cmp : K → K → Ordering) (c : Crowd K V) (t : Shape K V) (g : Grips) : Prop where
  tidy : c.store.content.TidyTree t
  sorted : Std.TransCmp cmp → t.Sorted cmp
  shows : c.store.Shows c.readers g
  writer : (c.writer.getD (.done none)).Ensures cmp (fun _ => True) c.store.content g
    fun _ x g' => g' = .free ∧ ∃ t', x.SettledTree t'
  lookups : ∀ l ∈ c.lookups, l.Fits cmp c.store.content t

/-- One of several threads, and the others. -/
theorem exists_split {α : Type} {l : α} {ls : List α} (h : ls[i]? = some l) : ∃ pre post,
    ls = pre ++ l :: post ∧ ∀ l', ls.set i l' = pre ++ l' :: post := by
  obtain ⟨hi, rfl⟩ := List.getElem?_eq_some_iff.1 h
  refine ⟨ls.take i, ls.drop (i + 1), ?_, fun l' => ?_⟩
  · rw [← List.drop_eq_getElem_cons hi, List.take_append_drop]
  · rw [List.set_eq_take_append_cons_drop, if_pos hi]

/-- A lookup goes on, and the writer and the other lookups have what they rely on. -/
theorem Sound.go (h : c.Sound cmp t g) {l l' : Thread K V} {s' : Store K V}
    (hl : c.lookups[i]? = some l) (hgo : l.go cmp c.store = some (s', l'))
    (hroom : ∀ r, readers { c with store := s', lookups := c.lookups.set i l' } r + 2 <
      Latch.Word.room) : Sound cmp { c with store := s', lookups := c.lookups.set i l' } t g := by
  obtain ⟨pre, post, hpre, hset⟩ := exists_split hl
  let o : Ref → ℕ := fun r => ((pre ++ post).flatMap Thread.holds).count (.reading r)
  have hcount : ∀ (l : Thread K V) (r : Ref),
      ((pre ++ l :: post).flatMap Thread.holds).count (.reading r) =
        o r + l.holds.count (.reading r) := by
    intro l r
    simp only [o, List.flatMap_append, List.flatMap_cons, List.count_append]
    omega
  have hreaders : c.readers = fun r => o r + l.holds.count (.reading r) := by
    funext r
    rw [readers, hpre, hcount]
  have hreaders' : readers { c with store := s', lookups := c.lookups.set i l' } =
      fun r => o r + l'.holds.count (.reading r) := by
    funext r
    rw [readers, hset, hcount]
  have hl' := h.lookups l (hpre ▸ by simp)
  obtain ⟨hcontent, hshows, hfits⟩ := hl'.go h.tidy (hreaders ▸ h.shows) hgo
    fun r => congrFun hreaders' r ▸ hroom r
  refine ⟨hcontent ▸ h.tidy, h.sorted, hreaders' ▸ hshows, hcontent ▸ h.writer, ?_⟩
  intro m hm
  rw [show (c.lookups.set i l') = _ from hset l', List.mem_append, List.mem_cons] at hm
  rcases hm with hm | rfl | hm
  · exact hcontent ▸ h.lookups m (by simp [hpre, hm])
  · exact hcontent ▸ hfits
  · exact hcontent ▸ h.lookups m (by simp [hpre, hm])

theorem Sound.step (h : c.Sound cmp t g) {a : Action K V} (hstep : c.step cmp a = some c')
    (hroom : ∀ r, c'.readers r + 2 < Latch.Word.room) : ∃ t' g', c'.Sound cmp t' g' := by
  cases a with
  | update u =>
    simp only [Crowd.step] at hstep
    split at hstep
    · rename_i hidle
      cases hstep
      have hwriter := h.writer
      rw [hidle] at hwriter
      exact ⟨t, g, h.tidy, h.sorted, h.shows, u.ensures_next h.tidy hwriter, h.lookups⟩
    · cases hstep
  | write =>
    have hwriter := h.writer
    simp only [Crowd.step] at hstep
    split at hstep
    · rename_i v hdone
      cases hstep
      rw [hdone] at hwriter
      exact ⟨t, g, h.tidy, h.sorted, h.shows, hwriter, h.lookups⟩
    · rename_i q next hask
      obtain ⟨⟨s, p⟩, hs, rfl⟩ := Option.map_eq_some_iff.1 hstep
      obtain ⟨hen, a, hserve, rfl⟩ := Request.proceed_eq_some hs
      rw [hask] at hwriter
      obtain ⟨hshows, hnext, hx'⟩ := Program.Ensures.served hwriter h.tidy h.shows hen hserve
      rcases hx' with hx' | ⟨u, hc, -⟩
      · exact ⟨t, _, hx' ▸ h.tidy, h.sorted, hshows, hnext, hx' ▸ h.lookups⟩
      · refine ⟨u, _, hc.after, fun hcmp => hc.sorted (h.sorted hcmp), hshows, hnext, fun l hl => ?_⟩
        refine (h.lookups l hl).changes hc fun r hr => h.shows.unlocked fun hzero => ?_
        exact List.count_eq_zero.1 hzero (List.mem_flatMap.2 ⟨l, hl, hr⟩)
    · cases hstep
    · cases hstep
  | enter k =>
    cases hstep
    refine ⟨t, g, h.tidy, h.sorted, ?_, h.writer, ?_⟩
    · have hreaders : readers { c with lookups := c.lookups ++ [{ key := k }] } = c.readers := by
        funext r
        simp [readers]
      exact hreaders ▸ h.shows
    · intro l hl
      rcases List.mem_append.1 hl with hl | hl
      · exact h.lookups l hl
      · obtain rfl := List.mem_singleton.1 hl
        exact ⟨trivial, trivial, .refl _⟩
  | look i =>
    simp only [Crowd.step] at hstep
    split at hstep
    · rename_i l hl
      obtain ⟨⟨s', l'⟩, hgo, rfl⟩ := Option.map_eq_some_iff.1 hstep
      exact ⟨t, g, h.go hl hgo hroom⟩
    · cases hstep

namespace Run

variable {s : ℕ → Crowd K V} {n : ℕ}

theorem start_sound (h : Run cmp s n) : (s 0).Sound cmp .nil .free := by
  obtain ⟨spin, hspin⟩ := h.start
  have htree := Store.UnlatchedTree.empty (K := K) (V := V) spin
  rw [hspin]
  exact ⟨htree.settled.tidy, fun _ => ⟨by simp [Shape.rows], .nil⟩, htree.shows,
    ⟨rfl, _, htree.settled⟩, by simp⟩

theorem sound (h : Run cmp s n) {i : ℕ} (hi : i ≤ n) : ∃ t g, (s i).Sound cmp t g := by
  induction i with
  | zero => exact ⟨_, _, h.start_sound⟩
  | succ i ih =>
    obtain ⟨t, g, ht⟩ := ih (Nat.le_of_succ_le hi)
    obtain ⟨a, ha⟩ := h.step i hi
    exact ht.step ha (h.room (i + 1) hi)

end Run

/-! ## Schedules -/

/-- What a schedule makes of an empty tree in its first `i` steps. -/
def follow (cmp : K → K → Ordering) (spin : Bool) (as : List (Action K V)) (i : ℕ) : Crowd K V :=
  ((as.take i).foldlM (step cmp) { store := .empty spin }).getD { store := .empty spin }

/-- With each step one more permission is held at most. -/
theorem holds_step {a : Action K V} (h : c.step cmp a = some c') :
    (c'.lookups.flatMap Thread.holds).length ≤ (c.lookups.flatMap Thread.holds).length + 1 := by
  cases a with
  | update u =>
    simp only [Crowd.step] at h
    split at h <;> cases h
    exact Nat.le_succ _
  | write =>
    simp only [Crowd.step] at h
    split at h
    · cases h
      exact Nat.le_succ _
    · obtain ⟨⟨s, p⟩, -, rfl⟩ := Option.map_eq_some_iff.1 h
      exact Nat.le_succ _
    · cases h
    · cases h
  | enter k =>
    cases h
    simp
  | look i =>
    simp only [Crowd.step] at h
    split at h
    · rename_i l hl
      obtain ⟨⟨s', l'⟩, hgo, rfl⟩ := Option.map_eq_some_iff.1 h
      obtain ⟨pre, post, hpre, hset⟩ := exists_split hl
      obtain ⟨q, next, a, -, -, -, rfl⟩ := Thread.go_eq_some hgo
      have hheld := Thread.length_held_le l.holds q a
      rw [show (c.lookups.set i _) = _ from hset _, hpre]
      simp only [List.flatMap_append, List.flatMap_cons, List.length_append]
      omega
    · cases h

section

variable {spin : Bool} {as : List (Action K V)}
  (h : (as.foldlM (step cmp) { store := .empty spin }).isSome)

include h

theorem step_follow (hi : i < as.length) :
    (follow cmp spin as i).step cmp as[i] = some (follow cmp spin as (i + 1)) := by
  have hsplit : as = as.take i ++ as[i] :: as.drop (i + 1) := by
    rw [← List.drop_eq_getElem_cons hi, List.take_append_drop]
  obtain ⟨c', hc'⟩ := Option.isSome_iff_exists.1 h
  rw [hsplit, List.foldlM_append] at hc'
  obtain ⟨c, hc, hc'⟩ := Option.bind_eq_some_iff.1 hc'
  rw [List.foldlM_cons] at hc'
  obtain ⟨c₁, hc₁, -⟩ := Option.bind_eq_some_iff.1 hc'
  have htake : (as.take (i + 1)).foldlM (step cmp) { store := .empty spin } = some c₁ := by
    rw [List.take_succ_eq_append_getElem hi, List.foldlM_append, hc]
    simp [hc₁]
  rw [follow, follow, hc, htake]
  exact hc₁

/-- A schedule that is not too long, all of whose steps can be taken, is that of a run. -/
theorem run_of_follow (hroom : as.length + 2 < Latch.Word.room) :
    Run cmp (follow cmp spin as) as.length := by
  have hholds : ∀ i ≤ as.length,
      ((follow cmp spin as i).lookups.flatMap Thread.holds).length ≤ i := by
    intro i
    induction i with
    | zero => exact fun _ => le_rfl
    | succ i ih =>
      intro hi
      exact (holds_step (step_follow h hi)).trans (Nat.succ_le_succ (ih (Nat.le_of_succ_le hi)))
  refine ⟨⟨spin, rfl⟩, fun i hi => ⟨_, step_follow h hi⟩, fun i hi r => ?_⟩
  have hcount : (follow cmp spin as i).readers r ≤ i := List.count_le_length.trans (hholds i hi)
  omega

end

end Crowd

end LatchTree
