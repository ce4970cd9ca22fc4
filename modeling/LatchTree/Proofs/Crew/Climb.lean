import LatchTree.Proofs.Crew.Basic
import LatchTree.Proofs.Latch.Stakes

/-!
How a hand goes about its latches. It takes them in ascending rank, closes the door of a node only to go
in next, and knows what it has read for as long as it holds the node.
-/

namespace LatchTree

open Latch Latch.Stake

variable {K V M α β : Type}

/-- What a hand has of the latches. -/
abbrev Stance := List (Ref × Stake)

namespace Stance

variable {σ σ' : Stance} {r : Ref} {a : Stake}

/-- What the hand has of the latch of the node `r`. -/
def stakes (σ : Stance) (r : Ref) : List Stake :=
  σ.filterMap fun e => if e.1 = r then some e.2 else none

@[simp] theorem stakes_nil (r : Ref) : stakes [] r = [] := rfl

@[simp] theorem stakes_cons_self (r : Ref) (a : Stake) (σ : Stance) :
    stakes ((r, a) :: σ) r = a :: σ.stakes r := by
  simp [stakes]

theorem stakes_cons_ne {i : Ref} (hi : i ≠ r) (a : Stake) (σ : Stance) :
    stakes ((i, a) :: σ) r = σ.stakes r := by
  simp [stakes, hi]

theorem stakes_perm (h : σ.Perm σ') (r : Ref) : (σ.stakes r).Perm (σ'.stakes r) :=
  h.filterMap _

@[simp] theorem mem_stakes : a ∈ σ.stakes r ↔ (r, a) ∈ σ := by
  simp [stakes]

/-- The permission that a stake stands for. -/
def hold : Ref × Stake → Hold
  | (r, .guard .reading) => .reading r
  | (r, .guard .reserving) => .reserving r
  | (r, _) => .writing r

theorem erase_hold {hs : List Hold} {e : Ref × Stake} (hhs : hs.Perm (σ.map hold))
    (hσ : σ.Perm (e :: σ')) : (hs.erase (hold e)).Perm (σ'.map hold) := by
  have h := (hhs.trans (hσ.map hold)).erase (hold e)
  rwa [List.map_cons, List.erase_cons_head] at h

theorem count_hold (σ : Stance) (r : Ref) :
    (σ.map hold).count (.reading r) = (σ.stakes r).count reader := by
  induction σ with
  | nil => rfl
  | cons e σ ih =>
    obtain ⟨i, a⟩ := e
    rw [List.map_cons, List.count_cons, ih]
    by_cases hi : i = r
    · subst hi
      rw [stakes_cons_self, List.count_cons]
      rcases a with (_ | _ | _) | _ | _ <;> simp [hold]
    · rw [stakes_cons_ne hi]
      rcases a with (_ | _ | _) | _ | _ <;> simp [hold, hi]

/-- The hand is inside all nodes of a lock set. -/
def inside (ls : LockSet) : Stance :=
  ls.map fun m => (m.2, .guard .writing)

theorem mem_of_inside {ls : LockSet} (hσ : σ.Perm (inside ls)) {m : NodeId × Ref} (hm : m ∈ ls) :
    (m.2, .guard .writing) ∈ σ :=
  hσ.mem_iff.2 (List.mem_map.2 ⟨m, hm, rfl⟩)

end Stance

/-- The words of the latches tell what all hands have. -/
def Store.Tells (s : Store K V) (σ : Stance) : Prop :=
  ∀ r, (s.word r).Shows (σ.stakes r)

namespace Store.Tells

variable {s : Store K V} {σ σ' : Stance} {r : Ref} {a b : Stake}

theorem perm (h : s.Tells σ) (hσ : σ.Perm σ') : s.Tells σ' :=
  fun r => (h r).perm (Stance.stakes_perm hσ r)

/-- What a change of one word leaves of the others. -/
theorem mapWord (h : s.Tells σ) (hr : r < s.cells.size) {f : Word → Word}
    (hrest : ∀ i, i ≠ r → σ'.stakes i = σ.stakes i) (hnew : (f (s.word r)).Shows (σ'.stakes r)) :
    (s.mapWord r f).Tells σ' := by
  intro i
  rw [word_mapWord]
  by_cases hi : i = r
  · subst hi
    rwa [if_pos ⟨rfl, hr⟩]
  · rw [if_neg fun h' => hi h'.1, hrest i hi]
    exact h i

theorem gain (h : s.Tells σ) (hr : r < s.cells.size) {f : Word → Word}
    (hnew : (f (s.word r)).Shows (a :: σ.stakes r)) : (s.mapWord r f).Tells ((r, a) :: σ) :=
  h.mapWord hr (fun _ hi => Stance.stakes_cons_ne hi.symm ..) (by simpa using hnew)

theorem lose (h : s.Tells ((r, a) :: σ)) (hr : r < s.cells.size) {f : Word → Word}
    (hnew : (f (s.word r)).Shows (σ.stakes r)) : (s.mapWord r f).Tells σ :=
  h.mapWord hr (fun _ hi => (Stance.stakes_cons_ne hi.symm ..).symm) hnew

theorem trade (h : s.Tells ((r, a) :: σ)) (hr : r < s.cells.size) {f : Word → Word}
    (hnew : (f (s.word r)).Shows (b :: σ.stakes r)) : (s.mapWord r f).Tells ((r, b) :: σ) :=
  h.mapWord hr (fun _ hi => by rw [Stance.stakes_cons_ne hi.symm, Stance.stakes_cons_ne hi.symm])
    (by simpa using hnew)

/-- Who is inside a node for writing has it alone. -/
theorem alone (h : s.Tells ((r, .guard .writing) :: σ)) : σ.stakes r = [] := by
  have hr := h r
  rw [Stance.stakes_cons_self] at hr
  exact hr.of_writing

theorem word_free (h : s.Tells σ) (hr : σ.stakes r = []) : s.word r = .free := by
  have hword := h r
  rw [hr, Word.shows_readers (by simp)] at hword
  exact hword.1.trans Word.free_eq_compose.symm

/-- A latch that is not free is one that somebody has something of. -/
theorem exists_mem (h : s.Tells σ) (hr : s.word r ≠ .free) : ∃ a, (r, a) ∈ σ := by
  obtain ⟨a, ha⟩ := List.exists_mem_of_ne_nil _ (mt h.word_free hr)
  exact ⟨a, Stance.mem_stakes.1 ha⟩

end Store.Tells

/-- The stores differ in the content of nodes and in the words of their latches, if at all. -/
structure Store.Aligned (s s₀ : Store K V) : Prop where
  content : s.content = { s₀.content with node := s.node }
  table : s.table = s₀.table
  spin : s.spin = s₀.spin

namespace Store.Aligned

variable {s s' s₀ : Store K V}

theorem refl (s : Store K V) : s.Aligned s := ⟨rfl, rfl, rfl⟩

theorem of_content (hs : s.Aligned s₀) (hcontent : s'.content = s.content)
    (htable : s'.table = s.table) (hspin : s'.spin = s.spin) : s'.Aligned s₀ := by
  refine ⟨hcontent.trans (hs.content.trans ?_), htable.trans hs.table, hspin.trans hs.spin⟩
  rw [show s'.node = s.node from congrArg Content.node hcontent]

theorem trans (h : s'.Aligned s) (hs : s.Aligned s₀) : s'.Aligned s₀ :=
  ⟨by rw [h.content, hs.content], h.table.trans hs.table, h.spin.trans hs.spin⟩

theorem ref (hs : s.Aligned s₀) (id : NodeId) : s.ref? id = s₀.ref? id :=
  congrArg (fun x : Content K V => x.ref? id) hs.content

theorem size (hs : s.Aligned s₀) : s.cells.size = s₀.cells.size :=
  congrArg Content.made hs.content

theorem sound (hs : s.Aligned s₀) (h : s₀.content.Sound) : s.content.Sound := by
  rw [hs.content]
  exact ⟨h.nil, h.anchor, h.made, h.inj, h.vacant, h.nodup⟩

end Store.Aligned

/-! ## Programs that climb -/

/-- Looking at both nodes of its pair, a hand knows what it has in mind next. -/
def Job.Looks (plan : M → Job K V M) (y : Ref → Node K V) (σ : Stance) (m m' : M) : Prop :=
  ∃ r₁ r₂ next, plan m = .pair r₁ r₂ next ∧ (r₁, reader) ∈ σ ∧ (r₂, reader) ∈ σ ∧
    m' = next (y r₁) (y r₂)

/-- From the stance `σ` the program takes latches in ascending rank and ends with `Q`. The nodes are as
in `y`, but those that it does not hold may change until it gets to them. A job counts as done, and
what is in mind changes, while both nodes that were to be looked at are held. -/
def Program.Climbs (plan : M → Job K V M) (s₀ : Store K V) :
    Program K V α → (Ref → Node K V) → Stance → M → (α → (Ref → Node K V) → Stance → M → Prop) → Prop
  | .done a, y, σ, m, Q => Q a y σ m
  | .halt _, _, _, _, _ => False
  | .ask q next, y, σ, m, Q =>
    match q, next with
    | .resolve id, next => ∃ r, s₀.ref? id = some r ∧ (next r).Climbs plan s₀ y σ m Q
    | .read r, next => r < s₀.cells.size ∧ (∀ e ∈ σ, e.1 < r) ∧ ∀ y', (∀ e ∈ σ, y' e.1 = y e.1) →
        (next (y' r)).Climbs plan s₀ y' ((r, reader) :: σ) m Q
    | .leave r, next => r < s₀.cells.size ∧ ∃ σ' m', σ.Perm ((r, reader) :: σ') ∧
        (m' = m ∨ Job.Looks plan y σ m m') ∧ (next ()).Climbs plan s₀ y σ' m' Q
    | .latch r, next => r < s₀.cells.size ∧ (∀ e ∈ σ, e.1 < r) ∧ ∀ y', (∀ e ∈ σ, y' e.1 = y e.1) →
        (next ()).Climbs plan s₀ y' ((r, closing) :: σ) m Q
    | .lock r, next => r < s₀.cells.size ∧ ∃ σ', σ.Perm ((r, closing) :: σ') ∧ (∀ e ∈ σ', e.1 < r) ∧
        (next ()).Climbs plan s₀ y ((r, .guard .writing) :: σ') m Q
    | .unlock r, next => r < s₀.cells.size ∧ ∃ σ', σ.Perm ((r, .guard .writing) :: σ') ∧
        (next ()).Climbs plan s₀ y σ' m Q
    | _, _ => False

/-- Where a hand may stand: with nothing between jobs, or inside all nodes of the set that its job asked
for. -/
def Standing.Climbed (plan : M → Job K V M) (s₀ : Store K V) :
    Standing K V M → (Ref → Node K V) → Stance → M → Prop
  | .ready a, _, σ, m => σ = [] ∧ m = a
  | .working ls w, _, σ, m =>
    ∃ ids, plan m = .within ids w ∧ s₀.Ranks ids ls ∧ σ.Perm (Stance.inside ls)

section

variable {plan : M → Job K V M} {s₀ : Store K V} {y y' : Ref → Node K V} {σ σ' : Stance} {m : M}

theorem Job.Looks.congr {m' : M} (h : Job.Looks plan y σ m m') (hy : ∀ e ∈ σ, y' e.1 = y e.1) :
    Job.Looks plan y' σ m m' := by
  obtain ⟨r₁, r₂, next, hplan, h₁, h₂, rfl⟩ := h
  exact ⟨r₁, r₂, next, hplan, h₁, h₂, by rw [hy _ h₁, hy _ h₂]⟩

namespace Program.Climbs

theorem bind {p : Program K V α} {f : α → Program K V β}
    {Q : β → (Ref → Node K V) → Stance → M → Prop}
    (h : p.Climbs plan s₀ y σ m fun a y σ m => (f a).Climbs plan s₀ y σ m Q) :
    (p >>= f).Climbs plan s₀ y σ m Q := by
  induction p generalizing y σ m with
  | done a => exact h
  | halt e => exact h
  | ask q next ih =>
    cases q with
    | resolve id =>
      obtain ⟨r, hr, h⟩ := h
      exact ⟨r, hr, ih _ h⟩
    | read r =>
      obtain ⟨hr, hbelow, h⟩ := h
      exact ⟨hr, hbelow, fun y' hy => ih _ (h y' hy)⟩
    | leave r =>
      obtain ⟨hr, σ', m', hσ, hm, h⟩ := h
      exact ⟨hr, σ', m', hσ, hm, ih _ h⟩
    | latch r =>
      obtain ⟨hr, hbelow, h⟩ := h
      exact ⟨hr, hbelow, fun y' hy => ih _ (h y' hy)⟩
    | lock r =>
      obtain ⟨hr, σ', hσ, hbelow, h⟩ := h
      exact ⟨hr, σ', hσ, hbelow, ih _ h⟩
    | unlock r =>
      obtain ⟨hr, σ', hσ, h⟩ := h
      exact ⟨hr, σ', hσ, ih _ h⟩
    | _ => exact h.elim

/-- What a hand does not hold may change. -/
theorem congr {p : Program K V (Standing K V M)}
    (h : p.Climbs plan s₀ y σ m (Standing.Climbed plan s₀)) (hy : ∀ e ∈ σ, y' e.1 = y e.1) :
    p.Climbs plan s₀ y' σ m (Standing.Climbed plan s₀) := by
  induction p generalizing y y' σ m with
  | done a => cases a <;> exact h
  | halt e => exact h
  | ask q next ih =>
    cases q with
    | resolve id =>
      obtain ⟨r, hr, h⟩ := h
      exact ⟨r, hr, ih _ h hy⟩
    | read r =>
      obtain ⟨hr, hbelow, h⟩ := h
      exact ⟨hr, hbelow, fun y₁ hy₁ => h y₁ fun e he => (hy₁ e he).trans (hy e he)⟩
    | leave r =>
      obtain ⟨hr, σ', m', hσ, hm, h⟩ := h
      refine ⟨hr, σ', m', hσ, hm.imp_right fun hl => hl.congr hy, ih _ h fun e he => hy e ?_⟩
      exact hσ.mem_iff.2 (List.mem_cons_of_mem _ he)
    | latch r =>
      obtain ⟨hr, hbelow, h⟩ := h
      exact ⟨hr, hbelow, fun y₁ hy₁ => h y₁ fun e he => (hy₁ e he).trans (hy e he)⟩
    | lock r =>
      obtain ⟨hr, σ', hσ, hbelow, h⟩ := h
      refine ⟨hr, σ', hσ, hbelow, ih _ h fun e he => ?_⟩
      rcases List.mem_cons.1 he with rfl | he
      · exact hy (r, closing) (hσ.mem_iff.2 List.mem_cons_self)
      · exact hy e (hσ.mem_iff.2 (List.mem_cons_of_mem _ he))
    | unlock r =>
      obtain ⟨hr, σ', hσ, h⟩ := h
      exact ⟨hr, σ', hσ, ih _ h fun e he => hy e (hσ.mem_iff.2 (List.mem_cons_of_mem _ he))⟩
    | _ => exact h.elim

/-! ## The jobs climb -/

theorem locate {Q : LockSet → (Ref → Node K V) → Stance → M → Prop} {l : List NodeId}
    (hl : ∀ id ∈ l, ∃ r, s₀.ref? id = some r) (h : ∀ ls, LockSet.Names s₀ l ls → Q ls y σ m) :
    (LockSet.locate none l).Climbs plan s₀ y σ m Q := by
  induction l generalizing Q with
  | nil => exact h [] ⟨rfl, by simp⟩
  | cons id l ih =>
    obtain ⟨r, hr⟩ := hl id List.mem_cons_self
    refine .bind ⟨r, hr, .bind (ih (fun i hi => hl i (List.mem_cons_of_mem _ hi)) fun ls hls => ?_)⟩
    exact h _ ⟨by simp [hls.1], List.forall_mem_cons.2 ⟨hr, hls.2⟩⟩

/-- All nodes of `ls` come to be locked. -/
theorem acquire {Q : Unit → (Ref → Node K V) → Stance → M → Prop} {ls : LockSet}
    (hls : ls.Pairwise (·.2 < ·.2)) (hmade : ∀ l ∈ ls, l.2 < s₀.cells.size)
    (hbelow : ∀ l ∈ ls, ∀ e ∈ σ, e.1 < l.2)
    (h : ∀ y' σ', σ'.Perm (Stance.inside ls ++ σ) → Q () y' σ' m) :
    (LockSet.acquire none ls).Climbs plan s₀ y σ m Q := by
  induction ls generalizing y σ with
  | nil => exact h y σ (.refl _)
  | cons l ls ih =>
    obtain ⟨id, r⟩ := l
    rw [List.pairwise_cons] at hls
    rw [List.forall_mem_cons] at hmade hbelow
    refine .bind ⟨hmade.1, hbelow.1, fun y' _ => .bind ⟨hmade.1, σ, .refl _, hbelow.1, ?_⟩⟩
    refine ih hls.2 hmade.2 (fun l hl e he => ?_) fun y' σ' hσ' => h y' σ' ?_
    · rcases List.mem_cons.1 he with rfl | he
      · exact hls.1 l hl
      · exact hbelow.2 l hl e he
    · exact hσ'.trans List.perm_middle

theorem release {Q : Unit → (Ref → Node K V) → Stance → M → Prop} {ls : LockSet}
    (hmade : ∀ l ∈ ls, l.2 < s₀.cells.size) (hσ : σ.Perm (Stance.inside ls)) (h : Q () y [] m) :
    (LockSet.release ls).Climbs plan s₀ y σ m Q := by
  induction ls generalizing σ with
  | nil => exact List.perm_nil.1 hσ ▸ h
  | cons l ls ih =>
    rw [List.forall_mem_cons] at hmade
    exact .bind ⟨hmade.1, _, hσ, ih hmade.2 (.refl _)⟩

theorem readPair {Q : Node K V × Node K V → (Ref → Node K V) → Stance → M → Prop} {r₁ r₂ : Ref}
    (hne : r₁ ≠ r₂) (hr₁ : r₁ < s₀.cells.size) (hr₂ : r₂ < s₀.cells.size)
    (h : ∀ y σ, σ.Perm [(r₁, reader), (r₂, reader)] → Q (y r₁, y r₂) y σ m) :
    (Program.readPair r₁ r₂).Climbs plan s₀ y [] m Q := by
  rw [Program.readPair, if_neg hne]
  split_ifs with hlt
  · refine .bind ⟨hr₁, by simp, fun y₁ _ => .bind ⟨hr₂, by simpa using hlt, fun y₂ hy₂ => ?_⟩⟩
    rw [← hy₂ _ List.mem_cons_self]
    exact h y₂ _ (.swap ..)
  · have hlt : r₂ < r₁ := Nat.lt_of_le_of_ne (Nat.le_of_not_lt hlt) hne.symm
    refine .bind ⟨hr₂, by simp, fun y₁ _ => .bind ⟨hr₁, by simpa using hlt, fun y₂ hy₂ => ?_⟩⟩
    rw [← hy₂ _ List.mem_cons_self]
    exact h y₂ _ (.refl _)

/-- What it comes to look at is known while both nodes are held. -/
theorem lookPair {Q : Node K V × Node K V → (Ref → Node K V) → Stance → M → Prop} {r₁ r₂ : Ref}
    {next : Node K V → Node K V → M} (hplan : plan m = .pair r₁ r₂ next) (hne : r₁ ≠ r₂)
    (hr₁ : r₁ < s₀.cells.size) (hr₂ : r₂ < s₀.cells.size)
    (h : ∀ y n₁ n₂, Q (n₁, n₂) y [] (next n₁ n₂)) :
    (Program.lookPair r₁ r₂).Climbs plan s₀ y [] m Q := by
  refine .bind (.readPair hne hr₁ hr₂ fun y σ hσ => .bind ?_)
  have hlooks : Job.Looks plan y σ m (next (y r₁) (y r₂)) :=
    ⟨r₁, r₂, next, hplan, hσ.mem_iff.2 (by simp), hσ.mem_iff.2 (by simp), rfl⟩
  refine ⟨hr₁, [(r₂, reader)], _, hσ, .inr hlooks, .bind ?_⟩
  exact ⟨hr₂, [], _, .refl _, .inl rfl, h y _ _⟩

theorem start (hs₀ : s₀.content.Sound) (hm : (plan m).Proper s₀) {p : Program K V (Standing K V M)}
    (hp : (plan m).start = some p) : p.Climbs plan s₀ y [] m (Standing.Climbed plan s₀) := by
  cases hplan : plan m with
  | finished =>
    rw [hplan] at hp
    cases hp
  | within ids w =>
    rw [hplan] at hp hm
    cases hp
    refine .bind (.bind (.locate (fun id hid => ?_) fun l hl => ?_))
    · rw [LockSet.mem_distinct] at hid
      exact hm.1 id hid.1 hid.2
    · have hranks := hl.ranks hs₀
      refine .bind (.acquire hranks.ascends (fun e he => hs₀.made _ _ (hranks.refs e he)) (by simp)
        fun y' σ' hσ' => ?_)
      exact ⟨ids, hplan, hranks, by simpa using hσ'⟩
  | pair r₁ r₂ next =>
    rw [hplan] at hp hm
    cases hp
    exact .bind (.lookPair hplan hm.1 hm.2.1 hm.2.2 fun y n₁ n₂ => ⟨rfl, rfl⟩)

end Program.Climbs

/-! ## What a hand waits for -/

/-- What a served request changes, next to the stance `O` of all other hands. -/
structure Request.Advances (plan : M → Job K V M) (y : Ref → Node K V) (O : Stance) (q : Request K V)
    (s : Store K V) (σ : Stance) (m : M) (a : q.Answer) (s' : Store K V) (σ' : Stance) (m' : M) :
    Prop where
  serve : q.serve s = (.ok a, s')
  content : s'.content = s.content
  table : s'.table = s.table
  spin : s'.spin = s.spin
  tells : s'.Tells (σ' ++ O)
  mind : m' = m ∨ Job.Looks plan y σ m m'
  holds : ∀ hs : List Hold, hs.Perm (σ.map Stance.hold) → (q.held hs a).Perm (σ'.map Stance.hold)

theorem Program.Climbs.served {q : Request K V} {next : q.Answer → Program K V α} {O : Stance}
    {s : Store K V} {Q : α → (Ref → Node K V) → Stance → M → Prop}
    (h : (Program.ask q next).Climbs plan s₀ y σ m Q) (hs : s.Aligned s₀) (hw : s.Tells (σ ++ O))
    (hy : ∀ r, (r, .guard .writing) ∉ O → y r = s.node r) (hen : q.enabled s = true)
    (hroom : ∀ r, q = .read r → ((σ ++ O).stakes r).count reader + 1 < Word.room) :
    ∃ a s' σ' m', q.Advances plan y O s σ m a s' σ' m' ∧ (next a).Climbs plan s₀ y σ' m' Q := by
  cases q with
  | resolve id =>
    obtain ⟨r, hr, h⟩ := h
    exact ⟨r, s, σ, m, ⟨Store.get_of_ref ((hs.ref id).trans hr), rfl, rfl, rfl, hw, .inl rfl,
      fun _ hhs => hhs⟩, h⟩
  | read r =>
    obtain ⟨hr, hbelow, h⟩ := h
    have hadm : (s.word r).admitsReader = true := hen
    have hunlocked : (r, .guard .writing) ∉ O := fun hmem => by
      have hlocked : ((σ ++ O).stakes r).any locks = true :=
        List.any_eq_true.2 ⟨.guard .writing, Stance.mem_stakes.2 (List.mem_append_right σ hmem), rfl⟩
      rw [(hw r).admitsReader, hlocked, Bool.not_true, Bool.and_false] at hadm
      cases hadm
    refine ⟨s.node r, s.mapWord r .enter, (r, reader) :: σ, m, ⟨rfl, s.content_mapWord .., rfl, rfl, ?_,
      .inl rfl, fun _ hhs => hhs.cons _⟩, hy r hunlocked ▸ h y fun _ _ => rfl⟩
    refine hw.gain (hs.size ▸ hr) ((hw r).enter hadm ?_)
    rw [List.count_cons_self]
    exact hroom r rfl
  | leave r =>
    obtain ⟨hr, σ', m', hσ, hm, h⟩ := h
    have hw' : s.Tells ((r, reader) :: (σ' ++ O)) := hw.perm (hσ.append_right O)
    refine ⟨(), s.mapWord r .leave, σ', m', ⟨rfl, s.content_mapWord .., rfl, rfl, ?_, hm,
      fun _ hhs => Stance.erase_hold hhs hσ⟩, h⟩
    exact hw'.lose (hs.size ▸ hr) (Word.Shows.leave (by simpa using hw' r))
  | latch r =>
    obtain ⟨hr, hbelow, h⟩ := h
    refine ⟨(), s.mapWord r .latch, (r, closing) :: σ, m, ⟨rfl, s.content_mapWord .., rfl, rfl, ?_,
      .inl rfl, fun _ hhs => hhs.cons _⟩, h y fun _ _ => rfl⟩
    exact hw.gain (hs.size ▸ hr) ((hw r).latch hen)
  | lock r =>
    obtain ⟨hr, σ', hσ, hbelow, h⟩ := h
    have hw' : s.Tells ((r, closing) :: (σ' ++ O)) := hw.perm (hσ.append_right O)
    refine ⟨(), s.mapWord r .lock, (r, .guard .writing) :: σ', m, ⟨rfl, s.content_mapWord .., rfl, rfl,
      ?_, .inl rfl, fun _ hhs => hhs.trans (hσ.map _)⟩, h⟩
    exact hw'.trade (hs.size ▸ hr) (Word.Shows.lock (.inl rfl) (by simpa using hw' r) hen)
  | unlock r =>
    obtain ⟨hr, σ', hσ, h⟩ := h
    have hw' : s.Tells ((r, .guard .writing) :: (σ' ++ O)) := hw.perm (hσ.append_right O)
    refine ⟨(), s.mapWord r fun _ => .free, σ', m, ⟨rfl, s.content_mapWord .., rfl, rfl, ?_, .inl rfl,
      fun _ hhs => Stance.erase_hold hhs hσ⟩, h⟩
    exact hw'.lose (hs.size ▸ hr) (hw'.alone ▸ Word.Shows.free)
  | _ => exact h.elim

/-- What keeps a hand with the stance `σ` from going on at the node `r`, where all hands together have
`all`. -/
inductive Stance.Awaits (σ all : Stance) (r : Ref) : Prop where
  /-- It stands before the door. -/
  | door {a : Stake} (hbelow : ∀ e ∈ σ, e.1 < r) (ha : (r, a) ∈ all)
  /-- It has closed the door, and waits for the readers to leave. -/
  | drain (hbelow : ∀ e ∈ σ, e = (r, closing) ∨ e.1 < r) (hr : (r, reader) ∈ all)

theorem Program.Climbs.awaits {q : Request K V} {next : q.Answer → Program K V α} {O : Stance}
    {s : Store K V} {Q : α → (Ref → Node K V) → Stance → M → Prop}
    (h : (Program.ask q next).Climbs plan s₀ y σ m Q) (htable : s.table = .free)
    (hw : s.Tells (σ ++ O)) (hen : q.enabled s = false) :
    ∃ r, r < s₀.cells.size ∧ σ.Awaits (σ ++ O) r := by
  cases q with
  | resolve id => exact absurd ((Store.enabled_resolve htable).symm.trans hen) nofun
  | read r =>
    obtain ⟨hr, hbelow, -⟩ := h
    obtain ⟨a, ha⟩ := hw.exists_mem fun hfree => by
      rw [Request.enabled, hfree] at hen
      exact absurd hen (by decide)
    exact ⟨r, hr, .door hbelow ha⟩
  | leave r => cases hen
  | latch r =>
    obtain ⟨hr, hbelow, -⟩ := h
    obtain ⟨a, ha⟩ := hw.exists_mem fun hfree => by
      rw [Request.enabled, hfree] at hen
      exact absurd hen (by decide)
    exact ⟨r, hr, .door hbelow ha⟩
  | lock r =>
    obtain ⟨hr, σ', hσ, hbelow, -⟩ := h
    refine ⟨r, hr, .drain (fun e he => ?_) (Stance.mem_stakes.1 ?_)⟩
    · exact (List.mem_cons.1 (hσ.mem_iff.1 he)).imp_right (hbelow e)
    · have hdrained : (s.word r).isDrained = false := hen
      rw [(hw r).isDrained, decide_eq_false_iff_not] at hdrained
      exact List.count_pos_iff.1 (Nat.pos_of_ne_zero hdrained)
  | unlock r => cases hen
  | _ => exact h.elim

/-- A node that a hand comes to look at is not one that it looks at already. -/
theorem Program.Climbs.looks_once {q : Request K V} {next : q.Answer → Program K V α}
    {Q : α → (Ref → Node K V) → Stance → M → Prop} {hs : List Hold}
    (h : (Program.ask q next).Climbs plan s₀ y σ m Q) (hhs : hs.Perm (σ.map Stance.hold))
    (honce : ∀ r, hs.count (.reading r) ≤ 1) (a : q.Answer) (r : Ref) :
    (q.held hs a).count (.reading r) ≤ 1 := by
  cases q with
  | resolve id => exact honce r
  | read i =>
    obtain ⟨-, hbelow, -⟩ := h
    by_cases hi : i = r
    · subst hi
      have hnone : hs.count (.reading i) = 0 := by
        rw [hhs.count_eq, Stance.count_hold, List.count_eq_zero]
        exact fun hmem => Nat.lt_irrefl _ (hbelow _ (Stance.mem_stakes.1 hmem))
      rw [Request.held, List.count_cons_self, hnone]
    · rw [Request.held, List.count_cons_of_ne (by simpa using hi)]
      exact honce r
  | leave i => exact (List.erase_sublist.count_le _).trans (honce r)
  | latch i =>
    rw [Request.held, List.count_cons_of_ne Hold.noConfusion]
    exact honce r
  | lock i => exact honce r
  | unlock i => exact (List.erase_sublist.count_le _).trans (honce r)
  | _ => exact h.elim

end

end LatchTree
