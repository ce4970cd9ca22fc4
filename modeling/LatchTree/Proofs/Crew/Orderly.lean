import LatchTree.Proofs.Crew.Sound

/-!
No deadlock, no two hands at work on one node, and nothing that jobs done one after the other could not
have brought about.
-/

namespace LatchTree

open Latch Latch.Stake

variable {K V M : Type} {plan : M → Job K V M} {s s₀ z : Store K V} {ms : List M} {c₀ c : Crew K V M}
  {as : List (Role K V M)} {a b : Role K V M} {σ σ' O : Stance} {r : Ref}

namespace Crew

theorem start_sound (hs : s.Suits plan) (ms : List M) : Sound plan (.ready s ms) (.ready s ms)
    (ms.map fun m => ⟨.ready m, [], m⟩) s := by
  refine ⟨by simp [ready], ?_, hs.unlatched, .refl s, .refl s, fun r => ?_, fun _ _ => rfl, ?_⟩
  · rw [List.map_map, show Role.mind ∘ (fun m : M => (⟨.ready m, [], m⟩ : Role K V M)) = id from rfl,
      List.map_id]
    exact .start
  · have hnone : (ms.map fun m => (⟨.ready m, [], m⟩ : Role K V M)).flatMap Role.stance = [] := by
      simp
    rw [hnone, show (Crew.ready s ms).store.word r = .free from hs.unlatched.word r]
    exact Word.Shows.free
  · intro a ha
    obtain ⟨m, -, rfl⟩ := List.mem_map.1 ha
    refine ⟨.refl _, .asking ⟨rfl, rfl⟩ fun ls w h => ?_⟩
    cases h

theorem Reached.sound (h : Reached plan (.ready s ms) c) (hs : s.Suits plan) :
    ∃ as z, Sound plan (.ready s ms) c as z := by
  induction h with
  | start => exact ⟨_, _, start_sound hs ms⟩
  | step _ hstep hroom ih =>
    obtain ⟨as, z, hsound⟩ := ih
    exact hsound.step hs hstep hroom

/-! ## Someone can go on -/

namespace Sound

/-- A hand that does not go on is through with all jobs, or waits for a latch. -/
theorem awaits (h : Sound plan c₀ c as z) (hsuits : c₀.store.Suits plan) (ha : a ∈ as)
    (hstuck : a.hand.step plan c.store = none) : (a.hand.Finished plan ∧ a.stance = []) ∨
      ∃ r, r < c₀.store.cells.size ∧ a.stance.Awaits (as.flatMap Role.stance) r := by
  obtain ⟨pre, post, rfl⟩ := List.append_of_mem ha
  have hsplit := h.split
  have hway := h.fit.way
  obtain ⟨⟨p, hs⟩, σ, m⟩ := a
  cases hway with
  | @working ls w _ _ _ _ hplan hls hσ hw₀ hw =>
    cases w with
    | done n => cases hstuck
    | get id next =>
      rw [Hand.step_get hls hw.1 hw.2.1] at hstuck
      cases hstuck
    | modify id f next =>
      rw [Hand.step_modify hls hw.1 hw.2.1] at hstuck
      cases hstuck
  | asking hclimbs hidle =>
    cases p with
    | halt e => exact hclimbs.elim
    | done st =>
      cases st with
      | working ls w => exact absurd rfl (hidle ls w)
      | ready n =>
        have hnone : (plan n).start = none := Option.map_eq_none_iff.1 hstuck
        refine .inl ⟨⟨n, rfl, ?_⟩, hclimbs.1⟩
        cases hplan : plan n with
        | finished => rfl
        | within ids w =>
          rw [hplan] at hnone
          cases hnone
        | pair r₁ r₂ next =>
          rw [hplan] at hnone
          cases hnone
    | ask q next =>
      have hen : q.enabled c.store = false := by
        by_contra hen
        rw [Bool.not_eq_false] at hen
        simp only [Hand.step, hen, if_true] at hstuck
        split at hstuck <;> cases hstuck
      have htable : c.store.table = .free := h.aligned.table.trans hsuits.unlatched.table
      obtain ⟨r, hr, hawaits⟩ := hclimbs.awaits htable hsplit hen
      refine .inr ⟨r, hr, ?_⟩
      have hmem : ∀ e, e ∈ σ ++ others pre post →
          e ∈ (pre ++ ⟨⟨.ask q next, hs⟩, σ, m⟩ :: post).flatMap Role.stance := fun e he =>
        (stances_perm pre post _).mem_iff.2 he
      cases hawaits with
      | door hbelow ha => exact .door hbelow (hmem _ ha)
      | drain hbelow hr => exact .drain hbelow (hmem _ hr)

/-- Nobody waits for a latch, if nobody goes on: whoever is in the way would wait for one of higher
rank. -/
theorem not_awaits (h : Sound plan c₀ c as z) (hsuits : c₀.store.Suits plan)
    (hstuck : ∀ a ∈ as, a.hand.step plan c.store = none) (n : ℕ) : ∀ r,
      c₀.store.cells.size ≤ r + n → r < c₀.store.cells.size →
        ∀ a ∈ as, ¬ a.stance.Awaits (as.flatMap Role.stance) r := by
  induction n with
  | zero => exact fun r hn hr => absurd hr (Nat.not_lt_of_le hn)
  | succ n ih =>
    intro r hn hr a ha hawaits
    have hhigher : ∀ r', r < r' → r' < c₀.store.cells.size →
        ∀ b ∈ as, ¬ b.stance.Awaits (as.flatMap Role.stance) r' := fun r' hlt =>
      ih r' (by omega)
    have hin : ∀ b ∈ as, ∀ e ∈ b.stance, e.1 = r →
        e = (r, closing) ∧ (r, reader) ∈ as.flatMap Role.stance := by
      rintro b hb ⟨i, x⟩ he rfl
      rcases h.awaits hsuits hb (hstuck b hb) with ⟨-, hnil⟩ | ⟨r', hr', hb'⟩
      · rw [hnil] at he
        exact absurd he List.not_mem_nil
      · cases hb' with
        | door hbelow hx => exact absurd (.door hbelow hx) (hhigher r' (hbelow _ he) hr' b hb)
        | drain hbelow hx =>
          rcases hbelow _ he with heq | hlt
          · cases heq
            exact ⟨rfl, hx⟩
          · exact absurd (.drain hbelow hx) (hhigher r' hlt hr' b hb)
    have hread : (r, reader) ∉ as.flatMap Role.stance := fun hmem => by
      obtain ⟨b, hb, he⟩ := List.mem_flatMap.1 hmem
      exact absurd (hin b hb _ he rfl).1 (by simp)
    cases hawaits with
    | door _ hx =>
      obtain ⟨b, hb, he⟩ := List.mem_flatMap.1 hx
      exact hread (hin b hb _ he rfl).2
    | drain _ hx => exact hread hx

theorem live (h : Sound plan c₀ c as z) (hsuits : c₀.store.Suits plan)
    (hbusy : ∃ k ∈ c.hands, ¬ k.Finished plan) : ∃ i, (c.step plan i).isSome := by
  by_contra hno
  have hstuck : ∀ a ∈ as, a.hand.step plan c.store = none := fun a ha => by
    obtain ⟨i, hi⟩ := List.mem_iff_getElem?.1 ha
    by_contra hsome
    refine hno ⟨i, ?_⟩
    have hhand : c.hands[i]? = some a.hand := by rw [h.hands, List.getElem?_map, hi, Option.map_some]
    rw [Crew.step, hhand, Option.bind_some, Option.isSome_map]
    exact Option.isSome_iff_ne_none.2 hsome
  obtain ⟨k, hk, hbusy⟩ := hbusy
  rw [h.hands] at hk
  obtain ⟨a, ha, rfl⟩ := List.mem_map.1 hk
  rcases h.awaits hsuits ha (hstuck a ha) with ⟨hdone, -⟩ | ⟨r, hr, hawaits⟩
  · exact hbusy hdone
  · exact h.not_awaits hsuits hstuck _ r (Nat.le_add_left _ r) hr a ha hawaits

end Sound

end Crew

/-! ## No two at one node -/

/-- Where the hand `k` has closed the door of a node, `l` has not; and once it is locked, `l` does not look
at the node either. -/
def Hand.Apart (s : Store K V) (k l : Hand K V M) : Prop :=
  ∀ r, .writing r ∈ k.holds →
    .writing r ∉ l.holds ∧ ((s.word r).isLocked = true → .reading r ∉ l.holds)

theorem Stance.mem_of_writing {hs : List Hold} (hhs : hs.Perm (σ.map hold))
    (hr : .writing r ∈ hs) : ∃ x, (r, x) ∈ σ ∧ x ≠ reader := by
  obtain ⟨⟨i, x⟩, hmem, hx⟩ := List.mem_map.1 (hhs.mem_iff.1 hr)
  rcases x with (_ | _ | _) | _ | _ <;> cases hx
  · exact ⟨_, hmem, by decide⟩
  · exact ⟨_, hmem, by decide⟩
  · exact ⟨_, hmem, by decide⟩

theorem Stance.mem_of_reading {hs : List Hold} (hhs : hs.Perm (σ.map hold))
    (hr : .reading r ∈ hs) : (r, reader) ∈ σ := by
  obtain ⟨⟨i, x⟩, hmem, hx⟩ := List.mem_map.1 (hhs.mem_iff.1 hr)
  rcases x with (_ | _ | _) | _ | _ <;> cases hx
  exact hmem

/-- Next to a hand that has closed the door of a node there are only readers, and none once it is
locked. -/
theorem Store.Tells.excludes {x x' : Stake} (h : s.Tells (σ ++ (σ' ++ O))) (hx : (r, x) ∈ σ)
    (hne : x ≠ reader) (hx' : (r, x') ∈ σ') : x' = reader ∧ (s.word r).isLocked = false := by
  have hr := (h.perm ((List.perm_cons_erase hx).append_right _)) r
  rw [List.cons_append, Stance.stakes_cons_self, Word.shows_claim hne] at hr
  obtain ⟨hreaders, hword, hroom, halone⟩ := hr
  have hmem : x' ∈ Stance.stakes (σ.erase (r, x) ++ (σ' ++ O)) r :=
    Stance.mem_stakes.2 (by simp [hx'])
  refine ⟨hreaders x' hmem, ?_⟩
  rw [hword, Word.isLocked_compose hroom, ← Bool.not_eq_true, locks_iff]
  exact fun hw => List.ne_nil_of_mem hmem (halone hw)

namespace Crew.Sound

theorem apart (h : Sound plan c₀ c as z) :
    c.hands.Pairwise fun k l => k.Apart c.store l ∧ l.Apart c.store k := by
  have hpair : ∀ a ∈ as, ∀ b ∈ as, ∀ O, c.store.Tells (a.stance ++ (b.stance ++ O)) →
      a.hand.Apart c.store b.hand := by
    intro a ha b hb O hw r hr
    obtain ⟨x, hx, hne⟩ := Stance.mem_of_writing (h.fits a ha).holds hr
    refine ⟨fun hr' => ?_, fun hlocked hr' => ?_⟩
    · obtain ⟨x', hx', hne'⟩ := Stance.mem_of_writing (h.fits b hb).holds hr'
      exact hne' (hw.excludes hx hne hx').1
    · have hx' := Stance.mem_of_reading (h.fits b hb).holds hr'
      rw [(hw.excludes hx hne hx').2] at hlocked
      cases hlocked
  rw [h.hands, List.pairwise_map, List.pairwise_iff_forall_sublist]
  intro a b hsub
  obtain ⟨rest, hrest⟩ := hsub.exists_perm_append
  have hw : c.store.Tells (a.stance ++ (b.stance ++ rest.flatMap Role.stance)) :=
    h.tells.perm ((hrest.flatMap_right _).trans (.of_eq (by simp)))
  have ha : a ∈ as := hsub.subset (by simp)
  have hb : b ∈ as := hsub.subset (by simp)
  refine ⟨hpair a ha b hb _ hw, hpair b hb a ha (rest.flatMap Role.stance) (hw.perm ?_)⟩
  rw [← List.append_assoc, ← List.append_assoc]
  exact List.perm_append_comm.append_right _

/-- A hand at work is inside all nodes of its lock set. -/
theorem inside (h : Sound plan c₀ c as z) {k : Hand K V M} (hk : k ∈ c.hands) {ls : LockSet}
    {w : Work K V M} (hw : k.todo = .done (.working ls w)) {l : NodeId × Ref} (hl : l ∈ ls) :
    .writing l.2 ∈ k.holds ∧ (c.store.word l.2).isLocked = true := by
  rw [h.hands] at hk
  obtain ⟨a, ha, rfl⟩ := List.mem_map.1 hk
  have hfit := h.fits a ha
  have hin : (l.2, .guard .writing) ∈ a.stance := by
    refine hfit.way.mem_stance [] ?_
    rw [hw]
    exact List.mem_map_of_mem hl
  refine ⟨hfit.holds.mem_iff.2 (List.mem_map.2 ⟨_, hin, rfl⟩), ?_⟩
  have hword := h.tells l.2
  have hmem : .guard .writing ∈ Stance.stakes (as.flatMap Role.stance) l.2 :=
    Stance.mem_stakes.2 (List.mem_flatMap.2 ⟨a, ha, hin⟩)
  rw [hword.word, Word.isLocked_compose hword.room]
  exact List.any_eq_true.2 ⟨_, hmem, rfl⟩

/-! ## One after the other -/

/-- When all hands are between jobs, the store is as jobs done one after the other have left it. -/
theorem serial_of_ready (h : Sound plan c₀ c as z) (hc₀ : c₀.store.table = .free)
    (hready : ∀ k ∈ c.hands, ∃ a, k.todo = .done (.ready a)) : Serial plan c₀ c := by
  have hroles : ∀ a ∈ as, a.hand = .ready a.mind ∧ a.stance = [] := by
    intro a ha
    obtain ⟨n, hn⟩ := hready a.hand (h.hands ▸ List.mem_map_of_mem ha)
    obtain ⟨hholds, hway⟩ := h.fits a ha
    obtain ⟨⟨p, hs⟩, σ, m⟩ := a
    obtain rfl : p = .done (.ready n) := hn
    cases hway with
    | asking hclimbs hidle =>
      obtain ⟨hσ, hm⟩ := hclimbs
      dsimp only at hσ hm hholds
      subst hσ hm
      obtain rfl := List.perm_nil.1 hholds
      exact ⟨rfl, rfl⟩
  have hnone : as.flatMap Role.stance = [] := List.flatMap_eq_nil_iff.2 fun a ha => (hroles a ha).2
  have hunlatched : c.store.Unlatched := by
    refine ⟨h.aligned.table.trans hc₀, fun r => h.tells.word_free ?_⟩
    rw [hnone, Stance.stakes_nil]
  have hnode : z.node = c.store.node := funext fun r => h.nodes r fun a ha => by
    rw [(hroles a ha).1]
    exact List.not_mem_nil
  have hstore : z = c.store := by
    refine Store.eq_of_content hunlatched.shows h.unlatched.shows ?_
      (h.left.spin.trans h.aligned.spin.symm)
    rw [h.left.content, h.aligned.content, hnode]
  have hhands : (as.map Role.mind).map Hand.ready = c.hands := by
    rw [h.hands, List.map_map]
    exact List.map_congr_left fun a ha => (hroles a ha).1.symm
  have hserial := h.serial
  rwa [Crew.ready, hstore, hhands] at hserial

end Crew.Sound

/-! ## How many readers there can be -/

/-- A hand looks at no node twice at once. -/
theorem Role.Fits.looks_once {s' : Store K V} {x y : Ref → Node K V} {k : Hand K V M}
    (h : a.Fits plan s₀ x y) (honce : ∀ r, a.hand.holds.count (.reading r) ≤ 1)
    (hstep : a.hand.step plan s = some (s', k)) (r : Ref) : k.holds.count (.reading r) ≤ 1 := by
  obtain ⟨hholds, hway⟩ := h
  obtain ⟨⟨p, hs⟩, σ, m⟩ := a
  cases p with
  | halt e => cases hstep
  | ask q next =>
    cases hway with
    | asking hclimbs hidle =>
      simp only [Hand.step] at hstep
      split_ifs at hstep
      split at hstep
      · cases hstep
        exact hclimbs.looks_once hholds honce _ r
      · cases hstep
        exact Nat.zero_le _
  | done st =>
    cases st with
    | ready n =>
      obtain ⟨p, -, hp⟩ := Option.map_eq_some_iff.1 hstep
      cases hp
      exact honce r
    | working ls w =>
      cases w with
      | done n =>
        cases hstep
        exact honce r
      | get id next =>
        simp only [Hand.step] at hstep
        split at hstep
        · cases hstep
          exact honce r
        · cases hstep
          exact Nat.zero_le _
      | modify id f next =>
        simp only [Hand.step] at hstep
        split at hstep
        · cases hstep
          exact honce r
        · cases hstep
          exact Nat.zero_le _

namespace Crew

theorem readers_le (honce : ∀ k ∈ c.hands, ∀ r, k.holds.count (.reading r) ≤ 1) (r : Ref) :
    c.readers r ≤ c.hands.length := by
  rw [readers, List.count_flatMap]
  have hsum := List.sum_le_card_nsmul (c.hands.map (List.count (.reading r) ∘ Hand.holds)) 1
    fun n hn => by
      obtain ⟨k, hk, rfl⟩ := List.mem_map.1 hn
      exact honce k hk r
  simpa using hsum

/-- With fewer hands than a latch can count readers, any steps that can be taken are a run. -/
theorem Reached.of_steps (hs : s.Suits plan) (hroom : ms.length < Word.room) {is : List ℕ}
    (h : is.foldlM (Crew.step plan) (.ready s ms) = some c) : Reached plan (.ready s ms) c := by
  suffices hboth : Reached plan (.ready s ms) c ∧ c.hands.length = ms.length ∧
      ∀ k ∈ c.hands, ∀ r, k.holds.count (.reading r) ≤ 1 from hboth.1
  induction is using List.reverseRecOn generalizing c with
  | nil =>
    cases h
    refine ⟨.start, List.length_map .., fun k hk r => ?_⟩
    obtain ⟨m, -, rfl⟩ := List.mem_map.1 hk
    exact Nat.zero_le _
  | append_singleton is i ih =>
    rw [List.foldlM_append] at h
    obtain ⟨c₁, hc₁, h⟩ := Option.bind_eq_some_iff.1 h
    have hstep : c₁.step plan i = some c := by simpa using h
    obtain ⟨hreached, hlength, honce⟩ := ih hc₁
    obtain ⟨as, z, hsound⟩ := hreached.sound hs
    obtain ⟨k, hi, hsome⟩ := Option.bind_eq_some_iff.1 hstep
    obtain ⟨⟨s', k'⟩, hhand, rfl⟩ := Option.map_eq_some_iff.1 hsome
    have hk := List.mem_of_getElem? hi
    have hfits : ∃ a ∈ as, a.hand = k := List.mem_map.1 (hsound.hands ▸ hk)
    obtain ⟨a, ha, rfl⟩ := hfits
    have honce' : ∀ l ∈ c₁.hands.set i k', ∀ r, l.holds.count (.reading r) ≤ 1 := by
      intro l hl r
      rcases List.mem_or_eq_of_mem_set hl with hl | rfl
      · exact honce l hl r
      · exact (hsound.fits a ha).looks_once (honce _ hk) hhand r
    have hlength' : (c₁.hands.set i k').length = ms.length := (List.length_set ..).trans hlength
    refine ⟨.step hreached hstep fun r => ?_, hlength', honce'⟩
    exact (readers_le honce' r).trans_lt (hlength'.symm ▸ hroom)

/-! ## Any run -/

/-- Whatever the order of the steps, no hand meets a fault, and someone can go on until all are
finished. No two hands are at work on one node, and none looks at a node that another is at work on.
When all are between jobs, the store and what each has in mind are as the same hands can have left them
by doing their jobs one after the other. -/
theorem Reached.live_apart_serial (hs : s.Suits plan) (h : Reached plan (.ready s ms) c) :
    (∀ k ∈ c.hands, ∀ e, k.todo ≠ .halt e) ∧
    ((∃ k ∈ c.hands, ¬ k.Finished plan) → ∃ i, (c.step plan i).isSome) ∧
    (c.hands.Pairwise fun k l => k.Apart c.store l ∧ l.Apart c.store k) ∧
    (∀ k ∈ c.hands, ∀ ls w, k.todo = .done (.working ls w) → ∀ l ∈ ls,
      .writing l.2 ∈ k.holds ∧ (c.store.word l.2).isLocked = true) ∧
    ((∀ k ∈ c.hands, ∃ a, k.todo = .done (.ready a)) → Serial plan (.ready s ms) c) := by
  obtain ⟨as, z, hsound⟩ := h.sound hs
  refine ⟨fun k hk e he => ?_, hsound.live hs, hsound.apart, fun k hk ls w hw l hl =>
    hsound.inside hk hw hl, hsound.serial_of_ready hs.unlatched.table⟩
  rw [hsound.hands] at hk
  obtain ⟨a, ha, rfl⟩ := List.mem_map.1 hk
  obtain ⟨-, hway⟩ := hsound.fits a ha
  rw [he] at hway
  cases hway with
  | asking hclimbs _ => exact hclimbs

/-- Two lock sets that are asked for in opposite orders, and a look at the nodes of both. -/
def crossing : ℕ → Job ℕ ℕ ℕ
  | 1 => .within [2, 3] (.get 2 fun n => .modify 3 (fun n' => { n' with value := n.value }) (.done 0))
  | 2 => .within [3, 0, 2] (.modify 2 (fun n => { n with color := .black }) (.done 0))
  | 3 => .pair 4 3 fun _ _ => 0
  | _ => .finished

/-- The first hand has closed one of two doors, before which the others stand. -/
theorem live_apart_serial_crossing : (Store.recycled.letGo (.reserving 3)).Suits crossing ∧ ∃ c,
    [0, 0, 0, 0, 1, 1, 1, 2].foldlM (step crossing)
        (ready (Store.recycled.letGo (.reserving 3)) [1, 2, 3]) = some c ∧
      (c.step crossing 1).isSome = false ∧ (c.step crossing 2).isSome = false ∧
        ∃ i, (c.step crossing i).isSome = true := by
  have hsuits : (Store.recycled.letGo (.reserving 3)).Suits crossing := by
    refine ⟨?_, ⟨rfl, fun r => ?_⟩, fun a => ?_⟩
    · rw [Store.content_letGo]
      exact Store.sound_recycled
    · rcases r with _ | _ | _ | _ | _ | r <;> rfl
    · have hthere : ∀ id ∈ [3, 0, 2], id ≠ .nil →
          ∃ r, (Store.recycled.letGo (.reserving 3)).ref? id = some r := by
        simp only [← Option.isSome_iff_exists]
        decide
      match a with
      | 1 => exact ⟨fun id hid => hthere id (by revert id; decide), by decide, by decide,
          fun _ => ⟨by decide, by decide, trivial⟩⟩
      | 2 => exact ⟨hthere, by decide, by decide, trivial⟩
      | 3 => exact ⟨by decide, by decide, by decide⟩
      | 0 | _ + 4 => trivial
  have hblocked : ∀ c, [0, 0, 0, 0, 1, 1, 1, 2].foldlM (step crossing)
        (ready (Store.recycled.letGo (.reserving 3)) [1, 2, 3]) = some c →
      (c.step crossing 1).isSome = false ∧ (c.step crossing 2).isSome = false := by
    intro c hc
    cases hc
    decide +kernel
  have hrun : ([0, 0, 0, 0, 1, 1, 1, 2].foldlM (step crossing)
        (ready (Store.recycled.letGo (.reserving 3)) [1, 2, 3])).isSome = true := by
    decide +kernel
  obtain ⟨c, hc⟩ := Option.isSome_iff_exists.1 hrun
  obtain ⟨-, hlive, -⟩ := (Reached.of_steps hsuits (by decide) hc).live_apart_serial hsuits
  refine ⟨hsuits, c, hc, (hblocked c hc).1, (hblocked c hc).2, hlive ?_⟩
  cases hc
  refine ⟨_, List.mem_cons_of_mem _ (List.mem_cons_self ..), fun ⟨a, ha, _⟩ => ?_⟩
  cases ha

end Crew

end LatchTree
