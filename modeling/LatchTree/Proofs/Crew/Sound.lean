import LatchTree.Proofs.Crew.Alone
import LatchTree.Proofs.Crowd.Basic

/-!
What holds of a crew throughout. The latches tell what all hands have; and next to the store there is
another one, which looks as if the jobs that are done had been done one after the other. The two differ
only in nodes that someone is at work on.
-/

namespace LatchTree

open Latch Latch.Stake

variable {K V M : Type} {plan : M → Job K V M} {s₀ : Store K V} {x x' y y' : Ref → Node K V}
  {σ σ' O : Stance} {m : M}

/-- A hand, what it has of the latches, and what it had in mind when its last job was done. -/
structure Role (K V M : Type) where
  hand : Hand K V M
  stance : Stance
  mind : M

/-- The nodes that the hand is at work on. -/
def Hand.members (h : Hand K V M) : List Ref :=
  match h.todo with
  | .done (.working ls _) => ls.map Prod.snd
  | _ => []

/-- What a hand goes by. The nodes are as in `x`; the jobs that are done have left them as in `y`. What
is left of a job at work comes to the same as the whole job where the others have left off. -/
inductive Hand.Way (plan : M → Job K V M) (s₀ : Store K V) (x y : Ref → Node K V) :
    Program K V (Standing K V M) → Stance → M → Prop where
  | asking {p : Program K V (Standing K V M)} {σ : Stance} {m : M}
      (hp : p.Climbs plan s₀ y σ m (Standing.Climbed plan s₀))
      (hidle : ∀ ls w, p ≠ .done (.working ls w)) : Way plan s₀ x y p σ m
  | working {ls : LockSet} {w w₀ : Work K V M} {σ : Stance} {m : M} {ids : List NodeId}
      (hplan : plan m = .within ids w₀) (hls : s₀.Ranks ids ls) (hσ : σ.Perm (Stance.inside ls))
      (hw₀ : w₀.Within ids) (hw : w.Within ids)
      (hmind : (w.eval s₀.refAt x).1 = (w₀.eval s₀.refAt y).1)
      (hnodes : ∀ l ∈ ls, (w.eval s₀.refAt x).2 l.2 = (w₀.eval s₀.refAt y).2 l.2) :
      Way plan s₀ x y (.done (.working ls w)) σ m

/-- The permissions of a hand are those of its stance, and it has what it goes by. -/
structure Role.Fits (plan : M → Job K V M) (s₀ : Store K V) (x y : Ref → Node K V)
    (a : Role K V M) : Prop where
  holds : a.hand.holds.Perm (a.stance.map Stance.hold)
  way : Hand.Way plan s₀ x y a.hand.todo a.stance a.mind

/-- The crew `c`, whose hands have the roles `as`. The jobs that are done might have been done one after
the other from `c₀`, and `z` is the store as they would have left it. -/
structure Crew.Sound (plan : M → Job K V M) (c₀ c : Crew K V M) (as : List (Role K V M))
    (z : Store K V) : Prop where
  hands : c.hands = as.map Role.hand
  serial : Crew.Serial plan c₀ (.ready z (as.map Role.mind))
  unlatched : z.Unlatched
  left : z.Aligned c₀.store
  aligned : c.store.Aligned c₀.store
  tells : c.store.Tells (as.flatMap Role.stance)
  nodes : ∀ r, (∀ a ∈ as, r ∉ a.hand.members) → z.node r = c.store.node r
  fits : ∀ a ∈ as, a.Fits plan c₀.store c.store.node z.node

/-! ## One hand next to the others -/

/-- Where one hand is inside for writing, the others have nothing. -/
theorem Store.Tells.apart {s : Store K V} (h : s.Tells (σ ++ O)) {r : Ref}
    (hr : (r, .guard .writing) ∈ σ) : ∀ e ∈ O, e.1 ≠ r := by
  rintro ⟨i, a⟩ he rfl
  have hnone := Store.Tells.alone (h.perm ((List.perm_cons_erase hr).append_right O))
  have hmem : a ∈ Stance.stakes (σ.erase (i, .guard .writing) ++ O) i :=
    Stance.mem_stakes.2 (List.mem_append_right _ he)
  exact List.not_mem_nil (hnone ▸ hmem)

namespace Hand.Way

variable {p : Program K V (Standing K V M)}

/-- The nodes that a hand does not hold may change. -/
theorem congr (h : Way plan s₀ x y p σ m)
    (hx : ∀ e ∈ σ, x' e.1 = x e.1) (hy : ∀ e ∈ σ, y' e.1 = y e.1) : Way plan s₀ x' y' p σ m := by
  cases h with
  | asking hp hidle => exact .asking (hp.congr hy) hidle
  | @working ls w w₀ _ _ ids hplan hls hσ hw₀ hw hmind hnodes =>
    have hmem : ∀ l ∈ ls, (l.2, .guard .writing) ∈ σ := fun _ => Stance.mem_of_inside hσ
    have hids : ∀ {x x' : Ref → Node K V}, (∀ e ∈ σ, x' e.1 = x e.1) →
        ∀ id ∈ ids, id ≠ .nil → x' (s₀.refAt id) = x (s₀.refAt id) := fun hx id hid hne =>
      hx _ (hmem _ (hls.mem hid hne))
    obtain ⟨hmindx, hnodex⟩ := Work.eval_congr hw (hids hx)
    obtain ⟨hmindy, hnodey⟩ := Work.eval_congr hw₀ (hids hy)
    refine .working hplan hls hσ hw₀ hw (by rw [hmindx, hmind, hmindy]) fun l hl => ?_
    rw [hnodex l.2 (hx _ (hmem l hl)), hnodes l hl, hnodey l.2 (hy _ (hmem l hl))]

/-- A hand goes on its way where the nodes that it holds are as others have left them. -/
theorem of_climbs (hproper : ∀ a, (plan a).Proper s₀)
    (h : p.Climbs plan s₀ y σ m (Standing.Climbed plan s₀)) (hy : ∀ e ∈ σ, y e.1 = x e.1) :
    Way plan s₀ x y p σ m := by
  by_cases hidle : ∀ ls w, p ≠ .done (.working ls w)
  · exact .asking h hidle
  · push Not at hidle
    obtain ⟨ls, w, rfl⟩ := hidle
    obtain ⟨ids, hplan, hls, hσ⟩ := h
    have hw : w.Within ids := by
      have hm := hproper m
      rw [hplan] at hm
      exact hm.2
    have hmem : ∀ l ∈ ls, (l.2, .guard .writing) ∈ σ := fun _ => Stance.mem_of_inside hσ
    have hids : ∀ id ∈ ids, id ≠ .nil → y (s₀.refAt id) = x (s₀.refAt id) := fun id hid hne =>
      hy _ (hmem _ (hls.mem hid hne))
    obtain ⟨hmind, hnodes⟩ := Work.eval_congr hw hids
    exact .working hplan hls hσ hw hw hmind.symm fun l hl => (hnodes l.2 (hy _ (hmem l hl))).symm

/-- A hand is inside all nodes that it is at work on. -/
theorem mem_stance (h : Way plan s₀ x y p σ m) (hs : List Hold) {r : Ref}
    (hr : r ∈ members ⟨p, hs⟩) : (r, .guard .writing) ∈ σ := by
  cases h with
  | asking hp hidle =>
    unfold members at hr
    split at hr
    · rename_i ls w hp
      exact absurd hp (hidle ls w)
    · exact absurd hr List.not_mem_nil
  | working hplan hls hσ =>
    obtain ⟨l, hl, rfl⟩ := List.mem_map.1 hr
    exact Stance.mem_of_inside hσ hl

end Hand.Way

namespace Crew

variable {c₀ c c' : Crew K V M} {as pre post : List (Role K V M)} {a b : Role K V M} {z z' s' : Store K V}

/-- What all hands but one have of the latches. -/
abbrev others (pre post : List (Role K V M)) : Stance :=
  (pre ++ post).flatMap Role.stance

theorem stances_perm (pre post : List (Role K V M)) (a : Role K V M) :
    ((pre ++ a :: post).flatMap Role.stance).Perm (a.stance ++ others pre post) := by
  rw [others, ← List.flatMap_cons]
  exact List.perm_middle.flatMap_right _

theorem mem_split {o : Role K V M} : o ∈ pre ++ a :: post ↔ o = a ∨ o ∈ pre ++ post :=
  List.perm_middle.mem_iff.trans List.mem_cons

theorem others_of_mem {o : Role K V M} (ho : o ∈ pre ++ post) {e : Ref × Stake}
    (he : e ∈ o.stance) : e ∈ others pre post :=
  List.mem_flatMap.2 ⟨o, ho, he⟩

/-- One hand goes on. The others have what they go by if they have nothing of the nodes that it
changes. -/
theorem Sound.update (h : Sound plan c₀ c (pre ++ a :: post) z)
    (hserial : Serial plan c₀ (.ready z' ((pre ++ b :: post).map Role.mind)))
    (hunlatched : z'.Unlatched) (hleft : z'.Aligned c₀.store) (haligned : s'.Aligned c₀.store)
    (htells : s'.Tells (b.stance ++ others pre post))
    (hx : ∀ e ∈ others pre post, s'.node e.1 = c.store.node e.1)
    (hy : ∀ e ∈ others pre post, z'.node e.1 = z.node e.1)
    (hnodes : ∀ r, r ∉ b.hand.members → (∀ o ∈ pre ++ post, r ∉ o.hand.members) →
      z'.node r = s'.node r)
    (hfits : b.Fits plan c₀.store s'.node z'.node) :
    Sound plan c₀ ⟨s', (pre ++ b :: post).map Role.hand⟩ (pre ++ b :: post) z' := by
  refine ⟨rfl, hserial, hunlatched, hleft, haligned, htells.perm (stances_perm pre post b).symm,
    fun r hr => hnodes r (hr b (by simp)) fun o ho => hr o (mem_split.2 (.inr ho)), fun o ho => ?_⟩
  rcases mem_split.1 ho with rfl | ho
  · exact hfits
  · have hfit := h.fits o (mem_split.2 (.inr ho))
    exact ⟨hfit.holds, hfit.way.congr (fun e he => hx e (others_of_mem ho he))
      fun e he => hy e (others_of_mem ho he)⟩

namespace Sound

theorem fit (h : Sound plan c₀ c (pre ++ a :: post) z) :
    a.Fits plan c₀.store c.store.node z.node :=
  h.fits a (mem_split.2 (.inl rfl))

theorem split (h : Sound plan c₀ c (pre ++ a :: post) z) :
    c.store.Tells (a.stance ++ others pre post) :=
  h.tells.perm (stances_perm pre post a)

/-- Nodes that nobody is at work on are as the jobs that are done have left them. -/
theorem left_off (h : Sound plan c₀ c (pre ++ a :: post) z) {r : Ref} (ha : r ∉ a.hand.members)
    (hr : ∀ o ∈ pre ++ post, r ∉ o.hand.members) : z.node r = c.store.node r := by
  refine h.nodes r fun o ho => ?_
  rcases mem_split.1 ho with rfl | ho
  · exact ha
  · exact hr o ho

/-- So are those that none of the others is inside, next to a hand that is not at work. -/
theorem clean (h : Sound plan c₀ c (pre ++ a :: post) z) (ha : a.hand.members = []) {r : Ref}
    (hr : (r, .guard .writing) ∉ others pre post) : z.node r = c.store.node r := by
  refine h.left_off (ha ▸ List.not_mem_nil) fun o ho hmem => hr (others_of_mem ho ?_)
  exact (h.fits o (mem_split.2 (.inr ho))).way.mem_stance _ hmem

/-- The job of one hand is done. -/
theorem conclude (h : Sound plan c₀ c (pre ++ a :: post) z) (hs : c₀.store.Suits plan)
    (hb : b.mind = ((plan a.mind).eval c₀.store.refAt a.mind z.node).1) : ∃ z',
      Serial plan c₀ (.ready z' ((pre ++ b :: post).map Role.mind)) ∧ z'.Aligned c₀.store ∧
        z'.Unlatched ∧ z'.node = ((plan a.mind).eval c₀.store.refAt a.mind z.node).2 := by
  have hi : ((pre ++ a :: post).map Role.mind)[pre.length]? = some a.mind := by simp
  have hset : ((pre ++ a :: post).map Role.mind).set pre.length b.mind =
      (pre ++ b :: post).map Role.mind := by
    simp
  obtain ⟨z', hserial, hrest⟩ := h.serial.next hi hs.slots (hs.proper a.mind) h.left h.unlatched
  rw [← hb, hset] at hserial
  exact ⟨z', hserial, hrest⟩

/-! ## Steps -/

/-- The hand between `pre` and `post` has gone on. -/
def GoesOn (plan : M → Job K V M) (c₀ : Crew K V M) (pre post : List (Role K V M)) (s' : Store K V)
    (h' : Hand K V M) : Prop :=
  ∃ b z', b.hand = h' ∧ Sound plan c₀ ⟨s', (pre ++ b :: post).map Role.hand⟩ (pre ++ b :: post) z'

/-- One hand goes on, and no job is done by it. -/
theorem proceed (h : Sound plan c₀ c (pre ++ a :: post) z) (hb : b.mind = a.mind)
    (haligned : s'.Aligned c₀.store) (htells : s'.Tells (b.stance ++ others pre post))
    (hx : ∀ e ∈ others pre post, s'.node e.1 = c.store.node e.1)
    (hnodes : ∀ r, r ∉ b.hand.members → (∀ o ∈ pre ++ post, r ∉ o.hand.members) →
      z.node r = s'.node r)
    (hfits : b.Fits plan c₀.store s'.node z.node) : GoesOn plan c₀ pre post s' b.hand := by
  have hminds : (pre ++ a :: post).map Role.mind = (pre ++ b :: post).map Role.mind := by simp [hb]
  exact ⟨b, z, rfl, h.update (hminds ▸ h.serial) h.unlatched h.left haligned htells hx
    (fun _ _ => rfl) hnodes hfits⟩

section

variable {ls : LockSet} {hs : List Hold} {h' : Hand K V M} (hsuits : c₀.store.Suits plan)

include hsuits

/-- A hand takes up its next job. -/
theorem begin {n : M} {p : Program K V (Standing K V M)}
    (h : Sound plan c₀ c (pre ++ ⟨⟨.done (.ready n), hs⟩, σ, m⟩ :: post) z)
    (hp : (plan n).start = some p) : GoesOn plan c₀ pre post c.store ⟨p, hs⟩ := by
  have hfit := h.fit
  obtain ⟨hholds, hway⟩ := hfit
  cases hway with
  | asking hclimbs hidle =>
    obtain ⟨hσ, hm⟩ := hclimbs
    dsimp only at hσ hm
    subst hσ hm
    have hstart := Program.Climbs.start (y := z.node) hsuits.slots (hsuits.proper m) hp
    exact h.proceed (b := ⟨⟨p, hs⟩, [], m⟩) rfl h.aligned h.split (fun _ _ => rfl)
      (fun r _ hr => h.left_off List.not_mem_nil hr) ⟨hholds, .of_climbs hsuits.proper hstart (by simp)⟩

omit hsuits in
/-- A hand reads a member of its lock set. -/
theorem get {id : NodeId} {next : Node K V → Work K V M}
    (h : Sound plan c₀ c (pre ++ ⟨⟨.done (.working ls (.get id next)), hs⟩, σ, m⟩ :: post) z)
    (hstep : Hand.step plan c.store ⟨.done (.working ls (.get id next)), hs⟩ = some (s', h')) :
    GoesOn plan c₀ pre post s' h' := by
  obtain ⟨hholds, hway⟩ := h.fit
  cases hway with
  | asking hclimbs hidle => exact absurd rfl (hidle _ _)
  | working hplan hls hσ hw₀ hw hmind hnodes =>
    rw [Hand.step_get hls hw.1 hw.2.1] at hstep
    cases hstep
    exact h.proceed (b := ⟨⟨.done (.working ls _), hs⟩, σ, m⟩) rfl h.aligned h.split (fun _ _ => rfl)
      (fun r hr hr' => h.left_off hr hr')
      ⟨hholds, .working hplan hls hσ hw₀ (hw.2.2 _) hmind hnodes⟩

/-- A hand writes a member of its lock set. -/
theorem modify {id : NodeId} {f : Node K V → Node K V} {next : Work K V M}
    (h : Sound plan c₀ c (pre ++ ⟨⟨.done (.working ls (.modify id f next)), hs⟩, σ, m⟩ :: post) z)
    (hstep : Hand.step plan c.store ⟨.done (.working ls (.modify id f next)), hs⟩ = some (s', h')) :
    GoesOn plan c₀ pre post s' h' := by
  obtain ⟨hholds, hway⟩ := h.fit
  cases hway with
  | asking hclimbs hidle => exact absurd rfl (hidle _ _)
  | working hplan hls hσ hw₀ hw hmind hnodes =>
    rw [Hand.step_modify hls hw.1 hw.2.1] at hstep
    cases hstep
    have hmem := hls.mem hw.1 hw.2.1
    have hin : (c₀.store.refAt id, .guard .writing) ∈ σ := Stance.mem_of_inside hσ hmem
    have hr : c₀.store.refAt id < c.store.cells.size :=
      h.aligned.size ▸ hsuits.slots.made _ _ (hls.refs _ hmem)
    have hother : ∀ i, i ≠ c₀.store.refAt id →
        (c.store.mapNode (c₀.store.refAt id) f).node i = c.store.node i := fun i hi => by
      rw [Store.node_mapNode, if_neg fun h => hi h.1]
    refine h.proceed (b := ⟨⟨.done (.working ls next), hs⟩, σ, m⟩) rfl (h.aligned.mapNode _ f)
      (fun i => ?_) (fun e he => hother _ (h.split.apart hin e he)) (fun i hi hi' => ?_) ⟨hholds, ?_⟩
    · rw [Store.word_mapNode]
      exact h.split i
    · rw [hother i fun he => hi (he ▸ List.mem_map_of_mem hmem)]
      exact h.left_off hi hi'
    · rw [Store.node_mapNode_update hr]
      exact .working hplan hls hσ hw₀ hw.2.2 hmind hnodes

/-- A hand is through with its work, and its job is done. -/
theorem finish {n : M}
    (h : Sound plan c₀ c (pre ++ ⟨⟨.done (.working ls (.done n)), hs⟩, σ, m⟩ :: post) z) :
    GoesOn plan c₀ pre post c.store ⟨do LockSet.release ls; return .ready n, hs⟩ := by
  obtain ⟨hholds, hway⟩ := h.fit
  cases hway with
  | asking hclimbs hidle => exact absurd rfl (hidle _ _)
  | @working _ _ w₀ _ _ ids hplan hls hσ hw₀ hw hmind hnodes =>
    dsimp only at hplan hσ
    let p : Program K V (Standing K V M) := do
      LockSet.release ls
      return .ready n
    let b : Role K V M := ⟨⟨p, hs⟩, σ, n⟩
    have hb : b.mind = ((plan m).eval c₀.store.refAt m z.node).1 := by
      rw [hplan]
      exact hmind
    obtain ⟨z', hserial, hleft, hunlatched, hnode⟩ := h.conclude hsuits hb
    rw [hplan] at hnode
    have hstay : ∀ i, i ∉ ls.map Prod.snd → z'.node i = z.node i := fun i hi => by
      rw [hnode]
      refine Work.eval_other hw₀ fun id hid hne he => hi ?_
      exact he ▸ List.mem_map_of_mem (hls.mem hid hne)
    have hdone : ∀ i ∈ ls.map Prod.snd, z'.node i = c.store.node i := fun i hi => by
      obtain ⟨l, hl, rfl⟩ := List.mem_map.1 hi
      rw [hnode]
      exact (hnodes l hl).symm
    have hin : ∀ i ∈ ls.map Prod.snd, (i, .guard .writing) ∈ σ := fun i hi => by
      obtain ⟨l, hl, rfl⟩ := List.mem_map.1 hi
      exact Stance.mem_of_inside hσ hl
    have hclimbs : p.Climbs plan c₀.store z'.node σ n (Standing.Climbed plan c₀.store) := by
      refine .bind (.release (fun l hl => ?_) hσ ⟨rfl, rfl⟩)
      exact hsuits.slots.made _ _ (hls.refs l hl)
    refine ⟨b, z', rfl, h.update hserial hunlatched hleft h.aligned h.split (fun _ _ => rfl)
      (fun e he => hstay _ fun hi => h.split.apart (hin _ hi) e he rfl) (fun i hi hi' => ?_)
      ⟨hholds, .of_climbs hsuits.proper hclimbs fun e he => hdone _ ?_⟩⟩
    · by_cases hmem : i ∈ ls.map Prod.snd
      · exact hdone i hmem
      · rw [hstay i hmem]
        exact h.left_off hmem hi'
    · obtain ⟨l, hl, rfl⟩ := List.mem_map.1 (hσ.mem_iff.1 he)
      exact List.mem_map_of_mem hl

/-- A hand makes a request. -/
theorem ask {q : Request K V} {next : q.Answer → Program K V (Standing K V M)}
    (h : Sound plan c₀ c (pre ++ ⟨⟨.ask q next, hs⟩, σ, m⟩ :: post) z)
    (hstep : Hand.step plan c.store ⟨.ask q next, hs⟩ = some (s', h'))
    (hroom : ∀ r, q = .read r →
      (Stance.stakes (σ ++ others pre post) r).count reader + 1 < Word.room) :
    GoesOn plan c₀ pre post s' h' := by
  obtain ⟨hholds, hway⟩ := h.fit
  cases hway with
  | asking hclimbs hidle =>
    unfold Hand.step at hstep
    simp only at hstep
    split_ifs at hstep with hen
    obtain ⟨a, s', σ', m', hadv, hnext⟩ := hclimbs.served h.aligned h.split
      (fun r hr => h.clean rfl hr) hen hroom
    rw [hadv.serve] at hstep
    cases hstep
    have hnode : s'.node = c.store.node := congrArg Content.node hadv.content
    have haligned := h.aligned.of_content hadv.content hadv.table hadv.spin
    have hy : ∀ e ∈ σ', z.node e.1 = s'.node e.1 := fun e he => by
      rw [hnode]
      refine h.clean rfl fun hmem => ?_
      exact (hadv.tells.perm List.perm_append_comm).apart hmem e he rfl
    have hleft : ∀ r, (∀ o ∈ pre ++ post, r ∉ o.hand.members) → z.node r = s'.node r := fun r hr => by
      rw [hnode]
      exact h.left_off List.not_mem_nil hr
    let b : Role K V M := ⟨⟨next a, q.held hs a⟩, σ', m'⟩
    have hfits : b.Fits plan c₀.store s'.node z.node :=
      ⟨hadv.holds hs hholds, .of_climbs hsuits.proper hnext hy⟩
    have hother : ∀ e ∈ others pre post, s'.node e.1 = c.store.node e.1 := fun e _ => by rw [hnode]
    rcases hadv.mind with hm | ⟨r₁, r₂, look, hplan, -, -, hm⟩
    · exact h.proceed (b := b) hm haligned hadv.tells hother (fun r _ hr => hleft r hr) hfits
    · -- both nodes are held, and the look is done
      have hb : b.mind = ((plan m).eval c₀.store.refAt m z.node).1 := by
        rw [show plan m = _ from hplan]
        exact hm
      obtain ⟨z', hserial, hleft', hunlatched, hnode'⟩ := h.conclude hsuits hb
      have hnode' : z'.node = z.node := by
        rw [hnode', show plan m = _ from hplan]
        rfl
      refine ⟨b, z', rfl, h.update hserial hunlatched hleft' haligned hadv.tells hother
        (fun e _ => by rw [hnode']) (fun r _ hr => ?_) ?_⟩
      · rw [hnode']
        exact hleft r hr
      · rwa [hnode']

end

/-- The permissions to read that are held are those that the latches count. -/
theorem count_readers (h : Sound plan c₀ c as z) (r : Ref) :
    c.readers r = (Stance.stakes (as.flatMap Role.stance) r).count reader := by
  have hperm : (as.flatMap fun a => a.hand.holds).Perm ((as.flatMap Role.stance).map Stance.hold) := by
    rw [List.map_flatMap]
    exact List.Perm.flatMap_left as fun a ha => (h.fits a ha).holds
  rw [readers, h.hands, List.flatMap_map, hperm.count_eq, Stance.count_hold]

theorem step (h : Sound plan c₀ c as z) (hsuits : c₀.store.Suits plan) {i : ℕ}
    (hstep : c.step plan i = some c') (hroom : ∀ r, c'.readers r < Word.room) :
    ∃ as' z', Sound plan c₀ c' as' z' := by
  obtain ⟨hd, hi, hstep⟩ := Option.bind_eq_some_iff.1 hstep
  obtain ⟨⟨s', h'⟩, hhand, rfl⟩ := Option.map_eq_some_iff.1 hstep
  rw [h.hands, List.getElem?_map] at hi
  obtain ⟨a, ha, rfl⟩ := Option.map_eq_some_iff.1 hi
  obtain ⟨pre, post, rfl, hset⟩ := Crowd.exists_split ha
  have hhands : ∀ b : Role K V M, b.hand = h' → c.hands.set i h' = (pre ++ b :: post).map Role.hand := by
    rintro b rfl
    rw [h.hands, ← List.map_set, hset]
  suffices hgoes : GoesOn plan c₀ pre post s' h' by
    obtain ⟨b, z', hb, hsound⟩ := hgoes
    exact ⟨_, z', hhands b hb ▸ hsound⟩
  obtain ⟨⟨p, hs⟩, σ, m⟩ := a
  cases p with
  | done st =>
    cases st with
    | ready n =>
      obtain ⟨p, hp, hx⟩ := Option.map_eq_some_iff.1 hhand
      cases hx
      exact h.begin hsuits hp
    | working ls w =>
      cases w with
      | done n =>
        cases hhand
        exact h.finish hsuits
      | get id next => exact h.get hhand
      | modify id f next => exact h.modify hsuits hhand
  | halt e => cases hhand
  | ask q next =>
    refine h.ask hsuits hhand ?_
    rintro r rfl
    have hholds : h'.holds = .reading r :: hs := by
      unfold Hand.step at hhand
      simp only at hhand
      split_ifs at hhand
      cases hhand
      rfl
    have hmore : readers ⟨s', c.hands.set i h'⟩ r = c.readers r + 1 := by
      rw [readers, readers, hhands ⟨h', σ, m⟩ rfl, h.hands]
      simp only [List.map_append, List.map_cons, List.flatMap_append, List.flatMap_cons,
        List.count_append, hholds, List.count_cons_self]
      omega
    have hcount := ((Stance.stakes_perm (stances_perm pre post _) r).count_eq reader).symm.trans
      (h.count_readers r).symm
    rw [show σ = (Role.mk _ σ m).stance from rfl, hcount, ← hmore]
    exact hroom r

end Sound

end Crew

end LatchTree
