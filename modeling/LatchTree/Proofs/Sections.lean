import LatchTree.Proofs.Ensures

/-!
Sections of writes: taking the nodes of a lock set in ascending rank, writing, and letting them go.
-/

namespace LatchTree

variable {K V : Type} {cmp : K → K → Ordering}

/-! ## The order in which nodes are taken -/

namespace LockSet

theorem mem_insertId (id i : NodeId) (l : List NodeId) : i ∈ insertId id l ↔ i = id ∨ i ∈ l := by
  induction l with
  | nil => simp [insertId]
  | cons x xs ih =>
    unfold insertId
    split_ifs with hlt heq
    · simp
    · simp [heq]
    · simp only [List.mem_cons, ih]
      tauto

theorem insertId_sorted {id : NodeId} {l : List NodeId} (h : l.Pairwise (· < ·)) :
    (insertId id l).Pairwise (· < ·) := by
  induction l with
  | nil => simp [insertId]
  | cons x xs ih =>
    rw [List.pairwise_cons] at h
    unfold insertId
    split_ifs with hlt heq
    · exact List.pairwise_cons.2 ⟨fun i hi => by grind, List.pairwise_cons.2 h⟩
    · exact List.pairwise_cons.2 h
    · refine List.pairwise_cons.2 ⟨fun i hi => ?_, ih h.2⟩
      rcases (mem_insertId ..).1 hi with rfl | hi
      · exact Nat.lt_of_le_of_ne (Nat.le_of_not_lt hlt) (Ne.symm heq)
      · exact h.1 i hi

@[simp] theorem mem_distinct (i : NodeId) (ids : List NodeId) :
    i ∈ distinct ids ↔ i ∈ ids ∧ i ≠ .nil := by
  have hfold : ∀ l : List NodeId, i ∈ l.foldr insertId [] ↔ i ∈ l := by
    intro l
    induction l with
    | nil => exact Iff.rfl
    | cons x xs ih => rw [List.foldr_cons, mem_insertId, ih, List.mem_cons]
  rw [distinct, hfold, List.mem_filter, decide_eq_true_iff]

theorem distinct_sorted (ids : List NodeId) : (distinct ids).Pairwise (· < ·) := by
  have hfold : ∀ l : List NodeId, (l.foldr insertId []).Pairwise (· < ·) := by
    intro l
    induction l with
    | nil => exact List.Pairwise.nil
    | cons x xs ih => exact insertId_sorted ih
  exact hfold _

theorem distinct_nodup (ids : List NodeId) : (distinct ids).Nodup :=
  (distinct_sorted ids).imp fun h => h.ne

theorem insertMember_perm (m : NodeId × Ref) (l : LockSet) : (insertMember m l).Perm (m :: l) := by
  induction l with
  | nil => exact .refl _
  | cons x xs ih =>
    unfold insertMember
    split_ifs
    · exact .refl _
    · exact (ih.cons x).trans (.swap ..)

theorem insertMember_sorted {m : NodeId × Ref} {l : LockSet} (h : l.Pairwise (·.2 ≤ ·.2)) :
    (insertMember m l).Pairwise (·.2 ≤ ·.2) := by
  induction l with
  | nil => simp [insertMember]
  | cons x xs ih =>
    rw [List.pairwise_cons] at h
    unfold insertMember
    split_ifs with hle
    · exact List.pairwise_cons.2 ⟨fun i hi => by grind, List.pairwise_cons.2 h⟩
    · refine List.pairwise_cons.2 ⟨fun i hi => ?_, ih h.2⟩
      rcases List.mem_cons.1 ((insertMember_perm m xs).mem_iff.1 hi) with rfl | hi
      · exact Nat.le_of_not_le hle
      · exact h.1 i hi

theorem byRank_perm (l : LockSet) : (byRank l).Perm l := by
  induction l with
  | nil => exact .refl _
  | cons m l ih => exact (insertMember_perm m _).trans (ih.cons m)

theorem byRank_sorted (l : LockSet) : (byRank l).Pairwise (·.2 ≤ ·.2) := by
  induction l with
  | nil => exact List.Pairwise.nil
  | cons m l ih => exact insertMember_sorted ih

/-- Members of different ids are of different rank. -/
theorem byRank_ranked {l : LockSet} {ref? : NodeId → Option Ref}
    (hinj : ∀ i j r, ref? i = some r → ref? j = some r → i = j) (hd : (l.map Prod.fst).Nodup)
    (hl : ∀ m ∈ l, ref? m.1 = some m.2) : (byRank l).Pairwise (·.2 < ·.2) := by
  have hsnd : ((byRank l).map Prod.snd).Nodup := by
    rw [((byRank_perm l).map Prod.snd).nodup_iff]
    refine hd.of_map.map_on fun m hm m' hm' he => ?_
    exact Prod.ext (hinj _ _ _ (hl m hm) (he ▸ hl m' hm')) he
  exact (byRank_sorted l).imp₂ (fun _ _ hle hne => Nat.lt_of_le_of_ne hle hne)
    (List.pairwise_map.1 hsnd)

/-- The nodes of a lock set are those in the slots that were asked for. -/
theorem mem_refs {l : LockSet} {ids : List NodeId} {ref? : NodeId → Option Ref}
    (hmembers : ∀ i, i ∈ l.map Prod.fst ↔ i ∈ ids ∧ i ≠ .nil)
    (hl : ∀ m ∈ l, ref? m.1 = some m.2) {r : Ref} :
    r ∈ l.map Prod.snd ↔ ∃ i ∈ ids, i ≠ .nil ∧ ref? i = some r := by
  constructor
  · intro hr
    obtain ⟨m, hm, rfl⟩ := List.mem_map.1 hr
    obtain ⟨hi, hne⟩ := (hmembers m.1).1 (List.mem_map_of_mem hm)
    exact ⟨m.1, hi, hne, hl m hm⟩
  · rintro ⟨i, hi, hne, hr⟩
    obtain ⟨m, hm, rfl⟩ := List.mem_map.1 ((hmembers i).2 ⟨hi, hne⟩)
    exact List.mem_map.2 ⟨m, hm, Option.some.inj ((hl m hm).symm.trans hr)⟩

theorem checkHeld_done {l : LockSet} {held : Option (NodeId × Ref)}
    (h : ∀ m ∈ held, m.1 ∈ l.map Prod.fst) :
    (checkHeld held l : Program K V Unit) = .done () := by
  cases held with
  | none => rfl
  | some n =>
    obtain ⟨m, hm, he⟩ := List.mem_map.1 (h n rfl)
    exact if_pos (List.any_eq_true.2 ⟨m, hm, by simpa using he⟩)

end LockSet

/-! ## Taking and letting go -/

/-- Only the node that is held is reserved. -/
def Grips.holding (held : Option (NodeId × Ref)) : Grips :=
  match held with
  | some (_, r) => .only r .reserving
  | none => .free

theorem Grips.holding_calm (held : Option (NodeId × Ref)) : (holding held).Calm := by
  intro r
  cases held with
  | none => exact ⟨rfl, rfl, rfl⟩
  | some m =>
    by_cases hr : r = m.2
    · subst hr
      simp [holding, only, Grip.reserving]
    · simp [holding, only, Function.update_of_ne hr, free, Grip.free]

theorem Grips.holding_other {held : Option (NodeId × Ref)} {r : Ref} (hr : ∀ m ∈ held, m.2 ≠ r) :
    holding held r = .free := by
  cases held with
  | none => rfl
  | some m => exact Function.update_of_ne (hr m rfl).symm ..

/-- Of a tree, only the nodes `ids` are edited, and those that leave it are left without children. -/
theorem Content.TidyTree.edited {x x' : Content K V} {t t' : Shape K V} {ids : List NodeId}
    (hx : x.TidyTree t) (hkeeps : x.Keeps x') (htree : x'.heap.FreshTree t')
    (hids : ∀ i ∈ ids, i ≠ .nil → i ∈ NodeId.anchor :: t.ids)
    (hleft : ∀ i ∈ t.ids, i ∉ t'.ids → ∀ n, x'.heap i = some n → n.left = .nil ∧ n.right = .nil)
    (hframe : ∀ r, (∀ i ∈ ids, i ≠ .nil → x.ref? i ≠ some r) → x'.node r = x.node r) :
    x'.TidyTree t' := by
  refine ⟨hkeeps.sound hx.sound, htree, fun r hr => ?_⟩
  by_cases hold : ∃ i ∈ t.ids, x.ref? i = some r
  · obtain ⟨i, hi, hir⟩ := hold
    have hir' : x'.ref? i = some r := (hkeeps.ref i).trans hir
    exact hleft i hi (fun hi' => hr i (List.mem_cons_of_mem _ hi') hir') _ (heap_of_ref hir')
  · have hnone : ∀ i ∈ NodeId.anchor :: t.ids, x.ref? i ≠ some r := by
      intro i hi hir
      rcases List.mem_cons.1 hi with rfl | hi
      · exact hr _ List.mem_cons_self ((hkeeps.ref _).trans hir)
      · exact hold ⟨i, hi, hir⟩
    rw [hframe r fun i hi hne => hnone i (hids i hi hne)]
    exact hx.childless r hnone

namespace Program.Ensures

variable {R : Shape K V → Prop} {x : Content K V} {g : Grips}
  {held : Option (NodeId × Ref)}

theorem locate {Q : LockSet → Content K V → Grips → Prop} {l : List NodeId}
    (hl : ∀ i ∈ l, ∃ r, x.ref? i = some r) (hheld : ∀ m ∈ held, x.ref? m.1 = some m.2)
    (h : ∀ ls : LockSet, ls.map Prod.fst = l → (∀ m ∈ ls, x.ref? m.1 = some m.2) → Q ls x g) :
    (LockSet.locate held l).Ensures cmp R x g Q := by
  induction l generalizing Q with
  | nil => exact h [] rfl (by simp)
  | cons i l ih =>
    obtain ⟨r, hr⟩ := hl i List.mem_cons_self
    have hrest : ∀ ls : LockSet, ls.map Prod.fst = l → (∀ m ∈ ls, x.ref? m.1 = some m.2) →
        Q ((i, r) :: ls) x g := by
      intro ls hls hrefs
      refine h _ (by simp [hls]) fun m hm => ?_
      rcases List.mem_cons.1 hm with rfl | hm
      · exact hr
      · exact hrefs m hm
    have htail := ih (fun j hj => hl j (List.mem_cons_of_mem _ hj)) hrest
    refine .bind ?_
    cases held with
    | none => exact .resolve hr (.bind (htail.mono fun ls x' g' hq => hq))
    | some m =>
      obtain ⟨j, r'⟩ := m
      simp only [LockSet.find]
      split_ifs with hj
      · subst hj
        obtain rfl : r' = r := Option.some.inj ((hheld _ rfl).symm.trans hr)
        exact .pure (.bind (htail.mono fun ls x' g' hq => hq))
      · exact .resolve hr (.bind (htail.mono fun ls x' g' hq => hq))

/-- All nodes of `ls` come to be locked. -/
theorem acquire {Q : Unit → Content K V → Grips → Prop} {ls : LockSet}
    (hls : ls.Pairwise (·.2 < ·.2)) (hmade : ∀ m ∈ ls, m.2 < x.made)
    (hg : ∀ m ∈ ls, g m.2 = if held.any (·.1 == m.1) then .reserving else .free)
    (hbelow : ∀ m ∈ ls, g.Below m.2)
    (h : Q () x fun r => if r ∈ ls.map Prod.snd then .inside else g r) :
    (LockSet.acquire held ls).Ensures cmp R x g Q := by
  induction ls generalizing g with
  | nil => exact .pure (by simpa using h)
  | cons m ls ih =>
    obtain ⟨i, r⟩ := m
    rw [List.pairwise_cons] at hls
    have hr := hmade _ List.mem_cons_self
    have hgr := hg _ List.mem_cons_self
    have hb := hbelow _ List.mem_cons_self
    have hne : ∀ m ∈ ls, m.2 ≠ r := fun m hm => (hls.1 m hm).ne'
    have htail : (LockSet.acquire held ls).Ensures cmp R x (Function.update g r .inside) Q := by
      refine ih hls.2 (fun m hm => hmade m (List.mem_cons_of_mem _ hm)) (fun m hm => ?_)
        (fun m hm j hj => ?_) ?_
      · rw [Function.update_of_ne (hne m hm)]
        exact hg m (List.mem_cons_of_mem _ hm)
      · by_cases hjr : j = r
        · subst hjr
          exact hls.1 m hm
        · rw [Function.update_of_ne hjr] at hj
          exact hbelow m (List.mem_cons_of_mem _ hm) j hj
      · refine (congrArg (Q () x) (funext fun j => ?_)).mp h
        by_cases hjr : j = r
        · subst hjr
          simp
        · rw [Function.update_of_ne hjr, List.map_cons]
          simp only [List.mem_cons, hjr, false_or]
    have hlock : ∀ a : Grip, a.readers = 0 → a.latched = true → a.locked = false →
        (Program.request (.lock r)).Ensures cmp R x (Function.update g r a)
          fun _ x' g' => (LockSet.acquire held ls).Ensures cmp R x' g' Q := by
      intro a ha₁ ha₂ ha₃
      have hlast : Grips.Below (Function.update g r a) (r + 1) := by
        intro j hj
        by_cases hjr : j = r
        · exact Nat.lt_succ_of_le hjr.le
        · rw [Function.update_of_ne hjr] at hj
          exact Nat.lt_succ_of_lt (hb j hj)
      refine .request ⟨hr, ?_⟩ Request.yields_lock ?_
      · rw [Function.update_self]
        exact ⟨ha₁, ha₂, ha₃, hlast⟩
      · simpa [Request.grip] using htail
    by_cases hheld : held.any (·.1 == i) = true
    · rw [if_pos hheld] at hgr
      have hclose : LockSet.close held i r = (Program.request (.upgrade r) : Program K V Unit) :=
        if_pos hheld
      refine .bind (hclose ▸ ?_)
      exact .request ⟨hr, hgr, hb⟩ Request.yields_upgrade (.bind (hlock .upgrading rfl rfl rfl))
    · rw [if_neg hheld] at hgr
      have hclose : LockSet.close held i r = (Program.request (.latch r) : Program K V Unit) :=
        if_neg hheld
      refine .bind (hclose ▸ ?_)
      exact .request ⟨hr, hgr, hb⟩ Request.yields_latch (.bind (hlock .closing rfl rfl rfl))

theorem release {Q : Unit → Content K V → Grips → Prop} {ls : LockSet}
    (hls : ls.Pairwise (·.2 < ·.2)) (hmade : ∀ m ∈ ls, m.2 < x.made)
    (hg : ∀ m ∈ ls, g m.2 = .inside)
    (h : Q () x fun r => if r ∈ ls.map Prod.snd then .free else g r) :
    (LockSet.release ls).Ensures cmp R x g Q := by
  induction ls generalizing g with
  | nil => exact .pure (by simpa using h)
  | cons m ls ih =>
    obtain ⟨i, r⟩ := m
    rw [List.pairwise_cons] at hls
    refine .bind (.request ⟨hmade _ List.mem_cons_self, hg _ List.mem_cons_self⟩
      Request.yields_unlock ?_)
    refine ih hls.2 (fun m hm => hmade m (List.mem_cons_of_mem _ hm)) (fun m hm => ?_) ?_
    · rw [Request.grip, Function.update_of_ne (hls.1 m hm).ne']
      exact hg m (List.mem_cons_of_mem _ hm)
    · refine (congrArg (Q () x) (funext fun j => ?_)).mp h
      by_cases hjr : j = r
      · subst hjr
        simp [Request.grip]
      · rw [Request.grip, Function.update_of_ne hjr, List.map_cons]
        simp only [List.mem_cons, hjr, false_or]

/-! ## Sections -/

theorem exclusive {Q : LockSet → Content K V → Grips → Prop} {ids : List NodeId} (hx : x.Sound)
    (hids : ∀ i ∈ ids, i ≠ .nil → ∃ r, x.ref? i = some r)
    (hheld : ∀ m ∈ held, m.1 ∈ ids ∧ m.1 ≠ .nil ∧ x.ref? m.1 = some m.2)
    (h : ∀ ls : LockSet, (ls.map Prod.fst).Perm (LockSet.distinct ids) →
      ls.Pairwise (·.2 < ·.2) → (∀ m ∈ ls, x.ref? m.1 = some m.2) →
      Q ls x fun r => if r ∈ ls.map Prod.snd then .inside else Grips.holding held r) :
    (LockSet.exclusive ids held).Ensures cmp R x (.holding held) Q := by
  refine .bind (.locate (fun i hi => ?_) (fun m hm => (hheld m hm).2.2) fun ls hls hrefs => ?_)
  · rw [LockSet.mem_distinct] at hi
    exact hids i hi.1 hi.2
  have hperm := LockSet.byRank_perm ls
  have hfst : ((LockSet.byRank ls).map Prod.fst).Perm (LockSet.distinct ids) :=
    hls ▸ hperm.map Prod.fst
  have hrefs' : ∀ m ∈ LockSet.byRank ls, x.ref? m.1 = some m.2 := fun m hm =>
    hrefs m (hperm.mem_iff.1 hm)
  have hsorted : (LockSet.byRank ls).Pairwise (·.2 < ·.2) :=
    LockSet.byRank_ranked hx.inj (hls ▸ LockSet.distinct_nodup ids) hrefs
  refine .bind (.acquire hsorted (fun m hm => hx.made _ _ (hrefs' m hm)) (fun m hm => ?_)
    (fun m hm i hi => ?_) (.bind ?_))
  · cases held with
    | none => rfl
    | some n =>
      obtain ⟨j, r⟩ := n
      have hj := (hheld _ rfl).2.2
      by_cases hmj : m.1 = j
      · have hr : m.2 = r := Option.some.inj ((hrefs' m hm).symm.trans (hmj ▸ hj))
        simp [Grips.holding, Grips.only, hmj, hr]
      · have hr : m.2 ≠ r := fun he => hmj (hx.inj _ _ _ (hrefs' m hm) (he ▸ hj))
        simp [Grips.holding, Grips.only, Function.update_of_ne hr, Ne.symm hmj, Grips.free]
  · exact absurd hi (by simp [(Grips.holding_calm held i).2])
  · have hcheck : LockSet.checkHeld (K := K) (V := V) held (LockSet.byRank ls) = .done () :=
      LockSet.checkHeld_done fun m hm =>
        hfst.mem_iff.2 ((LockSet.mem_distinct ..).2 ⟨(hheld m hm).1, (hheld m hm).2.1⟩)
    rw [hcheck]
    exact .pure (h _ hfst hsorted hrefs')

/-- A section of writes turns the tree `t` into `t'`, and nothing is held afterwards. Nodes that were
not asked for stay as they are. -/
theorem within_frame {Q : Option V → Content K V → Grips → Prop} {ids : List NodeId} {w : Section K V}
    {t t' : Shape K V} {v : Option V} (hx : x.TidyTree t)
    (hids : ∀ i ∈ ids, i ≠ .nil → i ∈ NodeId.anchor :: t.ids)
    (hheld : ∀ m ∈ held, m.1 ∈ ids ∧ m.1 ≠ .nil ∧ x.ref? m.1 = some m.2)
    (hmake : w.edit.Makes ids x.heap fun a h' => a = v ∧ h'.FreshTree t' ∧
      ∀ i ∈ t.ids, i ∉ t'.ids → ∀ n, h' i = some n → n.left = .nil ∧ n.right = .nil)
    (hmove : if w.relocates then t.Relocate ids t' else t.Rewrite cmp ids t')
    (hR : t'.keys = t.keys ∨ R t')
    (h : ∀ x', x'.TidyTree t' → x.Keeps x' →
      (∀ r, (∀ i ∈ ids, x.ref? i ≠ some r) → x'.node r = x.node r) →
      x'.relocations = (if w.relocates then x.relocations + 1 else x.relocations) → Q v x' .free) :
    (LockSet.within ids held w).Ensures cmp R x (.holding held) Q := by
  have hsome : ∀ i ∈ ids, i ≠ .nil → ∃ r, x.ref? i = some r := fun i hi hne =>
    hx.ref_some (List.mem_cons_of_mem _ (hids i hi hne))
  refine .bind (.exclusive hx.sound hsome hheld fun ls hfst hsorted hrefs => ?_)
  have hmembers : ∀ i, i ∈ ls.map Prod.fst ↔ i ∈ ids ∧ i ≠ .nil := fun i =>
    hfst.mem_iff.trans (LockSet.mem_distinct i ids)
  have hmem : ∀ r, r ∈ ls.map Prod.snd ↔ ∃ i ∈ ids, i ≠ .nil ∧ x.ref? i = some r := fun r =>
    LockSet.mem_refs hmembers hrefs
  have hmade : ∀ m ∈ ls, m.2 < x.made := fun m hm => hx.sound.made _ _ (hrefs m hm)
  obtain ⟨a, x', hyields, ⟨rfl, htree, hleft⟩, hkeeps, hnode, hrel⟩ :=
    Request.yields_commit hx.sound hrefs (hfst.nodup_iff.2 (LockSet.distinct_nodup ids))
      (fun i hi hne => (hmembers i).2 ⟨hi, hne⟩) hmake
  have hframe : ∀ r, (∀ i ∈ ids, i ≠ .nil → x.ref? i ≠ some r) → x'.node r = x.node r := by
    intro r hr
    refine hnode r fun hin => ?_
    obtain ⟨i, hi, hne, hir⟩ := (hmem r).1 hin
    exact hr i hi hne hir
  have htidy : x'.TidyTree t' := hx.edited hkeeps htree hids hleft hframe
  refine .bind (.change ?_ hyields (?_ : Content.Changes cmp _ x x' t t') hR ?_)
  · intro m hm
    exact if_pos (List.mem_map_of_mem hm)
  · refine ⟨hx, htidy, fun r _ hr => hnode r fun hin => ?_, fun i _ => hkeeps.ref i,
      hkeeps.made.ge, ids, fun i hi hne r hr => ?_, ?_⟩
    · rw [if_pos hin] at hr
      exact absurd hr (by simp [Grip.inside])
    · rw [if_pos ((hmem r).2 ⟨i, hi, hne, hr⟩)]
      rfl
    · cases hw : w.relocates with
      | false => exact .inl ⟨by simpa [hw] using hrel, by simpa [hw] using hmove⟩
      | true => exact .inr ⟨by simpa [hw] using hrel, by simpa [hw] using hmove⟩
  · refine .bind (.release hsorted (fun m hm => hkeeps.made ▸ hmade m hm)
      (fun m hm => if_pos (List.mem_map_of_mem hm)) (.pure ?_))
    -- the reservation went with the lock set, of which its node is a member
    have hfree : (fun r => if r ∈ ls.map Prod.snd then Grip.free else
        if r ∈ ls.map Prod.snd then Grip.inside else Grips.holding held r) = Grips.free := by
      funext r
      by_cases hr : r ∈ ls.map Prod.snd
      · rw [if_pos hr, Grips.free]
      · rw [if_neg hr, if_neg hr]
        refine Grips.holding_other fun m hm => ?_
        rintro rfl
        obtain ⟨hi, hne, href⟩ := hheld m hm
        exact hr ((hmem m.2).2 ⟨m.1, hi, hne, href⟩)
    exact hfree ▸ h x' htidy hkeeps (fun r hr => hframe r fun i hi _ => hr i hi) hrel

theorem within {Q : Option V → Content K V → Grips → Prop} {ids : List NodeId} {w : Section K V}
    {t t' : Shape K V} {v : Option V} (hx : x.TidyTree t)
    (hids : ∀ i ∈ ids, i ≠ .nil → i ∈ NodeId.anchor :: t.ids)
    (hheld : ∀ m ∈ held, m.1 ∈ ids ∧ m.1 ≠ .nil ∧ x.ref? m.1 = some m.2)
    (hmake : w.edit.Makes ids x.heap fun a h' => a = v ∧ h'.FreshTree t' ∧
      ∀ i ∈ t.ids, i ∉ t'.ids → ∀ n, h' i = some n → n.left = .nil ∧ n.right = .nil)
    (hmove : if w.relocates then t.Relocate ids t' else t.Rewrite cmp ids t')
    (hR : t'.keys = t.keys ∨ R t')
    (h : ∀ x', x'.TidyTree t' → x.Keeps x' → Q v x' .free) :
    (LockSet.within ids held w).Ensures cmp R x (.holding held) Q :=
  .within_frame hx hids hheld hmake hmove hR fun x' hx' hk _ _ => h x' hx' hk

end Program.Ensures

end LatchTree
