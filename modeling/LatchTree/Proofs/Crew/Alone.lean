import LatchTree.Proofs.Crew.Climb
import LatchTree.Proofs.Lookup.Descent

/-!
A job that is done with no other hand going on: it comes to its end, and what it makes of the nodes is what
the work comes to.
-/

namespace LatchTree

variable {K V M α : Type} {plan : M → Job K V M} {s s' s₀ : Store K V} {hs hs' : List Hold}
  {ids : List NodeId} {ls : LockSet}

namespace Store

theorem content_mapNode (s : Store K V) (r : Ref) (f : Node K V → Node K V) :
    (s.mapNode r f).content = { s.content with node := (s.mapNode r f).node } := by
  simp [content, mapNode]

theorem node_mapNode_update {r : Ref} (hr : r < s.cells.size) (f : Node K V → Node K V) :
    (s.mapNode r f).node = Function.update s.node r (f (s.node r)) := by
  funext i
  rw [node_mapNode]
  by_cases hi : i = r
  · subst hi
    rw [if_pos ⟨rfl, hr⟩, Function.update_self]
  · rw [if_neg fun h => hi h.1, Function.update_of_ne hi]

theorem Aligned.mapNode (hs : s.Aligned s₀) (r : Ref) (f : Node K V → Node K V) :
    (s.mapNode r f).Aligned s₀ :=
  Aligned.trans ⟨s.content_mapNode r f, rfl, rfl⟩ hs

end Store

theorem Store.Aligned.mapWords (hs : s.Aligned s₀) (rs : List Ref) (f : Latch.Word → Latch.Word) :
    (s.mapWords rs f).Aligned s₀ := by
  induction rs generalizing s with
  | nil => exact hs
  | cons r rs ih => exact ih (hs.of_content (s.content_mapWord r f) rfl rfl)

theorem Store.node_mapWords (s : Store K V) (rs : List Ref) (f : Latch.Word → Latch.Word) :
    (s.mapWords rs f).node = s.node :=
  congrArg Content.node (s.content_mapWords rs f)

namespace Hand

theorem Alone.head {x x' x'' : Store K V × Hand K V M} (hstep : x.2.step plan x.1 = some x')
    (h : Alone plan x' x'') : Alone plan x x'' :=
  Relation.ReflTransGen.head hstep h

/-! ## Work on the members -/

section

variable (hls : s₀.Ranks ids ls) {id : NodeId} (hid : id ∈ ids) (hne : id ≠ .nil)

include hls hid hne

theorem step_get (next : Node K V → Work K V M) :
    step plan s ⟨.done (.working ls (.get id next)), hs⟩ =
      some (s, ⟨.done (.working ls (next (s.node (s₀.refAt id)))), hs⟩) := by
  have hget : s.memberNode ls id = .ok (s.node (s₀.refAt id)) :=
    s.memberNode_member hls.nodup (hls.mem hid hne)
  simp only [step, hget]

theorem step_modify (f : Node K V → Node K V) (next : Work K V M) :
    step plan s ⟨.done (.working ls (.modify id f next)), hs⟩ =
      some (s.mapNode (s₀.refAt id) f, ⟨.done (.working ls next), hs⟩) := by
  have hedit : s.editMember ls id f = (.ok (), s.mapNode (s₀.refAt id) f) :=
    s.editMember_member hls.nodup hls.nodup_snd (hls.mem hid hne) f
  simp only [step, hedit]

end

theorem alone_work (plan : M → Job K V M) (hls : s₀.Ranks ids ls) (hs₀ : s₀.content.Sound) {w : Work K V M}
    (hw : w.Within ids) (hs : s.Aligned s₀) (hs' : List Hold) : ∃ s',
      Alone plan (s, ⟨.done (.working ls w), hs'⟩)
        (s', ⟨.done (.working ls (.done (w.eval s₀.refAt s.node).1)), hs'⟩) ∧
      s'.Aligned s₀ ∧ s'.node = (w.eval s₀.refAt s.node).2 ∧ ∀ r, s'.word r = s.word r := by
  induction w generalizing s with
  | done a => exact ⟨s, Relation.ReflTransGen.refl, hs, rfl, fun _ => rfl⟩
  | get id next ih =>
    obtain ⟨s', hrun, hrest⟩ := ih _ (hw.2.2 _) hs
    exact ⟨s', .head (step_get hls hw.1 hw.2.1 next) hrun, hrest⟩
  | modify id f next ih =>
    have hr : s₀.refAt id < s.cells.size :=
      hs.size ▸ hs₀.made _ _ (hls.refs _ (hls.mem hw.1 hw.2.1))
    obtain ⟨s', hrun, hs', hnode, hword⟩ := ih hw.2.2 (hs.mapNode (s₀.refAt id) f)
    rw [Store.node_mapNode_update hr] at hrun hnode
    refine ⟨s', .head (step_modify hls hw.1 hw.2.1 f next) hrun, hs', hnode, fun r => ?_⟩
    exact (hword r).trans (s.word_mapNode _ _ f)

/-! ## Requests -/

/-- A hand makes the requests of a program one after the other. -/
theorem alone_program (plan : M → Job K V M) {p : Program K V α} {f : α → Program K V (Standing K V M)} {a : α}
    (h : p.exec s hs = (.ok a, s', hs')) : Alone plan (s, ⟨p >>= f, hs⟩) (s', ⟨f a, hs'⟩) := by
  induction p generalizing s hs with
  | done b =>
    cases h
    exact Relation.ReflTransGen.refl
  | halt e => cases h
  | ask q next ih =>
    rw [Program.exec] at h
    split_ifs at h with hen
    · rcases hserve : q.serve s with ⟨e | b, s₁⟩ <;> rw [hserve] at h
      · cases h
      · refine Alone.head ?_ (ih b h)
        simp only [Program.ask_bind, step, hen, hserve, if_true]
    · cases h

/-! ## Jobs -/

theorem alone_within (hs₀ : s₀.content.Sound) {m : M} {w : Work K V M}
    (hplan : plan m = .within ids w) (hids : ∀ id ∈ ids, id ≠ .nil → ∃ r, s₀.ref? id = some r)
    (hw : w.Within ids) (hs : s.Aligned s₀) (hu : s.Unlatched) : ∃ s',
      Alone plan (s, ready m) (s', ready (w.eval s₀.refAt s.node).1) ∧ s'.Aligned s₀ ∧
        s'.Unlatched ∧ s'.node = (w.eval s₀.refAt s.node).2 := by
  have hidle : s.Idles ids none :=
    ⟨hs.sound hs₀, by rw [hu.table]; decide, nofun, fun _ _ _ _ r _ => hu.word r⟩
  obtain ⟨ls, hranks, hword, hexec, -, -⟩ := hidle.exclusive_exec
    (fun id hid hne => by rw [hs.ref]; exact hids id hid hne) []
  have hranks : s₀.Ranks ids ls :=
    ⟨hranks.nodup, hranks.members, fun l hl => (hs.ref _).symm.trans (hranks.refs l hl),
      hranks.ascends⟩
  set s₁ := s.mapWords (ls.map Prod.snd) fun w => w.latch.lock
  have hs₁ : s₁.Aligned s₀ := hs.mapWords ..
  obtain ⟨s₂, hwork, hs₂, hnode, hsame⟩ :=
    alone_work plan hranks hs₀ hw hs₁ (ls.foldl (LockSet.closeHeld none) [])
  rw [s.node_mapWords] at hwork hnode
  refine ⟨s₂.mapWords (ls.map Prod.snd) fun _ => .free, ?_, hs₂.mapWords .., ⟨?_, fun r => ?_⟩,
    (s₂.node_mapWords ..).trans hnode⟩
  · have hbegin : step plan s (ready m) = some (s, ⟨LockSet.exclusive ids none >>= fun ls =>
        pure (.working ls w), []⟩) := by
      simp [step, ready, hplan, Job.start]
    have hclose := alone_program plan (f := fun ls => pure (.working ls w)) hexec
    have hrelease := alone_program plan
      (f := fun _ => pure (.ready (w.eval s₀.refAt s.node).1))
      (LockSet.release_exec s₂ (ls.foldl (LockSet.closeHeld none) []) ls)
    rw [LockSet.foldl_erase_writing] at hrelease
    · exact .head hbegin (hclose.trans (hwork.trans (.head rfl hrelease)))
    · rw [LockSet.foldl_closeHeld fun _ _ => rfl, List.append_nil]
      simp [Function.comp_def, List.reverse_perm]
  · exact (s₂.table_mapWords ..).trans (hs₂.table.trans (hs.table.symm.trans hu.table))
  · rw [s₂.word_mapWords_free, hsame, hword, hu.word]
    split_ifs <;> rfl

theorem lookPair_exec (hu : s.Unlatched) {r₁ r₂ : Ref} (hne : r₁ ≠ r₂) :
    (Program.lookPair r₁ r₂).exec s [] = (.ok (s.node r₁, s.node r₂), s, []) := by
  have hfirst : ∀ r, (Request.read r).enabled s = true := fun r => by
    rw [Request.enabled, hu.word]
    decide
  have hread : ∃ hs, (Program.readPair r₁ r₂).exec s [] = (.ok (s.node r₁, s.node r₂),
      (s.mapWord r₂ .enter).mapWord r₁ .enter, hs) ∧
        (hs.erase (.reading r₁)).erase (.reading r₂) = [] := by
    rw [Program.readPair, if_neg hne]
    split_ifs
    · refine ⟨[.reading r₂, .reading r₁], ?_, by simp [hne.symm]⟩
      rw [s.mapWord_enter_comm, ← s.node_mapWord r₁ r₂ .enter]
      exact (Program.exec_ask (hfirst r₁) rfl).trans (Program.exec_ask (hu.admits r₁ r₂) rfl)
    · refine ⟨[.reading r₁, .reading r₂], ?_, by simp⟩
      rw [← s.node_mapWord r₂ r₁ .enter]
      exact (Program.exec_ask (hfirst r₂) rfl).trans (Program.exec_ask (hu.admits r₂ r₁) rfl)
  obtain ⟨hs, hread, hnone⟩ := hread
  have hleave₁ : (Request.leave r₁).serve ((s.mapWord r₂ .enter).mapWord r₁ .enter) =
      (.ok (), s.mapWord r₂ .enter) := congrArg _ (Store.mapWord_leave_enter ..)
  have hleave₂ : (Request.leave r₂).serve (s.mapWord r₂ .enter) = (.ok (), s) :=
    congrArg _ (Store.mapWord_leave_enter ..)
  refine (Program.exec_bind_ok hread _).trans ((Program.exec_ask rfl hleave₁).trans ?_)
  refine (Program.exec_ask rfl hleave₂).trans ?_
  exact congrArg _ (congrArg _ hnone)

/-- A job that is done alone leaves no latch behind. -/
theorem alone_job (hs₀ : s₀.content.Sound) {m : M} (hm : (plan m).Proper s₀) (hs : s.Aligned s₀)
    (hu : s.Unlatched) : ∃ s',
      Alone plan (s, ready m) (s', ready ((plan m).eval s₀.refAt m s.node).1) ∧ s'.Aligned s₀ ∧
        s'.Unlatched ∧ s'.node = ((plan m).eval s₀.refAt m s.node).2 := by
  cases hplan : plan m with
  | finished => exact ⟨s, Relation.ReflTransGen.refl, hs, hu, rfl⟩
  | within ids w =>
    rw [hplan] at hm
    exact alone_within hs₀ hplan hm.1 hm.2 hs hu
  | pair r₁ r₂ next =>
    rw [hplan] at hm
    have hbegin : step plan s (ready m) = some (s, ⟨Program.lookPair r₁ r₂ >>= fun ns =>
        pure (.ready (next ns.1 ns.2)), []⟩) := by
      simp [step, ready, hplan, Job.start]
    have hlook := alone_program plan (f := fun ns => pure (.ready (next ns.1 ns.2)))
      (lookPair_exec hu hm.1)
    exact ⟨s, .head hbegin hlook, hs, hu, rfl⟩

end Hand

/-- After jobs that were done one after the other, one more can be done. -/
theorem Crew.Serial.next {c₀ : Crew K V M} {ms : List M} {i : ℕ} {m : M}
    (h : Crew.Serial plan c₀ (.ready s ms)) (hi : ms[i]? = some m) (hs₀ : s₀.content.Sound)
    (hm : (plan m).Proper s₀) (hs : s.Aligned s₀) (hu : s.Unlatched) : ∃ s',
      Crew.Serial plan c₀ (.ready s' (ms.set i ((plan m).eval s₀.refAt m s.node).1)) ∧
        s'.Aligned s₀ ∧ s'.Unlatched ∧ s'.node = ((plan m).eval s₀.refAt m s.node).2 := by
  obtain ⟨s', hrun, hrest⟩ := Hand.alone_job hs₀ hm hs hu
  have hhand : (Crew.ready s ms).hands[i]? = some (.ready m) := by simp [Crew.ready, hi]
  have hserial := Crew.Serial.job h hhand hrun rfl
  refine ⟨s', ?_, hrest⟩
  rwa [Crew.ready, ← List.map_set] at hserial

end LatchTree
