import LatchTree.Proofs.Exclusive
import LatchTree.Proofs.Lookup.Descent

/-!
Edits under a lock set with no other thread about, in a store of which nothing is known but that its
slots are in order: no tree need hang from the anchor.
-/

namespace LatchTree

variable {K V α : Type} {s s' s'' : Store K V} {ids : List NodeId}

namespace Store

/-- No latch is held, and the slots are in order. -/
structure Quiet (s : Store K V) : Prop where
  slots : s.content.Sound
  unlatched : s.Unlatched

theorem exists_ref {i : NodeId} {n : Node K V} (hn : s.node? i = some n) : ∃ r, s.ref? i = some r :=
  (Content.ref_of_heap (x := s.content) hn).imp fun _ => And.left

/-- Only the nodes in the slots `ids` may be different; the sentinel is none of them. -/
structure Touches (s : Store K V) (ids : List NodeId) (s' : Store K V) : Prop where
  keeps : s.content.Keeps s'.content
  relocations : s'.relocations = s.relocations
  spin : s'.spin = s.spin
  node : ∀ r, (∀ i ∈ ids, i ≠ .nil → s.ref? i ≠ some r) → s'.node r = s.node r

namespace Touches

theorem refl (s : Store K V) (ids : List NodeId) : s.Touches ids s :=
  ⟨⟨rfl, rfl, rfl, rfl⟩, rfl, rfl, fun _ _ => rfl⟩

theorem ref (h : s.Touches ids s') (i : NodeId) : s'.ref? i = s.ref? i :=
  h.keeps.ref i

theorem mono {ids' : List NodeId} (h : s.Touches ids s')
    (hids : ∀ i ∈ ids, i ≠ .nil → i ∈ ids') : s.Touches ids' s' :=
  ⟨h.keeps, h.relocations, h.spin, fun r hr =>
    h.node r fun i hi hne => hr i (hids i hi hne) hne⟩

theorem trans (h : s.Touches ids s') (h' : s'.Touches ids s'') : s.Touches ids s'' where
  keeps := h.keeps.trans h'.keeps
  relocations := h'.relocations.trans h.relocations
  spin := h'.spin.trans h.spin
  node := by
    intro r hr
    rw [h'.node r fun i hi hne => h.ref i ▸ hr i hi hne, h.node r hr]

end Touches

namespace Quiet

variable (hs : s.Quiet)

include hs

theorem idles (ids : List NodeId) : s.Idles ids none :=
  ⟨hs.slots, by rw [hs.unlatched.table]; decide, nofun, fun _ _ _ _ r _ => hs.unlatched.word r⟩

/-- The latches that were taken are let go of. -/
theorem mapWords {rs : List Ref} (hkeeps : s.content.Keeps (s'.mapWords rs fun _ => .free).content)
    (htable : s'.table = .free) (hword : ∀ r, r ∉ rs → s'.word r = .free) :
    (s'.mapWords rs fun _ => .free).Quiet := by
  refine ⟨hkeeps.sound hs.slots, (s'.table_mapWords ..).trans htable, fun r => ?_⟩
  rw [s'.word_mapWords_free]
  split_ifs with hr
  · rfl
  · exact hword r hr

/-- An edit under a lock set comes to its end, and all its nodes are let go of. -/
theorem alter {e : Edit K V Unit} {Q : Heap K V → Prop}
    (hids : ∀ i ∈ ids, i ≠ .nil → ∃ r, s.ref? i = some r)
    (he : e.Makes ids s.node? fun _ h => Q h) : ∃ s',
      (Tree.alter ids e).exec s [] = (.ok (), s', []) ∧ s'.Quiet ∧ s.Touches ids s' ∧ Q s'.node? := by
  obtain ⟨ls, hranks, hword, hexec, -, -⟩ := (hs.idles ids).exclusive_exec hids []
  have hcheck : (LockSet.checkHeld none ls >>= fun _ => pure ls : Program K V LockSet) = .done ls :=
    rfl
  rw [hcheck, Program.exec_done] at hexec
  -- the words are locked, then the section is committed, then the words are let go of
  set s₁ := s.mapWords (ls.map Prod.snd) fun w => w.latch.lock with hs₁
  have hcontent : s₁.content = s.content := s.content_mapWords ..
  obtain ⟨v, x', hyields, ⟨rfl, hq⟩, hkeeps, hnode, hrelocations⟩ := Request.yields_commit
    (w := .plain e) (Q := fun v h => v = none ∧ Q h) hs.slots hranks.refs hranks.nodup
    (fun i hi hne => (hranks.members i).2 ⟨hi, hne⟩) (.bind (he.mono fun _ _ hq => .pure ⟨rfl, hq⟩))
  obtain ⟨hans, hx'⟩ := hyields s₁ hcontent
  have hwords := word_commit s₁ ls (.plain e)
  set s₂ := (s₁.commit ls (.plain e)).2
  have hcommit : (Program.request (.commit ls (.plain e))).exec s₁ (ls.foldl (LockSet.closeHeld none) []) =
      (.ok none, s₂, ls.foldl (LockSet.closeHeld none) []) :=
    Program.exec_ask rfl (Prod.ext hans rfl)
  have hrelease := LockSet.release_exec s₂ (ls.foldl (LockSet.closeHeld none) []) ls
  rw [LockSet.foldl_erase_writing] at hrelease
  · have hcontent' : (s₂.mapWords (ls.map Prod.snd) fun _ => .free).content = x' :=
      (s₂.content_mapWords ..).trans hx'
    have hexec' : (Tree.alter ids e).exec s [] =
        (.ok (), s₂.mapWords (ls.map Prod.snd) fun _ => .free, []) := by
      refine Program.exec_bind_ok (a := none) ?_ _
      exact (Program.exec_bind_ok hexec _).trans ((Program.exec_bind_ok hcommit _).trans
        (Program.exec_bind_ok hrelease _))
    have hspin := (Tree.alter ids e).spin_run s []
    rw [Program.run_of_exec hexec' nofun] at hspin
    have hkeeps' : s.content.Keeps (s₂.mapWords (ls.map Prod.snd) fun _ => .free).content :=
      hcontent' ▸ hkeeps
    refine ⟨_, hexec', hs.mapWords hkeeps' ?_ fun r hr => ?_, ⟨hkeeps', ?_, hspin, ?_⟩, ?_⟩
    · exact hwords.1.trans ((s.table_mapWords ..).trans hs.unlatched.table)
    · rw [hwords.2, hword, if_neg hr, hs.unlatched.word]
    · exact (congrArg Content.relocations hcontent').trans hrelocations
    · intro r hr
      refine (congrFun (congrArg Content.node hcontent') r).trans (hnode r fun hmem => ?_)
      obtain ⟨i, hi, hne, hir⟩ := (LockSet.mem_refs hranks.members hranks.refs).1 hmem
      exact hr i hi hne hir
    · have hheap : (s₂.mapWords (ls.map Prod.snd) fun _ => .free).node? = x'.heap :=
        congrArg Content.heap hcontent'
      exact hheap ▸ hq
  · rw [LockSet.foldl_closeHeld fun _ _ => rfl, List.append_nil]
    simp [Function.comp_def, List.reverse_perm]

end Quiet

/-! ## Stores with given nodes -/

/-- The sentinel, the anchor `a` and the nodes `ns`, each in the slot of its rank, and no latch held. -/
def still (entries : UInt64) (a : Node K V) (ns : List (Node K V)) : Store K V where
  spin := false
  cells := ((Node.reserved :: a :: ns).map fun n => { node := n }).toArray
  slots := ((List.range (ns.length + 2)).map some).toArray
  vacant := []
  table := .free
  entries := entries
  relocations := 0

theorem ref?_still (entries : UInt64) (a : Node K V) (ns : List (Node K V)) (i : NodeId) :
    (still entries a ns).ref? i = if i < ns.length + 2 then some i else none := by
  simp only [ref?, still, List.getElem?_toArray, List.getElem?_map]
  split_ifs with hi
  · rw [List.getElem?_range hi]
    rfl
  · rw [List.getElem?_eq_none (by simpa using hi)]
    rfl

theorem still_quiet (entries : UInt64) (a : Node K V) (ns : List (Node K V)) :
    (still entries a ns).Quiet := by
  have hif : ∀ i, (still entries a ns).content.ref? i =
      if i < ns.length + 2 then some i else none := ref?_still entries a ns
  have href : ∀ i r, (still entries a ns).content.ref? i = some r → i = r ∧ i < ns.length + 2 := by
    intro i r hr
    rw [hif] at hr
    split_ifs at hr with hi
    exact ⟨Option.some.inj hr, hi⟩
  refine ⟨⟨(hif _).trans (if_pos (Nat.succ_pos _)),
    (hif _).trans (if_pos (Nat.succ_lt_succ (Nat.succ_pos _))), fun i r hr => ?_, fun i j r hi hj => ?_,
    nofun, List.nodup_nil⟩, rfl, fun r => ?_⟩
  · obtain ⟨rfl, hi⟩ := href i r hr
    simpa [content, still] using Nat.le_of_lt_succ hi
  · exact (href i r hi).1.trans (href j r hj).1.symm
  · simp only [word, still, List.getElem?_toArray, List.getElem?_map]
    cases (Node.reserved :: a :: ns)[r]? <;> rfl

end Store

end LatchTree
