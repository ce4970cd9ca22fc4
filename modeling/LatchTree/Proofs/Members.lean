import LatchTree.Proofs.Content

/-!
The nodes of a lock set as its owner reaches them: each member by its id, and no other node.
-/

namespace LatchTree

variable {K V : Type} {s : Store K V} {ls : LockSet}

namespace Store

/-! ## Overwriting nodes -/

theorem mapNode_const (s : Store K V) (r : Ref) (f : Node K V → Node K V) :
    (s.mapNode r fun _ => f (s.node r)) = s.mapNode r f := by
  simp only [mapNode, Store.mk.injEq, and_true, true_and]
  ext i hi hi'
  · simp
  · simp only [Array.getElem_modify]
    split_ifs with he
    · subst he
      have hi : r < s.cells.size := by simpa using hi
      simp [node, hi]
    · rfl

theorem mapNode_same (s : Store K V) (r : Ref) : (s.mapNode r fun _ => s.node r) = s := by
  refine (s.mapNode_const r id).trans ?_
  have hcells : (s.mapNode r id).cells = s.cells := by
    refine Array.ext (by simp [mapNode]) fun i hi hi' => ?_
    simp only [mapNode, Array.getElem_modify]
    split_ifs <;> rfl
  exact congrArg (fun c => { s with cells := c }) hcells

theorem mapNodes_same {g : NodeId × Ref → Node K V} (hg : ∀ m ∈ ls, g m = s.node m.2) :
    (ls.foldl (fun s m => s.mapNode m.2 fun _ => g m) s) = s := by
  induction ls with
  | nil => rfl
  | cons m ls ih =>
    rw [List.forall_mem_cons] at hg
    rw [List.foldl_cons, hg.1, mapNode_same, ih hg.2]

theorem putMembers_map (s : Store K V) (ls : LockSet) (g : NodeId × Ref → NodeId × Node K V) :
    s.putMembers ls (ls.map g) = ls.foldl (fun s m => s.mapNode m.2 fun _ => (g m).2) s := by
  induction ls generalizing s with
  | nil => rfl
  | cons m ls ih => exact ih _

/-! ## Members -/

theorem lookup_members (hd : (ls.map Prod.fst).Nodup) {m : NodeId × Ref} (hm : m ∈ ls) :
    (s.members ls).lookup m.1 = some (s.node m.2) :=
  Content.lookup_members (x := s.content) hd hm

theorem lookup_members_none {id : NodeId} (hid : id ∉ ls.map Prod.fst) :
    (s.members ls).lookup id = none := by
  rw [List.lookup_eq_none_iff]
  intro m hm
  obtain ⟨l, hl, rfl⟩ := List.mem_map.1 hm
  simpa using fun he : id = l.1 => hid (he ▸ List.mem_map_of_mem hl)

theorem memberNode_member (hd : (ls.map Prod.fst).Nodup) {m : NodeId × Ref} (hm : m ∈ ls) :
    s.memberNode ls m.1 = .ok (s.node m.2) := by
  rw [memberNode, Edit.run_get (lookup_members hd hm)]

theorem memberNode_other {id : NodeId} (hid : id ∉ ls.map Prod.fst) :
    s.memberNode ls id = .error (.notInSet id) := by
  rw [memberNode, Edit.run_get_none (lookup_members_none hid)]

theorem editMember_member (hd : (ls.map Prod.fst).Nodup) (hr : (ls.map Prod.snd).Nodup)
    {m : NodeId × Ref} (hm : m ∈ ls) (f : Node K V → Node K V) :
    s.editMember ls m.1 f = (.ok (), s.mapNode m.2 f) := by
  have hrun : (Section.plain (Edit.modify m.1 f)).edit.run.run (s.members ls) =
      (.ok none, ls.map fun l => (l.1, if l.1 = m.1 then f (s.node m.2) else s.node l.2)) := by
    simp only [Section.plain, ExceptT.run_bind, StateT.run_bind,
      Edit.run_modify (f := f) (lookup_members (s := s) hd hm)]
    refine Prod.ext rfl ((List.map_map ..).trans (List.map_congr_left fun l _ => ?_))
    by_cases hl : l.1 = m.1 <;> simp [hl]
  have hput : s.putMembers ls
      (ls.map fun l => (l.1, if l.1 = m.1 then f (s.node m.2) else s.node l.2)) =
        s.mapNode m.2 f := by
    rw [putMembers_map]
    obtain ⟨l₁, l₂, rfl⟩ := List.append_of_mem hm
    rw [List.map_append, List.map_cons, List.nodup_middle, List.nodup_cons] at hd hr
    have hne : ∀ l ∈ l₁ ++ l₂, l.1 ≠ m.1 ∧ l.2 ≠ m.2 := fun l hl => by
      rw [← List.map_append] at hd hr
      exact ⟨fun he => hd.1 (he ▸ List.mem_map_of_mem hl),
        fun he => hr.1 (he ▸ List.mem_map_of_mem hl)⟩
    rw [List.foldl_append, mapNodes_same fun l hl => if_neg (hne l (by simp [hl])).1,
      List.foldl_cons, if_pos rfl, mapNode_const]
    refine mapNodes_same fun l hl => ?_
    have hl := hne l (by simp [hl])
    rw [if_neg hl.1, node_mapNode, if_neg fun h => hl.2 h.1]
  rw [editMember, commit, hrun]
  simp only [hput]
  rfl

theorem editMember_other {id : NodeId} (hid : id ∉ ls.map Prod.fst) (f : Node K V → Node K V) :
    s.editMember ls id f = (.error (.notInSet id), s) := by
  have hrun : (Section.plain (Edit.modify id f)).edit.run.run (s.members ls) =
      (.error (.notInSet id), s.members ls) := by
    simp only [Section.plain, ExceptT.run_bind, StateT.run_bind,
      Edit.run_modify_none (f := f) (lookup_members_none (s := s) hid)]
    rfl
  have hput : s.putMembers ls (s.members ls) = s :=
    (s.putMembers_map ls _).trans (mapNodes_same fun _ _ => rfl)
  rw [editMember, commit, hrun]
  simp only [hput]
  rfl

end Store

end LatchTree
