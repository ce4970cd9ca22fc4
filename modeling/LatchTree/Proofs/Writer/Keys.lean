import LatchTree.Proofs.Abides
import LatchTree.Proofs.Trace

/-!
No writer changes a key. Sections of writes turn links, colours and values; a node keeps for ever the key
that it was made with, and so entries never move from one node to another.
-/

namespace LatchTree

variable {K V α β : Type}

namespace Members

/-- The members of a lock set, with their keys alone. -/
def keys (ms : Members K V) : List (NodeId × Option K) :=
  ms.map fun m => (m.1, m.2.key)

theorem fst_keys (ms : Members K V) : ms.keys.map Prod.fst = ms.map Prod.fst := by
  simp [keys, Function.comp_def]

end Members

/-! ## Edits -/

namespace Edit

/-- Of members with different ids the edit changes no key. -/
def KeepsKeys (e : Edit K V α) : Prop :=
  ∀ ms : Members K V, (ms.map Prod.fst).Nodup → Members.keys (e.run.run ms).2 = ms.keys

namespace KeepsKeys

theorem pure (a : α) : KeepsKeys (Pure.pure a : Edit K V α) := fun _ _ => rfl

theorem throw (f : Fault) : KeepsKeys (MonadExcept.throw f : Edit K V α) := fun _ _ => rfl

theorem bind {e : Edit K V α} {f : α → Edit K V β} (he : e.KeepsKeys)
    (hf : ∀ a, (f a).KeepsKeys) : (e >>= f).KeepsKeys := by
  intro ms hms
  have h := he ms hms
  rw [ExceptT.run_bind, StateT.run_bind]
  generalize e.run.run ms = res at h
  obtain ⟨res, ms'⟩ := res
  cases res with
  | error f => exact h
  | ok a =>
    refine (hf a ms' ?_).trans h
    rwa [← Members.fst_keys, show ms'.keys = ms.keys from h, Members.fst_keys]

theorem get (id : NodeId) : KeepsKeys (Edit.get id : Edit K V (Node K V)) := by
  intro ms hms
  cases hn : ms.lookup id with
  | some n => rw [run_get hn]
  | none => rw [run_get_none hn]

theorem modify (id : NodeId) {f : Node K V → Node K V} (hf : ∀ n, (f n).key = n.key) :
    (Edit.modify id f).KeepsKeys := by
  intro ms hms
  cases hn : ms.lookup id with
  | none => rw [run_modify_none hn]
  | some n =>
    rw [run_modify hn]
    change Members.keys (ms.map fun m => if m.1 = id then (id, f n) else m) = ms.keys
    obtain ⟨l₁, l₂, rfl, -⟩ := List.lookup_eq_some_iff.1 hn
    rw [Members.keys, Members.keys, List.map_map]
    refine List.map_congr_left fun m hm => ?_
    by_cases hid : m.1 = id
    · have hmn : m = (id, n) := List.inj_on_of_nodup_map hms hm (by simp) hid
      simp [hmn, hf]
    · simp [hid]

theorem setChild (id : NodeId) (d : Side) (i : NodeId) :
    (Edit.modify id (·.setChild d i) : Edit K V Unit).KeepsKeys :=
  modify id fun n => n.key_setChild d i

theorem paint (id : NodeId) (c : Color) : (Edit.paint id c : Edit K V Unit).KeepsKeys :=
  modify id fun _ => rfl

theorem setParent (id parent : NodeId) : (Edit.setParent id parent : Edit K V Unit).KeepsKeys := by
  unfold Edit.setParent
  split_ifs
  · exact pure ()
  · exact modify id fun _ => rfl

theorem transplant (u v : NodeId) : (Edit.transplant u v : Edit K V Unit).KeepsKeys := by
  have hrelink : ∀ parent, (relink parent u v : Edit K V Unit).KeepsKeys := by
    intro parent
    refine bind (get parent) fun n => ?_
    split_ifs
    · exact setChild _ _ _
    · exact setChild _ _ _
    · exact throw _
  exact bind (get u) fun n => bind (hrelink _) fun _ => setParent _ _

theorem rotate (x : NodeId) (d : Side) : (Edit.rotate x d : Edit K V Unit).KeepsKeys := by
  refine bind (get x) fun n => ?_
  dsimp only
  split_ifs
  · exact throw _
  · exact bind (get _) fun _ => bind (setChild _ _ _) fun _ => bind (setParent _ _) fun _ =>
      bind (transplant _ _) fun _ => bind (setChild _ _ _) fun _ => modify x fun _ => rfl

theorem overwrite (id : NodeId) (v : V) :
    (Edit.overwrite id v : Edit K V (Option V)).KeepsKeys :=
  bind (get id) fun _ => bind (modify id fun _ => rfl) fun _ => pure _

theorem discard (z : NodeId) : (Edit.discard z : Edit K V (Option V)).KeepsKeys :=
  bind (get z) fun _ => bind (modify z fun _ => rfl) fun _ => bind (modify z fun _ => rfl) fun _ =>
    pure _

theorem splice (z x : NodeId) : (Edit.splice z x : Edit K V (Option V)).KeepsKeys :=
  bind (transplant z x) fun _ => discard z

theorem replace (z zl zr : NodeId) (color : Color) (y yp x : NodeId) :
    (Edit.replace z zl zr color y yp x : Edit K V (Option V)).KeepsKeys := by
  have htake : (takeOver z zr y yp x : Edit K V Unit).KeepsKeys := by
    unfold takeOver
    split_ifs
    · exact pure ()
    · exact bind (transplant y x) fun _ => bind (setChild _ _ _) fun _ => modify zr fun _ => rfl
  exact bind htake fun _ => bind (transplant z y) fun _ => bind (setChild _ _ _) fun _ =>
    bind (modify zl fun _ => rfl) fun _ => bind (paint y color) fun _ => discard z

end KeepsKeys

end Edit

/-! ## Requests -/

/-- The request changes no key, provided that its lock set has each node once. -/
def Request.KeepsKeys : Request K V → Prop
  | .commit ls w => (ls.map Prod.fst).Nodup ∧ w.edit.KeepsKeys
  | _ => True

namespace Store

variable {s : Store K V} {r : Ref}

theorem key_mapNodes {l : List ((NodeId × Ref) × (NodeId × Node K V))}
    (hl : ∀ m ∈ l, m.2.2.key = (s.node m.1.2).key) :
    ((l.foldl (fun s m => s.mapNode m.1.2 fun _ => m.2.2) s).node r).key = (s.node r).key := by
  induction l generalizing s with
  | nil => rfl
  | cons m l ih =>
    rw [List.forall_mem_cons] at hl
    have hone : ∀ i, ((s.mapNode m.1.2 fun _ => m.2.2).node i).key = (s.node i).key := by
      intro i
      rw [node_mapNode]
      split_ifs with hi
      · rw [hi.1]
        exact hl.1
      · rfl
    exact (ih fun m' hm' => (hl.2 m' hm').trans (hone _).symm).trans (hone r)

theorem key_commit {ls : LockSet} {w : Section K V} (hls : (ls.map Prod.fst).Nodup)
    (hw : w.edit.KeepsKeys) : ((s.commit ls w).2.node r).key = (s.node r).key := by
  have hkeys := hw (s.members ls) (by simpa [members, Function.comp_def] using hls)
  simp only [commit]
  generalize w.edit.run.run (s.members ls) = res at hkeys ⊢
  obtain ⟨res, ms⟩ := res
  have hzip : ∀ m ∈ ls.zip ms, m.2.2.key = (s.node m.1.2).key := by
    clear hls
    induction ls generalizing ms with
    | nil => simp
    | cons l ls ih =>
      cases ms with
      | nil => simp
      | cons n ms =>
        simp only [members, Members.keys, List.map_cons, List.cons.injEq, Prod.mk.injEq] at hkeys
        rw [List.zip_cons_cons, List.forall_mem_cons]
        exact ⟨hkeys.1.2, ih ms hkeys.2⟩
  have hput : ((s.putMembers ls ms).node r).key = (s.node r).key := key_mapNodes hzip
  cases res with
  | error f => exact hput
  | ok v =>
    simp only
    split_ifs
    · exact hput
    · exact hput

theorem size_mapNodes (l : List ((NodeId × Ref) × (NodeId × Node K V))) :
    (l.foldl (fun s m => s.mapNode m.1.2 fun _ => m.2.2) s).cells.size = s.cells.size := by
  induction l generalizing s with
  | nil => rfl
  | cons m l ih => exact ih.trans (by simp [mapNode])

end Store

namespace Request

variable {s : Store K V} {q : Request K V} {r : Ref}

theorem key_serve (hq : q.KeepsKeys) (hr : r < s.cells.size) :
    ((q.serve s).2.node r).key = (s.node r).key := by
  by_cases hcommit : ∃ ls w, q = .commit ls w
  · obtain ⟨ls, w, rfl⟩ := hcommit
    exact s.key_commit hq.1 hq.2
  · rw [node_serve (fun ls w h => hcommit ⟨ls, w, h⟩) hr]

/-- No node goes away. -/
theorem size_serve (q : Request K V) (s : Store K V) :
    s.cells.size ≤ (q.serve s).2.cells.size := by
  have hword : ∀ r f, (s.mapWord r f).cells.size = s.cells.size := by simp [Store.mapWord]
  cases q with
  | read | leave | reserve | unreserve | latch | upgrade | lock | unlock => exact (hword ..).ge
  | tryRead r =>
    rw [serve]
    split_ifs
    · exact (hword ..).ge
    · exact le_rfl
  | commit ls w =>
    simp only [serve, Store.commit]
    rcases w.edit.run.run (s.members ls) with ⟨_ | v, ms⟩
    · exact (Store.size_mapNodes ..).ge
    · simp only
      split_ifs
      · exact (Store.size_mapNodes ..).ge
      · exact (Store.size_mapNodes ..).ge
  | alloc n =>
    simp only [serve, Store.alloc]
    cases s.vacant <;> simp
  | free id =>
    simp only [serve, Store.free]
    split_ifs
    · exact le_rfl
    · split <;> exact le_rfl
  | resolve | relocations | countUp | countDown => exact le_rfl

end Request

/-! ## Programs -/

namespace Program

/-- Whatever it is answered, the program changes no key. -/
def KeepsKeys (p : Program K V α) : Prop :=
  p.Abides Request.KeepsKeys fun _ => True

variable {s s' : Store K V}

theorem KeepsKeys.run {p : Program K V α} {hs : List Hold} {a : α} (hp : p.KeepsKeys)
    (hrun : p.run s hs = (.ok a, s')) :
    s.cells.size ≤ s'.cells.size ∧ ∀ r < s.cells.size, (s'.node r).key = (s.node r).key := by
  induction p generalizing s hs with
  | done b =>
    obtain rfl := (Prod.mk.inj hrun).2
    exact ⟨le_rfl, fun _ _ => rfl⟩
  | halt h => cases hrun
  | ask q next ih =>
    rw [Program.run] at hrun
    split_ifs at hrun
    · have hsize := q.size_serve s
      have hkey := fun r (hr : r < s.cells.size) => Request.key_serve hp.1 hr
      rcases hserve : q.serve s with ⟨f | b, s₁⟩ <;> rw [hserve] at hrun hsize hkey
      · cases hrun
      · obtain ⟨hle, hkeys⟩ := ih b (hp.2 b) hrun
        exact ⟨hsize.trans hle, fun r hr => (hkeys r (hr.trans_le hsize)).trans (hkey r hr)⟩
    · cases hrun

namespace KeepsKeys

theorem bind {p : Program K V α} {f : α → Program K V β} (hp : p.KeepsKeys)
    (hf : ∀ a, (f a).KeepsKeys) : (p >>= f).KeepsKeys :=
  Abides.bind (Abides.mono hp fun a _ => hf a)

theorem look (id : NodeId) : (Program.look id : Program K V (Node K V)).KeepsKeys :=
  .reading id (fun _ => trivial) (fun _ => trivial) (fun _ => trivial) fun _ => trivial

theorem child (id : NodeId) (d : Side) : (Program.child id d : Program K V NodeId).KeepsKeys :=
  bind (look id) fun _ => trivial

theorem isRed (id : NodeId) : (Program.isRed id : Program K V Bool).KeepsKeys :=
  bind (look id) fun _ => trivial

theorem isBlack (id : NodeId) : (Program.isBlack id : Program K V Bool).KeepsKeys :=
  bind (look id) fun _ => trivial

theorem within (ids : List NodeId) (held : Option (NodeId × Ref)) {w : Section K V}
    (hw : w.edit.KeepsKeys) : (LockSet.within ids held w).KeepsKeys :=
  Abides.within (fun _ => trivial) held (fun _ => trivial) (fun _ => trivial) (fun _ => trivial)
    (fun _ => trivial) (fun _ hls => ⟨hls, hw⟩) fun _ => trivial

theorem alter (ids : List NodeId) {e : Edit K V Unit} (he : e.KeepsKeys) :
    (Tree.alter ids e).KeepsKeys :=
  bind (within ids none (he.bind fun _ => .pure none)) fun _ => trivial

theorem rotation (x : NodeId) (d : Side) : (Tree.rotation x d : Program K V _).KeepsKeys :=
  bind (look x) fun _ => bind (child _ _) fun _ => trivial

/-! ## Fix-ups -/

theorem blackenRoot : (Tree.blackenRoot : Program K V Unit).KeepsKeys := by
  refine bind (child _ _) fun r => bind (isRed r) fun b => ?_
  split_ifs
  · exact alter _ (.paint _ _)
  · trivial

theorem straighten (z zp : NodeId) (side : Side) :
    (Tree.straighten z zp side : Program K V NodeId).KeepsKeys := by
  refine bind (child _ _) fun c => ?_
  split_ifs
  · exact bind (rotation _ _) fun _ => bind (alter _ (.rotate _ _)) fun _ => trivial
  · trivial

theorem raiseParent (z zpp : NodeId) (side : Side) :
    (Tree.raiseParent z zpp side : Program K V Unit).KeepsKeys :=
  bind (look z) fun _ => bind (rotation _ _) fun _ =>
    alter _ (.bind (.paint _ _) fun _ => .bind (.paint _ _) fun _ => .rotate _ _)

theorem insertFixUp (fuel : ℕ) (z : NodeId) :
    (Tree.insertFixUp fuel z : Program K V Unit).KeepsKeys := by
  induction fuel generalizing z with
  | zero => trivial
  | succ fuel ih =>
    have hallows : ∀ p, (Tree.allowsRed p : Program K V Bool).KeepsKeys := by
      intro p
      unfold Tree.allowsRed
      split_ifs
      · trivial
      · exact isBlack p
    refine bind (look z) fun n => bind (hallows _) fun b => ?_
    split_ifs
    · exact blackenRoot
    · refine bind (look _) fun _ => bind (look _) fun _ => bind (isRed _) fun _ => ?_
      split_ifs
      · exact bind (alter _ (.bind (.paint _ _) fun _ => .bind (.paint _ _) fun _ => .paint _ _))
          fun _ => ih _
      · exact bind (straighten _ _ _) fun _ => bind (raiseParent _ _ _) fun _ => blackenRoot

theorem blacken (x : NodeId) : (Tree.blacken x : Program K V Unit).KeepsKeys := by
  unfold Tree.blacken
  split_ifs
  · trivial
  · refine bind (isRed x) fun b => ?_
    split_ifs
    · exact alter _ (.paint _ _)
    · trivial

theorem blackSibling (xp w : NodeId) (near : Side) :
    (Tree.blackSibling xp w near : Program K V NodeId).KeepsKeys := by
  refine bind (isRed w) fun b => ?_
  split_ifs
  · exact bind (rotation _ _) fun _ =>
      bind (alter _ (.bind (.paint _ _) fun _ => .bind (.paint _ _) fun _ => .rotate _ _)) fun _ =>
        child _ _
  · trivial

theorem redFarChild (xp w wNear wFar : NodeId) (near : Side) :
    (Tree.redFarChild xp w wNear wFar near : Program K V NodeId).KeepsKeys := by
  refine bind (isBlack wFar) fun b => ?_
  split_ifs
  · exact bind (rotation _ _) fun _ =>
      bind (alter _ (.bind (.paint _ _) fun _ => .bind (.paint _ _) fun _ => .rotate _ _)) fun _ =>
        child _ _
  · trivial

theorem raiseSibling (xp w : NodeId) (near : Side) :
    (Tree.raiseSibling xp w near : Program K V Unit).KeepsKeys :=
  bind (child _ _) fun _ => bind (rotation _ _) fun _ =>
    alter _ (.bind (.get _) fun _ => .bind (.paint _ _) fun _ => .bind (.paint _ _) fun _ =>
      .bind (.paint _ _) fun _ => .rotate _ _)

theorem deleteFixUp (fuel : ℕ) (x xp : NodeId) :
    (Tree.deleteFixUp fuel x xp : Program K V Unit).KeepsKeys := by
  induction fuel generalizing x xp with
  | zero => trivial
  | succ fuel ih =>
    have hlacking : (Tree.isLacking x xp : Program K V Bool).KeepsKeys := by
      unfold Tree.isLacking
      split_ifs
      · trivial
      · exact isBlack x
    have hblack : ∀ a b, (Program.areBlack a b : Program K V Bool).KeepsKeys := by
      intro a b
      refine bind (isBlack a) fun c => ?_
      split_ifs
      · exact isBlack b
      · trivial
    refine bind hlacking fun b => ?_
    split_ifs
    · refine bind (look xp) fun _ => bind (child _ _) fun w => ?_
      split_ifs
      · trivial
      · refine bind (blackSibling _ _ _) fun _ => bind (child _ _) fun _ => bind (child _ _) fun _ =>
          bind (hblack _ _) fun _ => ?_
        split_ifs
        · exact bind (alter _ (.paint _ _)) fun _ => bind (look _) fun _ => ih _ _
        · exact bind (redFarChild _ _ _ _ _) fun _ => bind (raiseSibling _ _ _) fun _ =>
            bind (child _ _) fun _ => blacken _
    · exact blacken x

/-! ## Updates -/

theorem ask {q : Request K V} (hq : q.KeepsKeys) : (Program.request q).KeepsKeys :=
  .request hq fun _ => trivial

theorem seek (cmp : K → K → Ordering) (k : K) (fuel : ℕ) (y : NodeId) (r : Ref) (n : Node K V) :
    (Tree.seek cmp k fuel y r n).KeepsKeys := by
  induction fuel generalizing y r n with
  | zero => trivial
  | succ fuel ih =>
    unfold Tree.seek
    dsimp only
    split_ifs
    · trivial
    · exact bind (ask trivial) fun c => bind (ask trivial) fun m => bind (ask trivial) fun _ =>
        ih _ _ _

theorem set (cmp : K → K → Ordering) (fuel : ℕ) (k : K) (v : V) :
    (Tree.set cmp fuel k v).KeepsKeys := by
  refine bind (ask trivial) fun top => bind (ask trivial) fun n => bind (seek ..) fun w => ?_
  obtain ⟨y, r, n⟩ := w
  dsimp only
  split_ifs
  · exact within _ _ (.overwrite _ _)
  · refine bind (bind (ask trivial) fun z => bind (within _ _ ?_) fun _ => bind (ask trivial)
      fun _ => ?_) fun _ => trivial
    · exact .bind (.setChild _ _ _) fun _ => .pure none
    · unfold Tree.settle
      split_ifs
      · trivial
      · exact insertFixUp ..

theorem detach (fuel : ℕ) (z : NodeId) (r : Ref) (n : Node K V) :
    (Tree.detach fuel z r n).KeepsKeys := by
  have hleast : ∀ fuel id, (Tree.least fuel id : Program K V NodeId).KeepsKeys := by
    intro fuel
    induction fuel with
    | zero => exact fun id => trivial
    | succ fuel ih =>
      intro id
      refine bind (look id) fun m => ?_
      dsimp only
      split_ifs
      · trivial
      · exact ih _
  unfold Tree.detach
  split_ifs
  · exact bind (within _ _ (.splice _ _)) fun _ => trivial
  · exact bind (within _ _ (.splice _ _)) fun _ => trivial
  · exact bind (hleast _ _) fun _ => bind (look _) fun _ =>
      bind (within _ _ (.replace _ _ _ _ _ _ _)) fun _ => trivial

theorem remove (cmp : K → K → Ordering) (fuel : ℕ) (k : K) :
    (Tree.remove cmp fuel k : Program K V (Option V)).KeepsKeys := by
  refine bind (ask trivial) fun top => bind (ask trivial) fun n => bind (seek ..) fun w => ?_
  obtain ⟨z, r, n⟩ := w
  dsimp only
  split_ifs
  · refine bind (detach ..) fun w => ?_
    obtain ⟨v, x, xp, color⟩ := w
    refine bind (ask trivial) fun _ => bind (ask trivial) fun _ => bind ?_ fun _ => trivial
    unfold Tree.refill
    split_ifs
    · exact deleteFixUp ..
    · trivial
  · exact bind (ask trivial) fun _ => trivial

end KeepsKeys

end Program

theorem Update.keepsKeys (cmp : K → K → Ordering) (fuel : ℕ) (u : Update K V) :
    (u.program cmp fuel).KeepsKeys := by
  cases u with
  | set k v => exact .set ..
  | remove k => exact .remove ..

end LatchTree
