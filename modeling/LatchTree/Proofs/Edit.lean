import LatchTree.Proofs.Heap
import LatchTree.Tree.Writer

/-!
Edits: what a section of writes does to the heap. An edit makes a property of the heap hold if it
goes through whenever the lock set has all nodes that were asked for, and changes no others.
-/

namespace LatchTree

variable {K V α β : Type}

/-! ## Members of a lock set -/

/-- The lock set has the nodes `ids`, and its members are as in the heap. -/
structure Members.Shows (ms : Members K V) (ids : List NodeId) (h : Heap K V) : Prop where
  has : ∀ i ∈ ids, i ≠ .nil → i ∈ ms.map Prod.fst
  lookup : ∀ i ∈ ms.map Prod.fst, ms.lookup i = h i

theorem Members.lookup_overwrite (ms : Members K V) (id i : NodeId) (n : Node K V)
    (hi : i ∈ ms.map Prod.fst) :
    List.lookup i (ms.map fun m => if m.1 = id then (id, n) else m) =
      if i = id then some n else ms.lookup i := by
  induction ms with
  | nil => simp at hi
  | cons m ms ih =>
    obtain ⟨j, m⟩ := m
    by_cases hij : i = j
    · subst hij
      by_cases hid : i = id <;> simp [hid]
    · have hi' : i ∈ ms.map Prod.fst := by simpa [hij] using hi
      have hbeq : (i == j) = false := by simp [hij]
      by_cases hjd : j = id
      · subst hjd
        simp [List.lookup_cons, hbeq, ih hi']
      · simp [List.lookup_cons, hbeq, hjd, ih hi']

theorem Members.fst_overwrite (ms : Members K V) (id : NodeId) (n : Node K V) :
    (ms.map fun m => if m.1 = id then (id, n) else m).map Prod.fst = ms.map Prod.fst := by
  rw [List.map_map]
  apply List.map_congr_left
  intro m _
  by_cases hm : m.1 = id <;> simp [hm]

/-! ## The rules -/

namespace Edit

/-- Under a lock set that has the nodes `ids`, the edit goes through, changes no node but its
members, and ends with `Q`. -/
def Makes (e : Edit K V α) (ids : List NodeId) (h : Heap K V) (Q : α → Heap K V → Prop) : Prop :=
  ∀ ms : Members K V, ms.Shows ids h → ∃ a ms' h', e.run.run ms = (.ok a, ms') ∧
    ms'.map Prod.fst = ms.map Prod.fst ∧ ms'.Shows ids h' ∧
    (∀ i, i ∉ ms.map Prod.fst → h' i = h i) ∧ Q a h'

variable {ids : List NodeId} {h : Heap K V} {Q Q' : α → Heap K V → Prop} {id : NodeId}

theorem Makes.mono {e : Edit K V α} (he : e.Makes ids h Q) (hQ : ∀ a h', Q a h' → Q' a h') :
    e.Makes ids h Q' := by
  intro ms hms
  obtain ⟨a, ms', h', hrun, hkeys, hms', hrest, hq⟩ := he ms hms
  exact ⟨a, ms', h', hrun, hkeys, hms', hrest, hQ _ _ hq⟩

theorem Makes.pure {a : α} (hq : Q a h) : Makes (Pure.pure a) ids h Q :=
  fun ms hms => ⟨a, ms, h, rfl, rfl, hms, fun _ _ => rfl, hq⟩

theorem Makes.bind {e : Edit K V α} {f : α → Edit K V β} {R : β → Heap K V → Prop}
    (he : e.Makes ids h fun a h' => (f a).Makes ids h' R) : (e >>= f).Makes ids h R := by
  intro ms hms
  obtain ⟨a, ms₁, h₁, hrun, hkeys, hms₁, hrest, hf⟩ := he ms hms
  obtain ⟨b, ms₂, h₂, hrun₂, hkeys₂, hms₂, hrest₂, hr⟩ := hf ms₁ hms₁
  refine ⟨b, ms₂, h₂, ?_, hkeys₂.trans hkeys, hms₂, ?_, hr⟩
  · rw [ExceptT.run_bind, StateT.run_bind, hrun]
    exact hrun₂
  · intro i hi
    rw [hrest₂ i (hkeys ▸ hi), hrest i hi]

theorem run_get {ms : Members K V} {n : Node K V} (hn : ms.lookup id = some n) :
    (get id : Edit K V (Node K V)).run.run ms = (.ok n, ms) := by
  have hall : (getThe (Members K V) : Edit K V (Members K V)).run.run ms = (.ok ms, ms) := rfl
  simp only [get, ExceptT.run_bind, StateT.run_bind, hall]
  simp only [Bind.bind, hn]
  rfl

theorem run_get_none {ms : Members K V} (hn : ms.lookup id = none) :
    (get id : Edit K V (Node K V)).run.run ms = (.error (.notInSet id), ms) := by
  have hall : (getThe (Members K V) : Edit K V (Members K V)).run.run ms = (.ok ms, ms) := rfl
  simp only [get, ExceptT.run_bind, StateT.run_bind, hall]
  simp only [Bind.bind, hn]
  rfl

theorem run_modify {ms : Members K V} {n : Node K V} {f : Node K V → Node K V}
    (hn : ms.lookup id = some n) : (modify id f).run.run ms =
      (.ok (), ms.map fun m => if m.1 = id then (id, f n) else m) := by
  unfold Edit.modify
  rw [ExceptT.run_bind, StateT.run_bind, run_get hn]
  rfl

theorem run_modify_none {ms : Members K V} {f : Node K V → Node K V} (hn : ms.lookup id = none) :
    (modify id f).run.run ms = (.error (.notInSet id), ms) := by
  unfold Edit.modify
  rw [ExceptT.run_bind, StateT.run_bind, run_get_none hn]
  rfl

theorem Makes.get {Q : Node K V → Heap K V → Prop} {n : Node K V} (hid : id ∈ ids)
    (hne : id ≠ .nil) (hn : h id = some n) (hq : Q n h) : (get id).Makes ids h Q :=
  fun ms hms => ⟨n, ms, h, run_get ((hms.lookup id (hms.has id hid hne)).trans hn), rfl, hms,
    fun _ _ => rfl, hq⟩

theorem Makes.modify {Q : Unit → Heap K V → Prop} {n : Node K V} {f : Node K V → Node K V}
    (hid : id ∈ ids) (hne : id ≠ .nil) (hn : h id = some n) (hq : Q () (h.set id (f n))) :
    (modify id f).Makes ids h Q := by
  intro ms hms
  have hmem := hms.has id hid hne
  have hkeys := Members.fst_overwrite ms id (f n)
  refine ⟨(), _, _, ?_, hkeys, ⟨fun i hi hi' => hkeys ▸ hms.has i hi hi', ?_⟩, ?_, hq⟩
  · exact run_modify ((hms.lookup id hmem).trans hn)
  · intro i hi
    rw [hkeys] at hi
    rw [Members.lookup_overwrite ms id i _ hi, hms.lookup i hi]
    rfl
  · intro i hi
    exact Heap.set_ne _ fun e => hi (e ▸ hmem)

theorem Makes.setParent {Q : Unit → Heap K V → Prop} {q : NodeId}
    (hid : id ≠ .nil → id ∈ ids ∧ ∃ n, h id = some n) (hq : Q () (h.adopt id q)) :
    (setParent id q).Makes ids h Q := by
  unfold Edit.setParent
  unfold Heap.adopt at hq
  by_cases hne : id = .nil
  · rw [if_pos hne] at hq ⊢
    exact .pure hq
  · obtain ⟨hmem, n, hn⟩ := hid hne
    rw [if_neg hne, hn] at hq
    rw [if_neg hne]
    exact .modify hmem hne hn hq

end Edit

end LatchTree
