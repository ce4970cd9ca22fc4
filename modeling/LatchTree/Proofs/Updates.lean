import LatchTree.Proofs.Writer.Remove
import LatchTree.Tree.Operations

/-!
Updates one after the other, with no other thread about. Each leads from a settled tree to a settled
tree and leaves no latch held, whatever the comparison of keys says.
-/

namespace LatchTree

variable {K V : Type} {cmp : K → K → Ordering} {t t' : Shape K V} {s : Store K V}

/-- A change of the entries. -/
inductive Update (K V : Type) where
  | set (k : K) (v : V)
  | remove (k : K)

namespace Update

/-- What the writer does. -/
def program (cmp : K → K → Ordering) (fuel : Nat) : Update K V → Program K V (Option V)
  | set k v => Tree.set cmp fuel k v
  | remove k => Tree.remove cmp fuel k

/-- What the update answers, and what rows it leaves. -/
def Makes (cmp : K → K → Ordering) (t : Shape K V) :
    Update K V → Option V → List (Row K V) → Prop
  | set k v => t.Sets cmp k v
  | remove k => t.Removes cmp k

end Update

namespace Store

/-- Makes one update, and answers as it does. -/
def update (cmp : K → K → Ordering) (s : Store K V) (u : Update K V) :
    Except Halt (Option V) × Store K V :=
  (u.program cmp s.patience).run s []

/-- Makes updates in order, up to the first that fails; answers as they do. -/
def updates (cmp : K → K → Ordering) :
    Store K V → List (Update K V) → Except Halt (List (Option V)) × Store K V
  | s, [] => (.ok [], s)
  | s, u :: us =>
    match s.update cmp u with
    | (.ok v, s) =>
      match updates cmp s us with
      | (.ok vs, s) => (.ok (v :: vs), s)
      | (.error h, s) => (.error h, s)
    | (.error h, s) => (.error h, s)

/-- A settled tree, and no thread holds any of its latches. -/
structure UnlatchedTree (s : Store K V) (t : Shape K V) : Prop where
  settled : s.content.SettledTree t
  shows : s.Shows (fun _ => 0) .free

theorem UnlatchedTree.empty (spin : Bool) : (Store.empty spin : Store K V).UnlatchedTree .nil := by
  have hnode : ∀ r, (Store.empty spin : Store K V).node r = .reserved := by
    rintro (_ | _ | r) <;> rfl
  have href : ∀ i r, (Store.empty spin : Store K V).content.ref? i = some r →
      i = r ∧ (i = .nil ∨ i = .anchor) := by
    rintro (_ | _ | i) r h
    · exact ⟨Option.some.inj h, .inl rfl⟩
    · exact ⟨Option.some.inj h, .inr rfl⟩
    · exact absurd h (by simp [Content.ref?, content, Store.empty])
  have hmade : (Store.empty spin : Store K V).content.made = 2 := rfl
  refine ⟨⟨⟨⟨rfl, rfl, ?_, ?_, ?_, List.nodup_nil⟩, ⟨⟨?_, trivial, by simp [Shape.Distinct]⟩, ?_⟩, ?_⟩,
    ⟨0, rfl, trivial, rfl⟩, ?_, rfl, ?_⟩, ?_⟩
  · intro i r h
    obtain ⟨rfl, rfl | rfl⟩ := href i r h
    · exact hmade ▸ Nat.zero_lt_two
    · exact hmade ▸ Nat.one_lt_two
  · intro i j r hi hj
    exact (href i r hi).1.trans (href j r hj).1.symm
  · exact fun id hid => absurd hid List.not_mem_nil
  · exact congrArg some (hnode 1)
  · exact congrArg some (hnode 0)
  · intro r _
    rw [show (Store.empty spin : Store K V).content.node r = _ from hnode r]
    exact ⟨rfl, rfl⟩
  · exact fun a ha => absurd ha List.not_mem_nil
  · intro i r h
    simpa using (href i r h).2
  · refine ⟨rfl, fun r => ?_, fun r => by decide, fun r => Nat.zero_le 1, fun r h => rfl⟩
    have hword : (Store.empty spin : Store K V).word r = .free := by
      rcases r with _ | _ | r <;> rfl
    exact hword.trans Latch.Word.free_eq_compose

/-- The patience of a store is enough for all ways down its tree. -/
theorem le_patience (h : s.content.TidyTree t) : 4 * (t.size + 4) ≤ s.patience := by
  have hle := h.size_le
  rw [Shape.length_ids] at hle
  change _ ≤ s.slots.size at hle
  rw [patience]
  exact Nat.mul_le_mul (by omega) (by omega)

theorem size_lt_patience (h : s.content.TidyTree t) : t.size < s.patience := by
  have hle := le_patience h
  omega

end Store

namespace Update

variable {R : Shape K V → Prop} {fuel : Nat} {x : Content K V}

theorem ensures_allots (cmp : K → K → Ordering) (hx : x.SettledTree t) (hfuel : t.size < fuel)
    (u : Update K V) (hR : ∀ old t', u.Makes cmp t old t'.rows → R t') :
    (u.program cmp fuel).Ensures cmp R x .free fun old x' g' =>
      g' = .free ∧ x.Allots x' ∧ ∃ t', x'.SettledTree t' ∧ u.Makes cmp t old t'.rows := by
  cases u with
  | set k v => exact .set hx hfuel hR
  | remove k => exact .remove hx hfuel hR

theorem ensures (cmp : K → K → Ordering) (hx : x.SettledTree t) (hfuel : t.size < fuel)
    (u : Update K V) (hR : ∀ old t', u.Makes cmp t old t'.rows → R t') :
    (u.program cmp fuel).Ensures cmp R x .free fun old x' g' =>
      g' = .free ∧ ∃ t', x'.SettledTree t' ∧ u.Makes cmp t old t'.rows :=
  (u.ensures_allots cmp hx hfuel hR).mono fun _ _ _ h => ⟨h.1, h.2.2⟩

end Update

namespace Store

theorem UnlatchedTree.update (hs : s.UnlatchedTree t) (cmp : K → K → Ordering) (u : Update K V) :
    ∃ old s' t', s.update cmp u = (.ok old, s') ∧ s'.UnlatchedTree t' ∧ u.Makes cmp t old t'.rows := by
  obtain ⟨old, s', g', hrun, ⟨rfl, t', ht', hu⟩, hw⟩ :=
    (u.ensures (R := fun _ => True) cmp hs.settled (size_lt_patience hs.settled.tidy)
      fun _ _ _ => trivial).run hs.shows []
  exact ⟨old, s', t', hrun, ⟨ht', hw⟩, hu⟩

theorem UnlatchedTree.updates (hs : s.UnlatchedTree t) (cmp : K → K → Ordering)
    (us : List (Update K V)) : ∃ olds s' t',
      s.updates cmp us = (.ok olds, s') ∧ s'.UnlatchedTree t' := by
  induction us generalizing s t with
  | nil => exact ⟨[], s, t, rfl, hs⟩
  | cons u us ih =>
    obtain ⟨old, s₁, t₁, hu, hs₁, -⟩ := hs.update cmp u
    obtain ⟨olds, s₂, t₂, hus, hs₂⟩ := ih hs₁
    exact ⟨old :: olds, s₂, t₂, by rw [Store.updates, hu]; simp only [hus], hs₂⟩

/-! ## The rules of red-black trees -/

/-- The links unfold to `t`, with the two reserved nodes as they should be; `t` keeps the rules of
red-black trees, all its nodes have entries, and they are counted. -/
structure RedBlack (s : Store K V) (t : Shape K V) : Prop where
  tree : Heap.FreshTree s.node? t
  colors : ∃ n, t.RedBlack n
  filled : t.Filled
  count : s.len = UInt64.ofNat t.size

theorem UnlatchedTree.redBlack (hs : s.UnlatchedTree t) : s.RedBlack t :=
  ⟨hs.settled.tidy.tree, hs.settled.colors, hs.settled.filled, hs.settled.entries⟩

/-- Whatever the comparison of keys says, all updates go through, and they leave a red-black tree. -/
theorem redBlack_updates (cmp : K → K → Ordering) (spin : Bool) (us : List (Update K V)) :
    ∃ olds s t, (Store.empty spin).updates cmp us = (.ok olds, s) ∧ s.RedBlack t := by
  obtain ⟨olds, s, t, hrun, hs⟩ := (UnlatchedTree.empty spin).updates cmp us
  exact ⟨olds, s, t, hrun, hs.redBlack⟩

end Store

end LatchTree
