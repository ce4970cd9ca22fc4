import LatchTree.Proofs.FixUp.Delete
import LatchTree.Proofs.Quiet

/-!
A fix-up with no other thread about, from any store whose links unfold to a tree with one defect. What
the slots hold besides the tree makes no difference and is left alone.
-/

namespace LatchTree

variable {K V α : Type} {cmp : K → K → Ordering} {r : Reserve K V} {s s' : Store K V}
  {t t' : Shape K V} {p : Path K V} {X T : Shape K V} {fuel k b : Nat}

namespace Store

/-- A quiet store whose links unfold to a tree, on any reserve. Nodes outside the tree may have any
links. -/
structure QuietTree (r : Reserve K V) (s : Store K V) (t : Shape K V) : Prop extends s.Quiet where
  tree : Heap.ReserveTree r s.node? t

/-- From the tree `t` to the tree `t'`, with the same nodes in the same order. -/
structure Mends (r : Reserve K V) (s : Store K V) (t : Shape K V) (s' : Store K V) (t' : Shape K V) :
    Prop where
  quiet : s'.QuietTree r t'
  rows : t'.rows = t.rows
  touches : s.Touches (NodeId.anchor :: t.ids) s'

theorem QuietTree.ref_some (hs : s.QuietTree r t) {i : NodeId} (hi : i ∈ NodeId.anchor :: t.ids) :
    ∃ r, s.ref? i = some r := by
  rcases List.mem_cons.1 hi with rfl | hi
  · exact ⟨1, hs.slots.anchor⟩
  · obtain ⟨n, hn⟩ := hs.tree.hangs.mem_some hi
    exact exists_ref hn

theorem Mends.refl (hs : s.QuietTree r t) : s.Mends r t s t :=
  ⟨hs, rfl, .refl ..⟩

theorem Mends.trans {s'' : Store K V} {t'' : Shape K V} (h : s.Mends r t s' t')
    (h' : s'.Mends r t' s'' t'') : s.Mends r t s'' t'' :=
  ⟨h'.quiet, h'.rows.trans h.rows, h.touches.trans (Shape.ids_of_rows h.rows ▸ h'.touches)⟩

/-- The sentinel is as it was. -/
theorem Mends.sentinel (hs : s.QuietTree r t) (h : s.Mends r t s' t') : s'.node? .nil = s.node? .nil :=
  h.quiet.tree.sentinel.trans hs.tree.sentinel.symm

end Store

/-- A program that works on the shape comes to its end. -/
theorem Program.Works.run {Q : α → Shape K V → Prop} {P : Program K V α} (h : P.Works cmp r Q t)
    (hs : s.QuietTree r t) : ∃ a s' t', P.run s [] = (.ok a, s') ∧ s.Mends r t s' t' ∧ Q a t' := by
  induction h generalizing s with
  | @done a t h => exact ⟨a, s, t, rfl, .refl hs, h⟩
  | look hn _ ih =>
    rw [hs.unlatched.look, hn _ hs.tree]
    exact ih hs
  | alter he hids _ ih =>
    obtain ⟨s₁, hexec, hquiet, htouches, htree⟩ := hs.alter
      (fun i hi hne => hs.ref_some (hids i hi hne)) ((he.makes _ _ hs.tree).mono fun _ _ hb => hb)
    obtain ⟨a, s', t', hrun, hmends, hq⟩ := ih ⟨hquiet, htree⟩
    refine ⟨a, s', t', ?_, .trans ⟨⟨hquiet, htree⟩, he.rows, htouches.mono hids⟩ hmends, hq⟩
    rw [Program.run_bind_ok hexec, hrun]

/-- The red node on top of `T` may have a red parent, or be the root. The fix-up comes to its end, and
then the tree keeps all rules; its nodes are the same, in the same order, and no other node is
changed. -/
theorem Tree.insertFixUp_mends (hs : s.QuietTree r (p.plug T)) (hT : T.color = .red) (hcalm : T.Calm)
    (hp : p.Calm) (hroot : p.Rooted) (heven : (p.plug T).Even b) (hfuel : p.length < fuel) :
    ∃ s' t' b', (Tree.insertFixUp fuel T.top).run s [] = (.ok (), s') ∧ s.Mends r (p.plug T) s' t' ∧
      s'.node? .nil = s.node? .nil ∧ t'.RedBlack b' ∧ (b' = b ∨ b' = b + 1) := by
  have hworks : (Tree.insertFixUp fuel T.top).Works (fun _ _ => .eq) r _ _ :=
    .insertFixUp hs.tree.distinct hT hcalm hp hroot heven hfuel
  obtain ⟨_, s', t', hrun, hmends, b', hrb, hb⟩ := hworks.run hs
  exact ⟨s', t', b', hrun, hmends, hmends.sentinel hs, hrb, hb⟩

/-- Two red nodes one below the other, and a node outside the tree that has links into it. -/
def Store.conflicting : Store Nat Nat :=
  .still 3 { Node.reserved with left := 2 } [⟨some 3, some 30, .black, .anchor, 3, .nil⟩,
    ⟨some 1, some 10, .red, 2, .nil, 4⟩, ⟨some 2, some 20, .red, 3, .nil, .nil⟩,
    ⟨some 9, some 90, .black, 2, 2, 3⟩]

theorem Tree.insertFixUp_mends_conflicting : ∃ s' t' b',
    (Tree.insertFixUp 3 4).run Store.conflicting [] = (.ok (), s') ∧ s'.QuietTree .fresh t' ∧
      t'.RedBlack b' ∧ (b' = 1 ∨ b' = 2) := by
  let p : Path Nat Nat := .under .right .red ⟨3, some 1, some 10⟩ .nil
    (.under .left .black ⟨2, some 3, some 30⟩ .nil .top)
  let T : Shape Nat Nat := .node .red .nil ⟨4, some 2, some 20⟩ .nil
  have hangs : (p.plug T).Hangs Store.conflicting.node? .anchor :=
    ⟨rfl, ⟨rfl, trivial, rfl, trivial, trivial⟩, trivial⟩
  have hs : Store.conflicting.QuietTree .fresh (p.plug T) :=
    ⟨Store.still_quiet .., ⟨rfl, hangs, by decide⟩, rfl⟩
  have hcalm : T.Calm := ⟨by simp, trivial, trivial⟩
  have hp : p.Calm := ⟨trivial, by simp, trivial, by simp, trivial⟩
  have hroot : p.Rooted := ⟨by simp, fun _ => rfl, trivial⟩
  have heven : (p.plug T).Even 1 := ⟨0, ⟨0, rfl, ⟨0, rfl, rfl, rfl⟩, rfl⟩, rfl, rfl⟩
  have hfuel : p.length < 3 := by decide
  obtain ⟨s', t', b', hrun, hmends, -, hrb, hb⟩ :=
    Tree.insertFixUp_mends hs rfl hcalm hp hroot heven hfuel
  exact ⟨s', t', b', hrun, hmends.quiet, hrb, hb⟩

/-- The paths through the place of `X` have one black node less than the `b` of all other ones, and `X`
may be red below a red parent or be a red root. The fix-up comes to its end, and then the tree keeps all
rules; its nodes are the same, in the same order, and no other node is changed. -/
theorem Tree.deleteFixUp_mends (hs : s.QuietTree r (p.plug X)) (hcalm : X.Calm) (heven : X.Even k)
    (hp : p.Calm) (hroot : p.Rooted) (hpe : p.Even (k + 1) b) (hfuel : p.length < fuel) :
    ∃ s' t' b', (Tree.deleteFixUp fuel X.top p.parent).run s [] = (.ok (), s') ∧
      s.Mends r (p.plug X) s' t' ∧ s'.node? .nil = s.node? .nil ∧ t'.RedBlack b' ∧
        (b' = b ∨ b' + 1 = b) := by
  obtain ⟨n, rfl⟩ : ∃ n, b = n + 1 := ⟨b - 1, by have := hpe.le; omega⟩
  have hworks : (Tree.deleteFixUp fuel X.top p.parent).Works (fun _ _ => .eq) r _ _ :=
    .deleteFixUp hs.tree.distinct hcalm.blacken heven hp hpe hroot (Nat.zero_lt_of_lt hfuel)
      fun _ => hfuel
  obtain ⟨_, s', t', hrun, hmends, b', hrb, hb⟩ := hworks.run hs
  refine ⟨s', t', b', hrun, hmends, hmends.sentinel hs, hrb, ?_⟩
  omega

/-- The left paths lack a black node, and the sibling of the place is red. -/
def Store.lacking : Store Nat Nat :=
  .still 4 { Node.reserved with left := 2 } [⟨some 1, some 10, .black, .anchor, .nil, 3⟩,
    ⟨some 3, some 30, .red, 2, 4, 5⟩, ⟨some 2, some 20, .black, 3, .nil, .nil⟩,
    ⟨some 4, some 40, .black, 3, .nil, .nil⟩, ⟨some 9, some 90, .red, 3, 4, 2⟩]

theorem Tree.deleteFixUp_mends_lacking : ∃ s' t' b',
    (Tree.deleteFixUp 2 .nil 2).run Store.lacking [] = (.ok (), s') ∧ s'.QuietTree .fresh t' ∧
      t'.RedBlack b' ∧ (b' = 2 ∨ b' + 1 = 2) := by
  let p : Path Nat Nat := .under .left .black ⟨2, some 1, some 10⟩
    (.node .red (.node .black .nil ⟨4, some 2, some 20⟩ .nil) ⟨3, some 3, some 30⟩
      (.node .black .nil ⟨5, some 4, some 40⟩ .nil)) .top
  have hangs : (p.plug .nil).Hangs Store.lacking.node? .anchor :=
    ⟨rfl, trivial, rfl, ⟨rfl, trivial, trivial⟩, rfl, trivial, trivial⟩
  have hs : Store.lacking.QuietTree .fresh (p.plug .nil) :=
    ⟨Store.still_quiet .., ⟨rfl, hangs, by decide⟩, rfl⟩
  have hp : p.Calm := by simp [p, Path.Calm, Shape.Calm, Shape.color]
  have hpe : p.Even (0 + 1) 2 := ⟨⟨1, ⟨0, rfl, rfl, rfl⟩, ⟨0, rfl, rfl, rfl⟩, rfl⟩, rfl⟩
  have hfuel : p.length < 2 := by decide
  obtain ⟨s', t', b', hrun, hmends, -, hrb, hb⟩ :=
    Tree.deleteFixUp_mends hs trivial rfl hp ⟨fun _ => rfl, trivial⟩ hpe hfuel
  exact ⟨s', t', b', hrun, hmends.quiet, hrb, hb⟩

end LatchTree
