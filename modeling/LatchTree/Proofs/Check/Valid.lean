import LatchTree.Proofs.Check.Exam
import LatchTree.Proofs.Depth
import LatchTree.Proofs.RedBlack
import LatchTree.Tree.Operations

/-!
Checking a tree, sound and complete. Whatever the links of a store are, the check comes to an end, and
it passes just if they unfold to a search tree that keeps all rules; that no node is met twice follows
from the bounds that the keys have to keep.
-/

namespace LatchTree

variable {K V : Type} {cmp : K → K → Ordering}

/-! ## What a tree has to keep -/

namespace Shape

def height : Shape K V → ℕ
  | nil => 0
  | node _ l _ r => max l.height r.height + 1

/-- The depths of the nodes that have a child missing, the top being at depth `d`; in the order in which
they are met, each before those on its right and those before the ones on its left. -/
def ends (d : ℕ) : Shape K V → List ℕ
  | nil => []
  | node _ l _ r =>
    (if l.top = .nil ∨ r.top = .nil then [d] else []) ++ (r.ends (d + 1) ++ l.ends (d + 1))

end Shape

/-- The links from the anchor unfold to the tree `t`, which keeps all rules, and all its paths pass
`blacks` black nodes. -/
structure Heap.Valid (cmp : K → K → Ordering) (h : Heap K V) (t : Shape K V) (blacks : ℕ) : Prop where
  sentinel : ∃ n, h .nil = some n ∧ n.color = .black ∧ n.key = none
  anchor : ∃ n, h .anchor = some n ∧ n.color = .black ∧ n.key = none ∧ n.right = .nil ∧ n.left = t.top
  hangs : t.Hangs h .anchor
  distinct : (NodeId.nil :: t.ids).Nodup
  sorted : t.Sorted cmp
  colors : t.RedBlack blacks
  shallow : t.height ≤ Tree.maxDepth

/-! ## Bounds -/

/-- The row is between the two bounds, as far as there are any. -/
def Row.Between (cmp : K → K → Ordering) (lo hi : Option (Row K V)) (a : Row K V) : Prop :=
  (∀ b ∈ lo, b.Before cmp a) ∧ ∀ b ∈ hi, a.Before cmp b

/-- The row of the node `id` with the content `n`. -/
def Node.row (id : NodeId) (n : Node K V) : Row K V :=
  ⟨id, n.key, n.value⟩

/-- The bound that the node `id` stands for; the sentinel stands for none. -/
def Heap.bound (h : Heap K V) (id : NodeId) : Option (Row K V) :=
  if id = .nil then none else (h id).map (Node.row id)

/-- The node `id` has a key, unless it is the sentinel. -/
def Heap.Marks (h : Heap K V) (id : NodeId) : Prop :=
  id = .nil ∨ ∃ n, h id = some n ∧ n.key ≠ none

/-- What is examined of a tree below a node `q` and between two bounds; `n` is its black height. -/
structure Shape.Passes (cmp : K → K → Ordering) (h : Heap K V) (q : NodeId) (lo hi : Option (Row K V))
    (n : ℕ) (u : Shape K V) : Prop where
  hangs : u.Hangs h q
  nil_notMem : NodeId.nil ∉ u.ids
  sorted : u.Sorted cmp
  between : ∀ a ∈ u.rows, a.Between cmp lo hi
  calm : u.Calm
  even : u.Even n

namespace Shape

variable {h : Heap K V} {q : NodeId} {lo hi : Option (Row K V)} {n : ℕ} {c : Color} {l r : Shape K V}
  {a : Row K V}

theorem passes_nil : (nil : Shape K V).Passes cmp h q lo hi n ↔ n = 0 :=
  ⟨fun hp => hp.even, fun hn => ⟨trivial, by simp, ⟨by simp [rows], .nil⟩, by simp [rows], trivial, hn⟩⟩

theorem sorted_node : (node c l a r).Sorted cmp ↔ a.key ≠ none ∧ l.Sorted cmp ∧ r.Sorted cmp ∧
    (∀ b ∈ l.rows, b.Before cmp a) ∧ (∀ b ∈ r.rows, a.Before cmp b) ∧
      ∀ b ∈ l.rows, ∀ e ∈ r.rows, b.Before cmp e := by
  constructor
  · rintro ⟨hk, ha⟩
    simp only [rows, List.pairwise_append, List.pairwise_cons, List.mem_append, List.mem_cons] at hk ha
    exact ⟨hk a (.inr (.inl rfl)), ⟨fun b hb => hk b (.inl hb), ha.1⟩,
      ⟨fun b hb => hk b (.inr (.inr hb)), ha.2.1.2⟩, fun b hb => ha.2.2 b hb a (.inl rfl), ha.2.1.1,
      fun b hb e he => ha.2.2 b hb e (.inr he)⟩
  · rintro ⟨hk, hl, hr, hla, har, hlr⟩
    constructor
    · simp only [rows, List.mem_append, List.mem_cons]
      rintro b (hb | rfl | hb)
      exacts [hl.keyed b hb, hk, hr.keyed b hb]
    · simp only [rows, List.pairwise_append, List.pairwise_cons, List.mem_cons]
      refine ⟨hl.ascending, ⟨har, hr.ascending⟩, fun b hb e he => ?_⟩
      rcases he with rfl | he
      exacts [hla b hb, hlr b hb e he]

/-- Bounds need to be looked at from one node to the next only: the order of keys does the rest. -/
theorem passes_node [Std.TransCmp cmp] : (node c l a r).Passes cmp h q lo hi n ↔
    h a.id = some (a.node c q .left l.top r.top) ∧ a.id ≠ .nil ∧ a.key ≠ none ∧ a.Between cmp lo hi ∧
      (c = .red → l.color = .black ∧ r.color = .black) ∧ ∃ m, n = m + c.weight ∧
        l.Passes cmp h a.id lo (some a) m ∧ r.Passes cmp h a.id (some a) hi m := by
  constructor
  · rintro ⟨⟨ha, hl, hr⟩, hnil, hs, hb, ⟨hcol, hlc, hrc⟩, m, hlm, hrm, hn⟩
    obtain ⟨hk, hls, hrs, hla, har, -⟩ := sorted_node.1 hs
    simp only [ids_node, List.mem_append, List.mem_cons, not_or] at hnil
    simp only [rows, List.mem_append, List.mem_cons] at hb
    refine ⟨ha, Ne.symm hnil.2.1, hk, hb a (.inr (.inl rfl)), hcol, m, hn,
      ⟨hl, hnil.1, hls, fun b hbl => ⟨(hb b (.inl hbl)).1, ?_⟩, hlc, hlm⟩,
      ⟨hr, hnil.2.2, hrs, fun b hbr => ⟨?_, (hb b (.inr (.inr hbr))).2⟩, hrc, hrm⟩⟩
    · simpa using hla b hbl
    · simpa using har b hbr
  · rintro ⟨ha, hid, hk, hab, hcol, m, hn, hl, hr⟩
    have hla : ∀ b ∈ l.rows, b.Before cmp a := fun b hb => (hl.between b hb).2 a rfl
    have har : ∀ b ∈ r.rows, a.Before cmp b := fun b hb => (hr.between b hb).1 a rfl
    refine ⟨⟨ha, hl.hangs, hr.hangs⟩, ?_, sorted_node.2 ⟨hk, hl.sorted, hr.sorted, hla, har,
      fun b hb e he => (hla b hb).trans (har e he)⟩, ?_, ⟨hcol, hl.calm, hr.calm⟩, m, hl.even, hr.even,
      hn⟩
    · simp only [ids_node, List.mem_append, List.mem_cons, not_or]
      exact ⟨hl.nil_notMem, hid.symm, hr.nil_notMem⟩
    · simp only [rows, List.mem_append, List.mem_cons]
      rintro b (hb | rfl | hb)
      · exact ⟨(hl.between b hb).1, fun e he => (hla b hb).trans (hab.2 e he)⟩
      · exact hab
      · exact ⟨fun e he => (hab.1 e he).trans (har b hb), (hr.between b hb).2⟩

theorem Passes.eq_nil {u : Shape K V} (hu : u.Passes cmp h q lo hi n) (htop : u.top = .nil) :
    u = nil := by
  cases u with
  | nil => rfl
  | node c l a r => exact absurd (by simp [show NodeId.nil = a.id from htop.symm]) hu.nil_notMem

/-- Ascending keys keep a node from being met twice. -/
theorem Passes.nodup [Std.TransCmp cmp] {u : Shape K V} (hu : u.Passes cmp h q lo hi n) :
    (NodeId.nil :: u.ids).Nodup := by
  refine List.nodup_cons.2 ⟨hu.nil_notMem, List.pairwise_map.2 ?_⟩
  refine hu.sorted.ascending.imp_of_mem fun {a b} ha hb hab he => ?_
  obtain ⟨n, hn, hna, -⟩ := hu.hangs.row ha
  obtain ⟨n', hn', hnb, -⟩ := hu.hangs.row hb
  obtain rfl : n = n' := Option.some.inj (hn.symm.trans (he ▸ hn'))
  obtain ⟨x, y, hx, hy, hxy⟩ := hab
  obtain rfl : x = y := Option.some.inj (hx.symm.trans (hna.symm.trans (hnb.trans hy)))
  exact absurd hxy (by simp [Std.ReflCmp.compare_self])

end Shape

/-! ## What is counted on the way -/

namespace Tree

/-- The tally goes from `t` to `t'` over a tree of which the top is at the depth `depth` below `blacks`
black nodes. -/
def Tally.Gains (count : ℕ) (t : Tally) (blacks depth : ℕ) (u : Shape K V) (n : ℕ) (t' : Tally) : Prop :=
  t.count + u.size ≤ count ∧ (∀ m ∈ t.target, m = blacks + n) ∧
    t' = ⟨t.count + u.size, some (blacks + n), t.depths.sampleAll (u.ends depth)⟩

end Tree

end LatchTree
