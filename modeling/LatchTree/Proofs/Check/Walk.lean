import LatchTree.Proofs.Check.Valid

/-!
What the examinations of a tree accept, from that of one link to the whole check.
-/

namespace LatchTree.Tree

variable {K V : Type} {cmp : K → K → Ordering} {x : Content K V} {count m : ℕ}

/-! ## Tallies -/

namespace Tally

variable {t t' : Tally} {blacks depth n n' : ℕ} {u v : Shape K V}

/-- Two trees that are walked in turn have the same black height. -/
theorem gains_gains : (∃ t₁, t.Gains count blacks depth u n t₁ ∧ t₁.Gains count blacks depth v n' t') ↔
    n' = n ∧ t.count + u.size + v.size ≤ count ∧ (∀ m ∈ t.target, m = blacks + n) ∧
      t' = ⟨t.count + u.size + v.size, some (blacks + n),
        t.depths.sampleAll (u.ends depth ++ v.ends depth)⟩ := by
  constructor
  · rintro ⟨_, ⟨-, ht, rfl⟩, hv, htarget, rfl⟩
    obtain rfl : n' = n := (Nat.add_left_cancel (htarget _ rfl)).symm
    exact ⟨rfl, hv, ht, by rw [Depth.sampleAll_append]⟩
  · rintro ⟨rfl, hcount, ht, rfl⟩
    refine ⟨_, ⟨Nat.le_of_add_right_le hcount, ht, rfl⟩, hcount, by simp, ?_⟩
    rw [Depth.sampleAll_append]

/-- The tally with one more node, at the depth `depth`, with links to `l` and `r`. -/
def visit (t : Tally) (depth : ℕ) (l r : NodeId) : Tally :=
  { t with
    count := t.count + 1
    depths := if l = .nil ∨ r = .nil then t.depths.sample (UInt64.ofNat depth) else t.depths }

/-- The two trees below a node are walked: the right one first unless there is no left one. -/
def GainsBoth (count : ℕ) (t : Tally) (blacks depth : ℕ) (l : Shape K V) (n : ℕ) (r : Shape K V)
    (n' : ℕ) (t' : Tally) : Prop :=
  ∃ t₁, if l.top = .nil then t.Gains count blacks depth l n t₁ ∧ t₁.Gains count blacks depth r n' t'
    else t.Gains count blacks depth r n' t₁ ∧ t₁.Gains count blacks depth l n t'

/-- A node is counted before the trees below it. -/
theorem gains_node {c : Color} {a : Row K V} {l r : Shape K V} (hl : l.top = .nil → l = .nil) :
    (t.visit depth l.top r.top).GainsBoth count (blacks + c.weight) (depth + 1) l n r n' t' ↔
    n' = n ∧ t.Gains count blacks depth (.node c l a r) (n + c.weight) t' := by
  have hsize : (Shape.node c l a r).size = l.size + r.size + 1 := Shape.size_node c l a r
  have hends : (t.visit depth l.top r.top).depths.sampleAll (r.ends (depth + 1) ++ l.ends (depth + 1)) =
      t.depths.sampleAll ((Shape.node c l a r).ends depth) := by
    rw [Shape.ends, Depth.sampleAll_append t.depths]
    unfold visit
    split_ifs <;> rfl
  have hcount : t.count + 1 + r.size + l.size = t.count + (Shape.node c l a r).size := by omega
  have hblacks : blacks + c.weight + n = blacks + (n + c.weight) := by omega
  unfold GainsBoth
  split_ifs with h
  · obtain rfl := hl h
    rw [gains_gains, Gains, ← hcount, ← hends, ← hblacks]
    simp only [Shape.ends, List.append_nil, List.nil_append]
    exact Iff.rfl
  · rw [gains_gains, Gains, ← hcount, ← hends, ← hblacks]
    constructor
    · rintro ⟨rfl, hle, ht, rfl⟩
      exact ⟨rfl, hle, ht, rfl⟩
    · rintro ⟨rfl, hle, ht, rfl⟩
      exact ⟨rfl, hle, ht, rfl⟩

end Tally

/-! ## One node -/

open Exam

section

variable {key : K} {a : Row K V} {id : NodeId}
  (hmade : ∀ id r, x.ref? id = some r → r < x.made) (hroom : m + 3 < Latch.Word.room)

include hmade hroom

theorem checkLower_accepts (ha : a.key = some key) (hid : x.heap.Marks id) :
    (checkLower cmp key id : Exam K V Unit).Accepts x m
      fun _ => ∀ b ∈ x.heap.bound id, b.Before cmp a := by
  unfold checkLower Heap.bound
  by_cases h : id = .nil
  · simp only [if_pos h]
    exact (Accepts.pure ()).iff fun _ => by simp
  · obtain ⟨n, hn, hkey⟩ := hid.resolve_left h
    obtain ⟨k, hk⟩ := Option.ne_none_iff_exists'.1 hkey
    simp only [if_neg h]
    refine (Accepts.reading (hmade id) hroom fun n _ => .require ..).iff fun _ => ?_
    simp [hn, hk, ha, Node.row, Node.order, Row.Before]

theorem checkUpper_accepts [Std.OrientedCmp cmp] (ha : a.key = some key) (hid : x.heap.Marks id) :
    (checkUpper cmp key id : Exam K V Unit).Accepts x m
      fun _ => ∀ b ∈ x.heap.bound id, a.Before cmp b := by
  unfold checkUpper Heap.bound
  by_cases h : id = .nil
  · simp only [if_pos h]
    exact (Accepts.pure ()).iff fun _ => by simp
  · obtain ⟨n, hn, hkey⟩ := hid.resolve_left h
    obtain ⟨k, hk⟩ := Option.ne_none_iff_exists'.1 hkey
    simp only [if_neg h]
    refine (Accepts.reading (hmade id) hroom fun n _ => .require ..).iff fun _ => ?_
    simp [hn, hk, ha, Node.row, Node.order, Row.Before, Std.OrientedCmp.gt_iff_lt]

omit hmade hroom in
theorem endPath_accepts (blacks : ℕ) (t : Tally) : (endPath key blacks t : Exam K V Tally).Accepts x m
    fun t' => (∀ n ∈ t.target, n = blacks) ∧ t' = { t with target := some blacks } := by
  obtain ⟨c, target, depths⟩ := t
  unfold endPath
  cases target with
  | none => exact (Accepts.pure _).iff fun _ => by simp
  | some n =>
    by_cases h : n = blacks
    · simp only [if_pos h]
      exact (Accepts.pure _).iff fun _ => by simp [h]
    · simp only [if_neg h]
      exact (Accepts.throw _).iff fun _ => by simp [h]

/-- What one link down from the node `id` answers: at the end of a path the tally, otherwise the frame
of the child. -/
def Frame.Linked (h : Heap K V) (id : NodeId) (c : Color) (f : Frame) (t : Tally)
    (p : Option Frame × Tally) : Prop :=
  if f.id = .nil then (∀ n ∈ t.target, n = f.blacks) ∧ p = (none, { t with target := some f.blacks })
  else (∃ n, h f.id = some n ∧ (c = .red → n.color = .black) ∧ n.parent = id) ∧ p = (some f, t)

theorem checkChild_accepts (n : Node K V) (f : Frame) (t : Tally) :
    (checkChild id n key f.blacks f t).Accepts x m (f.Linked x.heap id n.color t) := by
  unfold checkChild
  by_cases h : f.id = .nil
  · simp only [if_pos h]
    exact ((endPath_accepts f.blacks t).bind fun t' _ => .pure (none, t')).iff fun p => by
      simp [Frame.Linked, h]
  · simp only [if_neg h]
    refine (Accepts.reading (hmade f.id) hroom fun c _ => (Accepts.require ..).bind fun _ _ =>
      (Accepts.require ..).bind fun _ _ => .pure (some f, t)).iff fun p => ?_
    have hred : ∀ c : Node K V, (!decide (n.color = .red ∧ c.color = .red)) = true ↔
        (n.color = .red → c.color = .black) := by
      intro c
      cases n.color <;> cases c.color <;> simp
    simp only [hred, decide_eq_true_eq, exists_const, Frame.Linked, if_neg h]
    constructor
    · rintro ⟨c, hc, hcol, hpar, rfl⟩
      exact ⟨⟨c, hc, hcol, hpar⟩, rfl⟩
    · rintro ⟨⟨c, hc, hcol, hpar⟩, rfl⟩
      exact ⟨c, hc, hcol, hpar, rfl⟩

end

def Frame.left (f : Frame) (n : Node K V) : Frame :=
  ⟨n.left, f.blacks + n.color.weight, f.depth + 1, f.lo, f.id⟩

def Frame.right (f : Frame) (n : Node K V) : Frame :=
  ⟨n.right, f.blacks + n.color.weight, f.depth + 1, f.id, f.hi⟩

@[simp] theorem Frame.left_id (f : Frame) (n : Node K V) : (f.left n).id = n.left := rfl

@[simp] theorem Frame.right_id (f : Frame) (n : Node K V) : (f.right n).id = n.right := rfl

section

variable (hmade : ∀ id r, x.ref? id = some r → r < x.made)

include hmade

/-- The left link is examined before the right one; the frames are answered the other way round. -/
theorem links_accepts (key : K) (n : Node K V) (f : Frame) (t : Tally) :
    (do
      let pl ← checkChild f.id n key (f.left n).blacks (f.left n) t
      let pr ← checkChild f.id n key (f.right n).blacks (f.right n) pl.2
      return (pr.1.toList ++ pl.1.toList, pr.2) : Exam K V (List Frame × Tally)).Accepts x 1 fun p =>
      ∃ pl, (f.left n).Linked x.heap f.id n.color t pl ∧
        ∃ pr, (f.right n).Linked x.heap f.id n.color pl.2 pr ∧
          p = (pr.1.toList ++ pl.1.toList, pr.2) :=
  (checkChild_accepts hmade (by decide) n (f.left n) t).bind fun pl _ =>
    (checkChild_accepts hmade (by decide) n (f.right n) pl.2).bind fun pr _ => .pure _

theorem examine_accepts [Std.OrientedCmp cmp] {f : Frame} {t : Tally} (hlo : x.heap.Marks f.lo)
    (hhi : x.heap.Marks f.hi) :
    (examine cmp count f t : Exam K V _).Accepts x 0 fun p => ∃ n, x.heap f.id = some n ∧
      t.count + 1 ≤ count ∧ n.key ≠ none ∧
      (n.row f.id).Between cmp (x.heap.bound f.lo) (x.heap.bound f.hi) ∧
      ∃ pl, (f.left n).Linked x.heap f.id n.color (t.visit f.depth n.left n.right) pl ∧
        ∃ pr, (f.right n).Linked x.heap f.id n.color pl.2 pr ∧
          p = (pr.1.toList ++ pl.1.toList, pr.2) := by
  refine Accepts.reading (hmade f.id) (by decide) fun n hn => ?_
  have hroom : 0 + 1 + 3 < Latch.Word.room := by decide
  obtain ⟨key, v, c, q, l, r⟩ := n
  cases key with
  | none =>
    refine ((Accepts.require ..).bind fun _ _ => .throw _).iff fun p => ?_
    simp
  | some key =>
    have hvisit : (if l = .nil ∨ r = .nil then
        (⟨t.count + 1, t.target, t.depths.sample (UInt64.ofNat f.depth)⟩ : Tally)
        else ⟨t.count + 1, t.target, t.depths⟩) = t.visit f.depth l r := by
      unfold Tally.visit
      split_ifs <;> rfl
    have hlower : (checkLower cmp key f.lo : Exam K V Unit).Accepts x 1 _ :=
      checkLower_accepts (a := ⟨f.id, some key, v⟩) hmade hroom rfl hlo
    have hupper : (checkUpper cmp key f.hi : Exam K V Unit).Accepts x 1 _ :=
      checkUpper_accepts (a := ⟨f.id, some key, v⟩) hmade hroom rfl hhi
    have hlinks := links_accepts hmade key ⟨some key, v, c, q, l, r⟩ f (t.visit f.depth l r)
    have hall := (Accepts.require (decide (t.count + 1 ≤ count)) (.tooMany count)).bind fun _ _ =>
      hlower.bind fun _ _ => hupper.bind fun _ _ => hlinks
    rw [← hvisit] at hall ⊢
    cases c <;> exact hall.iff fun p => by simp [Row.Between, Node.row, and_assoc]

end

/-! ## All nodes below one -/

/-- The link to `f` unfolds to the tree `u` of black height `n`; it is one from the node `q`, which has
the colour `c`. -/
structure Frame.Unfolds (cmp : K → K → Ordering) (h : Heap K V) (levels : ℕ) (q : NodeId) (c : Color)
    (f : Frame) (u : Shape K V) (n : ℕ) : Prop where
  passes : u.Passes cmp h q (h.bound f.lo) (h.bound f.hi) n
  top : u.top = f.id
  shallow : u.height ≤ levels
  calm : c = .red → u.color = .black

/-- The tree below the link to `f` is walked from the tally `t` to `t'`. -/
def Frame.Walks (cmp : K → K → Ordering) (h : Heap K V) (count levels : ℕ) (q : NodeId) (c : Color)
    (f : Frame) (t t' : Tally) : Prop :=
  ∃ u n, f.Unfolds cmp h levels q c u n ∧ t.Gains count f.blacks f.depth u n t'

namespace Frame

variable {h : Heap K V} {levels : ℕ} {q : NodeId} {c : Color} {f : Frame} {t t' : Tally}

theorem walks_nil (hid : f.id = .nil) : f.Walks cmp h count levels q c t t' ↔
    t.count ≤ count ∧ (∀ n ∈ t.target, n = f.blacks) ∧ t' = { t with target := some f.blacks } := by
  constructor
  · rintro ⟨u, n, ⟨hu, htop, -, -⟩, hg⟩
    obtain rfl := hu.eq_nil (htop.trans hid)
    obtain rfl : n = 0 := hu.even
    exact hg
  · exact fun hg =>
      ⟨.nil, 0, ⟨Shape.passes_nil.2 rfl, hid.symm, Nat.zero_le _, fun _ => rfl⟩, hg⟩

theorem Unfolds.exists_node {u : Shape K V} {n : ℕ} (hu : f.Unfolds cmp h levels q c u n)
    (hid : f.id ≠ .nil) : ∃ c' l a r, u = .node c' l a r ∧ a.id = f.id ∧
      h f.id = some (a.node c' q .left l.top r.top) := by
  cases u with
  | nil => exact absurd hu.top.symm hid
  | node c' l a r =>
    have htop : a.id = f.id := hu.top
    exact ⟨c', l, a, r, rfl, htop, htop ▸ hu.passes.hangs.1⟩

/-- A link to a node asks something of that node, apart from what the tree below it has to keep. -/
theorem walks_child (hid : f.id ≠ .nil) : f.Walks cmp h count levels q c t t' ↔
    (∃ n, h f.id = some n ∧ (c = .red → n.color = .black) ∧ n.parent = q) ∧
      ∃ q, f.Walks cmp h count levels q .black t t' := by
  constructor
  · rintro ⟨u, n, hu, hg⟩
    obtain ⟨c', l, a, r, rfl, -, ha⟩ := hu.exists_node hid
    exact ⟨⟨_, ha, hu.calm, rfl⟩, q, _, n, ⟨hu.passes, hu.top, hu.shallow, by simp⟩, hg⟩
  · rintro ⟨⟨n, hn, hc, rfl⟩, q, u, m, hu, hg⟩
    obtain ⟨c', l, a, r, rfl, -, ha⟩ := hu.exists_node hid
    obtain rfl := Option.some.inj (hn.symm.trans ha)
    exact ⟨_, m, ⟨hu.passes, hu.top, hu.shallow, hc⟩, hg⟩

variable [Std.TransCmp cmp]

/-- The tree at a node is that node and the trees that its two links unfold to. -/
theorem unfolds_node {u : Shape K V} {m : ℕ} (hid : f.id ≠ .nil) :
    f.Unfolds cmp h (levels + 1) q .black u m ↔ ∃ n, h f.id = some n ∧ n.parent = q ∧ n.key ≠ none ∧
      (n.row f.id).Between cmp (h.bound f.lo) (h.bound f.hi) ∧
      ∃ l r m', u = .node n.color l (n.row f.id) r ∧ m = m' + n.color.weight ∧
        (f.left n).Unfolds cmp h levels f.id n.color l m' ∧
        (f.right n).Unfolds cmp h levels f.id n.color r m' := by
  obtain ⟨i, blacks, depth, lo, hi⟩ := f
  have hbound : ∀ n, h i = some n → h.bound i = some (n.row i) := fun n hn => by
    rw [Heap.bound, if_neg hid, hn, Option.map_some]
  constructor
  · intro hu
    obtain ⟨c, l, a, r, rfl, rfl, ha⟩ := hu.exists_node hid
    obtain ⟨-, -, hk, hb, hc, m', rfl, hl, hr⟩ := Shape.passes_node.1 hu.passes
    obtain ⟨hhl, hhr⟩ := max_le_iff.1 (Nat.le_of_succ_le_succ hu.shallow)
    refine ⟨_, ha, rfl, hk, hb, l, r, m', rfl, rfl, ⟨?_, rfl, hhl, fun h => (hc h).1⟩,
      ⟨?_, rfl, hhr, fun h => (hc h).2⟩⟩
    · exact (hbound _ ha).symm ▸ hl
    · exact (hbound _ ha).symm ▸ hr
  · rintro ⟨n, hn, rfl, hk, hb, l, r, m', rfl, rfl, hl, hr⟩
    have hlp := hl.passes
    have hrp := hr.passes
    simp only [left, right, hbound n hn] at hlp hrp
    refine ⟨Shape.passes_node.2 ⟨?_, hid, hk, hb, fun h => ⟨hl.calm h, hr.calm h⟩, m', rfl, hlp, hrp⟩,
      rfl, Nat.succ_le_succ (max_le hl.shallow hr.shallow), by simp⟩
    rw [hl.top, hr.top]
    exact hn

/-- The walk from a node takes the links down from it in turn. -/
theorem walks_node (hid : f.id ≠ .nil) : (∃ q, f.Walks cmp h count (levels + 1) q .black t t') ↔
    ∃ n, h f.id = some n ∧ t.count + 1 ≤ count ∧ n.key ≠ none ∧
      (n.row f.id).Between cmp (h.bound f.lo) (h.bound f.hi) ∧
      ∃ t₁, if n.left = .nil
        then (f.left n).Walks cmp h count levels f.id n.color (t.visit f.depth n.left n.right) t₁ ∧
          (f.right n).Walks cmp h count levels f.id n.color t₁ t'
        else (f.right n).Walks cmp h count levels f.id n.color (t.visit f.depth n.left n.right) t₁ ∧
          (f.left n).Walks cmp h count levels f.id n.color t₁ t' := by
  constructor
  · rintro ⟨q, _, _, hu, hg⟩
    obtain ⟨n, hn, -, hk, hb, l, r, m, rfl, rfl, hl, hr⟩ := (unfolds_node hid).1 hu
    obtain ⟨t₁, ht₁⟩ := (Tally.gains_node hl.passes.eq_nil).2 ⟨rfl, hg⟩
    rw [hl.top, hr.top, left_id, right_id] at ht₁
    have hcount := hg.1
    rw [Shape.size_node] at hcount
    refine ⟨n, hn, by omega, hk, hb, t₁, ?_⟩
    split_ifs at ht₁ ⊢
    · exact ⟨⟨l, m, hl, ht₁.1⟩, ⟨r, m, hr, ht₁.2⟩⟩
    · exact ⟨⟨r, m, hr, ht₁.1⟩, ⟨l, m, hl, ht₁.2⟩⟩
  · rintro ⟨n, hn, -, hk, hb, t₁, hw⟩
    have hjoin : ∀ l m r m', (f.left n).Unfolds cmp h levels f.id n.color l m →
        (f.right n).Unfolds cmp h levels f.id n.color r m' →
        (t.visit f.depth l.top r.top).GainsBoth count (f.blacks + n.color.weight) (f.depth + 1)
          l m r m' t' →
        ∃ q, f.Walks cmp h count (levels + 1) q .black t t' := by
      intro l m r m' hl hr hg
      obtain ⟨rfl, hg⟩ := (Tally.gains_node (a := n.row f.id) hl.passes.eq_nil).1 hg
      exact ⟨_, _, _, (unfolds_node hid).2 ⟨n, hn, rfl, hk, hb, l, r, _, rfl, rfl, hl, hr⟩, hg⟩
    split_ifs at hw with hnil
    · obtain ⟨⟨l, m, hl, hgl⟩, ⟨r, m', hr, hgr⟩⟩ := hw
      exact hjoin l m r m' hl hr ⟨t₁, by rw [hl.top, hr.top, left_id, if_pos hnil]; exact ⟨hgl, hgr⟩⟩
    · obtain ⟨⟨r, m', hr, hgr⟩, ⟨l, m, hl, hgl⟩⟩ := hw
      exact hjoin l m r m' hl hr ⟨t₁, by rw [hl.top, hr.top, left_id, if_neg hnil]; exact ⟨hgr, hgl⟩⟩

end Frame

/-! ## Walks -/

/-- The frames are gone through in turn, each by a step that `R` allows. -/
def Chain (R : Frame → Tally → Tally → Prop) : List Frame → Tally → Tally → Prop
  | [], t, t' => t' = t
  | f :: fs, t, t' => ∃ t₁, R f t t₁ ∧ Chain R fs t₁ t'

theorem chain_append {R : Frame → Tally → Tally → Prop} {fs gs : List Frame} {t t' : Tally} :
    Chain R (fs ++ gs) t t' ↔ ∃ t₁, Chain R fs t t₁ ∧ Chain R gs t₁ t' := by
  induction fs generalizing t with
  | nil => simp [Chain]
  | cons f fs ih =>
    simp only [List.cons_append, Chain, ih]
    exact ⟨fun ⟨t₁, h, t₂, h'⟩ => ⟨t₂, ⟨t₁, h, h'.1⟩, h'.2⟩,
      fun ⟨t₂, ⟨t₁, h, h'⟩, h''⟩ => ⟨t₁, h, t₂, h', h''⟩⟩

theorem foldlM_accepts {R : Frame → Tally → Tally → Prop} {step : Tally → Frame → Exam K V Tally}
    {fs : List Frame} {t : Tally} (h : ∀ f ∈ fs, ∀ t, (step t f).Accepts x m (R f t)) :
    (fs.foldlM step t).Accepts x m (Chain R fs t) := by
  induction fs generalizing t with
  | nil => exact .pure t
  | cons f fs ih =>
    rw [List.foldlM_cons]
    exact (h f List.mem_cons_self t).bind fun t₁ _ => ih fun g hg => h g (List.mem_cons_of_mem f hg)

section

variable {h : Heap K V} {levels : ℕ} {id : NodeId} {c : Color} {f : Frame} {n : Node K V}
  {t t' : Tally} {p : Option Frame × Tally}

theorem Frame.Linked.of_mem (hf : f.Linked h id c t p) : ∀ g ∈ p.1.toList, g = f ∧ f.id ≠ .nil := by
  unfold Frame.Linked at hf
  split_ifs at hf with hid
  · rw [hf.2]
    simp
  · rw [hf.2]
    simp [hid]

/-- A link is examined, and the tree that it leads to is walked, if there is one. -/
theorem Frame.linked_walks (ht : t.count ≤ count) : (∃ p, f.Linked h id c t p ∧
      Chain (fun g t t' => ∃ q, g.Walks cmp h count levels q .black t t') p.1.toList p.2 t') ↔
    f.Walks cmp h count levels id c t t' := by
  unfold Frame.Linked
  by_cases hid : f.id = .nil
  · simp only [if_pos hid, Frame.walks_nil hid]
    constructor
    · rintro ⟨_, ⟨htarget, rfl⟩, rfl⟩
      exact ⟨ht, htarget, rfl⟩
    · rintro ⟨-, htarget, rfl⟩
      exact ⟨_, ⟨htarget, rfl⟩, rfl⟩
  · refine Iff.trans ?_ (Frame.walks_child hid).symm
    simp only [if_neg hid]
    constructor
    · rintro ⟨_, ⟨hn, rfl⟩, t₁, hw, rfl⟩
      exact ⟨hn, hw⟩
    · rintro ⟨hn, hw⟩
      exact ⟨_, ⟨hn, rfl⟩, t', hw, rfl⟩

/-- The left link is examined before the right one, but what it leads to is walked last. -/
theorem Frame.links_walk (ht : t.count ≤ count) :
    (∃ pl, (f.left n).Linked h id c t pl ∧ ∃ pr, (f.right n).Linked h id c pl.2 pr ∧
      Chain (fun g t t' => ∃ q, g.Walks cmp h count levels q .black t t')
        (pr.1.toList ++ pl.1.toList) pr.2 t') ↔
    ∃ t₁, if n.left = .nil
      then (f.left n).Walks cmp h count levels id c t t₁ ∧
        (f.right n).Walks cmp h count levels id c t₁ t'
      else (f.right n).Walks cmp h count levels id c t t₁ ∧
        (f.left n).Walks cmp h count levels id c t₁ t' := by
  by_cases hid : (f.left n).id = .nil
  · simp only [show n.left = .nil from hid, if_true]
    constructor
    · rintro ⟨pl, hl, pr, hr, hc⟩
      rw [Frame.Linked, if_pos hid] at hl
      obtain ⟨htarget, rfl⟩ := hl
      rw [Option.toList_none, List.append_nil] at hc
      refine ⟨_, (Frame.walks_nil hid).2 ⟨ht, htarget, rfl⟩, (Frame.linked_walks ?_).1 ⟨pr, hr, hc⟩⟩
      exact ht
    · rintro ⟨t₁, hl, hr⟩
      obtain ⟨-, htarget, rfl⟩ := (Frame.walks_nil hid).1 hl
      obtain ⟨pr, hr, hc⟩ := (Frame.linked_walks (by exact ht)).2 hr
      refine ⟨(none, { t with target := some (f.left n).blacks }), ?_, pr, hr, ?_⟩
      · rw [Frame.Linked, if_pos hid]
        exact ⟨htarget, rfl⟩
      · rw [Option.toList_none, List.append_nil]
        exact hc
  · simp only [show n.left ≠ .nil from hid, if_false]
    constructor
    · rintro ⟨pl, hl, pr, hr, hc⟩
      rw [Frame.Linked, if_neg hid] at hl
      obtain ⟨hn, rfl⟩ := hl
      obtain ⟨t₁, hc, _, hq, rfl⟩ := chain_append.1 hc
      exact ⟨t₁, (Frame.linked_walks ht).1 ⟨pr, hr, hc⟩, (Frame.walks_child hid).2 ⟨hn, hq⟩⟩
    · rintro ⟨t₁, hr, hl⟩
      obtain ⟨hn, hq⟩ := (Frame.walks_child hid).1 hl
      obtain ⟨pr, hr, hc⟩ := (Frame.linked_walks ht).2 hr
      refine ⟨(some (f.left n), t), ?_, pr, hr, chain_append.2 ⟨t₁, hc, t', hq, rfl⟩⟩
      rw [Frame.Linked, if_neg hid]
      exact ⟨hn, rfl⟩

end

section

variable [Std.TransCmp cmp] (hmade : ∀ id r, x.ref? id = some r → r < x.made)

include hmade

/-- What a walk accepts, by induction on the number of levels that are left. -/
theorem walk_accepts {levels : ℕ} {f : Frame} {t : Tally} (hid : f.id ≠ .nil)
    (hlo : x.heap.Marks f.lo) (hhi : x.heap.Marks f.hi) :
    (walk cmp count levels f t).Accepts x 0
      fun t' => ∃ q, f.Walks cmp x.heap count levels q .black t t' := by
  induction levels generalizing f t with
  | zero =>
    refine (Accepts.throw _).iff fun t' => ⟨False.elim, ?_⟩
    rintro ⟨q, u, n, hu, -⟩
    obtain ⟨c, l, a, r, rfl, -⟩ := hu.exists_node hid
    exact absurd hu.shallow (Nat.not_succ_le_zero _)
  | succ levels ih =>
    refine ((examine_accepts hmade hlo hhi).bind fun p hp => foldlM_accepts
      (R := fun g t t' => ∃ q, g.Walks cmp x.heap count levels q .black t t') fun g hg t => ?_).iff
      fun t' => ?_
    · obtain ⟨n, hn, -, hk, -, pl, hl, pr, hr, rfl⟩ := hp
      rcases List.mem_append.1 hg with hg | hg
      · obtain ⟨rfl, hne⟩ := hr.of_mem g hg
        exact ih hne (.inr ⟨n, hn, hk⟩) hhi
      · obtain ⟨rfl, hne⟩ := hl.of_mem g hg
        exact ih hne hlo (.inr ⟨n, hn, hk⟩)
    · rw [Frame.walks_node hid]
      constructor
      · rintro ⟨p, ⟨n, hn, hcount, hk, hb, pl, hl, pr, hr, rfl⟩, hc⟩
        exact ⟨n, hn, hcount, hk, hb, (Frame.links_walk hcount).1 ⟨pl, hl, pr, hr, hc⟩⟩
      · rintro ⟨n, hn, hcount, hk, hb, hw⟩
        obtain ⟨pl, hl, pr, hr, hc⟩ := (Frame.links_walk hcount).2 hw
        exact ⟨_, ⟨n, hn, hcount, hk, hb, pl, hl, pr, hr, rfl⟩, hc⟩

/-! ## The whole tree -/

theorem checkReserved_accepts : (checkReserved : Exam K V Unit).Accepts x 0 fun _ =>
    ∃ n, x.heap .nil = some n ∧ (n.color = .black ∧ n.key = none) ∧
      ∃ a, x.heap .anchor = some a ∧ a.color = .black ∧ a.key = none ∧ a.right = .nil := by
  refine (Accepts.reading (hmade _) (by decide) fun n _ => (Accepts.require ..).bind fun _ _ =>
    Accepts.reading (hmade _) (by decide) fun a _ => Accepts.require ..).iff fun _ => ?_
  simp

omit hmade in
theorem valid_iff_unfolds {t : Shape K V} {n : ℕ} {h : Heap K V} : h.Valid cmp t n ↔
    (∃ s, h .nil = some s ∧ s.color = .black ∧ s.key = none) ∧
    (∃ a, h .anchor = some a ∧ a.color = .black ∧ a.key = none ∧ a.right = .nil ∧ a.left = t.top) ∧
    (Frame.top t.top).Unfolds cmp h maxDepth .anchor .red t n := by
  have hbound : h.bound .nil = none := if_pos rfl
  constructor
  · intro hv
    have hnil := (List.nodup_cons.1 hv.distinct).1
    refine ⟨hv.sentinel, hv.anchor, ⟨hv.hangs, hnil, hv.sorted, ?_, hv.colors.calm, hv.colors.even⟩, rfl,
      hv.shallow, fun _ => hv.colors.root⟩
    intro a _
    exact ⟨by simp [Frame.top, hbound], by simp [Frame.top, hbound]⟩
  · rintro ⟨hs, ha, hu⟩
    exact ⟨hs, ha, hu.passes.hangs, hu.passes.nodup, hu.passes.sorted,
      ⟨hu.calm rfl, hu.passes.calm, hu.passes.even⟩, hu.shallow⟩

theorem checkFrom_accepts (root : NodeId) : (checkFrom cmp count root : Exam K V Report).Accepts x 0
    fun report => ∃ t n, (Frame.top root).Unfolds cmp x.heap maxDepth .anchor .red t n ∧
      t.size = count ∧ report = ⟨count, n, Depth.empty.sampleAll (t.ends 1)⟩ := by
  unfold checkFrom
  split_ifs with hroot
  · refine ((Accepts.require ..).bind fun _ _ => .pure _).iff fun report => ?_
    constructor
    · rintro ⟨_, hcount, rfl⟩
      have hcount : count = 0 := of_decide_eq_true hcount
      exact ⟨.nil, 0, ⟨Shape.passes_nil.2 rfl, hroot.symm, Nat.zero_le _, fun _ => rfl⟩, hcount.symm,
        by rw [hcount]; rfl⟩
    · rintro ⟨t, n, hu, rfl, rfl⟩
      obtain rfl := hu.passes.eq_nil (hu.top.trans hroot)
      obtain rfl : n = 0 := hu.passes.even
      exact ⟨(), rfl, rfl⟩
  · refine ((Accepts.reading (hmade root) (by decide) fun n _ => (Accepts.require ..).bind fun _ _ =>
      Accepts.require ..).bind fun _ _ => (walk_accepts hmade hroot (.inl rfl) (.inl rfl)).bind
      fun t _ => (Accepts.require ..).bind fun _ _ => .pure _).iff fun report => ?_
    simp only [decide_eq_true_eq, exists_const]
    constructor
    · rintro ⟨⟨a, ha, hcol, hpar⟩, t', hw, hcount, rfl⟩
      obtain ⟨t, n, hu, -, -, rfl⟩ :=
        (Frame.walks_child (c := .red) hroot).2 ⟨⟨a, ha, fun _ => hcol, hpar⟩, hw⟩
      have hsize : t.size = count := (Nat.zero_add _).symm.trans hcount
      refine ⟨t, n, hu, hsize, ?_⟩
      simp [Frame.top, hsize]
    · rintro ⟨t, n, hu, rfl, rfl⟩
      have hg : (⟨0, none, .empty⟩ : Tally).Gains t.size 0 1 t n
          ⟨t.size, some n, Depth.empty.sampleAll (t.ends 1)⟩ := by
        simp [Tally.Gains]
      obtain ⟨⟨a, ha, hcol, hpar⟩, hw⟩ := (Frame.walks_child (c := .red) hroot).1 ⟨t, n, hu, hg⟩
      exact ⟨⟨a, ha, hcol rfl, hpar⟩, _, hw, rfl, rfl⟩

theorem check_accepts : (check cmp count : Exam K V Report).Accepts x 0 fun report =>
    ∃ t n, x.heap.Valid cmp t n ∧ t.size = count ∧
      report = ⟨count, n, Depth.empty.sampleAll (t.ends 1)⟩ := by
  refine ((checkReserved_accepts hmade).bind fun _ _ => (Accepts.reading (hmade _) (by decide)
    fun n _ => .pure n.left).bind fun root _ => checkFrom_accepts hmade root).iff fun report => ?_
  constructor
  · rintro ⟨_, ⟨s, hs, hsr, a, ha, har⟩, root, ⟨n, hn, rfl⟩, t, n', hu, hcount, rfl⟩
    obtain rfl := Option.some.inj (hn.symm.trans ha)
    have htop : n.left = t.top := hu.top.symm
    rw [htop] at hu
    exact ⟨t, n', valid_iff_unfolds.2 ⟨⟨s, hs, hsr⟩, ⟨n, hn, har.1, har.2.1, har.2.2, htop⟩, hu⟩, hcount,
      rfl⟩
  · rintro ⟨t, n', hv, hcount, rfl⟩
    obtain ⟨⟨s, hs, hsr⟩, ⟨a, ha, hc, hk, hr, hl⟩, hu⟩ := valid_iff_unfolds.1 hv
    exact ⟨(), ⟨s, hs, hsr, a, ha, hc, hk, hr⟩, a.left, ⟨a, ha, rfl⟩, t, n', hl ▸ hu, hcount, rfl⟩

end

end LatchTree.Tree

namespace LatchTree

variable {K V : Type}

/-- No latch is held. Whatever the nodes are, a slot in use names one that has been made. -/
structure Store.Untouched (s : Store K V) : Prop where
  table : s.table = .free
  word : ∀ r, s.word r = .free
  made : ∀ id r, s.ref? id = some r → r < s.cells.size

/-- The check comes to an end whatever it finds, without having to wait for a latch. It passes just if
the links from the anchor unfold to a tree of `count` nodes that keeps all rules. -/
theorem Store.check_iff_valid (cmp : K → K → Ordering) [Std.TransCmp cmp] {s : Store K V}
    (hs : s.Untouched) (count : ℕ) :
    ∃ (res : Except Fault (Except (Violation K) Tree.Report)) (s' : Store K V),
      s.check cmp count = (res.mapError .fault, s') ∧ s'.content = s.content ∧
      ∀ report, res = .ok (.ok report) ↔ ∃ t blacks, Heap.Valid cmp s.node? t blacks ∧
        t.size = count ∧ report = ⟨count, blacks, Depth.empty.sampleAll (t.ends 1)⟩ := by
  have hshows : s.Shows (fun _ => 0) .free :=
    ⟨hs.table, fun r => (hs.word r).trans Latch.Word.free_eq_compose, fun _ => by decide,
      fun _ => Nat.zero_le _, fun _ _ => rfl⟩
  have haccepts : (Tree.check cmp count).Accepts s.content 0 _ := Tree.check_accepts hs.made
  obtain ⟨res, hres, hiff⟩ := haccepts
  obtain ⟨s', hx, hrun⟩ := hres.run rfl hshows (fun _ => le_rfl) []
  exact ⟨res, s', hrun, hx, hiff⟩

/-- The key 3 is below the key 7. -/
def Store.twoEntries : Store ℕ ℕ where
  spin := true
  cells := #[{ node := .reserved }, { node := { Node.reserved with left := 2 } },
    { node := ⟨some 7, some 70, .black, .anchor, 3, .nil⟩ },
    { node := ⟨some 3, some 30, .red, 2, .nil, .nil⟩ }]
  slots := #[some 0, some 1, some 2, some 3]
  vacant := []
  table := .free
  entries := 2
  relocations := 0

theorem Store.check_iff_valid_twoEntries : ∃ s', Store.twoEntries.check compare 2 =
    (.ok (.ok ⟨2, 1, Depth.empty.sampleAll [1, 2]⟩), s') := by
  let t : Shape ℕ ℕ := .node .black (.node .red .nil ⟨3, some 3, some 30⟩ .nil) ⟨2, some 7, some 70⟩ .nil
  have hs : Store.twoEntries.Untouched := by
    refine ⟨rfl, ?_, ?_⟩
    · rintro (_ | _ | _ | _ | r) <;> rfl
    · rintro (_ | _ | _ | _ | id) r h
      all_goals cases h
      all_goals decide
  have ht : Heap.Valid compare Store.twoEntries.node? t 1 := {
    sentinel := ⟨_, rfl, rfl, rfl⟩
    anchor := ⟨_, rfl, rfl, rfl, rfl, rfl⟩
    hangs := ⟨rfl, ⟨rfl, trivial, trivial⟩, trivial⟩
    distinct := by decide
    sorted := ⟨by simp [t, Shape.rows], by simp [t, Shape.rows, Row.Before]; rfl⟩
    colors := ⟨rfl, ⟨by simp, ⟨fun _ => ⟨rfl, rfl⟩, trivial, trivial⟩, trivial⟩,
      0, ⟨0, rfl, rfl, rfl⟩, rfl, rfl⟩
    shallow := by decide }
  obtain ⟨res, s', hrun, -, hiff⟩ := Store.check_iff_valid compare hs 2
  rw [(hiff ⟨2, 1, Depth.empty.sampleAll [1, 2]⟩).2 ⟨t, 1, ht, rfl, rfl⟩] at hrun
  exact ⟨s', hrun⟩

end LatchTree
