import Mathlib
import LatchTree.Node

/-!
Shapes: the finite binary trees that the links of a store unfold to. A path is a shape with a hole,
from the hole up; a shape plugged into it is the whole tree, with that shape in focus.
-/

namespace LatchTree

variable {K V : Type}

/-- What stays with a node through all changes of links and colours. -/
@[ext] structure Row (K V : Type) where
  id : NodeId
  key : Option K
  value : Option V

/-- The node of a row, with the link `x` on the side `d` and `y` on the other. -/
def Row.node (a : Row K V) (c : Color) (parent : NodeId) (d : Side) (x y : NodeId) : Node K V :=
  match d with
  | .left => ⟨a.key, a.value, c, parent, x, y⟩
  | .right => ⟨a.key, a.value, c, parent, y, x⟩

namespace Row

variable (a : Row K V) (c : Color) (p : NodeId) (d : Side) (x y : NodeId)

@[simp] theorem node_other : a.node c p d.other x y = a.node c p d y x := by cases d <;> rfl

@[simp] theorem key_node : (a.node c p d x y).key = a.key := by cases d <;> rfl

@[simp] theorem value_node : (a.node c p d x y).value = a.value := by cases d <;> rfl

@[simp] theorem color_node : (a.node c p d x y).color = c := by cases d <;> rfl

@[simp] theorem parent_node : (a.node c p d x y).parent = p := by cases d <;> rfl

@[simp] theorem child_node : (a.node c p d x y).child d = x := by cases d <;> rfl

@[simp] theorem child_other_node : (a.node c p d x y).child d.other = y := by cases d <;> rfl

@[simp] theorem left_node : (a.node c p .left x y).left = x := rfl

@[simp] theorem right_node : (a.node c p .left x y).right = y := rfl

@[simp] theorem setChild_node (z : NodeId) :
    (a.node c p d x y).setChild d z = a.node c p d z y := by cases d <;> rfl

@[simp] theorem setChild_other_node (z : NodeId) :
    (a.node c p d x y).setChild d.other z = a.node c p d x z := by cases d <;> rfl

@[simp] theorem node_withParent (q : NodeId) :
    { a.node c p d x y with parent := q } = a.node c q d x y := by cases d <;> rfl

@[simp] theorem node_withColor (c' : Color) :
    { a.node c p d x y with color := c' } = a.node c' p d x y := by cases d <;> rfl

end Row

/-! ## Shapes -/

inductive Shape (K V : Type) where
  | nil
  | node (c : Color) (l : Shape K V) (a : Row K V) (r : Shape K V)

namespace Shape

/-- The node of `a` with `x` on the side `d` and `y` on the other. -/
def join (d : Side) (c : Color) (x : Shape K V) (a : Row K V) (y : Shape K V) : Shape K V :=
  match d with
  | .left => node c x a y
  | .right => node c y a x

def top : Shape K V → NodeId
  | nil => .nil
  | node _ _ a _ => a.id

def color : Shape K V → Color
  | nil => .black
  | node c _ _ _ => c

/-- The rows in order. -/
def rows : Shape K V → List (Row K V)
  | nil => []
  | node _ l a r => l.rows ++ a :: r.rows

def ids (t : Shape K V) : List NodeId :=
  t.rows.map Row.id

def keys (t : Shape K V) : List (Option K) :=
  t.rows.map Row.key

def size (t : Shape K V) : Nat :=
  t.rows.length

section

variable (d : Side) (c : Color) (x : Shape K V) (a : Row K V) (y : Shape K V)

@[simp] theorem join_other : join d.other c x a y = join d c y a x := by cases d <;> rfl

@[simp] theorem top_nil : (nil : Shape K V).top = .nil := rfl

@[simp] theorem top_join : (join d c x a y).top = a.id := by cases d <;> rfl

@[simp] theorem color_nil : (nil : Shape K V).color = .black := rfl

@[simp] theorem color_join : (join d c x a y).color = c := by cases d <;> rfl

@[simp] theorem ids_nil : (nil : Shape K V).ids = [] := rfl

@[simp] theorem ids_node : (node c x a y).ids = x.ids ++ a.id :: y.ids := by simp [ids, rows]

theorem join_ne_nil : join d c x a y ≠ nil := by cases d <;> simp [join]

theorem ids_join_perm : (join d c x a y).ids.Perm (a.id :: (x.ids ++ y.ids)) := by
  cases d with
  | left =>
    simp only [join, ids_node]
    exact List.perm_middle
  | right =>
    simp only [join, ids_node]
    exact List.perm_middle.trans (List.perm_append_comm.cons _)

@[simp] theorem mem_ids_join (i : NodeId) :
    i ∈ (join d c x a y).ids ↔ i = a.id ∨ i ∈ x.ids ∨ i ∈ y.ids := by
  rw [(ids_join_perm d c x a y).mem_iff]
  simp

theorem size_node : (node c x a y).size = x.size + y.size + 1 := by
  simp [size, rows]
  omega

theorem size_join : (join d c x a y).size = x.size + y.size + 1 := by
  cases d with
  | left => exact size_node c x a y
  | right => rw [join, size_node, Nat.add_comm y.size]

end

@[simp] theorem length_ids (t : Shape K V) : t.ids.length = t.size := by simp [ids, size]

theorem eq_nil_or_join (d : Side) (t : Shape K V) : t = nil ∨ ∃ c x a y, t = join d c x a y := by
  cases t with
  | nil => exact .inl rfl
  | node c l a r =>
    right
    cases d with
    | left => exact ⟨c, l, a, r, rfl⟩
    | right => exact ⟨c, r, a, l, rfl⟩

theorem top_mem_ids {t : Shape K V} (h : t ≠ nil) : t.top ∈ t.ids := by
  cases t with
  | nil => exact absurd rfl h
  | node c l a r => simp [top]

theorem top_mem (t : Shape K V) : t.top ∈ NodeId.nil :: t.ids := by
  cases t <;> simp [top]

end Shape

/-! ## Paths -/

/-- A shape with a hole, from the hole up. -/
inductive Path (K V : Type) where
  | top
  /-- The hole is on the side `d` of the node of `a`. -/
  | under (d : Side) (c : Color) (a : Row K V) (sibling : Shape K V) (up : Path K V)

namespace Path

def plug : Path K V → Shape K V → Shape K V
  | top, t => t
  | under d c a u p, t => p.plug (.join d c t a u)

/-- The node above the hole. -/
def parent : Path K V → NodeId
  | top => .anchor
  | under _ _ a _ _ => a.id

/-- The side on which the hole is below its parent. -/
def side : Path K V → Side
  | top => .left
  | under d _ _ _ _ => d

def color : Path K V → Color
  | top => .black
  | under _ c _ _ _ => c

def ids : Path K V → List NodeId
  | top => []
  | under _ _ a u p => a.id :: (u.ids ++ p.ids)

def length : Path K V → Nat
  | top => 0
  | under _ _ _ _ p => p.length + 1

/-- The rows before the hole. -/
def before : Path K V → List (Row K V)
  | top => []
  | under .left _ _ _ p => p.before
  | under .right _ a u p => p.before ++ (u.rows ++ [a])

/-- The rows after the hole. -/
def after : Path K V → List (Row K V)
  | top => []
  | under .left _ a u p => a :: u.rows ++ p.after
  | under .right _ _ _ p => p.after

section

variable (d : Side) (c : Color) (a : Row K V) (u : Shape K V) (p : Path K V)

@[simp] theorem parent_top : (top : Path K V).parent = .anchor := rfl

@[simp] theorem parent_under : (under d c a u p).parent = a.id := rfl

@[simp] theorem side_under : (under d c a u p).side = d := rfl

@[simp] theorem color_top : (top : Path K V).color = .black := rfl

@[simp] theorem color_under : (under d c a u p).color = c := rfl

end

@[simp] theorem plug_top (t : Shape K V) : top.plug t = t := rfl

@[simp] theorem plug_under (d : Side) (c : Color) (a : Row K V) (u : Shape K V) (p : Path K V)
    (t : Shape K V) : (under d c a u p).plug t = p.plug (.join d c t a u) := rfl

theorem rows_plug (p : Path K V) (t : Shape K V) :
    (p.plug t).rows = p.before ++ t.rows ++ p.after := by
  induction p generalizing t with
  | top => simp [before, after]
  | under d c a u p ih => cases d <;> simp [ih, Shape.join, Shape.rows, before, after]

theorem ids_plug_perm (p : Path K V) (t : Shape K V) : (p.plug t).ids.Perm (t.ids ++ p.ids) := by
  induction p generalizing t with
  | top => simp [ids]
  | under d c a u p ih =>
    refine (ih _).trans (((Shape.ids_join_perm d c t a u).append_right _).trans ?_)
    simpa [ids] using List.perm_middle.symm

@[simp] theorem mem_ids_plug (p : Path K V) (t : Shape K V) (i : NodeId) :
    i ∈ (p.plug t).ids ↔ i ∈ t.ids ∨ i ∈ p.ids := by
  rw [(ids_plug_perm p t).mem_iff, List.mem_append]

theorem parent_mem (p : Path K V) : p.parent ∈ NodeId.anchor :: p.ids := by
  cases p <;> simp [parent, ids]

/-- A path that goes on with another one. -/
def onto : Path K V → Path K V → Path K V
  | top, p => p
  | under d c a u q, p => under d c a u (q.onto p)

@[simp] theorem top_onto (p : Path K V) : top.onto p = p := rfl

@[simp] theorem plug_onto (q p : Path K V) (t : Shape K V) :
    (q.onto p).plug t = p.plug (q.plug t) := by
  induction q generalizing t with
  | top => rfl
  | under d c a u q ih => exact ih _

@[simp] theorem ids_onto (q p : Path K V) : (q.onto p).ids = q.ids ++ p.ids := by
  induction q with
  | top => rfl
  | under d c a u q ih => simp [onto, ids, ih]

theorem before_onto (q p : Path K V) : (q.onto p).before = p.before ++ q.before := by
  induction q with
  | top => simp [before]
  | under d c a u q ih => cases d <;> simp [onto, before, ih]

/-- The top of a plugged path does not depend on what is plugged in, unless it is that itself. -/
theorem top_plug {q : Path K V} (hq : q ≠ top) (t u : Shape K V) :
    (q.plug t).top = (q.plug u).top := by
  induction q generalizing t u with
  | top => exact absurd rfl hq
  | under d c a u' q ih =>
    cases q with
    | top => simp
    | under d' c' a' u'' q => exact ih (by simp) _ _

theorem plug_ne_nil {q : Path K V} (hq : q ≠ top) (t : Shape K V) : q.plug t ≠ .nil := by
  induction q generalizing t with
  | top => exact absurd rfl hq
  | under d c a u q ih =>
    cases q with
    | top => exact fun e => Shape.join_ne_nil d c t a u e
    | under d' c' a' u' q => exact ih (by simp) _

theorem length_le_ids (p : Path K V) : p.length ≤ p.ids.length := by
  induction p with
  | top => exact le_rfl
  | under d c a u p ih => simp [length, ids]; omega

end Path

end LatchTree
