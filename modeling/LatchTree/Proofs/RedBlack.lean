import LatchTree.Proofs.Shape

/-!
The rules of colours: black heights that agree and no red node below a red one. A path keeps a rule if
a shape that keeps it may be plugged in, up to the colours on both sides of the hole.
-/

namespace LatchTree

variable {K V : Type}

def Color.weight : Color → Nat
  | .red => 0
  | .black => 1

namespace Shape

/-- All paths down pass `n` black nodes. -/
def Even : Shape K V → Nat → Prop
  | nil, n => n = 0
  | node c l _ r, n => ∃ m, l.Even m ∧ r.Even m ∧ n = m + c.weight

/-- No red node has a red child. -/
def Calm : Shape K V → Prop
  | nil => True
  | node c l _ r => (c = .red → l.color = .black ∧ r.color = .black) ∧ l.Calm ∧ r.Calm

structure RedBlack (t : Shape K V) (n : Nat) : Prop where
  root : t.color = .black
  calm : t.Calm
  even : t.Even n

/-- The shape with a black top. -/
def blacken : Shape K V → Shape K V
  | nil => nil
  | node _ l a r => node .black l a r

variable {d : Side} {c : Color} {x y : Shape K V} {a : Row K V} {n : Nat}

theorem even_join : (join d c x a y).Even n ↔ ∃ m, x.Even m ∧ y.Even m ∧ n = m + c.weight := by
  cases d with
  | left => exact Iff.rfl
  | right => exact exists_congr fun m => ⟨fun h => ⟨h.2.1, h.1, h.2.2⟩, fun h => ⟨h.2.1, h.1, h.2.2⟩⟩

theorem calm_join : (join d c x a y).Calm ↔
    (c = .red → x.color = .black ∧ y.color = .black) ∧ x.Calm ∧ y.Calm := by
  cases d with
  | left => exact Iff.rfl
  | right =>
    simp only [join, Calm]
    tauto

theorem Even.ne_nil {t : Shape K V} (h : t.Even (n + 1)) : t ≠ nil := by
  rintro rfl
  exact absurd h (Nat.succ_ne_zero n)

/-- A shape with a red top is not empty. -/
theorem eq_join_of_red (d : Side) {t : Shape K V} (h : t.color = .red) :
    ∃ x a y, t = join d .red x a y := by
  rcases eq_nil_or_join d t with rfl | ⟨c, x, a, y, rfl⟩
  · exact absurd h (by simp)
  · rw [color_join] at h
    exact ⟨x, a, y, by rw [h]⟩

theorem eq_join_of_black (d : Side) {t : Shape K V} (hne : t ≠ nil) (h : t.color = .black) :
    ∃ x a y, t = join d .black x a y := by
  rcases eq_nil_or_join d t with rfl | ⟨c, x, a, y, rfl⟩
  · exact absurd rfl hne
  · rw [color_join] at h
    exact ⟨x, a, y, by rw [h]⟩

@[simp] theorem blacken_join : (join d c x a y).blacken = join d .black x a y := by
  cases d <;> rfl

@[simp] theorem color_blacken (t : Shape K V) : t.blacken.color = .black := by cases t <;> rfl

@[simp] theorem rows_blacken (t : Shape K V) : t.blacken.rows = t.rows := by cases t <;> rfl

theorem blacken_of_black {t : Shape K V} (h : t.color = .black) : t.blacken = t := by
  cases t with
  | nil => rfl
  | node c l a r => rw [show c = .black from h]; rfl

theorem Calm.blacken {t : Shape K V} (h : t.Calm) : t.blacken.Calm := by
  cases t with
  | nil => trivial
  | node c l a r => exact ⟨by simp, h.2⟩

/-- Blackening the top adds a black node to all paths, unless it was black. -/
theorem Even.blacken {t : Shape K V} (h : t.Even n) :
    t.blacken.Even (if t.color = .red then n + 1 else n) := by
  cases t with
  | nil => exact h
  | node c l a r =>
    obtain ⟨m, hl, hr, rfl⟩ := h
    cases c with
    | red => exact ⟨m, hl, hr, rfl⟩
    | black => exact ⟨m, hl, hr, rfl⟩

/-- A black top makes good for whatever was wrong with the colour of the top. -/
theorem redBlack_blacken {t : Shape K V} (hc : t.blacken.Calm) (he : t.Even n) :
    ∃ n', (n' = n ∨ n' = n + 1) ∧ t.blacken.RedBlack n' := by
  refine ⟨_, ?_, color_blacken t, hc, he.blacken⟩
  split_ifs
  · exact .inr rfl
  · exact .inl rfl

end Shape

namespace Path

/-- With a shape of black height `m` in the hole, all paths from the top pass `n` black nodes. -/
def Even : Path K V → Nat → Nat → Prop
  | top, m, n => m = n
  | under _ c _ u p, m, n => u.Even m ∧ p.Even (m + c.weight) n

/-- No red node has a red child, but for what is in the hole. -/
def Calm : Path K V → Prop
  | top => True
  | under _ c _ u p => u.Calm ∧ (c = .red → u.color = .black ∧ p.color = .black) ∧ p.Calm

/-- The node at the top is black, unless it is in the hole. -/
def Rooted : Path K V → Prop
  | top => True
  | under _ c _ _ p => (p = top → c = .black) ∧ p.Rooted

variable {p : Path K V} {t : Shape K V} {m n : Nat}

theorem even_plug : (p.plug t).Even n ↔ ∃ m, t.Even m ∧ p.Even m n := by
  induction p generalizing t with
  | top => exact ⟨fun h => ⟨n, h, rfl⟩, fun ⟨m, h, he⟩ => he ▸ h⟩
  | under d c a u p ih =>
    rw [plug_under, ih]
    simp only [Shape.even_join, Even]
    constructor
    · rintro ⟨_, ⟨m, ht, hu, rfl⟩, hp⟩
      exact ⟨m, ht, hu, hp⟩
    · rintro ⟨m, ht, hu, hp⟩
      exact ⟨_, ⟨m, ht, hu, rfl⟩, hp⟩

theorem calm_plug : (p.plug t).Calm ↔ p.Calm ∧ t.Calm ∧ (p.color = .red → t.color = .black) := by
  induction p generalizing t with
  | top => simp [Calm]
  | under d c a u p ih =>
    rw [plug_under, ih, Shape.calm_join, Shape.color_join]
    simp only [Calm, color_under]
    constructor
    · rintro ⟨hp, ⟨hc, ht, hu⟩, hpc⟩
      refine ⟨⟨hu, fun h => ⟨(hc h).2, ?_⟩, hp⟩, ht, fun h => (hc h).1⟩
      cases hcol : p.color with
      | black => rfl
      | red => exact absurd (hpc hcol) (by simp [h])
    · rintro ⟨⟨hu, hc, hp⟩, ht, htc⟩
      refine ⟨hp, ⟨fun h => ⟨htc h, (hc h).1⟩, ht, hu⟩, fun h => ?_⟩
      cases hcol : c with
      | black => rfl
      | red => exact absurd ((hc hcol).2) (by simp [h])

theorem color_plug (hp : p.Rooted) (h : p = top → t.color = .black) :
    (p.plug t).color = .black := by
  induction p generalizing t with
  | top => exact h rfl
  | under d c a u p ih =>
    rw [plug_under]
    exact ih hp.2 fun he => (Shape.color_join ..).trans (hp.1 he)

/-- The path below a black top is rooted. -/
theorem rooted_of_color (hne : p ≠ top) (h : (p.plug t).color = .black) : p.Rooted := by
  induction p generalizing t with
  | top => exact absurd rfl hne
  | under d c a u p ih =>
    rw [plug_under] at h
    by_cases hp : p = top
    · subst hp
      exact ⟨fun _ => (Shape.color_join ..).symm.trans h, trivial⟩
    · exact ⟨fun he => absurd he hp, ih hp h⟩

theorem color_plug_congr {t' : Shape K V} (h : t.color = t'.color) :
    (p.plug t).color = (p.plug t').color := by
  induction p generalizing t t' with
  | top => exact h
  | under d c a u p ih => exact ih ((Shape.color_join ..).trans (Shape.color_join ..).symm)

/-- The rules of colours say nothing about rows. -/
theorem redBlack_row {d : Side} {c : Color} {x y : Shape K V} {a : Row K V} (b : Row K V)
    (h : (p.plug (.join d c x a y)).RedBlack n) : (p.plug (.join d c x b y)).RedBlack n := by
  obtain ⟨hroot, hcalm, heven⟩ := h
  refine ⟨?_, ?_, ?_⟩
  · exact (color_plug_congr ((Shape.color_join ..).trans (Shape.color_join ..).symm)).trans hroot
  · rw [calm_plug, Shape.calm_join, Shape.color_join] at hcalm ⊢
    exact hcalm
  · simp only [even_plug, Shape.even_join] at heven ⊢
    exact heven

theorem rooted_of_redBlack (h : (p.plug t).RedBlack n) : p.Rooted := by
  by_cases hp : p = top
  · subst hp
    trivial
  · exact rooted_of_color hp h.root

end Path

end LatchTree
