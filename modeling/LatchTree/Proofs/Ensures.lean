import LatchTree.Proofs.Grip

/-!
What a program ensures: from a content and what the writer has of the latches, it keeps the rules for
latches, changes the tree by moves only, meets no fault, and ends with a property. The rules follow
the programs; that a program alone runs to its end is derived from them once.
-/

namespace LatchTree

variable {K V α β : Type} {cmp : K → K → Ordering} {R : Shape K V → Prop}

/-- A request turns the tree `t` into `t'`, at nodes that the writer has locked. -/
structure Content.Changes (cmp : K → K → Ordering) (g : Grips) (x x' : Content K V)
    (t t' : Shape K V) : Prop where
  before : x.TidyTree t
  after : x'.TidyTree t'
  frame : ∀ r < x.made, (g r).locked = false → x'.node r = x.node r
  refs : ∀ i ∈ NodeId.nil :: NodeId.anchor :: t.ids, x'.ref? i = x.ref? i
  made : x.made ≤ x'.made
  moves : ∃ ids, (∀ i ∈ ids, i ≠ .nil → ∀ r, x.ref? i = some r → (g r).locked = true) ∧
    ((x'.relocations = x.relocations ∧ t.Rewrite cmp ids t') ∨
      (x'.relocations = x.relocations + 1 ∧ t.Relocate ids t'))

namespace Program

/-- The program keeps the rules, meets no fault and ends with `Q`. A request that does not leave the
keys as they are leads to a tree with `R`. -/
def Ensures (cmp : K → K → Ordering) (R : Shape K V → Prop) : Program K V α →
    Content K V → Grips → (α → Content K V → Grips → Prop) → Prop
  | .done a, x, g, Q => Q a x g
  | .halt _, _, _, _ => False
  | .ask q next, x, g, Q => q.Allowed x g ∧ ∃ a x', q.Yields x a x' ∧
      (x' = x ∨ ∃ t t', Content.Changes cmp g x x' t t' ∧ (t'.keys = t.keys ∨ R t')) ∧
        (next a).Ensures cmp R x' (q.grip g) Q

variable {x : Content K V} {g : Grips} {Q : α → Content K V → Grips → Prop}

/-! ## Rules for all programs -/

namespace Ensures

theorem mono {Q' : α → Content K V → Grips → Prop} {p : Program K V α}
    (h : p.Ensures cmp R x g Q) (hQ : ∀ a x' g', Q a x' g' → Q' a x' g') :
    p.Ensures cmp R x g Q' := by
  induction p generalizing x g with
  | done a => exact hQ _ _ _ h
  | halt f => exact h
  | ask q next ih =>
    obtain ⟨hq, a, x', hy, hx', hn⟩ := h
    exact ⟨hq, a, x', hy, hx', ih a hn⟩

theorem bind {Q : β → Content K V → Grips → Prop} {p : Program K V α} {f : α → Program K V β}
    (h : p.Ensures cmp R x g fun a x' g' => (f a).Ensures cmp R x' g' Q) :
    (p >>= f).Ensures cmp R x g Q := by
  induction p generalizing x g with
  | done a => exact h
  | halt f => exact h
  | ask q next ih =>
    obtain ⟨hq, a, x', hy, hx', hn⟩ := h
    exact ⟨hq, a, x', hy, hx', ih a hn⟩

theorem pure {a : α} (h : Q a x g) : (Pure.pure a : Program K V α).Ensures cmp R x g Q := h

/-- A request that leaves the content as it is. -/
theorem request {q : Request K V} {a : q.Answer} {Q : q.Answer → Content K V → Grips → Prop}
    (hq : q.Allowed x g) (hy : q.Yields x a x) (h : Q a x (q.grip g)) :
    (Program.request q).Ensures cmp R x g Q :=
  ⟨hq, a, x, hy, .inl rfl, h⟩

theorem change {q : Request K V} {a : q.Answer} {Q : q.Answer → Content K V → Grips → Prop}
    {x' : Content K V} {t t' : Shape K V} (hq : q.Allowed x g) (hy : q.Yields x a x')
    (hx : Content.Changes cmp g x x' t t') (hR : t'.keys = t.keys ∨ R t')
    (h : Q a x' (q.grip g)) : (Program.request q).Ensures cmp R x g Q :=
  ⟨hq, a, x', hy, .inr ⟨t, t', hx, hR⟩, h⟩

/-- A program that keeps the rules, with no other thread about, runs to its end. -/
theorem run {p : Program K V α} {s : Store K V} (h : p.Ensures cmp R s.content g Q)
    (hw : s.Shows (fun _ => 0) g) (hs : List Hold) :
    ∃ a s' g', p.run s hs = (.ok a, s') ∧ Q a s'.content g' ∧ s'.Shows (fun _ => 0) g' := by
  induction p generalizing s g hs with
  | done a => exact ⟨a, s, g, rfl, h, hw⟩
  | halt f => exact h.elim
  | ask q next ih =>
    obtain ⟨hq, a, x', hy, -, hn⟩ := h
    obtain ⟨hans, hx'⟩ := hy s rfl
    have hen := hw.enabled hq fun _ _ => rfl
    obtain ⟨b, s', g', hrun, hb, hw'⟩ :=
      ih a (s := (q.serve s).2) (hx' ▸ hn) (hw.serve hq hen) (q.held hs a)
    refine ⟨b, s', g', ?_, hb, hw'⟩
    rw [Program.run, if_pos hen, show q.serve s = (.ok a, (q.serve s).2) from Prod.ext hans rfl]
    exact hrun

/-- A request of the program next to `n r` readers in each node `r`. -/
theorem served {q : Request K V} {next : q.Answer → Program K V α} {s s' : Store K V} {a : q.Answer}
    {n : Ref → Nat} {t : Shape K V} (h : (Program.ask q next).Ensures cmp R s.content g Q)
    (hx : s.content.TidyTree t) (hw : s.Shows n g) (hen : q.enabled s = true)
    (hserve : q.serve s = (.ok a, s')) :
    s'.Shows n (q.grip g) ∧ (next a).Ensures cmp R s'.content (q.grip g) Q ∧
      (s'.content = s.content ∨ ∃ t', Content.Changes cmp g s.content s'.content t t' ∧
        (t'.keys = t.keys ∨ R t')) := by
  obtain ⟨hq, b, x', hyields, hx', hnext⟩ := h
  obtain ⟨hans, hcontent⟩ := hyields s rfl
  have hshows := hw.serve hq hen
  rw [hserve] at hans hcontent hshows
  obtain rfl := Except.ok.inj hans
  subst hcontent
  refine ⟨hshows, hnext, hx'.imp_right fun ⟨u, t', hc, hkeys⟩ => ?_⟩
  obtain rfl := hx.tree.unique hc.before.tree
  exact ⟨t', hc, hkeys⟩

/-! ## Looks -/

theorem resolve {Q : Ref → Content K V → Grips → Prop} {id : NodeId} {r : Ref}
    (hr : x.ref? id = some r) (h : Q r x g) : (Program.resolve id).Ensures cmp R x g Q :=
  .request trivial (Request.yields_resolve hr) h

theorem look {Q : Node K V → Content K V → Grips → Prop} {id : NodeId} {n : Node K V}
    (hx : x.Sound) (hg : g.Calm) (hn : x.heap id = some n) (h : Q n x g) :
    (Program.look id).Ensures cmp R x g Q := by
  obtain ⟨r, hr, rfl⟩ := Content.ref_of_heap hn
  have hmade := hx.made id r hr
  refine .bind (.resolve hr (.bind (.request ⟨hmade, hg r⟩ Request.yields_read
    (.bind (.pure (.bind (.request ⟨hmade, ?_⟩ Request.yields_leave (.pure ?_))))))))
  · simp [Request.grip]
  · have hgrip : Request.grip (Request.grip g (.read r : Request K V)) (.leave r : Request K V) = g := by
      simp [Request.grip]
    rwa [hgrip]

theorem child {Q : NodeId → Content K V → Grips → Prop} {id : NodeId} {n : Node K V} {d : Side}
    (hx : x.Sound) (hg : g.Calm) (hn : x.heap id = some n) (h : Q (n.child d) x g) :
    (Program.child id d).Ensures cmp R x g Q :=
  .bind (.look hx hg hn (.pure h))

end Ensures

end Program

end LatchTree
