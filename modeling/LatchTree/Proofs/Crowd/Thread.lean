import LatchTree.Proofs.Lookup.Trust

/-!
One lookup among many: what it holds, request by request, and that of two nodes which it holds or asks
for at once it never waits for the older one.
-/

namespace LatchTree

variable {K V : Type} {cmp : K → K → Ordering} {k : K} {x : Content K V} {t : Shape K V}

/-- A node is not below itself. -/
theorem Content.At.ne_next {r child : Ref} {i : NodeId} (h : x.At t r i) (hx : x.TidyTree t)
    (hn : (x.node r).towards cmp k ≠ .nil) (hchild : x.ref? ((x.node r).towards cmp k) = some child) :
    r ≠ child := by
  rintro rfl
  have hi := hx.sound.inj _ _ _ hchild h.ref
  have hmem := (h.next hx hn).1
  rcases h.focus hx (Node.sideOf ((x.node r).order cmp k)) with
    ⟨rfl, -⟩ | ⟨p, c, X, a, Y, rfl, rfl, hnode⟩
  · exact hx.tree.ne_anchor hmem hi
  · have horder : (x.node r).order cmp k = a.order cmp k := by rw [hnode, Row.order_node]
    rw [horder] at hnode
    rw [Node.towards, horder, hnode, Row.child_node] at hi hn
    have hmemX : a.id ∈ X.ids := hi ▸ Shape.top_mem_ids fun he => hn (by rw [he, Shape.top_nil])
    exact ((Shape.nodup_join ..).1 ((Path.nodup_plug ..).1 hx.nodup).1).1 hmemX

namespace Lookup

/-- The two nodes of a pair are different, and the older one is taken first. -/
def Ranked : Lookup K V → Prop
  | backing _ cur _ child | apart _ cur _ child => cur ≠ child
  | againParent _ cur _ _ child => cur < child
  | againChild _ cur _ child _ => child < cur
  | _ => True

variable {l : Lookup K V} {s s' : Store K V} {q : Request K V} {next : q.Answer → Lookup K V}
  {a : q.Answer}

theorem visit_nodes (cmp : K → K → Ordering) (k : K) (seen : UInt64) (cur : Ref) (n : Node K V) :
    (visit cmp k seen cur n).nodes = [cur] ∧ (visit cmp k seen cur n).Ranked := by
  rcases visit_cases seen cur n with ⟨-, h⟩ | h | h <;> exact h ▸ ⟨rfl, trivial⟩

theorem rejoin_nodes (cmp : K → K → Ordering) (k : K) (seen : UInt64) (cur : Ref) (n : Node K V)
    (next : NodeId) (child : Ref) (m : Node K V) :
    (rejoin cmp k seen cur n next child m).nodes.Perm [cur, child] ∧
      (rejoin cmp k seen cur n next child m).Ranked := by
  unfold rejoin
  split_ifs
  · exact ⟨.refl _, trivial⟩
  · exact ⟨.swap .., trivial⟩

/-- What a lookup holds after a request is what its next phase says. -/
theorem Fits.turn (hl : l.Fits cmp k s.content t) (hx : s.content.TidyTree t) (hr : l.Ranked)
    (hq : l.turn cmp k = .ask q next) (hserve : q.serve s = (.ok a, s')) :
    (next a).Ranked ∧ (q.held (l.nodes.map .reading) a).Perm ((next a).nodes.map .reading) := by
  cases l with
  | start | atTop | resolving =>
    cases hq
    exact ⟨trivial, .refl _⟩
  | entering seen top =>
    cases hq
    obtain ⟨hnodes, hrank⟩ := visit_nodes cmp k seen top a
    exact ⟨hrank, by rw [hnodes]; exact .refl _⟩
  | missed seen cur =>
    cases hq
    cases hserve
    rcases eq_or_ne s.relocations seen with h | h
    · simpa only [h, if_true] using ⟨trivial, .refl _⟩
    · simpa only [h, if_false] using ⟨trivial, .refl _⟩
  | stepping seen cur n next child =>
    obtain ⟨⟨i, hi⟩, rfl, -, rfl, hn, hchild⟩ := hl
    simp only [Lookup.turn] at hq
    split_ifs at hq
    · cases hq
      exact ⟨trivial, .swap ..⟩
    · cases hq
      simp only [Request.serve] at hserve
      split_ifs at hserve
      · cases hserve
        exact ⟨trivial, .swap ..⟩
      · cases hserve
        exact ⟨hi.ne_next hx hn hchild, .refl _⟩
  | moving seen cur child m =>
    cases hq
    obtain ⟨hnodes, hrank⟩ := visit_nodes cmp k seen child m
    refine ⟨hrank, ?_⟩
    rw [hnodes]
    simp [Request.held, nodes]
  | backing =>
    cases hq
    exact ⟨hr, by simp [Request.held, nodes]⟩
  | apart seen cur next child =>
    simp only [Lookup.turn, if_neg (show cur ≠ child from hr)] at hq
    split_ifs at hq with hlt
    · cases hq
      exact ⟨hlt, .refl _⟩
    · cases hq
      exact ⟨Nat.lt_of_le_of_ne (Nat.le_of_not_lt hlt) (Ne.symm hr), .refl _⟩
  | againParent seen cur n next child =>
    cases hq
    obtain ⟨hnodes, hrank⟩ := rejoin_nodes cmp k seen cur n next child a
    exact ⟨hrank, ((List.Perm.swap ..).trans (hnodes.map _).symm)⟩
  | againChild seen cur next child m =>
    cases hq
    obtain ⟨hnodes, hrank⟩ := rejoin_nodes cmp k seen cur a next child m
    exact ⟨hrank, (hnodes.map _).symm⟩
  | checking seen cur next child m =>
    cases hq
    rcases Nat.decEq a child with h | h
    · simpa only [h, if_false] using ⟨trivial, .swap ..⟩
    · simpa only [h, if_true] using ⟨trivial, .refl _⟩
  | retreating first rest =>
    cases hq
    cases rest <;> exact ⟨trivial, by simp [Request.held, nodes]⟩
  | answering =>
    cases hq
    exact ⟨trivial, by simp [Request.held, nodes]⟩
  | finished => exact absurd hq (by simp [Lookup.turn])

/-! ## What a lookup asks for -/

theorem Ranked.asks (cmp : K → K → Ordering) (k : K) (hr : l.Ranked) (hl : ∀ v, l ≠ .finished v) :
    ∃ q next, l.turn cmp k = .ask q next := by
  cases l with
  | stepping =>
    simp only [Lookup.turn]
    split_ifs <;> exact ⟨_, _, rfl⟩
  | apart seen cur next child =>
    simp only [Lookup.turn, if_neg (show cur ≠ child from hr)]
    split_ifs <;> exact ⟨_, _, rfl⟩
  | finished v => exact absurd rfl (hl v)
  | _ => exact ⟨_, _, rfl⟩

/-- A lookup waits for a node only if that is younger than those it holds. -/
theorem Ranked.enabled (hr : l.Ranked) (hq : l.turn cmp k = .ask q next) (htable : s.table = .free)
    (hn : ∀ r, (∀ i ∈ l.nodes, i < r) → (s.word r).admitsReader = true) : q.enabled s = true := by
  have hresolve : ∀ id, (Request.resolve id).enabled s = true := fun _ => Store.enabled_resolve htable
  cases l with
  | start | missed | moving | backing | retreating | answering =>
    cases hq
    rfl
  | atTop | resolving | checking =>
    cases hq
    exact hresolve _
  | entering =>
    cases hq
    exact hn _ (by simp [nodes])
  | stepping seen cur n next child =>
    simp only [Lookup.turn] at hq
    split_ifs at hq with hlt
    · cases hq
      exact hn _ (by simpa [nodes] using hlt)
    · cases hq
      rfl
  | apart =>
    simp only [Lookup.turn] at hq
    split_ifs at hq
    all_goals
      cases hq
      exact hn _ (by simp [nodes])
  | againParent | againChild =>
    cases hq
    exact hn _ (by simpa [nodes] using show _ < _ from hr)
  | finished => exact absurd hq (by simp [Lookup.turn])

/-- The ids that a lookup has resolved are in use. -/
theorem Fits.resolves {id : NodeId} {next : Ref → Lookup K V} (hl : l.Fits cmp k x t)
    (hx : x.TidyTree t) (hq : l.turn cmp k = .ask (.resolve id) next) : ∃ r, x.ref? id = some r := by
  have hnext : ∀ {r i}, x.At t r i → (x.node r).towards cmp k ≠ .nil →
      ∃ r', x.ref? ((x.node r).towards cmp k) = some r' := fun hi hn =>
    hx.ref_some (List.mem_cons_of_mem _ (List.mem_cons_of_mem _ (hi.next hx hn).1))
  cases l with
  | atTop =>
    cases hq
    exact ⟨1, hx.sound.anchor⟩
  | resolving =>
    cases hq
    obtain ⟨⟨i, hi⟩, rfl, -, rfl, hn⟩ := hl
    exact hnext hi hn
  | checking =>
    cases hq
    obtain ⟨-, -, hn, -, rfl⟩ := hl
    obtain ⟨i, hi⟩ := hx.at_of_towards hn
    exact hnext hi hn
  | stepping | apart =>
    simp only [Lookup.turn] at hq
    split_ifs at hq
    all_goals cases hq
  | _ => cases hq

theorem Fits.answered (hl : l.Fits cmp k s.content t) (hx : s.content.TidyTree t)
    (hq : l.turn cmp k = .ask q next) : ∃ a, (q.serve s).1 = .ok a := by
  cases q with
  | resolve id =>
    obtain ⟨r, hr⟩ := hl.resolves hx hq
    exact ⟨r, (Request.yields_resolve hr s rfl).1⟩
  | tryRead r =>
    simp only [Request.serve]
    split_ifs <;> exact ⟨_, rfl⟩
  | commit | free =>
    cases l with
    | stepping | apart =>
      simp only [Lookup.turn] at hq
      split_ifs at hq
      all_goals cases hq
    | _ => cases hq
  | _ => exact ⟨_, rfl⟩

end Lookup

end LatchTree
