import LatchTree.Proofs.Granted

/-!
The two ways to look a key up take the same way down, whatever the links of the store are: shared by
several nodes, leading back to where they came from, or to a slot that is vacant. They only start at
different nodes, and decide by different comparisons where to go.
-/

namespace LatchTree

variable {K V : Type} {cmp : K → K → Ordering} {k : K} {s : Store K V} {id next : NodeId}
  {r cur child : Ref} {f F : ℕ} {out : Except Halt (Option V)}

/-! ## Words -/

namespace Store

theorem mapWord_leave_enter (s : Store K V) (r : Ref) : (s.mapWord r .enter).mapWord r .leave = s := by
  have hcells : ((s.mapWord r .enter).mapWord r .leave).cells = s.cells := by
    refine Array.ext (by simp [mapWord]) fun i hi hi' => ?_
    simp only [mapWord, Array.getElem_modify]
    split_ifs
    · rw [Latch.Word.leave_enter]
    · rfl
  cases s
  simpa [mapWord] using hcells

theorem mapWord_enter_comm (s : Store K V) (r i : Ref) :
    (s.mapWord r .enter).mapWord i .enter = (s.mapWord i .enter).mapWord r .enter := by
  have hcells : ((s.mapWord r .enter).mapWord i .enter).cells =
      ((s.mapWord i .enter).mapWord r .enter).cells := by
    refine Array.ext (by simp [mapWord]) fun j hj hj' => ?_
    simp only [mapWord, Array.getElem_modify]
    split_ifs <;> rfl
  cases s
  simpa [mapWord] using hcells

theorem node?_of_ref (h : s.ref? id = some r) : s.node? id = some (s.node r) := by
  rw [node?, h, Option.map_some]

/-! ## The way down -/

/-- A search for `k` that comes to the node `id` goes on below it. -/
def Onward (cmp : K → K → Ordering) (k : K) (s : Store K V) (id : NodeId) : Prop :=
  id ≠ .nil ∧ ∃ n, s.node? id = some n ∧ n.order cmp k ≠ .eq

/-- Where it goes on. -/
def below (cmp : K → K → Ordering) (k : K) (s : Store K V) (id : NodeId) : NodeId :=
  match s.node? id with
  | some n => n.towards cmp k
  | none => id

/-- What becomes of a search for `k` from the node `id` down, past fewer than `fuel` nodes. -/
def descend (cmp : K → K → Ordering) (k : K) (s : Store K V) : ℕ → NodeId → Except Halt (Option V)
  | 0, _ => .error .endless
  | fuel + 1, id =>
    if id = .nil then .ok none
    else
      match s.node? id with
      | some n => if n.order cmp k = .eq then .ok n.value else descend cmp k s fuel (n.towards cmp k)
      | none => .error (.fault (.dangling id))

/-- The search is over, with an answer or at a slot that is vacant. -/
def Concludes (s : Store K V) (out : Except Halt (Option V)) : Prop :=
  (∃ v, out = .ok v) ∨ ∃ id, s.ref? id = none ∧ out = .error (.fault (.dangling id))

theorem Concludes.ne_endless (h : s.Concludes out) : out ≠ .error .endless := by
  rcases h with ⟨v, rfl⟩ | ⟨id, -, rfl⟩ <;> simp

theorem Onward.lt_size (h : s.Onward cmp k id) : id < s.slots.size := by
  obtain ⟨-, n, hn, -⟩ := h
  by_contra hid
  rw [node?, ref?, Array.getElem?_eq_none (Nat.le_of_not_lt hid)] at hn
  cases hn

theorem Onward.descend (h : s.Onward cmp k id) (fuel : ℕ) :
    s.descend cmp k (fuel + 1) id = s.descend cmp k fuel (s.below cmp k id) := by
  obtain ⟨hid, n, hn, ho⟩ := h
  simp only [Store.descend, below, hid, hn, ho, if_false]

theorem concludes_of_not_onward (h : ¬s.Onward cmp k id) (fuel : ℕ) :
    s.Concludes (s.descend cmp k (fuel + 1) id) := by
  rw [descend]
  split_ifs with hid
  · exact .inl ⟨none, rfl⟩
  · cases hn : s.node? id with
    | none =>
      refine .inr ⟨id, ?_, rfl⟩
      rwa [node?, Option.map_eq_none_iff] at hn
    | some n =>
      have ho : n.order cmp k = .eq := by
        by_contra ho
        exact h ⟨hid, n, hn, ho⟩
      simp only [ho, if_true]
      exact .inl ⟨_, rfl⟩

/-- A search that is not over after `n` nodes went on below each of them. -/
theorem descend_cases (cmp : K → K → Ordering) (k : K) (s : Store K V) (n : ℕ) (id : NodeId) :
    s.Concludes (s.descend cmp k n id) ∨ (s.descend cmp k n id = .error .endless ∧
      ∀ i < n, s.Onward cmp k ((s.below cmp k)^[i] id)) := by
  induction n generalizing id with
  | zero => exact .inr ⟨rfl, fun i hi => absurd hi (Nat.not_lt_zero i)⟩
  | succ n ih =>
    by_cases h : s.Onward cmp k id
    · rw [h.descend]
      refine (ih _).imp_right fun ⟨hend, hon⟩ => ⟨hend, fun i hi => ?_⟩
      cases i with
      | zero => exact h
      | succ i => exact hon i (Nat.lt_of_succ_lt_succ hi)
    · exact .inl (concludes_of_not_onward h n)

/-- Once it has passed as many nodes as there are slots a search goes round for ever. -/
theorem onward_forever (h : ∀ i ≤ s.slots.size, s.Onward cmp k ((s.below cmp k)^[i] id)) (i : ℕ) :
    s.Onward cmp k ((s.below cmp k)^[i] id) := by
  have hcard : (Finset.range s.slots.size).card < (Finset.range (s.slots.size + 1)).card := by simp
  obtain ⟨a, ha, b, hb, hne, heq⟩ := Finset.exists_ne_map_eq_of_card_lt_of_maps_to hcard
    (f := fun i => (s.below cmp k)^[i] id) fun i hi =>
      Finset.mem_coe.2 (Finset.mem_range.2 (h i (Nat.le_of_lt_succ (Finset.mem_range.1 hi))).lt_size)
  wlog hab : a < b generalizing a b
  · exact this b hb a ha hne.symm heq.symm (lt_of_le_of_ne (Nat.le_of_not_lt hab) hne.symm)
  have hb' : b ≤ s.slots.size := Nat.le_of_lt_succ (Finset.mem_range.1 hb)
  -- from `b` on it does what it did from `a` on
  induction i using Nat.strongRecOn with
  | ind i ih =>
    rcases Nat.lt_or_ge s.slots.size i with hi | hi
    · have hround : (s.below cmp k)^[i] id = (s.below cmp k)^[i - b + a] id := by
        rw [Function.iterate_add_apply, show (s.below cmp k)^[a] id = (s.below cmp k)^[b] id from heq,
          ← Function.iterate_add_apply, Nat.sub_add_cancel (hb'.trans hi.le)]
      rw [hround]
      exact ih _ (by omega)
    · exact h i hi

theorem descend_forever (h : ∀ i, s.Onward cmp k ((s.below cmp k)^[i] id)) (n : ℕ) :
    s.descend cmp k n id = .error .endless := by
  induction n generalizing id with
  | zero => rfl
  | succ n ih =>
    refine ((h 0).descend n).trans ?_
    exact ih fun i => h (i + 1)

end Store

/-! ## The search -/

namespace Store.Unlatched

theorem look (hs : s.Unlatched) (id : NodeId) {α : Type} (g : Node K V → Program K V α) :
    (Program.look id >>= g).run s [] =
      match s.node? id with
      | some n => (g n).run s []
      | none => (.error (.fault (.dangling id)), s) := by
  change Program.run s [] (.ask (.resolve id) fun r => .ask (.read r) fun n =>
    .ask (.leave r) fun _ => g n) = _
  rw [Program.run, if_pos (enabled_resolve hs.table), Request.serve]
  cases hr : s.ref? id with
  | none =>
    rw [get_of_none hr, node?, hr, Option.map_none]
    rfl
  | some r =>
    rw [get_of_ref hr]
    have hread : (Request.read r : Request K V).enabled s = true := by
      rw [Request.enabled, hs.word]
      rfl
    rw [node?_of_ref hr]
    simp only
    rw [Program.run, if_pos hread]
    simp only [Request.serve]
    rw [Program.run]
    simp only [Request.enabled, Request.serve, letGo, s.mapWord_leave_enter, Request.held,
      List.erase_cons_head, if_true]

theorem searchFrom (hs : s.Unlatched) (cmp : K → K → Ordering) (k : K) (fuel : ℕ) (id : NodeId) :
    (Tree.searchFrom cmp k fuel id).run s [] = (s.descend cmp k fuel id, s) := by
  induction fuel generalizing id with
  | zero => rfl
  | succ fuel ih =>
    rw [Tree.searchFrom, descend]
    split_ifs with hid
    · rfl
    · rw [hs.look]
      cases s.node? id with
      | none => rfl
      | some n =>
        simp only [Node.towards]
        cases n.order cmp k with
        | gt => exact ih n.left
        | lt => exact ih n.right
        | eq => rfl

/-- A search compares from the root on, which a node without a key above it makes no difference to. -/
theorem search (hs : s.Unlatched) (hanchor : ∀ n, s.node? .anchor = some n → n.key = none)
    (cmp : K → K → Ordering) (k : K) (fuel : ℕ) :
    (Tree.search cmp fuel k).run s [] = (s.descend cmp k (fuel + 1) .anchor, s) := by
  rw [Tree.search, Tree.root, Program.child, bind_assoc, hs.look, descend, if_neg (by decide)]
  cases hn : s.node? .anchor with
  | none => rfl
  | some n =>
    have ho : n.order cmp k = .gt := by rw [Node.order, hanchor n hn]
    simp only [ho, Node.towards]
    exact hs.searchFrom cmp k fuel n.left

end Store.Unlatched

/-! ## The lookup -/

namespace Store

theorem unwind_reading (s : Store K V) (r : Ref) : (s.mapWord r .enter).unwind [.reading r] = s :=
  s.mapWord_leave_enter r

theorem unwind_pair (s : Store K V) (r i : Ref) :
    ((s.mapWord r .enter).mapWord i .enter).unwind [.reading i, .reading r] = s := by
  rw [unwind, List.foldl_cons, letGo, mapWord_leave_enter]
  exact s.unwind_reading r

/-- Next to one reader there is room for another. -/
theorem Unlatched.admits (hs : s.Unlatched) (r i : Ref) :
    ((s.mapWord r .enter).word i).admitsReader = true := by
  rw [word_mapWord, hs.word]
  split_ifs <;> decide

end Store

namespace Lookup

variable {n m : Node K V} {seen : UInt64}

theorem run_zero {s : Store K V} {hs : List Hold} {l : Lookup K V} :
    run cmp k s hs 0 l = (.error .endless, s.unwind hs) := rfl

theorem run_resolve {s : Store K V} {l : Lookup K V} {g : Ref → Lookup K V} {hs : List Hold}
    (ht : s.table = .free) (hr : s.ref? id = some r) (hq : l.turn cmp k = .ask (.resolve id) g) :
    run cmp k s hs (F + 1) l = run cmp k s hs F (g r) :=
  run_ask hq (Store.enabled_resolve ht) (Store.get_of_ref hr)

theorem run_resolve_dangling {s : Store K V} {l : Lookup K V} {g : Ref → Lookup K V} {hs : List Hold}
    (ht : s.table = .free) (hr : s.ref? id = none) (hq : l.turn cmp k = .ask (.resolve id) g) :
    run cmp k s hs (F + 1) l = (.error (.fault (.dangling id)), s.unwind hs) := by
  have hserve : (Request.resolve id).serve s = (.error (.dangling id), s) := Store.get_of_none hr
  rw [run, hq]
  simp only [Store.enabled_resolve ht, if_true, hserve]

section

variable (hs : s.Unlatched)

include hs

/-- The child admits another reader, whether it is asked to or tried. -/
theorem run_stepping :
    run cmp k (s.mapWord cur .enter) [.reading cur] (F + 1) (stepping seen cur n next child) =
      run cmp k ((s.mapWord cur .enter).mapWord child .enter) [.reading child, .reading cur] F
        (moving seen cur child (s.node child)) := by
  have hadmits := hs.admits cur child
  by_cases hlt : cur < child
  · have hq : (stepping seen cur n next child).turn cmp k =
        .ask (.read child) fun m => moving seen cur child m := if_pos hlt
    refine run_ask hq hadmits ?_
    rw [Request.serve, Store.node_mapWord]
  · have hserve : (Request.tryRead child).serve (s.mapWord cur .enter) =
        (.ok (some (s.node child)), (s.mapWord cur .enter).mapWord child .enter) := by
      rw [Request.serve, if_pos hadmits, Store.node_mapWord]
    rw [run, turn, if_neg hlt]
    simp only [Request.enabled, if_true, hserve]
    rfl

omit hs in
theorem run_moving :
    run cmp k ((s.mapWord cur .enter).mapWord child .enter) [.reading child, .reading cur] (F + 1)
        (moving seen cur child m) =
      run cmp k (s.mapWord child .enter) [.reading child] F (visit cmp k seen child m) := by
  have hheld : [Hold.reading child, .reading cur].erase (.reading cur) = [.reading child] := by
    by_cases he : child = cur
    · rw [he, List.erase_cons_head]
    · simp [he]
  have hserve : (Request.leave cur).serve ((s.mapWord cur .enter).mapWord child .enter) =
      (.ok (), s.mapWord child .enter) := by
    rw [Request.serve, Store.letGo, s.mapWord_enter_comm, Store.mapWord_leave_enter]
  rw [run_ask rfl rfl hserve]
  exact congrArg (run cmp k _ · F _) hheld

/-- One node further down. -/
theorem run_below (hchild : s.ref? next = some child) :
    run cmp k (s.mapWord cur .enter) [.reading cur] (F + 3) (resolving seen cur n next) =
      run cmp k (s.mapWord child .enter) [.reading child] F
        (visit cmp k seen child (s.node child)) := by
  rw [run_resolve (s := s.mapWord cur .enter) hs.table hchild rfl, run_stepping hs, run_moving]

omit hs in
theorem run_answering (v : Option V) :
    run cmp k (s.mapWord cur .enter) [.reading cur] (F + 2) (answering cur v) = (.ok v, s) := by
  have hserve : (Request.leave cur).serve (s.mapWord cur .enter) = (.ok (), s) := by
    rw [Request.serve, Store.letGo, s.mapWord_leave_enter]
  rw [run_ask rfl rfl hserve]
  rfl

omit hs in
theorem run_missed :
    run cmp k (s.mapWord cur .enter) [.reading cur] (F + 3) (missed s.relocations cur) =
      (.ok none, s) := by
  rw [run_ask rfl rfl rfl]
  exact (congrArg _ (if_pos rfl)).trans (run_answering none)

theorem run_start (htop : s.ref? .anchor = some r) : run cmp k s [] (F + 3) .start =
    run cmp k (s.mapWord r .enter) [.reading r] F (visit cmp k s.relocations r (s.node r)) := by
  have hread : (Request.read r : Request K V).enabled s = true := by
    rw [Request.enabled, hs.word]
    rfl
  rw [run_ask rfl rfl rfl, run_resolve hs.table htop rfl, run_ask rfl hread rfl]
  rfl

/-- A lookup ends as a search does, if that ends. -/
theorem run_visit (hr : s.ref? id = some r) (hid : id ≠ .nil)
    (hends : s.Concludes (s.descend cmp k (f + 1) id)) (hF : 3 * f + 2 ≤ F) :
    run cmp k (s.mapWord r .enter) [.reading r] F (visit cmp k s.relocations r (s.node r)) =
      (s.descend cmp k (f + 1) id, s) := by
  induction f generalizing id r F with
  | zero =>
    obtain ⟨F, rfl⟩ := Nat.exists_eq_add_of_le' hF
    rw [Store.descend, if_neg hid, Store.node?_of_ref hr] at hends ⊢
    simp only at hends ⊢
    unfold visit
    split_ifs at hends ⊢
    · exact run_answering _
    · exact absurd rfl hends.ne_endless
    · exact absurd rfl hends.ne_endless
  | succ f ih =>
    obtain ⟨F, rfl⟩ := Nat.exists_eq_add_of_le' (show 3 ≤ F by omega)
    rw [Store.descend, if_neg hid, Store.node?_of_ref hr] at hends ⊢
    simp only at hends ⊢
    unfold visit
    split_ifs at hends ⊢ with ho hn
    · exact run_answering _
    · rw [hn]
      exact run_missed
    · cases hnext : s.ref? ((s.node r).towards cmp k) with
      | none =>
        rw [run_resolve_dangling (s := s.mapWord r .enter) hs.table hnext rfl, s.unwind_reading,
          Store.descend, if_neg hn, Store.node?, hnext, Option.map_none]
      | some child =>
        rw [run_below hs hnext]
        exact ih hnext hn hends (by omega)

/-- A lookup goes on for ever if a search does. -/
theorem run_visit_forever (hr : s.ref? id = some r)
    (hon : ∀ i, s.Onward cmp k ((s.below cmp k)^[i] id)) (F : ℕ) :
    run cmp k (s.mapWord r .enter) [.reading r] F (visit cmp k s.relocations r (s.node r)) =
      (.error .endless, s) := by
  induction F using Nat.strongRecOn generalizing id r with
  | ind F ih =>
    obtain ⟨-, n, hn, ho⟩ := hon 0
    obtain rfl := Option.some.inj ((Store.node?_of_ref hr).symm.trans hn)
    have hbelow : s.below cmp k id = (s.node r).towards cmp k := by
      rw [Store.below, Store.node?_of_ref hr]
    obtain ⟨hne, b, hb, -⟩ := hon 1
    rw [Function.iterate_one, hbelow] at hne hb
    obtain ⟨child, hchild, -⟩ := Option.map_eq_some_iff.1 hb
    have hvisit : visit cmp k s.relocations r (s.node r) =
        resolving s.relocations r (s.node r) ((s.node r).towards cmp k) := by
      rw [visit, if_neg ho, if_neg hne]
    rw [hvisit]
    match F with
    | 0 => rw [run_zero, s.unwind_reading]
    | 1 =>
      rw [run_resolve (s := s.mapWord r .enter) hs.table hchild rfl, run_zero, s.unwind_reading]
    | 2 =>
      rw [run_resolve (s := s.mapWord r .enter) hs.table hchild rfl, run_stepping hs, run_zero,
        s.unwind_pair]
    | F + 3 =>
      rw [run_below hs hchild]
      exact ih F (by omega) hchild fun i => hbelow ▸ hon (i + 1)

theorem run_start_dangling (hanchor : s.ref? .anchor = none) :
    run cmp k s [] (F + 2) .start = (.error (.fault (.dangling .anchor)), s) := by
  rw [run_ask rfl rfl rfl, run_resolve_dangling hs.table hanchor rfl]
  rfl

theorem run_start_forever (hon : ∀ i, s.Onward cmp k ((s.below cmp k)^[i] .anchor)) (F : ℕ) :
    run cmp k s [] F .start = (.error .endless, s) := by
  obtain ⟨-, n, hn, -⟩ := hon 0
  obtain ⟨r, hr, -⟩ := Option.map_eq_some_iff.1 hn
  match F with
  | 0 => rfl
  | 1 => rfl
  | 2 =>
    rw [run_ask rfl rfl rfl, run_resolve hs.table hr rfl]
    rfl
  | F + 3 =>
    rw [run_start hs hr]
    exact run_visit_forever hs hr hon F

end

end Lookup

/-- On every store in which no latch is held and the anchor has no key the two ways to look a key up agree,
whatever the comparison of keys says: they end with the same answer, or at the same vacant slot, or else
neither ever ends. -/
theorem Store.Unlatched.findCoupled_eq_find (hs : s.Unlatched)
    (hanchor : ∀ n, s.node? .anchor = some n → n.key = none) (cmp : K → K → Ordering) (k : K) :
    s.findCoupled cmp k = s.find cmp k ∧
      ((∃ v, s.find cmp k = (.ok v, s)) ∨
        (∃ id, s.ref? id = none ∧ s.find cmp k = (.error (.fault (.dangling id)), s)) ∨
        ∀ fuel, (Tree.search cmp fuel k).run s [] = (.error .endless, s) ∧
          Lookup.run cmp k s [] fuel .start = (.error .endless, s)) := by
  have hfind : s.find cmp k = (s.descend cmp k (s.patience + 1) .anchor, s) :=
    hs.search hanchor cmp k s.patience
  rw [findCoupled, hfind]
  rcases descend_cases cmp k s (s.patience + 1) .anchor with hends | ⟨hend, hon⟩
  · refine ⟨?_, ?_⟩
    · cases hr : s.ref? .anchor with
      | none =>
        obtain ⟨F, hF⟩ : ∃ F, 4 * s.patience = F + 2 :=
          Nat.exists_eq_add_of_le' (by simp [patience]; nlinarith)
        rw [hF, Lookup.run_start_dangling hs hr, descend, if_neg (by decide), node?, hr, Option.map_none]
      | some r =>
        have hsize : 1 < s.slots.size := Content.ref_lt (x := s.content) hr
        have hpatience : 16 ≤ s.patience := by
          rw [patience]
          nlinarith
        obtain ⟨F, hF⟩ := Nat.exists_eq_add_of_le' (show 3 ≤ 4 * s.patience by omega)
        rw [hF, Lookup.run_start hs hr]
        exact Lookup.run_visit hs hr (by decide) hends (by omega)
    · rcases hends with ⟨v, hv⟩ | ⟨id, hid, hv⟩
      · exact .inl ⟨v, by rw [hv]⟩
      · exact .inr (.inl ⟨id, hid, by rw [hv]⟩)
  · have hle : s.slots.size < s.patience + 1 := by
      rw [patience]
      nlinarith
    have hforever := onward_forever fun i hi => hon i (Nat.lt_of_le_of_lt hi hle)
    refine ⟨?_, .inr (.inr fun fuel => ⟨?_, Lookup.run_start_forever hs hforever fuel⟩)⟩
    · rw [hend]
      exact Lookup.run_start_forever hs hforever _
    · rw [hs.search hanchor cmp k fuel, descend_forever hforever]

/-- The root has the key 10. The node on its left has none, and links back to it; on its right there is a
vacant slot. -/
def Store.broken : Store ℕ ℕ where
  spin := true
  cells := #[{ node := .reserved }, { node := { Node.reserved with left := 2 } },
    { node := ⟨some 10, some 100, .red, 3, 3, 4⟩ }, { node := ⟨none, none, .red, 4, 2, 3⟩ }]
  slots := #[some 0, some 1, some 2, some 3, none]
  vacant := []
  table := .free
  entries := 7
  relocations := 0

/-- Both find 10, both come to the vacant slot for 11, and for 5 both go round for ever. -/
theorem Store.Unlatched.findCoupled_eq_find_broken :
    Store.broken.Unlatched ∧ (∀ n, Store.broken.node? .anchor = some n → n.key = none) ∧
      Store.broken.findCoupled compare 10 = Store.broken.find compare 10 ∧
      (Store.broken.find compare 10).1 = .ok (some 100) ∧
      Store.broken.findCoupled compare 11 = Store.broken.find compare 11 ∧
      (Store.broken.find compare 11).1 = .error (.fault (.dangling 4)) ∧
      ∀ fuel, (Tree.search compare fuel 5).run Store.broken [] = (.error .endless, Store.broken) ∧
        Lookup.run compare 5 Store.broken [] fuel .start = (.error .endless, Store.broken) := by
  have hfree : Store.broken.Unlatched := ⟨rfl, fun r => by rcases r with _ | _ | _ | _ | r <;> rfl⟩
  have hanchor : ∀ n, Store.broken.node? .anchor = some n → n.key = none := by
    intro n hn
    obtain rfl := Option.some.inj hn
    rfl
  have hround : (Store.broken.find compare 5).1 = .error .endless := by decide +kernel
  refine ⟨hfree, hanchor, (findCoupled_eq_find hfree hanchor compare 10).1, by decide +kernel,
    (findCoupled_eq_find hfree hanchor compare 11).1, by decide +kernel, ?_⟩
  rcases (findCoupled_eq_find hfree hanchor compare 5).2 with ⟨v, hv⟩ | ⟨id, -, hv⟩ | hforever
  · rw [hv] at hround
    cases hround
  · rw [hv] at hround
    cases hround
  · exact hforever

end LatchTree
