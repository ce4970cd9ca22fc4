import LatchTree.Proofs.Slots

/-!
The slots of a store and the handles to its nodes, over any calls that take, look up and vacate slots,
those that meet a fault included. A handle names its node for ever: a slot that is taken again holds
another node.
-/

namespace LatchTree

variable {K V : Type}

inductive SlotCall (K V : Type) where
  | alloc (n : Node K V)
  | get (id : NodeId)
  | free (id : NodeId)

/-- The slot that was taken, or a handle to the node that is or was in the slot. -/
inductive SlotReply where
  | slot (id : NodeId)
  | handle (r : Ref)

namespace Store

def slotCall (s : Store K V) : SlotCall K V → Except Fault SlotReply × Store K V
  | .alloc n => (.ok (.slot (s.alloc n).1), (s.alloc n).2)
  | .get id => ((s.get id).1.map .handle, (s.get id).2)
  | .free id => ((s.free id).1.map .handle, (s.free id).2)

/-- The store after calls, whatever each of them answered. -/
def slotCalls (s : Store K V) (cs : List (SlotCall K V)) : Store K V :=
  cs.foldl (fun s c => (s.slotCall c).2) s

/-- The calls and their answers. -/
def slotLog (s : Store K V) : List (SlotCall K V) → List (SlotCall K V × Except Fault SlotReply)
  | [] => []
  | c :: cs => (c, (s.slotCall c).1) :: (s.slotCall c).2.slotLog cs

/-- The slots in use, the two reserved ones apart. -/
def occupied (s : Store K V) : List NodeId :=
  (List.range s.slots.size).filter fun id => 2 ≤ id ∧ (s.ref? id).isSome

/-- The slots hold the reserved nodes and others, no node twice, and the vacant ones are listed. -/
structure Kept (s : Store K V) : Prop where
  nil : s.ref? .nil = some 0 ∧ s.node 0 = .reserved
  anchor : s.ref? .anchor = some 1 ∧ s.node 1 = .reserved
  nodup : s.vacant.Nodup
  vacant : ∀ id, id ∈ s.vacant ↔ id < s.slots.size ∧ s.ref? id = none
  fits : s.vacant.length + 2 ≤ s.slots.size
  size : s.size = s.occupied.length
  made : ∀ id r, s.ref? id = some r → r < s.cells.size
  inj : ∀ i j r, s.ref? i = some r → s.ref? j = some r → i = j
  table : s.table = .free

/-- What a call answers and does. -/
def Serves (s : Store K V) : SlotCall K V → Prop
  | .alloc n => ∃ id s', s.slotCall (.alloc n) = (.ok (.slot id), s') ∧
      id = s.vacant.head?.getD s.slots.size ∧ s.ref? id = none ∧
      s'.ref? id = some s.cells.size ∧ (∀ j, j ≠ id → s'.ref? j = s.ref? j) ∧
      s'.vacant = s.vacant.tail ∧ s'.cells = s.cells.push { node := n }
  | .get id => s.slotCall (.get id) =
      (match s.ref? id with | some r => .ok (.handle r) | none => .error (.dangling id), s)
  | .free id =>
      if id = .nil ∨ id = .anchor then s.slotCall (.free id) = (.error (.freeReserved id), s)
      else match s.ref? id with
        | none => s.slotCall (.free id) = (.error (.doubleFree id), s)
        | some r => ∃ s', s.slotCall (.free id) = (.ok (.handle r), s') ∧
            s'.ref? id = none ∧ (∀ j, j ≠ id → s'.ref? j = s.ref? j) ∧
            s'.vacant = id :: s.vacant ∧ s'.cells = s.cells

variable {s : Store K V}

/-! ## One call -/

theorem slotCall_alloc (n : Node K V) : ∃ s', s.slotCall (.alloc n) =
    (.ok (.slot (s.content.make n).1), s') ∧ s'.content = (s.content.make n).2 ∧
      s'.cells = s.cells.push { node := n } ∧ s'.table = .free := by
  obtain ⟨hid, hcontent⟩ := Request.yields_alloc n s rfl
  have hid : (s.alloc n).1 = (s.content.make n).1 := Except.ok.inj hid
  refine ⟨(s.alloc n).2, by rw [slotCall, hid], hcontent, ?_⟩
  unfold alloc
  cases s.vacant <;> exact ⟨rfl, rfl⟩

theorem slotCall_get (ht : s.table = .free) (id : NodeId) : s.slotCall (.get id) =
    (match s.ref? id with | some r => .ok (.handle r) | none => .error (.dangling id), s) := by
  have hs : ({ s with table := s.table.enter.leave } : Store K V) = s := by
    rw [ht, show Latch.Word.free.enter.leave = .free by decide, ← ht]
  have href : ({ s with table := s.table.enter } : Store K V).ref? id = s.ref? id := rfl
  simp only [slotCall, get, href, hs]
  cases s.ref? id <;> rfl

theorem slotCall_free_reserved {id : NodeId} (h : id = .nil ∨ id = .anchor) :
    s.slotCall (.free id) = (.error (.freeReserved id), s) := by
  simp only [slotCall, free, h, if_true]
  rfl

theorem slotCall_free_vacant (ht : s.table = .free) {id : NodeId} (hne : ¬(id = .nil ∨ id = .anchor))
    (hr : s.ref? id = none) : s.slotCall (.free id) = (.error (.doubleFree id), s) := by
  have href : ({ s with table := s.table.latch.lock } : Store K V).ref? id = none := hr
  simp only [slotCall, free, hne, if_false, href, ← ht]
  rfl

theorem slotCall_free {id : NodeId} (hne : ¬(id = .nil ∨ id = .anchor)) {r : Ref}
    (hr : s.ref? id = some r) : ∃ s', s.slotCall (.free id) = (.ok (.handle r), s') ∧
      s'.content = s.content.vacate id ∧ s'.cells = s.cells ∧ s'.table = .free := by
  have href : ({ s with table := s.table.latch.lock } : Store K V).ref? id = some r := hr
  simp only [slotCall, free, hne, if_false, href]
  exact ⟨_, rfl, rfl, rfl, rfl⟩

/-- A call takes a slot for a new node, vacates one, or changes nothing. -/
inductive SlotStep (s : Store K V) : SlotCall K V → Except Fault SlotReply → Store K V → Prop
  | taken (n : Node K V) {s' : Store K V} (hcontent : s'.content = (s.content.make n).2)
      (hcells : s'.cells = s.cells.push { node := n }) (htable : s'.table = .free) :
      SlotStep s (.alloc n) (.ok (.slot (s.content.make n).1)) s'
  | vacated {id : NodeId} {r : Ref} {s' : Store K V} (hne : ¬(id = .nil ∨ id = .anchor))
      (hr : s.ref? id = some r) (hcontent : s'.content = s.content.vacate id)
      (hcells : s'.cells = s.cells) (htable : s'.table = .free) :
      SlotStep s (.free id) (.ok (.handle r)) s'
  | found {id : NodeId} {r : Ref} (hr : s.ref? id = some r) :
      SlotStep s (.get id) (.ok (.handle r)) s
  | fault (c : SlotCall K V) (f : Fault) : SlotStep s c (.error f) s

theorem slotStep (ht : s.table = .free) (c : SlotCall K V) :
    s.SlotStep c (s.slotCall c).1 (s.slotCall c).2 := by
  cases c with
  | alloc n =>
    obtain ⟨s', hcall, hcontent, hcells, htable⟩ := s.slotCall_alloc n
    rw [hcall]
    exact .taken n hcontent hcells htable
  | get id =>
    rw [slotCall_get ht]
    cases hr : s.ref? id with
    | none => exact .fault ..
    | some r => exact .found hr
  | free id =>
    by_cases hne : id = .nil ∨ id = .anchor
    · rw [slotCall_free_reserved hne]
      exact .fault ..
    · cases hr : s.ref? id with
      | none =>
        rw [slotCall_free_vacant ht hne hr]
        exact .fault ..
      | some r =>
        obtain ⟨s', hcall, hcontent, hcells, htable⟩ := slotCall_free hne hr
        rw [hcall]
        exact .vacated hne hr hcontent hcells htable

/-! ## The slots after a call -/

theorem mem_occupied {id : NodeId} :
    id ∈ s.occupied ↔ 2 ≤ id ∧ ∃ r, s.ref? id = some r := by
  rw [occupied, List.mem_filter, List.mem_range, decide_eq_true_iff, Option.isSome_iff_exists]
  exact ⟨fun h => h.2, fun h => ⟨Content.ref_lt (x := s.content) h.2.choose_spec, h⟩⟩

theorem Kept.of_sound (hx : s.content.Sound) (hl : s.content.Listed) (h₀ : s.node 0 = .reserved)
    (h₁ : s.node 1 = .reserved) (ht : s.table = .free) : s.Kept := by
  have hd : (NodeId.nil :: NodeId.anchor :: s.occupied).Nodup := by
    refine List.nodup_cons.2 ⟨?_, List.nodup_cons.2 ⟨?_, List.nodup_range.filter _⟩⟩
    · simp [mem_occupied]
    · simp [mem_occupied]
  have hlen := (hx.slots_perm hl hd fun i => ?_).length_eq
  · simp only [List.length_append, List.length_cons, List.length_range] at hlen
    change s.vacant.length + _ = s.slots.size at hlen
    have hsize : s.size = s.occupied.length := by
      rw [Store.size]
      omega
    exact ⟨⟨hx.nil, h₀⟩, ⟨hx.anchor, h₁⟩, hx.nodup, fun id =>
      ⟨hx.vacant id, fun h => hl id h.1 h.2⟩, by omega, hsize, hx.made, hx.inj, ht⟩
  · rw [List.mem_cons, List.mem_cons, mem_occupied]
    constructor
    · rintro (rfl | rfl | h)
      · exact ⟨0, hx.nil⟩
      · exact ⟨1, hx.anchor⟩
      · exact h.2
    · intro h
      rcases i with _ | _ | i
      · exact .inl rfl
      · exact .inr (.inl rfl)
      · exact .inr (.inr ⟨Nat.le_add_left 2 i, h⟩)

namespace Kept

theorem sound (hs : s.Kept) : s.content.Sound :=
  ⟨hs.nil.1, hs.anchor.1, hs.made, hs.inj, fun id => (hs.vacant id).1, hs.nodup⟩

theorem listed (hs : s.Kept) : s.content.Listed :=
  fun id hid hnone => (hs.vacant id).2 ⟨hid, hnone⟩

theorem step (hs : s.Kept) {c : SlotCall K V} {a : Except Fault SlotReply} {s' : Store K V}
    (h : s.SlotStep c a s') : s'.Kept := by
  have hx := hs.sound
  cases h with
  | taken n hcontent hcells htable =>
    have hnode : ∀ r < s.cells.size, s'.node r = s.node r := fun r hr => by
      rw [s.node_of_push hcells, if_neg hr.ne]
    exact .of_sound (hcontent ▸ hx.make n) (hcontent ▸ hs.listed.make hx n)
      ((hnode 0 (hs.made _ _ hs.nil.1)).trans hs.nil.2)
      ((hnode 1 (hs.made _ _ hs.anchor.1)).trans hs.anchor.2) htable
  | @vacated id r _ hne hr hcontent hcells htable =>
    have hnode : ∀ r, s'.node r = s.node r := fun r => by rw [node, hcells, ← node]
    obtain ⟨hnil, hanchor⟩ := not_or.1 hne
    exact .of_sound (hcontent ▸ hx.vacate hr hnil hanchor) (hcontent ▸ hs.listed.vacate id)
      ((hnode 0).trans hs.nil.2) ((hnode 1).trans hs.anchor.2) htable
  | found => exact hs
  | fault => exact hs

theorem serves (hs : s.Kept) (c : SlotCall K V) : s.Serves c := by
  cases c with
  | alloc n =>
    obtain ⟨s', hcall, hcontent, hcells, -⟩ := s.slotCall_alloc n
    have href : ∀ i, s'.ref? i = (s.content.make n).2.ref? i := fun i => by rw [← hcontent]; rfl
    refine ⟨_, s', hcall, ?_, hs.sound.make_free n, ?_, fun j hj => ?_, ?_, hcells⟩
    · unfold Content.make
      cases hv : s.content.vacant with
      | nil => simp [show s.vacant = [] from hv]; rfl
      | cons id rest => simp [show s.vacant = id :: rest from hv]
    · rw [href, hs.sound.ref_make, if_pos rfl]
      rfl
    · rw [href, hs.sound.ref_make, if_neg hj]
      rfl
    · rw [show s'.vacant = (s.content.make n).2.vacant by rw [← hcontent]; rfl]
      unfold Content.make
      cases hv : s.content.vacant with
      | nil => simp [show s.vacant = [] from hv]
      | cons id rest => simp [show s.vacant = id :: rest from hv]
  | get id => exact slotCall_get hs.table id
  | free id =>
    rw [Serves]
    split_ifs with hne
    · exact slotCall_free_reserved hne
    · cases hr : s.ref? id with
      | none => exact slotCall_free_vacant hs.table hne hr
      | some r =>
        obtain ⟨s', hcall, hcontent, hcells, -⟩ := slotCall_free hne hr
        have href : ∀ i, s'.ref? i = (s.content.vacate id).ref? i := fun i => by
          rw [← hcontent]; rfl
        refine ⟨s', hcall, ?_, fun j hj => ?_, congrArg Content.vacant hcontent, hcells⟩
        · rw [href, Content.ref_vacate, if_pos rfl]
        · rw [href, Content.ref_vacate, if_neg hj]
          rfl

end Kept

/-! ## Many calls -/

@[simp] theorem slotCalls_nil (s : Store K V) : s.slotCalls [] = s := rfl

theorem slotCalls_append (s : Store K V) (cs cs' : List (SlotCall K V)) :
    s.slotCalls (cs ++ cs') = (s.slotCalls cs).slotCalls cs' :=
  List.foldl_append

theorem slotCalls_concat (s : Store K V) (cs : List (SlotCall K V)) (c : SlotCall K V) :
    s.slotCalls (cs ++ [c]) = ((s.slotCalls cs).slotCall c).2 :=
  s.slotCalls_append cs [c]

theorem slotLog_concat (s : Store K V) (cs : List (SlotCall K V)) (c : SlotCall K V) :
    s.slotLog (cs ++ [c]) = s.slotLog cs ++ [(c, ((s.slotCalls cs).slotCall c).1)] := by
  induction cs generalizing s with
  | nil => rfl
  | cons c' cs ih => exact congrArg (_ :: ·) (ih _)

namespace Kept

theorem slotCalls (hs : s.Kept) (cs : List (SlotCall K V)) : (s.slotCalls cs).Kept := by
  induction cs using List.reverseRecOn with
  | nil => exact hs
  | append_singleton cs c ih =>
    rw [slotCalls_concat]
    exact ih.step (slotStep ih.table c)

end Kept

theorem SlotStep.allots {c : SlotCall K V} {a : Except Fault SlotReply} {s' : Store K V}
    (h : s.SlotStep c a s') : s.content.Allots s'.content := by
  cases h with
  | taken n hcontent => exact .taken n (by rw [hcontent]) (by rw [hcontent])
  | @vacated id r _ _ hr hcontent =>
    have hne : s.content.ref? id ≠ none := fun h => by
      exact absurd (h.symm.trans hr) (by simp)
    exact .vacated id hne (by rw [hcontent]) (by rw [hcontent])
  | found => exact .none rfl rfl
  | fault => exact .none rfl rfl

/-- The nodes made so far are as they were, and none has come into a slot. -/
structure Recalls (s s' : Store K V) : Prop where
  made : s.cells.size ≤ s'.cells.size
  node : ∀ r < s.cells.size, s'.node r = s.node r
  ref : ∀ id, ∀ r < s.cells.size, s'.ref? id = some r → s.ref? id = some r

theorem Recalls.refl (s : Store K V) : s.Recalls s :=
  ⟨le_rfl, fun _ _ => rfl, fun _ _ _ h => h⟩

theorem Recalls.trans {s' s'' : Store K V} (h : s.Recalls s') (h' : s'.Recalls s'') :
    s.Recalls s'' where
  made := h.made.trans h'.made
  node := fun r hr => (h'.node r (hr.trans_le h.made)).trans (h.node r hr)
  ref := fun id r hr href => h.ref id r hr (h'.ref id r (hr.trans_le h.made) href)

namespace Kept

theorem step_recalls (hs : s.Kept) {c : SlotCall K V} {a : Except Fault SlotReply}
    {s' : Store K V} (h : s.SlotStep c a s') : s.Recalls s' := by
  cases h with
  | taken n hcontent hcells =>
    refine ⟨by simp [hcells], fun r hr => ?_, fun id r hr href => ?_⟩
    · rw [s.node_of_push hcells, if_neg hr.ne]
    · have href : (s.content.make n).2.ref? id = some r := by rwa [← hcontent]
      rw [hs.sound.ref_make] at href
      split_ifs at href
      · exact absurd (Option.some.inj href) hr.ne'
      · exact href
  | @vacated id' r' _ hne hr' hcontent hcells =>
    refine ⟨by rw [hcells], fun r _ => by rw [Store.node, hcells, ← Store.node],
      fun id r _ href => ?_⟩
    have href : (s.content.vacate id').ref? id = some r := by rwa [← hcontent]
    rw [Content.ref_vacate] at href
    split_ifs at href
    exact href
  | found => exact .refl s
  | fault => exact .refl s

theorem recalls (hs : s.Kept) (cs : List (SlotCall K V)) : s.Recalls (s.slotCalls cs) := by
  induction cs using List.reverseRecOn with
  | nil => exact .refl s
  | append_singleton cs c ih =>
    rw [slotCalls_concat]
    have hs' := hs.slotCalls cs
    exact ih.trans (hs'.step_recalls (slotStep hs'.table c))

theorem step_handle (hs : s.Kept) {c : SlotCall K V} {r : Ref} {s' : Store K V}
    (h : s.SlotStep c (.ok (.handle r)) s') : r < s.cells.size := by
  cases h with
  | vacated _ hr => exact hs.made _ _ hr
  | found hr => exact hs.made _ _ hr

/-- A handle names a node that was made. -/
theorem handle_lt (hs : s.Kept) {cs : List (SlotCall K V)} {c : SlotCall K V} {r : Ref}
    (h : (c, .ok (.handle r)) ∈ s.slotLog cs) : r < (s.slotCalls cs).cells.size := by
  induction cs using List.reverseRecOn with
  | nil => exact absurd h List.not_mem_nil
  | append_singleton cs c' ih =>
    have hs' := hs.slotCalls cs
    have hstep := slotStep hs'.table c'
    rw [slotCalls_concat]
    refine lt_of_lt_of_le ?_ (hs'.step_recalls hstep).made
    rw [slotLog_concat, List.mem_append, List.mem_singleton, Prod.mk.injEq] at h
    rcases h with h | ⟨-, h⟩
    · exact ih h
    · rw [← h] at hstep
      exact hs'.step_handle hstep

/-- The vacant slots are listed from the one vacated last: no slot behind `id` in the list was vacated
after it. -/
theorem vacant_latest (hs : s.Kept) (hv : s.vacant = []) (cs : List (SlotCall K V))
    {v₁ v₂ : List NodeId} {id : NodeId} (h : (s.slotCalls cs).vacant = v₁ ++ id :: v₂) :
    ∃ log₁ r log₂, s.slotLog cs = log₁ ++ (.free id, .ok (.handle r)) :: log₂ ∧
      ∀ j r', (.free j, .ok (.handle r')) ∈ log₂ → j ∉ id :: v₂ := by
  induction cs using List.reverseRecOn generalizing v₁ v₂ id with
  | nil => simp [hv] at h
  | append_singleton cs c ih =>
    have hs' := hs.slotCalls cs
    have hstep := slotStep hs'.table c
    rw [slotCalls_concat] at h
    rw [slotLog_concat]
    generalize ((s.slotCalls cs).slotCall c).1 = a at hstep ⊢
    generalize ((s.slotCalls cs).slotCall c).2 = s' at hstep h
    have hold : ∀ v₁, (s.slotCalls cs).vacant = v₁ ++ id :: v₂ →
        (∀ j r', c = .free j → a = .ok (.handle r') → j ∉ id :: v₂) →
        ∃ log₁ r log₂, s.slotLog cs ++ [(c, a)] = log₁ ++ (.free id, .ok (.handle r)) :: log₂ ∧
          ∀ j r', (.free j, .ok (.handle r')) ∈ log₂ → j ∉ id :: v₂ := by
      intro v₁ h hc
      obtain ⟨log₁, r, log₂, hlog, hlast⟩ := ih h
      refine ⟨log₁, r, log₂ ++ [(c, a)], by simp [hlog], fun j r' hj => ?_⟩
      rw [List.mem_append, List.mem_singleton, Prod.mk.injEq] at hj
      rcases hj with hj | ⟨rfl, rfl⟩
      · exact hlast j r' hj
      · exact hc j r' rfl rfl
    cases hstep with
    | taken n hcontent =>
      have hmake : s'.vacant = (s.slotCalls cs).vacant.tail := by
        change s'.content.vacant = (s.slotCalls cs).content.vacant.tail
        rw [hcontent]
        unfold Content.make
        cases hv : (s.slotCalls cs).content.vacant with
        | nil => simp
        | cons i rest => simp
      cases hv : (s.slotCalls cs).vacant with
      | nil => simp [hmake, hv] at h
      | cons i rest =>
        rw [hmake, hv, List.tail_cons] at h
        exact hold (i :: v₁) (by rw [hv, h]; rfl) (by simp)
    | @vacated i r _ hne hr hcontent =>
      have hcons : s'.vacant = i :: (s.slotCalls cs).vacant := congrArg Content.vacant hcontent
      rw [hcons] at h
      cases v₁ with
      | nil =>
        obtain ⟨rfl, rfl⟩ := List.cons.inj h
        exact ⟨s.slotLog cs, r, [], rfl, by simp⟩
      | cons i' v₁ =>
        have htail := (List.cons.inj h).2
        refine hold v₁ htail fun j r' hj _ hmem => ?_
        obtain rfl := SlotCall.free.inj hj
        have hvac := (hs'.vacant i).1 (htail ▸ List.mem_append_right v₁ hmem)
        exact absurd (hvac.2.symm.trans hr) (by simp)
    | found => exact hold v₁ h (by simp)
    | fault => exact hold v₁ h (by simp)

/-- There are as many slots as were in use at any one time. -/
theorem capacity_greatest (hs : s.Kept) (hv : s.capacity = s.size) (cs : List (SlotCall K V)) :
    IsGreatest {n | ∃ cs', cs' <+: cs ∧ n = (s.slotCalls cs').size} (s.slotCalls cs).capacity := by
  induction cs using List.reverseRecOn with
  | nil =>
    refine ⟨⟨[], List.prefix_rfl, hv⟩, ?_⟩
    rintro n ⟨cs', hcs', rfl⟩
    rw [List.prefix_nil.1 hcs']
    exact s.size_le_capacity
  | append_singleton cs c ih =>
    have hcap := capacity_of_allots (slotStep (hs.slotCalls cs).table c).allots
    rw [← slotCalls_concat] at hcap
    have hle : (s.slotCalls cs).capacity ≤ (s.slotCalls (cs ++ [c])).capacity :=
      hcap.elim (fun h => h.ge) fun h => h.2
    constructor
    · rcases hcap with h | ⟨h, -⟩
      · obtain ⟨cs', hcs', hn⟩ := ih.1
        exact ⟨cs', hcs'.trans (List.prefix_append ..), h.trans hn⟩
      · exact ⟨_, List.prefix_rfl, h⟩
    · rintro n ⟨cs', hcs', rfl⟩
      rcases List.prefix_concat_iff.1 hcs' with rfl | hcs'
      · exact size_le_capacity _
      · exact (ih.2 ⟨cs', hcs', rfl⟩).trans hle

end Kept

/-- What the calls `cs` leave behind, and what later calls meet. -/
structure Lasting (s : Store K V) (cs : List (SlotCall K V)) : Prop where
  kept : (s.slotCalls cs).Kept
  /-- Each call that may come next does what it is for, or meets a fault and changes nothing. -/
  serves : ∀ c, (s.slotCalls cs).Serves c
  /-- The slot that is taken next is, of the vacant ones, the one that was vacated last. -/
  latest : ∀ id rest, (s.slotCalls cs).vacant = id :: rest → ∃ log₁ r log₂,
    s.slotLog cs = log₁ ++ (.free id, .ok (.handle r)) :: log₂ ∧
      ∀ j r', (.free j, .ok (.handle r')) ∈ log₂ → j ∉ (s.slotCalls cs).vacant
  /-- All handles come before the nodes that are still to be made. -/
  handles : ∀ c r, (c, .ok (.handle r)) ∈ s.slotLog cs → r < (s.slotCalls cs).cells.size
  recalls : ∀ cs', (s.slotCalls cs).Recalls (s.slotCalls (cs ++ cs'))
  /-- A node whose slot was vacated is as it was, and in no slot ever again. -/
  freed : ∀ id r, ((s.slotCalls cs).slotCall (.free id)).1 = .ok (.handle r) → ∀ cs',
    (s.slotCalls (cs ++ .free id :: cs')).node r = (s.slotCalls cs).node r ∧
      ∀ j, (s.slotCalls (cs ++ .free id :: cs')).ref? j ≠ some r
  capacity_mono : ∀ cs', (s.slotCalls cs).capacity ≤ (s.slotCalls (cs ++ cs')).capacity
  capacity_greatest :
    IsGreatest {n | ∃ cs', cs' <+: cs ∧ n = (s.slotCalls cs').size} (s.slotCalls cs).capacity

theorem Kept.freed (hs : s.Kept) {id : NodeId} {r : Ref}
    (h : (s.slotCall (.free id)).1 = .ok (.handle r)) (cs : List (SlotCall K V)) :
    (s.slotCalls (.free id :: cs)).node r = s.node r ∧
      ∀ j, (s.slotCalls (.free id :: cs)).ref? j ≠ some r := by
  have hstep := slotStep hs.table (.free id)
  have hlater := (hs.step hstep).recalls cs
  have hrecalls := hs.step_recalls hstep
  change (((s.slotCall (.free id)).2.slotCalls cs).node r = _ ∧
    ∀ j, ((s.slotCall (.free id)).2.slotCalls cs).ref? j ≠ some r)
  rw [h] at hstep
  generalize (s.slotCall (.free id)).2 = s' at *
  cases hstep with
  | vacated hne hr hcontent =>
    have hlt := hs.made _ _ hr
    refine ⟨(hrecalls.trans hlater).node r hlt, fun j hj => ?_⟩
    have hj' := hlater.ref j r (hlt.trans_le hrecalls.made) hj
    obtain rfl := hs.inj _ _ _ (hrecalls.ref j r hlt hj') hr
    have hnone : (s.content.vacate j).ref? j = some r := by rwa [← hcontent]
    rw [Content.ref_vacate, if_pos rfl] at hnone
    exact absurd hnone (by simp)

theorem kept_empty (spin : Bool) : (Store.empty spin : Store K V).Kept :=
  .of_sound (UnlatchedTree.empty spin).settled.tidy.sound (listed_empty spin) rfl rfl rfl

/-- Any calls on the slots of a new store leave the slots in order, and the handles name what they
named. -/
theorem lasting_slotCalls (spin : Bool) (cs : List (SlotCall K V)) :
    (Store.empty spin : Store K V).Lasting cs := by
  have hs := kept_empty (K := K) (V := V) spin
  have hs' := hs.slotCalls cs
  refine ⟨hs', hs'.serves, fun id rest h => ?_, fun c r => hs.handle_lt, fun cs' => ?_,
    fun id r h cs' => ?_, fun cs' => ?_, hs.capacity_greatest rfl cs⟩
  · have hfirst : ((Store.empty spin : Store K V).slotCalls cs).vacant = [] ++ id :: rest := h
    rw [h]
    exact hs.vacant_latest rfl cs hfirst
  · rw [slotCalls_append]
    exact hs'.recalls cs'
  · rw [slotCalls_append]
    exact hs'.freed h cs'
  · obtain ⟨cs'', hcs'', h⟩ := (hs.capacity_greatest rfl cs).1
    rw [h]
    exact (hs.capacity_greatest rfl (cs ++ cs')).2 ⟨cs'', hcs''.trans (List.prefix_append ..), rfl⟩

/-- The slot is taken again, by a node of a later rank. -/
example (spin : Bool) (n n' : Node K V) : ((Store.empty spin).slotLog
    [.alloc n, .free 2, .get 2, .alloc n', .get 2]).map Prod.snd =
      [.ok (.slot 2), .ok (.handle 2), .error (.dangling 2), .ok (.slot 2), .ok (.handle 3)] :=
  rfl

end Store

end LatchTree
