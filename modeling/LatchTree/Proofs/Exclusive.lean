import LatchTree.Proofs.Exec
import LatchTree.Proofs.Members

/-!
Lock sets, taken with no other thread about: which nodes are members, in which order they are taken,
what their latches show, and what is left when a set cannot be had.
-/

namespace LatchTree

variable {K V α : Type} {s s' : Store K V} {hs : List Hold} {held : Option (NodeId × Ref)}
  {ids : List NodeId} {ls : LockSet}

/-! ## Latches of many nodes -/

namespace Store

/-- The words of the nodes `rs` are changed. -/
def mapWords (s : Store K V) (rs : List Ref) (f : Latch.Word → Latch.Word) : Store K V :=
  rs.foldl (fun s r => s.mapWord r f) s

@[simp] theorem mapWords_nil (s : Store K V) (f : Latch.Word → Latch.Word) :
    s.mapWords [] f = s := rfl

@[simp] theorem mapWords_cons (s : Store K V) (r : Ref) (rs : List Ref)
    (f : Latch.Word → Latch.Word) : s.mapWords (r :: rs) f = (s.mapWord r f).mapWords rs f := rfl

@[simp] theorem table_mapWords (s : Store K V) (rs : List Ref) (f : Latch.Word → Latch.Word) :
    (s.mapWords rs f).table = s.table := by
  induction rs generalizing s with
  | nil => rfl
  | cons r rs ih => exact ih _

@[simp] theorem content_mapWords (s : Store K V) (rs : List Ref) (f : Latch.Word → Latch.Word) :
    (s.mapWords rs f).content = s.content := by
  induction rs generalizing s with
  | nil => rfl
  | cons r rs ih => rw [mapWords_cons, ih, content_mapWord]

theorem word_mapWords {rs : List Ref} (hd : rs.Nodup) (hlt : ∀ r ∈ rs, r < s.cells.size)
    (f : Latch.Word → Latch.Word) (i : Ref) :
    (s.mapWords rs f).word i = if i ∈ rs then f (s.word i) else s.word i := by
  induction rs generalizing s with
  | nil => simp
  | cons r rs ih =>
    have hsize : (s.mapWord r f).cells.size = s.cells.size := by simp [mapWord]
    rw [List.nodup_cons] at hd
    rw [mapWords_cons, ih hd.2 fun j hj => hsize ▸ hlt j (List.mem_cons_of_mem _ hj), word_mapWord]
    by_cases hi : i = r
    · subst hi
      simp [hd.1, hlt i List.mem_cons_self]
    · simp [hi]

theorem word_mapWords_free (s : Store K V) (rs : List Ref) (i : Ref) :
    (s.mapWords rs fun _ => .free).word i = if i ∈ rs then .free else s.word i := by
  induction rs generalizing s with
  | nil => simp
  | cons r rs ih =>
    rw [mapWords_cons, ih, word_mapWord]
    by_cases hi : i = r
    · subst hi
      by_cases hlt : i < s.cells.size
      · simp [hlt]
      · have hnone : s.cells[i]? = none := Array.getElem?_eq_none (Nat.le_of_not_lt hlt)
        rw [word, hnone]
        simp
    · simp [hi]

theorem unwind_writings (s : Store K V) (rs : List Ref) (hs : List Hold) :
    s.unwind (rs.map .writing ++ hs) = (s.mapWords rs fun _ => .free).unwind hs := by
  rw [unwind, List.foldl_append, List.foldl_map]
  rfl

theorem mapWord_mapWord (s : Store K V) (r : Ref) (f g : Latch.Word → Latch.Word) :
    (s.mapWord r f).mapWord r g = s.mapWord r fun w => g (f w) := by
  simp only [mapWord, Store.mk.injEq, and_true, true_and]
  ext i
  · simp
  · simp [Array.getElem_modify]
    split_ifs <;> rfl

end Store

namespace LockSet

/-! ## Finding the nodes -/

/-- The members in any order: they are in the slots `l`. -/
def Names (s : Store K V) (l : List NodeId) (ls : LockSet) : Prop :=
  ls.map Prod.fst = l ∧ ∀ m ∈ ls, s.ref? m.1 = some m.2

section

variable (htable : s.table.admitsReader = true) (hheld : ∀ m ∈ held, s.ref? m.1 = some m.2)

include htable hheld

theorem find_exec (hs : List Hold) {id : NodeId} {r : Ref} (hr : s.ref? id = some r) :
    (find held id).exec s hs = (.ok r, s, hs) ∧ (find held id : Program K V Ref).trace s =
      if held.any (·.1 == id) then [] else [(.resolve id, s)] := by
  have hserve : (Request.resolve id).serve s = (.ok r, s) := Store.get_of_ref hr
  have hask : (Program.resolve id).exec s hs = (.ok r, s, hs) ∧
      (Program.resolve id : Program K V Ref).trace s = [(.resolve id, s)] :=
    ⟨Program.exec_ask htable hserve, Program.trace_ask htable hserve⟩
  cases held with
  | none => exact hask
  | some m =>
    obtain ⟨j, r'⟩ := m
    by_cases hj : j = id
    · subst hj
      obtain rfl : r' = r := Option.some.inj ((hheld _ rfl).symm.trans hr)
      simp [find, Program.trace]
    · simpa [find, hj] using hask

theorem find_exec_vacant (hs : List Hold) {id : NodeId} (hr : s.ref? id = none) :
    (find held id).exec s hs = (.error (.fault (.dangling id)), s, hs) := by
  have hask : (Program.resolve id).exec s hs = (.error (.fault (.dangling id)), s, hs) :=
    Program.exec_ask_error htable (Store.get_of_none hr)
  cases held with
  | none => exact hask
  | some m =>
    obtain ⟨j, r'⟩ := m
    have hj : j ≠ id := by
      rintro rfl
      exact absurd ((hheld _ rfl).symm.trans hr) (by simp)
    simpa [find, hj] using hask

theorem locate_exec (hs : List Hold) {l : List NodeId} (hl : ∀ id ∈ l, ∃ r, s.ref? id = some r) :
    ∃ ls, Names s l ls ∧ (locate held l).exec s hs = (.ok ls, s, hs) ∧ (locate held l : Program K V LockSet).trace s =
      (l.filter fun id => !held.any (·.1 == id)).map fun id => (.resolve id, s) := by
  induction l with
  | nil => exact ⟨[], ⟨rfl, by simp⟩, rfl, rfl⟩
  | cons id l ih =>
    obtain ⟨r, hr⟩ := hl id List.mem_cons_self
    obtain ⟨ls, ⟨hfst, hrefs⟩, hexec, htrace⟩ := ih fun j hj => hl j (List.mem_cons_of_mem _ hj)
    obtain ⟨hfind, hfound⟩ := find_exec htable hheld hs hr
    refine ⟨(id, r) :: ls, ⟨by simp [hfst], ?_⟩, ?_, ?_⟩
    · simpa [hr] using hrefs
    · rw [locate, Program.exec_bind_ok hfind, Program.exec_bind_ok hexec]
      rfl
    · rw [locate, Program.trace_bind hfind, Program.trace_bind hexec, hfound, htrace,
        List.filter_cons]
      cases held.any (·.1 == id) <;> simp [Program.trace]

/-- A vacant slot is met before any node is closed. -/
theorem locate_exec_vacant (hs : List Hold) {l : List NodeId} (hl : ∃ id ∈ l, s.ref? id = none) :
    ∃ id ∈ l, s.ref? id = none ∧
      (locate held l).exec s hs = (.error (.fault (.dangling id)), s, hs) := by
  induction l with
  | nil => simp at hl
  | cons id l ih =>
    cases hr : s.ref? id with
    | none =>
      refine ⟨id, List.mem_cons_self, hr, ?_⟩
      rw [locate, Program.exec_bind_error (find_exec_vacant htable hheld hs hr)]
    | some r =>
      obtain ⟨j, hj, hnone⟩ := hl
      have hjl : j ∈ l := (List.mem_cons.1 hj).resolve_left fun he => by simp [← he, hnone] at hr
      obtain ⟨i, hi, hvacant, hexec⟩ := ih ⟨j, hjl, hnone⟩
      refine ⟨i, List.mem_cons_of_mem _ hi, hvacant, ?_⟩
      rw [locate, Program.exec_bind_ok (find_exec htable hheld hs hr).1,
        Program.exec_bind_error hexec]

end

/-! ## Closing them -/

/-- The word of a node of a lock set. -/
def closed : Latch.Word := Latch.Word.free.latch.lock

/-- The word of a node before it is taken into a lock set. -/
def idle (held : Option (NodeId × Ref)) (id : NodeId) : Latch.Word :=
  if held.any (·.1 == id) then Latch.Word.free.reserve else .free

theorem idle_close (held : Option (NodeId × Ref)) (id : NodeId) :
    (idle held id).latch.isDrained = true ∧ (idle held id).latch.lock = closed := by
  unfold idle
  split_ifs <;> decide

/-- What is held once a node is taken. -/
def closeHeld (held : Option (NodeId × Ref)) (hs : List Hold) (m : NodeId × Ref) : List Hold :=
  .writing m.2 :: if held.any (·.1 == m.1) then hs.erase (.reserving m.2) else hs

/-- The requests by which a node is taken. -/
def closing (held : Option (NodeId × Ref)) (m : NodeId × Ref) : List (Request K V) :=
  [if held.any (·.1 == m.1) then .upgrade m.2 else .latch m.2, .lock m.2]

section

variable {id : NodeId} {r : Ref} (hr : r < s.cells.size) (hw : s.word r = idle held id)

include hw in
theorem close_exec (hs : List Hold) : (close held id r).exec s hs =
      (.ok (), s.mapWord r .latch, closeHeld held hs (id, r)) ∧
    (close held id r : Program K V Unit).trace s =
      [(if held.any (·.1 == id) then .upgrade r else .latch r, s.mapWord r .latch)] := by
  by_cases hid : held.any (·.1 == id) = true
  · have hclose : close held id r = (Program.request (.upgrade r) : Program K V Unit) := if_pos hid
    have hheld : closeHeld held hs (id, r) = .writing r :: hs.erase (.reserving r) := by
      simp [closeHeld, hid]
    rw [hclose, hheld, if_pos hid]
    exact ⟨Program.exec_ask (q := .upgrade r) rfl rfl, Program.trace_ask (q := .upgrade r) rfl rfl⟩
  · have hclose : close held id r = (Program.request (.latch r) : Program K V Unit) := if_neg hid
    have hheld : closeHeld held hs (id, r) = .writing r :: hs := by simp [closeHeld, hid]
    have hadmits : (Request.latch r).enabled s = true := by
      rw [Request.enabled, hw, idle, if_neg hid]
      decide
    rw [hclose, hheld, if_neg hid]
    exact ⟨Program.exec_ask hadmits rfl, Program.trace_ask hadmits rfl⟩

include hr hw in
theorem lock_exec (hs : List Hold) :
    (Program.request (.lock r) : Program K V Unit).exec (s.mapWord r .latch) hs =
      (.ok (), s.mapWord r fun w => w.latch.lock, hs) ∧
    (Program.request (.lock r) : Program K V Unit).trace (s.mapWord r .latch) =
      [(.lock r, s.mapWord r fun w => w.latch.lock)] := by
  have hdrained : (Request.lock r).enabled (s.mapWord r .latch) = true := by
    rw [Request.enabled, Store.word_mapWord, if_pos ⟨rfl, hr⟩, hw]
    exact (idle_close held id).1
  have hserve : (Request.lock r).serve (s.mapWord r .latch) =
      (.ok (), s.mapWord r fun w => w.latch.lock) :=
    congrArg _ (s.mapWord_mapWord r _ _)
  exact ⟨Program.exec_ask hdrained hserve, Program.trace_ask hdrained hserve⟩

end

/-- The nodes are taken in the order of the list, and the latch of each is closed but once. -/
theorem acquire_exec (hs : List Hold) {ls : LockSet} (hd : (ls.map Prod.snd).Nodup)
    (hlt : ∀ m ∈ ls, m.2 < s.cells.size) (hw : ∀ m ∈ ls, s.word m.2 = idle held m.1) :
    (acquire held ls).exec s hs = (.ok (), s.mapWords (ls.map Prod.snd) fun w => w.latch.lock,
      ls.foldl (closeHeld held) hs) ∧
    ((acquire held ls : Program K V Unit).trace s).map Prod.fst = ls.flatMap (closing held) ∧
    ∀ e ∈ (acquire held ls : Program K V Unit).trace s, ∀ i, e.2.word i = s.word i ∨
      i ∈ ls.map Prod.snd ∧
        (e.2.word i = (s.word i).latch ∨ e.2.word i = (s.word i).latch.lock) := by
  induction ls generalizing s hs with
  | nil => exact ⟨rfl, rfl, by simp [acquire, Program.trace]⟩
  | cons m ls ih =>
    obtain ⟨id, r⟩ := m
    obtain ⟨hnew, hd⟩ := List.nodup_cons.1 hd
    obtain ⟨hr, hlt⟩ := List.forall_mem_cons.1 hlt
    obtain ⟨hword, hw⟩ := List.forall_mem_cons.1 hw
    simp only at hnew hr hword
    obtain ⟨hclose, hclosed⟩ := close_exec hword hs
    obtain ⟨hlock, hlocked⟩ := lock_exec hr hword (closeHeld held hs (id, r))
    have hsize : (s.mapWord r fun w => w.latch.lock).cells.size = s.cells.size := by
      simp [Store.mapWord]
    have hother : ∀ f, ∀ i, i ≠ r → (s.mapWord r f).word i = s.word i := fun f i hi => by
      rw [Store.word_mapWord, if_neg fun h => hi h.1]
    have hsame : ∀ f, (s.mapWord r f).word r = f (s.word r) := fun f => by
      rw [Store.word_mapWord, if_pos ⟨rfl, hr⟩]
    obtain ⟨hexec, htrace, hwords⟩ := ih (s := s.mapWord r fun w => w.latch.lock)
      (closeHeld held hs (id, r)) hd (fun m hm => hsize ▸ hlt m hm) fun m hm => by
        have hne : m.2 ≠ r := fun he => hnew (he ▸ List.mem_map_of_mem hm)
        rw [hother _ _ hne, hw m hm]
    have hran : (acquire held ((id, r) :: ls)).exec s hs =
        (acquire held ls).exec (s.mapWord r fun w => w.latch.lock) (closeHeld held hs (id, r)) :=
      (Program.exec_bind_ok hclose _).trans (Program.exec_bind_ok hlock _)
    have hseen : (acquire held ((id, r) :: ls) : Program K V Unit).trace s =
        [(if held.any (·.1 == id) then .upgrade r else .latch r, s.mapWord r .latch)] ++
          ([(.lock r, s.mapWord r fun w => w.latch.lock)] ++
            (acquire held ls).trace (s.mapWord r fun w => w.latch.lock)) :=
      (Program.trace_bind hclose _).trans
        (congrArg₂ _ hclosed ((Program.trace_bind hlock _).trans (congrArg (· ++ _) hlocked)))
    rw [hran, hexec, hseen]
    refine ⟨rfl, by simp [htrace, closing], fun e he i => ?_⟩
    rw [List.map_cons, List.mem_cons]
    by_cases hi : i = r
    · subst hi
      rcases List.mem_cons.1 he with rfl | he
      · exact .inr ⟨.inl rfl, .inl (hsame _)⟩
      · rcases List.mem_cons.1 he with rfl | he
        · exact .inr ⟨.inl rfl, .inr (hsame _)⟩
        · have hlast := (hwords e he i).resolve_right fun h => hnew h.1
          exact .inr ⟨.inl rfl, .inr (hlast.trans (hsame _))⟩
    · rcases List.mem_cons.1 he with rfl | he
      · exact .inl (hother _ i hi)
      · rcases List.mem_cons.1 he with rfl | he
        · exact .inl (hother _ i hi)
        · have hrest := hwords e he i
          rw [hother _ i hi] at hrest
          exact hrest.imp_right fun h => ⟨.inr h.1, h.2⟩

/-! ## Letting them go -/

theorem release_exec (s : Store K V) (hs : List Hold) (ls : LockSet) : (release ls).exec s hs =
    (.ok (), s.mapWords (ls.map Prod.snd) fun _ => .free,
      ls.foldl (fun hs m => hs.erase (.writing m.2)) hs) := by
  induction ls generalizing s hs with
  | nil => rfl
  | cons m ls ih => exact ih _ _

/-- The set is let go of by opening its nodes, and them alone, for all others. -/
def Opens (K V : Type) (ls : LockSet) : Prop :=
  ∀ (s : Store K V) (hs : List Hold), ∃ s', (release ls).run s hs = (.ok (), s') ∧
    s'.content = s.content ∧ s'.table = s.table ∧
    ∀ r, s'.word r = if r ∈ ls.map Prod.snd then .free else s.word r

theorem opens (ls : LockSet) : ls.Opens K V := fun s hs =>
  ⟨_, Program.run_of_exec (release_exec s hs ls) nofun, s.content_mapWords .., s.table_mapWords ..,
    s.word_mapWords_free _⟩

/-! ## The outcome -/

/-- What a thread holds that has reserved the node `held`. -/
def reserving (held : Option (NodeId × Ref)) : List Hold :=
  held.toList.map fun m => .reserving m.2

/-- The owner of the set reaches its members, for reading and for writing, and no other node. -/
structure Reaches (K V : Type) (ls : LockSet) : Prop where
  member : ∀ (s : Store K V), ∀ m ∈ ls, s.memberNode ls m.1 = .ok (s.node m.2) ∧
    ∀ f, s.editMember ls m.1 f = (.ok (), s.mapNode m.2 f)
  other : ∀ (s : Store K V), ∀ id, id ∉ ls.map Prod.fst →
    s.memberNode ls id = .error (.notInSet id) ∧
      ∀ f, s.editMember ls id f = (.error (.notInSet id), s)

end LockSet

namespace Store

/-- The nodes of `ids` are idle, but for a reservation of the one that is held. -/
structure Idles (s : Store K V) (ids : List NodeId) (held : Option (NodeId × Ref)) : Prop where
  slots : s.content.Sound
  table : s.table.admitsReader = true
  reserved : ∀ m ∈ held, s.ref? m.1 = some m.2 ∧ s.word m.2 = Latch.Word.free.reserve
  others : ∀ id ∈ ids, id ≠ .nil → (∀ m ∈ held, m.1 ≠ id) → ∀ r, s.ref? id = some r →
    s.word r = .free

/-- Some node of `ids` is missing, or the one that is held is none of them. -/
def Lacks (s : Store K V) (ids : List NodeId) (held : Option (NodeId × Ref)) : Prop :=
  (∃ id ∈ ids, id ≠ .nil ∧ (∀ m ∈ held, m.1 ≠ id) ∧ s.ref? id = none) ∨
    ∃ m ∈ held, m.1 = .nil ∨ m.1 ∉ ids

/-- The members of a set of `ids`, in the order in which they are taken. -/
structure Ranks (s : Store K V) (ids : List NodeId) (ls : LockSet) : Prop where
  nodup : (ls.map Prod.fst).Nodup
  members : ∀ id, id ∈ ls.map Prod.fst ↔ id ∈ ids ∧ id ≠ .nil
  refs : ∀ m ∈ ls, s.ref? m.1 = some m.2
  ascends : ls.Pairwise (·.2 < ·.2)

/-- The set `ls` has been taken of `ids`. -/
structure Taken (s : Store K V) (ids : List NodeId) (held : Option (NodeId × Ref)) (ls : LockSet)
    (s' : Store K V) : Prop extends s.Ranks ids ls where
  word : ∀ r, s'.word r = if r ∈ ls.map Prod.snd then LockSet.closed else s.word r
  content : s'.content = s.content
  table : s'.table = s.table
  /-- The nodes are found first. Then the door of each is closed, from inside if it is the one that
  is held. -/
  requests : ((LockSet.exclusive ids held).trace s).map Prod.fst =
    ((LockSet.distinct ids).filter fun id => !held.any (·.1 == id)).map .resolve ++
      ls.flatMap (LockSet.closing held)
  /-- No one gets between the reservation and the write permission that it turns into. -/
  guarded : ∀ m ∈ held, ∀ e ∈ (LockSet.exclusive ids held).trace s,
    (e.2.word m.2).admitsWriter = false ∧ (e.2.word m.2).admitsReserver = false
  reaches : ls.Reaches K V
  opens : ls.Opens K V

/-- No set has been taken of `ids`, and nothing is left of the attempt. -/
structure Refused (s : Store K V) (ids : List NodeId) (held : Option (NodeId × Ref)) (f : Fault)
    (s' : Store K V) : Prop where
  fault : (∃ id ∈ ids, id ≠ .nil ∧ s.ref? id = none ∧ f = .dangling id) ∨
    ∃ m ∈ held, f = .heldMissing m.1
  word : ∀ r, s'.word r = if held.any (·.2 == r) then .free else s.word r
  idle : ∀ id, id ∈ ids ∧ id ≠ .nil ∨ (∃ m ∈ held, m.1 = id) → ∀ r, s.ref? id = some r →
    s'.word r = .free
  content : s'.content = s.content
  table : s'.table = s.table

end Store

namespace LockSet

/-! ## Going through the request -/

/-- A set depends only on which nodes are asked for. -/
theorem exclusive_congr {ids' : List NodeId} (h : ∀ id, id ≠ .nil → (id ∈ ids' ↔ id ∈ ids)) :
    (exclusive ids' held : Program K V LockSet) = exclusive ids held := by
  have hsame : distinct ids' = distinct ids := by
    refine (distinct_sorted ids').eq_of_mem_iff (distinct_sorted ids) fun id => ?_
    rw [mem_distinct, mem_distinct]
    exact and_congr_left (h id)
  rw [exclusive, exclusive, hsame]

theorem foldl_closeHeld (h : ∀ m ∈ ls, held.any (·.1 == m.1) = false) (hs : List Hold) :
    ls.foldl (closeHeld held) hs = (ls.map Prod.snd).reverse.map .writing ++ hs := by
  induction ls generalizing hs with
  | nil => rfl
  | cons m ls ih =>
    rw [List.forall_mem_cons] at h
    rw [List.foldl_cons, ih h.2, closeHeld, h.1]
    simp

theorem foldl_erase_writing {l : List Hold} (hl : l.Perm (ls.map fun m => .writing m.2)) :
    ls.foldl (fun hs m => hs.erase (.writing m.2)) l = [] := by
  induction ls generalizing l with
  | nil => exact List.perm_nil.1 hl
  | cons m ls ih =>
    refine ih ?_
    have h := hl.erase (.writing m.2)
    rwa [List.map_cons, List.erase_cons_head] at h

theorem checkHeld_missing {m : NodeId × Ref} (h : m.1 ∉ ls.map Prod.fst) :
    (checkHeld (some m) ls : Program K V Unit) = .halt (.fault (.heldMissing m.1)) := by
  refine if_neg fun hany => ?_
  obtain ⟨l, hl, he⟩ := List.any_eq_true.1 hany
  exact h (List.mem_map.2 ⟨l, hl, by simpa using he⟩)

theorem checkHeld_trace (ls : LockSet) :
    (checkHeld held ls >>= fun _ => pure ls : Program K V LockSet).trace s = [] := by
  cases held with
  | none => rfl
  | some m =>
    rw [checkHeld]
    split_ifs <;> rfl

end LockSet

/-- Put in the order of their ranks, the nodes that were found are the members. -/
theorem LockSet.Names.ranks {l : LockSet} (hl : LockSet.Names s (LockSet.distinct ids) l)
    (hs : s.content.Sound) : s.Ranks ids (LockSet.byRank l) := by
  obtain ⟨hfst, hrefs⟩ := hl
  have hperm := LockSet.byRank_perm l
  have hfst' : ((LockSet.byRank l).map Prod.fst).Perm (LockSet.distinct ids) :=
    hfst ▸ hperm.map Prod.fst
  refine ⟨hfst'.nodup_iff.2 (LockSet.distinct_nodup ids),
    fun id => hfst'.mem_iff.trans (LockSet.mem_distinct id ids),
    fun m hm => hrefs m (hperm.mem_iff.1 hm), ?_⟩
  exact LockSet.byRank_ranked hs.inj (hfst ▸ LockSet.distinct_nodup ids) hrefs

namespace Store.Ranks

variable (h : s.Ranks ids ls)

include h

theorem nodup_snd : (ls.map Prod.snd).Nodup :=
  (List.pairwise_map.2 h.ascends).imp Nat.ne_of_lt

theorem reaches : ls.Reaches K V :=
  ⟨fun s _ hm => ⟨s.memberNode_member h.nodup hm, s.editMember_member h.nodup h.nodup_snd hm⟩,
    fun s _ hid => ⟨s.memberNode_other hid, s.editMember_other hid⟩⟩

end Store.Ranks

namespace Store.Idles

variable (h : s.Idles ids held)

include h

theorem ref_held : ∀ m ∈ held, s.ref? m.1 = some m.2 := fun m hm => (h.reserved m hm).1

theorem word_eq {id : NodeId} {r : Ref} (hid : id ∈ ids) (hne : id ≠ .nil)
    (hr : s.ref? id = some r) : s.word r = LockSet.idle held id := by
  cases held with
  | none => exact h.others id hid hne nofun r hr
  | some m =>
    obtain ⟨href, hword⟩ := h.reserved m rfl
    by_cases hm : m.1 = id
    · subst hm
      obtain rfl := Option.some.inj (href.symm.trans hr)
      simpa [LockSet.idle] using hword
    · have hfree := h.others id hid hne (fun _ hm' => Option.some.inj hm' ▸ hm) r hr
      simpa [LockSet.idle, hm] using hfree

/-- The nodes are found, put in order and closed; what is left is to see to the one that is held. -/
theorem exclusive_exec (hids : ∀ id ∈ ids, id ≠ .nil → ∃ r, s.ref? id = some r) (hs : List Hold) :
    ∃ ls, s.Ranks ids ls ∧
      (∀ r, (s.mapWords (ls.map Prod.snd) fun w => w.latch.lock).word r =
        if r ∈ ls.map Prod.snd then LockSet.closed else s.word r) ∧
      (LockSet.exclusive ids held).exec s hs =
        (LockSet.checkHeld held ls >>= fun _ => pure ls).exec
          (s.mapWords (ls.map Prod.snd) fun w => w.latch.lock)
          (ls.foldl (LockSet.closeHeld held) hs) ∧
      ((LockSet.exclusive ids held).trace s).map Prod.fst =
        ((LockSet.distinct ids).filter fun id => !held.any (·.1 == id)).map .resolve ++
          ls.flatMap (LockSet.closing held) ∧
      ∀ e ∈ (LockSet.exclusive ids held).trace s, ∀ r,
        e.2.word r = s.word r ∨ e.2.word r = (s.word r).latch ∨
          e.2.word r = (s.word r).latch.lock := by
  obtain ⟨l, hnames, hlocate, hlocated⟩ := LockSet.locate_exec h.table h.ref_held hs
    (l := LockSet.distinct ids) fun id hid => by
      rw [LockSet.mem_distinct] at hid
      exact hids id hid.1 hid.2
  have hranks : s.Ranks ids (LockSet.byRank l) := hnames.ranks h.slots
  have hlt : ∀ m ∈ LockSet.byRank l, m.2 < s.cells.size := fun m hm =>
    h.slots.made _ _ (hranks.refs m hm)
  have hword : ∀ m ∈ LockSet.byRank l, s.word m.2 = LockSet.idle held m.1 := fun m hm => by
    obtain ⟨hid, hne⟩ := (hranks.members m.1).1 (List.mem_map_of_mem hm)
    exact h.word_eq hid hne (hranks.refs m hm)
  obtain ⟨hacquire, hacquired, hwords⟩ := LockSet.acquire_exec hs hranks.nodup_snd hlt hword
  have hseen : (LockSet.exclusive ids held).trace s =
      ((LockSet.distinct ids).filter fun id => !held.any (·.1 == id)).map
          (fun id => (.resolve id, s)) ++ (LockSet.acquire held (LockSet.byRank l)).trace s := by
    rw [LockSet.exclusive, Program.trace_bind hlocate, hlocated, Program.trace_bind hacquire,
      LockSet.checkHeld_trace, List.append_nil]
  refine ⟨LockSet.byRank l, hranks, fun r => ?_, ?_, ?_, fun e he r => ?_⟩
  · rw [word_mapWords hranks.nodup_snd fun r hr => by
      obtain ⟨m, hm, rfl⟩ := List.mem_map.1 hr
      exact hlt m hm]
    split_ifs with hr
    · obtain ⟨m, hm, rfl⟩ := List.mem_map.1 hr
      rw [hword m hm]
      exact (LockSet.idle_close held m.1).2
    · rfl
  · rw [LockSet.exclusive, Program.exec_bind_ok hlocate, Program.exec_bind_ok hacquire]
  · rw [hseen, List.map_append, hacquired, List.map_map]
    rfl
  · rw [hseen, List.mem_append] at he
    rcases he with he | he
    · obtain ⟨id, -, rfl⟩ := List.mem_map.1 he
      exact .inl rfl
    · exact (hwords e he r).imp_right And.right

theorem taken (hno : ¬ s.Lacks ids held) : ∃ ls s',
    (LockSet.exclusive ids held).run s (LockSet.reserving held) = (.ok ls, s') ∧
      s.Taken ids held ls s' := by
  obtain ⟨hsome, hin⟩ := not_or.1 hno
  have hids : ∀ id ∈ ids, id ≠ .nil → ∃ r, s.ref? id = some r := fun id hid hne => by
    by_contra hvacant
    have hnone : s.ref? id = none := Option.eq_none_iff_forall_ne_some.2 fun r hr => hvacant ⟨r, hr⟩
    refine hsome ⟨id, hid, hne, fun m hm he => ?_, hnone⟩
    exact hvacant ⟨m.2, he ▸ h.ref_held m hm⟩
  obtain ⟨ls, hranks, hword, hexec, hrequests, hseen⟩ :=
    h.exclusive_exec hids (LockSet.reserving held)
  have hcheck : (LockSet.checkHeld held ls : Program K V Unit) = .done () :=
    LockSet.checkHeld_done fun m hm => (hranks.members m.1).2 <| by
      by_contra hmiss
      exact hin ⟨m, hm, by tauto⟩
  rw [hcheck] at hexec
  refine ⟨ls, _, Program.run_of_exec hexec nofun, hranks, hword, content_mapWords ..,
    table_mapWords .., hrequests, fun m hm e he => ?_, hranks.reaches, ls.opens⟩
  rcases (h.reserved m hm).2 ▸ hseen e he m.2 with hw | hw | hw <;> rw [hw] <;> decide

/-- What is left once a reservation has been let go of. -/
theorem refused_of {f : Fault} {s' : Store K V}
    (hf : (∃ id ∈ ids, id ≠ .nil ∧ s.ref? id = none ∧ f = .dangling id) ∨
      ∃ m ∈ held, f = .heldMissing m.1)
    (hword : ∀ r, s'.word r = if held.any (·.2 == r) then .free else s.word r)
    (hcontent : s'.content = s.content) (htable : s'.table = s.table) :
    s.Refused ids held f s' := by
  refine ⟨hf, hword, fun id hid r hr => ?_, hcontent, htable⟩
  rw [hword]
  split_ifs with hany
  · rfl
  · have hne : ∀ m ∈ held, m.1 ≠ id := fun m hm he => by
      obtain rfl := Option.some.inj (hr.symm.trans (he ▸ h.ref_held m hm))
      exact hany (Option.any_eq_true .. |>.2 ⟨m, hm, by simp⟩)
    rcases hid with hid | ⟨m, hm, he⟩
    · exact h.others id hid.1 hid.2 hne r hr
    · exact absurd he (hne m hm)

/-- Where the words are as they were at first, they are so again without the reservation. -/
theorem word_unwind {s₂ : Store K V} (hsize : s₂.cells.size = s.cells.size)
    (hword : ∀ r, s₂.word r = s.word r) (r : Ref) :
    (s₂.unwind (LockSet.reserving held)).word r =
      if held.any (·.2 == r) then .free else s.word r := by
  cases held with
  | none => exact hword r
  | some m =>
    obtain ⟨href, hreserved⟩ := h.reserved m rfl
    have hstep : (s₂.unwind (LockSet.reserving (some m))).word r =
        (s₂.mapWord m.2 .unreserve).word r := rfl
    rw [hstep, word_mapWord]
    by_cases hr : r = m.2
    · subst hr
      rw [if_pos ⟨rfl, hsize ▸ h.slots.made _ _ href⟩, hword, hreserved]
      simpa using (by decide : Latch.Word.free.reserve.unreserve = .free)
    · rw [if_neg fun hr' => hr hr'.1, hword]
      simp [Ne.symm hr]

theorem refused (hl : s.Lacks ids held) : ∃ f s',
    (LockSet.exclusive ids held).run s (LockSet.reserving held) = (.error (.fault f), s') ∧
      s.Refused ids held f s' := by
  by_cases hvacant : ∃ id ∈ LockSet.distinct ids, s.ref? id = none
  · obtain ⟨id, hid, hnone, hlocate⟩ := LockSet.locate_exec_vacant h.table h.ref_held
      (LockSet.reserving held) hvacant
    rw [LockSet.mem_distinct] at hid
    have hexec : (LockSet.exclusive ids held).exec s (LockSet.reserving held) =
        (.error (.fault (.dangling id)), s, LockSet.reserving held) :=
      Program.exec_bind_error hlocate _
    refine ⟨_, _, Program.run_of_exec hexec nofun, ?_⟩
    exact h.refused_of (.inl ⟨id, hid.1, hid.2, hnone, rfl⟩)
      (h.word_unwind rfl fun _ => rfl) (s.content_unwind _) (s.table_unwind _)
  · have hids : ∀ id ∈ ids, id ≠ .nil → ∃ r, s.ref? id = some r := fun id hid hne => by
      by_contra hno
      exact hvacant ⟨id, (LockSet.mem_distinct ..).2 ⟨hid, hne⟩,
        Option.eq_none_iff_forall_ne_some.2 fun r hr => hno ⟨r, hr⟩⟩
    obtain ⟨ls, hranks, hword, hexec, -, -⟩ := h.exclusive_exec hids (LockSet.reserving held)
    obtain ⟨m, rfl, hm⟩ : ∃ m, held = some m ∧ (m.1 = .nil ∨ m.1 ∉ ids) := by
      rcases hl with ⟨id, hid, hne, -, hnone⟩ | ⟨m, hheld, hm⟩
      · obtain ⟨r, hr⟩ := hids id hid hne
        exact absurd (hr.symm.trans hnone) nofun
      · exact ⟨m, hheld, hm⟩
    have hmiss : m.1 ∉ ls.map Prod.fst := fun hin => by
      have := (hranks.members m.1).1 hin
      tauto
    have hother : ∀ l ∈ ls, (some m).any (·.1 == l.1) = false := fun l hl => by
      simpa using fun he : m.1 = l.1 => hmiss (he ▸ List.mem_map_of_mem hl)
    have hfree : ∀ i ∈ ls.map Prod.snd, s.word i = .free := fun i hi => by
      obtain ⟨l, hl, rfl⟩ := List.mem_map.1 hi
      obtain ⟨hid, hne⟩ := (hranks.members l.1).1 (List.mem_map_of_mem hl)
      rw [h.word_eq hid hne (hranks.refs l hl), LockSet.idle, hother l hl]
      rfl
    rw [LockSet.checkHeld_missing hmiss, LockSet.foldl_closeHeld hother] at hexec
    refine ⟨_, _, Program.run_of_exec hexec nofun, ?_⟩
    rw [Except.isOk, Except.toBool, if_neg nofun, unwind_writings]
    refine h.refused_of (.inr ⟨m, rfl, rfl⟩) (h.word_unwind ?_ fun i => ?_) (by simp) (by simp)
    · exact congrArg Content.made ((content_mapWords ..).trans (content_mapWords ..))
    · rw [word_mapWords_free, hword]
      by_cases hi : i ∈ ls.map Prod.snd
      · rw [if_pos (List.mem_reverse.2 hi), hfree i hi]
      · rw [if_neg (mt List.mem_reverse.1 hi), if_neg hi]

end Store.Idles

/-- A set has exactly the distinct nodes that are asked for, in ascending rank, in whatever order
and however often they are named. It is had unless a node is missing or the one that is held is not
among them, and then the attempt leaves no trace. -/
theorem LockSet.exclusive_outcome (h : s.Idles ids held) :
    (∀ ids', (∀ id, id ≠ .nil → (id ∈ ids' ↔ id ∈ ids)) →
      (exclusive ids' held : Program K V LockSet) = exclusive ids held) ∧
    (¬ s.Lacks ids held ∧ (∃ ls s', (exclusive ids held).run s (reserving held) = (.ok ls, s') ∧
        s.Taken ids held ls s') ∨
      s.Lacks ids held ∧ ∃ f s',
        (exclusive ids held).run s (reserving held) = (.error (.fault f), s') ∧
          s.Refused ids held f s') := by
  refine ⟨fun ids' => exclusive_congr, ?_⟩
  by_cases hl : s.Lacks ids held
  · exact .inr ⟨hl, h.refused hl⟩
  · exact .inl ⟨hl, h.taken hl⟩

/-- A store whose last node has got the slot of an earlier one; the node before it is reserved. -/
def Store.recycled : Store Nat Nat where
  spin := false
  cells := #[{ node := .reserved }, { node := .reserved }, { node := .entry 1 10 },
    { node := .entry 2 20, word := Latch.Word.free.reserve }, { node := .entry 3 30 }]
  slots := #[some 0, some 1, some 4, some 3]
  vacant := []
  table := .free
  entries := 2
  relocations := 0

theorem Store.sound_recycled : Store.recycled.content.Sound := by
  have hnames : ∀ i < 4, ∀ j < 4, Store.recycled.ref? i = Store.recycled.ref? j → i = j := by decide
  have hmade : ∀ i < 4, ∀ r, Store.recycled.ref? i = some r → r < 5 := by decide
  exact ⟨rfl, rfl, fun i r hi => hmade i (Content.ref_lt hi) r hi, fun i j r hi hj =>
    hnames i (Content.ref_lt hi) j (Content.ref_lt hj) (hi.trans hj.symm), nofun, List.nodup_nil⟩

theorem LockSet.exclusive_outcome_recycled :
    Store.recycled.Idles [2, 0, 3, 2] (some (3, 3)) ∧ ∃ s',
      (exclusive [2, 0, 3, 2] (some (3, 3))).run Store.recycled [.reserving 3] =
          (.ok [(3, 3), (2, 4)], s') ∧
        Store.recycled.Taken [2, 0, 3, 2] (some (3, 3)) [(3, 3), (2, 4)] s' := by
  have hidle : Store.recycled.Idles [2, 0, 3, 2] (some (3, 3)) := by
    refine ⟨Store.sound_recycled, rfl, ?_, ?_⟩
    · rintro m ⟨⟩
      exact ⟨rfl, rfl⟩
    · decide
  have hhas : ¬ Store.recycled.Lacks [2, 0, 3, 2] (some (3, 3)) := by
    rintro (⟨id, hid, hne, hother, hnone⟩ | ⟨m, ⟨⟩, hm⟩)
    · revert id
      decide
    · exact absurd hm (by decide)
  obtain ⟨-, ls, s', hrun, htaken⟩ := (exclusive_outcome hidle).2.resolve_right fun h => hhas h.1
  have hls : (.ok ls : Except Halt LockSet) = .ok [(3, 3), (2, 4)] :=
    (congrArg Prod.fst hrun).symm
  cases hls
  exact ⟨hidle, s', hrun, htaken⟩

end LatchTree
