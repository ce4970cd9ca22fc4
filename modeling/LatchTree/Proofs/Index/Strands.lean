import LatchTree.Proofs.Index.Reached

/-!
Operations of several callers on one index, in any order. What a caller does to its own keys it does to
the entries of those keys only; so if no two callers use equal keys, each gets the same answers in
whatever order the operations are made, and the same entries remain.
-/

namespace LatchTree

variable {K V : Type} {cmp : K → K → Ordering}

/-! ## Entries of some keys only -/

namespace Entries

variable {m m' : Entries K V} {k : K} {v : V} {P : K → Bool}

/-- The entries whose keys have `P`. -/
def only (P : K → Bool) (m : Entries K V) : Entries K V :=
  m.filter fun e => P e.1

@[simp] theorem mem_only {e : K × V} : e ∈ m.only P ↔ e ∈ m ∧ P e.1 = true :=
  List.mem_filter

theorem only_cons (e : K × V) (m : Entries K V) :
    only P (e :: m) = if P e.1 then e :: m.only P else m.only P :=
  List.filter_cons

section

variable (hP : ∀ key, cmp key k = .eq → P key = true)

include hP

theorem get_only (m : Entries K V) : (m.only P).get cmp k = m.get cmp k := by
  induction m with
  | nil => rfl
  | cons e m ih =>
    rw [only_cons]
    by_cases he : cmp e.1 k = .eq
    · rw [if_pos (hP _ he), get, get, if_pos he, if_pos he]
    · split_ifs
      · rw [get, get, if_neg he, if_neg he, ih]
      · rw [get, if_neg he, ih]

theorem only_erase (m : Entries K V) : (m.erase cmp k).only P = (m.only P).erase cmp k := by
  induction m with
  | nil => rfl
  | cons e m ih =>
    rw [only_cons, erase]
    by_cases he : cmp e.1 k = .eq
    · rw [if_pos he, if_pos (hP _ he), erase, if_pos he]
    · rw [if_neg he, only_cons, ih]
      split_ifs
      · rw [erase, if_neg he]
      · rfl

theorem only_set [Std.TransCmp cmp] (hm : m.Ascending cmp) :
    (m.set cmp k v).only P = (m.only P).set cmp k v := by
  have hk : P k = true := hP k Std.ReflCmp.compare_self
  induction m with
  | nil => simp [set, Entries.only, hk]
  | cons e m ih =>
    rw [Ascending, List.pairwise_cons] at hm
    rw [only_cons, set]
    cases he : cmp e.1 k with
    | lt =>
      rw [only_cons, ih hm.2]
      split_ifs
      · rw [set, he]
      · rfl
    | eq =>
      rw [if_pos (hP _ he), set, he, only_cons]
      simp only [hP _ he, if_true]
    | gt =>
      have hgt : ∀ f ∈ only P (e :: m), cmp f.1 k = .gt := by
        intro f hf
        rw [mem_only, List.mem_cons] at hf
        rcases hf.1 with rfl | hmem
        · exact he
        · rw [Std.OrientedCmp.gt_iff_lt] at he ⊢
          exact Std.TransCmp.lt_trans he (hm.1 f hmem)
      rw [← only_cons, set_of_gt hgt, only_cons, if_pos hk]

end

section

variable (hP : ∀ key, cmp key k = .eq → P key = false)

include hP

theorem only_erase_of_not (m : Entries K V) : (m.erase cmp k).only P = m.only P := by
  induction m with
  | nil => rfl
  | cons e m ih =>
    rw [only_cons, erase]
    split_ifs with he hPe hPe
    · exact absurd hPe (by simp [hP _ he])
    · rfl
    · rw [only_cons, if_pos hPe, ih]
    · rw [only_cons, if_neg hPe, ih]

theorem only_set_of_not [Std.ReflCmp cmp] (v : V) (m : Entries K V) :
    (m.set cmp k v).only P = m.only P := by
  have hk : P k = false := hP k Std.ReflCmp.compare_self
  induction m with
  | nil => simp [set, Entries.only, hk]
  | cons e m ih =>
    rw [set]
    cases he : cmp e.1 k with
    | lt => rw [only_cons, only_cons, ih]
    | eq => rw [only_cons, only_cons]; simp only [hP _ he]; rfl
    | gt => rw [only_cons, hk]; rfl

end

/-! ## The order of the keys -/

theorem erase_sublist (cmp : K → K → Ordering) (k : K) (m : Entries K V) :
    (m.erase cmp k).Sublist m := by
  induction m with
  | nil => exact .refl _
  | cons e m ih =>
    rw [erase]
    split_ifs
    · exact List.sublist_cons_self ..
    · exact ih.cons_cons _

theorem mem_set {e : K × V} (he : e ∈ m.set cmp k v) : e.1 = k ∨ ∃ f ∈ m, e.1 = f.1 := by
  induction m with
  | nil => exact .inl (congrArg Prod.fst (List.mem_singleton.1 he))
  | cons f m ih =>
    rw [set] at he
    cases hf : cmp f.1 k with
    | lt =>
      rw [hf] at he
      rcases List.mem_cons.1 he with rfl | he
      · exact .inr ⟨_, List.mem_cons_self, rfl⟩
      · rcases ih he with hk | ⟨g, hg, heq⟩
        · exact .inl hk
        · exact .inr ⟨g, List.mem_cons_of_mem _ hg, heq⟩
    | eq =>
      rw [hf] at he
      rcases List.mem_cons.1 he with rfl | he
      · exact .inr ⟨_, List.mem_cons_self, rfl⟩
      · exact .inr ⟨e, List.mem_cons_of_mem _ he, rfl⟩
    | gt =>
      rw [hf] at he
      rcases List.mem_cons.1 he with rfl | he
      · exact .inl rfl
      · exact .inr ⟨e, he, rfl⟩

theorem Ascending.erase (hm : m.Ascending cmp) (k : K) : (m.erase cmp k).Ascending cmp :=
  hm.sublist (erase_sublist cmp k m)

theorem Ascending.set [Std.TransCmp cmp] (hm : m.Ascending cmp) (k : K) (v : V) :
    (m.set cmp k v).Ascending cmp := by
  induction m with
  | nil => exact List.pairwise_singleton ..
  | cons f m ih =>
    have hm' := hm
    rw [Ascending, List.pairwise_cons] at hm
    rw [Entries.set]
    cases hf : cmp f.1 k with
    | lt =>
      refine List.pairwise_cons.2 ⟨fun e he => ?_, ih hm.2⟩
      rcases mem_set he with hk | ⟨g, hg, heq⟩
      · rwa [hk]
      · rw [heq]
        exact hm.1 g hg
    | eq => exact List.pairwise_cons.2 ⟨hm.1, hm.2⟩
    | gt =>
      have hlt := Std.OrientedCmp.gt_iff_lt.1 hf
      refine List.pairwise_cons.2 ⟨fun e he => ?_, hm'⟩
      rcases List.mem_cons.1 he with rfl | he
      · exact hlt
      · exact Std.TransCmp.lt_trans hlt (hm.1 e he)

/-- Entries in ascending order are told by which they are. -/
theorem Ascending.ext [Std.TransCmp cmp] (hm : m.Ascending cmp) (hm' : m'.Ascending cmp)
    (h : ∀ e, e ∈ m ↔ e ∈ m') : m = m' := by
  have hirrefl : ∀ a : K, cmp a a ≠ .lt := fun a => by simp [Std.ReflCmp.compare_self]
  have hnodup : ∀ {m : Entries K V}, m.Ascending cmp → m.Nodup := by
    refine fun hm => List.Pairwise.imp (fun {a b} hlt => ?_) hm
    rintro rfl
    exact hirrefl _ hlt
  refine ((List.perm_ext_iff_of_nodup (hnodup hm) (hnodup hm')).2 h).eq_of_pairwise ?_ hm hm'
  exact fun a b _ _ hab hba => absurd (Std.TransCmp.lt_trans hab hba) (hirrefl _)

/-! ## Operations -/

variable {o : Index.Op K V} [Std.TransCmp cmp]

theorem Ascending.op (hm : m.Ascending cmp) (o : Index.Op K V) :
    (m.op cmp o).2.Ascending cmp := by
  obtain ⟨k, act⟩ := o
  cases act with
  | set v | insert v => exact hm.set k v
  | remove | erase => exact hm.erase k
  | lookup => exact hm

/-- An operation is one on the entries with `P`, if these are all that its key may be equal to. -/
theorem op_only (hm : m.Ascending cmp) (hP : ∀ key, cmp key o.key = .eq → P key = true) :
    ((m.only P).op cmp o).1 = (m.op cmp o).1 ∧
      ((m.only P).op cmp o).2 = (m.op cmp o).2.only P := by
  refine ⟨congrArg o.reply (get_only hP m), ?_⟩
  obtain ⟨k, act⟩ := o
  cases act with
  | set v | insert v => exact (only_set hP hm).symm
  | remove | erase => exact (only_erase hP m).symm
  | lookup => rfl

theorem op_only_of_not (hP : ∀ key, cmp key o.key = .eq → P key = false) :
    (m.op cmp o).2.only P = m.only P := by
  obtain ⟨k, act⟩ := o
  cases act with
  | set v | insert v => exact only_set_of_not hP v m
  | remove | erase => exact only_erase_of_not hP m
  | lookup => rfl

theorem Ascending.ops (hm : m.Ascending cmp) (os : List (Index.Op K V)) :
    (m.ops cmp os).2.Ascending cmp := by
  induction os generalizing m with
  | nil => exact hm
  | cons o os ih => exact ih (hm.op o)

end Entries

/-! ## Strands -/

section

variable {ι α : Type}

/-- What is tagged with a tag that has `p`, in order. -/
def strand (p : ι → Bool) (w : List (ι × α)) : List α :=
  (w.filter fun a => p a.1).map Prod.snd

theorem strand_cons (p : ι → Bool) (a : ι × α) (w : List (ι × α)) :
    strand p (a :: w) = if p a.1 then a.2 :: strand p w else strand p w := by
  rw [strand, List.filter_cons]
  split_ifs <;> rfl

/-- The list `w` is made of the lists `f i`, in any order, each in its own. -/
def Interleaves [DecidableEq ι] (f : ι → List α) (w : List (ι × α)) : Prop :=
  ∀ i, strand (· = i) w = f i

theorem Interleaves.mem [DecidableEq ι] {f : ι → List α} {w : List (ι × α)} (hw : Interleaves f w)
    {a : ι × α} (ha : a ∈ w) : a.2 ∈ f a.1 := by
  rw [← hw a.1]
  exact List.mem_map.2 ⟨a, List.mem_filter.2 ⟨ha, by simp⟩, rfl⟩

/-- The answers with the tags of what was asked. -/
def Entries.replies (cmp : K → K → Ordering) (m : Entries K V) (w : List (ι × Index.Op K V)) :
    List (ι × Index.Reply K V) :=
  (w.map Prod.fst).zip (m.ops cmp (w.map Prod.snd)).1

/-- A strand whose keys are not equal to those of the others runs as if it were alone, on the entries of
its keys. -/
theorem Entries.ops_strand [Std.TransCmp cmp] {m : Entries K V} (hm : m.Ascending cmp) {p : ι → Bool}
    {P : K → Bool} {w : List (ι × Index.Op K V)}
    (hP : ∀ a ∈ w, ∀ key, cmp key a.2.key = .eq → P key = p a.1) :
    (m.only P).ops cmp (strand p w) =
      (strand p (m.replies cmp w), (m.ops cmp (w.map Prod.snd)).2.only P) := by
  induction w generalizing m with
  | nil => rfl
  | cons a w ih =>
    rw [List.forall_mem_cons] at hP
    have hrest := ih (hm.op a.2) hP.2
    rw [strand_cons, Entries.replies, List.map_cons, List.map_cons, Entries.ops]
    simp only [Prod.map_fst, Prod.map_snd, List.zip_cons_cons, strand_cons, id]
    split_ifs with hp
    · obtain ⟨hreply, hafter⟩ := op_only hm fun key hkey => (hP.1 key hkey).trans hp
      rw [Entries.ops, hreply, hafter, hrest]
      rfl
    · rw [← op_only_of_not fun key hkey => (hP.1 key hkey).trans (by simpa using hp), hrest]
      rfl

variable [DecidableEq ι] {f : ι → List (Index.Op K V)}

/-- No two lists use equal keys. -/
def Apart (cmp : K → K → Ordering) (f : ι → List (Index.Op K V)) : Prop :=
  ∀ i j, i ≠ j → ∀ a ∈ f i, ∀ b ∈ f j, cmp a.key b.key ≠ .eq

/-- The keys that are equal to some key of the list. -/
def Index.Op.covers (cmp : K → K → Ordering) (os : List (Index.Op K V)) (key : K) : Bool :=
  os.any fun o => cmp key o.key = .eq

theorem Apart.covers [Std.TransCmp cmp] (hf : Apart cmp f) {w : List (ι × Index.Op K V)}
    (hw : Interleaves f w) (i : ι) : ∀ a ∈ w, ∀ key, cmp key a.2.key = .eq →
      Index.Op.covers cmp (f i) key = decide (a.1 = i) := by
  intro a ha key hkey
  have hmem := hw.mem ha
  rw [Bool.eq_iff_iff, Index.Op.covers, List.any_eq_true, decide_eq_true_iff]
  constructor
  · -- the key of a list is equal to none of another one
    rintro ⟨o, ho, hko⟩
    by_contra hne
    refine hf i a.1 (Ne.symm hne) o ho a.2 hmem ?_
    exact Std.TransCmp.eq_trans (Std.OrientedCmp.eq_symm (of_decide_eq_true hko)) hkey
  · rintro rfl
    exact ⟨a.2, hmem, decide_eq_true hkey⟩

/-- Each list is answered, and changes the entries of its keys, as if it were alone. -/
theorem Apart.ops [Std.TransCmp cmp] (hf : Apart cmp f) {m : Entries K V} (hm : m.Ascending cmp)
    {w : List (ι × Index.Op K V)} (hw : Interleaves f w) (i : ι) :
    (m.only (Index.Op.covers cmp (f i))).ops cmp (f i) = (strand (· = i) (m.replies cmp w),
      (m.ops cmp (w.map Prod.snd)).2.only (Index.Op.covers cmp (f i))) := by
  have h := Entries.ops_strand hm (p := (· = i)) (hf.covers hw i)
  rwa [hw i] at h

/-- Entries whose keys no list uses stay. -/
theorem Interleaves.ops_rest [Std.TransCmp cmp] {m : Entries K V} (hm : m.Ascending cmp)
    {w : List (ι × Index.Op K V)} (hw : Interleaves f w) {e : K × V}
    (he : ∀ i, Index.Op.covers cmp (f i) e.1 = false) :
    e ∈ (m.ops cmp (w.map Prod.snd)).2 ↔ e ∈ m := by
  classical
  let P : K → Bool := fun key => decide (∀ i, Index.Op.covers cmp (f i) key = false)
  have hP : ∀ a ∈ w, ∀ key, cmp key a.2.key = .eq → P key = (fun _ => false) a.1 := by
    intro a ha key hkey
    refine decide_eq_false fun h => absurd (h a.1) ?_
    rw [Bool.not_eq_false, Index.Op.covers, List.any_eq_true]
    exact ⟨a.2, hw.mem ha, decide_eq_true hkey⟩
  have h := congrArg Prod.snd (Entries.ops_strand (p := fun _ => false) (P := P) hm hP)
  have hnone : strand (fun _ => false) w = [] := by simp [strand]
  rw [hnone] at h
  have hmem : ∀ m : Entries K V, e ∈ m.only P ↔ e ∈ m := fun m => by simp [P, he]
  rw [← hmem, ← hmem m]
  exact (congrArg (e ∈ ·) h).symm.to_iff

/-- The answers to each list, and the entries that remain, do not depend on the order in which the lists
are interleaved. -/
theorem Apart.agree [Std.TransCmp cmp] (hf : Apart cmp f) {m : Entries K V} (hm : m.Ascending cmp)
    {w w' : List (ι × Index.Op K V)} (hw : Interleaves f w) (hw' : Interleaves f w') :
    (∀ i, strand (· = i) (m.replies cmp w) = strand (· = i) (m.replies cmp w')) ∧
      (m.ops cmp (w.map Prod.snd)).2 = (m.ops cmp (w'.map Prod.snd)).2 := by
  have heq : ∀ i, _ := fun i => Prod.mk.inj ((hf.ops hm hw i).symm.trans (hf.ops hm hw' i))
  refine ⟨fun i => (heq i).1, (hm.ops _).ext (hm.ops _) fun e => ?_⟩
  -- the key of an entry is used by no list, or by one that has it to itself
  by_cases he : ∀ i, Index.Op.covers cmp (f i) e.1 = false
  · rw [hw.ops_rest hm he, hw'.ops_rest hm he]
  · obtain ⟨i, hi⟩ := not_forall.1 he
    have hP : Index.Op.covers cmp (f i) e.1 = true := by simpa using hi
    have hmem : ∀ m : Entries K V, e ∈ m.only (Index.Op.covers cmp (f i)) ↔ e ∈ m := fun m => by
      simp [hP]
    rw [← hmem, (heq i).2, hmem]

end

/-! ## The index -/

namespace Index

variable {ix : Index K V}

/-- Operations of several callers, whose keys are never equal, in two orders that keep the order of each
caller: from the same index they all get the same answers, and the entries that remain, with the keys as
they are stored, are the same. -/
theorem Reached.interleavings_agree [Std.TransCmp cmp] (hix : ix.Reached cmp)
    (hm : ix.mutex.poisoned = false) {ι : Type} [DecidableEq ι] {f : ι → List (Op K V)}
    (hf : Apart cmp f) {w w' : List (ι × Op K V)} (hw : Interleaves f w) (hw' : Interleaves f w') :
    ∃ rs ix₁ t₁ rs' ix₂ t₂,
      ix.calls cmp (w.map fun a => .op a.2) = (.ok rs, ix₁) ∧ rs.length = w.length ∧
      ix.calls cmp (w'.map fun a => .op a.2) = (.ok rs', ix₂) ∧ rs'.length = w'.length ∧
      (∀ i, strand (· = i) ((w.map Prod.fst).zip rs) = strand (· = i) ((w'.map Prod.fst).zip rs')) ∧
      Heap.FreshTree ix₁.store.node? t₁ ∧ Heap.FreshTree ix₂.store.node? t₂ ∧
      t₁.rows.map (fun a => (a.key, a.value)) = t₂.rows.map (fun a => (a.key, a.value)) ∧
      ix₁.len = ix₂.len := by
  obtain ⟨hidle, ⟨t, m, hreads⟩, -⟩ := hix.orderly
  have hasc : m.Ascending cmp := hreads.entries ▸ hreads.sorted.entries_ascending
  obtain ⟨hreplies, hentries⟩ := hf.agree hasc hw hw'
  have hrun : ∀ w : List (ι × Op K V), ∃ s' t', ix.calls cmp (w.map fun a => .op a.2) =
      (.ok (m.ops cmp (w.map Prod.snd)).1, { ix with store := s' }) ∧
      s'.Reads cmp t' (m.ops cmp (w.map Prod.snd)).2 := by
    intro w
    have h := hidle.ops_reads hm hreads (w.map Prod.snd)
    rwa [List.map_map] at h
  have hlength : ∀ w : List (ι × Op K V), (m.ops cmp (w.map Prod.snd)).1.length = w.length :=
    fun w => (Entries.length_ops ..).trans (List.length_map _)
  obtain ⟨s₁, t₁, hrun₁, h₁⟩ := hrun w
  obtain ⟨s₂, t₂, hrun₂, h₂⟩ := hrun w'
  refine ⟨_, _, t₁, _, _, t₂, hrun₁, hlength w, hrun₂, hlength w', hreplies,
    h₁.unlatched.settled.tidy.tree, h₂.unlatched.settled.tidy.tree, ?_, ?_⟩
  · rw [Entries.map_ofRows h₁.unlatched.settled.filled, Entries.map_ofRows h₂.unlatched.settled.filled,
      show Entries.ofRows t₁.rows = _ from h₁.entries, show Entries.ofRows t₂.rows = _ from h₂.entries,
      hentries]
  · exact h₁.len.trans (hentries ▸ h₂.len.symm)

/-- An index with one entry. -/
def oneEntry : Index ℕ ℕ :=
  ((ofConfig ⟨"rbt", .coupled, true⟩).call compare (.op ⟨5, .set 50⟩)).2

/-- What two callers ask, each of keys of its own. -/
def twoCallers : Bool → List (Op ℕ ℕ)
  | true => [⟨1, .set 10⟩, ⟨1, .lookup⟩]
  | false => [⟨9, .set 90⟩, ⟨8, .insert 80⟩, ⟨9, .erase⟩]

/-- One caller after the other. -/
def inTurn : List (Bool × Op ℕ ℕ) :=
  [(true, ⟨1, .set 10⟩), (true, ⟨1, .lookup⟩), (false, ⟨9, .set 90⟩), (false, ⟨8, .insert 80⟩),
    (false, ⟨9, .erase⟩)]

def mixed : List (Bool × Op ℕ ℕ) :=
  [(false, ⟨9, .set 90⟩), (true, ⟨1, .set 10⟩), (false, ⟨8, .insert 80⟩), (false, ⟨9, .erase⟩),
    (true, ⟨1, .lookup⟩)]

/-- The entries are the same, but not their slots. -/
theorem Reached.interleavings_agree_twoCallers : ∃ rs ix₁ t₁ rs' ix₂ t₂,
    oneEntry.calls compare (inTurn.map fun a => .op a.2) = (.ok rs, ix₁) ∧
    oneEntry.calls compare (mixed.map fun a => .op a.2) = (.ok rs', ix₂) ∧
    (∀ i, strand (· = i) ((inTurn.map Prod.fst).zip rs) =
      strand (· = i) ((mixed.map Prod.fst).zip rs')) ∧
    Heap.FreshTree ix₁.store.node? t₁ ∧ Heap.FreshTree ix₂.store.node? t₂ ∧
    t₁.rows.map (fun a => (a.key, a.value)) = t₂.rows.map (fun a => (a.key, a.value)) ∧
    ix₁.len = ix₂.len ∧ (ix₁.store.node? 3).map Node.key ≠ (ix₂.store.node? 3).map Node.key := by
  have hix : oneEntry.Reached compare := .call (.start _) _
  have hf : Apart compare twoCallers := by
    unfold Apart
    decide
  have hw : Interleaves twoCallers inTurn := by
    unfold Interleaves
    decide
  have hw' : Interleaves twoCallers mixed := by
    unfold Interleaves
    decide
  obtain ⟨rs, ix₁, t₁, rs', ix₂, t₂, hrun, -, hrun', -, hreplies, hb, hb', hrows, hlen⟩ :=
    hix.interleavings_agree (by decide +kernel) hf hw hw'
  refine ⟨rs, ix₁, t₁, rs', ix₂, t₂, hrun, hrun', hreplies, hb, hb', hrows, hlen, ?_⟩
  rw [show ix₁ = _ from (congrArg Prod.snd hrun).symm,
    show ix₂ = _ from (congrArg Prod.snd hrun').symm]
  decide +kernel

end Index

end LatchTree
