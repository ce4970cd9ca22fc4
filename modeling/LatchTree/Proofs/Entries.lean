import LatchTree.Proofs.Updates

/-!
The entries of a tree as a list in ascending order of keys, and what updates and searches mean for it.
-/

namespace LatchTree

variable {K V : Type} {cmp : K → K → Ordering} {k : K} {v : V}

/-! ## Maps as lists -/

/-- A finite map: keys and their values in ascending order of the keys. -/
abbrev Entries (K V : Type) := List (K × V)

namespace Entries

def Ascending (cmp : K → K → Ordering) (m : Entries K V) : Prop :=
  m.Pairwise fun a b => cmp a.1 b.1 = .lt

/-- The value of the key that is equal to `k`. -/
def get (cmp : K → K → Ordering) (k : K) : Entries K V → Option V
  | [] => none
  | (key, w) :: m => if cmp key k = .eq then some w else get cmp k m

/-- Gives `k` the value `v`. A key that is equal to `k` is kept. -/
def set (cmp : K → K → Ordering) (k : K) (v : V) : Entries K V → Entries K V
  | [] => [(k, v)]
  | (key, w) :: m =>
    match cmp key k with
    | .lt => (key, w) :: set cmp k v m
    | .eq => (key, v) :: m
    | .gt => (k, v) :: (key, w) :: m

/-- Takes out the key that is equal to `k`. -/
def erase (cmp : K → K → Ordering) (k : K) : Entries K V → Entries K V
  | [] => []
  | (key, w) :: m => if cmp key k = .eq then m else (key, w) :: erase cmp k m

variable {m m' : Entries K V} {key : K} {w : V}

theorem get_append (hm : ∀ e ∈ m, cmp e.1 k = .lt) : get cmp k (m ++ m') = get cmp k m' := by
  induction m with
  | nil => rfl
  | cons e m ih =>
    rw [List.forall_mem_cons] at hm
    simp [get, hm.1, ih hm.2]

theorem get_of_gt (hm : ∀ e ∈ m, cmp e.1 k = .gt) : get cmp k m = none := by
  induction m with
  | nil => rfl
  | cons e m ih =>
    rw [List.forall_mem_cons] at hm
    simp [get, hm.1, ih hm.2]

theorem set_append (hm : ∀ e ∈ m, cmp e.1 k = .lt) :
    set cmp k v (m ++ m') = m ++ set cmp k v m' := by
  induction m with
  | nil => rfl
  | cons e m ih =>
    rw [List.forall_mem_cons] at hm
    simp [set, hm.1, ih hm.2]

theorem set_of_gt (hm : ∀ e ∈ m, cmp e.1 k = .gt) : set cmp k v m = (k, v) :: m := by
  cases m with
  | nil => rfl
  | cons e m =>
    rw [List.forall_mem_cons] at hm
    simp [set, hm.1]

theorem erase_append (hm : ∀ e ∈ m, cmp e.1 k = .lt) :
    erase cmp k (m ++ m') = m ++ erase cmp k m' := by
  induction m with
  | nil => rfl
  | cons e m ih =>
    rw [List.forall_mem_cons] at hm
    simp [erase, hm.1, ih hm.2]

theorem erase_of_gt (hm : ∀ e ∈ m, cmp e.1 k = .gt) : erase cmp k m = m := by
  induction m with
  | nil => rfl
  | cons e m ih =>
    rw [List.forall_mem_cons] at hm
    simp [erase, hm.1, ih hm.2]

end Entries

/-! ## The entries of a tree -/

def Row.entry (a : Row K V) : Option (K × V) :=
  a.key.bind fun k => a.value.map fun v => (k, v)

theorem Row.entry_eq_some {a : Row K V} {e : K × V} :
    a.entry = some e ↔ a.key = some e.1 ∧ a.value = some e.2 := by
  obtain ⟨i, key, value⟩ := a
  cases key <;> cases value <;> simp [entry, Prod.ext_iff]

/-- The entries of rows, in their order. -/
def Entries.ofRows (rows : List (Row K V)) : Entries K V :=
  rows.filterMap Row.entry

namespace Entries

variable {rows rows' : List (Row K V)} {a : Row K V}

@[simp] theorem ofRows_append : ofRows (rows ++ rows') = ofRows rows ++ ofRows rows' :=
  List.filterMap_append ..

theorem ofRows_cons {e : K × V} (h : a.entry = some e) :
    ofRows (a :: rows) = e :: ofRows rows :=
  List.filterMap_cons_some h

theorem forall_ofRows {o : Ordering} (h : ∀ a ∈ rows, a.order cmp k = o) :
    ∀ e ∈ ofRows rows, cmp e.1 k = o := by
  intro e he
  obtain ⟨a, ha, hentry⟩ := List.mem_filterMap.1 he
  have hkey := (Row.entry_eq_some.1 hentry).1
  simpa [Row.order, hkey] using h a ha

/-- All rows read as entries if none lacks a key or a value. -/
theorem map_ofRows (h : ∀ a ∈ rows, a.key ≠ none ∧ a.value ≠ none) :
    rows.map (fun a => (a.key, a.value)) =
      (ofRows rows).map fun e => (some e.1, some e.2) := by
  induction rows with
  | nil => rfl
  | cons a rows ih =>
    rw [List.forall_mem_cons] at h
    obtain ⟨⟨hkey, hvalue⟩, h⟩ := h
    obtain ⟨key, hkey⟩ := Option.ne_none_iff_exists'.1 hkey
    obtain ⟨value, hvalue⟩ := Option.ne_none_iff_exists'.1 hvalue
    rw [ofRows_cons (e := (key, value)) (Row.entry_eq_some.2 ⟨hkey, hvalue⟩), List.map_cons,
      List.map_cons, ih h, hkey, hvalue]

theorem length_ofRows (h : ∀ a ∈ rows, a.key ≠ none ∧ a.value ≠ none) :
    (ofRows rows).length = rows.length := by
  simpa using (congrArg List.length (map_ofRows h)).symm

end Entries

namespace Shape

variable {t : Shape K V} {p : Path K V} {c : Color} {l r : Shape K V} {a : Row K V}

def entries (t : Shape K V) : Entries K V :=
  .ofRows t.rows

theorem Sorted.entries_ascending (hs : t.Sorted cmp) : t.entries.Ascending cmp := by
  refine hs.ascending.filterMap _ fun a b hab e he f hf => ?_
  obtain ⟨x, y, hx, hy, hxy⟩ := hab
  obtain rfl := Option.some.inj (hx.symm.trans (Row.entry_eq_some.1 he).1)
  obtain rfl := Option.some.inj (hy.symm.trans (Row.entry_eq_some.1 hf).1)
  exact hxy

/-- What a search for `k` finds. -/
inductive Finds (cmp : K → K → Ordering) (k : K) (t : Shape K V) : Option V → Prop
  | present {p : Path K V} {c : Color} {l r : Shape K V} {a : Row K V}
      (ht : t = p.plug (.node c l a r)) (hp : p.Leads cmp k) (ha : a.order cmp k = .eq) :
      Finds cmp k t a.value
  | absent {p : Path K V} (ht : t = p.plug .nil) (hp : p.Leads cmp k) : Finds cmp k t none

/-- The answer of a search for `k`, which goes down by what the nodes compare. -/
def found (cmp : K → K → Ordering) (k : K) : Shape K V → Option V
  | nil => none
  | node _ l a r => match a.order cmp k with
    | .gt => l.found cmp k
    | .lt => r.found cmp k
    | .eq => a.value

theorem found_of_eq (ha : a.order cmp k = .eq) : (node c l a r).found cmp k = a.value := by
  simp [found, ha]

theorem found_plug (hp : p.Leads cmp k) :
    (p.plug t).found cmp k = t.found cmp k := by
  induction p generalizing t with
  | top => rfl
  | under d c a u p ih =>
    obtain ⟨ha, hp⟩ := hp
    rw [Path.plug_under, ih hp]
    cases d <;> simp [join, found, ha, Side.ordering]

theorem finds_found (cmp : K → K → Ordering) (k : K) (t : Shape K V) :
    t.Finds cmp k (t.found cmp k) := by
  have hplug : ∀ p : Path K V, p.Leads cmp k → (p.plug t).Finds cmp k (t.found cmp k) := by
    induction t with
    | nil => exact fun p hp => .absent rfl hp
    | node c l a r ihl ihr =>
      intro p hp
      cases ha : a.order cmp k with
      | gt =>
        simp only [found, ha]
        exact ihl (.under .left c a r p) ⟨ha, hp⟩
      | lt =>
        simp only [found, ha]
        exact ihr (.under .right c a l p) ⟨ha, hp⟩
      | eq =>
        simp only [found, ha]
        exact .present rfl hp ha
  exact hplug .top trivial

theorem Finds.eq_found {o : Option V} (h : t.Finds cmp k o) : o = t.found cmp k := by
  cases h with
  | present ht hp ha => rw [ht, found_plug hp, found_of_eq ha]
  | absent ht hp => rw [ht, found_plug hp, found]

theorem Removes.sublist {o : Option V} {rows : List (Row K V)} (h : t.Removes cmp k o rows) :
    rows.Sublist t.rows := by
  cases h with
  | @present p c l r a ht hp ha =>
    rw [ht, Path.rows_plug, Shape.rows]
    refine (List.Sublist.append_left ?_ _).append_right _
    exact (List.sublist_cons_self ..).append_left _
  | absent ht hp => exact .refl _

theorem Removes.sorted {o : Option V} {t' : Shape K V} (h : t.Removes cmp k o t'.rows)
    (hs : t.Sorted cmp) : t'.Sorted cmp :=
  hs.sublist h.sublist

variable [Std.TransCmp cmp]

/-- Around the node that is equal to `k`. -/
theorem Sorted.around (hs : (p.plug (node c l a r)).Sorted cmp) (hp : p.Leads cmp k)
    (ha : a.order cmp k = .eq) : (∀ b ∈ p.before ++ l.rows, b.order cmp k = .lt) ∧
      ∀ b ∈ r.rows ++ p.after, b.order cmp k = .gt := by
  have hj := (Path.sorted_of_plug hs).join (d := .left)
  constructor
  · intro b hb
    rcases List.mem_append.1 hb with hb | hb
    · exact hp.before hs b hb
    · exact Row.Before.order_lt (hj.1 b hb) (by simp [ha])
  · intro b hb
    rcases List.mem_append.1 hb with hb | hb
    · exact Row.Before.order_gt (hj.2 b hb) (by simp [ha])
    · exact hp.after hs b hb

theorem entries_node {e : K × V} (he : a.entry = some e) : (p.plug (node c l a r)).entries =
    Entries.ofRows (p.before ++ l.rows) ++ e :: Entries.ofRows (r.rows ++ p.after) := by
  rw [← Entries.ofRows_cons he, ← Entries.ofRows_append, entries, Path.rows_plug, rows]
  simp

theorem Filled.entry (hf : (p.plug (node c l a r)).Filled) :
    ∃ e, a.entry = some e ∧ a.key = some e.1 ∧ a.value = some e.2 := by
  obtain ⟨hkey, hvalue⟩ := hf a (by simp [Path.rows_plug, rows])
  obtain ⟨key, hkey⟩ := Option.ne_none_iff_exists'.1 hkey
  obtain ⟨value, hvalue⟩ := Option.ne_none_iff_exists'.1 hvalue
  exact ⟨(key, value), Row.entry_eq_some.2 ⟨hkey, hvalue⟩, hkey, hvalue⟩

theorem Finds.eq_get {o : Option V} (h : t.Finds cmp k o) (hs : t.Sorted cmp) (hf : t.Filled) :
    o = t.entries.get cmp k := by
  cases h with
  | @present p c l r a ht hp ha =>
    subst ht
    obtain ⟨e, he, hkey, hvalue⟩ := hf.entry
    have hek : cmp e.1 k = .eq := by simpa [Row.order, hkey] using ha
    rw [entries_node he, Entries.get_append (Entries.forall_ofRows (hs.around hp ha).1), hvalue]
    simp [Entries.get, hek]
  | @absent p ht hp =>
    subst ht
    rw [entries, Path.rows_plug, rows, List.append_nil, Entries.ofRows_append,
      Entries.get_append (Entries.forall_ofRows (hp.before hs)),
      Entries.get_of_gt (Entries.forall_ofRows (hp.after hs))]

theorem Sorted.found_eq_get (hs : t.Sorted cmp) (hf : t.Filled) :
    t.found cmp k = t.entries.get cmp k :=
  (finds_found cmp k t).eq_get hs hf

theorem Sets.eq_set {o : Option V} {rows : List (Row K V)} (h : t.Sets cmp k v o rows)
    (hs : t.Sorted cmp) (hf : t.Filled) :
    o = t.entries.get cmp k ∧ Entries.ofRows rows = t.entries.set cmp k v := by
  cases h with
  | @present p c l r a ht hp ha =>
    subst ht
    refine ⟨(Finds.present rfl hp ha).eq_get hs hf, ?_⟩
    obtain ⟨e, he, hkey, hvalue⟩ := hf.entry
    have hek : cmp e.1 k = .eq := by simpa [Row.order, hkey] using ha
    have he' : Row.entry { a with value := some v } = some (e.1, v) :=
      Row.entry_eq_some.2 ⟨hkey, rfl⟩
    rw [entries_node he, Entries.set_append (Entries.forall_ofRows (hs.around hp ha).1),
      Entries.set, hek]
    simp only [Entries.ofRows_append, Entries.ofRows_cons he', List.append_assoc, List.cons_append]
  | @absent p i ht hp =>
    subst ht
    refine ⟨(Finds.absent rfl hp).eq_get hs hf, ?_⟩
    rw [entries, Path.rows_plug, Shape.rows, List.append_nil, Entries.ofRows_append,
      Entries.ofRows_append, Entries.ofRows_append,
      Entries.set_append (Entries.forall_ofRows (hp.before hs)),
      Entries.set_of_gt (Entries.forall_ofRows (hp.after hs)), List.append_assoc]
    rfl

theorem Removes.eq_erase {o : Option V} {rows : List (Row K V)} (h : t.Removes cmp k o rows)
    (hs : t.Sorted cmp) (hf : t.Filled) :
    o = t.entries.get cmp k ∧ Entries.ofRows rows = t.entries.erase cmp k := by
  cases h with
  | @present p c l r a ht hp ha =>
    subst ht
    refine ⟨(Finds.present rfl hp ha).eq_get hs hf, ?_⟩
    obtain ⟨e, he, hkey, hvalue⟩ := hf.entry
    have hek : cmp e.1 k = .eq := by simpa [Row.order, hkey] using ha
    rw [entries_node he, Entries.erase_append (Entries.forall_ofRows (hs.around hp ha).1),
      Entries.erase, if_pos hek]
    simp only [Entries.ofRows_append, List.append_assoc]
  | @absent p ht hp =>
    subst ht
    refine ⟨(Finds.absent rfl hp).eq_get hs hf, ?_⟩
    rw [entries, Path.rows_plug, Shape.rows, List.append_nil, Entries.ofRows_append,
      Entries.erase_append (Entries.forall_ofRows (hp.before hs)),
      Entries.erase_of_gt (Entries.forall_ofRows (hp.after hs))]

/-! ## Order after an update -/

theorem Sets.sorted {o : Option V} {t' : Shape K V} (h : t.Sets cmp k v o t'.rows)
    (hs : t.Sorted cmp) : t'.Sorted cmp := by
  generalize hrows : t'.rows = rows at h
  cases h with
  | @present p c l r a ht hp ha =>
    subst ht
    refine sorted_congr ?_ hs
    rw [keys, keys, hrows, Path.rows_plug, Shape.rows]
    simp
  | @absent p i ht hp =>
    subst ht
    refine sorted_congr ?_ (hp.sorted_link (c := .red) (a := ⟨i, some k, some v⟩) rfl hs)
    rw [keys, keys, hrows, Path.rows_plug, Shape.rows]
    simp [Shape.rows]

end Shape

end LatchTree
