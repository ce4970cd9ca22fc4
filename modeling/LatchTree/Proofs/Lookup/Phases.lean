import LatchTree.Proofs.Lookup.Place

/-!
The phases of a lookup: what it holds in each, what it relies on, and where it stands. A request of its
own keeps that, and so does whatever a writer does, which cannot touch the nodes that are held.
-/

namespace LatchTree

variable {K V : Type} {cmp : K → K → Ordering} {k : K} {x x' : Content K V} {t t' : Shape K V}
  {r : Ref} {i : NodeId} {g : Grips} {n n' o : Ref → Nat} {s : Store K V}

/-- The node that the request asks to enter as a reader. -/
def Request.entered : Request K V → Option Ref
  | .read r | .tryRead r => some r
  | _ => none

/-! ## Readers in the words -/

namespace Store.Shows

theorem enter (hs : s.Shows n g) (hr : r < s.content.made) (hroom : n r + 3 < Latch.Word.room)
    (hen : (s.word r).admitsReader = true) (hn : ∀ i, n' i = if i = r then n i + 1 else n i) :
    (s.mapWord r .enter).Shows n' g := by
  have hfits := hs.fits r
  rw [hs.word, Latch.Word.admitsReader_compose (Nat.lt_of_succ_lt hfits), Bool.and_eq_true,
    Bool.not_eq_true', Bool.not_eq_true'] at hen
  refine ⟨hs.table, fun i => ?_, fun i => ?_, hs.few, fun i hi => ?_⟩
  · rw [word_mapWord, hn]
    by_cases hi : i = r
    · subst hi
      rw [if_pos ⟨rfl, hr⟩, if_pos rfl, hs.word, Latch.Word.enter_compose hfits]
      congr 1
      omega
    · rw [if_neg fun h => hi h.1, if_neg hi, hs.word]
  · have hroom' := hs.room i
    rw [hn]
    split_ifs with hi
    · subst hi
      omega
    · exact hroom'
  · rw [hn, if_neg]
    · exact hs.alone i hi
    · rintro rfl
      exact absurd (hi.symm.trans hen.2) (by simp)

theorem leave (hs : s.Shows n g) (hr : r < s.content.made)
    (hn : ∀ i, n i = if i = r then n' i + 1 else n' i) : (s.mapWord r .leave).Shows n' g := by
  have hfits := hs.fits r
  refine ⟨hs.table, fun i => ?_, fun i => ?_, hs.few, fun i hi => ?_⟩
  · rw [word_mapWord, hs.word, hn i]
    by_cases hi : i = r
    · subst hi
      rw [if_pos ⟨rfl, hr⟩, if_pos rfl]
      rw [hn, if_pos rfl] at hfits
      rw [show n' i + 1 + (g i).readers = n' i + (g i).readers + 1 by omega,
        Latch.Word.leave_compose (by omega)]
    · rw [if_neg fun h => hi h.1, if_neg hi]
  · have hroom := hs.room i
    rw [hn] at hroom
    split_ifs at hroom <;> omega
  · have halone := hs.alone i hi
    rw [hn] at halone
    split_ifs at halone
    exact halone

end Store.Shows

/-! ## Phases -/

namespace Lookup

/-- The nodes that it holds. -/
def nodes : Lookup K V → List Ref
  | start | atTop _ | entering _ _ | apart _ _ _ _ | finished _ => []
  | missed _ cur | resolving _ cur _ _ | stepping _ cur _ _ _ | backing _ cur _ _
  | againParent _ cur _ _ _ | answering cur _ => [cur]
  | againChild _ _ _ child _ => [child]
  | moving _ cur child _ | checking _ cur _ child _ => [cur, child]
  | retreating first rest => first :: rest

/-- The node that it has come to. -/
def place : Lookup K V → Option Ref
  | missed _ cur | resolving _ cur _ _ | stepping _ cur _ _ _ | answering cur _ => some cur
  | moving _ _ child _ => some child
  | start | atTop _ | entering _ _ | backing _ _ _ _ | apart _ _ _ _ | againParent _ _ _ _ _
  | againChild _ _ _ _ _ | checking _ _ _ _ _ | retreating _ _ | finished _ => none

/-- The count of relocations that it has seen at the start of its pass. -/
def seen : Lookup K V → Option UInt64
  | atTop seen | entering seen _ | missed seen _ | resolving seen _ _ _ | stepping seen _ _ _ _
  | moving seen _ _ _ | backing seen _ _ _ | apart seen _ _ _ | againParent seen _ _ _ _
  | againChild seen _ _ _ _ | checking seen _ _ _ _ => some seen
  | start | retreating _ _ | answering _ _ | finished _ => none

/-- It is not about to let go of a node before it has the child, nor has it done so. -/
def Coupled : Lookup K V → Prop
  | backing _ _ _ _ | apart _ _ _ _ | againParent _ _ _ _ _ | againChild _ _ _ _ _
  | checking _ _ _ _ _ => False
  | _ => True

/-- What it relies on. -/
def Fits (cmp : K → K → Ordering) (k : K) (x : Content K V) (t : Shape K V) : Lookup K V → Prop
  | start | atTop _ | finished _ => True
  | entering _ top => top = 1
  | missed _ cur => (∃ i, x.At t cur i) ∧ (x.node cur).order cmp k ≠ .eq ∧
      (x.node cur).towards cmp k = .nil
  | resolving _ cur n next => (∃ i, x.At t cur i) ∧ x.node cur = n ∧ n.order cmp k ≠ .eq ∧
      n.towards cmp k = next ∧ next ≠ .nil
  | stepping _ cur n next child => (∃ i, x.At t cur i) ∧ x.node cur = n ∧ n.order cmp k ≠ .eq ∧
      n.towards cmp k = next ∧ next ≠ .nil ∧ x.ref? next = some child
  | moving _ cur child m => cur < x.made ∧ (∃ i, x.At t child i) ∧ x.node child = m
  | backing _ cur next child | apart _ cur next child =>
      cur < x.made ∧ child < x.made ∧ next ≠ .nil
  | againParent _ cur n next child => cur < x.made ∧ child < x.made ∧ next ≠ .nil ∧ x.node cur = n
  | againChild _ cur next child m => cur < x.made ∧ child < x.made ∧ next ≠ .nil ∧ x.node child = m
  | checking _ cur next child m => cur < x.made ∧ child < x.made ∧ next ≠ .nil ∧
      x.node child = m ∧ (x.node cur).towards cmp k = next
  | retreating first rest => first < x.made ∧ (∀ r ∈ rest, r < x.made) ∧ rest.length ≤ 1
  | answering cur v => (∃ i, x.At t cur i) ∧
      if (x.node cur).order cmp k = .eq then (x.node cur).value = v
      else (x.node cur).towards cmp k = .nil ∧ v = none

variable {l : Lookup K V}

/-- A node that is held and will be entered is in the tree. -/
theorem Fits.at_place (hl : l.Fits cmp k x t) (hr : r ∈ l.place) :
    r ∈ l.nodes ∧ ∃ i, x.At t r i := by
  cases l with
  | missed | resolving | stepping | answering =>
    obtain rfl := Option.some.inj hr
    exact ⟨List.mem_cons_self, hl.1⟩
  | moving =>
    obtain rfl := Option.some.inj hr
    exact ⟨by simp [nodes], hl.2.1⟩
  | _ => exact absurd hr (by simp [place])

theorem Fits.nodes_length (hl : l.Fits cmp k x t) : l.nodes.length ≤ 2 := by
  cases l with
  | retreating first rest => exact Nat.succ_le_succ hl.2.2
  | _ => simp [nodes]

/-- Next to two others in each node there is room for a lookup. -/
theorem Fits.room (hl : l.Fits cmp k x t) (ho : ∀ i, o i ≤ 2) (r : Ref) :
    o r + l.nodes.count r + 3 < Latch.Word.room := by
  have hcount := (List.count_le_length (a := r)).trans hl.nodes_length
  have ho := ho r
  rw [Latch.Word.room]
  omega

/-! ## The lookup's own requests -/

theorem Fits.visit (cmp : K → K → Ordering) (k : K) (seen : UInt64) {cur : Ref} (h : ∃ i, x.At t cur i) :
    (visit cmp k seen cur (x.node cur)).Fits cmp k x t ∧
      (visit cmp k seen cur (x.node cur)).nodes = [cur] ∧
      (visit cmp k seen cur (x.node cur)).place = some cur := by
  unfold Lookup.visit
  split_ifs with ho hn
  · exact ⟨⟨h, by rw [if_pos ho]⟩, rfl, rfl⟩
  · exact ⟨⟨h, ho, hn⟩, rfl, rfl⟩
  · exact ⟨⟨h, rfl, ho, rfl, hn⟩, rfl, rfl⟩

theorem Fits.rejoin (cmp : K → K → Ordering) (k : K) (seen : UInt64) {cur child : Ref}
    {next : NodeId} (hcur : cur < x.made) (hchild : child < x.made) (hnext : next ≠ .nil) :
    (rejoin cmp k seen cur (x.node cur) next child (x.node child)).Fits cmp k x t ∧
      (rejoin cmp k seen cur (x.node cur) next child (x.node child)).nodes.Perm [cur, child] ∧
      (rejoin cmp k seen cur (x.node cur) next child (x.node child)).place = none := by
  unfold Lookup.rejoin
  split_ifs with h
  · exact ⟨⟨hcur, hchild, hnext, rfl, h⟩, .refl _, rfl⟩
  · exact ⟨⟨hchild, by simpa using hcur, le_rfl⟩, .swap .., rfl⟩

/-- How often a node is held when one more is held, or one less. -/
theorem count_perm (o : Ref → Nat) {ns ns' : List Ref} (h : ns'.Perm (r :: ns)) (i : Ref) :
    o i + ns'.count i = if i = r then o i + ns.count i + 1 else o i + ns.count i := by
  rw [h.count_eq, List.count_cons]
  by_cases hi : i = r
  · simp [hi, Nat.add_assoc]
  · simp [hi, Ne.symm hi]

/-- Where the lookup is after a request of its own: at the anchor, at a child that it has taken up
again, or where the search comes to just if it came to where it was. -/
def Goes (cmp : K → K → Ordering) (k : K) (x : Content K V) (t : Shape K V)
    (l l' : Lookup K V) : Prop :=
  ∀ r' ∈ l'.place, match l.place with
    | none => r' = 1 ∨ ∃ seen cur next m, l = checking seen cur next r' m ∧ x.ref? next = some r'
    | some r => ∀ i i', x.At t r i → x.At t r' i' → (t.Meets cmp k i' ↔ t.Meets cmp k i)

theorem Goes.same (hx : x.Sound) {l' : Lookup K V} (hl : l.place = some r)
    (hl' : l'.place = some r) : Goes cmp k x t l l' := by
  intro r' hr'
  obtain rfl := Option.some.inj (hl'.symm.trans hr')
  rw [hl]
  intro i i' hi hi'
  rw [hx.inj i i' r hi.ref hi'.ref]

theorem Goes.nowhere {l' : Lookup K V} (hl' : l'.place = none) : Goes cmp k x t l l' := by
  intro r' hr'
  rw [hl'] at hr'
  exact absurd hr' (by simp)

variable {q : Request K V} {next : q.Answer → Lookup K V}

/-- A request of the lookup is answered, and what it relies on afterwards holds. -/
structure Serves (cmp : K → K → Ordering) (k : K) (s : Store K V) (t : Shape K V) (o : Ref → Nat)
    (g : Grips) (l : Lookup K V) (q : Request K V) (a : q.Answer) (s' : Store K V)
    (l' : Lookup K V) : Prop where
  serve : q.serve s = (.ok a, s')
  content : s'.content = s.content
  shows : s'.Shows (fun i => o i + l'.nodes.count i) g
  fits : l'.Fits cmp k s.content t
  goes : l.Goes cmp k s.content t l'

theorem serves_relocations (hw : s.Shows (fun i => o i + l.nodes.count i) g) {l' : Lookup K V}
    (hnodes : l'.nodes = l.nodes) (hfits : l'.Fits cmp k s.content t)
    (hgoes : l.Goes cmp k s.content t l') :
    Serves cmp k s t o g l .relocations s.relocations s l' :=
  ⟨rfl, rfl, hnodes ▸ hw, hfits, hgoes⟩

theorem serves_resolve (hw : s.Shows (fun i => o i + l.nodes.count i) g) {id : NodeId}
    (hr : s.content.ref? id = some r) {l' : Lookup K V} (hfits : l'.Fits cmp k s.content t)
    (hnodes : l'.nodes.Perm l.nodes) (hgoes : l.Goes cmp k s.content t l')
    (hen : (Request.resolve id : Request K V).enabled s = true) :
    ∃ s', Serves cmp k s t o g l (.resolve id) r s' l' := by
  obtain ⟨hans, hcontent⟩ := Request.yields_resolve hr s rfl
  have hw' : (Request.serve s (.resolve id)).2.Shows (fun i => o i + l.nodes.count i) g :=
    hw.serve (q := .resolve id) trivial hen
  refine ⟨_, Prod.ext hans rfl, hcontent, ?_, hfits, hgoes⟩
  simpa only [hnodes.count_eq] using hw'

theorem serves_read (hw : s.Shows (fun i => o i + l.nodes.count i) g)
    (ho : o r + l.nodes.count r + 3 < Latch.Word.room) (hr : r < s.content.made) {l' : Lookup K V}
    (hfits : l'.Fits cmp k s.content t) (hnodes : l'.nodes.Perm (r :: l.nodes))
    (hgoes : l.Goes cmp k s.content t l') (hen : (s.word r).admitsReader = true) :
    Serves cmp k s t o g l (.read r) (s.node r) (s.mapWord r .enter) l' := by
  exact ⟨rfl, s.content_mapWord .., hw.enter hr ho hen (count_perm o hnodes), hfits, hgoes⟩

theorem serves_leave (hw : s.Shows (fun i => o i + l.nodes.count i) g)
    (hr : r < s.content.made) {l' : Lookup K V} (hfits : l'.Fits cmp k s.content t)
    (hnodes : l.nodes.Perm (r :: l'.nodes)) (hgoes : l.Goes cmp k s.content t l') :
    Serves cmp k s t o g l (.leave r) () (s.mapWord r .leave) l' :=
  ⟨rfl, s.content_mapWord .., hw.leave hr (count_perm o hnodes), hfits, hgoes⟩

theorem goes_down (hx : x.TidyTree t) {cur child : Ref} (hcur : ∃ i, x.At t cur i)
    (ho : (x.node cur).order cmp k ≠ .eq) (hn : (x.node cur).towards cmp k ≠ .nil)
    (hchild : x.ref? ((x.node cur).towards cmp k) = some child) {l' : Lookup K V}
    (hl : l.place = some cur) (hl' : l'.place = some child) :
    (∃ i, x.At t child i) ∧ Goes cmp k x t l l' := by
  obtain ⟨i, hi⟩ := hcur
  obtain ⟨hmem, hmeets⟩ := hi.next hx hn
  refine ⟨⟨_, hchild, List.mem_cons_of_mem _ hmem⟩, fun r' hr' => ?_⟩
  obtain rfl := Option.some.inj (hl'.symm.trans hr')
  rw [hl]
  intro j j' hj hj'
  obtain rfl := hx.sound.inj _ _ _ hj.ref hi.ref
  obtain rfl := hx.sound.inj _ _ _ hj'.ref hchild
  exact hmeets ho

/-- A child of higher rank is waited for; one of lower rank is had at once or not at all. -/
theorem Fits.serves_stepping {seen : UInt64} {cur child : Ref} {n : Node K V} {next' : NodeId}
    {q : Request K V} {next : q.Answer → Lookup K V}
    (hl : (stepping seen cur n next' child).Fits cmp k s.content t) (hx : s.content.TidyTree t)
    (hw : s.Shows (fun i => o i + (stepping seen cur n next' child).nodes.count i) g)
    (ho : ∀ r ∈ q.entered, (s.word r).admitsReader = true →
      o r + (stepping seen cur n next' child).nodes.count r + 3 < Latch.Word.room)
    (hq : (stepping seen cur n next' child).turn cmp k = .ask q next) (hen : q.enabled s = true) :
    ∃ a s', Serves cmp k s t o g (stepping seen cur n next' child) q a s' (next a) := by
  obtain ⟨⟨i, hi⟩, rfl, hord, rfl, hn, hchild⟩ := hl
  obtain ⟨hat, hgoes⟩ := goes_down hx ⟨i, hi⟩ hord hn hchild
    (rfl : (stepping seen cur (s.content.node cur) _ child).place = some cur)
    (rfl : (moving seen cur child (s.node child)).place = some child)
  obtain ⟨j, hj⟩ := hat
  have hmoving : (moving seen cur child (s.node child)).Fits cmp k s.content t :=
    ⟨hi.made hx, ⟨j, hj⟩, rfl⟩
  have hperm : [cur, child].Perm (child :: [cur]) := .swap ..
  simp only [turn] at hq
  split_ifs at hq
  · cases hq
    exact ⟨_, _, serves_read hw (ho _ rfl hen) (hj.made hx) hmoving hperm hgoes hen⟩
  · cases hq
    cases hadm : (s.word child).admitsReader with
    | true =>
      have hs := serves_read hw (ho _ rfl hadm) (hj.made hx) hmoving hperm hgoes hadm
      refine ⟨some (s.node child), _, ?_, hs.content, hs.shows, hs.fits, hs.goes⟩
      simp only [Request.serve, hadm, if_true]
    | false =>
      refine ⟨none, s, ?_, rfl, hw, ⟨hi.made hx, hj.made hx, hn⟩, .nowhere rfl⟩
      simp only [Request.serve, hadm, Bool.false_eq_true, if_false]

/-- With both nodes held again, the link from one leads to the other still, or it starts again. -/
theorem Fits.serves_checking {seen : UInt64} {cur child : Ref} {next' : NodeId} {m : Node K V}
    (hl : (checking seen cur next' child m).Fits cmp k s.content t) (hx : s.content.TidyTree t)
    (hw : s.Shows (fun i => o i + (checking seen cur next' child m).nodes.count i) g)
    (hen : (Request.resolve next' : Request K V).enabled s = true) :
    ∃ (now : Ref) (s' : Store K V), Serves cmp k s t o g (checking seen cur next' child m) (.resolve next') now s'
      (if now = child then moving seen cur child m else retreating child [cur]) := by
  obtain ⟨hcur, hchild, hn, rfl, rfl⟩ := hl
  obtain ⟨i, hi⟩ := hx.at_of_towards hn
  have hmem := (hi.next hx hn).1
  obtain ⟨now, hnow⟩ := hx.ref_some (List.mem_cons_of_mem _ (List.mem_cons_of_mem _ hmem))
  refine ⟨now, ?_⟩
  by_cases he : now = child
  · subst he
    have hgoes : Goes cmp k s.content t (checking seen cur
        ((s.content.node cur).towards cmp k) now (s.content.node now))
        (moving seen cur now (s.content.node now)) := by
      intro r' hr'
      obtain rfl := Option.some.inj hr'
      exact .inr ⟨_, _, _, _, rfl, hnow⟩
    have hfits : (moving seen cur now (s.content.node now)).Fits cmp k s.content t :=
      ⟨hcur, ⟨_, hnow, List.mem_cons_of_mem _ hmem⟩, rfl⟩
    rw [if_pos rfl]
    exact serves_resolve hw hnow hfits (.refl _) hgoes hen
  · have hfits : (retreating child [cur] : Lookup K V).Fits cmp k s.content t :=
      ⟨hchild, by simpa using hcur, le_rfl⟩
    rw [if_neg he]
    exact serves_resolve hw hnow hfits (.swap ..) (.nowhere rfl) hen

theorem Fits.serves (hx : s.content.TidyTree t) (hw : s.Shows (fun i => o i + l.nodes.count i) g)
    (ho : ∀ r ∈ q.entered, (s.word r).admitsReader = true →
      o r + l.nodes.count r + 3 < Latch.Word.room)
    (hl : l.Fits cmp k s.content t) (hq : l.turn cmp k = .ask q next) (hen : q.enabled s = true) :
    ∃ a s', Serves cmp k s t o g l q a s' (next a) := by
  cases l with
  | start =>
    cases hq
    exact ⟨_, _, serves_relocations hw rfl trivial (.nowhere rfl)⟩
  | atTop seen =>
    cases hq
    have hfits : (entering seen 1).Fits cmp k s.content t := rfl
    obtain ⟨s', hs'⟩ := serves_resolve hw hx.sound.anchor hfits (.refl _) (.nowhere rfl) hen
    exact ⟨_, s', hs'⟩
  | entering seen top =>
    cases hq
    obtain rfl : top = 1 := hl
    obtain ⟨hfits, hnodes, hplace⟩ := Fits.visit cmp k seen
      ⟨_, hx.anchor⟩
    refine ⟨_, _, serves_read hw (ho _ rfl hen) (hx.anchor.made hx) hfits ?_ ?_ hen⟩
    · exact hnodes ▸ .refl _
    · intro r' hr'
      exact .inl (Option.some.inj (hplace.symm.trans hr')).symm
  | missed seen cur =>
    cases hq
    refine ⟨s.relocations, s, ?_⟩
    change Serves _ _ _ _ _ _ _ _ _ _ (if s.relocations = seen then _ else _)
    split_ifs
    · refine serves_relocations hw rfl ⟨hl.1, ?_⟩ (.same hx.sound rfl rfl)
      rw [if_neg hl.2.1]
      exact ⟨hl.2.2, rfl⟩
    · obtain ⟨i, hi⟩ := hl.1
      exact serves_relocations hw rfl ⟨hi.made hx, by simp⟩ (.nowhere rfl)
  | resolving seen cur n next =>
    cases hq
    obtain ⟨⟨i, hi⟩, rfl, hord, rfl, hn⟩ := hl
    have hmem := (hi.next hx hn).1
    obtain ⟨child, hchild⟩ := hx.ref_some (List.mem_cons_of_mem _ (List.mem_cons_of_mem _ hmem))
    have hfits : (stepping seen cur _ _ child).Fits cmp k s.content t :=
      ⟨⟨i, hi⟩, rfl, hord, rfl, hn, hchild⟩
    obtain ⟨s', hs'⟩ := serves_resolve hw hchild hfits (.refl _) (.same hx.sound rfl rfl) hen
    exact ⟨child, s', hs'⟩
  | stepping seen cur n next child => exact hl.serves_stepping hx hw ho hq hen
  | moving seen cur child m =>
    cases hq
    obtain ⟨hcur, hat, rfl⟩ := hl
    obtain ⟨hfits, hnodes, hplace⟩ := Fits.visit cmp k seen hat
    refine ⟨_, _, serves_leave hw hcur hfits ?_ (.same hx.sound rfl hplace)⟩
    exact hnodes ▸ .refl _
  | backing seen cur next child =>
    cases hq
    exact ⟨_, _, serves_leave hw hl.1 hl (.refl _) (.nowhere rfl)⟩
  | apart seen cur next child =>
    simp only [turn] at hq
    obtain ⟨hcur, hchild, hn⟩ := hl
    split_ifs at hq
    · cases hq
      exact ⟨_, _, serves_read hw (ho _ rfl hen) hcur ⟨hcur, hchild, hn, rfl⟩ (.refl _)
        (.nowhere rfl) hen⟩
    · cases hq
      exact ⟨_, _, serves_read hw (ho _ rfl hen) hchild ⟨hcur, hchild, hn, rfl⟩ (.refl _)
        (.nowhere rfl) hen⟩
  | againParent seen cur n next child =>
    cases hq
    obtain ⟨hcur, hchild, hn, rfl⟩ := hl
    obtain ⟨hfits, hnodes, hplace⟩ := Fits.rejoin cmp k seen hcur hchild hn
    exact ⟨_, _, serves_read hw (ho _ rfl hen) hchild hfits (hnodes.trans (.swap ..))
      (.nowhere hplace) hen⟩
  | againChild seen cur next child m =>
    cases hq
    obtain ⟨hcur, hchild, hn, rfl⟩ := hl
    obtain ⟨hfits, hnodes, hplace⟩ := Fits.rejoin cmp k seen hcur hchild hn
    exact ⟨_, _, serves_read hw (ho _ rfl hen) hcur hfits hnodes (.nowhere hplace) hen⟩
  | checking seen cur next child m =>
    cases hq
    exact hl.serves_checking hx hw hen
  | retreating first rest =>
    cases hq
    obtain ⟨hfirst, hrest, hlen⟩ := hl
    cases rest with
    | nil => exact ⟨_, _, serves_leave hw hfirst trivial (.refl _) (.nowhere rfl)⟩
    | cons r rest =>
      rw [List.forall_mem_cons] at hrest
      refine ⟨_, _, serves_leave hw hfirst ⟨hrest.1, hrest.2, ?_⟩ (.refl _) (.nowhere rfl)⟩
      exact (Nat.le_succ _).trans hlen
  | answering cur v =>
    cases hq
    obtain ⟨⟨i, hi⟩, -⟩ := hl
    exact ⟨_, _, serves_leave hw (hi.made hx) trivial (.refl _) (.nowhere rfl)⟩
  | finished v => exact absurd hq (by simp [turn])

end Lookup

end LatchTree
