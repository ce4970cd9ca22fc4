import Mathlib
import LatchTree.Depth

/-!
The figures of a list of depths. They are kept in machine words, and they are those of the list as long
as the number of samples and their total do not exceed a word.
-/

namespace LatchTree

namespace Depth

variable {h : Depth} {ds : List ℕ} {b d : ℕ} {i : Fin 256}

def sampleAll (h : Depth) (ds : List ℕ) : Depth :=
  ds.foldl (fun h d => h.sample (UInt64.ofNat d)) h

theorem sampleAll_cons (h : Depth) (d : ℕ) (ds : List ℕ) :
    h.sampleAll (d :: ds) = (h.sample (UInt64.ofNat d)).sampleAll ds :=
  rfl

theorem sampleAll_append (h : Depth) (ds ds' : List ℕ) :
    h.sampleAll (ds ++ ds') = (h.sampleAll ds).sampleAll ds' :=
  List.foldl_append ..

/-! ## One sample after the other -/

theorem samples_sampleAll (h : Depth) (ds : List ℕ) :
    (h.sampleAll ds).samples = h.samples + UInt64.ofNat ds.length := by
  induction ds generalizing h with
  | nil => exact (UInt64.add_zero _).symm
  | cons d ds ih =>
    rw [sampleAll_cons, ih, sample, List.length_cons, UInt64.ofNat_add, UInt64.add_assoc,
      UInt64.add_comm 1]
    rfl

theorem total_sampleAll (h : Depth) (ds : List ℕ) :
    (h.sampleAll ds).total = h.total + UInt64.ofNat ds.sum := by
  induction ds generalizing h with
  | nil => exact (UInt64.add_zero _).symm
  | cons d ds ih =>
    rw [sampleAll_cons, ih, sample, List.sum_cons, UInt64.ofNat_add, UInt64.add_assoc]

theorem le_min_sampleAll (hds : ∀ d ∈ ds, d < 2 ^ 64) :
    b ≤ (h.sampleAll ds).min.toNat ↔ b ≤ h.min.toNat ∧ ∀ d ∈ ds, b ≤ d := by
  induction ds generalizing h with
  | nil => simp [sampleAll]
  | cons d ds ih =>
    have hd : (UInt64.ofNat d).toNat = d := UInt64.toNat_ofNat_of_lt' (hds d List.mem_cons_self)
    have hmin : b ≤ (h.sample (UInt64.ofNat d)).min.toNat ↔ b ≤ h.min.toNat ∧ b ≤ d := by
      rw [sample, UInt64.toNat_min, hd, Nat.le_min]
    rw [sampleAll_cons, ih fun e he => hds e (List.mem_cons_of_mem d he), hmin, List.forall_mem_cons,
      and_assoc]

theorem max_sampleAll_le (hds : ∀ d ∈ ds, d < 2 ^ 64) :
    (h.sampleAll ds).max.toNat ≤ b ↔ h.max.toNat ≤ b ∧ ∀ d ∈ ds, d ≤ b := by
  induction ds generalizing h with
  | nil => simp [sampleAll]
  | cons d ds ih =>
    have hd : (UInt64.ofNat d).toNat = d := UInt64.toNat_ofNat_of_lt' (hds d List.mem_cons_self)
    have hmax : (h.sample (UInt64.ofNat d)).max.toNat ≤ b ↔ h.max.toNat ≤ b ∧ d ≤ b := by
      rw [sample, UInt64.toNat_max, hd, Nat.max_le]
    rw [sampleAll_cons, ih fun e he => hds e (List.mem_cons_of_mem d he), hmax, List.forall_mem_cons,
      and_assoc]

/-! ## Buckets -/

/-- The bucket of a depth that is given as a number. -/
def bucketOfNat (d : ℕ) : Fin 256 :=
  bucketOf (UInt64.ofNat d)

theorem val_bucketOfNat (hd : d < 2 ^ 64) : (bucketOfNat d : ℕ) = d ⊓ 255 := by
  change Nat.min (UInt64.ofNat d).toNat 255 = _
  rw [UInt64.toNat_ofNat_of_lt' hd]

/-- A sample is counted in its own bucket, and in no other. -/
theorem buckets_sample (h : Depth) (e : UInt64) (i : Fin 256) :
    (h.sample e).buckets[i] = h.buckets[i] + if bucketOf e = i then 1 else 0 := by
  by_cases hi : bucketOf e = i
  · subst hi
    simp [sample]
  · have hne : (bucketOf e : ℕ) ≠ i := fun he => hi (Fin.ext he)
    simp [sample, hi, Vector.getElem_set_ne _ _ hne]

theorem buckets_sampleAll (h : Depth) (ds : List ℕ) (i : Fin 256) :
    (h.sampleAll ds).buckets[i] = h.buckets[i] + UInt64.ofNat ((ds.map bucketOfNat).count i) := by
  induction ds generalizing h with
  | nil => exact (UInt64.add_zero _).symm
  | cons d ds ih =>
    rw [sampleAll_cons, ih, buckets_sample, List.map_cons, List.count_cons, UInt64.ofNat_add,
      UInt64.add_assoc, UInt64.add_comm (ite _ _ _), ← bucketOfNat]
    by_cases hd : bucketOfNat d = i
    · simp [hd]
    · simp [hd]

theorem mem_occupied {e : ℕ × UInt64} :
    e ∈ h.occupied ↔ ∃ i : Fin 256, e = (i.val, h.buckets[i]) ∧ h.buckets[i] ≠ 0 := by
  obtain ⟨k, n⟩ := e
  simp only [occupied, List.mem_map, List.mem_filter, decide_eq_true_eq, Prod.mk.injEq, Prod.exists,
    List.mem_zipIdx_iff_getElem?]
  constructor
  · rintro ⟨n, k, ⟨hk, hn⟩, rfl, rfl⟩
    obtain ⟨hlt, rfl⟩ := List.getElem?_eq_some_iff.1 hk
    rw [Vector.length_toList] at hlt
    exact ⟨⟨k, hlt⟩, ⟨rfl, by simp⟩, by simpa using hn⟩
  · rintro ⟨i, ⟨rfl, rfl⟩, hn⟩
    exact ⟨_, _, ⟨by simp, hn⟩, rfl, rfl⟩

theorem occupied_ascends (h : Depth) : (h.occupied.map Prod.fst).Pairwise (· < ·) := by
  have hmap : h.occupied.map Prod.fst = (h.buckets.toList.zipIdx.filter (·.1 ≠ 0)).map Prod.snd := by
    rw [occupied, List.map_map]
    rfl
  have hsub := (List.filter_sublist (p := fun e : UInt64 × ℕ => e.1 ≠ 0)
    (l := h.buckets.toList.zipIdx)).map Prod.snd
  rw [List.zipIdx_map_snd] at hsub
  rw [hmap]
  exact List.Pairwise.sublist hsub List.pairwise_lt_range'

/-- Nothing is missed by leaving out the empty buckets. -/
theorem sum_occupied (h : Depth) :
    (h.occupied.map fun e => e.2.toNat).sum = ∑ i : Fin 256, (h.buckets[i]).toNat := by
  have hfilter : ∀ (l : List UInt64) (k : ℕ),
      (((l.zipIdx k).filter (·.1 ≠ 0)).map fun e => e.1.toNat).sum = (l.map UInt64.toNat).sum := by
    intro l
    induction l with
    | nil => exact fun _ => rfl
    | cons n l ih =>
      intro k
      rw [List.zipIdx_cons, List.map_cons, List.sum_cons, ← ih (k + 1)]
      by_cases hn : n = 0
      · rw [List.filter_cons_of_neg (by simpa using hn), hn]
        simp
      · rw [List.filter_cons_of_pos (by simpa using hn)]
        simp
  have hlist : h.buckets.toList = (List.finRange 256).map fun i => h.buckets[i] :=
    List.ext_getElem (by simp) fun i h₁ h₂ => by simp
  rw [occupied, List.map_map, Fin.sum_univ_def]
  refine (hfilter _ 0).trans ?_
  rw [hlist, List.map_map]
  rfl

/-! ## Shares -/

section Shares

variable {share : UInt64 → UInt8} {acc : UInt64} {last : UInt8} {l : List (ℕ × UInt64)} {N : ℕ}

/-- The depths listed are some of the buckets, in order. -/
theorem climb_sublist (share : UInt64 → UInt8) (acc : UInt64) (last : UInt8)
    (l : List (ℕ × UInt64)) : ((climb share acc last l).map Prod.snd).Sublist (l.map Prod.fst) := by
  induction l generalizing acc last with
  | nil => exact .slnil
  | cons e l ih =>
    simp only [climb]
    split_ifs
    · exact (ih _ _).cons_cons _
    · exact (ih _ _).cons _

/-- Each share listed is above the one before it. -/
theorem climb_ascends (share : UInt64 → UInt8) (acc : UInt64) (last : UInt8)
    (l : List (ℕ × UInt64)) : (last :: (climb share acc last l).map Prod.fst).Pairwise (· < ·) := by
  rw [← List.isChain_iff_pairwise]
  induction l generalizing acc last with
  | nil => exact .singleton _
  | cons e l ih =>
    simp only [climb]
    split_ifs with hlt
    · exact (ih _ _).cons_cons hlt
    · exact ih _ _

/-- What has been added up and the buckets that are left make `N` at all times. So the full share is
reached with the last bucket and not before it. -/
theorem climb_reaches (hfull : share (UInt64.ofNat N) = 100)
    (hbelow : ∀ a : UInt64, a.toNat < N → share a < 100) (hN : N < 2 ^ 64)
    (hsum : acc.toNat + (l.map fun e => e.2.toNat).sum = N) (hpos : ∀ e ∈ l, e.2 ≠ 0)
    (hlast : last < 100) (hne : l ≠ []) :
    (∀ e ∈ climb share acc last l, e.1 ≤ 100) ∧
      (climb share acc last l).getLast? = some (100, (l.getLast hne).1) := by
  induction l generalizing acc last with
  | nil => exact absurd rfl hne
  | cons e l ih =>
    obtain ⟨-, hl⟩ := List.forall_mem_cons.1 hpos
    rw [List.map_cons, List.sum_cons] at hsum
    have hacc : (acc + e.2).toNat = acc.toNat + e.2.toNat := by
      rw [UInt64.toNat_add, Nat.mod_eq_of_lt]
      omega
    -- a bucket is not empty, so the count is `N` after the last one only
    cases l with
    | nil =>
      have hshare : share (acc + e.2) = 100 := by
        rw [← hfull]
        congr 1
        apply UInt64.toNat_inj.1
        rw [hacc, UInt64.toNat_ofNat_of_lt' hN]
        simpa using hsum
      simp [climb, hshare, hlast]
    | cons e' l =>
      have hpos' : e'.2.toNat ≠ 0 := fun h0 => hl e' List.mem_cons_self (UInt64.toNat_inj.1 h0)
      have hlt : share (acc + e.2) < 100 := by
        refine hbelow _ ?_
        rw [hacc]
        simp only [List.map_cons, List.sum_cons] at hsum
        omega
      have hsum' : (acc + e.2).toNat + ((e' :: l).map fun e => e.2.toNat).sum = N := by
        rw [hacc, Nat.add_assoc]
        exact hsum
      rw [climb, List.getLast_cons (List.cons_ne_nil _ _)]
      split_ifs with hup
      · obtain ⟨hle, hend⟩ := ih hsum' hl hlt (List.cons_ne_nil _ _)
        refine ⟨List.forall_mem_cons.2 ⟨UInt8.le_of_lt hlt, hle⟩, ?_⟩
        rw [List.getLast?_cons, hend, Option.getD_some]
      · exact ih hsum' hl hlast (List.cons_ne_nil _ _)

end Shares

/-! ## The figures of a list -/

/-- The figures are those of the depths `ds`; the last bucket takes all from 255 on. -/
structure Tallies (h : Depth) (ds : List ℕ) : Prop where
  samples : h.samples.toNat = ds.length
  total : h.total.toNat = ds.sum
  min : IsLeast {d | d ∈ ds} h.min.toNat
  max : IsGreatest {d | d ∈ ds} h.max.toNat
  mean : h.mean.toNat = ds.sum / ds.length
  min_le_mean : h.min ≤ h.mean
  mean_le_max : h.mean ≤ h.max
  bucket : ∀ i : Fin 256, i.val < 255 → (h.buckets[i]).toNat = ds.count i.val
  lastBucket : (h.buckets[255]).toNat = ds.countP (255 ≤ ·)

/-- The shares above 90 percent are listed in order, each with the bucket it is reached with, up to the
bucket of the greatest depth with the full share. -/
structure Ranks (h : Depth) : Prop where
  ne_nil : h.percentiles ≠ []
  shares : (h.percentiles.map Prod.fst).Pairwise (· < ·)
  depths : (h.percentiles.map Prod.snd).Pairwise (· < ·)
  bounds : ∀ e ∈ h.percentiles, 91 ≤ e.1 ∧ e.1 ≤ 100
  occupied : ∀ e ∈ h.percentiles, ∃ i : Fin 256, i.val = e.2 ∧ h.buckets[i] ≠ 0
  last : h.percentiles.getLast? = some (100, h.max.toNat ⊓ 255)

section Empty

variable (hlen : ds.length < 2 ^ 64) (hsum : ds.sum < 2 ^ 64) (hds : ∀ d ∈ ds, d < 2 ^ 64)
  (hne : ds ≠ [])

include hlen in
theorem toNat_samples : (empty.sampleAll ds).samples.toNat = ds.length := by
  rw [samples_sampleAll, empty, UInt64.zero_add, UInt64.toNat_ofNat_of_lt' hlen]

include hsum in
theorem toNat_total : (empty.sampleAll ds).total.toNat = ds.sum := by
  rw [total_sampleAll, empty, UInt64.zero_add, UInt64.toNat_ofNat_of_lt' hsum]

include hlen hsum in
theorem toNat_mean : (empty.sampleAll ds).mean.toNat = ds.sum / ds.length := by
  rw [mean]
  split_ifs with h0
  · rw [← toNat_samples hlen, h0]
    exact (Nat.div_zero _).symm
  · rw [UInt64.toNat_div, toNat_total hsum, toNat_samples hlen]

include hds hne in
theorem isLeast_min : IsLeast {d | d ∈ ds} (empty.sampleAll ds).min.toNat := by
  obtain ⟨e, he⟩ := List.exists_mem_of_ne_nil ds hne
  have hglb : IsGLB {d | d ∈ ds} (empty.sampleAll ds).min.toNat := by
    refine isGLB_iff_le_iff.2 fun b => (le_min_sampleAll hds).trans ⟨And.right, fun hb => ⟨?_, hb⟩⟩
    exact (hb he).trans (Nat.le_of_lt_succ (hds e he))
  exact ⟨hglb.csInf_eq ⟨e, he⟩ ▸ Nat.sInf_mem ⟨e, he⟩, hglb.1⟩

include hds hne in
theorem isGreatest_max : IsGreatest {d | d ∈ ds} (empty.sampleAll ds).max.toNat := by
  obtain ⟨e, he⟩ := List.exists_mem_of_ne_nil ds hne
  have hlub : IsLUB {d | d ∈ ds} (empty.sampleAll ds).max.toNat :=
    isLUB_iff_le_iff.2 fun b =>
      (max_sampleAll_le hds).trans ⟨And.right, fun hb => ⟨Nat.zero_le _, hb⟩⟩
  exact ⟨hlub.csSup_eq ⟨e, he⟩ ▸ Nat.sSup_mem ⟨e, he⟩ ⟨_, hlub.1⟩, hlub.1⟩

include hlen in
theorem toNat_buckets (i : Fin 256) :
    ((empty.sampleAll ds).buckets[i]).toNat = (ds.map bucketOfNat).count i := by
  have hle : (ds.map bucketOfNat).count i ≤ ds.length := by
    rw [← List.length_map bucketOfNat]
    exact List.count_le_length
  rw [buckets_sampleAll, empty, show (Vector.replicate 256 (0 : UInt64))[i] = 0 by simp,
    UInt64.zero_add, UInt64.toNat_ofNat_of_lt' (hle.trans_lt hlen)]

include hlen in
theorem buckets_ne_zero : (empty.sampleAll ds).buckets[i] ≠ 0 ↔ ∃ d ∈ ds, bucketOfNat d = i := by
  rw [Ne, ← UInt64.toNat_inj, toNat_buckets hlen, UInt64.toNat_zero, List.count_eq_zero, not_not,
    List.mem_map]

include hds in
theorem count_bucketOfNat (i : Fin 256) :
    (ds.map bucketOfNat).count i = ds.countP (· ⊓ 255 = i.val) := by
  rw [List.count, List.countP_map]
  refine List.countP_congr fun d hd => ?_
  simp [← val_bucketOfNat (hds d hd), Fin.ext_iff]

include hlen in
/-- Each sample is in one of the buckets that are not empty. -/
theorem sum_occupied_sampleAll :
    ((empty.sampleAll ds).occupied.map fun e => e.2.toNat).sum = ds.length := by
  have hcount := Multiset.sum_count_eq_card (s := Finset.univ)
    (m := Multiset.ofList (ds.map bucketOfNat)) fun i _ => Finset.mem_univ i
  simp only [Multiset.coe_count, Multiset.coe_card, List.length_map] at hcount
  rw [sum_occupied, ← hcount]
  exact Finset.sum_congr rfl fun i _ => toNat_buckets hlen i

include hlen hds hne in
/-- The last bucket that is not empty is that of the greatest depth. -/
theorem getLast_occupied (hocc : (empty.sampleAll ds).occupied ≠ []) :
    ((empty.sampleAll ds).occupied.getLast hocc).1 = (empty.sampleAll ds).max.toNat ⊓ 255 := by
  obtain ⟨hmem, hle⟩ := isGreatest_max hds hne
  apply le_antisymm
  · obtain ⟨i, hi, hn⟩ := mem_occupied.1 (List.getLast_mem hocc)
    obtain ⟨d, hd, rfl⟩ := (buckets_ne_zero hlen).1 hn
    rw [hi]
    exact (val_bucketOfNat (hds d hd)).trans_le (inf_le_inf_right 255 (hle hd))
  · have hmax := mem_occupied.2 ⟨_, rfl, (buckets_ne_zero hlen).2 ⟨_, hmem, rfl⟩⟩
    have hpair := (List.pairwise_map.1 (occupied_ascends (empty.sampleAll ds))).imp le_of_lt
    rw [← val_bucketOfNat (hds _ hmem)]
    exact hpair.rel_getLast_of_rel_getLast_getLast hmax le_rfl

include hlen hsum hds hne in
theorem Tallies.sampleAll : (empty.sampleAll ds).Tallies ds := by
  have hpos : 0 < ds.length := List.length_pos_of_ne_nil hne
  have hmin := isLeast_min hds hne
  have hmax := isGreatest_max hds hne
  refine ⟨toNat_samples hlen, toNat_total hsum, hmin, hmax, toNat_mean hlen hsum, ?_, ?_, ?_, ?_⟩
  · rw [UInt64.le_iff_toNat_le, toNat_mean hlen hsum, Nat.le_div_iff_mul_le hpos, Nat.mul_comm]
    exact List.card_nsmul_le_sum _ _ fun d hd => hmin.2 hd
  · rw [UInt64.le_iff_toNat_le, toNat_mean hlen hsum]
    exact Nat.div_le_of_le_mul (List.sum_le_card_nsmul _ _ fun d hd => hmax.2 hd)
  · intro i hi
    rw [toNat_buckets hlen, count_bucketOfNat hds]
    refine List.countP_congr fun d hd => ?_
    simp
    omega
  · refine (toNat_buckets hlen 255).trans ((count_bucketOfNat hds 255).trans ?_)
    refine List.countP_congr fun d hd => ?_
    simp

include hlen hds hne in
theorem Ranks.sampleAll (hfull : percent (UInt64.ofNat ds.length) (UInt64.ofNat ds.length) = 100)
    (hbelow : ∀ a : UInt64, a.toNat < ds.length → percent (UInt64.ofNat ds.length) a < 100) :
    (empty.sampleAll ds).Ranks := by
  set h := empty.sampleAll ds with hh
  have hsamples : h.samples = UInt64.ofNat ds.length := by
    rw [hh, samples_sampleAll, empty, UInt64.zero_add]
  have hocc : h.occupied ≠ [] := by
    obtain ⟨d, hd⟩ := List.exists_mem_of_ne_nil ds hne
    exact List.ne_nil_of_mem (mem_occupied.2 ⟨_, rfl, (buckets_ne_zero hlen).2 ⟨d, hd, rfl⟩⟩)
  have hpos : ∀ e ∈ h.occupied, e.2 ≠ 0 := by
    intro e he
    obtain ⟨i, rfl, hn⟩ := mem_occupied.1 he
    exact hn
  have hall : (0 : UInt64).toNat + (h.occupied.map fun e => e.2.toNat).sum = ds.length := by
    rw [sum_occupied_sampleAll hlen]
    exact Nat.zero_add _
  obtain ⟨hle, hend⟩ := climb_reaches hfull hbelow hlen hall hpos (by decide : (90 : UInt8) < 100) hocc
  have hascends := climb_ascends (percent h.samples) 0 90 h.occupied
  have hsub := climb_sublist (percent h.samples) 0 90 h.occupied
  rw [← hsamples, ← percentiles] at hle hend
  rw [getLast_occupied hlen hds hne hocc] at hend
  rw [← percentiles, List.pairwise_cons] at hascends
  rw [← percentiles] at hsub
  refine ⟨?_, hascends.2, (occupied_ascends h).sublist hsub, ?_, ?_, hend⟩
  · intro hnil
    simp [hnil] at hend
  · intro e he
    have habove := hascends.1 e.1 (List.mem_map_of_mem he)
    rw [UInt8.lt_iff_toNat_lt] at habove
    exact ⟨UInt8.le_iff_toNat_le.2 habove, hle e he⟩
  · intro e he
    obtain ⟨o, ho, hoe⟩ := List.mem_map.1 (hsub.subset (List.mem_map_of_mem he))
    obtain ⟨i, rfl, hn⟩ := mem_occupied.1 ho
    exact ⟨i, hoe, hn⟩

end Empty

/-- The figures of a list of depths and the shares listed of them. Of the shares as they are computed,
only that the full one is 100 percent and those below it are less is needed. -/
theorem sampleAll_tells (hne : ds ≠ []) (hlen : ds.length < 2 ^ 64) (hsum : ds.sum < 2 ^ 64)
    (hfull : percent (UInt64.ofNat ds.length) (UInt64.ofNat ds.length) = 100)
    (hbelow : ∀ a : UInt64, a.toNat < ds.length → percent (UInt64.ofNat ds.length) a < 100) :
    (empty.sampleAll ds).Tallies ds ∧ (empty.sampleAll ds).Ranks := by
  have hds : ∀ d ∈ ds, d < 2 ^ 64 := fun d hd => (List.le_sum_of_mem hd).trans_lt hsum
  exact ⟨.sampleAll hlen hsum hds hne, .sampleAll hlen hds hne hfull hbelow⟩

/-- A depth beyond the last bucket among others. -/
theorem sampleAll_tells_beyond :
    (empty.sampleAll [3, 1000, 2, 3]).Tallies [3, 1000, 2, 3] ∧
      (empty.sampleAll [3, 1000, 2, 3]).Ranks := by
  refine sampleAll_tells (by decide) (by decide) (by decide) (by decide +kernel) fun a ha => ?_
  rw [← UInt64.ofNat_toNat (x := a)]
  generalize a.toNat = n at ha
  change n < 4 at ha
  interval_cases n <;> decide +kernel

end Depth

end LatchTree
