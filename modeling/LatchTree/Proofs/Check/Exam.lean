import LatchTree.Proofs.Lookup.Phases
import LatchTree.Tree.Check

/-!
What an examination accepts. It only looks at nodes, so whatever the links are it comes to an end: with
its answer, with the first rule that it finds broken, or at a slot in which there is no node.
-/

namespace LatchTree

variable {K V α β : Type} {x : Content K V} {m : ℕ}

/-! ## Programs that only look -/

namespace Program

/-- With the content `x` and at most `m` readers in each node the program ends with `res`, whatever
comes after it, and leaves everything as it was unless it meets a fault. -/
def Observes (x : Content K V) (m : ℕ) (p : Program K V α) (res : Except Fault α) : Prop :=
  ∀ (n : Ref → ℕ) (s : Store K V) (hs : List Hold) (β : Type) (f : α → Program K V β),
    s.content = x → s.Shows n .free → (∀ r, n r ≤ m) →
    match res with
    | .ok a => ∃ s', s'.content = x ∧ s'.Shows n .free ∧ (p >>= f).run s hs = (f a).run s' hs
    | .error e => ∃ s', s'.content = x ∧ (p >>= f).run s hs = (.error (.fault e), s')

namespace Observes

variable {p : Program K V α} {f : α → Program K V β}

theorem pure (a : α) : (Pure.pure a : Program K V α).Observes x m (.ok a) :=
  fun _ s _ _ _ hx hw _ => ⟨s, hx, hw, rfl⟩

theorem bind {a : α} {res : Except Fault β} (hp : p.Observes x m (.ok a))
    (hf : (f a).Observes x m res) : (p >>= f).Observes x m res := by
  intro n s hs γ g hx hw hn
  rw [bind_assoc]
  obtain ⟨s', hx', hw', hrun⟩ := hp n s hs γ (fun b => f b >>= g) hx hw hn
  rw [hrun]
  exact hf n s' hs γ g hx' hw' hn

theorem bind_error {e : Fault} (hp : p.Observes x m (.error e)) :
    (p >>= f).Observes x m (.error e) := by
  intro n s hs γ g hx hw hn
  rw [bind_assoc]
  exact hp n s hs γ (fun b => f b >>= g) hx hw hn

/-- What an observation comes to when nothing follows. -/
theorem run {s : Store K V} {n : Ref → ℕ} {res : Except Fault α} (hp : p.Observes x m res)
    (hx : s.content = x) (hw : s.Shows n .free) (hn : ∀ r, n r ≤ m) (hs : List Hold) :
    ∃ s', s'.content = x ∧ p.run s hs = (res.mapError .fault, s') := by
  have h := hp n s hs α Pure.pure hx hw hn
  rw [bind_pure] at h
  cases res with
  | ok a =>
    obtain ⟨s', hx', -, hrun⟩ := h
    exact ⟨s', hx', hrun⟩
  | error e => exact h

variable {id : NodeId} {body : Node K V → Program K V α} {res : Except Fault α}

theorem reading_dangling (hid : x.ref? id = none) :
    (Program.reading id body).Observes x m (.error (.dangling id)) := by
  intro n s hs γ g hx hw hn
  subst hx
  have hen : (Request.resolve id).enabled s = true := Store.enabled_resolve hw.table
  have hserve : (Request.resolve id).serve s = (.error (.dangling id), s) := Store.get_of_none hid
  refine ⟨s.unwind hs, s.content_unwind hs, ?_⟩
  change Program.run s hs (.ask (.resolve id) _) = _
  rw [Program.run, if_pos hen, hserve]

/-- The node is held for reading while its content is looked at. -/
theorem reading {r : Ref} (hid : x.ref? id = some r) (hmade : r < x.made)
    (hroom : m + 3 < Latch.Word.room) (hbody : (body (x.node r)).Observes x (m + 1) res) :
    (Program.reading id body).Observes x m res := by
  intro n s hs γ g hx hw hn
  subst hx
  -- the slot is looked up
  obtain ⟨hans, hcontent⟩ := Request.yields_resolve hid s rfl
  have hen : (Request.resolve id : Request K V).enabled s = true :=
    hw.enabled (q := .resolve id) trivial (by simp)
  have hw₁ : ((Request.resolve id).serve s).2.Shows n .free :=
    hw.serve (q := .resolve id) trivial hen
  generalize hs₁ : ((Request.resolve id).serve s).2 = s₁ at hcontent hw₁
  have hserve : (Request.resolve id).serve s = (.ok r, s₁) := Prod.ext hans hs₁
  -- the node is entered
  let n' : Ref → ℕ := fun i => if i = r then n i + 1 else n i
  have hmade₁ : r < s₁.content.made := hcontent ▸ hmade
  have hadmits : (s₁.word r).admitsReader = true := by
    rw [hw₁.word, Latch.Word.admitsReader_compose (Nat.lt_of_succ_lt (hw₁.fits r))]
    rfl
  have hw₂ : (s₁.mapWord r .enter).Shows n' .free :=
    hw₁.enter hmade₁ (Nat.lt_of_le_of_lt (Nat.add_le_add_right (hn r) 3) hroom) hadmits fun i => rfl
  have hx₂ : (s₁.mapWord r .enter).content = s.content := (Store.content_mapWord ..).trans hcontent
  have hn' : ∀ i, n' i ≤ m + 1 := by
    intro i
    have := hn i
    change (if i = r then n i + 1 else n i) ≤ m + 1
    split_ifs <;> omega
  have hnode : s₁.node r = s.content.node r := congrFun (congrArg Content.node hcontent) r
  have hrun : (Program.reading id body >>= g).run s hs =
      (body (s.content.node r) >>= fun a => (do Program.leave r; Pure.pure a) >>= g).run
        (s₁.mapWord r .enter) (.reading r :: hs) := by
    change Program.run s hs (.ask (.resolve id) fun r => .ask (.read r) fun b =>
      ((do let a ← body b; Program.leave r; Pure.pure a) >>= g)) = _
    rw [Program.run, if_pos hen, hserve]
    simp only
    rw [Program.run, if_pos (show (Request.read r : Request K V).enabled s₁ = true from hadmits)]
    simp only [Request.serve, Request.held, hnode, bind_assoc]
  have hb := hbody n' (s₁.mapWord r .enter) (.reading r :: hs) γ
    (fun a => (do Program.leave r; Pure.pure a) >>= g) hx₂ hw₂ hn'
  rw [hrun]
  cases res with
  | error e => exact hb
  | ok a =>
    -- and left again
    obtain ⟨s₃, hx₃, hw₃, hrun₃⟩ := hb
    refine ⟨s₃.mapWord r .leave, (Store.content_mapWord ..).trans hx₃,
      hw₃.leave (hx₃ ▸ hmade) fun i => rfl, ?_⟩
    rw [hrun₃]
    change Program.run s₃ (.reading r :: hs) (.ask (.leave r) fun _ => g a) = _
    rw [Program.run, if_pos (show (Request.leave r : Request K V).enabled s₃ = true from rfl)]
    simp [Request.serve, Request.held, Store.letGo]

end Observes

end Program

/-! ## Examinations -/

namespace Tree.Exam

variable {e : Exam K V α} {P : α → Prop}

/-- The examination comes to an end, and it ends with the answer `a` just if `P a`. -/
def Accepts (x : Content K V) (m : ℕ) (e : Exam K V α) (P : α → Prop) : Prop :=
  ∃ res : Except Fault (Except (Violation K) α),
    Program.Observes x m e.run res ∧ ∀ a, res = .ok (.ok a) ↔ P a

namespace Accepts

theorem iff {P' : α → Prop} (h : e.Accepts x m P) (hP : ∀ a, P a ↔ P' a) : e.Accepts x m P' := by
  obtain ⟨res, hres, hiff⟩ := h
  exact ⟨res, hres, fun a => (hiff a).trans (hP a)⟩

theorem pure (a : α) : (Pure.pure a : Exam K V α).Accepts x m (· = a) :=
  ⟨.ok (.ok a), .pure _, fun b => by simp [eq_comm]⟩

theorem throw (v : Violation K) : (MonadExcept.throw v : Exam K V α).Accepts x m fun _ => False :=
  ⟨.ok (.error v), .pure _, fun b => by simp⟩

theorem require (ok : Bool) (v : Violation K) :
    (Exam.require ok v : Exam K V Unit).Accepts x m fun _ => ok = true := by
  unfold Exam.require
  cases ok with
  | true => exact (pure ()).iff fun _ => by simp
  | false => exact (throw v).iff fun _ => by simp

theorem bind {f : α → Exam K V β} {R : α → β → Prop} (he : e.Accepts x m P)
    (hf : ∀ a, P a → (f a).Accepts x m (R a)) :
    (e >>= f).Accepts x m fun b => ∃ a, P a ∧ R a b := by
  obtain ⟨res, hres, hiff⟩ := he
  have hP : ∀ a b, P a → res = .ok (.ok b) → a = b := fun a b ha hb => by
    rw [(hiff a).2 ha] at hb
    exact Except.ok.inj (Except.ok.inj hb)
  cases res with
  | error e =>
    refine ⟨.error e, .bind_error hres, fun b => ⟨by simp, fun ⟨a, ha, _⟩ => ?_⟩⟩
    exact absurd ((hiff a).2 ha) (by simp)
  | ok res =>
    cases res with
    | error v =>
      refine ⟨.ok (.error v), .bind hres (.pure _), fun b => ⟨by simp, fun ⟨a, ha, _⟩ => ?_⟩⟩
      exact absurd ((hiff a).2 ha) (by simp)
    | ok a =>
      have ha := (hiff a).1 rfl
      obtain ⟨res', hres', hiff'⟩ := hf a ha
      refine ⟨res', .bind hres hres', fun b => (hiff' b).trans ⟨fun hb => ⟨a, ha, hb⟩, ?_⟩⟩
      rintro ⟨a', ha', hb⟩
      exact hP a' a ha' rfl ▸ hb

/-- What is examined of a node that may not be there. -/
theorem reading {id : NodeId} {body : Node K V → Exam K V α} {R : Node K V → α → Prop}
    (hmade : ∀ r, x.ref? id = some r → r < x.made) (hroom : m + 3 < Latch.Word.room)
    (hbody : ∀ n, x.heap id = some n → (body n).Accepts x (m + 1) (R n)) :
    (Exam.reading id body).Accepts x m fun a => ∃ n, x.heap id = some n ∧ R n a := by
  cases hid : x.ref? id with
  | none =>
    refine ⟨.error (.dangling id), .reading_dangling hid, fun a => ?_⟩
    simp [Content.heap, hid]
  | some r =>
    have hnode := Content.heap_of_ref hid
    obtain ⟨res, hres, hiff⟩ := hbody _ hnode
    refine ⟨res, .reading hid (hmade r hid) hroom hres, fun a => (hiff a).trans ?_⟩
    rw [hnode]
    simp

end Accepts

end Tree.Exam

end LatchTree
