import LatchTree.Proofs.Trace

/-!
Running a program in parts. What one part leaves behind to the next is its answer, the store and the
permissions that are still held.
-/

namespace LatchTree

variable {K V α β : Type} {s s' : Store K V} {hs hs' : List Hold}

namespace Program

/-- A run up to its end, where a fault has not yet made it let go of what it holds. -/
def exec (s : Store K V) (hs : List Hold) :
    Program K V α → Except Halt α × Store K V × List Hold
  | .done a => (.ok a, s, hs)
  | .halt h => (.error h, s, hs)
  | .ask q next =>
    if q.enabled s then
      match q.serve s with
      | (.ok a, s) => exec s (q.held hs a) (next a)
      | (.error f, s) => (.error (.fault f), s, hs)
    else (.error .waiting, s, hs)

@[simp] theorem exec_done (s : Store K V) (hs : List Hold) (a : α) :
    (.done a : Program K V α).exec s hs = (.ok a, s, hs) := rfl

section

variable {q : Request K V} {next : q.Answer → Program K V α} {a : q.Answer}
  (hen : q.enabled s = true) (hserve : q.serve s = (.ok a, s'))

include hen hserve

theorem exec_ask : (Program.ask q next).exec s hs = (next a).exec s' (q.held hs a) := by
  rw [exec, if_pos hen, hserve]

theorem trace_ask : (Program.ask q next).trace s = (q, s') :: (next a).trace s' := by
  rw [trace, if_pos hen, hserve]

end

theorem exec_ask_error {q : Request K V} {next : q.Answer → Program K V α} {f : Fault}
    (hen : q.enabled s = true) (hserve : q.serve s = (.error f, s')) :
    (Program.ask q next).exec s hs = (.error (.fault f), s', hs) := by
  rw [exec, if_pos hen, hserve]

theorem exec_bind (p : Program K V α) (f : α → Program K V β) : (p >>= f).exec s hs =
    match p.exec s hs with
    | (.ok a, s', hs') => (f a).exec s' hs'
    | (.error e, s', hs') => (.error e, s', hs') := by
  induction p generalizing s hs with
  | done a => rfl
  | halt e => rfl
  | ask q next ih =>
    rw [ask_bind, exec, exec]
    split_ifs
    · rcases q.serve s with ⟨f | b, s₁⟩
      · rfl
      · exact ih b
    · rfl

theorem exec_bind_ok {p : Program K V α} {a : α} (h : p.exec s hs = (.ok a, s', hs'))
    (f : α → Program K V β) : (p >>= f).exec s hs = (f a).exec s' hs' := by
  rw [exec_bind, h]

/-- The run of a program that goes on after a part of it has come to its end. -/
theorem run_bind_ok {p : Program K V α} {a : α} (h : p.exec s hs = (.ok a, s', hs'))
    (f : α → Program K V β) : (p >>= f).run s hs = (f a).run s' hs' := by
  induction p generalizing s hs with
  | done b =>
    cases h
    rfl
  | halt e => cases h
  | ask q next ih =>
    rw [exec] at h
    rw [ask_bind, run]
    split_ifs at h with hen
    · rw [if_pos hen]
      rcases hserve : q.serve s with ⟨f | b, s₁⟩ <;> rw [hserve] at h
      · cases h
      · exact ih b h
    · cases h

theorem exec_bind_error {p : Program K V α} {e : Halt} (h : p.exec s hs = (.error e, s', hs'))
    (f : α → Program K V β) : (p >>= f).exec s hs = (.error e, s', hs') := by
  rw [exec_bind, h]

theorem trace_bind {p : Program K V α} {a : α} (h : p.exec s hs = (.ok a, s', hs'))
    (f : α → Program K V β) : (p >>= f).trace s = p.trace s ++ (f a).trace s' := by
  induction p generalizing s hs with
  | done b =>
    cases h
    rfl
  | halt e => cases h
  | ask q next ih =>
    rw [exec] at h
    rw [ask_bind, trace, trace]
    split_ifs at h with hen
    · rw [if_pos hen, if_pos hen]
      rcases hserve : q.serve s with ⟨f | b, s₁⟩ <;> rw [hserve] at h
      · cases h
      · exact congrArg (_ :: ·) (ih b h)
    · cases h

/-- At its end a run lets go of what it holds if it has failed. -/
theorem run_of_exec {p : Program K V α} {r : Except Halt α} (h : p.exec s hs = (r, s', hs'))
    (hr : r ≠ .error .waiting) :
    p.run s hs = (r, if r.isOk then s' else s'.unwind hs') := by
  induction p generalizing s hs with
  | done a =>
    cases h
    rfl
  | halt e =>
    cases h
    rfl
  | ask q next ih =>
    rw [exec] at h
    rw [run]
    split_ifs at h with hen
    · rw [if_pos hen]
      rcases hserve : q.serve s with ⟨f | b, s₁⟩ <;> rw [hserve] at h
      · cases h
        rfl
      · exact ih b h
    · cases h
      exact absurd rfl hr

end Program

end LatchTree
