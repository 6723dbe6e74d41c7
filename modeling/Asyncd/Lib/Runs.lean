import Mathlib.Data.List.Induction

/-!
# Laws of all steps of a run

A run is a list of steps; a law of a step may refer to the steps before it.  Two laws that agree at each
step up to which an invariant holds, and keep the invariant, agree along every run (`steps_iff`).
-/

namespace Runs

variable {α : Type*}

/-- `P` holds of each step of the run, with the steps before it. -/
def Steps (P : List α → α → Prop) (run : List α) : Prop :=
  ∀ pre c post, run = pre ++ c :: post → P pre c

theorem steps_nil (P : List α → α → Prop) : Steps P [] := by
  intro pre c post e
  exact absurd e.symm (by simp)

theorem Steps.of_forall {P : List α → α → Prop} {run : List α} (h : ∀ c ∈ run, ∀ pre, P pre c) :
    Steps P run := by
  intro pre c post e
  apply h
  rw [e]
  exact List.mem_append_right pre List.mem_cons_self

theorem steps_concat_iff {P : List α → α → Prop} {run : List α} {c : α} :
    Steps P (run ++ [c]) ↔ Steps P run ∧ P run c := by
  constructor
  · intro h
    refine ⟨fun pre d post e => h pre d (post ++ [c]) ?_, h run c [] rfl⟩
    rw [e, List.append_assoc, List.cons_append]
  · rintro ⟨hrun, hc⟩ pre d post e
    induction post using List.reverseRecOn with
    | nil =>
      rcases List.append_inj' e rfl with ⟨rfl, hd⟩
      rw [← List.head_eq_of_cons_eq hd]
      exact hc
    | append_singleton post x =>
      rw [← List.cons_append, ← List.append_assoc] at e
      exact hrun pre d post (List.append_inj' e rfl).1

/-- An invariant that every lawful step keeps holds all along a lawful run. -/
theorem Steps.invariant {P : List α → α → Prop} {I : List α → Prop} {run : List α} (h : Steps P run)
    (nil : I []) (keep : ∀ pre c post, run = pre ++ c :: post → I pre → P pre c → I (pre ++ [c]))
    {pre post : List α} (e : run = pre ++ post) : I pre := by
  induction pre using List.reverseRecOn generalizing post with
  | nil => exact nil
  | append_singleton pre c ih =>
    have e' : run = pre ++ c :: post := by rw [e, List.append_assoc, List.singleton_append]
    exact keep pre c post e' (ih e') (h pre c post e')

/-- Two laws of steps that agree under an invariant which either keeps. -/
theorem steps_iff {P Q : List α → α → Prop} {I : List α → Prop} {run : List α} (nil : I [])
    (agree : ∀ pre c post, run = pre ++ c :: post → I pre → (P pre c ↔ Q pre c))
    (keep : ∀ pre c post, run = pre ++ c :: post → I pre → Q pre c → I (pre ++ [c])) :
    Steps P run ↔ Steps Q run := by
  constructor
  · intro h pre c post e
    have hpre : I pre := h.invariant nil
      (fun pre' d post' e' hI hP => keep pre' d post' e' hI ((agree pre' d post' e' hI).1 hP)) e
    exact (agree pre c post e hpre).1 (h pre c post e)
  · intro h pre c post e
    exact (agree pre c post e (h.invariant nil keep e)).2 (h pre c post e)

end Runs
