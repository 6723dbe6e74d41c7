import Mathlib.Data.List.GetD
import Mathlib.Tactic.TypeStar

/-!
# Interleaved components

A family of components that are created and take steps in any order.  Where no component sees the
others, the whole is the product of its parts: `run_eq` finds each component where its own steps lead
it, and `foldlM_guarded` says the same of a whole that stops as soon as one component is bad.
-/

namespace Interleave

/-- A step of the whole: a component is created, or one of them takes a step. -/
inductive Step (α : Type*)
  | spawn
  | act (k : ℕ) (a : α)

variable {γ α σ τ β : Type*}

/-- How many components the steps create. -/
def spawns : List (Step α) → ℕ
  | [] => 0
  | .spawn :: steps => spawns steps + 1
  | .act _ _ :: steps => spawns steps

/-- The steps of component `k`, when `n` components exist at the beginning.  A step of a component that
does not exist yet is nobody's. -/
def own (k : ℕ) : ℕ → List (Step α) → List α
  | _, [] => []
  | n, .spawn :: steps => own k (n + 1) steps
  | n, .act j a :: steps => if j = k ∧ k < n then a :: own k n steps else own k n steps

theorem own_append (k n : ℕ) (steps steps' : List (Step α)) :
    own k n (steps ++ steps') = own k n steps ++ own k (n + spawns steps) steps' := by
  induction steps generalizing n with
  | nil => rfl
  | cons step steps ih =>
    cases step with
    | spawn => rw [List.cons_append, own, own, ih, spawns, Nat.add_right_comm, Nat.add_assoc]
    | act j a =>
      rw [List.cons_append, own, own, ih, spawns]
      by_cases h : j = k ∧ k < n
      · rw [if_pos h, if_pos h]
        rfl
      · rw [if_neg h, if_neg h]

section

variable (start : γ) (next : γ → α → γ)

/-- One step. -/
def Step.apply (cs : List γ) : Step α → List γ
  | spawn => cs ++ [start]
  | act k a => cs.modify k fun c => next c a

/-- Steps, one after the other. -/
def run (cs : List γ) (steps : List (Step α)) : List γ := steps.foldl (Step.apply start next) cs

theorem run_cons (cs : List γ) (step : Step α) (steps : List (Step α)) :
    run start next cs (step :: steps) = run start next (step.apply start next cs) steps := rfl

theorem getD_spawn (cs : List γ) (k : ℕ) : (cs ++ [start]).getD k start = cs.getD k start := by
  rcases Nat.lt_trichotomy k cs.length with h | h | h
  · rw [List.getD_append _ _ _ _ h]
  · rw [h, List.getD_append_right _ _ _ _ (Nat.le_refl _), Nat.sub_self,
      List.getD_eq_default cs _ (Nat.le_refl _)]
    rfl
  · rw [List.getD_eq_default _ _ (by simp; omega), List.getD_eq_default _ _ (by omega)]

theorem getD_act (cs : List γ) (j k : ℕ) (a : α) :
    (cs.modify j fun c => next c a).getD k start =
      if j = k ∧ k < cs.length then next (cs.getD k start) a else cs.getD k start := by
  simp only [List.getD_eq_getElem?_getD, List.getElem?_modify]
  by_cases hk : k < cs.length
  · rw [List.getElem?_eq_getElem hk]
    by_cases hj : j = k
    · simp [hj, hk]
    · simp [hj]
  · rw [List.getElem?_eq_none (by omega), if_neg fun h => hk h.2]
    rfl

theorem getElem?_run (cs : List γ) (steps : List (Step α)) (k : ℕ) :
    (run start next cs steps)[k]? =
      if k < cs.length + spawns steps then
        some ((own k cs.length steps).foldl next (cs.getD k start))
      else none := by
  induction steps generalizing cs with
  | nil =>
    by_cases h : k < cs.length
    · rw [spawns, Nat.add_zero, if_pos h, List.getD_eq_getElem _ _ h]
      exact List.getElem?_eq_getElem h
    · rw [spawns, Nat.add_zero, if_neg h]
      exact List.getElem?_eq_none (Nat.le_of_not_lt h)
  | cons step steps ih =>
    rw [run_cons, ih]
    cases step with
    | spawn =>
      have hlen : (cs ++ [start]).length = cs.length + 1 := by simp
      rw [Step.apply, hlen, getD_spawn, own, spawns, Nat.add_assoc, Nat.add_comm 1]
    | act j a =>
      rw [Step.apply, List.length_modify, getD_act, spawns, own]
      by_cases h : j = k ∧ k < cs.length
      · rw [if_pos h, if_pos h, List.foldl_cons]
      · rw [if_neg h, if_neg h]

/-- The whole is the product of its parts. -/
theorem run_eq (steps : List (Step α)) :
    run start next [] steps =
      (List.range (spawns steps)).map fun k => (own k 0 steps).foldl next start := by
  apply List.ext_getElem?
  intro k
  rw [getElem?_run, List.getElem?_map, List.length_nil, Nat.zero_add]
  by_cases h : k < spawns steps
  · rw [if_pos h, List.getElem?_range h]
    rfl
  · rw [if_neg h, List.getElem?_eq_none (by simpa using h)]
    rfl

/-! ## Stopping at a bad component -/

variable (bad : γ → Bool)

/-- One step of a whole that stops as soon as a component is bad. -/
def Step.guarded (cs : List γ) (step : Step α) : Option (List γ) :=
  if (step.apply start next cs).any bad then none else some (step.apply start next cs)

theorem Step.guarded_eq {cs : List γ} {step : Step α} (cs' : List γ)
    (h : step.apply start next cs = cs') :
    step.guarded start next bad cs = if cs'.any bad then none else some cs' := by
  rw [Step.guarded, h]

variable {bad}

theorem any_apply (hbad : ∀ c a, bad c = true → bad (next c a) = true) {cs : List γ}
    (h : cs.any bad = true) (step : Step α) : (step.apply start next cs).any bad = true := by
  obtain ⟨c, hc, hb⟩ := List.any_eq_true.1 h
  cases step with
  | spawn => exact List.any_eq_true.2 ⟨c, List.mem_append_left _ hc, hb⟩
  | act k a =>
    obtain ⟨j, hj⟩ := List.mem_iff_getElem?.1 hc
    have hstep : (cs.modify k fun c => next c a)[j]? = some (if k = j then next c a else c) := by
      rw [List.getElem?_modify, hj]
      rfl
    refine List.any_eq_true.2 ⟨_, List.mem_of_getElem? hstep, ?_⟩
    by_cases hk : k = j
    · rw [if_pos hk]
      exact hbad c a hb
    · rw [if_neg hk]
      exact hb

theorem any_run (hbad : ∀ c a, bad c = true → bad (next c a) = true) {cs : List γ}
    (h : cs.any bad = true) (steps : List (Step α)) : (run start next cs steps).any bad = true := by
  induction steps generalizing cs with
  | nil => exact h
  | cons step steps ih => exact ih (any_apply start next hbad h step)

/-- A whole that stops at bad components: where a bad component stays bad, it stops exactly if one of
the components is bad at the end. -/
theorem foldlM_guarded (hbad : ∀ c a, bad c = true → bad (next c a) = true) {cs : List γ}
    (h : cs.any bad = false) (steps : List (Step α)) :
    steps.foldlM (Step.guarded start next bad) cs =
      if (run start next cs steps).any bad then none else some (run start next cs steps) := by
  induction steps generalizing cs with
  | nil => simp [run, h]
  | cons step steps ih =>
    rw [List.foldlM_cons, Step.guarded, run_cons]
    cases hstep : (step.apply start next cs).any bad with
    | true =>
      rw [any_run start next hbad hstep]
      rfl
    | false => exact ih hstep

end

/-! ## Simulation -/

/-- A run of a system that takes the steps of another under an abstraction, where an invariant holds. -/
theorem foldlM_simulates {f : σ → β → Option σ} {g : τ → β → Option τ} {abs : σ → τ}
    {I : σ → Prop} (sim : ∀ s b, I s → (f s b).map abs = g (abs s) b)
    (keep : ∀ s b s', I s → f s b = some s' → I s') {s : σ} (hs : I s) (bs : List β) :
    (bs.foldlM f s).map abs = bs.foldlM g (abs s) := by
  induction bs generalizing s with
  | nil => rfl
  | cons b bs ih =>
    rw [List.foldlM_cons, List.foldlM_cons, ← sim s b hs]
    cases hb : f s b with
    | none => rfl
    | some s' => exact ih (keep s b s' hs hb)

theorem foldlM_eq_none_iff {f : σ → β → Option σ} {s : σ} {bs : List β} :
    bs.foldlM f s = none ↔ ∃ pre b post s', bs = pre ++ b :: post ∧ pre.foldlM f s = some s' ∧
      f s' b = none := by
  constructor
  · intro h
    induction bs generalizing s with
    | nil => cases h
    | cons b bs ih =>
      cases hb : f s b with
      | none => exact ⟨[], b, bs, s, rfl, rfl, hb⟩
      | some s₁ =>
        rw [List.foldlM_cons, hb] at h
        obtain ⟨pre, b', post, s', rfl, hpre, hb'⟩ := ih h
        refine ⟨b :: pre, b', post, s', rfl, ?_, hb'⟩
        rw [List.foldlM_cons, hb]
        exact hpre
  · rintro ⟨pre, b, post, s', rfl, hpre, hb⟩
    rw [List.foldlM_append, hpre, Option.bind_eq_bind, Option.bind_some, List.foldlM_cons, hb]
    rfl

end Interleave
