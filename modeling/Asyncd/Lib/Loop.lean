import Mathlib.Data.Nat.Notation
import Mathlib.Tactic.TypeStar

/-!
# Loops whose measure falls

A loop body `step : σ → σ ⊕ β` either continues with a new state or stops with a result.  When every
continuing step lowers a natural-number measure, the loop is a total function, `exec`, which is
computed by structural recursion (so that it evaluates in the kernel) and satisfies the loop's own
equation, an induction rule and a simulation rule.  `Ends` is the loop without a measure: the rounds
it makes until it stops.
-/

namespace Loop

variable {σ τ β γ : Type*} {μ : σ → ℕ} {step : σ → σ ⊕ β}

/-- Every continuing step lowers the measure. -/
def Decreasing (μ : σ → ℕ) (step : σ → σ ⊕ β) : Prop :=
  ∀ ⦃s s'⦄, step s = .inl s' → μ s' < μ s

/-- The loop, with a bound on the measure as the structural argument. -/
def iter (h : Decreasing μ step) : (n : ℕ) → (s : σ) → μ s < n → β
  | n + 1, s, hn =>
    match hs : step s with
    | .inl s' => iter h n s' (by have := h hs; omega)
    | .inr b => b

/-- The result of the loop started in `s`. -/
def exec (h : Decreasing μ step) (s : σ) : β := iter h (μ s + 1) s (Nat.lt_succ_self _)

/-- The bound does not matter as long as it covers the measure. -/
theorem iter_congr (h : Decreasing μ step) {n m : ℕ} {s : σ} (hn : μ s < n) (hm : μ s < m) :
    iter h n s hn = iter h m s hm := by
  induction n generalizing m s with
  | zero => omega
  | succ n ih =>
    cases m with
    | zero => omega
    | succ m =>
      unfold iter
      split
      · exact ih _ _
      · rfl

theorem exec_inl (h : Decreasing μ step) {s s' : σ} (hs : step s = .inl s') :
    exec h s = exec h s' := by
  unfold exec
  rw [iter]
  split
  · next s'' e =>
    obtain rfl : s'' = s' := by simpa [e] using hs
    exact iter_congr h _ _
  · next b e => simp [e] at hs

theorem exec_inr (h : Decreasing μ step) {s : σ} {b : β} (hs : step s = .inr b) :
    exec h s = b := by
  unfold exec
  rw [iter]
  split
  · next s' e => simp [e] at hs
  · next b' e => simpa [e] using hs

/-- Induction along the loop: what holds where it stops and is carried back over each continuing
step relates every start to its result. -/
theorem exec_induct (h : Decreasing μ step) {R : σ → β → Prop}
    (stop : ∀ s b, step s = .inr b → R s b)
    (next : ∀ s s', step s = .inl s' → R s' (exec h s') → R s (exec h s')) (s : σ) :
    R s (exec h s) := by
  induction hm : μ s using Nat.strongRecOn generalizing s with
  | ind m ih =>
    subst hm
    cases hs : step s with
    | inl s' =>
      rw [exec_inl h hs]
      exact next s s' hs (ih _ (h hs) s' rfl)
    | inr b =>
      rw [exec_inr h hs]
      exact stop s b hs

/-- Two loops whose bodies agree through `f` on states and `g` on results have results that agree
through `g`. -/
theorem exec_map {ν : τ → ℕ} {step' : τ → τ ⊕ γ} (h : Decreasing μ step)
    (h' : Decreasing ν step') (f : σ → τ) (g : β → γ)
    (sim : ∀ s, step' (f s) = (step s).map f g) (s : σ) : exec h' (f s) = g (exec h s) := by
  apply exec_induct h (R := fun s b => exec h' (f s) = g b) _ _ s
  · intro s b e
    exact exec_inr h' (by rw [sim, e]; rfl)
  · intro s s' e ih
    rw [exec_inl h' (show step' (f s) = .inl (f s') by rw [sim, e]; rfl), ih]

/-! ## Rounds -/

/-- The loop started in `s` makes `n` continuing rounds and stops with `b`. -/
inductive Ends (step : σ → σ ⊕ β) : ℕ → σ → β → Prop
  | stop {s : σ} {b : β} (h : step s = .inr b) : Ends step 0 s b
  | next {n : ℕ} {s s' : σ} {b : β} (h : step s = .inl s') (he : Ends step n s' b) :
    Ends step (n + 1) s b

/-- The loop stops with the result of `exec`, after no more rounds than the measure allows. -/
theorem exec_ends (h : Decreasing μ step) (s : σ) : ∃ n ≤ μ s, Ends step n s (exec h s) := by
  apply exec_induct h (R := fun s b => ∃ n ≤ μ s, Ends step n s b)
  · intro s b hs
    exact ⟨0, Nat.zero_le _, .stop hs⟩
  · rintro s s' hs ⟨n, hn, he⟩
    have hlt := h hs
    exact ⟨n + 1, by omega, .next hs he⟩

end Loop
