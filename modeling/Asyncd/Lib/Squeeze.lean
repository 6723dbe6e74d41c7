import Mathlib.Data.List.Destutter
import Mathlib.Data.List.SplitBy

/-!
# Squeezing the runs of one element

`onePass` goes over a list once and drops each `x` that stands behind an `x`.  It is `List.destutter`
for the relation that forbids two `x` in a row (`cons_onePass`), and what it leaves is one `x` for each
maximal run of them (`Runs.onePass_eq`).  Every list has its runs (`exists_runs`).
-/

namespace Squeeze

variable {α : Type*} {x : α}

/-! ## Runs -/

/-- The maximal runs of `x` in a list, with what stands between them: `x` is either all of a part or
not in it, and it is in exactly one of two neighbours. -/
structure Runs (x : α) (l : List α) (parts : List (List α)) : Prop where
  flatten : parts.flatten = l
  nonempty : ∀ m ∈ parts, m ≠ []
  uniform : ∀ m ∈ parts, (∀ a ∈ m, a = x) ∨ x ∉ m
  maximal : parts.IsChain fun m m' => x ∈ m ↔ x ∉ m'

theorem Runs.tail {l m : List α} {parts : List (List α)} (h : Runs x l (m :: parts)) :
    Runs x parts.flatten parts where
  flatten := rfl
  nonempty m' hm' := h.nonempty m' (List.mem_cons_of_mem _ hm')
  uniform m' hm' := h.uniform m' (List.mem_cons_of_mem _ hm')
  maximal := h.maximal.tail

/-- Any element of a part tells whether the part is a run. -/
theorem mem_iff_of_uniform {m : List α} (h : (∀ a ∈ m, a = x) ∨ x ∉ m) {a : α} (ha : a ∈ m) :
    x ∈ m ↔ a = x := by
  constructor
  · intro hx
    rcases h with hall | hnone
    · exact hall a ha
    · exact absurd hx hnone
  · rintro rfl
    exact ha

variable [DecidableEq α]

/-! ## The pass -/

/-- One pass from left to right, which is told the element before. -/
def onePass (x : α) : Option α → List α → List α
  | _, [] => []
  | prev, a :: l =>
    if a = x ∧ prev = some x then onePass x (some a) l else a :: onePass x (some a) l

/-- One `x` in place of a run of them.  What is no run stays. -/
def single (x : α) (m : List α) : List α := if x ∈ m then [x] else m

theorem cons_onePass {R : α → α → Prop} [DecidableRel R] (hR : ∀ a b, R a b ↔ ¬(a = x ∧ b = x))
    (a : α) (l : List α) : a :: onePass x (some a) l = l.destutter' R a := by
  induction l generalizing a with
  | nil => rfl
  | cons b l ih =>
    unfold onePass
    by_cases h : b = x ∧ some a = some x
    · rcases h with ⟨rfl, ha⟩
      obtain rfl : a = b := Option.some.inj ha
      rw [if_pos ⟨rfl, rfl⟩, List.destutter'_cons_neg _ (by rw [hR]; simp), ih]
    · have hab : R a b := (hR a b).2 fun ⟨ha, hb⟩ => h ⟨hb, congrArg some ha⟩
      rw [if_neg h, List.destutter'_cons_pos _ hab, ih]

theorem onePass_none {R : α → α → Prop} [DecidableRel R] (hR : ∀ a b, R a b ↔ ¬(a = x ∧ b = x))
    (l : List α) : onePass x none l = l.destutter R := by
  cases l with
  | nil => rfl
  | cons a l =>
    rw [List.destutter_cons', ← cons_onePass hR, onePass, if_neg (by simp)]

/-! ## One pass over the runs -/

theorem onePass_run_behind {m : List α} (hm : ∀ a ∈ m, a = x) (l : List α) :
    onePass x (some x) (m ++ l) = onePass x (some x) l := by
  induction m with
  | nil => rfl
  | cons a m ih =>
    obtain rfl : a = x := hm a List.mem_cons_self
    rw [List.cons_append, onePass, if_pos ⟨rfl, rfl⟩]
    exact ih fun b hb => hm b (List.mem_cons_of_mem _ hb)

theorem onePass_run {m : List α} (hm : ∀ a ∈ m, a = x) (hne : m ≠ []) {prev : Option α}
    (hp : prev ≠ some x) (l : List α) :
    onePass x prev (m ++ l) = x :: onePass x (some x) l := by
  cases m with
  | nil => exact absurd rfl hne
  | cons a m =>
    obtain rfl : a = x := hm a List.mem_cons_self
    rw [List.cons_append, onePass, if_neg fun h => hp h.2,
      onePass_run_behind fun b hb => hm b (List.mem_cons_of_mem _ hb)]

theorem onePass_plain {m : List α} (hm : x ∉ m) (hne : m ≠ []) (prev : Option α) (l : List α) :
    ∃ a ≠ x, onePass x prev (m ++ l) = m ++ onePass x (some a) l := by
  induction m generalizing prev with
  | nil => exact absurd rfl hne
  | cons a m ih =>
    have ha : a ≠ x := fun e => hm (e ▸ List.mem_cons_self)
    rw [List.cons_append, onePass, if_neg fun h => ha h.1]
    by_cases h : m = []
    · exact ⟨a, ha, by simp [h]⟩
    · obtain ⟨b, hb, e⟩ := ih (fun hx => hm (List.mem_cons_of_mem _ hx)) h (some a)
      exact ⟨b, hb, by rw [e]; rfl⟩

/-- One pass leaves one `x` for each run, if the list does not start behind an `x`. -/
theorem Runs.onePass_eq {l : List α} {parts : List (List α)} (h : Runs x l parts) {prev : Option α}
    (hp : ∀ m ∈ parts.head?, x ∈ m → prev ≠ some x) :
    onePass x prev l = (parts.map (single x)).flatten := by
  induction parts generalizing l prev with
  | nil =>
    obtain rfl : [] = l := h.flatten
    rfl
  | cons m parts ih =>
    obtain rfl : m ++ parts.flatten = l := h.flatten
    have hne : m ≠ [] := h.nonempty m List.mem_cons_self
    have hnext : ∀ m' ∈ parts.head?, x ∈ m → x ∉ m' := fun m' hm' =>
      ((List.isChain_cons.1 h.maximal).1 m' hm').1
    rw [List.map_cons, List.flatten_cons]
    rcases h.uniform m List.mem_cons_self with hrun | hplain
    · have hx : x ∈ m := by
        obtain ⟨a, ha⟩ := List.exists_mem_of_ne_nil m hne
        rwa [hrun a ha] at ha
      rw [onePass_run hrun hne (hp m rfl hx), single, if_pos hx,
        ih h.tail fun m' hm' hx' => absurd hx' (hnext m' hm' hx)]
      rfl
    · obtain ⟨a, ha, e⟩ := onePass_plain hplain hne prev parts.flatten
      rw [e, single, if_neg hplain, ih h.tail fun m' _ _ e' => ha (Option.some.inj e')]

/-! ## Finding the runs -/

/-- Both are `x`, or neither is. -/
def alike (x a b : α) : Bool := decide (a = x ↔ b = x)

theorem uniform_of_isChain {m : List α} (h : m.IsChain fun a b => alike x a b) :
    (∀ a ∈ m, a = x) ∨ x ∉ m := by
  induction m with
  | nil => exact Or.inr List.not_mem_nil
  | cons a m ih =>
    obtain ⟨hfirst, hrest⟩ := List.isChain_cons.1 h
    cases m with
    | nil =>
      by_cases ha : a = x
      · exact Or.inl (by simp [ha])
      · exact Or.inr (by simp [Ne.symm ha])
    | cons b m =>
      have hab : a = x ↔ b = x := by simpa [alike] using hfirst b rfl
      rcases ih hrest with hall | hnone
      · left
        intro c hc
        rcases List.mem_cons.1 hc with rfl | hc
        · exact hab.2 (hall b List.mem_cons_self)
        · exact hall c hc
      · right
        intro hx
        rcases List.mem_cons.1 hx with rfl | hx
        · exact hnone (hab.1 rfl ▸ List.mem_cons_self)
        · exact hnone hx

/-- Cutting a list wherever `x` meets another element gives its runs. -/
theorem exists_runs (x : α) (l : List α) : ∃ parts, Runs x l parts := by
  have huniform : ∀ m ∈ l.splitBy (alike x), (∀ a ∈ m, a = x) ∨ x ∉ m := fun m hm =>
    uniform_of_isChain (List.isChain_of_mem_splitBy hm)
  refine ⟨l.splitBy (alike x), List.flatten_splitBy _ l, fun m => List.ne_nil_of_mem_splitBy,
    huniform, ?_⟩
  apply (List.isChain_getLast_head_splitBy (alike x) l).imp_of_mem_imp
  rintro m m' hm hm' ⟨hne, hne', hcut⟩
  have hlast := mem_iff_of_uniform (huniform m hm) (List.getLast_mem hne)
  have hhead := mem_iff_of_uniform (huniform m' hm') (List.head_mem hne')
  have hdiffer : ¬(m.getLast hne = x ↔ m'.head hne' = x) := of_decide_eq_false hcut
  tauto

end Squeeze
