import Mathlib.Order.Lattice
import Mathlib.Data.List.Basic
import Mathlib.Tactic.TypeStar

/-!
# Serving in order, one at a time

Items become ready at given moments, in order, and at each of a sequence of occasions the first item
that is left is served if it is ready.  `serve` is what is left in the end, and `serve_eq_nil_iff` says
when that is nothing: for every item, enough occasions are left once it is ready.  `served` are the items
that are served, and `upTo` those up to the first that ends the service.
-/

namespace Serving

variable {α : Type*} [LinearOrder α]

/-- The ready times that are left after the occasions. -/
def serve : List α → List α → List α
  | ready, [] => ready
  | [], _ :: _ => []
  | b :: ready, e :: occasions =>
    if b ≤ e then serve ready occasions else serve (b :: ready) occasions

@[simp] theorem serve_nil_right (ready : List α) : serve ready [] = ready := by
  cases ready <;> rfl

@[simp] theorem serve_nil_left (occasions : List α) : serve [] occasions = [] := by
  cases occasions <;> rfl

theorem serve_of_le {b e : α} (h : b ≤ e) (ready occasions : List α) :
    serve (b :: ready) (e :: occasions) = serve ready occasions := if_pos h

theorem serve_of_lt {b e : α} (h : e < b) (ready occasions : List α) :
    serve (b :: ready) (e :: occasions) = serve (b :: ready) occasions := if_neg (not_le.2 h)

theorem serve_length_le (ready occasions : List α) :
    (serve ready occasions).length ≤ ready.length := by
  induction occasions generalizing ready with
  | nil => simp
  | cons e occasions ih =>
    cases ready with
    | nil => simp
    | cons b ready =>
      obtain h | h := le_or_gt b e
      · rw [serve_of_le h]
        exact (ih ready).trans (Nat.le_succ _)
      · rw [serve_of_lt h]
        exact ih (b :: ready)

/-- Enough occasions are left for every item once it is ready. -/
def Enough (ready occasions : List α) : Prop :=
  ∀ k b, ready[k]? = some b → ready.length - k ≤ occasions.countP (b ≤ ·)

theorem enough_cons {b : α} {ready occasions : List α} :
    Enough (b :: ready) occasions ↔
      ready.length + 1 ≤ occasions.countP (b ≤ ·) ∧ Enough ready occasions := by
  constructor
  · intro h
    refine ⟨by simpa using h 0 b rfl, fun k c hk => ?_⟩
    simpa using h (k + 1) c hk
  · rintro ⟨h0, h⟩ k c hk
    cases k with
    | zero =>
      obtain rfl := Option.some.inj hk
      simpa using h0
    | succ k => simpa using h k c hk

theorem enough_of_lt {b e : α} (hb : e < b) {ready occasions : List α}
    (hsorted : (b :: ready).Pairwise (· ≤ ·)) :
    Enough (b :: ready) (e :: occasions) ↔ Enough (b :: ready) occasions := by
  apply forall_congr'
  intro k
  apply forall_congr'
  intro c
  apply imp_congr_right
  intro hk
  have hc : b ≤ c := by
    obtain rfl | hmem := List.mem_cons.1 (List.mem_of_getElem? hk)
    · exact le_rfl
    · exact List.rel_of_pairwise_cons hsorted hmem
  rw [List.countP_cons_of_neg (by simpa using hb.trans_le hc)]

/-- Everything is served exactly if enough occasions are left for every item. -/
theorem serve_eq_nil_iff {ready occasions : List α} (hr : ready.Pairwise (· ≤ ·))
    (ho : occasions.Pairwise (· ≤ ·)) : serve ready occasions = [] ↔ Enough ready occasions := by
  induction occasions generalizing ready with
  | nil =>
    cases ready with
    | nil => simp [Enough]
    | cons b ready => simp [enough_cons]
  | cons e occasions ih =>
    obtain ⟨hall, ho⟩ := List.pairwise_cons.1 ho
    cases ready with
    | nil => simp [Enough]
    | cons b ready =>
      obtain ⟨hbr, hr'⟩ := List.pairwise_cons.1 hr
      obtain hbe | hbe := le_or_gt b e
      · have hcount : ∀ c ≤ e, (e :: occasions).countP (c ≤ ·) = occasions.length + 1 := by
          intro c hc
          rw [List.countP_eq_length.2 (by simpa [hc] using fun a ha => hc.trans (hall a ha))]
          rfl
        rw [serve_of_le hbe, ih hr' ho, enough_cons, hcount b hbe]
        constructor
        · intro h
          refine ⟨?_, fun k c hk => ?_⟩
          · cases ready with
            | nil => simp
            | cons c ready =>
              have := (h 0 c rfl).trans List.countP_le_length
              simpa using this
          · apply (h k c hk).trans
            exact (List.sublist_cons_self _ _).countP_le
        · rintro ⟨h0, h⟩ k c hk
          have hk' := h k c hk
          obtain hce | hce := le_or_gt c e
          · have hocc : occasions.countP (c ≤ ·) = occasions.length :=
              List.countP_eq_length.2 (by simpa using fun a ha => hce.trans (hall a ha))
            rw [hocc]
            omega
          · rwa [List.countP_cons_of_neg (by simpa using hce)] at hk'
      · rw [serve_of_lt hbe, ih hr ho, enough_of_lt hbe hr]

section

variable {β : Type*}

/-- The items that are served, if `ready` are their ready times. -/
def served (items : List β) (ready occasions : List α) : List β :=
  items.take (items.length - (serve ready occasions).length)

theorem served_nil_right {items : List β} {ready : List α} (h : ready.length = items.length) :
    served items ready [] = [] := by
  rw [served, serve_nil_right, h, Nat.sub_self, List.take_zero]

@[simp] theorem served_nil (ready occasions : List α) : served ([] : List β) ready occasions = [] :=
  List.take_nil

theorem served_of_lt {b e : α} (h : e < b) (items : List β) (ready occasions : List α) :
    served items (b :: ready) (e :: occasions) = served items (b :: ready) occasions := by
  rw [served, serve_of_lt h, served]

theorem served_of_le {b e : α} (h : b ≤ e) (a : β) {items : List β} {ready : List α}
    (hlen : ready.length = items.length) (occasions : List α) :
    served (a :: items) (b :: ready) (e :: occasions) = a :: served items ready occasions := by
  have hle := serve_length_le ready occasions
  rw [served, serve_of_le h, List.length_cons, Nat.sub_add_comm (hlen ▸ hle), List.take_succ_cons, served]

theorem served_of_enough {ready occasions : List α} (hr : ready.Pairwise (· ≤ ·))
    (ho : occasions.Pairwise (· ≤ ·)) (h : Enough ready occasions) (items : List β) :
    served items ready occasions = items := by
  rw [served, (serve_eq_nil_iff hr ho).2 h, List.length_nil, Nat.sub_zero, List.take_length]

end

section

variable {β : Type*} (ends : β → Prop) [DecidablePred ends]

/-- The items up to the first that ends the service, with it. -/
def upTo : List β → List β
  | [] => []
  | b :: l => if ends b then [b] else b :: upTo l

variable {ends}

@[simp] theorem upTo_nil : upTo ends [] = [] := rfl

theorem upTo_cons_of_pos {b : β} (h : ends b) (l : List β) : upTo ends (b :: l) = [b] := if_pos h

theorem upTo_cons_of_neg {b : β} (h : ¬ends b) (l : List β) :
    upTo ends (b :: l) = b :: upTo ends l := if_neg h

theorem upTo_congr {ends' : β → Prop} [DecidablePred ends'] (h : ∀ b, ends b ↔ ends' b)
    (l : List β) : upTo ends l = upTo ends' l := by
  induction l with
  | nil => rfl
  | cons b l ih =>
    by_cases hb : ends b
    · rw [upTo_cons_of_pos hb, upTo_cons_of_pos ((h b).1 hb)]
    · rw [upTo_cons_of_neg hb, upTo_cons_of_neg fun h' => hb ((h b).2 h'), ih]

end

end Serving
