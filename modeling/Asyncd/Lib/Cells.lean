import Mathlib.Data.List.Count
import Mathlib.Tactic.SplitIfs

/-!
# Memory cells in slots

Cells are allocated one after the other, held in slots and freed.  A slot that is assigned a new cell
while it holds one loses it.  `Memory.Owns` says that every cell that was allocated is in one place, and
the operations keep it so; once no slot holds a cell, every cell has been freed once or is lost.
-/

namespace Cells

/-- The number of cells that were allocated, those that were freed, and those that were lost. -/
structure Memory where
  next : ℕ := 0
  freed : List ℕ := []
  lost : List ℕ := []

namespace Memory

/-- Assign a new cell to a slot. -/
def assign (m : Memory) (slot : Option ℕ) : Option ℕ × Memory :=
  (some m.next, { m with next := m.next + 1, lost := slot.toList ++ m.lost })

/-- Free the cell of a slot, if it holds one. -/
def free (m : Memory) (slot : Option ℕ) : Memory := { m with freed := slot.toList ++ m.freed }

/-- Every cell that was allocated is held in one of the slots, freed or lost, and in one place only. -/
def Owns (m : Memory) (slots : List (Option ℕ)) : Prop :=
  ∀ p, slots.count (some p) + m.freed.count p + m.lost.count p = if p < m.next then 1 else 0

theorem count_toList (slot : Option ℕ) (p : ℕ) :
    slot.toList.count p = if slot = some p then 1 else 0 := by
  cases slot with
  | none => simp
  | some q => simp [List.count_singleton]

theorem owns_blank {slots : List (Option ℕ)} (h : ∀ slot ∈ slots, slot = none) :
    ({} : Memory).Owns slots := by
  intro p
  have hnone : slots.count (some p) = 0 := List.count_eq_zero.2 fun hp => by
    have := h _ hp
    simp at this
  rw [hnone]
  rfl

theorem Owns.assign {m : Memory} {a b : List (Option ℕ)} {slot : Option ℕ}
    (h : m.Owns (a ++ slot :: b)) : (m.assign slot).2.Owns (a ++ (m.assign slot).1 :: b) := by
  intro p
  have hp := h p
  change (a ++ some m.next :: b).count (some p) + m.freed.count p +
    (slot.toList ++ m.lost).count p = if p < m.next + 1 then 1 else 0
  simp only [List.count_append, List.count_cons, count_toList, beq_iff_eq, Option.some.injEq] at hp ⊢
  split_ifs at hp ⊢ <;> omega

theorem Owns.free {m : Memory} {slot : Option ℕ} {slots : List (Option ℕ)}
    (h : m.Owns (slot :: slots)) : (m.free slot).Owns slots := by
  intro p
  have hp := h p
  change slots.count (some p) + (slot.toList ++ m.freed).count p + m.lost.count p =
    if p < m.next then 1 else 0
  simp only [List.count_append, List.count_cons, count_toList, beq_iff_eq] at hp ⊢
  omega

/-- Free the cells of several slots. -/
def freeAll (m : Memory) (slots : List (Option ℕ)) : Memory := slots.foldl free m

theorem Owns.freeAll {m : Memory} {slots : List (Option ℕ)} (h : m.Owns slots) :
    (m.freeAll slots).Owns [] := by
  induction slots generalizing m with
  | nil => exact h
  | cons slot slots ih => exact ih h.free

@[simp] theorem freeAll_next (m : Memory) (slots : List (Option ℕ)) :
    (m.freeAll slots).next = m.next := by
  induction slots generalizing m with
  | nil => rfl
  | cons slot slots ih => exact ih (m.free slot)

@[simp] theorem freeAll_lost (m : Memory) (slots : List (Option ℕ)) :
    (m.freeAll slots).lost = m.lost := by
  induction slots generalizing m with
  | nil => rfl
  | cons slot slots ih => exact ih (m.free slot)

/-- When no slot holds a cell, each was freed once or is lost. -/
theorem Owns.once {m : Memory} (h : m.Owns []) (p : ℕ) :
    m.freed.count p + m.lost.count p = if p < m.next then 1 else 0 := by
  have hp := h p
  rwa [List.count_nil, Nat.zero_add] at hp

end Memory

end Cells
