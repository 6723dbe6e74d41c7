import Mathlib.Data.List.TakeWhile
import Mathlib.Data.List.Infix
import Mathlib.Tactic.Common

/-!
# Lines of a byte sequence

A line ends at the first LF; one CR directly before that LF belongs to the line end and not to the
line.  `splitLine` takes the first line off a byte sequence.  The lemmas say when there is one
(`splitLine_eq_none_iff`), what it is (`splitLine_spec`), that bytes put behind do not change it
(`splitLine_append`), and how it is found again in `text ++ eol ++ rest` (`splitLine_line`).
-/

/-- A sequence of bytes. -/
abbrev Bytes := List UInt8

namespace ByteLines

/-- Line feed. -/
def lf : UInt8 := 10

/-- Carriage return. -/
def cr : UInt8 := 13

/-- CR LF. -/
def crlf : Bytes := [cr, lf]

theorem cr_ne_lf : cr ≠ lf := by decide

/-- A first line: its text, its line end and what follows. -/
structure Split where
  text : Bytes
  eol : Bytes
  rest : Bytes
  deriving DecidableEq, Repr

/-- The text and the line end of what stands before and at the first LF. -/
def cutEol (l : Bytes) : Bytes × Bytes :=
  if l.getLast? = some cr then (l.dropLast, [cr, lf]) else (l, [lf])

/-- Take the first line off, if there is a whole one. -/
def splitLine (b : Bytes) : Option Split :=
  match b.dropWhile (· != lf) with
  | [] => none
  | _ :: rest =>
    let l := cutEol (b.takeWhile (· != lf))
    some ⟨l.1, l.2, rest⟩

/-- `eol` ends a line with text `text`: it is CR LF, or LF after a text that does not end in CR. -/
def IsEol (text eol : Bytes) : Prop :=
  eol = [cr, lf] ∨ eol = [lf] ∧ text.getLast? ≠ some cr

theorem IsEol.length_pos {text eol : Bytes} (h : IsEol text eol) : 0 < eol.length := by
  rcases h with rfl | ⟨rfl, -⟩ <;> simp

theorem IsEol.length_le {text eol : Bytes} (h : IsEol text eol) : eol.length ≤ 2 := by
  rcases h with rfl | ⟨rfl, -⟩ <;> simp

theorem IsEol.count_lf {text eol : Bytes} (h : IsEol text eol) : eol.count lf = 1 := by
  rcases h with rfl | ⟨rfl, -⟩ <;> decide

theorem isEol_crlf (text : Bytes) : IsEol text [cr, lf] := Or.inl rfl

theorem isEol_blank : IsEol [] [cr, lf] := isEol_crlf []

theorem cutEol_spec (l : Bytes) (h : lf ∉ l) :
    l ++ [lf] = (cutEol l).1 ++ (cutEol l).2 ∧ lf ∉ (cutEol l).1 ∧ IsEol (cutEol l).1 (cutEol l).2 := by
  unfold cutEol
  split_ifs with hl
  · refine ⟨?_, fun hm => h (List.dropLast_subset _ hm), isEol_crlf _⟩
    obtain ⟨t, rfl⟩ := List.getLast?_eq_some_iff.1 hl
    simp
  · exact ⟨rfl, h, Or.inr ⟨rfl, hl⟩⟩

theorem span_lf (b : Bytes) :
    lf ∉ b ∨ ∃ l r, b = l ++ lf :: r ∧ lf ∉ l := by
  by_cases h : lf ∈ b
  · obtain ⟨l, r, rfl, hl⟩ := List.eq_append_cons_of_mem h
    exact Or.inr ⟨l, r, rfl, hl⟩
  · exact Or.inl h

theorem all_ne_lf {l : Bytes} (h : lf ∉ l) : ∀ a ∈ l, (a != lf) = true := by
  intro a ha
  rw [bne_iff_ne]
  rintro rfl
  exact h ha

theorem takeWhile_lf {l : Bytes} (h : lf ∉ l) (r : Bytes) :
    (l ++ lf :: r).takeWhile (· != lf) = l := by
  rw [List.takeWhile_append_of_pos (all_ne_lf h)]
  simp

theorem dropWhile_lf {l : Bytes} (h : lf ∉ l) (r : Bytes) :
    (l ++ lf :: r).dropWhile (· != lf) = lf :: r := by
  rw [List.dropWhile_append_of_pos (all_ne_lf h)]
  simp

theorem splitLine_of_not_mem {b : Bytes} (h : lf ∉ b) : splitLine b = none := by
  have : b.dropWhile (· != lf) = [] := List.dropWhile_eq_nil_iff.2 (all_ne_lf h)
  simp [splitLine, this]

theorem splitLine_lf {l : Bytes} (h : lf ∉ l) (r : Bytes) :
    splitLine (l ++ lf :: r) = some ⟨(cutEol l).1, (cutEol l).2, r⟩ := by
  simp [splitLine, dropWhile_lf h, takeWhile_lf h]

theorem splitLine_eq_none_iff {b : Bytes} : splitLine b = none ↔ lf ∉ b := by
  refine ⟨fun h => ?_, splitLine_of_not_mem⟩
  rcases span_lf b with hb | ⟨l, r, rfl, hl⟩
  · exact hb
  · simp [splitLine_lf hl] at h

theorem exists_splitLine {b : Bytes} (h : lf ∈ b) : ∃ s, splitLine b = some s :=
  Option.ne_none_iff_exists'.1 fun hnone => splitLine_eq_none_iff.1 hnone h

/-- What the first line of a byte sequence is. -/
theorem splitLine_spec {b : Bytes} {s : Split} (h : splitLine b = some s) :
    b = s.text ++ s.eol ++ s.rest ∧ lf ∉ s.text ∧ IsEol s.text s.eol := by
  rcases span_lf b with hb | ⟨l, r, rfl, hl⟩
  · simp [splitLine_of_not_mem hb] at h
  · obtain rfl : _ = s := by simpa [splitLine_lf hl] using h
    obtain ⟨e, ht, he⟩ := cutEol_spec l hl
    refine ⟨?_, ht, he⟩
    rw [← e]
    simp

theorem splitLine_append {b : Bytes} {s : Split} (h : splitLine b = some s) (x : Bytes) :
    splitLine (b ++ x) = some { s with rest := s.rest ++ x } := by
  rcases span_lf b with hb | ⟨l, r, rfl, hl⟩
  · simp [splitLine_of_not_mem hb] at h
  · obtain rfl : _ = s := by simpa [splitLine_lf hl] using h
    rw [List.append_assoc, List.cons_append, splitLine_lf hl]

theorem splitLine_line {text eol : Bytes} (ht : lf ∉ text) (he : IsEol text eol) (rest : Bytes) :
    splitLine (text ++ eol ++ rest) = some ⟨text, eol, rest⟩ := by
  rcases he with rfl | ⟨rfl, hl⟩
  · have h : lf ∉ text ++ [cr] := by simpa using ⟨ht, cr_ne_lf.symm⟩
    have := splitLine_lf h rest
    simpa [cutEol] using this
  · have := splitLine_lf ht rest
    simpa [cutEol, hl] using this

theorem splitLine_length_lt {b : Bytes} {s : Split} (h : splitLine b = some s) :
    s.rest.length < b.length := by
  obtain ⟨e, -, he⟩ := splitLine_spec h
  have := he.length_pos
  rw [e]
  simp only [List.length_append]
  omega

theorem splitLine_count_lf {b : Bytes} {s : Split} (h : splitLine b = some s) :
    b.count lf = 1 + s.rest.count lf := by
  obtain ⟨e, ht, he⟩ := splitLine_spec h
  rw [e, List.count_append, List.count_append, he.count_lf, List.count_eq_zero_of_not_mem ht]

/-- A line is found in a prefix as soon as its line end is in it. -/
theorem splitLine_take {b : Bytes} {s : Split} (h : splitLine b = some s) {m : ℕ}
    (hm : s.text.length + s.eol.length ≤ m) :
    splitLine (b.take m) = some { s with rest := s.rest.take (m - (s.text.length + s.eol.length)) } := by
  obtain ⟨e, ht, he⟩ := splitLine_spec h
  have : b.take m = s.text ++ s.eol ++ s.rest.take (m - (s.text.length + s.eol.length)) := by
    rw [e, List.take_append, List.take_of_length_le (by simpa using hm)]
    simp
  rw [this, splitLine_line ht he]

theorem splitLine_take_of_lt {b : Bytes} {s : Split} (h : splitLine b = some s) {m : ℕ}
    (hm : m < s.text.length + s.eol.length) : splitLine (b.take m) = none := by
  obtain ⟨e, ht, he⟩ := splitLine_spec h
  have hpre : lf ∉ s.text ++ s.eol.dropLast := by
    rcases he with he | ⟨he, -⟩ <;> simp [he, ht, cr_ne_lf.symm]
  have hb : b.take m = (s.text ++ s.eol.dropLast).take m := by
    have hlen := he.length_pos
    have : b = s.text ++ s.eol.dropLast ++ (lf :: s.rest) := by
      rcases he with he | ⟨he, -⟩ <;> simp [e, he]
    rw [this, List.take_append_of_le_length]
    simp only [List.length_append, List.length_dropLast]
    omega
  rw [splitLine_eq_none_iff, hb]
  exact fun hm => hpre (List.mem_of_mem_take hm)

theorem splitLine_prefix {b p : Bytes} {s : Split} (h : splitLine b = some s) (hp : p <+: b) :
    splitLine p = none ∨ ∃ w, w <+: s.rest ∧ p = s.text ++ s.eol ++ w := by
  rw [List.prefix_iff_eq_take.1 hp]
  rcases Nat.lt_or_ge p.length (s.text.length + s.eol.length) with hm | hm
  · exact Or.inl (splitLine_take_of_lt h hm)
  · exact Or.inr ⟨_, List.take_prefix _ _, (splitLine_spec (splitLine_take h hm)).1⟩

/-! ## Whole lines -/

/-- A line with its line end. -/
@[ext] structure Line where
  text : Bytes
  eol : Bytes
  lf_not_mem : lf ∉ text
  isEol : IsEol text eol

/-- The bytes of a line. -/
def Line.wire (l : Line) : Bytes := l.text ++ l.eol

/-- The bytes of lines one behind the other. -/
def wireLines (ls : List Line) : Bytes := (ls.map Line.wire).flatten

@[simp] theorem wireLines_nil : wireLines [] = [] := rfl

@[simp] theorem wireLines_cons (l : Line) (ls : List Line) :
    wireLines (l :: ls) = l.wire ++ wireLines ls := rfl

theorem splitLine_wire (l : Line) (rest : Bytes) :
    splitLine (l.wire ++ rest) = some ⟨l.text, l.eol, rest⟩ := splitLine_line l.lf_not_mem l.isEol rest

theorem wireLines_append (ls ms : List Line) : wireLines (ls ++ ms) = wireLines ls ++ wireLines ms := by
  simp [wireLines]

theorem wireLines_injective : Function.Injective wireLines := by
  intro ls ms h
  induction ls generalizing ms with
  | nil =>
    cases ms with
    | nil => rfl
    | cons m ms =>
      have hm := splitLine_wire m (wireLines ms)
      rw [← wireLines_cons, ← h] at hm
      cases hm
  | cons l ls ih =>
    have hl := splitLine_wire l (wireLines ls)
    rw [← wireLines_cons, h] at hl
    cases ms with
    | nil => cases hl
    | cons m ms =>
      rw [wireLines_cons, splitLine_wire, Option.some.injEq, Split.mk.injEq] at hl
      rw [Line.ext hl.1.symm hl.2.1.symm, ih hl.2.2.symm]

end ByteLines
