import Asyncd.Lib.CString

/-!
# What the server uses of qlibc

The string functions and the header table (`qlisttbl` with the unique and case-insensitive options),
as qlibc documents them.  A table is an ordered list in which no two names agree up to the case of
letters; a put takes an equal name out and appends.  `qurl_decode` is not fixed: it is the parameter
`UrlDecoder`.
-/

open CString

namespace Asyncd

/-! ## Strings -/

/-- `qurl_decode`: what decoding a string in place leaves in memory.  The result is read up to its
first NUL.  Decoding keeps a leading `/`. -/
class UrlDecoder where
  qurlDecode : Bytes → Bytes
  decode_slash : ∀ s, ∃ t, qurlDecode (47 :: s) = 47 :: t

/-- Percent-decoding, with `+` for a space.  The first argument counts the bytes of an escape that are
still to be skipped. -/
def percentDecodeAux : ℕ → Bytes → Bytes
  | _, [] => []
  | k + 1, _ :: s => percentDecodeAux k s
  | 0, c :: s =>
    if c = 43 then 32 :: percentDecodeAux 0 s
    else if c = 37 then
      UInt8.ofNat (16 * digitVal (s.getD 0 0) + digitVal (s.getD 1 0)) :: percentDecodeAux 2 s
    else c :: percentDecodeAux 0 s

/-- A decoder for evaluation. -/
@[reducible] def percentDecoder : UrlDecoder where
  qurlDecode := percentDecodeAux 0
  decode_slash s := ⟨percentDecodeAux 0 s, rfl⟩

/-- `qstrtrim`: remove the white space at both ends. -/
def qstrtrim (s : Bytes) : Bytes := (s.dropWhile isSpace).rdropWhile isSpace

/-- `qstrupper`. -/
def qstrupper (s : Bytes) : Bytes := s.map toUpper

/-- `qstrreplace("sr", src, tok, word)`: replace the occurrences of `tok` from left to right.  The
first argument counts the bytes of an occurrence that are still to be skipped. -/
def qstrreplaceAux (tok word : Bytes) : ℕ → Bytes → Bytes
  | _, [] => []
  | k + 1, _ :: s => qstrreplaceAux tok word k s
  | 0, c :: s =>
    if tok.isPrefixOf (c :: s) then word ++ qstrreplaceAux tok word (tok.length - 1) s
    else c :: qstrreplaceAux tok word 0 s

def qstrreplace (src tok word : Bytes) : Bytes := qstrreplaceAux tok word 0 src

/-! ## Header tables -/

/-- A header table: names with values, in order, no two names equal up to case. -/
@[ext] structure Qlisttbl where
  entries : List (Bytes × Bytes)
  unique : entries.Pairwise fun a b => eqIgnoreCase a.1 b.1 = false

namespace Qlisttbl

instance : DecidableEq Qlisttbl := fun s t =>
  decidable_of_iff (s.entries = t.entries) Qlisttbl.ext_iff.symm

/-- `qlisttbl()`. -/
def empty : Qlisttbl := ⟨[], List.Pairwise.nil⟩

/-- `tbl->remove(tbl, name)`. -/
def remove (t : Qlisttbl) (name : Bytes) : Qlisttbl where
  entries := t.entries.filter fun e => !eqIgnoreCase e.1 name
  unique := t.unique.filter _

/-- `tbl->putstr(tbl, name, value)`. -/
def putstr (t : Qlisttbl) (name value : Bytes) : Qlisttbl where
  entries := (t.remove name).entries ++ [(name, value)]
  unique := by
    refine List.pairwise_append.2 ⟨(t.remove name).unique, List.pairwise_singleton _ _, ?_⟩
    intro a ha b hb
    obtain rfl : b = (name, value) := by simpa using hb
    simpa using (List.mem_filter.1 ha).2

/-- `tbl->getstr(tbl, name, false)`. -/
def getstr (t : Qlisttbl) (name : Bytes) : Option Bytes :=
  (t.entries.find? fun e => eqIgnoreCase e.1 name).map (·.2)

theorem mem_remove {t : Qlisttbl} {name : Bytes} {e : Bytes × Bytes} :
    e ∈ (t.remove name).entries ↔ e ∈ t.entries ∧ eqIgnoreCase e.1 name = false := by
  simp [remove]

theorem mem_putstr {t : Qlisttbl} {name value : Bytes} {e : Bytes × Bytes} :
    e ∈ (t.putstr name value).entries ↔
      e ∈ t.entries ∧ eqIgnoreCase e.1 name = false ∨ e = (name, value) := by
  simp [putstr, mem_remove]

theorem getstr_eq_none_iff (t : Qlisttbl) (name : Bytes) :
    t.getstr name = none ↔ ∀ e ∈ t.entries, eqIgnoreCase e.1 name = false := by
  simp [getstr, List.find?_eq_none]

theorem getstr_remove_of_eq (t : Qlisttbl) {n m : Bytes} (h : eqIgnoreCase n m = true) :
    (t.remove n).getstr m = none := by
  rw [getstr_eq_none_iff]
  intro e he
  have := (List.mem_filter.1 he).2
  rw [Bool.not_eq_true'] at this
  rwa [eqIgnoreCase_comm, ← eqIgnoreCase_trans h, eqIgnoreCase_comm]

theorem getstr_remove_of_ne (t : Qlisttbl) {n m : Bytes} (h : eqIgnoreCase n m = false) :
    (t.remove n).getstr m = t.getstr m := by
  have key : ∀ e : Bytes × Bytes, eqIgnoreCase e.1 m = true → (!eqIgnoreCase e.1 n) = true := by
    intro e he
    rw [Bool.not_eq_true', eqIgnoreCase_trans he, eqIgnoreCase_comm, h]
  simp only [getstr, remove]
  congr 1
  induction t.entries with
  | nil => rfl
  | cons e es ih =>
    rw [List.filter_cons]
    by_cases hm : eqIgnoreCase e.1 m = true
    · simp [key e hm, hm]
    · by_cases hn : (!eqIgnoreCase e.1 n) = true <;> simp [hn, hm, ih]

theorem getstr_putstr_of_eq (t : Qlisttbl) {n m : Bytes} (v : Bytes) (h : eqIgnoreCase n m = true) :
    (t.putstr n v).getstr m = some v := by
  have hr : (t.remove n).entries.find? (fun e => eqIgnoreCase e.1 m) = none := by
    simpa [getstr] using t.getstr_remove_of_eq h
  simp [getstr, putstr, List.find?_append, hr, h]

theorem getstr_putstr_of_ne (t : Qlisttbl) {n m : Bytes} (v : Bytes) (h : eqIgnoreCase n m = false) :
    (t.putstr n v).getstr m = t.getstr m := by
  rw [← t.getstr_remove_of_ne h]
  simp [getstr, putstr, List.find?_append, h]

end Qlisttbl

end Asyncd
