import Asyncd.Lib.ByteLines

/-!
# libevent buffers

An `evbuffer` is a byte FIFO, taken here as the list of its bytes, and a line read with
`EVBUFFER_EOL_CRLF` ends at the first LF, with one CR directly before it.  A new content is returned
beside the result.
-/

open ByteLines

namespace Asyncd

/-- `evbuffer_search_eol(b, NULL, &len, EVBUFFER_EOL_CRLF)`: position and length of the line end. -/
def evbufferSearchEol (b : Bytes) : Option (ℕ × ℕ) :=
  (splitLine b).map fun s => (s.text.length, s.eol.length)

/-- `evbuffer_readln(b, NULL, EVBUFFER_EOL_CRLF)`: the bytes of the line, which are then read as a C
string, and the new content. -/
def evbufferReadln (b : Bytes) : Option (Bytes × Bytes) :=
  (splitLine b).map fun s => (s.text, s.rest)

/-- `evbuffer_remove(b, data, n)`: the bytes removed and the new content. -/
def evbufferRemove (b : Bytes) (n : ℕ) : Bytes × Bytes := (b.take n, b.drop n)

/-- `evbuffer_remove_buffer(src, dst, n)`: moves the smaller of `n` and the length of `src`, and
returns how many bytes that are, with the new contents of `src` and `dst`. -/
def evbufferRemoveBuffer (src dst : Bytes) (n : ℕ) : ℕ × Bytes × Bytes :=
  (min n src.length, src.drop n, dst ++ src.take n)

theorem evbufferReadln_eq_none_iff {b : Bytes} : evbufferReadln b = none ↔ lf ∉ b := by
  simp [evbufferReadln, splitLine_eq_none_iff]

theorem evbufferReadln_append {b line rest : Bytes} (h : evbufferReadln b = some (line, rest))
    (x : Bytes) : evbufferReadln (b ++ x) = some (line, rest ++ x) := by
  simp only [evbufferReadln, Option.map_eq_some_iff] at h ⊢
  obtain ⟨s, hs, he⟩ := h
  cases he
  exact ⟨_, splitLine_append hs x, rfl⟩

theorem evbufferReadln_line {text eol : Bytes} (ht : lf ∉ text) (he : IsEol text eol) (rest : Bytes) :
    evbufferReadln (text ++ eol ++ rest) = some (text, rest) := by
  rw [evbufferReadln, splitLine_line ht he rest]
  rfl

theorem evbufferReadln_length_lt {b line rest : Bytes} (h : evbufferReadln b = some (line, rest)) :
    rest.length < b.length := by
  simp only [evbufferReadln, Option.map_eq_some_iff] at h
  obtain ⟨s, hs, he⟩ := h
  cases he
  exact splitLine_length_lt hs

theorem evbufferReadln_spec {b line rest : Bytes} (h : evbufferReadln b = some (line, rest)) :
    ∃ eol, b = line ++ eol ++ rest ∧ lf ∉ line ∧ IsEol line eol := by
  simp only [evbufferReadln, Option.map_eq_some_iff] at h
  obtain ⟨s, hs, he⟩ := h
  cases he
  exact ⟨s.eol, splitLine_spec hs⟩

theorem evbufferReadln_wire (l : Line) (rest : Bytes) :
    evbufferReadln (l.wire ++ rest) = some (l.text, rest) := by
  rw [evbufferReadln, splitLine_wire]
  rfl

/-! ## Lines with any line end -/

/-- The byte is a CR or a LF. -/
def IsEolByte (c : UInt8) : Prop := c = cr ∨ c = lf

instance : DecidablePred IsEolByte := fun c => inferInstanceAs (Decidable (c = cr ∨ c = lf))

/-- `evbuffer_readln(b, NULL, EVBUFFER_EOL_ANY)`: the line ends at the first CR or LF, with all that
follow it. -/
def evbufferReadlnAny (b : Bytes) : Option (Bytes × Bytes) :=
  let line := b.takeWhile fun c => ¬IsEolByte c
  if line.length = b.length then none
  else some (line, (b.drop line.length).dropWhile fun c => IsEolByte c)

theorem takeWhile_not_isEolByte {text : Bytes} (h : ∀ c ∈ text, ¬IsEolByte c) :
    (text.takeWhile fun c => ¬IsEolByte c) = text :=
  List.takeWhile_eq_self_iff.2 fun c hc => by simpa using h c hc

theorem evbufferReadlnAny_none {b : Bytes} (h : ∀ c ∈ b, ¬IsEolByte c) : evbufferReadlnAny b = none :=
  if_pos (congrArg List.length (takeWhile_not_isEolByte h))

theorem evbufferReadlnAny_line {text rest : Bytes} {eol : UInt8} (ht : ∀ c ∈ text, ¬IsEolByte c)
    (he : IsEolByte eol) (hr : ∀ c ∈ rest.head?, ¬IsEolByte c) :
    evbufferReadlnAny (text ++ eol :: rest) = some (text, rest) := by
  have hline : ((text ++ eol :: rest).takeWhile fun c => ¬IsEolByte c) = text := by
    rw [List.takeWhile_append_of_pos fun c hc => by simpa using ht c hc,
      List.takeWhile_cons_of_neg (by simpa using he), List.append_nil]
  have hrest : (rest.dropWhile fun c => IsEolByte c) = rest := by
    cases rest with
    | nil => rfl
    | cons c rest => exact List.dropWhile_cons_of_neg (by simpa using hr c rfl)
  have hlen : text.length ≠ (text ++ eol :: rest).length := by
    rw [List.length_append, List.length_cons]
    omega
  rw [evbufferReadlnAny, hline, if_neg hlen, List.drop_left,
    List.dropWhile_cons_of_pos (by simpa using he), hrest]

end Asyncd
