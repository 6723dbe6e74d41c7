import Asyncd.Http.ChunkCuts

/-!
# What `parse_chunked_body` takes

The documentation of `parse_chunked_body` promises the number of bytes in a chunk, -1 for not enough data
and -2 for a format error.  `consumesExactly_iff` says when the bytes it removes are those of a chunk, and
`keepsSize_iff` when the size it acts on is the one on the size line.
-/

open CString ByteLines

namespace Asyncd

/-! ## The bytes that are removed -/

/-- Something has arrived that is neither a line end nor the CR of one. -/
def Garbage (tail : Bytes) : Prop :=
  tail ≠ [] ∧ tail ≠ [cr] ∧ ¬[lf] <+: tail ∧ ¬[cr, lf] <+: tail

/-- What a call of `parse_chunked_body` should do: a chunk is removed with its size line and both its
line ends, and its data is kept; data without line end is refused; otherwise nothing changes. -/
structure ConsumesExactly (http : AdHttp) (inb : Bytes) : Prop where
  exact : ∀ n : ℕ, (parseChunkedBody http inb).1 = n →
    ∃ (size : Line) (data eol : Bytes), data.length = n ∧ IsEol [] eol ∧
      inb = size.wire ++ data ++ eol ++ (parseChunkedBody http inb).2.2 ∧
      (parseChunkedBody http inb).2.1 = http.setInbuf (http.request.inbuf ++ data)
  refused : ∀ (size : Line) (data tail : Bytes), inb = size.wire ++ data ++ tail →
    chunkSize size.text = data.length → Garbage tail → (parseChunkedBody http inb).1 = -2
  unchanged : (parseChunkedBody http inb).1 = -1 ∨ (parseChunkedBody http inb).1 = -2 →
    (parseChunkedBody http inb).2 = (http, inb)

/-- Behind the data that the size line announces there is a line end; or nothing or a CR, and
`parse_chunked_body` waits for more. -/
def ChunkEnds (inb : Bytes) : Prop :=
  ∀ s, splitLine inb = some s → ∀ n : ℕ, chunkSize s.text = n →
    ([lf] <+: s.rest.drop n ∨ [cr, lf] <+: s.rest.drop n) ∨
      (s.rest.drop n = [] ∨ s.rest.drop n = [cr]) ∧ s.rest.length < awaited s n

section

variable {http : AdHttp} {inb : Bytes}

theorem parseChunkedBody_unchanged
    (h : (parseChunkedBody http inb).1 = -1 ∨ (parseChunkedBody http inb).1 = -2) :
    (parseChunkedBody http inb).2 = (http, inb) := by
  rw [parseChunkedBody_eq] at h ⊢
  cases htake : takeChunk inb with
  | more => rfl
  | malformed => rfl
  | chunk n data rest =>
    rw [htake] at h
    dsimp only at h
    omega

/-- `parse_chunked_body` at a size line that it accepts. -/
theorem parseChunkedBody_size {s : Split} (hs : splitLine inb = some s) {n : ℕ}
    (hn : chunkSize s.text = n) :
    parseChunkedBody http inb =
      if s.rest.length < awaited s n then (-1, http, inb)
      else ((n : ℤ), http.setInbuf (http.request.inbuf ++ s.rest.take n), dropLine (s.rest.drop n)) := by
  obtain ⟨e, ht, he⟩ := splitLine_spec hs
  have htake := takeChunk_line ht he (by omega) s.rest
  rw [← e, hn, Int.toNat_natCast] at htake
  rw [parseChunkedBody_eq, htake]
  split_ifs <;> rfl

theorem dropLine_eol {eol : Bytes} (he : IsEol [] eol) (rest : Bytes) : dropLine (eol ++ rest) = rest :=
  dropLine_of_some (splitLine_line List.not_mem_nil he rest)

theorem exists_isEol_iff {tail : Bytes} :
    ([lf] <+: tail ∨ [cr, lf] <+: tail) ↔ ∃ eol, IsEol [] eol ∧ eol <+: tail := by
  constructor
  · rintro (h | h)
    · exact ⟨[lf], Or.inr ⟨rfl, by simp⟩, h⟩
    · exact ⟨[cr, lf], Or.inl rfl, h⟩
  · rintro ⟨eol, rfl | ⟨rfl, -⟩, h⟩
    · exact Or.inr h
    · exact Or.inl h

theorem not_garbage_iff {tail : Bytes} :
    ¬Garbage tail ↔ ([lf] <+: tail ∨ [cr, lf] <+: tail) ∨ tail = [] ∨ tail = [cr] := by
  unfold Garbage
  tauto

theorem exists_size {n : ℕ} (h : (parseChunkedBody http inb).1 = n) :
    ∃ s, splitLine inb = some s ∧ chunkSize s.text = n ∧ awaited s n ≤ s.rest.length := by
  cases hs : splitLine inb with
  | none =>
    rw [parseChunkedBody_eq, takeChunk_of_none hs] at h
    dsimp only at h
    omega
  | some s =>
    obtain ⟨e, ht, he⟩ := splitLine_spec hs
    by_cases hneg : chunkSize s.text < 0
    · have hmal := takeChunk_malformed ht he hneg s.rest
      rw [← e] at hmal
      rw [parseChunkedBody_eq, hmal] at h
      dsimp only at h
      omega
    · obtain ⟨m, hm⟩ := Int.eq_ofNat_of_zero_le (not_lt.1 hneg)
      rw [parseChunkedBody_size hs hm] at h
      split_ifs at h with hshort
      · dsimp only at h
        omega
      · have hmn : m = n := Int.ofNat_inj.1 h
        exact ⟨s, rfl, hmn ▸ hm, hmn ▸ not_lt.1 hshort⟩

theorem ChunkEnds.consumesExactly (h : ChunkEnds inb) : ConsumesExactly http inb := by
  refine ⟨fun n hret => ?_, fun size data tail hinb hsize hbad => ?_, parseChunkedBody_unchanged⟩
  · obtain ⟨s, hs, hn, hlong⟩ := exists_size hret
    obtain ⟨e, ht, he⟩ := splitLine_spec hs
    have hends := (h s hs n hn).resolve_right fun hw => not_lt.2 hlong hw.2
    obtain ⟨eol, heol, left, hleft⟩ := exists_isEol_iff.1 hends
    have hdrain : dropLine (s.rest.drop n) = left := by rw [← hleft, dropLine_eol heol]
    have hlen : n ≤ s.rest.length := by
      have := congrArg List.length hleft
      have := heol.length_pos
      simp only [List.length_append, List.length_drop] at *
      omega
    rw [parseChunkedBody_size hs hn, if_neg (not_lt.2 hlong)]
    refine ⟨⟨s.text, s.eol, ht, he⟩, s.rest.take n, eol, List.length_take_of_le hlen, heol, ?_, rfl⟩
    dsimp only
    rw [hdrain, List.append_assoc _ eol, hleft, List.append_assoc, List.take_append_drop]
    exact e
  · exfalso
    have hs : splitLine inb = some ⟨size.text, size.eol, data ++ tail⟩ := by
      rw [hinb, List.append_assoc]
      exact splitLine_wire size _
    have hends := h _ hs data.length hsize
    rw [List.drop_left] at hends
    exact not_garbage_iff.2 (hends.imp_right And.left) hbad

theorem ConsumesExactly.chunkEnds (h : ConsumesExactly http inb) : ChunkEnds inb := by
  intro s hs n hn
  obtain ⟨e, ht, he⟩ := splitLine_spec hs
  have hrun := @parseChunkedBody_size http _ _ hs _ hn
  by_cases hshort : s.rest.length < awaited s n
  · -- nothing is taken: behind whole data there is no garbage
    have hclean : ¬Garbage (s.rest.drop n) := by
      intro hbad
      have hlen : n ≤ s.rest.length := by
        by_contra hlt
        exact hbad.1 (List.drop_eq_nil_of_le (by omega))
      have hret := h.refused ⟨s.text, s.eol, ht, he⟩ (s.rest.take n) (s.rest.drop n)
        (by rw [List.append_assoc, List.take_append_drop]; exact e)
        (by rw [List.length_take_of_le hlen]; exact hn) hbad
      rw [hrun, if_pos hshort] at hret
      dsimp only at hret
      omega
    exact (not_garbage_iff.1 hclean).imp_right fun htail => ⟨htail, hshort⟩
  · rw [if_neg hshort] at hrun
    obtain ⟨size, data, eol, hlen, heol, hinb, -⟩ := h.exact n (by rw [hrun])
    rw [hrun] at hinb
    have hsplit : splitLine inb = some ⟨size.text, size.eol, data ++ eol ++ dropLine (s.rest.drop n)⟩ := by
      rw [hinb, List.append_assoc, List.append_assoc]
      simpa using splitLine_wire size (data ++ (eol ++ dropLine (s.rest.drop n)))
    rw [hs, Option.some.injEq] at hsplit
    have hrest : s.rest = data ++ (eol ++ dropLine (s.rest.drop n)) := by
      have := congrArg Split.rest hsplit
      simpa using this
    left
    apply exists_isEol_iff.2
    refine ⟨eol, heol, dropLine (s.rest.drop n), ?_⟩
    conv_rhs => rw [hrest, ← hlen, List.drop_left]
    rw [hlen]

end

/-- `parse_chunked_body` removes exactly a chunk if and only if the data that the size line announces has
its line end behind it, or that is still to come and waited for. -/
theorem consumesExactly_iff (http : AdHttp) (inb : Bytes) : ConsumesExactly http inb ↔ ChunkEnds inb :=
  ⟨ConsumesExactly.chunkEnds, ChunkEnds.consumesExactly⟩

/-- Data behind the announced byte is drained with the line. -/
theorem chunk_with_garbage : ¬ConsumesExactly freshHttp (bytes "1\r\nAXYZ\n") := by
  intro h
  have hret := h.refused ⟨bytes "1", crlf, by decide, Or.inl rfl⟩ (bytes "A") (bytes "XYZ\n")
    (by decide) (by decide) ⟨by decide, by decide, by decide, by decide⟩
  revert hret
  decide

/-! ## The size on the size line -/

/-- The size line says `v`: `parse_chunked_body` takes a chunk of `v` bytes, or reports that data is
missing or a format error; and only for 0 it is the end of the body. -/
structure KeepsSize (http : AdHttp) (inb rest : Bytes) (v : ℕ) : Prop where
  size : (parseChunkedBody http inb).1 = -1 ∨ (parseChunkedBody http inb).1 = -2 ∨
    (parseChunkedBody http inb).1 = v ∧ v ≤ rest.length ∧
      (parseChunkedBody http inb).2.1 = http.setInbuf (http.request.inbuf ++ rest.take v)
  done : http.request.status = .headerDone → ∀ r, chunkStep (http, inb) = .inr (.done, r) → v = 0

/-- The low 32 bits of a value that does not saturate, where bit 31 is not set. -/
theorem bmod_low {v : ℕ} (h64 : v < 2 ^ 64) (h31 : v % 2 ^ 32 < 2 ^ 31) :
    Int.bmod (min (v : ℤ) (2 ^ 64 - 1)) (2 ^ 32) = (v % 2 ^ 32 : ℕ) := by
  rw [min_eq_left (by omega), Int.bmod_def]
  split_ifs <;> omega

/-- A value that saturates, or has bit 31 set, is stored as a negative number. -/
theorem bmod_neg {v : ℕ} (h : 2 ^ 64 ≤ v ∨ 2 ^ 31 ≤ v % 2 ^ 32) :
    Int.bmod (min (v : ℤ) (2 ^ 64 - 1)) (2 ^ 32) < 0 := by
  rcases Nat.lt_or_ge v (2 ^ 64) with hlt | hge
  · have h31 := h.resolve_left (not_le.2 hlt)
    rw [min_eq_left (by omega), Int.bmod_def]
    split_ifs <;> omega
  · rw [min_eq_right (by omega)]
    decide

section

variable {http : AdHttp} {size : Line} {ds ext : Bytes} {v : ℕ}

theorem chunkSize_text (htext : size.text = ds ++ ext) (hds : IsNumeral 16 ds v)
    (hext : ∀ c ∈ ext.head?, c = 59) :
    chunkSize size.text = Int.bmod (min (v : ℤ) (2 ^ 64 - 1)) (2 ^ 32) := by
  have hnul : ∀ c ∈ ds, (c != 0) = true := by
    intro c hc
    rw [bne_iff_ne]
    rintro rfl
    exact absurd (hds.digits 0 hc) (by decide)
  have hcstr : cstr (ds ++ ext) = ds ++ cstr ext := List.takeWhile_append_of_pos hnul
  rw [chunkSize, htext, hcstr, scanHex_numeral hds, Option.getD_some]
  intro c hc
  have h59 : c = 59 := by
    apply hext
    cases ext with
    | nil => cases hc
    | cons e ext =>
      rw [hext e rfl] at hc ⊢
      exact hc
  rw [h59]
  decide

theorem chunkStep_done (hst : http.request.status = .headerDone) {inb : Bytes}
    {r : AdHttp × Bytes} (h : chunkStep (http, inb) = .inr (.done, r)) :
    (parseChunkedBody http inb).1 = 0 := by
  simp only [chunkStep] at h
  split_ifs at h with hpos hzero hmore
  · exact hzero
  · have hsame := congrArg Prod.fst (parseChunkedBody_unchanged (Or.inl hmore))
    rw [hsame, hst] at h
    cases h
  · cases h

/-- The size of a chunk is kept exactly if the value saturates, if its low 32 bits are negative, if less
has arrived than a chunk of the size of these bits needs, or if the value is below `2 ^ 31` and that many
bytes are there. -/
theorem keepsSize_iff (http : AdHttp) (htext : size.text = ds ++ ext) (hds : IsNumeral 16 ds v)
    (hext : ∀ c ∈ ext.head?, c = 59) (rest : Bytes) :
    KeepsSize http (size.wire ++ rest) rest v ↔
      2 ^ 64 ≤ v ∨ 2 ^ 31 ≤ v % 2 ^ 32 ∨
        rest.length < awaited ⟨size.text, size.eol, rest⟩ (v % 2 ^ 32) ∨
          v < 2 ^ 31 ∧ v ≤ rest.length := by
  have hs := splitLine_wire size rest
  have hsize := chunkSize_text htext hds hext
  by_cases hneg : 2 ^ 64 ≤ v ∨ 2 ^ 31 ≤ v % 2 ^ 32
  · -- the format is refused
    have hmal := takeChunk_malformed (s := ⟨size.text, size.eol, rest⟩) size.lf_not_mem size.isEol
      (by rw [hsize]; exact bmod_neg hneg) rest
    have hret : (parseChunkedBody http (size.wire ++ rest)).1 = -2 := by
      rw [parseChunkedBody_eq, Line.wire, hmal]
    refine iff_of_true ⟨Or.inr (Or.inl hret), fun hst r hr => ?_⟩ (hneg.imp_right Or.inl)
    rw [chunkStep_done hst hr] at hret
    cases hret
  · rw [not_or, not_le, not_le] at hneg
    rw [bmod_low hneg.1 hneg.2] at hsize
    have hrun := @parseChunkedBody_size http _ _ hs _ hsize
    by_cases hshort : rest.length < awaited ⟨size.text, size.eol, rest⟩ (v % 2 ^ 32)
    · have hret : (parseChunkedBody http (size.wire ++ rest)).1 = -1 := by rw [hrun, if_pos hshort]
      refine iff_of_true ⟨Or.inl hret, fun hst r hr => ?_⟩ (Or.inr (Or.inr (Or.inl hshort)))
      rw [chunkStep_done hst hr] at hret
      cases hret
    · rw [if_neg hshort] at hrun
      have hret : (parseChunkedBody http (size.wire ++ rest)).1 = (v % 2 ^ 32 : ℕ) := by rw [hrun]
      constructor
      · intro h
        have hv := h.size
        rw [hret] at hv
        omega
      · intro h
        have hv : v < 2 ^ 31 ∧ v ≤ rest.length := by omega
        have hlow : v % 2 ^ 32 = v := Nat.mod_eq_of_lt (by omega)
        rw [hlow] at hrun hret
        refine ⟨Or.inr (Or.inr ⟨hret, hv.2, by rw [hrun]⟩), fun hst r hr => ?_⟩
        rw [chunkStep_done hst hr] at hret
        omega

end

/-- A chunk of five bytes, with an extension. -/
theorem keepsSize_five : KeepsSize freshHttp (bytes "5;x\r\nhello\r\n") (bytes "hello\r\n") 5 := by
  have hds : IsNumeral 16 (bytes "5") 5 := ⟨by decide, by decide +kernel, by decide +kernel⟩
  let size : Line := ⟨bytes "5;x", crlf, by decide, Or.inl rfl⟩
  have htext : size.text = bytes "5" ++ bytes ";x" := rfl
  exact (keepsSize_iff freshHttp htext hds (by decide +kernel) (bytes "hello\r\n")).2
    (Or.inr (Or.inr (Or.inr (by decide +kernel))))

/-- A chunk of `2 ^ 32` bytes is read as the end of the body. -/
theorem size_read_as_zero :
    IsNumeral 16 (bytes "100000000") (2 ^ 32) ∧
      ¬KeepsSize freshHttp (bytes "100000000\r\n\r\n") crlf (2 ^ 32) := by
  refine ⟨⟨by decide, by decide +kernel, by decide +kernel⟩, fun h => ?_⟩
  have hret : (parseChunkedBody freshHttp (bytes "100000000\r\n\r\n")).1 = 0 := by decide +kernel
  have hsize : (parseChunkedBody freshHttp (bytes "100000000\r\n\r\n")).1 = -1 ∨
      (parseChunkedBody freshHttp (bytes "100000000\r\n\r\n")).1 = -2 ∨
      (parseChunkedBody freshHttp (bytes "100000000\r\n\r\n")).1 = (2 ^ 32 : ℕ) :=
    h.size.imp_right fun h => h.imp_right And.left
  rw [hret] at hsize
  omega

end Asyncd
