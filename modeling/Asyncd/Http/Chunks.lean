import Asyncd.Http.Parser

/-!
# The chunk decoder without the state

`parse_chunked_body` looks at nothing but the input buffer and adds nothing but bytes to the input
buffer of the request.  `takeChunk` is what it does to the buffer, `readChunks` what the loop of
`parse_body` does; `parseChunkedBody_eq` and `chunkLoop_eq` connect them with the code.
-/

open CString ByteLines

namespace Asyncd

/-! ## One chunk -/

/-- The value that `parse_chunked_body` gives a size line. -/
def chunkSize (text : Bytes) : ℤ := (scanHex (cstr text)).getD (-1)

/-- The length `parse_chunked_body` computes for a chunk of `n` bytes: the size line up to its first
NUL, its line end, the data, and another line end of the same length. -/
def datalen (s : Split) (n : ℕ) : ℕ := (cstr s.text).length + s.eol.length + n + s.eol.length

/-- How many bytes must have arrived behind the size line before the chunk is taken. -/
def awaited (s : Split) (n : ℕ) : ℕ := datalen s n - (s.text.length + s.eol.length)

/-- The content after one line has been drained. -/
def dropLine (b : Bytes) : Bytes := (evbufferDrainln b).2

/-- What `parse_chunked_body` finds in a buffer. -/
inductive ChunkResult
  | more
  | malformed
  | chunk (n : ℕ) (data rest : Bytes)
  deriving DecidableEq, Repr

/-- `parse_chunked_body` as a function of the buffer. -/
def takeChunk (b : Bytes) : ChunkResult :=
  match splitLine b with
  | none => .more
  | some s =>
    if chunkSize s.text < 0 then .malformed
    else if b.length < datalen s (chunkSize s.text).toNat then .more
    else
      .chunk (chunkSize s.text).toNat (s.rest.take (chunkSize s.text).toNat)
        (dropLine (s.rest.drop (chunkSize s.text).toNat))

theorem dropLine_of_none {b : Bytes} (h : splitLine b = none) : dropLine b = b := by
  simp [dropLine, evbufferDrainln, evbufferReadln, h]

theorem dropLine_of_some {b : Bytes} {s : Split} (h : splitLine b = some s) :
    dropLine b = s.rest := by
  simp [dropLine, evbufferDrainln, evbufferReadln, h]

@[simp] theorem dropLine_nil : dropLine [] = [] := dropLine_of_none rfl

theorem dropLine_of_not_mem {b : Bytes} (h : lf ∉ b) : dropLine b = b :=
  dropLine_of_none (splitLine_of_not_mem h)

theorem dropLine_append {b : Bytes} (h : lf ∈ b) (x : Bytes) :
    dropLine (b ++ x) = dropLine b ++ x := by
  obtain ⟨s, hs⟩ := exists_splitLine h
  rw [dropLine_of_some hs, dropLine_of_some (splitLine_append hs x)]

theorem dropLine_count_lf {b : Bytes} (h : lf ∈ b) : b.count lf = 1 + (dropLine b).count lf := by
  obtain ⟨s, hs⟩ := exists_splitLine h
  rw [dropLine_of_some hs]
  exact splitLine_count_lf hs

theorem dropLine_drop_length_lt {b : Bytes} {s : Split} (h : splitLine b = some s) (n : ℕ) :
    (dropLine (s.rest.drop n)).length < b.length := by
  calc (dropLine (s.rest.drop n)).length ≤ (s.rest.drop n).length := evbufferDrainln_length_le _
    _ ≤ s.rest.length := by rw [List.length_drop]; omega
    _ < b.length := splitLine_length_lt h

theorem httpAddInbuf_eq (b : Bytes) (http : AdHttp) (n : ℕ) :
    (httpAddInbuf b http n).2 = (http.setInbuf (http.request.inbuf ++ b.take n), b.drop n) := by
  unfold httpAddInbuf
  split_ifs with h
  · rcases h with rfl | h
    · simp
    · simp [List.eq_nil_of_length_eq_zero h]
  · rfl

theorem httpAddInbuf_fst (b : Bytes) (http : AdHttp) (n : ℕ) :
    (httpAddInbuf b http n).1 = min n b.length := by
  unfold httpAddInbuf
  split_ifs with h
  · rcases h with rfl | h
    · simp
    · simp [h]
  · rfl

/-- `parse_chunked_body` is `takeChunk` on the buffer, with the data added to `request.inbuf`. -/
theorem parseChunkedBody_eq (http : AdHttp) (inb : Bytes) :
    parseChunkedBody http inb =
      match takeChunk inb with
      | .more => (-1, http, inb)
      | .malformed => (-2, http, inb)
      | .chunk n data rest => (n, http.setInbuf (http.request.inbuf ++ data), rest) := by
  unfold parseChunkedBody takeChunk evbufferPeekln evbufferSearchEol
  cases hs : splitLine inb with
  | none => rfl
  | some s =>
    obtain ⟨e, -, -⟩ := splitLine_spec hs
    have htake : inb.take s.text.length = s.text := by rw [e]; simp
    have hdrain : (evbufferDrainln inb).2 = s.rest := dropLine_of_some hs
    have hsize : (scanHex (cstr s.text)).getD (-1) = chunkSize s.text := rfl
    have hlen : ∀ n, (cstr s.text).length + s.eol.length + n + s.eol.length = datalen s n :=
      fun _ => rfl
    have hdrop : ∀ b, (evbufferDrainln b).2 = dropLine b := fun _ => rfl
    simp only [Option.map_some, htake, hsize, hlen, hdrain]
    by_cases hneg : chunkSize s.text < 0
    · simp only [hneg, if_true]
    · by_cases hshort : inb.length < datalen s (chunkSize s.text).toNat
      · simp only [hneg, hshort, if_true, if_false]
      · simp only [hneg, hshort, if_false, httpAddInbuf_eq, hdrop]
        rw [Int.toNat_of_nonneg (by omega)]

/-- A chunk in front of `w`: it is taken as soon as `awaited` bytes are there. -/
theorem takeChunk_line {s : Split} (ht : lf ∉ s.text) (he : IsEol s.text s.eol)
    (hn : 0 ≤ chunkSize s.text) (w : Bytes) :
    takeChunk (s.text ++ s.eol ++ w) =
      if w.length < awaited s (chunkSize s.text).toNat then .more
      else .chunk (chunkSize s.text).toNat (w.take (chunkSize s.text).toNat)
        (dropLine (w.drop (chunkSize s.text).toNat)) := by
  unfold takeChunk
  rw [splitLine_line ht he w]
  simp only [not_lt.2 hn, if_false, List.length_append]
  have : s.text.length + s.eol.length + w.length < datalen ⟨s.text, s.eol, w⟩ (chunkSize s.text).toNat ↔
      w.length < awaited s (chunkSize s.text).toNat := by
    simp only [awaited, datalen]
    omega
  simp only [this]

theorem takeChunk_of_none {b : Bytes} (h : splitLine b = none) : takeChunk b = .more := by
  simp [takeChunk, h]

theorem takeChunk_malformed {s : Split} (ht : lf ∉ s.text) (he : IsEol s.text s.eol)
    (hn : chunkSize s.text < 0) (w : Bytes) : takeChunk (s.text ++ s.eol ++ w) = .malformed := by
  unfold takeChunk
  rw [splitLine_line ht he w]
  simp only [hn, if_true]

theorem takeChunk_length_lt {b data rest : Bytes} {n : ℕ} (h : takeChunk b = .chunk n data rest) :
    rest.length < b.length := by
  have := parseChunkedBody_eq freshHttp b
  rw [h] at this
  have hlt := parseChunkedBody_length_lt freshHttp b (by rw [this]; simp)
  rwa [this] at hlt

/-! ## All chunks -/

/-- How the chunk loop ends. -/
inductive BodyEnd
  | more
  | done
  | malformed
  deriving DecidableEq, Repr

/-- One round of the chunk loop on the bytes read so far and the buffer. -/
def readStep : Bytes × Bytes → (Bytes × Bytes) ⊕ (BodyEnd × Bytes × Bytes)
  | (acc, b) =>
    match takeChunk b with
    | .more => .inr (.more, acc, b)
    | .malformed => .inr (.malformed, acc, b)
    | .chunk 0 data rest => .inr (.done, acc ++ data, rest)
    | .chunk (_ + 1) data rest => .inl (acc ++ data, rest)

theorem readStep_decreasing : Loop.Decreasing (fun s : Bytes × Bytes => s.2.length) readStep := by
  rintro ⟨acc, b⟩ s' h
  simp only [readStep] at h
  split at h <;> cases h
  exact takeChunk_length_lt ‹_›

/-- The chunk loop on the bytes read so far and the buffer. -/
def readChunks (acc b : Bytes) : BodyEnd × Bytes × Bytes :=
  Loop.exec readStep_decreasing (acc, b)

theorem readChunks_eq (acc b : Bytes) :
    readChunks acc b =
      match takeChunk b with
      | .more => (.more, acc, b)
      | .malformed => (.malformed, acc, b)
      | .chunk 0 data rest => (.done, acc ++ data, rest)
      | .chunk (_ + 1) data rest => readChunks (acc ++ data) rest := by
  cases h : takeChunk b with
  | more => exact Loop.exec_inr _ (by simp [readStep, h])
  | malformed => exact Loop.exec_inr _ (by simp [readStep, h])
  | chunk n data rest =>
    cases n with
    | zero => exact Loop.exec_inr _ (by simp [readStep, h])
    | succ n => exact Loop.exec_inl _ (by simp [readStep, h])

/-- Put bytes in front of what was read. -/
def prepend (acc : Bytes) (r : BodyEnd × Bytes × Bytes) : BodyEnd × Bytes × Bytes :=
  (r.1, acc ++ r.2.1, r.2.2)

@[simp] theorem prepend_nil (r : BodyEnd × Bytes × Bytes) : prepend [] r = r := rfl

theorem prepend_eq_iff {acc : Bytes} {r : BodyEnd × Bytes × Bytes} {e : BodyEnd}
    {data left : Bytes} :
    prepend acc r = (e, data, left) ↔ ∃ d, r = (e, d, left) ∧ acc ++ d = data := by
  rcases r with ⟨e', d, left'⟩
  simp only [prepend, Prod.mk.injEq]
  constructor
  · rintro ⟨rfl, hd, rfl⟩
    exact ⟨d, ⟨rfl, rfl, rfl⟩, hd⟩
  · rintro ⟨d', ⟨rfl, rfl, rfl⟩, hd⟩
    exact ⟨rfl, hd, rfl⟩

theorem prepend_injective (a : Bytes) : Function.Injective (prepend a) := by
  rintro ⟨e, d, r⟩ ⟨e', d', r'⟩ h
  simpa [prepend] using h

theorem readChunks_acc (acc b : Bytes) : readChunks acc b = prepend acc (readChunks [] b) := by
  have := Loop.exec_map readStep_decreasing readStep_decreasing
    (fun s : Bytes × Bytes => (acc ++ s.1, s.2)) (prepend acc) (by
      rintro ⟨a, b⟩
      simp only [readStep]
      split <;> simp [prepend]) ([], b)
  simpa [readChunks] using this

/-- The status that the chunk loop leads to, from `AD_HTTP_REQ_HEADER_DONE`. -/
def BodyEnd.status : BodyEnd → ReqStatus
  | more => .headerDone
  | done => .done
  | malformed => .error

theorem BodyEnd.status_injective : Function.Injective BodyEnd.status := by
  intro e e' h
  cases e <;> cases e' <;> first | rfl | cases h

/-- The chunk loop of `parse_body` is `readChunks`, started with what `request.inbuf` holds. -/
theorem chunkLoop_eq (http : AdHttp) (inb : Bytes) (hst : http.request.status = .headerDone) :
    Loop.exec chunkStep_decreasing (http, inb) =
      ((readChunks http.request.inbuf inb).1.status,
        http.setInbuf (readChunks http.request.inbuf inb).2.1,
        (readChunks http.request.inbuf inb).2.2) := by
  have := Loop.exec_map readStep_decreasing chunkStep_decreasing
    (fun s : Bytes × Bytes => (http.setInbuf s.1, s.2))
    (fun r : BodyEnd × Bytes × Bytes => (r.1.status, http.setInbuf r.2.1, r.2.2)) (by
      rintro ⟨a, b⟩
      simp only [readStep, chunkStep, parseChunkedBody_eq]
      cases h : takeChunk b with
      | more => simp [BodyEnd.status, hst]
      | malformed => simp [BodyEnd.status]
      | chunk n data rest =>
        cases n with
        | zero => simp [BodyEnd.status]
        | succ n => simp) (http.request.inbuf, inb)
  simpa [readChunks] using this

end Asyncd
