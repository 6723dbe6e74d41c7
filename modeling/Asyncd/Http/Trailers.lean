import Asyncd.Http.ChunkedBody

/-!
# Trailers

Behind the last chunk of a chunked body there may be trailer lines in front of the empty line.
`parse_chunked_body` drains one line behind the last chunk, whatever it is, so the end of the message is
found exactly if there are no trailers (`trailersConsumed_iff`).
-/

open CString ByteLines

namespace Asyncd

/-- A trailer line, without its line end. -/
structure Trailer where
  text : Bytes
  ne_nil : text ≠ []
  lf_not_mem : lf ∉ text
  nul_not_mem : 0 ∉ text

/-- The bytes of a trailer line. -/
def Trailer.wire (t : Trailer) : Bytes := t.text ++ crlf

/-- The bytes of trailer lines and of the empty line behind them. -/
def trailerSection (ts : List Trailer) : Bytes := (ts.map Trailer.wire).flatten ++ crlf

/-- The bytes of a chunked body with trailers. -/
def trailedBody (cs : List Chunk) (ts : List Trailer) : Bytes :=
  (cs.map Chunk.wire).flatten ++ (bytes "0" ++ crlf ++ trailerSection ts)

theorem trailedBody_nil (cs : List Chunk) : trailedBody cs [] = chunkedBody cs := by
  simp [trailedBody, trailerSection, chunkedBody, lastChunk]

/-- The chunk loop on a body with trailers: one line is drained behind the last chunk. -/
theorem readChunks_trailedBody (cs : List Chunk) (ts : List Trailer) (acc t : Bytes) :
    readChunks acc (trailedBody cs ts ++ t) =
      (.done, acc ++ chunkedData cs, dropLine (trailerSection ts ++ t)) := by
  induction cs generalizing acc with
  | nil =>
    have h := readChunks_line (s := ⟨bytes "0", crlf, []⟩) (n := 0) (by decide) (isEol_crlf _)
      chunkSize_zero (w := trailerSection ts ++ t) (by
        rw [awaited_crlf (by decide)]
        simp only [trailerSection, List.length_append, show crlf.length = 2 from rfl]
        omega) acc
    rw [if_pos rfl] at h
    simpa [trailedBody, chunkedData] using h
  | cons c cs ih =>
    have h := ih (acc ++ c.data)
    rw [← readChunks_wire] at h
    simpa [trailedBody, chunkedData] using h

section

variable [UrlDecoder]

/-- At every point of every run, the request is done exactly if its last byte has arrived, and then its
data has been read and the bytes behind it are left. -/
def TrailersConsumed (h : FieldHead) (cs : List Chunk) (ts : List Trailer) (t : Bytes) : Prop :=
  ∀ (segs : List Bytes) (u : Bytes), segs.flatten ++ u = h.head.wire ++ trailedBody cs ts ++ t →
    let s := Push.feedAll httpStep (freshHttp, []) segs
    (s.1.request.status = .done ↔
        h.head.wire.length + (trailedBody cs ts).length ≤ segs.flatten.length) ∧
      (s.1.request.status = .done → s.1.request.inbuf = chunkedData cs ∧ s.2 ++ u = t)

theorem not_trailersConsumed_cons {h : FieldHead} (ha : h.AnnouncesChunks) (cs : List Chunk)
    (x : Trailer) (ts : List Trailer) (t : Bytes) : ¬TrailersConsumed h cs (x :: ts) t := by
  intro hcons
  obtain ⟨hdone, hend⟩ := hcons [h.head.wire ++ trailedBody cs (x :: ts) ++ t] [] (by simp)
  have hlen : h.head.wire.length + (trailedBody cs (x :: ts)).length ≤
      [h.head.wire ++ trailedBody cs (x :: ts) ++ t].flatten.length := by
    simp only [List.flatten_singleton, List.length_append]
    omega
  have hleft := (hend (hdone.2 hlen)).2
  have hsec : trailerSection (x :: ts) ++ t = x.text ++ crlf ++ (trailerSection ts ++ t) := by
    simp [trailerSection, Trailer.wire]
  rw [Push.feedAll_cons, Push.feedAll_nil, Push.feed, List.nil_append, List.append_assoc,
    httpStep_chunks ha, readChunks_trailedBody, hsec,
    dropLine_of_some (splitLine_crlf x.lf_not_mem _), List.append_nil] at hleft
  have hshort := congrArg List.length (show trailerSection ts ++ t = t from hleft)
  simp only [trailerSection, List.length_append, show crlf.length = 2 from rfl] at hshort
  omega

/-- The end of a chunked message is found exactly if it has no trailers. -/
theorem trailersConsumed_iff {h : FieldHead} (ha : h.AnnouncesChunks) (cs : List Chunk)
    (ts : List Trailer) (t : Bytes) : TrailersConsumed h cs ts t ↔ ts = [] := by
  constructor
  · intro hcons
    cases ts with
    | nil => rfl
    | cons x ts => exact absurd hcons (not_trailersConsumed_cons ha cs x ts t)
  · rintro rfl segs u hu s
    rw [trailedBody_nil] at hu ⊢
    obtain ⟨hdone, -, hend⟩ := chunked_delimited ha cs t u segs hu
    exact ⟨hdone, hend⟩

end

/-- A head that announces chunks. -/
def chunkedPost : FieldHead where
  line := postLine
  fields := [⟨transferEncoding, chunked, crlf, by decide, by decide, by decide, isEol_crlf _⟩]
  blank := crlf
  blank_isEol := isEol_blank

theorem chunkedPost_announces : @FieldHead.AnnouncesChunks percentDecoder chunkedPost := by
  have hacc : @RequestHead.Accepted percentDecoder chunkedPost.head := by
    unfold RequestHead.Accepted
    decide +kernel
  exact @FieldHead.AnnouncesChunks.mk percentDecoder chunkedPost hacc ⟨_, rfl, by decide⟩ (by decide)

/-- A trailer line. -/
def trailerX : Trailer := ⟨bytes "X: y", by decide, by decide, by decide⟩

/-- A body without chunks and without trailers, in front of the next request. -/
theorem trailersConsumed_none :
    @TrailersConsumed percentDecoder chunkedPost [] [] (bytes "GET") :=
  (@trailersConsumed_iff percentDecoder chunkedPost chunkedPost_announces [] [] (bytes "GET")).2 rfl

/-- With one trailer line, the empty line is left in front of the next request. -/
theorem trailer_not_consumed :
    @FieldHead.AnnouncesChunks percentDecoder chunkedPost ∧
      ¬@TrailersConsumed percentDecoder chunkedPost [] [trailerX] (bytes "GET") :=
  ⟨chunkedPost_announces,
    @not_trailersConsumed_cons percentDecoder chunkedPost chunkedPost_announces [] trailerX []
      (bytes "GET")⟩

end Asyncd
