import Asyncd.Http.ContentLength

/-!
# Well-formed chunked bodies

`ChunkedBody.wire` is the notation of a chunked body: size lines in hexadecimal, with extensions, the data
between CR LF, and a last line `0`.  Such a body is `ChunksDelimited`, the chunk loop reads it exactly
(`readChunks_chunkedBody`), and so does the parser, for every segmentation (`chunked_delimited`).
-/

open CString ByteLines

namespace Asyncd

/-! ## The notation -/

/-- A chunk: the digits of its size, an extension that starts with `;`, and its data. -/
structure Chunk where
  digits : Bytes
  ext : Bytes
  data : Bytes
  size : IsNumeral 16 digits data.length
  size_pos : 0 < data.length
  size_lt : data.length < 2 ^ 31
  ext_head : ∀ c ∈ ext.head?, c = 59
  ext_plain : cr ∉ ext ∧ lf ∉ ext ∧ 0 ∉ ext

namespace Chunk

/-- The text of the size line. -/
def sizeText (c : Chunk) : Bytes := c.digits ++ c.ext

/-- The bytes of the chunk. -/
def wire (c : Chunk) : Bytes := c.sizeText ++ crlf ++ (c.data ++ crlf)

end Chunk

/-- The end of a chunked body. -/
def lastChunk : Bytes := bytes "0" ++ crlf ++ crlf

/-- The bytes of a chunked body. -/
def chunkedBody (cs : List Chunk) : Bytes := (cs.map Chunk.wire).flatten ++ lastChunk

/-- The data of a chunked body. -/
def chunkedData (cs : List Chunk) : Bytes := (cs.map Chunk.data).flatten

/-! ## The size line -/

/-- A chunk's size line as the parser sees it: one line, without NUL. -/
theorem Chunk.sizeText_plain (c : Chunk) : cr ∉ c.sizeText ∧ lf ∉ c.sizeText ∧ 0 ∉ c.sizeText := by
  have hdig : ∀ x : UInt8, x.toNat < 48 → x ∉ c.digits := fun x hx hm => by
    have := c.size.digits x hm
    rw [not_digit_of_lt hx le_rfl] at this
    cases this
  obtain ⟨h1, h2, h3⟩ := c.ext_plain
  simp only [sizeText, List.mem_append, not_or]
  exact ⟨⟨hdig _ (by decide), h1⟩, ⟨hdig _ (by decide), h2⟩, ⟨hdig _ (by decide), h3⟩⟩

theorem Chunk.chunkSize_sizeText (c : Chunk) : chunkSize c.sizeText = c.data.length := by
  rw [chunkSize, cstr_of_not_mem c.sizeText_plain.2.2, sizeText, scanHex_numeral c.size ?_,
    bmod_of_small c.size_lt, Option.getD_some]
  intro x hx
  rw [c.ext_head x hx]
  decide

theorem awaited_crlf {text rest : Bytes} (h : 0 ∉ text) (n : ℕ) : awaited ⟨text, crlf, rest⟩ n = n + 2 := by
  simp only [awaited, datalen, cstr_of_not_mem h, show crlf.length = 2 from rfl]
  omega

theorem splitLine_crlf {text : Bytes} (h : lf ∉ text) (rest : Bytes) :
    splitLine (text ++ crlf ++ rest) = some ⟨text, crlf, rest⟩ :=
  splitLine_line h (isEol_crlf text) rest

theorem dropLine_crlf (r : Bytes) : dropLine (crlf ++ r) = r :=
  dropLine_of_some (@splitLine_crlf [] List.not_mem_nil r)

/-! ## Reading it -/

theorem readChunks_wire (c : Chunk) (acc r : Bytes) :
    readChunks acc (c.wire ++ r) = readChunks (acc ++ c.data) r := by
  obtain ⟨-, hlf, hnul⟩ := c.sizeText_plain
  have h := readChunks_line (s := ⟨c.sizeText, crlf, []⟩) hlf (isEol_crlf _) c.chunkSize_sizeText
    (w := c.data ++ (crlf ++ r)) (by
      rw [awaited_crlf hnul]
      simp [crlf]) acc
  rw [if_neg c.size_pos.ne', List.take_left, List.drop_left, dropLine_crlf, ← readChunks_acc] at h
  rw [← h]
  simp [Chunk.wire]

theorem chunkSize_zero : chunkSize (bytes "0") = 0 := by decide

theorem readChunks_lastChunk (acc r : Bytes) : readChunks acc (lastChunk ++ r) = (.done, acc, r) := by
  have h := readChunks_line (s := ⟨bytes "0", crlf, []⟩) (n := 0) (by decide) (isEol_crlf _)
    chunkSize_zero (w := crlf ++ r) (by
      rw [awaited_crlf (by decide)]
      simp [crlf]) acc
  rw [if_pos rfl, dropLine_crlf] at h
  rw [← h]
  simp [lastChunk]

theorem readChunks_chunkedBody (cs : List Chunk) (acc t : Bytes) :
    readChunks acc (chunkedBody cs ++ t) = (.done, acc ++ chunkedData cs, t) := by
  induction cs generalizing acc with
  | nil => simpa [chunkedBody, chunkedData] using readChunks_lastChunk acc t
  | cons c cs ih =>
    have := ih (acc ++ c.data)
    rw [← readChunks_wire] at this
    simpa [chunkedBody, chunkedData] using this

theorem takeChunk_of_short {q : Bytes} {n : ℕ} (text rest : Bytes) (hlf : lf ∉ text) (hnul : 0 ∉ text)
    (hn : chunkSize text = n) (hq : q <+: text ++ crlf ++ rest)
    (hlt : q.length < text.length + 2 + (n + 2)) : takeChunk q = .more := by
  rcases splitLine_prefix (splitLine_crlf hlf rest) hq with hnone | ⟨w, -, rfl⟩
  · exact takeChunk_of_none hnone
  · have h := takeChunk_line (s := ⟨text, crlf, rest⟩) hlf (isEol_crlf _) (by simp [hn]) w
    simp only [hn, Int.toNat_natCast, awaited_crlf hnul] at h
    rw [h, if_pos]
    simp only [List.length_append, show crlf.length = 2 from rfl] at hlt
    omega

theorem readChunks_of_short (cs : List Chunk) (acc : Bytes) {q : Bytes}
    (hq : q <+: chunkedBody cs) (hlt : q.length < (chunkedBody cs).length) :
    (readChunks acc q).1 = .more := by
  induction cs generalizing acc q with
  | nil =>
    rw [readChunks_of_more]
    exact takeChunk_of_short (n := 0) (bytes "0") crlf (by decide) (by decide)
      chunkSize_zero hq hlt
  | cons c cs ih =>
    obtain ⟨-, hlf, hnul⟩ := c.sizeText_plain
    have hbody : chunkedBody (c :: cs) = c.wire ++ chunkedBody cs := by simp [chunkedBody]
    rw [hbody] at hq hlt
    rcases Nat.lt_or_ge q.length c.wire.length with hshort | hlong
    · rw [readChunks_of_more]
      refine takeChunk_of_short _ (c.data ++ crlf ++ chunkedBody cs) hlf hnul c.chunkSize_sizeText
        ?_ ?_
      · simpa [Chunk.wire] using hq
      · simp only [Chunk.wire, List.length_append, show crlf.length = 2 from rfl] at hshort
        omega
    · obtain ⟨q', rfl⟩ : c.wire <+: q := List.prefix_of_prefix_length_le ⟨_, rfl⟩ hq hlong
      rw [readChunks_wire]
      apply ih _ ((List.prefix_append_right_inj _).1 hq)
      simp only [List.length_append] at hlt
      omega

theorem chunksDelimited_crlf (text : Bytes) {d r : Bytes} (hlf : lf ∉ text) (hnul : 0 ∉ text)
    (hn : chunkSize text = d.length) (hr : d ≠ [] → ChunksDelimited r) :
    ChunksDelimited (text ++ crlf ++ (d ++ (crlf ++ r))) := by
  refine .ended (splitLine_crlf hlf _) hn (Or.inr ?_) ?_ fun h0 => ?_
  · rw [awaited_crlf hnul]
    omega
  · rw [awaited_crlf hnul, List.drop_left]
    simp [crlf]
  · rw [List.drop_left, dropLine_crlf]
    exact hr (List.ne_nil_of_length_pos (Nat.pos_of_ne_zero h0))

/-- A well-formed chunked body is read the same however it is cut, with whatever follows. -/
theorem chunksDelimited_chunkedBody (cs : List Chunk) (t : Bytes) :
    ChunksDelimited (chunkedBody cs ++ t) := by
  induction cs with
  | nil =>
    have := chunksDelimited_crlf (bytes "0") (d := []) (r := t) (by decide) (by decide)
      chunkSize_zero (fun h => absurd rfl h)
    simpa [chunkedBody, lastChunk] using this
  | cons c cs ih =>
    obtain ⟨-, hlf, hnul⟩ := c.sizeText_plain
    have := chunksDelimited_crlf _ hlf hnul c.chunkSize_sizeText fun _ => ih
    simpa [chunkedBody, Chunk.wire] using this

/-! ## The parser -/

section

variable [UrlDecoder]

/-- The head announces a chunked body: one `Transfer-Encoding` field, of value `chunked`, and no
`Content-Length` field. -/
structure FieldHead.AnnouncesChunks (h : FieldHead) : Prop where
  accepted : h.head.Accepted
  single : ∃ f, h.fields.filter (Field.named transferEncoding) = [f] ∧ qstrtrim f.value = chunked
  no_length : ∀ f ∈ h.fields, f.named contentLength = false

theorem FieldHead.AnnouncesChunks.chunked {h : FieldHead} (ha : h.AnnouncesChunks) :
    h.head.Chunked := by
  obtain ⟨f, hf, hv⟩ := ha.single
  refine ⟨?_, ?_⟩
  · rw [h.contentlength_state, h.getstr_state_of_none (by decide) ha.no_length]
    decide
  · rw [h.getstr_state_of_single hf, hv]

theorem httpStep_chunks {h : FieldHead} (ha : h.AnnouncesChunks) (q : Bytes) :
    httpStep freshHttp (h.head.wire ++ q) = chunkPhase h.head.state (readChunks [] q) := by
  rw [← (RequestHead.state_body ha.accepted).1]
  exact (httpStep_wire ha.accepted q).trans
    (bodyPhase_chunked _ rfl ha.chunked.1 ha.chunked.2 q)

/-- What has been read of a chunked request when `p` has arrived. -/
theorem httpStep_chunked {h : FieldHead} (ha : h.AnnouncesChunks) {cs : List Chunk} {t p u : Bytes}
    (hp : p ++ u = h.head.wire ++ chunkedBody cs ++ t) :
    let s := httpStep freshHttp p
    (s.1.request.status = .done ↔
        h.head.wire.length + (chunkedBody cs).length ≤ p.length) ∧
      s.1.request.status ≠ .error ∧
      (s.1.request.status = .done → s.1.request.inbuf = chunkedData cs ∧ s.2 ++ u = t) := by
  intro s
  rw [List.append_assoc] at hp
  rcases Nat.lt_or_ge p.length h.head.wire.length with hlt | hge
  · obtain ⟨hd, -⟩ := httpStep_before_head ha.accepted ⟨u, hp⟩ hlt
    have hne : ∀ st, st ≠ ReqStatus.init → st ≠ .requestlineDone → s.1.request.status ≠ st :=
      fun st h0 h1 hst => hd ⟨hst ▸ h0, hst ▸ h1⟩
    have hdone := hne .done (by decide) (by decide)
    exact ⟨iff_of_false hdone (by omega), hne _ (by decide) (by decide), fun h => absurd h hdone⟩
  · obtain ⟨q, rfl⟩ : h.head.wire <+: p :=
      List.prefix_of_prefix_length_le ⟨chunkedBody cs ++ t, rfl⟩ ⟨u, hp⟩ hge
    rw [List.append_assoc, List.append_cancel_left_eq] at hp
    have hs : s = chunkPhase h.head.state (readChunks [] q) := httpStep_chunks ha q
    rw [List.length_append, Nat.add_le_add_iff_left, hs]
    rcases Nat.lt_or_ge q.length (chunkedBody cs).length with hlt | hle
    · have hq : q <+: chunkedBody cs :=
        List.prefix_of_prefix_length_le ⟨u, hp⟩ ⟨t, rfl⟩ hlt.le
      have hst : (chunkPhase h.head.state (readChunks [] q)).1.request.status = .headerDone := by
        rw [chunkPhase, readChunks_of_short cs [] hq hlt]
        rfl
      rw [hst]
      exact ⟨iff_of_false (by decide) (by omega), by decide, fun h => by cases h⟩
    · obtain ⟨t', rfl⟩ : chunkedBody cs <+: q :=
        List.prefix_of_prefix_length_le ⟨t, rfl⟩ ⟨u, hp⟩ hle
      rw [List.append_assoc, List.append_cancel_left_eq] at hp
      rw [readChunks_chunkedBody]
      exact ⟨iff_of_true rfl hle, by simp [chunkPhase, BodyEnd.status], fun _ => ⟨rfl, hp⟩⟩

/-- Every well-formed chunked request is decoded exactly, at every point of every run: `u` is what has
not arrived yet of the request and the bytes `t` that follow it. -/
theorem chunked_delimited {h : FieldHead} (ha : h.AnnouncesChunks) (cs : List Chunk) (t u : Bytes)
    (segs : List Bytes) (hu : segs.flatten ++ u = h.head.wire ++ chunkedBody cs ++ t) :
    let s := Push.feedAll httpStep (freshHttp, []) segs
    (s.1.request.status = .done ↔
        h.head.wire.length + (chunkedBody cs).length ≤ segs.flatten.length) ∧
      s.1.request.status ≠ .error ∧
      (s.1.request.status = .done → s.1.request.inbuf = chunkedData cs ∧ s.2 ++ u = t) := by
  have hcuts : Push.CutsAlong httpStep freshHttp (h.head.wire ++ chunkedBody cs ++ t) := by
    rw [List.append_assoc, cutsAlong_httpStep_wire ha.accepted]
    exact fun _ => chunksDelimited_chunkedBody cs t
  rw [hcuts.feedAll_eq httpStep_nil _ ⟨u, hu⟩]
  exact httpStep_chunked ha hu

end

/-- A request line for evaluation. -/
def postLine : Line := ⟨bytes "POST / HTTP/1.1", crlf, by decide, isEol_crlf _⟩

/-- A chunk with an extension, cut in its data. -/
theorem chunked_delimited_a :
    let s := Push.feedAll (@httpStep percentDecoder) (freshHttp, [])
      [bytes "POST / HTTP/1.1\r\ntransfer-encoding: chunked\r\n\r\nB;x=1\r\n0\r\n",
        bytes "\r\nabcdef\r\n0\r\n\r\nGET"]
    s.1.request.status = .done ∧ s.1.request.inbuf = bytes "0\r\n\r\nabcdef" ∧ s.2 = bytes "GET" := by
  let f : Field := ⟨bytes "transfer-encoding", bytes " chunked", crlf, by decide, by decide, by decide,
    isEol_crlf _⟩
  let h : FieldHead := ⟨postLine, [f], crlf, isEol_blank⟩
  let c : Chunk := ⟨bytes "B", bytes ";x=1", bytes "0\r\n\r\nabcdef",
    ⟨by decide, by decide +kernel, by decide +kernel⟩, by decide, by decide +kernel, by decide +kernel,
    by decide⟩
  have hacc : @RequestHead.Accepted percentDecoder h.head := by
    unfold RequestHead.Accepted
    decide +kernel
  have ha : @FieldHead.AnnouncesChunks percentDecoder h :=
    @FieldHead.AnnouncesChunks.mk percentDecoder h hacc ⟨f, rfl, by decide⟩ (by decide)
  obtain ⟨hdone, -, hend⟩ := @chunked_delimited percentDecoder h ha [c] (bytes "GET") []
    [bytes "POST / HTTP/1.1\r\ntransfer-encoding: chunked\r\n\r\nB;x=1\r\n0\r\n",
      bytes "\r\nabcdef\r\n0\r\n\r\nGET"] (by decide +kernel)
  obtain ⟨hd, ht⟩ := hend (hdone.2 (by decide +kernel))
  exact ⟨hdone.2 (by decide +kernel), hd.trans (by decide), by simpa using ht⟩

end Asyncd
