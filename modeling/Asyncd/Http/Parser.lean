import Asyncd.Http.RequestLine

/-!
# The request parser

`http_parser` with its phases: the request line, the headers and the body, which has a given length or
comes in chunks.  Each function returns its result, the new HTTP state and the new content of the
connection's input buffer.
-/

open CString ByteLines

namespace Asyncd

/-! ## Headers -/

/-- Name and value of a header line that is a C string. -/
def headerNameValue (line : Bytes) : Bytes × Bytes :=
  match strstr (bytes ":") line with
  | some (name, tmp) => (qstrtrim name, qstrtrim tmp.tail)
  | none => (qstrtrim line, [])

/-- What `parse_headers` does with a line that is not empty. -/
def addHeader (http : AdHttp) (line : Bytes) : AdHttp :=
  http.putHeader (headerNameValue line).1 (headerNameValue line).2

/-- What `parse_headers` does at the empty line. -/
def endHeaders (http : AdHttp) : AdHttp :=
  let clen := http.request.headers.getstr contentLength
  { http with request.contentlength := (clen.map atol).getD (-1) }

/-- One round of the loop of `parse_headers`. -/
def headerStep : AdHttp × Bytes → (AdHttp × Bytes) ⊕ (ReqStatus × AdHttp × Bytes)
  | (http, inb) =>
    match evbufferReadln inb with
    | none => .inr (http.request.status, http, inb)
    | some (raw, rest) =>
      if cstr raw = [] then .inr (.headerDone, endHeaders http, rest)
      else .inl (addHeader http (cstr raw), rest)

theorem headerStep_decreasing :
    Loop.Decreasing (fun s : AdHttp × Bytes => s.2.length) headerStep := by
  rintro ⟨http, inb⟩ s' h
  simp only [headerStep] at h
  cases hr : evbufferReadln inb with
  | none => simp [hr] at h
  | some p =>
    simp only [hr] at h
    split_ifs at h
    cases h
    exact evbufferReadln_length_lt hr

/-- `parse_headers`. -/
def parseHeaders (http : AdHttp) (inb : Bytes) : ReqStatus × AdHttp × Bytes :=
  Loop.exec headerStep_decreasing (http, inb)

/-! ## Body -/

/-- `http_add_inbuf`. -/
def httpAddInbuf (buffer : Bytes) (http : AdHttp) (maxsize : ℕ) : ℕ × AdHttp × Bytes :=
  if maxsize = 0 ∨ buffer.length = 0 then (0, http, buffer)
  else
    let (n, src, dst) := evbufferRemoveBuffer buffer http.request.inbuf maxsize
    (n, http.setInbuf dst, src)

/-- `evbuffer_peekln`: the first line as a C string, and the length of its line end. -/
def evbufferPeekln (buffer : Bytes) : Option (Bytes × ℕ) :=
  (evbufferSearchEol buffer).map fun p => (cstr (buffer.take p.1), p.2)

/-- `evbuffer_drainln`: the length of the line as a C string, or -1, and the new content. -/
def evbufferDrainln (buffer : Bytes) : ℤ × Bytes :=
  match evbufferReadln buffer with
  | none => (-1, buffer)
  | some (line, rest) => ((cstr line).length, rest)

/-- `parse_chunked_body`: the number of bytes of the chunk, -1 for not enough data, -2 for a format
error. -/
def parseChunkedBody (http : AdHttp) (inb : Bytes) : ℤ × AdHttp × Bytes :=
  match evbufferPeekln inb with
  | none => (-1, http, inb)
  | some (line, crlfLen) =>
    let linelen := line.length
    let chunksize := (scanHex line).getD (-1)
    if chunksize < 0 then (-2, http, inb)
    else
      let datalen := linelen + crlfLen + chunksize.toNat + crlfLen
      if inb.length < datalen then (-1, http, inb)
      else
        let inb := (evbufferDrainln inb).2
        let (_, http, inb) := httpAddInbuf inb http chunksize.toNat
        let inb := (evbufferDrainln inb).2
        (chunksize, http, inb)

/-- One round of the chunk loop of `parse_body`. -/
def chunkStep : AdHttp × Bytes → (AdHttp × Bytes) ⊕ (ReqStatus × AdHttp × Bytes)
  | (http, inb) =>
    let (chunksize, http, inb) := parseChunkedBody http inb
    if chunksize > 0 then .inl (http, inb)
    else if chunksize = 0 then .inr (.done, http, inb)
    else if chunksize = -1 then .inr (http.request.status, http, inb)
    else .inr (.error, http, inb)

theorem evbufferDrainln_length_le (b : Bytes) : (evbufferDrainln b).2.length ≤ b.length := by
  unfold evbufferDrainln
  cases h : evbufferReadln b with
  | none => exact le_rfl
  | some p => exact (evbufferReadln_length_lt h).le

theorem httpAddInbuf_length_le (b : Bytes) (http : AdHttp) (n : ℕ) :
    (httpAddInbuf b http n).2.2.length ≤ b.length := by
  unfold httpAddInbuf
  split_ifs
  · exact le_rfl
  · simp [evbufferRemoveBuffer]

/-- A chunk of any size takes at least its size line from the buffer. -/
theorem parseChunkedBody_length_lt (http : AdHttp) (inb : Bytes)
    (h : 0 ≤ (parseChunkedBody http inb).1) :
    (parseChunkedBody http inb).2.2.length < inb.length := by
  unfold parseChunkedBody evbufferPeekln evbufferSearchEol at h ⊢
  cases hs : splitLine inb with
  | none => simp [hs] at h
  | some s =>
    simp only [hs, Option.map_some] at h ⊢
    have hdrain : (evbufferDrainln inb).2 = s.rest := by simp [evbufferDrainln, evbufferReadln, hs]
    split_ifs at h ⊢ with h1 h2
    · simp at h
    · simp at h
    · calc _ ≤ _ := evbufferDrainln_length_le _
        _ ≤ _ := httpAddInbuf_length_le _ _ _
        _ < inb.length := by rw [hdrain]; exact splitLine_length_lt hs

theorem chunkStep_decreasing :
    Loop.Decreasing (fun s : AdHttp × Bytes => s.2.length) chunkStep := by
  rintro ⟨http, inb⟩ s' h
  simp only [chunkStep] at h
  split_ifs at h with hpos
  cases h
  exact parseChunkedBody_length_lt http inb hpos.le

/-- `parse_body`. -/
def parseBody (http : AdHttp) (inb : Bytes) : ReqStatus × AdHttp × Bytes :=
  if http.request.contentlength = 0 then (.done, http, inb)
  else if http.request.contentlength > 0 then
    let (http, inb) :=
      if http.request.contentlength > http.request.bodyin then
        let maxread := (http.request.contentlength - http.request.bodyin).toNat
        if maxread > 0 ∧ inb.length > 0 then
          let bodyin := http.request.bodyin
          let (n, http, inb) := httpAddInbuf inb http maxread
          ({ http with request.bodyin := bodyin + n }, inb)
        else (http, inb)
      else (http, inb)
    if http.request.contentlength = http.request.bodyin then (.done, http, inb)
    else (http.request.status, http, inb)
  else if http.request.headers.getstr transferEncoding = some chunked then
    Loop.exec chunkStep_decreasing (http, inb)
  else (.done, http, inb)

/-! ## Reading the body -/

/-- `ad_http_get_content`: the block returned, if any; `alloc` tells whether its allocation succeeds. -/
def httpGetContent (alloc : Bool) (http : AdHttp) (maxsize : ℕ) : Option Bytes × AdHttp :=
  let inbuflen := http.request.inbuf.length
  let readlen := if maxsize = 0 then inbuflen else if inbuflen < maxsize then inbuflen else maxsize
  if readlen = 0 then (none, http)
  else if alloc = false then (none, http)
  else
    let (data, inbuf) := evbufferRemove http.request.inbuf readlen
    (some data, http.setInbuf inbuf)

/-! ## The parser -/

/-- What a call of `http_parser` ends in: a return value, or the assertion behind `BUG_EXIT`. -/
inductive ParserExit
  | ret (value : ℤ)
  | bugExit
  deriving DecidableEq, Repr

/-- The end of `http_parser`. -/
def httpParserEnd (http : AdHttp) : ParserExit :=
  if http.request.status = .done then .ret adOk
  else if http.request.status = .error then .ret adClose
  else .bugExit

/-- `http_parser` from the check for `AD_HTTP_REQ_HEADER_DONE` on. -/
def httpParserBody (http : AdHttp) (inb : Bytes) : ParserExit × AdHttp × Bytes :=
  if http.request.status = .headerDone then
    let (st, http, inb) := parseBody http inb
    let http := http.setStatus st
    if http.request.status = .headerDone then (.ret adTakeover, http, inb)
    else (httpParserEnd http, http, inb)
  else (httpParserEnd http, http, inb)

/-- `http_parser` from the check for `AD_HTTP_REQ_REQUESTLINE_DONE` on. -/
def httpParserHeaders (http : AdHttp) (inb : Bytes) : ParserExit × AdHttp × Bytes :=
  if http.request.status = .requestlineDone then
    let (st, http, inb) := parseHeaders http inb
    let http := http.setStatus st
    if http.request.status = .requestlineDone then (.ret adTakeover, http, inb)
    else httpParserBody http inb
  else httpParserBody http inb

section

variable [UrlDecoder]

/-- `http_parser`. -/
def httpParser (http : AdHttp) (inb : Bytes) : ParserExit × AdHttp × Bytes :=
  if http.request.status = .init then
    match evbufferReadln inb with
    | none => (.ret http.request.status.toInt, http, inb)
    | some (line, inb) =>
      let (st, http) := parseRequestline http (cstr line)
      let http := http.setStatus st
      if http.request.status = .init then (.ret adTakeover, http, inb)
      else httpParserHeaders http inb
  else httpParserHeaders http inb

end

end Asyncd
