import Asyncd.Http.State

/-!
# Responses

The response functions of the HTTP handler.  They work on the HTTP state and the out buffer of the
connection, and return what the C function returns, the new state and the new out buffer.  Buffer
additions and string copies succeed; a data pointer is the block it points to, `none` for NULL.
-/

open CString

namespace Asyncd

/-! ## Headers -/

/-- `ad_http_set_response_header`. -/
def adHttpSetResponseHeader (http : AdHttp) (name : Bytes) (value : Option Bytes) : ℤ × AdHttp :=
  if http.response.frozenHeader then (-1, http)
  else
    match value with
    | some value =>
      (0, { http with response.headers := http.response.headers.putstr name value })
    | none => (0, { http with response.headers := http.response.headers.remove name })

/-- `ad_http_get_response_header`. -/
def adHttpGetResponseHeader (http : AdHttp) (name : Bytes) : Option Bytes :=
  http.response.headers.getstr name

/-- `ad_http_set_response_code`. -/
def adHttpSetResponseCode (http : AdHttp) (code : ℤ) (reason : Option Bytes) : ℤ × AdHttp :=
  if http.response.frozenHeader then (-1, http)
  else
    let http := { http with response.code := code }
    match reason with
    | some reason => (0, { http with response.reason := some reason })
    | none => (0, http)

/-- `ad_http_set_response_content`. -/
def adHttpSetResponseContent (http : AdHttp) (contenttype : Option Bytes) (size : ℤ) : ℤ × AdHttp :=
  if http.response.frozenHeader then (-1, http)
  else
    let (_, http) := adHttpSetResponseHeader http (bytes "Content-Type")
      (some (contenttype.getD httpDefContenttype))
    if size ≥ 0 then
      let (_, http) := adHttpSetResponseHeader http contentLength (some (decimalInt size))
      (0, { http with response.contentlength := size })
    else
      let (_, http) := adHttpSetResponseHeader http transferEncoding (some chunked)
      (0, { http with response.contentlength := -1 })

/-- `ad_http_is_keepalive_request`. -/
def adHttpIsKeepaliveRequest (http : AdHttp) : Bool :=
  match http.request.httpver with
  | none => false
  | some httpver =>
    let connection := http.request.headers.getstr (bytes "Connection")
    if httpver = httpProtocol11 then connection ≠ some (bytes "close")
    else connection = some (bytes "Keep-Alive") ∨ connection = some (bytes "TE")

/-- `ad_http_get_reason`. -/
def adHttpGetReason (code : ℤ) : Bytes :=
  match code with
  | 100 => bytes "Continue"
  | 200 => bytes "OK"
  | 201 => bytes "Created"
  | 204 => bytes "No content"
  | 206 => bytes "Partial Content"
  | 207 => bytes "Multi Status"
  | 302 => bytes "Moved Temporarily"
  | 304 => bytes "Not Modified"
  | 400 => bytes "Bad Request"
  | 401 => bytes "Authorization Required"
  | 403 => bytes "Forbidden"
  | 404 => bytes "Not Found"
  | 405 => bytes "Method Not Allowed"
  | 408 => bytes "Request Time Out"
  | 410 => bytes "Gone"
  | 414 => bytes "Request URI Too Long"
  | 423 => bytes "Locked"
  | 500 => bytes "Internal Server Error"
  | 501 => bytes "Not Implemented"
  | 503 => bytes "Service Unavailable"
  | _ => bytes "-"

/-! ## Sending -/

/-- A header line as `ad_http_send_header` prints it. -/
def headerLine (name value : Bytes) : Bytes := name ++ bytes ": " ++ value ++ httpCrlf

/-- What `ad_http_send_header` adds to the out buffer.  `printf` prints NULL as `(null)`. -/
def headerBlock (http : AdHttp) : Bytes :=
  let reason := http.response.reason.getD (adHttpGetReason http.response.code)
  http.request.httpver.getD (bytes "(null)") ++ bytes " " ++ decimalInt http.response.code ++
      bytes " " ++ reason ++ httpCrlf ++
    http.response.headers.entries.flatMap (fun e => headerLine e.1 e.2) ++ httpCrlf

/-- `http->response.frozen_header = true`. -/
def AdHttp.freeze (http : AdHttp) : AdHttp := { http with response.frozenHeader := true }

/-- `ad_http_send_header`. -/
def adHttpSendHeader (http : AdHttp) (out : Bytes) : ℕ × AdHttp × Bytes :=
  if http.response.frozenHeader then (0, http, out)
  else
    let http := http.freeze
    let out := out ++ headerBlock http
    (out.length, http, out)

/-- `ad_http_send_data`; `size` is a `size_t`, and sums of such numbers wrap around. -/
def adHttpSendData (http : AdHttp) (out : Bytes) (data : Option Bytes) (size : ℕ) :
    ℕ × AdHttp × Bytes :=
  if http.response.contentlength < 0 then (0, http, out)
  else if (http.response.bodyout + size) % 2 ^ 64 > http.response.contentlength.toNat then
    (0, http, out)
  else
    let beforesize := out.length
    let (http, out) :=
      if http.response.frozenHeader then (http, out) else (adHttpSendHeader http out).2
    let out :=
      match data with
      | some data => if size > 0 then out ++ data.take size else out
      | none => out
    let http := { http with response.bodyout := (http.response.bodyout + size) % 2 ^ 64 }
    (out.length - beforesize, http, out)

/-- The bytes of one chunk as `ad_http_send_chunk` writes it. -/
def chunkWire (data : Option Bytes) (size : ℕ) : Bytes :=
  if size > 0 then decimal size ++ httpCrlf ++ (data.getD []).take size ++ httpCrlf
  else bytes "0" ++ httpCrlf ++ httpCrlf

/-- The sum of what the buffer additions of `ad_http_send_chunk` return: a formatted addition returns
the number of bytes added, a plain one 0. -/
def chunkStatus (size : ℕ) : ℕ :=
  if size > 0 then (decimal size ++ httpCrlf).length + 0 + 0
  else (bytes "0" ++ httpCrlf ++ httpCrlf).length

/-- `ad_http_send_chunk`. -/
def adHttpSendChunk (http : AdHttp) (out : Bytes) (data : Option Bytes) (size : ℕ) :
    ℕ × AdHttp × Bytes :=
  if http.response.contentlength ≥ 0 then (0, http, out)
  else
    let (http, out) :=
      if http.response.frozenHeader then (http, out) else (adHttpSendHeader http out).2
    let beforesize := out.length
    let out := out ++ chunkWire data size
    if chunkStatus size ≠ 0 then (0, http, out)
    else
      let bytesout := out.length - beforesize
      (bytesout,
        { http with response.bodyout := (http.response.bodyout + bytesout) % 2 ^ 64 }, out)

/-- The header fields that `ad_http_response` sets before it sends. -/
def prepareResponse (http : AdHttp) (code : ℤ) (contenttype : Option Bytes) (size : ℤ) : AdHttp :=
  let http :=
    if adHttpGetResponseHeader http (bytes "Connection") = none then
      (adHttpSetResponseHeader http (bytes "Connection")
        (some (if adHttpIsKeepaliveRequest http then bytes "Keep-Alive" else bytes "close"))).2
    else http
  let http := (adHttpSetResponseCode http code (some (adHttpGetReason code))).2
  (adHttpSetResponseContent http contenttype size).2

/-- `ad_http_response`; `size` is an `off_t` that is passed on as a `size_t`. -/
def adHttpResponse (http : AdHttp) (out : Bytes) (code : ℤ) (contenttype data : Option Bytes)
    (size : ℤ) : ℕ × AdHttp × Bytes :=
  if http.response.frozenHeader then (0, http, out)
  else
    adHttpSendData (prepareResponse http code contenttype size) out data (size % 2 ^ 64).toNat

/-! ## The freeze -/

/-- Everything that changes the header reports failure and changes nothing. -/
structure Refuses (http : AdHttp) : Prop where
  setHeader : ∀ name value, adHttpSetResponseHeader http name value = (-1, http)
  setCode : ∀ code reason, adHttpSetResponseCode http code reason = (-1, http)
  setContent : ∀ contenttype size, adHttpSetResponseContent http contenttype size = (-1, http)
  response : ∀ out code contenttype data size,
    adHttpResponse http out code contenttype data size = (0, http, out)

theorem refuses_of_frozen {http : AdHttp} (hf : http.response.frozenHeader = true) :
    Refuses http where
  setHeader name value := by simp [adHttpSetResponseHeader, hf]
  setCode code reason := by rw [adHttpSetResponseCode, if_pos hf]
  setContent contenttype size := by rw [adHttpSetResponseContent, if_pos hf]
  response out code contenttype data size := by rw [adHttpResponse, if_pos hf]

/-! ## Calls -/

/-- A call of a response function. -/
inductive ResponseCall
  | setHeader (name : Bytes) (value : Option Bytes)
  | setCode (code : ℤ) (reason : Option Bytes)
  | setContent (contenttype : Option Bytes) (size : ℤ)
  | response (code : ℤ) (contenttype data : Option Bytes) (size : ℤ)
  | sendHeader
  | sendData (data : Option Bytes) (size : ℕ)
  | sendChunk (data : Option Bytes) (size : ℕ)

/-- What a call does to the state and the out buffer. -/
def ResponseCall.run (http : AdHttp) (out : Bytes) : ResponseCall → AdHttp × Bytes
  | .setHeader name value => ((adHttpSetResponseHeader http name value).2, out)
  | .setCode code reason => ((adHttpSetResponseCode http code reason).2, out)
  | .setContent contenttype size => ((adHttpSetResponseContent http contenttype size).2, out)
  | .response code contenttype data size =>
    (adHttpResponse http out code contenttype data size).2
  | .sendHeader => (adHttpSendHeader http out).2
  | .sendData data size => (adHttpSendData http out data size).2
  | .sendChunk data size => (adHttpSendChunk http out data size).2

/-- Several calls, one after the other. -/
def runResponse (http : AdHttp) (out : Bytes) (calls : List ResponseCall) : AdHttp × Bytes :=
  calls.foldl (fun s c => c.run s.1 s.2) (http, out)

@[simp] theorem runResponse_nil (http : AdHttp) (out : Bytes) :
    runResponse http out [] = (http, out) := rfl

theorem runResponse_cons (http : AdHttp) (out : Bytes) (c : ResponseCall) (cs : List ResponseCall) :
    runResponse http out (c :: cs) = runResponse (c.run http out).1 (c.run http out).2 cs := rfl

theorem chunkStatus_ne_zero (size : ℕ) : chunkStatus size ≠ 0 := by
  unfold chunkStatus
  split_ifs <;> simp [httpCrlf, bytes]

theorem adHttpSendHeader_eq {http : AdHttp} (hf : http.response.frozenHeader = false)
    (out : Bytes) : (adHttpSendHeader http out).2 = (http.freeze, out ++ headerBlock http) := by
  rw [adHttpSendHeader, hf]
  rfl

end Asyncd
