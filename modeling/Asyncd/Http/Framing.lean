import Asyncd.Http.HeaderLines

/-!
# How a response is framed

`responseEmissions` is what a sequence of response calls emits: the header block, blocks of data and
chunks (`runResponse_out`).  The header table mixes the texts of the calls with the sizes they declare,
and `response.contentlength` is a second record of the sizes; `Declared` is the abstract response that
keeps texts and sizes apart.  `framed_iff_allAgree` says when the lines of the header block declare the
framing that is used.
-/

open CString ByteLines

namespace Asyncd

/-! ## Emissions -/

/-- Something that a response call adds to the out buffer: the header block of a state, a block of
data, or a chunk. -/
inductive Emission
  | header (http : AdHttp)
  | data (block : Bytes)
  | chunk (block : Option Bytes) (size : ℕ)

/-- The bytes of an emission. -/
def Emission.render : Emission → Bytes
  | header http => headerBlock http
  | data block => block
  | chunk block size => chunkWire block size

/-- The state whose header block an emission is. -/
def Emission.header? : Emission → Option AdHttp
  | header http => some http
  | _ => none

/-- What `ad_http_send_header` emits. -/
def headerEmits (http : AdHttp) : List Emission :=
  if http.response.frozenHeader then [] else [.header http]

/-- The data that `ad_http_send_data` adds. -/
def dataBlock (data : Option Bytes) (size : ℕ) : Bytes :=
  match data with
  | some data => if size > 0 then data.take size else []
  | none => []

/-- The data of a call of `ad_http_send_data` is within the size in force. -/
abbrev Fits (contentlength : ℤ) (bodyout size : ℕ) : Prop :=
  0 ≤ contentlength ∧ (bodyout + size) % 2 ^ 64 ≤ contentlength.toNat

/-- What `ad_http_send_data` emits. -/
def dataEmits (http : AdHttp) (data : Option Bytes) (size : ℕ) : List Emission :=
  if Fits http.response.contentlength http.response.bodyout size then
    headerEmits http ++ [.data (dataBlock data size)]
  else []

/-- What `ad_http_send_chunk` emits. -/
def chunkEmits (http : AdHttp) (data : Option Bytes) (size : ℕ) : List Emission :=
  if http.response.contentlength < 0 then headerEmits http ++ [.chunk data size] else []

/-- What a response call emits. -/
def ResponseCall.emits (http : AdHttp) : ResponseCall → List Emission
  | .response code contenttype data size =>
    if http.response.frozenHeader then []
    else dataEmits (prepareResponse http code contenttype size) data (size % 2 ^ 64).toNat
  | .sendHeader => headerEmits http
  | .sendData data size => dataEmits http data size
  | .sendChunk data size => chunkEmits http data size
  | _ => []

/-- What a sequence of response calls emits. -/
def responseEmissions (http : AdHttp) (out : Bytes) : List ResponseCall → List Emission
  | [] => []
  | c :: cs => c.emits http ++ responseEmissions (c.run http out).1 (c.run http out).2 cs

/-- `http->response.bodyout += size`. -/
def AdHttp.addBodyout (http : AdHttp) (size : ℕ) : AdHttp :=
  { http with response.bodyout := (http.response.bodyout + size) % 2 ^ 64 }

theorem AdHttp.freeze_of_frozen {http : AdHttp} (hf : http.response.frozenHeader = true) :
    http.freeze = http := by
  simp [AdHttp.freeze, ← hf]

theorem sendHeader_emits (http : AdHttp) (out : Bytes) :
    (adHttpSendHeader http out).2 =
      (http.freeze, out ++ (headerEmits http).flatMap Emission.render) := by
  by_cases hf : http.response.frozenHeader = true
  · simp [adHttpSendHeader, headerEmits, hf, AdHttp.freeze_of_frozen hf]
  · rw [Bool.not_eq_true] at hf
    simp [adHttpSendHeader_eq hf, headerEmits, hf, Emission.render]

theorem ensureHeader_emits (http : AdHttp) (out : Bytes) :
    (if http.response.frozenHeader then (http, out) else (adHttpSendHeader http out).2) =
      (http.freeze, out ++ (headerEmits http).flatMap Emission.render) := by
  split_ifs with hf
  · simp [headerEmits, hf, AdHttp.freeze_of_frozen hf]
  · exact sendHeader_emits http out

theorem sendData_emits (http : AdHttp) (out : Bytes) (data : Option Bytes) (size : ℕ) :
    (adHttpSendData http out data size).2 =
      (if Fits http.response.contentlength http.response.bodyout size then
        http.freeze.addBodyout size else http,
        out ++ (dataEmits http data size).flatMap Emission.render) := by
  unfold adHttpSendData dataEmits
  by_cases hneg : http.response.contentlength < 0
  · have hfits : ¬Fits http.response.contentlength http.response.bodyout size := fun h => by
      have := h.1
      omega
    simp [hneg, hfits]
  · rw [if_neg hneg]
    by_cases hbig : (http.response.bodyout + size) % 2 ^ 64 > http.response.contentlength.toNat
    · have hfits : ¬Fits http.response.contentlength http.response.bodyout size := fun h => by
        have := h.2
        omega
      rw [if_pos hbig, if_neg hfits, if_neg hfits]
      simp
    · have hfits : Fits http.response.contentlength http.response.bodyout size :=
        ⟨not_lt.1 hneg, not_lt.1 hbig⟩
      rw [if_neg hbig, if_pos hfits, if_pos hfits, ensureHeader_emits]
      cases data with
      | none => simp [dataBlock, Emission.render, AdHttp.addBodyout, AdHttp.freeze]
      | some data =>
        by_cases h0 : size > 0 <;>
          simp [dataBlock, Emission.render, AdHttp.addBodyout, AdHttp.freeze, h0]

theorem sendChunk_emits (http : AdHttp) (out : Bytes) (data : Option Bytes) (size : ℕ) :
    (adHttpSendChunk http out data size).2 =
      (if http.response.contentlength < 0 then http.freeze else http,
        out ++ (chunkEmits http data size).flatMap Emission.render) := by
  unfold adHttpSendChunk chunkEmits
  by_cases hneg : http.response.contentlength < 0
  · rw [if_neg (not_le.2 hneg), ensureHeader_emits]
    simp [chunkStatus_ne_zero, hneg, Emission.render]
  · simp [hneg, not_lt.1 hneg]

theorem setResponseHeader_request (http : AdHttp) (name : Bytes) (value : Option Bytes) :
    (adHttpSetResponseHeader http name value).2.request = http.request := by
  unfold adHttpSetResponseHeader
  split_ifs
  · rfl
  · cases value <;> rfl

theorem setResponseCode_request (http : AdHttp) (code : ℤ) (reason : Option Bytes) :
    (adHttpSetResponseCode http code reason).2.request = http.request := by
  unfold adHttpSetResponseCode
  split_ifs
  · rfl
  · cases reason <;> rfl

theorem setResponseContent_request (http : AdHttp) (contenttype : Option Bytes) (size : ℤ) :
    (adHttpSetResponseContent http contenttype size).2.request = http.request := by
  unfold adHttpSetResponseContent
  split_ifs
  · rfl
  · exact (setResponseHeader_request _ _ _).trans (setResponseHeader_request _ _ _)
  · exact (setResponseHeader_request _ _ _).trans (setResponseHeader_request _ _ _)

theorem prepareResponse_request (http : AdHttp) (code : ℤ) (contenttype : Option Bytes) (size : ℤ) :
    (prepareResponse http code contenttype size).request = http.request := by
  unfold prepareResponse
  rw [setResponseContent_request, setResponseCode_request]
  split_ifs
  · exact setResponseHeader_request _ _ _
  · exact setResponseHeader_request _ _ _
  · rfl

theorem ResponseCall.run_request (http : AdHttp) (out : Bytes) (c : ResponseCall) :
    (c.run http out).1.request = http.request := by
  cases c with
  | setHeader name value => exact setResponseHeader_request http name value
  | setCode code reason => exact setResponseCode_request http code reason
  | setContent contenttype size => exact setResponseContent_request http contenttype size
  | response code contenttype data size =>
    simp only [run, adHttpResponse]
    split_ifs
    · rfl
    · rw [sendData_emits]
      split_ifs <;> exact prepareResponse_request http code contenttype size
  | sendHeader => rw [run, sendHeader_emits]; rfl
  | sendData data size => rw [run, sendData_emits]; split_ifs <;> rfl
  | sendChunk data size => rw [run, sendChunk_emits]; split_ifs <;> rfl

theorem ResponseCall.run_out (http : AdHttp) (out : Bytes) (c : ResponseCall) :
    (c.run http out).2 = out ++ (c.emits http).flatMap Emission.render := by
  cases c with
  | setHeader name value => simp [run, emits]
  | setCode code reason => simp [run, emits]
  | setContent contenttype size => simp [run, emits]
  | response code contenttype data size =>
    simp only [run, emits, adHttpResponse]
    split_ifs
    · simp
    · rw [sendData_emits]
  | sendHeader => simp [run, emits, sendHeader_emits]
  | sendData data size => simp [run, emits, sendData_emits]
  | sendChunk data size => simp [run, emits, sendChunk_emits]

theorem runResponse_out (http : AdHttp) (out : Bytes) (cs : List ResponseCall) :
    (runResponse http out cs).2 =
      out ++ (responseEmissions http out cs).flatMap Emission.render := by
  induction cs generalizing http out with
  | nil => simp [responseEmissions]
  | cons c cs ih =>
    rw [runResponse_cons, ih, c.run_out, responseEmissions, List.flatMap_append, c.run_out,
      List.append_assoc]

theorem responseEmissions_concat (http : AdHttp) (out : Bytes) (cs : List ResponseCall)
    (c : ResponseCall) :
    responseEmissions http out (cs ++ [c]) =
      responseEmissions http out cs ++ c.emits (runResponse http out cs).1 := by
  induction cs generalizing http out with
  | nil => simp [responseEmissions]
  | cons d cs ih =>
    rw [List.cons_append, responseEmissions, ih, responseEmissions, runResponse_cons,
      List.append_assoc]

theorem runResponse_append (http : AdHttp) (out : Bytes) (cs cs' : List ResponseCall) :
    runResponse http out (cs ++ cs') =
      runResponse (runResponse http out cs).1 (runResponse http out cs).2 cs' :=
  List.foldl_append

theorem runResponse_concat (http : AdHttp) (out : Bytes) (cs : List ResponseCall)
    (c : ResponseCall) :
    runResponse http out (cs ++ [c]) =
      c.run (runResponse http out cs).1 (runResponse http out cs).2 :=
  runResponse_append http out cs [c]

/-! ## What a header block declares -/

/-- The lines of a header block announce a body of `n` bytes, and nothing else. -/
structure DeclaresLength (block : Bytes) (n : ℤ) : Prop where
  contentlength : fieldValues contentLength block ≠ []
  only : ∀ v ∈ fieldValues contentLength block, v = decimalInt n
  transferencoding : fieldValues transferEncoding block = []

/-- The lines of a header block announce a body in chunks, and nothing else. -/
structure DeclaresChunks (block : Bytes) : Prop where
  transferencoding : fieldValues transferEncoding block ≠ []
  only : ∀ v ∈ fieldValues transferEncoding block, v = chunked
  contentlength : fieldValues contentLength block = []

/-- An emission is a non-empty block of data. -/
def Emission.IsData (e : Emission) : Prop := ∃ block, e = .data block ∧ block ≠ []

/-- An emission is a chunk. -/
def Emission.IsChunk (e : Emission) : Prop := ∃ block size, e = .chunk block size

/-- The emissions `ems`, made on the way to the state `http`, have the one header block that their
body needs. -/
structure Framed (ems : List Emission) (http : AdHttp) : Prop where
  data : (∃ e ∈ ems, e.IsData) → ∃ h, ems.filterMap Emission.header? = [h] ∧
    DeclaresLength (headerBlock h) http.response.contentlength
  chunk : (∃ e ∈ ems, e.IsChunk) → ∃ h, ems.filterMap Emission.header? = [h] ∧
    DeclaresChunks (headerBlock h)

/-! ## Texts and sizes -/

/-- The size in force when `sizes` have been declared, -1 for chunks. -/
def inForce (sizes : List ℤ) : ℤ := (sizes.getLast?.map (max · (-1))).getD (-1)

/-- `ad_http_set_response_content` without the size. -/
def setContentType (http : AdHttp) (contenttype : Option Bytes) : AdHttp :=
  (adHttpSetResponseHeader http (bytes "Content-Type")
    (some (contenttype.getD httpDefContenttype))).2

/-- What `ad_http_response` sets before the content. -/
def setResponseHead (http : AdHttp) (code : ℤ) : AdHttp :=
  let http :=
    if adHttpGetResponseHeader http (bytes "Connection") = none then
      (adHttpSetResponseHeader http (bytes "Connection")
        (some (if adHttpIsKeepaliveRequest http then bytes "Keep-Alive" else bytes "close"))).2
    else http
  (adHttpSetResponseCode http code (some (adHttpGetReason code))).2

theorem prepareResponse_eq (http : AdHttp) (code : ℤ) (contenttype : Option Bytes) (size : ℤ) :
    prepareResponse http code contenttype size =
      (adHttpSetResponseContent (setResponseHead http code) contenttype size).2 := rfl

/-- The abstract response: the sizes that have been declared, the response that the same calls make
when nobody declares a size, and the number of bytes of data sent. -/
structure Declared where
  sizes : List ℤ
  texts : AdHttp
  sent : ℕ

namespace Declared

/-- Nothing has been declared. -/
def start (http : AdHttp) : Declared := ⟨[], http, 0⟩

/-- The header block has been written. -/
def written (d : Declared) : Bool := d.texts.response.frozenHeader

/-- Declare a size. -/
def declare (d : Declared) (contenttype : Option Bytes) (size : ℤ) : Declared :=
  { d with sizes := d.sizes ++ [size], texts := setContentType d.texts contenttype }

/-- What a response in one call declares. -/
def prepare (d : Declared) (code : ℤ) (contenttype : Option Bytes) (size : ℤ) : Declared :=
  { d with texts := setResponseHead d.texts code }.declare contenttype size

/-- Write the header block. -/
def write (d : Declared) : Declared := { d with texts := d.texts.freeze }

/-- Send data. -/
def sendData (d : Declared) (size : ℕ) : Declared :=
  if Fits (inForce d.sizes) d.sent size then { d.write with sent := (d.sent + size) % 2 ^ 64 } else d

/-- Send a chunk. -/
def sendChunk (d : Declared) : Declared := if inForce d.sizes < 0 then d.write else d

/-- A response call. -/
def call (d : Declared) : ResponseCall → Declared
  | .setHeader name value => { d with texts := (adHttpSetResponseHeader d.texts name value).2 }
  | .setCode code reason => { d with texts := (adHttpSetResponseCode d.texts code reason).2 }
  | .setContent contenttype size => if d.written then d else d.declare contenttype size
  | .response code contenttype _ size =>
    if d.written then d else (d.prepare code contenttype size).sendData (size % 2 ^ 64).toNat
  | .sendHeader => d.write
  | .sendData _ size => d.sendData size
  | .sendChunk _ _ => d.sendChunk

/-- The values that the texts put under a name, without any declared size. -/
def spelled (d : Declared) (name : Bytes) : List Bytes := fieldValues name (headerBlock d.texts)

/-- Only lengths have been declared, and no text says anything else. -/
def LengthOnly (d : Declared) : Prop :=
  (∀ n ∈ d.sizes, 0 ≤ n) ∧ (∀ v ∈ d.spelled contentLength, v = decimalInt (inForce d.sizes)) ∧
    d.spelled transferEncoding = []

/-- Only chunks have been declared, by a size or by a text, and no text says anything else. -/
def ChunksOnly (d : Declared) : Prop :=
  (∀ n ∈ d.sizes, n < 0) ∧ (d.sizes ≠ [] ∨ d.spelled transferEncoding ≠ []) ∧
    (∀ v ∈ d.spelled transferEncoding, v = chunked) ∧ d.spelled contentLength = []

/-- Data is sent only if nothing asks for chunks. -/
def DataAgrees (d : Declared) (data : Option Bytes) (size : ℕ) : Prop :=
  Fits (inForce d.sizes) d.sent size → dataBlock data size ≠ [] → d.LengthOnly

/-- A chunk is sent only if chunks have been declared and nothing declares a length. -/
def ChunkAgrees (d : Declared) : Prop := inForce d.sizes < 0 → d.ChunksOnly

/-- What a call sends agrees with what has been declared. -/
def Agrees (d : Declared) : ResponseCall → Prop
  | .response code contenttype data size =>
    d.written = false → (d.prepare code contenttype size).DataAgrees data (size % 2 ^ 64).toNat
  | .sendData data size => d.DataAgrees data size
  | .sendChunk _ _ => d.ChunkAgrees
  | _ => True

/-- What each of several calls sends agrees with what has been declared up to it. -/
def AllAgree (d : Declared) : List ResponseCall → Prop
  | [] => True
  | c :: cs => d.Agrees c ∧ (d.call c).AllAgree cs

end Declared

/-! ## The tables follow the declarations -/

/-- Setting the content before the header block is written. -/
theorem setResponseContent_eq {http : AdHttp} (hf : http.response.frozenHeader = false)
    (contenttype : Option Bytes) (size : ℤ) :
    (adHttpSetResponseContent http contenttype size).2 =
      { http with
        response.headers :=
          let headers := http.response.headers.putstr (bytes "Content-Type")
            (contenttype.getD httpDefContenttype)
          if 0 ≤ size then headers.putstr contentLength (decimalInt size)
          else headers.putstr transferEncoding chunked
        response.contentlength := max size (-1) } := by
  by_cases hsize : 0 ≤ size
  · simp [adHttpSetResponseContent, adHttpSetResponseHeader, hf, hsize,
      max_eq_left (show -1 ≤ size by omega)]
  · simp [adHttpSetResponseContent, adHttpSetResponseHeader, hf, hsize,
      max_eq_right (show size ≤ -1 by omega)]

theorem setContentType_eq {http : AdHttp} (hf : http.response.frozenHeader = false)
    (contenttype : Option Bytes) :
    setContentType http contenttype =
      { http with
        response.headers := http.response.headers.putstr (bytes "Content-Type")
          (contenttype.getD httpDefContenttype) } := by
  rw [setContentType, adHttpSetResponseHeader, hf]
  rfl

/-- Two responses that agree in everything but the header. -/
structure SameBody (http http' : AdHttp) : Prop where
  frozen : http'.response.frozenHeader = http.response.frozenHeader
  contentlength : http'.response.contentlength = http.response.contentlength
  bodyout : http'.response.bodyout = http.response.bodyout

theorem SameBody.trans {http http' http'' : AdHttp} (h : SameBody http http')
    (h' : SameBody http' http'') : SameBody http http'' :=
  ⟨h'.frozen.trans h.frozen, h'.contentlength.trans h.contentlength, h'.bodyout.trans h.bodyout⟩

theorem sameBody_setHeader (http : AdHttp) (name : Bytes) (value : Option Bytes) :
    SameBody http (adHttpSetResponseHeader http name value).2 := by
  unfold adHttpSetResponseHeader
  split_ifs
  · exact ⟨rfl, rfl, rfl⟩
  · cases value <;> exact ⟨rfl, rfl, rfl⟩

theorem sameBody_setCode (http : AdHttp) (code : ℤ) (reason : Option Bytes) :
    SameBody http (adHttpSetResponseCode http code reason).2 := by
  unfold adHttpSetResponseCode
  split_ifs
  · exact ⟨rfl, rfl, rfl⟩
  · cases reason <;> exact ⟨rfl, rfl, rfl⟩

theorem sameBody_setHead (http : AdHttp) (code : ℤ) : SameBody http (setResponseHead http code) := by
  unfold setResponseHead
  split_ifs
  · exact (sameBody_setHeader _ _ _).trans (sameBody_setCode _ _ _)
  · exact (sameBody_setHeader _ _ _).trans (sameBody_setCode _ _ _)
  · exact sameBody_setCode _ _ _

/-- The names that the library sets itself to declare a size. -/
def Framing (name : Bytes) : Prop :=
  eqIgnoreCase name contentLength = true ∨ eqIgnoreCase name transferEncoding = true

instance (name : Bytes) : Decidable (Framing name) := inferInstanceAs (Decidable (_ ∨ _))

/-- The call does not set a header that declares a framing. -/
def ResponseCall.LeavesFraming : ResponseCall → Prop
  | .setHeader name _ => ¬Framing name
  | _ => True

theorem inForce_concat (sizes : List ℤ) (size : ℤ) : inForce (sizes ++ [size]) = max size (-1) := by
  simp [inForce]

/-- The header entries that declared sizes leave: the last length, and chunks if they were ever
declared. -/
def sizeEntries (sizes : List ℤ) : List (Bytes × Bytes) :=
  ((sizes.reverse.find? (0 ≤ ·)).map fun n => (contentLength, decimalInt n)).toList ++
    if ∃ n ∈ sizes, n < 0 then [(transferEncoding, chunked)] else []

/-- A header table holds the entries `plain` and those of the declared sizes. -/
def Records (headers plain : Qlisttbl) (sizes : List ℤ) : Prop :=
  (∀ e ∈ plain.entries, ¬Framing e.1) ∧
    ∀ e, e ∈ headers.entries ↔ e ∈ plain.entries ∨ e ∈ sizeEntries sizes

theorem mem_sizeEntries {sizes : List ℤ} {e : Bytes × Bytes} :
    e ∈ sizeEntries sizes ↔
      (∃ n, sizes.reverse.find? (0 ≤ ·) = some n ∧ e = (contentLength, decimalInt n)) ∨
        (∃ n ∈ sizes, n < 0) ∧ e = (transferEncoding, chunked) := by
  rw [sizeEntries, List.mem_append]
  refine or_congr ?_ ?_
  · rw [Option.mem_toList, Option.map_eq_some_iff]
    exact exists_congr fun n => and_congr_right fun _ => eq_comm
  · split_ifs with h <;> simp [h]

theorem sizeEntries_names {sizes : List ℤ} {e : Bytes × Bytes} (he : e ∈ sizeEntries sizes) :
    e.1 = contentLength ∨ e.1 = transferEncoding := by
  rcases mem_sizeEntries.1 he with ⟨n, -, rfl⟩ | ⟨-, rfl⟩
  · exact Or.inl rfl
  · exact Or.inr rfl

theorem sizeEntries_ne {sizes : List ℤ} {e : Bytes × Bytes} (he : e ∈ sizeEntries sizes)
    {name : Bytes} (hname : ¬Framing name) : eqIgnoreCase e.1 name = false := by
  simp only [Framing, not_or, Bool.not_eq_true] at hname
  rcases sizeEntries_names he with h | h
  · rw [h, eqIgnoreCase_comm, hname.1]
  · rw [h, eqIgnoreCase_comm, hname.2]

/-- A new size takes the place of one of its kind. -/
theorem mem_sizeEntries_concat (sizes : List ℤ) (size : ℤ) (e : Bytes × Bytes) :
    e ∈ sizeEntries (sizes ++ [size]) ↔
      if 0 ≤ size then
        (e ∈ sizeEntries sizes ∧ eqIgnoreCase e.1 contentLength = false) ∨
          e = (contentLength, decimalInt size)
      else
        (e ∈ sizeEntries sizes ∧ eqIgnoreCase e.1 transferEncoding = false) ∨
          e = (transferEncoding, chunked) := by
  have hself : eqIgnoreCase contentLength contentLength = true := by decide
  have hself' : eqIgnoreCase transferEncoding transferEncoding = true := by decide
  have hne : eqIgnoreCase contentLength transferEncoding = false := by decide
  have hne' : eqIgnoreCase transferEncoding contentLength = false := by decide
  rw [mem_sizeEntries, mem_sizeEntries, List.reverse_append]
  split_ifs with hsize
  · have hneg : (∃ n ∈ sizes ++ [size], n < 0) ↔ ∃ n ∈ sizes, n < 0 := by
      simp [not_lt.2 hsize]
    rw [hneg]
    constructor
    · rintro (⟨n, hn, rfl⟩ | ⟨hn, rfl⟩)
      · have : n = size := by simpa [hsize] using hn.symm
        exact Or.inr (by rw [this])
      · exact Or.inl ⟨Or.inr ⟨hn, rfl⟩, hne'⟩
    · rintro (⟨⟨n, -, rfl⟩ | h, hcl⟩ | rfl)
      · exact absurd hcl (by simp [hself])
      · exact Or.inr h
      · exact Or.inl ⟨size, by simp [hsize], rfl⟩
  · have hneg : ∃ n ∈ sizes ++ [size], n < 0 := ⟨size, by simp, not_le.1 hsize⟩
    have hfind : ([size].reverse ++ sizes.reverse).find? (0 ≤ ·) = sizes.reverse.find? (0 ≤ ·) := by
      simp [hsize]
    rw [hfind]
    constructor
    · rintro (⟨n, hn, rfl⟩ | ⟨-, rfl⟩)
      · exact Or.inl ⟨Or.inl ⟨n, hn, rfl⟩, hne⟩
      · exact Or.inr rfl
    · rintro (⟨h | ⟨-, rfl⟩, hte⟩ | rfl)
      · exact Or.inl h
      · exact absurd hte (by simp [hself'])
      · exact Or.inr ⟨hneg, rfl⟩

namespace Records

variable {headers plain : Qlisttbl} {sizes : List ℤ}

theorem put (h : Records headers plain sizes) {name : Bytes} (hname : ¬Framing name)
    (value : Bytes) : Records (headers.putstr name value) (plain.putstr name value) sizes := by
  refine ⟨?_, fun e => ?_⟩
  · intro e he
    rcases Qlisttbl.mem_putstr.1 he with he | rfl
    · exact h.1 e he.1
    · exact hname
  · have hne := @sizeEntries_ne sizes e
    rw [Qlisttbl.mem_putstr, Qlisttbl.mem_putstr, h.2 e]
    constructor
    · rintro (⟨he | he, hn⟩ | rfl)
      · exact Or.inl (Or.inl ⟨he, hn⟩)
      · exact Or.inr he
      · exact Or.inl (Or.inr rfl)
    · rintro ((⟨he, hn⟩ | rfl) | he)
      · exact Or.inl ⟨Or.inl he, hn⟩
      · exact Or.inr rfl
      · exact Or.inl ⟨Or.inr he, hne he hname⟩

theorem remove (h : Records headers plain sizes) {name : Bytes} (hname : ¬Framing name) :
    Records (headers.remove name) (plain.remove name) sizes := by
  refine ⟨fun e he => h.1 e (Qlisttbl.mem_remove.1 he).1, fun e => ?_⟩
  have hne := @sizeEntries_ne sizes e
  rw [Qlisttbl.mem_remove, Qlisttbl.mem_remove, h.2 e, or_and_right]
  exact or_congr_right ⟨fun he => he.1, fun he => ⟨he, hne he hname⟩⟩

/-- Declaring a size leaves what was declared before in the table, unless it is of the same kind. -/
theorem declare (h : Records headers plain sizes) (size : ℤ) :
    Records (if 0 ≤ size then headers.putstr contentLength (decimalInt size)
      else headers.putstr transferEncoding chunked) plain (sizes ++ [size]) := by
  refine ⟨h.1, fun e => ?_⟩
  have hplain : e ∈ plain.entries →
      eqIgnoreCase e.1 contentLength = false ∧ eqIgnoreCase e.1 transferEncoding = false :=
    fun he => by simpa [Framing] using h.1 e he
  rw [mem_sizeEntries_concat]
  split_ifs
  · rw [Qlisttbl.mem_putstr, h.2 e, or_and_right, or_assoc]
    exact or_congr_left ⟨fun he => he.1, fun he => ⟨he, (hplain he).1⟩⟩
  · rw [Qlisttbl.mem_putstr, h.2 e, or_and_right, or_assoc]
    exact or_congr_left ⟨fun he => he.1, fun he => ⟨he, (hplain he).2⟩⟩

theorem getstr_eq_none_iff (h : Records headers plain sizes) {name : Bytes} (hname : ¬Framing name) :
    headers.getstr name = none ↔ plain.getstr name = none := by
  rw [Qlisttbl.getstr_eq_none_iff, Qlisttbl.getstr_eq_none_iff]
  constructor
  · intro hall e he
    exact hall e ((h.2 e).2 (Or.inl he))
  · intro hall e he
    rcases (h.2 e).1 he with he | he
    · exact hall e he
    · exact sizeEntries_ne he hname

end Records

/-- The response `http` has the texts of `texts` and the declared sizes. -/
structure Mixes (http texts : AdHttp) (sizes : List ℤ) : Prop where
  frozen : http.response.frozenHeader = texts.response.frozenHeader
  request : http.request = texts.request
  code : http.response.code = texts.response.code
  reason : http.response.reason = texts.response.reason
  headers : Records http.response.headers texts.response.headers sizes

namespace Mixes

variable {http texts : AdHttp} {sizes : List ℤ}

theorem setHeader (h : Mixes http texts sizes) {name : Bytes} (hname : ¬Framing name)
    (value : Option Bytes) :
    Mixes (adHttpSetResponseHeader http name value).2 (adHttpSetResponseHeader texts name value).2
      sizes := by
  unfold adHttpSetResponseHeader
  rw [h.frozen]
  split_ifs
  · exact h
  · cases value with
    | none => exact ⟨h.frozen, h.request, h.code, h.reason, h.headers.remove hname⟩
    | some value => exact ⟨h.frozen, h.request, h.code, h.reason, h.headers.put hname value⟩

theorem setCode (h : Mixes http texts sizes) (code : ℤ) (reason : Option Bytes) :
    Mixes (adHttpSetResponseCode http code reason).2 (adHttpSetResponseCode texts code reason).2
      sizes := by
  unfold adHttpSetResponseCode
  rw [h.frozen]
  split_ifs
  · exact h
  · cases reason with
    | none => exact ⟨h.frozen, h.request, rfl, h.reason, h.headers⟩
    | some reason => exact ⟨h.frozen, h.request, rfl, rfl, h.headers⟩

theorem setHead (h : Mixes http texts sizes) (code : ℤ) :
    Mixes (setResponseHead http code) (setResponseHead texts code) sizes := by
  have hname : ¬Framing (bytes "Connection") := by decide
  have hkeep : adHttpIsKeepaliveRequest http = adHttpIsKeepaliveRequest texts := by
    rw [adHttpIsKeepaliveRequest, adHttpIsKeepaliveRequest, h.request]
  have hnone : adHttpGetResponseHeader http (bytes "Connection") = none ↔
      adHttpGetResponseHeader texts (bytes "Connection") = none :=
    h.headers.getstr_eq_none_iff hname
  unfold setResponseHead
  by_cases hc : adHttpGetResponseHeader texts (bytes "Connection") = none
  · rw [if_pos hc, if_pos (hnone.2 hc), hkeep]
    exact (h.setHeader hname _).setCode _ _
  · rw [if_neg hc, if_neg (mt hnone.1 hc)]
    exact h.setCode _ _

theorem setContent (h : Mixes http texts sizes) (hf : texts.response.frozenHeader = false)
    (contenttype : Option Bytes) (size : ℤ) :
    Mixes (adHttpSetResponseContent http contenttype size).2 (setContentType texts contenttype)
      (sizes ++ [size]) := by
  have hput := h.headers.put (show ¬Framing (bytes "Content-Type") by decide)
    (contenttype.getD httpDefContenttype)
  rw [setResponseContent_eq (h.frozen.trans hf), setContentType_eq hf]
  exact ⟨h.frozen, h.request, h.code, h.reason, hput.declare size⟩

theorem freeze (h : Mixes http texts sizes) : Mixes http.freeze texts.freeze sizes :=
  ⟨rfl, h.request, h.code, h.reason, h.headers⟩

theorem addBodyout (h : Mixes http texts sizes) (size : ℕ) :
    Mixes (http.addBodyout size) texts sizes :=
  ⟨h.frozen, h.request, h.code, h.reason, h.headers⟩

end Mixes

/-! ## The state follows the abstract response -/

/-- The state `http` with the emissions `ems` stands for the abstract response `d`. -/
structure Represents (d : Declared) (http : AdHttp) (ems : List Emission) : Prop where
  mixes : Mixes http d.texts d.sizes
  contentlength : http.response.contentlength = inForce d.sizes
  bodyout : http.response.bodyout = d.sent
  unwritten : d.written = false → ems = []
  header : d.written = true →
    ∃ h, ems.filterMap Emission.header? = [h] ∧ headerBlock h = headerBlock http
  data : (∃ e ∈ ems, e.IsData) → 0 ≤ inForce d.sizes
  chunk : (∃ e ∈ ems, e.IsChunk) → inForce d.sizes < 0

namespace Represents

variable {d : Declared} {http : AdHttp} {ems : List Emission}

theorem frozen (h : Represents d http ems) : http.response.frozenHeader = d.written := h.mixes.frozen

theorem start {http : AdHttp} (hr : http.response = freshHttp.response) :
    Represents (.start http) http [] where
  mixes := by
    refine ⟨rfl, rfl, rfl, rfl, ?_, fun e => ?_⟩
    · simp [Declared.start, hr, freshHttp, Qlisttbl.empty]
    · simp [Declared.start, sizeEntries]
  contentlength := by rw [hr]; rfl
  bodyout := by rw [hr]; rfl
  unwritten _ := rfl
  header h := by simp [Declared.start, Declared.written, hr, freshHttp] at h
  data := by simp
  chunk := by simp

/-- The texts may change as long as nothing has been written. -/
theorem retext (h : Represents d http ems) (hw : d.written = false) {http' texts : AdHttp}
    (hmixes : Mixes http' texts d.sizes) (hhttp : SameBody http http')
    (htexts : SameBody d.texts texts) : Represents { d with texts := texts } http' ems :=
  ⟨hmixes, hhttp.contentlength.trans h.contentlength, hhttp.bodyout.trans h.bodyout,
    fun _ => h.unwritten hw, fun hw' => absurd ((htexts.frozen.trans hw).symm.trans hw') (by decide),
    h.data, h.chunk⟩

theorem setHeader (h : Represents d http ems) {name : Bytes} (hname : ¬Framing name)
    (value : Option Bytes) :
    Represents { d with texts := (adHttpSetResponseHeader d.texts name value).2 }
      (adHttpSetResponseHeader http name value).2 ems := by
  cases hw : d.written with
  | true =>
    rw [(refuses_of_frozen (h.frozen.trans hw)).setHeader, (refuses_of_frozen hw).setHeader]
    exact h
  | false =>
    exact h.retext hw (h.mixes.setHeader hname value) (sameBody_setHeader _ _ _)
      (sameBody_setHeader _ _ _)

theorem setCode (h : Represents d http ems) (code : ℤ) (reason : Option Bytes) :
    Represents { d with texts := (adHttpSetResponseCode d.texts code reason).2 }
      (adHttpSetResponseCode http code reason).2 ems := by
  cases hw : d.written with
  | true =>
    rw [(refuses_of_frozen (h.frozen.trans hw)).setCode, (refuses_of_frozen hw).setCode]
    exact h
  | false =>
    exact h.retext hw (h.mixes.setCode code reason) (sameBody_setCode _ _ _) (sameBody_setCode _ _ _)

theorem setContent (h : Represents d http ems) (hw : d.written = false) (contenttype : Option Bytes)
    (size : ℤ) :
    Represents (d.declare contenttype size) (adHttpSetResponseContent http contenttype size).2 ems := by
  have hmixes := h.mixes.setContent hw contenttype size
  have hopen : (d.declare contenttype size).written = false :=
    (sameBody_setHeader d.texts _ _).frozen.trans hw
  obtain rfl := h.unwritten hw
  rw [setResponseContent_eq (h.frozen.trans hw)] at hmixes ⊢
  exact ⟨hmixes, (inForce_concat _ _).symm, h.bodyout, fun _ => rfl,
    fun hw' => absurd (hopen.symm.trans hw') (by decide), by simp, by simp⟩

theorem prepare (h : Represents d http ems) (hw : d.written = false) (code : ℤ)
    (contenttype : Option Bytes) (size : ℤ) :
    Represents (d.prepare code contenttype size) (prepareResponse http code contenttype size) ems := by
  have hhead := h.retext hw (h.mixes.setHead code) (sameBody_setHead http code)
    (sameBody_setHead d.texts code)
  exact hhead.setContent ((sameBody_setHead d.texts code).frozen.trans hw) contenttype size

theorem write (h : Represents d http ems) :
    Represents d.write http.freeze (ems ++ headerEmits http) := by
  have hmixes := h.mixes.freeze
  unfold headerEmits
  split_ifs with hf
  · rw [List.append_nil]
    exact ⟨hmixes, h.contentlength, h.bodyout, fun hw => absurd hw (by simp [Declared.write,
      Declared.written, AdHttp.freeze]), fun _ => h.header (h.frozen.symm.trans hf), h.data, h.chunk⟩
  · obtain rfl := h.unwritten (by rw [← h.frozen]; simpa using hf)
    refine ⟨hmixes, h.contentlength, h.bodyout, fun hw => ?_, fun _ => ⟨http, rfl, rfl⟩, ?_, ?_⟩
    · simp [Declared.write, Declared.written, AdHttp.freeze] at hw
    · rintro ⟨e, he, b, rfl, -⟩
      simp at he
    · rintro ⟨e, he, b, n, rfl⟩
      simp at he

theorem emit (h : Represents d http ems) (hw : d.written = true) {e : Emission}
    (he : e.header? = none) (hdata : e.IsData → 0 ≤ inForce d.sizes)
    (hchunk : e.IsChunk → inForce d.sizes < 0) : Represents d http (ems ++ [e]) := by
  refine ⟨h.mixes, h.contentlength, h.bodyout, fun hw' => absurd hw' (by simp [hw]),
    fun hw => ?_, ?_, ?_⟩
  · obtain ⟨t, ht, htab⟩ := h.header hw
    exact ⟨t, by simp [ht, he], htab⟩
  · rintro ⟨x, hx, hd⟩
    obtain hx | hx := List.mem_append.1 hx
    · exact h.data ⟨x, hx, hd⟩
    · obtain rfl := List.mem_singleton.1 hx
      exact hdata hd
  · rintro ⟨x, hx, hd⟩
    obtain hx | hx := List.mem_append.1 hx
    · exact h.chunk ⟨x, hx, hd⟩
    · obtain rfl := List.mem_singleton.1 hx
      exact hchunk hd

theorem sendData (h : Represents d http ems) (out : Bytes) (data : Option Bytes) (size : ℕ) :
    Represents (d.sendData size) (adHttpSendData http out data size).2.1
      (ems ++ dataEmits http data size) := by
  rw [sendData_emits, dataEmits, Declared.sendData, ← h.contentlength, ← h.bodyout]
  split_ifs with hfits
  · have hsent := h.write.emit rfl (e := .data (dataBlock data size)) rfl
      (fun _ => h.contentlength ▸ hfits.1) (by simp [Emission.IsChunk])
    rw [← List.append_assoc]
    exact ⟨hsent.mixes.addBodyout size, hsent.contentlength, rfl, hsent.unwritten, hsent.header, hsent.data,
      hsent.chunk⟩
  · simpa using h

theorem sendChunk (h : Represents d http ems) (out : Bytes) (data : Option Bytes) (size : ℕ) :
    Represents d.sendChunk (adHttpSendChunk http out data size).2.1
      (ems ++ chunkEmits http data size) := by
  rw [sendChunk_emits, chunkEmits, Declared.sendChunk, ← h.contentlength]
  split_ifs with hneg
  · rw [← List.append_assoc]
    exact h.write.emit rfl rfl (by simp [Emission.IsData]) fun _ => h.contentlength ▸ hneg
  · simpa using h

theorem call (h : Represents d http ems) (out : Bytes) {c : ResponseCall} (hc : c.LeavesFraming) :
    Represents (d.call c) (c.run http out).1 (ems ++ c.emits http) := by
  cases c with
  | setHeader name value =>
    simpa [ResponseCall.emits, ResponseCall.run, Declared.call] using h.setHeader hc value
  | setCode code reason =>
    simpa [ResponseCall.emits, ResponseCall.run, Declared.call] using h.setCode code reason
  | setContent contenttype size =>
    simp only [ResponseCall.emits, List.append_nil, Declared.call]
    split_ifs with hw
    · have hf := h.frozen.trans hw
      simpa [ResponseCall.run, adHttpSetResponseContent, hf] using h
    · exact h.setContent (by simpa using hw) contenttype size
  | response code contenttype data size =>
    simp only [ResponseCall.emits, ResponseCall.run, adHttpResponse, Declared.call, ← h.frozen]
    split_ifs with hf
    · simpa using h
    · have hw : d.written = false := by rw [← h.frozen]; simpa using hf
      exact (h.prepare hw code contenttype size).sendData out data _
  | sendHeader =>
    rw [ResponseCall.emits, ResponseCall.run, sendHeader_emits]
    exact h.write
  | sendData data size => exact h.sendData out data size
  | sendChunk data size => exact h.sendChunk out data size

end Represents

/-- A sequence of calls takes the state where it takes the abstract response. -/
theorem represents_run {http : AdHttp} (hr : http.response = freshHttp.response) (out : Bytes)
    {cs : List ResponseCall} (hcs : ∀ c ∈ cs, c.LeavesFraming) :
    Represents (cs.foldl Declared.call (.start http)) (runResponse http out cs).1
      (responseEmissions http out cs) := by
  induction cs using List.reverseRecOn with
  | nil => exact Represents.start hr
  | append_singleton cs c ih =>
    have h := ih fun c hc => hcs c (List.mem_append_left _ hc)
    rw [List.foldl_concat, runResponse_concat, responseEmissions_concat]
    exact h.call _ (hcs c (by simp))

/-! ## What the header block holds -/

theorem decimalInt_of_nonneg {n : ℤ} (h : 0 ≤ n) : decimalInt n = decimal n.natAbs := by
  rw [decimalInt, if_neg (not_lt.2 h)]

theorem entryValues_length {n : ℤ} (h : 0 ≤ n) (name : Bytes) :
    entryValues name (contentLength, decimalInt n) =
      if eqIgnoreCase contentLength name = true then [decimalInt n] else [] := by
  have hname : PlainName contentLength := ⟨by decide, by decide, by decide⟩
  have hplain : PlainEntry (contentLength, decimalInt n) :=
    ⟨hname, not_mem_decimalInt (by decide) n⟩
  have htrim : Trimmed (decimalInt n) := by
    rw [decimalInt_of_nonneg h]
    exact trimmed_of_digits (isDigit_decimal _)
  rw [entryValues_of_plain hplain, qstrtrim_space htrim]

theorem entryValues_chunks (name : Bytes) :
    entryValues name (transferEncoding, chunked) =
      if eqIgnoreCase transferEncoding name = true then [chunked] else [] := by
  have hplain : PlainEntry (transferEncoding, chunked) :=
    ⟨⟨by decide, by decide, by decide⟩, by decide⟩
  rw [entryValues_of_plain hplain, qstrtrim_space (by decide)]

theorem exists_sizeEntries {sizes : List ℤ} {name v : Bytes} :
    (∃ e ∈ sizeEntries sizes, v ∈ entryValues name e) ↔
      (eqIgnoreCase contentLength name = true ∧
          ∃ n, sizes.reverse.find? (0 ≤ ·) = some n ∧ v = decimalInt n) ∨
        (eqIgnoreCase transferEncoding name = true ∧ (∃ n ∈ sizes, n < 0) ∧ v = chunked) := by
  have hlength : ∀ n, sizes.reverse.find? (0 ≤ ·) = some n →
      (v ∈ entryValues name (contentLength, decimalInt n) ↔
        eqIgnoreCase contentLength name = true ∧ v = decimalInt n) := by
    intro n hn
    rw [entryValues_length (by simpa using List.find?_some hn)]
    split_ifs with hname <;> simp [hname]
  have hchunks : v ∈ entryValues name (transferEncoding, chunked) ↔
      eqIgnoreCase transferEncoding name = true ∧ v = chunked := by
    rw [entryValues_chunks]
    split_ifs with hname <;> simp [hname]
  constructor
  · rintro ⟨e, he, hv⟩
    rcases mem_sizeEntries.1 he with ⟨n, hn, rfl⟩ | ⟨hneg, rfl⟩
    · exact Or.inl ⟨((hlength n hn).1 hv).1, n, hn, ((hlength n hn).1 hv).2⟩
    · exact Or.inr ⟨(hchunks.1 hv).1, hneg, (hchunks.1 hv).2⟩
  · rintro (⟨hname, n, hn, hv⟩ | ⟨hname, hneg, hv⟩)
    · exact ⟨_, mem_sizeEntries.2 (Or.inl ⟨n, hn, rfl⟩), (hlength n hn).2 ⟨hname, hv⟩⟩
    · exact ⟨_, mem_sizeEntries.2 (Or.inr ⟨hneg, rfl⟩), hchunks.2 ⟨hname, hv⟩⟩

namespace Mixes

variable {http texts : AdHttp} {sizes : List ℤ}

/-- What the header block holds under a name comes from the texts or from the declared sizes. -/
theorem mem_fieldValues (h : Mixes http texts sizes) {name : Bytes} (hname : name ≠ []) (v : Bytes) :
    v ∈ fieldValues name (headerBlock http) ↔
      v ∈ fieldValues name (headerBlock texts) ∨
        ∃ e ∈ sizeEntries sizes, v ∈ entryValues name e := by
  have hstatus : statusValues name http = statusValues name texts := by
    rw [statusValues, statusValues, statusText, statusText, h.request, h.code, h.reason]
  rw [mem_fieldValues_headerBlock hname, mem_fieldValues_headerBlock hname, hstatus, or_assoc]
  simp only [h.headers.2, or_and_right, exists_or]

theorem mem_contentLength (h : Mixes http texts sizes) (v : Bytes) :
    v ∈ fieldValues contentLength (headerBlock http) ↔
      v ∈ fieldValues contentLength (headerBlock texts) ∨
        ∃ n, sizes.reverse.find? (0 ≤ ·) = some n ∧ v = decimalInt n := by
  have hself : eqIgnoreCase contentLength contentLength = true := by decide
  have hne : eqIgnoreCase transferEncoding contentLength = false := by decide
  rw [h.mem_fieldValues (by decide), exists_sizeEntries, hself, hne]
  simp

theorem mem_transferEncoding (h : Mixes http texts sizes) (v : Bytes) :
    v ∈ fieldValues transferEncoding (headerBlock http) ↔
      v ∈ fieldValues transferEncoding (headerBlock texts) ∨ (∃ n ∈ sizes, n < 0) ∧ v = chunked := by
  have hself : eqIgnoreCase transferEncoding transferEncoding = true := by decide
  have hne : eqIgnoreCase contentLength transferEncoding = false := by decide
  rw [h.mem_fieldValues (by decide), exists_sizeEntries, hself, hne]
  simp

theorem contentLength_eq_nil_iff (h : Mixes http texts sizes) :
    fieldValues contentLength (headerBlock http) = [] ↔
      fieldValues contentLength (headerBlock texts) = [] ∧ ∀ n ∈ sizes, n < 0 := by
  have hfind : sizes.reverse.find? (0 ≤ ·) = none ↔ ∀ n ∈ sizes, n < 0 := by simp
  simp only [List.eq_nil_iff_forall_not_mem, h.mem_contentLength, not_or, forall_and, ← hfind]
  refine and_congr_right fun _ => ⟨fun hall => ?_, fun hnone v => by simp [hnone]⟩
  cases hn : sizes.reverse.find? (0 ≤ ·) with
  | none => rfl
  | some n => exact absurd ⟨n, hn, rfl⟩ (hall (decimalInt n))

theorem transferEncoding_eq_nil_iff (h : Mixes http texts sizes) :
    fieldValues transferEncoding (headerBlock http) = [] ↔
      fieldValues transferEncoding (headerBlock texts) = [] ∧ ∀ n ∈ sizes, 0 ≤ n := by
  simp only [List.eq_nil_iff_forall_not_mem, h.mem_transferEncoding, not_or, forall_and]
  refine and_congr_right fun _ => ⟨fun hall n hn => ?_, fun hall v => ?_⟩
  · by_contra hneg
    exact hall chunked ⟨⟨n, hn, not_le.1 hneg⟩, rfl⟩
  · rintro ⟨⟨n, hn, hneg⟩, -⟩
    exact absurd (hall n hn) (not_le.2 hneg)

end Mixes

namespace Represents

variable {d : Declared} {http : AdHttp} {ems : List Emission}

/-- A size in force is announced, and alone if nothing else was declared. -/
theorem declaresLength_iff (h : Represents d http ems) (hlen : 0 ≤ inForce d.sizes) :
    DeclaresLength (headerBlock http) (inForce d.sizes) ↔ d.LengthOnly := by
  obtain ⟨size, hfind, hsize⟩ :
      ∃ n, d.sizes.reverse.find? (0 ≤ ·) = some n ∧ inForce d.sizes = n := by
    obtain hnil | ⟨sizes, size, hsizes⟩ := List.eq_nil_or_concat' d.sizes
    · simp [hnil, inForce] at hlen
    · rw [hsizes, inForce_concat] at hlen ⊢
      have hpos : 0 ≤ size := by omega
      exact ⟨size, by simp [hpos], max_eq_left (by omega)⟩
  have hmem : ∀ v, v ∈ fieldValues contentLength (headerBlock http) ↔
      v ∈ d.spelled contentLength ∨ v = decimalInt (inForce d.sizes) := by
    intro v
    rw [h.mixes.mem_contentLength, hfind, hsize]
    simp [Declared.spelled]
  have hte := h.mixes.transferEncoding_eq_nil_iff
  constructor
  · intro hd
    have hnil := hte.1 hd.transferencoding
    exact ⟨hnil.2, fun v hv => hd.only v ((hmem v).2 (Or.inl hv)), hnil.1⟩
  · rintro ⟨hall, honly, hnil⟩
    refine ⟨List.ne_nil_of_mem ((hmem _).2 (Or.inr rfl)), fun v hv => ?_, hte.2 ⟨hnil, hall⟩⟩
    rcases (hmem v).1 hv with hv | rfl
    · exact honly v hv
    · rfl

/-- Chunks are announced, and alone, if chunks and nothing else was declared. -/
theorem declaresChunks_iff (h : Represents d http ems) :
    DeclaresChunks (headerBlock http) ↔ d.ChunksOnly := by
  have hmem := h.mixes.mem_transferEncoding
  have hcl := h.mixes.contentLength_eq_nil_iff
  constructor
  · intro hd
    obtain ⟨hnil, hall⟩ := hcl.1 hd.contentlength
    obtain ⟨v, hv⟩ := List.exists_mem_of_ne_nil _ hd.transferencoding
    refine ⟨hall, ?_, fun v hv => hd.only v ((hmem v).2 (Or.inl hv)), hnil⟩
    rcases (hmem v).1 hv with hv | ⟨⟨n, hn, -⟩, -⟩
    · exact Or.inr (List.ne_nil_of_mem hv)
    · exact Or.inl (List.ne_nil_of_mem hn)
  · rintro ⟨hall, hsome, honly, hnil⟩
    refine ⟨?_, fun v hv => ?_, hcl.2 ⟨hnil, hall⟩⟩
    · rcases hsome with hne | hne
      · obtain ⟨n, hn⟩ := List.exists_mem_of_ne_nil _ hne
        exact List.ne_nil_of_mem ((hmem chunked).2 (Or.inr ⟨⟨n, hn, hall n hn⟩, rfl⟩))
      · obtain ⟨v, hv⟩ := List.exists_mem_of_ne_nil _ hne
        exact List.ne_nil_of_mem ((hmem v).2 (Or.inl hv))
    · rcases (hmem v).1 hv with hv | ⟨-, rfl⟩
      · exact honly v hv
      · rfl

end Represents

/-! ## When the framing is the declared one -/

/-- An emission is of the kind that has been declared. -/
structure Emission.Suits (d : Declared) (e : Emission) : Prop where
  data : e.IsData → d.LengthOnly
  chunk : e.IsChunk → d.ChunksOnly

theorem suits_data (d : Declared) (block : Bytes) :
    (Emission.data block).Suits d ↔ (block ≠ [] → d.LengthOnly) := by
  constructor
  · intro h hne
    exact h.data ⟨block, rfl, hne⟩
  · intro h
    refine ⟨?_, by simp [Emission.IsChunk]⟩
    rintro ⟨b, hb, hne⟩
    obtain rfl := Emission.data.inj hb
    exact h hne

theorem suits_chunk (d : Declared) (block : Option Bytes) (size : ℕ) :
    (Emission.chunk block size).Suits d ↔ d.ChunksOnly :=
  ⟨fun h => h.chunk ⟨block, size, rfl⟩, fun h => ⟨by simp [Emission.IsData], fun _ => h⟩⟩

theorem suits_headerEmits (d : Declared) (http : AdHttp) : ∀ e ∈ headerEmits http, e.Suits d := by
  unfold headerEmits
  split_ifs
  · simp
  · intro e he
    obtain rfl := List.mem_singleton.1 he
    exact ⟨by simp [Emission.IsData], by simp [Emission.IsChunk]⟩

theorem suits_behind_header (d : Declared) (http : AdHttp) (e : Emission) :
    (∀ x ∈ headerEmits http ++ [e], x.Suits d) ↔ e.Suits d := by
  rw [List.forall_mem_append, List.forall_mem_singleton]
  exact and_iff_right (suits_headerEmits d http)

theorem suits_sendData_iff (d : Declared) (size : ℕ) (e : Emission) :
    e.Suits (d.sendData size) ↔ e.Suits d := by
  unfold Declared.sendData
  split_ifs
  · exact ⟨fun h => ⟨h.data, h.chunk⟩, fun h => ⟨h.data, h.chunk⟩⟩
  · rfl

theorem suits_sendChunk_iff (d : Declared) (e : Emission) : e.Suits d.sendChunk ↔ e.Suits d := by
  unfold Declared.sendChunk
  split_ifs
  · exact ⟨fun h => ⟨h.data, h.chunk⟩, fun h => ⟨h.data, h.chunk⟩⟩
  · rfl

namespace Represents

variable {d : Declared} {http : AdHttp} {ems : List Emission}

/-- The framing is the declared one if every emission suits what has been declared. -/
theorem framed_iff_suits (h : Represents d http ems) : Framed ems http ↔ ∀ e ∈ ems, e.Suits d := by
  have hwritten : ems ≠ [] → d.written = true := fun hne => by
    by_contra hw
    exact hne (h.unwritten (by simpa using hw))
  constructor
  · intro hf e he
    obtain ⟨t, ht, hblock⟩ := h.header (hwritten (List.ne_nil_of_mem he))
    refine ⟨fun hd => ?_, fun hk => ?_⟩
    · obtain ⟨t', ht', hdecl⟩ := hf.data ⟨e, he, hd⟩
      obtain rfl : t = t' := by simpa using ht.symm.trans ht'
      rw [hblock, h.contentlength] at hdecl
      exact (h.declaresLength_iff (h.data ⟨e, he, hd⟩)).1 hdecl
    · obtain ⟨t', ht', hdecl⟩ := hf.chunk ⟨e, he, hk⟩
      obtain rfl : t = t' := by simpa using ht.symm.trans ht'
      rw [hblock] at hdecl
      exact h.declaresChunks_iff.1 hdecl
  · intro hs
    refine ⟨?_, ?_⟩
    · rintro ⟨e, he, hd⟩
      obtain ⟨t, ht, hblock⟩ := h.header (hwritten (List.ne_nil_of_mem he))
      refine ⟨t, ht, ?_⟩
      rw [hblock, h.contentlength]
      exact (h.declaresLength_iff (h.data ⟨e, he, hd⟩)).2 ((hs e he).data hd)
    · rintro ⟨e, he, hk⟩
      obtain ⟨t, ht, hblock⟩ := h.header (hwritten (List.ne_nil_of_mem he))
      refine ⟨t, ht, ?_⟩
      rw [hblock]
      exact h.declaresChunks_iff.2 ((hs e he).chunk hk)

theorem suits_sendData (h : Represents d http ems) (data : Option Bytes) (size : ℕ) :
    (∀ e ∈ ems ++ dataEmits http data size, e.Suits (d.sendData size)) ↔
      (∀ e ∈ ems, e.Suits d) ∧ d.DataAgrees data size := by
  simp only [suits_sendData_iff]
  rw [List.forall_mem_append, dataEmits, Declared.DataAgrees, h.contentlength, h.bodyout]
  split_ifs with hfits
  · rw [suits_behind_header, suits_data, forall_prop_of_true hfits]
  · simp [hfits]

theorem suits_sendChunk (h : Represents d http ems) (data : Option Bytes) (size : ℕ) :
    (∀ e ∈ ems ++ chunkEmits http data size, e.Suits d.sendChunk) ↔
      (∀ e ∈ ems, e.Suits d) ∧ d.ChunkAgrees := by
  simp only [suits_sendChunk_iff]
  rw [List.forall_mem_append, chunkEmits, Declared.ChunkAgrees, h.contentlength]
  split_ifs with hneg
  · rw [suits_behind_header, suits_chunk, forall_prop_of_true hneg]
  · simp [hneg]

theorem suits_idle (h : Represents d http ems) {d' : Declared} (hd' : d.written = true → d' = d) :
    (∀ e ∈ ems, e.Suits d') ↔ (∀ e ∈ ems, e.Suits d) := by
  cases hw : d.written with
  | true => rw [hd' hw]
  | false => simp [h.unwritten hw]

/-- What a call emits suits what has been declared if the call agrees with it. -/
theorem suits_call (h : Represents d http ems) (c : ResponseCall) :
    (∀ e ∈ ems ++ c.emits http, e.Suits (d.call c)) ↔ (∀ e ∈ ems, e.Suits d) ∧ d.Agrees c := by
  cases c with
  | setHeader name value =>
    simp only [ResponseCall.emits, List.append_nil, Declared.Agrees, and_true]
    exact h.suits_idle fun hw => by rw [Declared.call, (refuses_of_frozen hw).setHeader]
  | setCode code reason =>
    simp only [ResponseCall.emits, List.append_nil, Declared.Agrees, and_true]
    exact h.suits_idle fun hw => by rw [Declared.call, (refuses_of_frozen hw).setCode]
  | setContent contenttype size =>
    simp only [ResponseCall.emits, List.append_nil, Declared.Agrees, and_true]
    exact h.suits_idle fun hw => by rw [Declared.call, if_pos hw]
  | response code contenttype data size =>
    by_cases hw : d.written = true
    · simp [ResponseCall.emits, Declared.call, Declared.Agrees, hw, h.frozen]
    · rw [Bool.not_eq_true] at hw
      have hprep := h.prepare hw code contenttype size
      obtain rfl := h.unwritten hw
      have hcall : d.call (.response code contenttype data size) =
          (d.prepare code contenttype size).sendData (size % 2 ^ 64).toNat := by
        simp [Declared.call, hw]
      have hemits : ResponseCall.emits http (.response code contenttype data size) =
          dataEmits (prepareResponse http code contenttype size) data (size % 2 ^ 64).toNat := by
        simp [ResponseCall.emits, h.frozen, hw]
      rw [hcall, hemits, Declared.Agrees, forall_prop_of_true hw]
      refine (hprep.suits_sendData data (size % 2 ^ 64).toNat).trans ?_
      simp
  | sendHeader =>
    rw [List.forall_mem_append]
    have hwrite : ∀ e : Emission, e.Suits d.write ↔ e.Suits d := fun e =>
      ⟨fun h => ⟨h.data, h.chunk⟩, fun h => ⟨h.data, h.chunk⟩⟩
    simp only [Declared.call, hwrite]
    exact and_congr_right fun _ => iff_of_true (suits_headerEmits d http) trivial
  | sendData data size => exact h.suits_sendData data size
  | sendChunk data size => exact h.suits_sendChunk data size

end Represents

theorem Declared.allAgree_concat (d : Declared) (cs : List ResponseCall) (c : ResponseCall) :
    d.AllAgree (cs ++ [c]) ↔ d.AllAgree cs ∧ (cs.foldl Declared.call d).Agrees c := by
  induction cs generalizing d with
  | nil => simp [Declared.AllAgree]
  | cons c' cs ih => simp [Declared.AllAgree, ih, and_assoc]

theorem suits_run {http : AdHttp} (hr : http.response = freshHttp.response) (out : Bytes)
    {cs : List ResponseCall} (hcs : ∀ c ∈ cs, c.LeavesFraming) :
    (∀ e ∈ responseEmissions http out cs, e.Suits (cs.foldl Declared.call (.start http))) ↔
      (Declared.start http).AllAgree cs := by
  induction cs using List.reverseRecOn with
  | nil => simp [responseEmissions, Declared.AllAgree]
  | append_singleton cs c ih =>
    have hcs' : ∀ c ∈ cs, c.LeavesFraming := fun c hc => hcs c (List.mem_append_left _ hc)
    rw [List.foldl_concat, responseEmissions_concat, Declared.allAgree_concat, ← ih hcs']
    exact (represents_run hr out hcs').suits_call c

/-! ## Texts without line feeds -/

/-- Every text makes one line, and no line of a text declares a framing. -/
structure PlainTexts (texts : AdHttp) : Prop where
  httpver : ∀ s ∈ texts.request.httpver, lf ∉ s
  reason : ∀ s ∈ texts.response.reason, lf ∉ s
  entries : ∀ e ∈ texts.response.headers.entries, PlainEntry e ∧ ¬Framing e.1

/-- The texts of a call make one line each. -/
def ResponseCall.Plain : ResponseCall → Prop
  | .setHeader name value => ∀ v ∈ value, PlainEntry (name, v)
  | .setCode _ reason => ∀ s ∈ reason, lf ∉ s
  | .setContent contenttype _ => ∀ s ∈ contenttype, lf ∉ s
  | .response _ contenttype _ _ => ∀ s ∈ contenttype, lf ∉ s
  | _ => True

namespace PlainTexts

variable {texts : AdHttp}

theorem fieldValues_eq_nil (h : PlainTexts texts) {name : Bytes} (hne : name ≠ [])
    (hname : ∀ n, eqIgnoreCase n name = true → Framing n) :
    fieldValues name (headerBlock texts) = [] := by
  rw [fieldValues_headerBlock hne, statusValues_of_plain h.httpver h.reason, List.nil_append,
    List.flatMap_eq_nil_iff]
  intro e he
  obtain ⟨hplain, hframing⟩ := h.entries e he
  rw [entryValues_of_plain hplain, if_neg (mt (hname e.1) hframing)]

theorem setHeader (h : PlainTexts texts) {name : Bytes} (hname : ¬Framing name)
    {value : Option Bytes} (hvalue : ∀ v ∈ value, PlainEntry (name, v)) :
    PlainTexts (adHttpSetResponseHeader texts name value).2 := by
  unfold adHttpSetResponseHeader
  split_ifs
  · exact h
  · cases value with
    | none =>
      exact ⟨h.httpver, h.reason, fun e he => h.entries e (Qlisttbl.mem_remove.1 he).1⟩
    | some value =>
      refine ⟨h.httpver, h.reason, fun e he => ?_⟩
      rcases Qlisttbl.mem_putstr.1 he with he | rfl
      · exact h.entries e he.1
      · exact ⟨hvalue value rfl, hname⟩

theorem setCode (h : PlainTexts texts) (code : ℤ) {reason : Option Bytes}
    (hreason : ∀ s ∈ reason, lf ∉ s) : PlainTexts (adHttpSetResponseCode texts code reason).2 := by
  unfold adHttpSetResponseCode
  split_ifs
  · exact h
  · cases reason with
    | none => exact ⟨h.httpver, h.reason, h.entries⟩
    | some reason => exact ⟨h.httpver, hreason, h.entries⟩

theorem setHead (h : PlainTexts texts) (code : ℤ) : PlainTexts (setResponseHead texts code) := by
  have hreason : ∀ s ∈ some (adHttpGetReason code), lf ∉ s := by
    rintro s ⟨⟩
    exact lf_not_mem_reason code
  have hvalue : ∀ keep : Bool, ∀ v ∈ some (if keep then bytes "Keep-Alive" else bytes "close"),
      PlainEntry (bytes "Connection", v) := by
    rintro keep v ⟨⟩
    have hname : PlainName (bytes "Connection") := ⟨by decide, by decide, by decide⟩
    exact ⟨hname, by cases keep <;> decide⟩
  unfold setResponseHead
  split_ifs
  · exact (h.setHeader (by decide) (hvalue true)).setCode code hreason
  · exact (h.setHeader (by decide) (hvalue false)).setCode code hreason
  · exact h.setCode code hreason

theorem setContentType (h : PlainTexts texts) {contenttype : Option Bytes}
    (hcontent : ∀ s ∈ contenttype, lf ∉ s) : PlainTexts (setContentType texts contenttype) := by
  refine h.setHeader (by decide) ?_
  rintro v ⟨⟩
  have hlf : lf ∉ contenttype.getD httpDefContenttype := by
    cases contenttype with
    | none => decide
    | some s => exact hcontent s rfl
  have hname : PlainName (bytes "Content-Type") := ⟨by decide, by decide, by decide⟩
  exact ⟨hname, hlf⟩

theorem freeze (h : PlainTexts texts) : PlainTexts texts.freeze := ⟨h.httpver, h.reason, h.entries⟩

end PlainTexts

namespace Declared

theorem plainTexts_sendData {d : Declared} (h : PlainTexts d.texts) (size : ℕ) :
    PlainTexts (d.sendData size).texts := by
  unfold sendData
  split_ifs
  · exact h.freeze
  · exact h

theorem plainTexts_call {d : Declared} (h : PlainTexts d.texts) {c : ResponseCall} (hc : c.Plain)
    (hframing : c.LeavesFraming) : PlainTexts (d.call c).texts := by
  cases c with
  | setHeader name value => exact h.setHeader hframing hc
  | setCode code reason => exact h.setCode code hc
  | setContent contenttype size =>
    rw [call]
    split_ifs
    · exact h
    · exact h.setContentType hc
  | response code contenttype data size =>
    rw [call]
    split_ifs
    · exact h
    · exact plainTexts_sendData ((h.setHead code).setContentType hc) _
  | sendHeader => exact h.freeze
  | sendData data size => exact plainTexts_sendData h size
  | sendChunk data size =>
    rw [call, sendChunk]
    split_ifs
    · exact h.freeze
    · exact h

/-- When every text makes one line, what has been declared is a matter of the sizes alone. -/
theorem declared_of_plain {d : Declared} (h : PlainTexts d.texts) :
    (d.LengthOnly ↔ ∀ n ∈ d.sizes, 0 ≤ n) ∧
      (d.ChunksOnly ↔ d.sizes ≠ [] ∧ ∀ n ∈ d.sizes, n < 0) := by
  have hcl : d.spelled contentLength = [] := h.fieldValues_eq_nil (by decide) fun _ => Or.inl
  have hte : d.spelled transferEncoding = [] := h.fieldValues_eq_nil (by decide) fun _ => Or.inr
  constructor
  · simp [LengthOnly, hcl, hte]
  · simp [ChunksOnly, hcl, hte, and_comm]

end Declared

theorem plainTexts_run {http : AdHttp} (hr : http.response = freshHttp.response)
    (hver : ∀ s ∈ http.request.httpver, lf ∉ s) {cs : List ResponseCall}
    (hcs : ∀ c ∈ cs, c.Plain ∧ c.LeavesFraming) :
    PlainTexts (cs.foldl Declared.call (.start http)).texts := by
  induction cs using List.reverseRecOn with
  | nil => exact ⟨hver, by simp [Declared.start, hr, freshHttp],
      by simp [Declared.start, hr, freshHttp, Qlisttbl.empty]⟩
  | append_singleton cs c ih =>
    have hc := hcs c (by simp)
    rw [List.foldl_concat]
    exact Declared.plainTexts_call (ih fun c hc => hcs c (List.mem_append_left _ hc)) hc.1 hc.2

/-! ## The response of a sequence of calls -/

/-- The lines of the header block declare the framing that is used exactly if every block of data is
sent with only lengths declared, and every chunk with only chunks declared.  While every text makes one
line, only the sizes count. -/
theorem framed_iff_allAgree {http : AdHttp} (hr : http.response = freshHttp.response) (out : Bytes)
    {cs : List ResponseCall} (hcs : ∀ c ∈ cs, c.LeavesFraming) :
    (runResponse http out cs).2 =
        out ++ (responseEmissions http out cs).flatMap Emission.render ∧
      (Framed (responseEmissions http out cs) (runResponse http out cs).1 ↔
        (Declared.start http).AllAgree cs) ∧
      ((∀ s ∈ http.request.httpver, lf ∉ s) → (∀ c ∈ cs, c.Plain) →
        ∀ pre, pre <+: cs →
          let d := pre.foldl Declared.call (.start http)
          (d.LengthOnly ↔ ∀ n ∈ d.sizes, 0 ≤ n) ∧
            (d.ChunksOnly ↔ d.sizes ≠ [] ∧ ∀ n ∈ d.sizes, n < 0)) := by
  refine ⟨runResponse_out http out cs, ?_, ?_⟩
  · rw [(represents_run hr out hcs).framed_iff_suits, suits_run hr out hcs]
  · intro hver hplain pre hpre
    have hpre' : ∀ c ∈ pre, c.Plain ∧ c.LeavesFraming := fun c hc =>
      ⟨hplain c (hpre.subset hc), hcs c (hpre.subset hc)⟩
    exact Declared.declared_of_plain (plainTexts_run hr hver hpre')

/-- A length is declared after chunks, and both stand in the header block in front of the data. -/
theorem framing_chunks_then_length :
    let cs := [.setContent none (-1), .response 200 none (some (bytes "a")) 1]
    ¬Framed (responseEmissions freshHttp [] cs) (runResponse freshHttp [] cs).1 := by
  intro cs hf
  have hcs : ∀ c ∈ cs, c.LeavesFraming := by simp [cs, ResponseCall.LeavesFraming]
  have hagree := (suits_run rfl [] hcs).1 ((represents_run rfl [] hcs).framed_iff_suits.1 hf)
  have honly := hagree.2.1 rfl ⟨by decide, by decide⟩ (by decide)
  exact absurd (honly.1 (-1) (by decide)) (by decide)

/-- A declared length with its data. -/
theorem framed_length_one :
    let cs := [.setContent none 1, .sendData (some (bytes "a")) 1]
    Framed (responseEmissions freshHttp [] cs) (runResponse freshHttp [] cs).1 := by
  intro cs
  have hcs : ∀ c ∈ cs, c.LeavesFraming := by simp [cs, ResponseCall.LeavesFraming]
  have hplain : ∀ c ∈ cs, c.Plain := by simp [cs, ResponseCall.Plain]
  obtain ⟨-, hframed, hsizes⟩ := framed_iff_allAgree rfl [] hcs
  refine hframed.2 ⟨trivial, fun _ _ => ?_, trivial⟩
  exact ((hsizes (by simp [freshHttp]) hplain [cs.head (by simp [cs])] ⟨_, rfl⟩).1).2 (by decide)

/-! ## A response in one call -/

theorem freshHeaders_entries (connection contenttype length : Bytes) :
    (((Qlisttbl.empty.putstr (bytes "Connection") connection).putstr (bytes "Content-Type")
      contenttype).putstr contentLength length).entries =
      [(bytes "Connection", connection), (bytes "Content-Type", contenttype),
        (contentLength, length)] := rfl

/-- The header of a response with a body. -/
def simpleHeader (http : AdHttp) (code : ℤ) (contenttype : Bytes) (size : ℕ) : Bytes :=
  http.request.httpver.getD (bytes "(null)") ++ bytes " " ++ decimalInt code ++ bytes " " ++
      adHttpGetReason code ++ httpCrlf ++
    headerLine (bytes "Connection")
      (if adHttpIsKeepaliveRequest http then bytes "Keep-Alive" else bytes "close") ++
    headerLine (bytes "Content-Type") contenttype ++ headerLine contentLength (decimalInt size) ++
    httpCrlf

/-- The header fields of a response that has not been touched. -/
theorem prepareResponse_fresh {http : AdHttp} (hr : http.response = freshHttp.response) (code : ℤ)
    (contenttype : Bytes) (size : ℕ) :
    (prepareResponse http code (some contenttype) size).response =
    { frozenHeader := false
      code := code
      reason := some (adHttpGetReason code)
      headers := ((Qlisttbl.empty.putstr (bytes "Connection")
        (if adHttpIsKeepaliveRequest http then bytes "Keep-Alive" else bytes "close")).putstr
          (bytes "Content-Type") contenttype).putstr contentLength (decimalInt size)
      contentlength := size
      bodyout := 0 } := by
  have hopen : http.response.frozenHeader = false := by rw [hr]; rfl
  have hnone : adHttpGetResponseHeader http (bytes "Connection") = none := by
    rw [adHttpGetResponseHeader, hr]
    rfl
  have hset : ∀ value, (adHttpSetResponseHeader http (bytes "Connection") (some value)).2 =
      { http with response.headers := Qlisttbl.empty.putstr (bytes "Connection") value } := by
    intro value
    rw [adHttpSetResponseHeader, if_neg (by simp [hopen]), hr]
    rfl
  rw [prepareResponse, if_pos hnone, hset, adHttpSetResponseCode, if_neg (by simp [hopen])]
  dsimp only
  rw [setResponseContent_eq (by exact hopen), max_eq_left (by omega)]
  dsimp only
  rw [if_pos (by omega), hr]
  rfl

theorem headerBlock_fresh {http : AdHttp} (hr : http.response = freshHttp.response) (code : ℤ)
    (contenttype : Bytes) (size : ℕ) :
    headerBlock (prepareResponse http code (some contenttype) size) =
      simpleHeader http code contenttype size := by
  rw [headerBlock, prepareResponse_fresh hr, prepareResponse_request]
  dsimp only
  rw [Option.getD_some, freshHeaders_entries]
  simp [simpleHeader]

theorem adHttpResponse_writes {http : AdHttp} (hr : http.response = freshHttp.response) (out : Bytes)
    (code : ℤ) (contenttype : Bytes) (data : Option Bytes) {size : ℕ} (hsize : size < 2 ^ 64) :
    (adHttpResponse http out code (some contenttype) data size).2 =
      ((prepareResponse http code (some contenttype) size).freeze.addBodyout size,
        out ++ simpleHeader http code contenttype size ++ dataBlock data size) := by
  have hopen : http.response.frozenHeader = false := by rw [hr]; rfl
  have hmod : ((size : ℤ) % 2 ^ 64).toNat = size := by omega
  have hfits : Fits size 0 size := by
    refine ⟨by omega, ?_⟩
    rw [Nat.zero_add, Nat.mod_eq_of_lt hsize]
    omega
  have hprep := prepareResponse_fresh hr code contenttype size
  have hemits : dataEmits (prepareResponse http code (some contenttype) size) data size =
      [.header (prepareResponse http code (some contenttype) size), .data (dataBlock data size)] := by
    rw [dataEmits, headerEmits, hprep, if_pos hfits]
    rfl
  rw [adHttpResponse, if_neg (by simp [hopen]), sendData_emits, hmod, hemits, hprep, if_pos hfits]
  simp [Emission.render, headerBlock_fresh hr]

theorem dataBlock_whole (data : Bytes) : dataBlock (some data) data.length = data := by
  unfold dataBlock
  cases data <;> simp

theorem adHttpResponse_fresh {http : AdHttp} (hr : http.response = freshHttp.response) (out : Bytes)
    (code : ℤ) (contenttype data : Bytes) (hdata : data.length < 2 ^ 64) :
    (adHttpResponse http out code (some contenttype) (some data) data.length).2.2 =
      out ++ simpleHeader http code contenttype data.length ++ data := by
  rw [adHttpResponse_writes hr out code contenttype (some data) hdata, dataBlock_whole]

end Asyncd
