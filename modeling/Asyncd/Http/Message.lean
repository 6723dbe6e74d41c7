import Asyncd.Http.ChunkedBody

/-!
# Well-formed requests

A `Message` is a request with a head made of fields and the body that the head announces.
`Message.reads` says that the parser reads one from the front of any stream, however it is cut, and
finds in it what `Message.record` says.
-/

open CString ByteLines

namespace Asyncd

/-! ## Messages -/

/-- The body of a request: none, one of given length, or one in chunks. -/
inductive MessageBody
  | none
  | sized (data : Bytes)
  | chunks (cs : List Chunk)

namespace MessageBody

/-- The bytes of the body. -/
def wire : MessageBody → Bytes
  | none => []
  | sized data => data
  | chunks cs => chunkedBody cs

/-- The content of the body. -/
def content : MessageBody → Bytes
  | none => []
  | sized data => data
  | chunks cs => chunkedData cs

end MessageBody

/-- What a hook finds in a request: its method, path, headers and body. -/
structure Record where
  method : Option Bytes
  path : Option Bytes
  headers : Qlisttbl
  body : Bytes
  deriving DecidableEq

/-- The record of an HTTP state. -/
def AdHttp.record (http : AdHttp) : Record :=
  ⟨http.request.method, http.request.path, http.request.headers, http.request.inbuf⟩

theorem addHeaders_line (http : AdHttp) (ls : List Line) :
    (addHeaders http ls).request.method = http.request.method ∧
      (addHeaders http ls).request.path = http.request.path := by
  induction ls generalizing http with
  | nil => exact ⟨rfl, rfl⟩
  | cons l ls ih => exact ih (addHeader http (cstr l.text))

section

variable [UrlDecoder]

/-- The head announces no body. -/
structure FieldHead.AnnouncesNothing (h : FieldHead) : Prop where
  accepted : h.head.Accepted
  no_length : ∀ f ∈ h.fields, f.named contentLength = false
  no_encoding : ∀ f ∈ h.fields, f.named transferEncoding = false

/-- The head announces the body. -/
def FieldHead.AnnouncesBody (h : FieldHead) : MessageBody → Prop
  | .none => h.AnnouncesNothing
  | .sized data => h.Announces data.length
  | .chunks _ => h.AnnouncesChunks

/-- A well-formed request. -/
structure Message where
  head : FieldHead
  body : MessageBody
  announced : head.AnnouncesBody body

namespace Message

variable (m : Message)

/-- The bytes of the request. -/
def wire : Bytes := m.head.head.wire ++ m.body.wire

/-- The method and path of the request line, the headers, and the content of the body. -/
def record : Record where
  method := m.head.head.lineState.request.method
  path := m.head.head.lineState.request.path
  headers := m.head.head.state.request.headers
  body := m.body.content

theorem accepted : m.head.head.Accepted := by
  obtain ⟨h, body, ha⟩ := m
  cases body with
  | none => exact FieldHead.AnnouncesNothing.accepted ha
  | sized data => exact FieldHead.Announces.accepted ha
  | chunks cs => exact FieldHead.AnnouncesChunks.accepted ha

end Message

/-! ## Reading them -/

/-- The parser reads `w` from the front of any stream, in one status until it is complete. -/
structure Reads (w : Bytes) (final : AdHttp) : Prop where
  cuts : ∀ t, Push.CutsAlong httpStep freshHttp (w ++ t)
  short : ∀ {p t}, p <+: w ++ t → p.length < w.length →
    (httpStep freshHttp p).1.request.status ≠ .done ∧
      (httpStep freshHttp p).1.request.status ≠ .error
  whole : ∀ t, httpStep freshHttp (w ++ t) = (final, t)
  done : final.request.status = .done

theorem status_before_head {h : RequestHead} (ha : h.Accepted) {p r : Bytes}
    (hp : p <+: h.wire ++ r) (hlt : p.length < h.wire.length) :
    (httpStep freshHttp p).1.request.status ≠ .done ∧
      (httpStep freshHttp p).1.request.status ≠ .error := by
  obtain ⟨hd, -⟩ := httpStep_before_head ha hp hlt
  exact ⟨fun e => hd ⟨by rw [e]; decide, by rw [e]; decide⟩,
    fun e => hd ⟨by rw [e]; decide, by rw [e]; decide⟩⟩

theorem FieldHead.AnnouncesNothing.no_body {h : FieldHead} (ha : h.AnnouncesNothing) :
    h.head.state.request.contentlength < 0 ∧
      h.head.state.request.headers.getstr transferEncoding ≠ some chunked := by
  refine ⟨?_, ?_⟩
  · rw [h.contentlength_state, h.getstr_state_of_none (by decide) ha.no_length]
    decide
  · rw [h.getstr_state_of_none (by decide) ha.no_encoding]
    simp

theorem reads_none {h : FieldHead} (ha : h.AnnouncesNothing) :
    Reads h.head.wire (h.head.state.setStatus .done) where
  cuts t := (cutsAlong_httpStep_wire ha.accepted t).2 fun hc => absurd hc.2 ha.no_body.2
  short := status_before_head ha.accepted
  whole t := by
    rw [httpStep_wire ha.accepted]
    exact bodyPhase_none rfl (Or.inr ha.no_body) t
  done := rfl

theorem reads_sized {h : FieldHead} {data : Bytes} (ha : h.Announces data.length) :
    Reads (h.head.wire ++ data) ((h.head.state.addBody data).setStatus .done) where
  cuts t := by
    rw [List.append_assoc, cutsAlong_httpStep_wire ha.accepted]
    exact fun hc => absurd hc.1 (by rw [ha.contentlength]; omega)
  short := by
    intro p t hp hlt
    rw [List.append_assoc] at hp
    obtain hshort | hlong := Nat.lt_or_ge p.length h.head.wire.length
    · exact status_before_head ha.accepted hp hshort
    · obtain ⟨q, rfl⟩ : h.head.wire <+: p :=
        List.prefix_of_prefix_length_le ⟨data ++ t, rfl⟩ hp hlong
      rw [List.length_append, List.length_append, Nat.add_lt_add_iff_left] at hlt
      rw [httpStep_wire ha.accepted,
        bodyPhase_of_length rfl ha.contentlength (RequestHead.state_body ha.accepted).2,
        if_neg (not_le.2 hlt)]
      exact ⟨by simp, by simp⟩
  whole t := by
    rw [List.append_assoc, httpStep_wire ha.accepted,
      bodyPhase_of_length rfl ha.contentlength (RequestHead.state_body ha.accepted).2]
    simp
  done := rfl

theorem reads_chunks {h : FieldHead} (ha : h.AnnouncesChunks) (cs : List Chunk) :
    Reads (h.head.wire ++ chunkedBody cs)
      ((h.head.state.setInbuf (chunkedData cs)).setStatus .done) where
  cuts t := by
    rw [List.append_assoc, cutsAlong_httpStep_wire ha.accepted]
    exact fun _ => chunksDelimited_chunkedBody cs t
  short := by
    intro p t hp hlt
    obtain ⟨u, hu⟩ := hp
    obtain ⟨hdone, herr, -⟩ := httpStep_chunked ha hu
    rw [List.length_append] at hlt
    exact ⟨fun hd => absurd (hdone.1 hd) (by omega), herr⟩
  whole t := by
    rw [List.append_assoc, httpStep_wire ha.accepted,
      bodyPhase_chunked _ rfl ha.chunked.1 ha.chunked.2,
      (RequestHead.state_body ha.accepted).1, readChunks_chunkedBody]
    rfl
  done := rfl

theorem RequestHead.state_line (h : RequestHead) :
    h.state.request.method = h.lineState.request.method ∧
      h.state.request.path = h.lineState.request.path :=
  addHeaders_line h.lineState h.headers

/-- The parser reads a well-formed request and finds its record. -/
theorem Message.reads (m : Message) :
    ∃ final, Reads m.wire final ∧ final.record = m.record := by
  obtain ⟨hmethod, hpath⟩ := m.head.head.state_line
  obtain ⟨hinbuf, -⟩ := RequestHead.state_body m.accepted
  obtain ⟨h, body, ha⟩ := m
  -- whatever the body, the final state is that of the head but for the body and the status
  cases body with
  | none =>
    refine ⟨_, by simpa [Message.wire, MessageBody.wire] using reads_none ha, ?_⟩
    simp only [AdHttp.record, Message.record, AdHttp.setStatus, hmethod, hpath, hinbuf]
    rfl
  | sized data =>
    refine ⟨_, reads_sized ha, ?_⟩
    simp only [AdHttp.record, Message.record, AdHttp.setStatus, AdHttp.addBody, hmethod, hpath,
      hinbuf]
    rfl
  | chunks cs =>
    refine ⟨_, reads_chunks ha cs, ?_⟩
    simp only [AdHttp.record, Message.record, AdHttp.setStatus, AdHttp.setInbuf, hmethod, hpath]
    rfl

end

end Asyncd
