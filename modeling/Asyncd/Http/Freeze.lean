import Asyncd.Http.Framing

/-!
# The shape of a response

Whatever response functions are called, and in whatever order: the header block is written at most
once, in front of the body, and all parts of the body are of the kind that the content length in force
asks for (`responseShape`).  From the header block on, everything that would change it is refused.
-/

open CString

namespace Asyncd

/-! ## Parts of a response -/

/-- A part of a body, of the kind that the content length asks for. -/
def Emission.IsBody (contentlength : ℤ) : Emission → Prop
  | header _ => False
  | data _ => 0 ≤ contentlength
  | chunk _ _ => contentlength < 0

/-- The state whose header block a call writes, if it writes one: `ad_http_response` sets the header
first. -/
def ResponseCall.announced (http : AdHttp) : ResponseCall → AdHttp
  | .response code contenttype _ size => prepareResponse http code contenttype size
  | _ => http

/-! ## One call -/

/-- What a call has emitted and left: nothing of the header block yet, or all of it with body parts
behind. -/
def Opens (http' : AdHttp) (ems : List Emission) (after : AdHttp) : Prop :=
  ems = [] ∧ after.response.frozenHeader = false ∨
    ∃ parts, ems = .header http' :: parts ∧ after.response.frozenHeader = true ∧
      after.response.contentlength = http'.response.contentlength ∧
      ∀ p ∈ parts, p.IsBody after.response.contentlength

/-- What a call has emitted and left behind the header block: body parts only. -/
def Continues (http : AdHttp) (ems : List Emission) (after : AdHttp) : Prop :=
  after.response.frozenHeader = true ∧
    after.response.contentlength = http.response.contentlength ∧
    ∀ p ∈ ems, p.IsBody http.response.contentlength

theorem continues_idle {http : AdHttp} (hf : http.response.frozenHeader = true) :
    Continues http [] http := ⟨hf, rfl, fun _ h => absurd h List.not_mem_nil⟩

section

variable {http : AdHttp} (out : Bytes)

theorem sendData_continues (hf : http.response.frozenHeader = true) (data : Option Bytes)
    (size : ℕ) :
    Continues http (dataEmits http data size) (adHttpSendData http out data size).2.1 := by
  rw [sendData_emits, dataEmits]
  split_ifs with hfits
  · refine ⟨rfl, rfl, ?_⟩
    intro p hp
    rw [headerEmits, if_pos hf, List.nil_append, List.mem_singleton] at hp
    rw [hp]
    exact hfits.1
  · exact continues_idle hf

theorem sendChunk_continues (hf : http.response.frozenHeader = true) (data : Option Bytes)
    (size : ℕ) :
    Continues http (chunkEmits http data size) (adHttpSendChunk http out data size).2.1 := by
  rw [sendChunk_emits, chunkEmits]
  split_ifs with hneg
  · refine ⟨rfl, rfl, ?_⟩
    intro p hp
    rw [headerEmits, if_pos hf, List.nil_append, List.mem_singleton] at hp
    rw [hp]
    exact hneg
  · exact continues_idle hf

theorem sendData_opens (hf : http.response.frozenHeader = false) (data : Option Bytes) (size : ℕ) :
    Opens http (dataEmits http data size) (adHttpSendData http out data size).2.1 := by
  rw [sendData_emits, dataEmits]
  split_ifs with hfits
  · refine Or.inr ⟨[.data (dataBlock data size)], ?_, rfl, rfl, ?_⟩
    · rw [headerEmits, hf]
      rfl
    · intro p hp
      rw [List.mem_singleton.1 hp]
      exact hfits.1
  · exact Or.inl ⟨rfl, hf⟩

theorem sendChunk_opens (hf : http.response.frozenHeader = false) (data : Option Bytes)
    (size : ℕ) :
    Opens http (chunkEmits http data size) (adHttpSendChunk http out data size).2.1 := by
  rw [sendChunk_emits, chunkEmits]
  split_ifs with hneg
  · refine Or.inr ⟨[.chunk data size], ?_, rfl, rfl, ?_⟩
    · rw [headerEmits, hf]
      rfl
    · intro p hp
      rw [List.mem_singleton.1 hp]
      exact hneg
  · exact Or.inl ⟨rfl, hf⟩

end

theorem setResponseContent_frozenHeader (http : AdHttp) (contenttype : Option Bytes) (size : ℤ) :
    (adHttpSetResponseContent http contenttype size).2.response.frozenHeader =
      http.response.frozenHeader := by
  cases hf : http.response.frozenHeader with
  | true => rw [(refuses_of_frozen hf).setContent, hf]
  | false => rw [setResponseContent_eq hf, hf]

theorem prepareResponse_frozenHeader (http : AdHttp) (code : ℤ) (contenttype : Option Bytes)
    (size : ℤ) :
    (prepareResponse http code contenttype size).response.frozenHeader =
      http.response.frozenHeader := by
  rw [prepareResponse_eq, setResponseContent_frozenHeader, (sameBody_setHead http code).frozen]

namespace ResponseCall

variable {http : AdHttp} (out : Bytes) (c : ResponseCall)

theorem opens (hf : http.response.frozenHeader = false) :
    Opens (c.announced http) (c.emits http) (c.run http out).1 := by
  cases c with
  | setHeader name value =>
    exact Or.inl ⟨rfl, (sameBody_setHeader http name value).frozen.trans hf⟩
  | setCode code reason =>
    exact Or.inl ⟨rfl, (sameBody_setCode http code reason).frozen.trans hf⟩
  | setContent contenttype size =>
    exact Or.inl ⟨rfl, (setResponseContent_frozenHeader http contenttype size).trans hf⟩
  | response code contenttype data size =>
    have hf' := (prepareResponse_frozenHeader http code contenttype size).trans hf
    have hsend := sendData_opens out hf' data (size % 2 ^ 64).toNat
    simpa only [announced, run, emits, adHttpResponse, hf, Bool.false_eq_true, if_false] using hsend
  | sendHeader =>
    rw [emits, run, sendHeader_emits, headerEmits, hf]
    exact Or.inr ⟨[], rfl, rfl, rfl, fun _ h => absurd h List.not_mem_nil⟩
  | sendData data size => exact sendData_opens out hf data size
  | sendChunk data size => exact sendChunk_opens out hf data size

theorem continues (hf : http.response.frozenHeader = true) :
    Continues http (c.emits http) (c.run http out).1 := by
  have href := refuses_of_frozen hf
  cases c with
  | setHeader name value =>
    rw [run, href.setHeader]
    exact continues_idle hf
  | setCode code reason =>
    rw [run, href.setCode]
    exact continues_idle hf
  | setContent contenttype size =>
    rw [run, href.setContent]
    exact continues_idle hf
  | response code contenttype data size =>
    rw [run, href.response, emits, if_pos hf]
    exact continues_idle hf
  | sendHeader =>
    rw [emits, run, sendHeader_emits, headerEmits, if_pos hf, AdHttp.freeze_of_frozen hf]
    exact continues_idle hf
  | sendData data size => exact sendData_continues out hf data size
  | sendChunk data size => exact sendChunk_continues out hf data size

end ResponseCall

/-! ## Every sequence of calls -/

theorem responseEmissions_continues {http : AdHttp} (hf : http.response.frozenHeader = true)
    (out : Bytes) (cs : List ResponseCall) :
    Continues http (responseEmissions http out cs) (runResponse http out cs).1 := by
  induction cs generalizing http out with
  | nil => exact continues_idle hf
  | cons c cs ih =>
    obtain ⟨hf', hlen, hparts⟩ := c.continues out hf
    obtain ⟨hf'', hlen', hparts'⟩ := ih hf' (c.run http out).2
    rw [hlen] at hlen' hparts'
    rw [responseEmissions, runResponse_cons]
    exact ⟨hf'', hlen', List.forall_mem_append.2 ⟨hparts, hparts'⟩⟩

/-- The shape of what is sent: nothing, or the header block of the state at the moment of one of the
calls, the first that emits anything, and behind it parts of one kind. -/
def ResponseShape (http : AdHttp) (out : Bytes) (cs : List ResponseCall) : Prop :=
  responseEmissions http out cs = [] ∨
    ∃ pre c post parts, cs = pre ++ c :: post ∧ responseEmissions http out pre = [] ∧
      responseEmissions http out cs =
        .header (c.announced (runResponse http out pre).1) :: parts ∧
      ∀ p ∈ parts, p.IsBody (runResponse http out cs).1.response.contentlength

/-- From a state that is not frozen: the header block is written exactly if the state is frozen at
the end. -/
theorem responseShape_of_open {http : AdHttp} (hf : http.response.frozenHeader = false)
    (out : Bytes) (cs : List ResponseCall) :
    ((runResponse http out cs).1.response.frozenHeader = false ↔
        responseEmissions http out cs = []) ∧ ResponseShape http out cs := by
  unfold ResponseShape
  induction cs generalizing http out with
  | nil => exact ⟨iff_of_true hf rfl, Or.inl rfl⟩
  | cons c cs ih =>
    rw [responseEmissions, runResponse_cons]
    rcases c.opens out hf with ⟨hems, hopen⟩ | ⟨parts, hems, hfrozen, hlen, hparts⟩
    · -- the call has not written the header block
      obtain ⟨hiff, hshape⟩ := ih hopen (c.run http out).2
      rw [hems, List.nil_append]
      refine ⟨hiff, hshape.imp_right ?_⟩
      rintro ⟨pre, c', post, parts, rfl, hpre, hall, hparts⟩
      refine ⟨c :: pre, c', post, parts, rfl, ?_, hall, hparts⟩
      rw [responseEmissions, hems, hpre]
      rfl
    · have hrest := responseEmissions_continues hfrozen (c.run http out).2 cs
      rw [hems]
      refine ⟨iff_of_false ?_ (by simp), Or.inr ⟨[], c, cs, _, rfl, rfl, rfl, ?_⟩⟩
      · rw [hrest.1]
        decide
      · rw [hrest.2.1]
        exact List.forall_mem_append.2 ⟨hparts, hrest.2.2⟩

/-- The response to one request, for every sequence of calls: what is appended to the out buffer has the
shape of a response, and once a sequence of calls has appended anything, the header is refused any
change, and the content length stays what it is.  The header block is the status line, a line for each
entry of the header table, and an empty line. -/
theorem responseShape (request : HttpRequest) (out : Bytes) (cs : List ResponseCall) :
    let http : AdHttp := ⟨request, freshHttp.response⟩
    (runResponse http out cs).2 =
        out ++ (responseEmissions http out cs).flatMap Emission.render ∧
      ResponseShape http out cs ∧
      (∀ pre post, cs = pre ++ post → responseEmissions http out pre ≠ [] →
        Refuses (runResponse http out pre).1 ∧
          (runResponse http out cs).1.response.contentlength =
            (runResponse http out pre).1.response.contentlength) ∧
      ∀ h parts, responseEmissions http out cs = .header h :: parts →
        (runResponse http out cs).2 =
          out ++
            (h.request.httpver.getD (bytes "(null)") ++ bytes " " ++ decimalInt h.response.code ++
              bytes " " ++ h.response.reason.getD (adHttpGetReason h.response.code) ++
              bytes "\r\n") ++
            h.response.headers.entries.flatMap
              (fun e => e.1 ++ bytes ": " ++ e.2 ++ bytes "\r\n") ++
            bytes "\r\n" ++
            parts.flatMap fun
              | .header _ => []
              | .data block => block
              | .chunk block size =>
                if size > 0 then
                  decimal size ++ bytes "\r\n" ++ (block.getD []).take size ++ bytes "\r\n"
                else bytes "0\r\n\r\n" := by
  intro http
  have hopen : http.response.frozenHeader = false := rfl
  have hshape := (responseShape_of_open hopen out cs).2
  refine ⟨runResponse_out http out cs, hshape, ?_, ?_⟩
  · rintro pre post rfl hpre
    have hfrozen : (runResponse http out pre).1.response.frozenHeader = true := by
      by_contra h
      exact hpre ((responseShape_of_open hopen out pre).1.1 (by simpa using h))
    refine ⟨refuses_of_frozen hfrozen, ?_⟩
    rw [runResponse_append]
    exact (responseEmissions_continues hfrozen (runResponse http out pre).2 post).2.1
  · intro h parts hems
    have hbody : ∀ p ∈ parts, p.IsBody (runResponse http out cs).1.response.contentlength := by
      rcases hshape with hnil | ⟨pre, c, post, parts', -, -, hall, hparts⟩
      · simp [hnil] at hems
      · obtain ⟨-, rfl⟩ := List.cons.inj (hems.symm.trans hall)
        exact hparts
    rw [runResponse_out, hems, List.flatMap_cons, ← List.append_assoc]
    refine congrArg₂ (· ++ ·) ?_ (List.flatMap_congr fun p hp => ?_)
    · simp [Emission.render, headerBlock, headerLine, httpCrlf]
    · cases p with
      | header http' => exact (hbody _ hp).elim
      | data block => rfl
      | chunk block size => rfl

end Asyncd
