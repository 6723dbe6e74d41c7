import Asyncd.Http.Phases

/-!
# Request heads

A request head is a request line, header lines and the empty line, as bytes.  `headPhase_wire` says
what the parser makes of one that it accepts, and `exists_head` that it reads nothing else.
-/

open CString ByteLines

namespace Asyncd

/-- The lines of a request before its body. -/
structure RequestHead where
  line : Line
  headers : List Line
  blank : Line
  headers_ne : ∀ l ∈ headers, cstr l.text ≠ []
  blank_eq : cstr blank.text = []

namespace RequestHead

/-- The bytes of the head. -/
def wire (h : RequestHead) : Bytes := h.line.wire ++ (wireLines h.headers ++ h.blank.wire)

section

variable [UrlDecoder] (h : RequestHead)

/-- `parse_requestline` accepts the request line. -/
def Accepted : Prop :=
  (parseRequestline freshHttp (cstr h.line.text)).1 = .requestlineDone

/-- The state that the request line makes. -/
def lineState : AdHttp :=
  (parseRequestline freshHttp (cstr h.line.text)).2.setStatus .requestlineDone

/-- The state that the head makes. -/
def state : AdHttp := (endHeaders (addHeaders h.lineState h.headers)).setStatus .headerDone

/-- The head says that the body comes in chunks. -/
def Chunked : Prop :=
  h.state.request.contentlength < 0 ∧
    h.state.request.headers.getstr transferEncoding = some chunked

end

end RequestHead

section

variable [UrlDecoder]

theorem RequestHead.state_status (h : RequestHead) : h.state.request.status = .headerDone := rfl

/-- The parser on a head that it accepts, whatever follows. -/
theorem headPhase_wire {h : RequestHead} (ha : h.Accepted) (r : Bytes) :
    headPhase freshHttp (h.wire ++ r) = (h.state, r) := by
  have hreq : requestPhase freshHttp (h.wire ++ r) =
      (h.lineState, wireLines h.headers ++ h.blank.wire ++ r) := by
    have := requestPhase_line freshHttp rfl h.line.lf_not_mem h.line.isEol
      (wireLines h.headers ++ h.blank.wire ++ r)
    rw [show (parseRequestline freshHttp (cstr h.line.text)).1 = .requestlineDone from ha] at this
    apply Eq.trans _ this
    simp only [RequestHead.wire, Line.wire, List.append_assoc]
  have hhead := parseHeaders_wire h.headers_ne h.blank_eq h.lineState r
  have hst : h.lineState.request.status = .requestlineDone := rfl
  simp only [headPhase, Push.seq, hreq, headerPhase, hst, if_true, hhead]
  rfl

theorem exists_head {s : Bytes} (hd : (headPhase freshHttp s).1.request.status = .headerDone) :
    ∃ h : RequestHead, h.Accepted ∧ s = h.wire ++ (headPhase freshHttp s).2 := by
  cases hr : evbufferReadln s with
  | none =>
    rw [headPhase, Push.seq, requestPhase_none (evbufferReadln_eq_none_iff.1 hr)] at hd
    simp [headerPhase, freshHttp] at hd
  | some q =>
    obtain ⟨eol, rfl, ht, he⟩ := evbufferReadln_spec hr
    have hreq := requestPhase_line freshHttp rfl ht he q.2
    have hphase : headPhase freshHttp (q.1 ++ eol ++ q.2) =
        headerPhase ((parseRequestline freshHttp (cstr q.1)).2.setStatus
          (parseRequestline freshHttp (cstr q.1)).1) q.2 := by
      rw [headPhase, Push.seq, hreq]
    rcases parseRequestline_status freshHttp (cstr q.1) with e | e
    · rw [hphase, e] at hd
      simp [headerPhase] at hd
    · rw [hphase, headerPhase, if_pos (by simpa using e)] at hd ⊢
      obtain ⟨ls, blank, hls, hb, hq⟩ := parseHeaders_lines (by simpa using e) hd
      refine ⟨⟨⟨q.1, eol, ht, he⟩, ls, blank, hls, hb⟩, e, ?_⟩
      simpa only [RequestHead.wire, Line.wire, List.append_assoc] using congrArg (q.1 ++ eol ++ ·) hq

end

end Asyncd
