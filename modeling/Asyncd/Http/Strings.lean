import Asyncd.Http.Advance
import Asyncd.Http.Freeze
import Asyncd.Lib.Cells

/-!
# The strings of a request

`struct ad_http_s` owns six strings: the parser duplicates the five of the request line,
`ad_http_set_response_code` the reason, and `http_free` frees them all.  A request line is parsed once, so
of the strings only reasons are lost: of those that are set on one request, all but the last
(`strings_accounted`).  Duplicating a string is taken to succeed.
-/

open CString Cells

namespace Asyncd

/-! ## Allocating and freeing -/

/-- The strings that `struct ad_http_s` points to, by their cells. -/
structure HttpStrings where
  method : Option ℕ := none
  uri : Option ℕ := none
  httpver : Option ℕ := none
  path : Option ℕ := none
  query : Option ℕ := none
  reason : Option ℕ := none

/-- The pointers in the order of `http_free`. -/
def HttpStrings.slots (s : HttpStrings) : List (Option ℕ) :=
  [s.method, s.uri, s.httpver, s.path, s.query, s.reason]

/-- The strings that `parse_requestline` duplicates. -/
def parseRequestlineStrings (line : Bytes) (s : HttpStrings) (m : Memory) : HttpStrings × Memory :=
  match requestTokens line with
  | none => (s, m)
  | some (_, uri, httpver) =>
    let (p, m) := m.assign s.method
    let s := { s with method := p }
    let (p, m) := m.assign s.httpver
    let s := { s with httpver := p }
    let httpver := qstrupper httpver
    if httpver ≠ httpProtocol09 ∧ httpver ≠ httpProtocol10 ∧ httpver ≠ httpProtocol11 then (s, m)
    else
      match divideUri uri with
      | none => (s, m)
      | some _ =>
        let (p, m) := m.assign s.uri
        let s := { s with uri := p }
        let (p, m) := m.assign s.path
        let s := { s with path := p }
        let (p, m) := m.assign s.query
        ({ s with query := p }, m)

/-- Those that `http_parser` duplicates. -/
def httpParserStrings (http : AdHttp) (inb : Bytes) (s : HttpStrings) (m : Memory) :
    HttpStrings × Memory :=
  if http.request.status = .init then
    match evbufferReadln inb with
    | none => (s, m)
    | some (line, _) => parseRequestlineStrings (cstr line) s m
  else (s, m)

/-- The reason that `ad_http_set_response_code` duplicates. -/
def adHttpSetResponseCodeStrings (http : AdHttp) (reason : Option Bytes) (s : HttpStrings)
    (m : Memory) : HttpStrings × Memory :=
  if http.response.frozenHeader then (s, m)
  else if reason.isSome then
    let (p, m) := m.assign s.reason
    ({ s with reason := p }, m)
  else (s, m)

/-- What a response call duplicates. -/
def ResponseCall.strings (http : AdHttp) (s : HttpStrings) (m : Memory) :
    ResponseCall → HttpStrings × Memory
  | .setCode _ reason => adHttpSetResponseCodeStrings http reason s m
  | .response code _ _ _ => adHttpSetResponseCodeStrings http (some (adHttpGetReason code)) s m
  | .setHeader _ _ | .setContent _ _ | .sendHeader | .sendData _ _ | .sendChunk _ _ => (s, m)

/-- `http_free`, as far as the strings go. -/
def httpFree (s : HttpStrings) (m : Memory) : Memory :=
  let m := m.free s.method
  let m := m.free s.uri
  let m := m.free s.httpver
  let m := m.free s.path
  let m := m.free s.query
  m.free s.reason

theorem httpFree_eq (s : HttpStrings) (m : Memory) : httpFree s m = m.freeAll s.slots := rfl

/-! ## The parser -/

/-- Nothing of a request line has been stored. -/
structure HttpStrings.Unset (s : HttpStrings) : Prop where
  method : s.method = none
  uri : s.uri = none
  httpver : s.httpver = none
  path : s.path = none
  query : s.query = none

/-- The pointers are set where there are strings. -/
structure HttpStrings.Matches (s : HttpStrings) (http : AdHttp) : Prop where
  method : s.method.isSome = http.request.method.isSome
  uri : s.uri.isSome = http.request.uri.isSome
  httpver : s.httpver.isSome = http.request.httpver.isSome
  path : s.path.isSome = http.request.path.isSome
  query : s.query.isSome = http.request.query.isSome
  reason : s.reason.isSome = http.response.reason.isSome

theorem HttpStrings.Matches.sameLine {s : HttpStrings} {http http' : AdHttp} (h : s.Matches http)
    (hl : SameLine http http') (hr : http'.response.reason = http.response.reason) :
    s.Matches http' where
  method := by rw [h.method, hl.method]
  uri := by rw [h.uri, hl.uri]
  httpver := by rw [h.httpver, hl.httpver]
  path := by rw [h.path, hl.path]
  query := by rw [h.query, hl.query]
  reason := by rw [h.reason, hr]

section

variable [UrlDecoder] {http : AdHttp} {s : HttpStrings} {m : Memory}

/-- A request line is stored where nothing was stored, so nothing is lost. -/
theorem parseRequestlineStrings_spec (hm : m.Owns s.slots) (hs : s.Matches http) (hu : s.Unset)
    (line : Bytes) :
    let r := parseRequestlineStrings line s m
    r.2.Owns r.1.slots ∧ r.1.Matches (parseRequestline http line).2 ∧ r.2.lost = m.lost ∧
      r.1.reason = s.reason := by
  unfold parseRequestlineStrings parseRequestline
  cases requestTokens line with
  | none => exact ⟨hm, hs, rfl, rfl⟩
  | some t =>
    obtain ⟨method, uri, httpver⟩ := t
    have hmethod := Memory.Owns.assign (a := []) hm
    have hhttpver := Memory.Owns.assign (a := [_, s.uri]) hmethod
    have hlost : ((m.assign s.method).2.assign s.httpver).2.lost = m.lost := by
      simp [Memory.assign, hu.method, hu.httpver]
    dsimp only
    split_ifs with hver
    · exact ⟨hhttpver, ⟨rfl, hs.uri, rfl, hs.path, hs.query, hs.reason⟩, hlost, rfl⟩
    cases divideUri uri with
    | none => exact ⟨hhttpver, ⟨rfl, hs.uri, rfl, hs.path, hs.query, hs.reason⟩, hlost, rfl⟩
    | some target =>
      obtain ⟨host, uri⟩ := target
      have huri := Memory.Owns.assign (a := [_]) hhttpver
      have hpath := Memory.Owns.assign (a := [_, _, _]) huri
      have hquery := Memory.Owns.assign (a := [_, _, _, _]) hpath
      refine ⟨hquery, ?_, ?_, rfl⟩
      · -- neither a Host entry nor the path matters
        cases host <;> dsimp only <;> split_ifs <;> constructor <;>
          simp [Memory.assign, AdHttp.putHeader, hs.reason]
      · rw [← hlost]
        simp [Memory.assign, hu.uri, hu.path, hu.query]

/-- What holds of the strings of a request at any time. -/
structure Held (http : AdHttp) (s : HttpStrings) (m : Memory) : Prop where
  owns : m.Owns s.slots
  strings : s.Matches http
  unset : http.request.status = .init → s.Unset
  last : s.reason = none → m.lost = []

/-- The parser stores the strings of a request line when it reads one, and none later. -/
theorem httpParserStrings_spec (h : Held http s m) (inb : Bytes) :
    let r := httpParserStrings http inb s m
    Held (httpParser http inb).2.1 r.1 r.2 ∧ r.2.lost = m.lost ∧ r.1.reason = s.reason := by
  have hresponse : (httpParser http inb).2.1.response.reason = http.response.reason := by
    rw [httpParser_response]
  by_cases hst : http.request.status = .init
  · cases hline : evbufferReadln inb with
    | none =>
      have hparser : (httpParser http inb).2.1 = http := by simp [httpParser, hst, hline]
      have hstrings : httpParserStrings http inb s m = (s, m) := by
        simp [httpParserStrings, hst, hline]
      rw [hstrings, hparser]
      exact ⟨h, rfl, rfl⟩
    | some q =>
      have hphase : (requestPhase http inb).1 =
          (parseRequestline http (cstr q.1)).2.setStatus (parseRequestline http (cstr q.1)).1 := by
        simp only [requestPhase, hst, if_true, hline]
      have hdone : LineDone (requestPhase http inb).1 := by
        rw [hphase, LineDone, AdHttp.setStatus_status]
        rcases parseRequestline_status http (cstr q.1) with e | e <;> rw [e] <;> decide
      have hrest : Advance (requestPhase http inb).1 (httpParser http inb).2.1 := by
        rw [httpParser_eq]
        exact (headerPhase_advance _ _).trans (bodyPhase_advance _ _)
      obtain ⟨howns, hmatches, hlost, hreason⟩ :=
        parseRequestlineStrings_spec h.owns h.strings (h.unset hst) (cstr q.1)
      simp only [httpParserStrings, hst, if_true, hline]
      refine ⟨⟨howns, ?_, fun e => absurd e (hrest.lineDone hdone), ?_⟩, hlost, hreason⟩
      swap
      · rw [hlost, hreason]
        exact h.last
      have hphase' : (parseRequestlineStrings (cstr q.1) s m).1.Matches (requestPhase http inb).1 := by
        rw [hphase]
        exact hmatches.sameLine ⟨rfl, rfl, rfl, rfl, rfl⟩ rfl
      apply hphase'.sameLine (hrest.line hdone)
      rw [hresponse, requestPhase_response]
  · have hadvance := httpParser_advance http inb
    rw [show httpParserStrings http inb s m = (s, m) from if_neg hst]
    exact ⟨⟨h.owns, h.strings.sameLine (hadvance.line hst) hresponse,
      fun e => absurd e (hadvance.lineDone hst), h.last⟩, rfl, rfl⟩

end

/-! ## The response -/

theorem setResponseHeader_reason (http : AdHttp) (name : Bytes) (value : Option Bytes) :
    (adHttpSetResponseHeader http name value).2.response.reason = http.response.reason := by
  unfold adHttpSetResponseHeader
  split_ifs
  · rfl
  · cases value <;> rfl

theorem setResponseContent_reason (http : AdHttp) (contenttype : Option Bytes) (size : ℤ) :
    (adHttpSetResponseContent http contenttype size).2.response.reason = http.response.reason := by
  unfold adHttpSetResponseContent
  split_ifs
  · rfl
  · exact (setResponseHeader_reason _ _ _).trans (setResponseHeader_reason _ _ _)
  · exact (setResponseHeader_reason _ _ _).trans (setResponseHeader_reason _ _ _)

theorem setResponseCode_reason {http : AdHttp} (hf : http.response.frozenHeader = false) (code : ℤ)
    (reason : Bytes) :
    (adHttpSetResponseCode http code (some reason)).2.response.reason = some reason := by
  rw [adHttpSetResponseCode, hf]
  rfl

theorem prepareResponse_reason {http : AdHttp} (hf : http.response.frozenHeader = false) (code : ℤ)
    (contenttype : Option Bytes) (size : ℤ) :
    (prepareResponse http code contenttype size).response.reason = some (adHttpGetReason code) := by
  unfold prepareResponse
  dsimp only
  rw [setResponseContent_reason]
  apply setResponseCode_reason
  split_ifs
  · rw [(sameBody_setHeader _ _ _).frozen, hf]
  · rw [(sameBody_setHeader _ _ _).frozen, hf]
  · exact hf

theorem sendHeader_reason (http : AdHttp) (out : Bytes) :
    (adHttpSendHeader http out).2.1.response.reason = http.response.reason := by
  rw [sendHeader_emits]
  rfl

theorem sendData_reason (http : AdHttp) (out : Bytes) (data : Option Bytes) (size : ℕ) :
    (adHttpSendData http out data size).2.1.response.reason = http.response.reason := by
  rw [sendData_emits]
  dsimp only
  split_ifs <;> rfl

theorem sendChunk_reason (http : AdHttp) (out : Bytes) (data : Option Bytes) (size : ℕ) :
    (adHttpSendChunk http out data size).2.1.response.reason = http.response.reason := by
  rw [sendChunk_emits]
  dsimp only
  split_ifs <;> rfl

/-- The call duplicates a reason. -/
def ResponseCall.CopiesReason (http : AdHttp) : ResponseCall → Prop
  | .setCode _ reason => http.response.frozenHeader = false ∧ reason.isSome
  | .response _ _ _ _ => http.response.frozenHeader = false
  | .setHeader _ _ | .setContent _ _ | .sendHeader | .sendData _ _ | .sendChunk _ _ => False

instance (http : AdHttp) : (c : ResponseCall) → Decidable (c.CopiesReason http)
  | .setCode _ reason =>
    inferInstanceAs (Decidable (http.response.frozenHeader = false ∧ reason.isSome))
  | .response _ _ _ _ => inferInstanceAs (Decidable (http.response.frozenHeader = false))
  | .setHeader _ _ | .setContent _ _ | .sendHeader | .sendData _ _ | .sendChunk _ _ =>
    inferInstanceAs (Decidable False)

theorem ResponseCall.strings_eq (http : AdHttp) (s : HttpStrings) (m : Memory) (c : ResponseCall) :
    c.strings http s m = if c.CopiesReason http then
      ({ s with reason := (m.assign s.reason).1 }, (m.assign s.reason).2) else (s, m) := by
  cases c with
  | setCode code reason =>
    rw [ResponseCall.strings, adHttpSetResponseCodeStrings]
    cases hf : http.response.frozenHeader <;> cases reason <;>
      simp [ResponseCall.CopiesReason, hf]
  | response code contenttype data size =>
    rw [ResponseCall.strings, adHttpSetResponseCodeStrings]
    cases hf : http.response.frozenHeader <;> simp [ResponseCall.CopiesReason, hf]
  | setHeader name value => rfl
  | setContent contenttype size => rfl
  | sendHeader => rfl
  | sendData data size => rfl
  | sendChunk data size => rfl

theorem ResponseCall.run_reason (http : AdHttp) (out : Bytes) (c : ResponseCall) :
    (c.run http out).1.response.reason.isSome =
      (decide (c.CopiesReason http) || http.response.reason.isSome) := by
  cases c with
  | setCode code reason =>
    rw [ResponseCall.run, adHttpSetResponseCode]
    cases hf : http.response.frozenHeader <;> cases reason <;>
      simp [ResponseCall.CopiesReason, hf]
  | response code contenttype data size =>
    rw [ResponseCall.run, adHttpResponse]
    cases hf : http.response.frozenHeader with
    | true => simp [ResponseCall.CopiesReason, hf]
    | false =>
      rw [if_neg (by decide), sendData_reason, prepareResponse_reason hf]
      simp [ResponseCall.CopiesReason, hf]
  | setHeader name value => exact congrArg Option.isSome (setResponseHeader_reason http name value)
  | setContent contenttype size =>
    exact congrArg Option.isSome (setResponseContent_reason http contenttype size)
  | sendHeader => exact congrArg Option.isSome (sendHeader_reason http out)
  | sendData data size => exact congrArg Option.isSome (sendData_reason http out data size)
  | sendChunk data size => exact congrArg Option.isSome (sendChunk_reason http out data size)

/-- A response call keeps the strings in order, and loses the reason that it replaces. -/
theorem ResponseCall.strings_spec {http : AdHttp} {s : HttpStrings} {m : Memory} (h : Held http s m)
    (out : Bytes) (c : ResponseCall) :
    let r := c.strings http s m
    Held (c.run http out).1 r.1 r.2 ∧ r.1.reason.toList ++ r.2.lost =
      (if c.CopiesReason http then [m.next] else []) ++ (s.reason.toList ++ m.lost) := by
  have hrequest := c.run_request http out
  have hreason := c.run_reason http out
  have hunset : (c.run http out).1.request.status = .init → s.Unset := by
    rw [hrequest]
    exact h.unset
  have hmatches : ∀ reason, reason.isSome = (c.run http out).1.response.reason.isSome →
      ({ s with reason := reason } : HttpStrings).Matches (c.run http out).1 := by
    intro reason hr
    exact ⟨by rw [hrequest]; exact h.strings.method, by rw [hrequest]; exact h.strings.uri,
      by rw [hrequest]; exact h.strings.httpver, by rw [hrequest]; exact h.strings.path,
      by rw [hrequest]; exact h.strings.query, hr⟩
  intro r
  by_cases hc : c.CopiesReason http
  · have hr : r = ({ s with reason := (m.assign s.reason).1 }, (m.assign s.reason).2) :=
      (c.strings_eq http s m).trans (if_pos hc)
    rw [hr]
    refine ⟨⟨Memory.Owns.assign (a := [_, _, _, _, _]) h.owns, hmatches _ ?_, fun e => ?_,
      fun e => by cases e⟩, ?_⟩
    · rw [hreason, decide_eq_true hc]
      rfl
    · have hu := hunset e
      exact ⟨hu.method, hu.uri, hu.httpver, hu.path, hu.query⟩
    · rw [if_pos hc]
      rfl
  · have hr : r = (s, m) := (c.strings_eq http s m).trans (if_neg hc)
    rw [hr]
    refine ⟨⟨h.owns, hmatches _ ?_, hunset, h.last⟩, by rw [if_neg hc, List.nil_append]⟩
    rw [hreason, decide_eq_false hc, Bool.false_or, h.strings.reason]

/-! ## Runs -/

/-- What may happen to a request: bytes arrive and `http_parser` is called, the hooks take from the body,
or they respond. -/
inductive RequestEvent
  | parse (seg : Bytes)
  | getContent (alloc : Bool) (maxsize : ℕ)
  | respond (call : ResponseCall)

/-- The HTTP state, the buffers of the connection, and the memory. -/
structure RequestState where
  http : AdHttp
  inb : Bytes
  out : Bytes
  strings : HttpStrings
  memory : Memory

/-- One event. -/
def RequestState.step [UrlDecoder] (s : RequestState) : RequestEvent → RequestState
  | .parse seg =>
    let r := httpParser s.http (s.inb ++ seg)
    let p := httpParserStrings s.http (s.inb ++ seg) s.strings s.memory
    { s with http := r.2.1, inb := r.2.2, strings := p.1, memory := p.2 }
  | .getContent alloc maxsize => { s with http := (httpGetContent alloc s.http maxsize).2 }
  | .respond call =>
    let r := call.run s.http s.out
    let p := call.strings s.http s.strings s.memory
    { s with http := r.1, out := r.2, strings := p.1, memory := p.2 }

/-- What `http_new` starts from. -/
def RequestState.fresh (inb out : Bytes) : RequestState := ⟨freshHttp, inb, out, {}, {}⟩

/-- A run of events. -/
def RequestState.run [UrlDecoder] (s : RequestState) (events : List RequestEvent) : RequestState :=
  events.foldl RequestState.step s

/-- The event duplicates a reason. -/
def RequestEvent.CopiesReason (http : AdHttp) : RequestEvent → Prop
  | .respond call => call.CopiesReason http
  | .parse _ | .getContent _ _ => False

instance (http : AdHttp) : (e : RequestEvent) → Decidable (e.CopiesReason http)
  | .respond call => inferInstanceAs (Decidable (call.CopiesReason http))
  | .parse _ | .getContent _ _ => inferInstanceAs (Decidable False)

section

variable [UrlDecoder]

/-- How many reasons are set in a run: those that are given before the header block is sent. -/
def reasonsSet : RequestState → List RequestEvent → ℕ
  | _, [] => 0
  | s, e :: events => (if e.CopiesReason s.http then 1 else 0) + reasonsSet (s.step e) events

/-- The cells of the reasons that are set in a run, in this order. -/
def reasonCells : RequestState → List RequestEvent → List ℕ
  | _, [] => []
  | s, e :: events =>
    (if e.CopiesReason s.http then [s.memory.next] else []) ++ reasonCells (s.step e) events

theorem length_reasonCells (s : RequestState) (events : List RequestEvent) :
    (reasonCells s events).length = reasonsSet s events := by
  induction events generalizing s with
  | nil => rfl
  | cons e events ih =>
    rw [reasonCells, reasonsSet, List.length_append, ih]
    split_ifs <;> rfl

theorem step_held {s : RequestState} (h : Held s.http s.strings s.memory) (e : RequestEvent) :
    Held (s.step e).http (s.step e).strings (s.step e).memory ∧
      (s.step e).strings.reason.toList ++ (s.step e).memory.lost =
        (if e.CopiesReason s.http then [s.memory.next] else []) ++
          (s.strings.reason.toList ++ s.memory.lost) := by
  cases e with
  | parse seg =>
    obtain ⟨hheld, hlost, hreason⟩ := httpParserStrings_spec h (s.inb ++ seg)
    refine ⟨hheld, ?_⟩
    rw [RequestState.step]
    dsimp only
    rw [hlost, hreason]
    rfl
  | getContent alloc maxsize =>
    obtain ⟨b, hb⟩ := httpGetContent_setInbuf alloc s.http maxsize
    rw [RequestState.step]
    dsimp only
    rw [hb]
    exact ⟨⟨h.owns, h.strings.sameLine ⟨rfl, rfl, rfl, rfl, rfl⟩ rfl, h.unset, h.last⟩, rfl⟩
  | respond call => exact call.strings_spec h s.out

omit [UrlDecoder] in
theorem held_fresh (inb out : Bytes) :
    let s := RequestState.fresh inb out
    Held s.http s.strings s.memory where
  owns := Memory.owns_blank (by simp [RequestState.fresh, HttpStrings.slots])
  strings := ⟨rfl, rfl, rfl, rfl, rfl, rfl⟩
  unset _ := ⟨rfl, rfl, rfl, rfl, rfl⟩
  last _ := rfl

/-- The reason that is held and those that are lost, the last in front. -/
theorem run_held {s : RequestState} (h : Held s.http s.strings s.memory)
    (events : List RequestEvent) :
    Held (s.run events).http (s.run events).strings (s.run events).memory ∧
      (s.run events).strings.reason.toList ++ (s.run events).memory.lost =
        (reasonCells s events).reverse ++ (s.strings.reason.toList ++ s.memory.lost) := by
  induction events generalizing s with
  | nil => exact ⟨h, rfl⟩
  | cons e events ih =>
    obtain ⟨hstep, hlost⟩ := step_held h e
    obtain ⟨hrun, hrest⟩ := ih hstep
    refine ⟨hrun, hrest.trans ?_⟩
    rw [hlost, reasonCells, List.reverse_append, List.append_assoc]
    split_ifs <;> rfl

/-- However a request is read and answered, it has the strings that its state says.  When `http_free` has
released it, every string that was duplicated for it has been freed once or is lost, and not both; lost are
the reasons that were set, less the last of them. -/
theorem strings_accounted (inb out : Bytes) (events : List RequestEvent) :
    let s := (RequestState.fresh inb out).run events
    let m := httpFree s.strings s.memory
    s.strings.Matches s.http ∧ (∀ p, m.freed.count p + m.lost.count p = if p < m.next then 1 else 0) ∧
      m.lost = (reasonCells (RequestState.fresh inb out) events).dropLast.reverse ∧
      m.lost.length = reasonsSet (RequestState.fresh inb out) events - 1 := by
  intro s m
  obtain ⟨hheld, hrun⟩ := run_held (held_fresh inb out) events
  have hcells : s.strings.reason.toList ++ s.memory.lost =
      (reasonCells (RequestState.fresh inb out) events).reverse := hrun.trans (List.append_nil _)
  have hm : m = s.memory.freeAll s.strings.slots := httpFree_eq _ _
  have hlost : m.lost = (reasonCells (RequestState.fresh inb out) events).dropLast.reverse := by
    rw [hm, Memory.freeAll_lost, ← List.tail_reverse, ← hcells]
    cases hreason : s.strings.reason with
    | none =>
      have hnone : s.memory.lost = [] := hheld.last hreason
      rw [hnone]
      rfl
    | some p => rfl  -- the last reason has been held
  have honce : m.Owns [] := by
    rw [hm]
    exact hheld.owns.freeAll
  refine ⟨hheld.strings, honce.once, hlost, ?_⟩
  rw [hlost, List.length_reverse, List.length_dropLast, length_reasonCells]

/-- A reason of the user's that `ad_http_response` replaces is lost. -/
example : (((RequestState.fresh [] []).run [.respond (.setCode 404 (some (bytes "Gone"))),
    .respond (.response 404 none none 0)]).memory.lost) = [0] := rfl

end

end Asyncd
