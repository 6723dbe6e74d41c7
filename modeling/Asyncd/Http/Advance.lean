import Asyncd.Http.Exits

/-!
# The request advances

A request goes from `init` through `requestlineDone` and `headerDone` to `done`, or to `error`
(`ReqStatus.Forward`), and what it has read so far stays: the strings of the request line from
`requestlineDone` on, the header table and the content length from `headerDone` on (`Advance`).  This
holds along every run of calls of `http_parser`, in between of which the hooks may read from the body
and write the response (`runActs_advance`).
-/

open CString ByteLines

namespace Asyncd

/-- The order of the statuses: `done` and `error` are left no more. -/
def ReqStatus.Forward (st st' : ReqStatus) : Prop := st.toInt ≤ st'.toInt ∧ (st = .done → st' = .done)

instance (st st' : ReqStatus) : Decidable (st.Forward st') := inferInstanceAs (Decidable (_ ∧ _))

theorem ReqStatus.Forward.refl (st : ReqStatus) : st.Forward st := ⟨le_rfl, id⟩

theorem ReqStatus.Forward.trans {st st' st'' : ReqStatus} (h : st.Forward st')
    (h' : st'.Forward st'') : st.Forward st'' := ⟨h.1.trans h'.1, fun e => h'.2 (h.2 e)⟩

theorem ReqStatus.Forward.init_of {st : ReqStatus} (h : st.Forward .init) : st = .init := by
  revert h
  cases st <;> decide

theorem ReqStatus.Forward.head_of {st : ReqStatus} (h : st.Forward .requestlineDone) :
    st = .init ∨ st = .requestlineDone := by
  revert h
  cases st <;> decide

/-- The five strings of the request line are the same. -/
structure SameLine (http http' : AdHttp) : Prop where
  method : http'.request.method = http.request.method
  uri : http'.request.uri = http.request.uri
  httpver : http'.request.httpver = http.request.httpver
  path : http'.request.path = http.request.path
  query : http'.request.query = http.request.query

/-- The header section is the same. -/
structure SameHeaders (http http' : AdHttp) : Prop where
  headers : http'.request.headers = http.request.headers
  contentlength : http'.request.contentlength = http.request.contentlength

/-- The five strings of the request line are set, and the version is one of the three. -/
structure LineSet (http : AdHttp) : Prop where
  method : http.request.method.isSome
  uri : http.request.uri.isSome
  path : http.request.path.isSome
  query : http.request.query.isSome
  httpver : http.request.httpver = some httpProtocol09 ∨ http.request.httpver = some httpProtocol10 ∨
    http.request.httpver = some httpProtocol11

/-- What may become of a request. -/
structure Advance (http http' : AdHttp) : Prop where
  forward : http.request.status.Forward http'.request.status
  line : LineDone http → SameLine http http'
  headers : HeadDone http → SameHeaders http http'

theorem SameLine.refl (http : AdHttp) : SameLine http http := ⟨rfl, rfl, rfl, rfl, rfl⟩

theorem SameLine.trans {http http' http'' : AdHttp} (h : SameLine http http')
    (h' : SameLine http' http'') : SameLine http http'' where
  method := h'.method.trans h.method
  uri := h'.uri.trans h.uri
  httpver := h'.httpver.trans h.httpver
  path := h'.path.trans h.path
  query := h'.query.trans h.query

theorem SameLine.lineSet {http http' : AdHttp} (h : SameLine http http') (hs : LineSet http) :
    LineSet http' where
  method := by rw [h.method]; exact hs.method
  uri := by rw [h.uri]; exact hs.uri
  path := by rw [h.path]; exact hs.path
  query := by rw [h.query]; exact hs.query
  httpver := by rw [h.httpver]; exact hs.httpver

theorem SameHeaders.refl (http : AdHttp) : SameHeaders http http := ⟨rfl, rfl⟩

theorem SameHeaders.trans {http http' http'' : AdHttp} (h : SameHeaders http http')
    (h' : SameHeaders http' http'') : SameHeaders http http'' :=
  ⟨h'.headers.trans h.headers, h'.contentlength.trans h.contentlength⟩

theorem Advance.refl (http : AdHttp) : Advance http http :=
  ⟨.refl _, fun _ => .refl http, fun _ => .refl http⟩

theorem Advance.lineDone {http http' : AdHttp} (h : Advance http http') (hl : LineDone http) :
    LineDone http' := fun e => hl (e ▸ h.forward).init_of

theorem Advance.headDone {http http' : AdHttp} (h : Advance http http') (hd : HeadDone http) :
    HeadDone http' := by
  refine ⟨h.lineDone hd.1, fun e => ?_⟩
  rcases (e ▸ h.forward).head_of with e' | e'
  · exact hd.1 e'
  · exact hd.2 e'

theorem Advance.trans {http http' http'' : AdHttp} (h : Advance http http')
    (h' : Advance http' http'') : Advance http http'' where
  forward := h.forward.trans h'.forward
  line hl := (h.line hl).trans (h'.line (h.lineDone hl))
  headers hd := (h.headers hd).trans (h'.headers (h.headDone hd))

/-- The strings of the request line are set where the status says so. -/
def LineKnown (http : AdHttp) : Prop :=
  LineDone http → http.request.status ≠ .error → LineSet http

theorem lineKnown_fresh : LineKnown freshHttp := fun h => absurd rfl h

theorem LineKnown.advance {http http' : AdHttp} (h : LineKnown http) (ha : Advance http http')
    (hl : LineDone http) : LineKnown http' := by
  intro _ he
  refine (ha.line hl).lineSet (h hl fun e => he ?_)
  have hle := ha.forward.1
  rw [e] at hle
  revert hle
  cases http'.request.status <;> decide

/-! ## The phases -/

theorem headerPhase_advance (http : AdHttp) (inb : Bytes) : Advance http (headerPhase http inb).1 := by
  by_cases hst : http.request.status = .requestlineDone
  · have hline : SameLine http (headerPhase http inb).1 := by
      rcases parseHeaders_frame http inb with ⟨h, c, e⟩
      rw [headerPhase, if_pos hst, e]
      exact ⟨rfl, rfl, rfl, rfl, rfl⟩
    refine ⟨?_, fun _ => hline, fun hd => absurd hst hd.2⟩
    rcases headerPhase_status http inb with e | e <;> rw [e, hst] <;> decide
  · rw [headerPhase, if_neg hst]
    exact .refl http

theorem bodyPhase_advance (http : AdHttp) (inb : Bytes) : Advance http (bodyPhase http inb).1 := by
  by_cases hst : http.request.status = .headerDone
  · rcases parseBody_frame hst inb with ⟨b, n, e⟩
    have hbody : (bodyPhase http inb).1 = AdHttp.setStatus
        { http with request := { http.request with inbuf := b, bodyin := n } }
        (parseBody http inb).1 := by rw [bodyPhase, if_pos hst, e]
    rw [hbody]
    refine ⟨?_, fun _ => ⟨rfl, rfl, rfl, rfl, rfl⟩, fun _ => ⟨rfl, rfl⟩⟩
    rw [AdHttp.setStatus_status, hst]
    rcases parseBody_status hst inb with e | e | e <;> rw [e] <;> decide
  · rw [bodyPhase, if_neg hst]
    exact .refl http

section

variable [UrlDecoder]

/-- What the request line phase leads to: nothing, an error, or a request line that is set. -/
theorem requestPhase_cases (http : AdHttp) (inb : Bytes) :
    requestPhase http inb = (http, inb) ∨
      http.request.status = .init ∧ ((requestPhase http inb).1.request.status = .error ∨
        (requestPhase http inb).1.request.status = .requestlineDone ∧
          LineSet (requestPhase http inb).1) := by
  by_cases hst : http.request.status = .init
  swap
  · exact Or.inl (requestPhase_stops.idle http inb hst)
  cases hr : evbufferReadln inb with
  | none => exact Or.inl (requestPhase_none (evbufferReadln_eq_none_iff.1 hr))
  | some q =>
    refine Or.inr ⟨hst, ?_⟩
    simp only [requestPhase, hst, hr, if_true]
    rcases parseRequestline_spec http (cstr q.1) with ⟨st, l, -, hline, hl⟩
    have h₀ := hl http.request.inbuf
    rw [AdHttp.setInbuf_self] at h₀
    rw [h₀]
    rcases hline with rfl | ⟨rfl, hm, hu, hp, hq, hv⟩
    · exact Or.inl rfl
    · exact Or.inr ⟨rfl, hm, hu, hp, hq, hv⟩

theorem requestPhase_advance (http : AdHttp) (inb : Bytes) :
    Advance http (requestPhase http inb).1 := by
  rcases requestPhase_cases http inb with e | ⟨hst, h⟩
  · rw [e]
    exact .refl http
  · refine ⟨?_, fun hl => absurd hst hl, fun hd => absurd hst hd.1⟩
    rcases h with e | ⟨e, -⟩ <;> rw [e, hst] <;> decide

theorem httpParser_advance (http : AdHttp) (inb : Bytes) :
    Advance http (httpParser http inb).2.1 := by
  rw [httpParser_eq]
  exact ((requestPhase_advance http inb).trans (headerPhase_advance _ _)).trans (bodyPhase_advance _ _)

/-! ## Runs -/

/-- What may happen to the state of a request: a call of the parser on any input, or a hook that takes
from the body and works on the response. -/
inductive HttpAct
  | parse (inb : Bytes)
  | hook (inbuf : Bytes) (response : HttpResponse)

def HttpAct.run (http : AdHttp) : HttpAct → AdHttp
  | parse inb => (httpParser http inb).2.1
  | hook inbuf response => { http.setInbuf inbuf with response := response }

def runActs (http : AdHttp) (acts : List HttpAct) : AdHttp := acts.foldl HttpAct.run http

theorem HttpAct.run_advance (http : AdHttp) (act : HttpAct) : Advance http (act.run http) := by
  cases act with
  | parse inb => exact httpParser_advance http inb
  | hook inbuf response => exact ⟨.refl _, fun _ => ⟨rfl, rfl, rfl, rfl, rfl⟩, fun _ => ⟨rfl, rfl⟩⟩

theorem runActs_advance (http : AdHttp) (acts : List HttpAct) : Advance http (runActs http acts) := by
  induction acts generalizing http with
  | nil => exact .refl http
  | cons act acts ih => exact (act.run_advance http).trans (ih _)

theorem httpParser_lineKnown {http : AdHttp} (h : LineKnown http) (inb : Bytes) :
    LineKnown (httpParser http inb).2.1 := by
  have hrest : Advance (requestPhase http inb).1 (httpParser http inb).2.1 := by
    rw [httpParser_eq]
    exact (headerPhase_advance _ _).trans (bodyPhase_advance _ _)
  by_cases hl : LineDone http
  · exact h.advance (httpParser_advance http inb) hl
  rcases requestPhase_cases http inb with e | ⟨-, e | ⟨e, hset⟩⟩
  · -- no line: the later phases have nothing to do in the status `init`
    have hst : http.request.status = .init := not_not.1 hl
    have hall : (httpParser http inb).2.1 = http := by
      simp only [httpParser_eq, parserPhases, headPhase, Push.seq, e, headerPhase, bodyPhase, hst,
        reduceCtorEq, if_false]
    rw [hall]
    exact h
  · exact LineKnown.advance (fun _ hne => absurd e hne) hrest (by rw [LineDone, e]; decide)
  · exact LineKnown.advance (fun _ _ => hset) hrest (by rw [LineDone, e]; decide)

theorem runActs_lineKnown {http : AdHttp} (h : LineKnown http) (acts : List HttpAct) :
    LineKnown (runActs http acts) := by
  induction acts generalizing http with
  | nil => exact h
  | cons act acts ih =>
    apply ih
    cases act with
    | parse inb => exact httpParser_lineKnown h inb
    | hook inbuf response =>
      intro hl he
      have hset := h hl he
      exact ⟨hset.method, hset.uri, hset.path, hset.query, hset.httpver⟩

theorem httpParser_absorbed {http : AdHttp}
    (h : http.request.status = .done ∨ http.request.status = .error) (inb : Bytes) :
    (httpParser http inb).2 = (http, inb) := by
  have hl : LineDone http := by
    rcases h with e | e <;> rw [LineDone, e] <;> decide
  simp only [httpParser_eq, parserPhases, headPhase, Push.seq, requestPhase_stops.idle http inb hl]
  rcases h with e | e <;> simp [headerPhase, bodyPhase, e]

/-- In every state that a request can reach, along every run from there: the status goes forward, the
request line and the header section stay once they are read, `done` and `error` are final and leave the
input alone, the strings of the request line are set, and the parser does not get to `BUG_EXIT`. -/
theorem request_advances (acts acts' : List HttpAct) (inb : Bytes) :
    Advance (runActs freshHttp acts) (runActs (runActs freshHttp acts) acts') ∧
      LineKnown (runActs freshHttp acts) ∧
      ((runActs freshHttp acts).request.status = .done ∨
          (runActs freshHttp acts).request.status = .error →
        (httpParser (runActs freshHttp acts) inb).2 = (runActs freshHttp acts, inb)) ∧
      (httpParser (runActs freshHttp acts) inb).1 ≠ .bugExit := by
  refine ⟨runActs_advance _ _, runActs_lineKnown lineKnown_fresh acts,
    fun h => httpParser_absorbed h inb, fun h => ?_⟩
  rcases httpParser_ret (runActs freshHttp acts) inb with e | e | e <;> rw [e] at h <;> cases h

end

/-! ## The parser and the response -/

theorem headerPhase_response (http : AdHttp) (inb : Bytes) :
    (headerPhase http inb).1.response = http.response := by
  unfold headerPhase
  split_ifs
  · rcases parseHeaders_frame http inb with ⟨_, _, e⟩
    rw [e]
    rfl
  · rfl

theorem bodyPhase_response (http : AdHttp) (inb : Bytes) :
    (bodyPhase http inb).1.response = http.response := by
  unfold bodyPhase
  split_ifs with hst
  · rcases parseBody_frame hst inb with ⟨_, _, e⟩
    rw [e]
    rfl
  · rfl

theorem requestPhase_response [UrlDecoder] (http : AdHttp) (inb : Bytes) :
    (requestPhase http inb).1.response = http.response := by
  unfold requestPhase
  split_ifs
  · cases evbufferReadln inb with
    | none => rfl
    | some p =>
      rcases parseRequestline_spec http (cstr p.1) with ⟨st, l, -, -, hl⟩
      have hline := hl http.request.inbuf
      rw [AdHttp.setInbuf_self] at hline
      simp only [hline]
      rfl
  · rfl

theorem httpParser_response [UrlDecoder] (http : AdHttp) (inb : Bytes) :
    (httpParser http inb).2.1.response = http.response := by
  rw [httpParser_eq]
  simp only [parserPhases, headPhase, Push.seq, bodyPhase_response, headerPhase_response,
    requestPhase_response]

/-- `ad_http_get_content` takes from the body, and nothing else. -/
theorem httpGetContent_setInbuf (alloc : Bool) (http : AdHttp) (maxsize : ℕ) :
    ∃ b, (httpGetContent alloc http maxsize).2 = http.setInbuf b := by
  unfold httpGetContent
  dsimp only
  split_ifs <;> exact ⟨_, rfl⟩

theorem httpGetContent_response (alloc : Bool) (http : AdHttp) (maxsize : ℕ) :
    (httpGetContent alloc http maxsize).2.response = http.response := by
  obtain ⟨b, hb⟩ := httpGetContent_setInbuf alloc http maxsize
  rw [hb]
  rfl

end Asyncd
