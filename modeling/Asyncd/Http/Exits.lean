import Asyncd.Http.Phases

/-!
# What the parser returns

`http_parser` returns `AD_OK` for a request that is done, `AD_CLOSE` for one that is refused and
`AD_TAKEOVER` for one that is incomplete, unless it is called without a complete request line
(`parserLaw_iff`).  The method of the request is known exactly from the request line on
(`MethodKnown`).
-/

open CString ByteLines

namespace Asyncd

/-! ## Return values -/

/-- A call of the parser can get past `AD_HTTP_REQ_INIT`: it has, or there is a line to read. -/
def HasLine (http : AdHttp) (inb : Bytes) : Prop := http.request.status = .init → lf ∈ inb

instance (http : AdHttp) (inb : Bytes) : Decidable (HasLine http inb) :=
  inferInstanceAs (Decidable (_ → _))

theorem exitOf_ok (st : ReqStatus) : exitOf st = .ret adOk ↔ st = .done := by
  cases st <;> decide

theorem exitOf_close (st : ReqStatus) : exitOf st = .ret adClose ↔ st = .error := by
  cases st <;> decide

theorem exitOf_takeover (st : ReqStatus) :
    exitOf st = .ret adTakeover ↔ st = .init ∨ st = .requestlineDone ∨ st = .headerDone := by
  cases st <;> decide

theorem exitOf_ret (st : ReqStatus) :
    exitOf st = .ret adOk ∨ exitOf st = .ret adClose ∨ exitOf st = .ret adTakeover := by
  cases st <;> decide

section

variable [UrlDecoder]

/-- The return value tells whether the request is done, refused or incomplete. -/
structure ParserLaw (http : AdHttp) (inb : Bytes) : Prop where
  ok : (httpParser http inb).1 = .ret adOk ↔ (httpParser http inb).2.1.request.status = .done
  close : (httpParser http inb).1 = .ret adClose ↔ (httpParser http inb).2.1.request.status = .error
  takeover : (httpParser http inb).1 = .ret adTakeover ↔
    (httpParser http inb).2.1.request.status = .init ∨
      (httpParser http inb).2.1.request.status = .requestlineDone ∨
      (httpParser http inb).2.1.request.status = .headerDone

theorem httpParser_of_hasLine {http : AdHttp} {inb : Bytes} (h : HasLine http inb) :
    (httpParser http inb).1 = exitOf (httpParser http inb).2.1.request.status := by
  rw [httpParser_eq, if_neg fun hn => hn.2 (h hn.1)]

/-- Without a complete request line nothing happens. -/
theorem httpParser_of_not_hasLine {http : AdHttp} {inb : Bytes} (h : ¬HasLine http inb) :
    httpParser http inb = (.ret adOk, http, inb) := by
  obtain ⟨hst, hlf⟩ := Classical.not_imp.1 h
  rw [httpParser, if_pos hst, evbufferReadln_eq_none_iff.2 hlf, hst]
  rfl

theorem httpParser_of_done {http : AdHttp} (h : http.request.status = .done) (inb : Bytes) :
    httpParser http inb = (.ret adOk, http, inb) := by
  simp [httpParser, httpParserHeaders, httpParserBody, httpParserEnd, h]

/-- The parser returns a status of a hook, and `BUG_EXIT` is never reached. -/
theorem httpParser_ret (http : AdHttp) (inb : Bytes) :
    (httpParser http inb).1 = .ret adOk ∨ (httpParser http inb).1 = .ret adClose ∨
      (httpParser http inb).1 = .ret adTakeover := by
  by_cases h : HasLine http inb
  · rw [httpParser_of_hasLine h]
    exact exitOf_ret _
  · rw [httpParser_of_not_hasLine h]
    exact Or.inl rfl

theorem parserLaw_iff (http : AdHttp) (inb : Bytes) : ParserLaw http inb ↔ HasLine http inb := by
  constructor
  · intro h
    by_contra hn
    have hok := h.ok
    rw [httpParser_of_not_hasLine hn] at hok
    exact absurd (hok.1 rfl) (by rw [(Classical.not_imp.1 hn).1]; decide)
  · intro h
    have hexit := httpParser_of_hasLine h
    refine ⟨?_, ?_, ?_⟩
    · rw [hexit, exitOf_ok]
    · rw [hexit, exitOf_close]
    · rw [hexit, exitOf_takeover]

end

/-! ## The method -/

/-- The method of a request is set by the request line, which is the first thing read. -/
structure MethodKnown (http : AdHttp) : Prop where
  unset : http.request.status = .init → http.request.method = none
  set : http.request.status ≠ .init → http.request.status ≠ .error → http.request.method.isSome

theorem methodKnown_fresh : MethodKnown freshHttp := ⟨fun _ => rfl, fun h => absurd rfl h⟩

theorem parseHeaders_method (http : AdHttp) (inb : Bytes) :
    (parseHeaders http inb).2.1.request.method = http.request.method := by
  rcases parseHeaders_frame http inb with ⟨_, _, e⟩
  rw [e]

theorem parseBody_method {http : AdHttp} (hst : http.request.status = .headerDone) (inb : Bytes) :
    (parseBody http inb).2.1.request.method = http.request.method := by
  rcases parseBody_frame hst inb with ⟨_, _, e⟩
  rw [e]

theorem headerPhase_method (http : AdHttp) (inb : Bytes) :
    (headerPhase http inb).1.request.method = http.request.method := by
  unfold headerPhase
  split_ifs
  · exact parseHeaders_method http inb
  · rfl

theorem bodyPhase_method (http : AdHttp) (inb : Bytes) :
    (bodyPhase http inb).1.request.method = http.request.method := by
  unfold bodyPhase
  split_ifs with hst
  · exact parseBody_method hst inb
  · rfl

theorem headerPhase_known {http : AdHttp} (h : MethodKnown http) (inb : Bytes) :
    MethodKnown (headerPhase http inb).1 := by
  by_cases hst : http.request.status = .requestlineDone
  · have hset : (headerPhase http inb).1.request.method.isSome := by
      rw [headerPhase_method]
      exact h.set (by rw [hst]; decide) (by rw [hst]; decide)
    refine ⟨fun h0 => ?_, fun _ _ => hset⟩
    obtain e | e := headerPhase_status http inb
    · exact absurd (e.symm.trans h0) (by decide)
    · exact absurd (hst.symm.trans (e.symm.trans h0)) (by decide)
  · simpa [headerPhase, hst] using h

theorem bodyPhase_known {http : AdHttp} (h : MethodKnown http) (inb : Bytes) :
    MethodKnown (bodyPhase http inb).1 := by
  by_cases hst : http.request.status = .headerDone
  · have hset : (bodyPhase http inb).1.request.method.isSome := by
      rw [bodyPhase_method]
      exact h.set (by rw [hst]; decide) (by rw [hst]; decide)
    have hne := (bodyPhase_follows.keep http inb ⟨by rw [hst]; decide, by rw [hst]; decide⟩).1
    exact ⟨fun h0 => absurd h0 hne, fun _ _ => hset⟩
  · simpa [bodyPhase, hst] using h

section

variable [UrlDecoder]

theorem requestPhase_known {http : AdHttp} (h : MethodKnown http) (inb : Bytes) :
    MethodKnown (requestPhase http inb).1 := by
  by_cases hst : http.request.status = .init
  swap
  · rw [requestPhase, if_neg hst]
    exact h
  cases hr : evbufferReadln inb with
  | none => simpa [requestPhase, hst, hr] using h
  | some q =>
    simp only [requestPhase, hst, hr, if_true]
    obtain ⟨st, l, -, hline, hl⟩ := parseRequestline_spec http (cstr q.1)
    have h₀ := hl http.request.inbuf
    rw [AdHttp.setInbuf_self] at h₀
    rw [h₀]
    obtain rfl | ⟨rfl, hcomplete⟩ := hline
    · exact ⟨fun h => by simp at h, fun _ h => absurd rfl h⟩
    · exact ⟨fun h => by simp at h, fun _ _ => hcomplete.1⟩

theorem httpParser_known {http : AdHttp} (h : MethodKnown http) (inb : Bytes) :
    MethodKnown (httpParser http inb).2.1 := by
  rw [httpParser_eq]
  exact bodyPhase_known (headerPhase_known (requestPhase_known h inb) _) _

theorem httpParser_method {http : AdHttp} (hst : http.request.status ≠ .init) (inb : Bytes) :
    (httpParser http inb).2.1.request.method = http.request.method := by
  have hreq : requestPhase http inb = (http, inb) := requestPhase_stops.idle http inb hst
  rw [httpParser_eq]
  simp only [parserPhases, headPhase, Push.seq, hreq, bodyPhase_method, headerPhase_method]

end

end Asyncd
