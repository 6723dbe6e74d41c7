import Asyncd.Http.Chunks
import Asyncd.Lib.Push

/-!
# The parser as a sequence of consumers

`http_parser` is the request line phase, then the header phase, then the body phase; each acts in one
status only.  The first two are consumers that stop (`headPhase_stops`): where their input is cut makes
no difference, and they read a fixed part of it.  `httpParser_eq` says what a call of
`http_parser` does and what it returns.
-/

open CString ByteLines

namespace Asyncd

/-- The status is past the request line and the headers. -/
def HeadDone (http : AdHttp) : Prop :=
  http.request.status ≠ .init ∧ http.request.status ≠ .requestlineDone

/-- The request line has been read. -/
def LineDone (http : AdHttp) : Prop := http.request.status ≠ .init

/-! ## The phases -/

section

variable [UrlDecoder]

/-- The part of `http_parser` for `AD_HTTP_REQ_INIT`. -/
def requestPhase : Push.Consumer AdHttp UInt8 := fun http inb =>
  if http.request.status = .init then
    match evbufferReadln inb with
    | none => (http, inb)
    | some (line, inb) =>
      ((parseRequestline http (cstr line)).2.setStatus (parseRequestline http (cstr line)).1, inb)
  else (http, inb)

end

/-- The part of `http_parser` for `AD_HTTP_REQ_REQUESTLINE_DONE`. -/
def headerPhase : Push.Consumer AdHttp UInt8 := fun http inb =>
  if http.request.status = .requestlineDone then
    ((parseHeaders http inb).2.1.setStatus (parseHeaders http inb).1, (parseHeaders http inb).2.2)
  else (http, inb)

/-- The part of `http_parser` for `AD_HTTP_REQ_HEADER_DONE`. -/
def bodyPhase : Push.Consumer AdHttp UInt8 := fun http inb =>
  if http.request.status = .headerDone then
    ((parseBody http inb).2.1.setStatus (parseBody http inb).1, (parseBody http inb).2.2)
  else (http, inb)

/-! ## Headers -/

section

variable {http : AdHttp} {inb raw rest : Bytes}

theorem parseHeaders_blank (http : AdHttp) (h : evbufferReadln inb = some (raw, rest))
    (hblank : cstr raw = []) : parseHeaders http inb = (.headerDone, endHeaders http, rest) :=
  Loop.exec_inr _ (by simp only [headerStep, h, hblank, if_true])

theorem parseHeaders_line (http : AdHttp) (h : evbufferReadln inb = some (raw, rest))
    (hline : cstr raw ≠ []) : parseHeaders http inb = parseHeaders (addHeader http (cstr raw)) rest :=
  Loop.exec_inl _ (by simp only [headerStep, h, hline, if_false])

end

/-- Induction on the rounds of the header loop. -/
theorem parseHeaders_induct {R : AdHttp → Bytes → ReqStatus × AdHttp × Bytes → Prop}
    (wait : ∀ http inb, evbufferReadln inb = none → R http inb (http.request.status, http, inb))
    (blank : ∀ http inb raw rest, evbufferReadln inb = some (raw, rest) → cstr raw = [] →
      R http inb (.headerDone, endHeaders http, rest))
    (line : ∀ http inb raw rest r, evbufferReadln inb = some (raw, rest) → cstr raw ≠ [] →
      R (addHeader http (cstr raw)) rest r → R http inb r)
    (http : AdHttp) (inb : Bytes) : R http inb (parseHeaders http inb) := by
  refine Loop.exec_induct headerStep_decreasing (R := fun s r => R s.1 s.2 r) ?_ ?_ (http, inb)
  · rintro ⟨http, inb⟩ r hr
    cases h : evbufferReadln inb with
    | none =>
      simp only [headerStep, h, Sum.inr.injEq] at hr
      exact hr ▸ wait http inb h
    | some p =>
      simp only [headerStep, h] at hr
      split_ifs at hr with hblank
      exact Sum.inr.inj hr ▸ blank http inb p.1 p.2 h hblank
  · rintro ⟨http, inb⟩ s' hr ih
    cases h : evbufferReadln inb with
    | none => simp [headerStep, h] at hr
    | some p =>
      simp only [headerStep, h] at hr
      split_ifs at hr with hblank
      obtain rfl := Sum.inl.inj hr
      exact line http inb p.1 p.2 _ h hblank ih

theorem parseHeaders_frame (http : AdHttp) (inb : Bytes) :
    ∃ h c, (parseHeaders http inb).2.1 =
      { http with request := { http.request with headers := h, contentlength := c } } := by
  refine parseHeaders_induct
    (R := fun http _ r => ∃ h c, r.2.1 =
      { http with request := { http.request with headers := h, contentlength := c } })
    ?_ ?_ ?_ http inb
  · exact fun _ _ _ => ⟨_, _, rfl⟩
  · exact fun _ _ _ _ _ _ => ⟨_, _, rfl⟩
  · rintro http inb raw rest r - - ⟨h, c, e⟩
    exact ⟨h, c, e⟩

/-- The lines that `parse_headers` puts into the table. -/
def addHeaders (http : AdHttp) (ls : List Line) : AdHttp :=
  ls.foldl (fun http l => addHeader http (cstr l.text)) http

/-- A header section: lines that are not empty, then an empty line. -/
theorem parseHeaders_wire {ls : List Line} (hls : ∀ l ∈ ls, cstr l.text ≠ []) {blank : Line}
    (hb : cstr blank.text = []) (http : AdHttp) (rest : Bytes) :
    parseHeaders http (wireLines ls ++ blank.wire ++ rest) =
      (.headerDone, endHeaders (addHeaders http ls), rest) := by
  induction ls generalizing http with
  | nil =>
    rw [wireLines_nil, List.nil_append]
    exact parseHeaders_blank http (evbufferReadln_wire blank rest) hb
  | cons l ls ih =>
    obtain ⟨hl, hls⟩ := List.forall_mem_cons.1 hls
    rw [wireLines_cons, List.append_assoc, List.append_assoc,
      parseHeaders_line http (evbufferReadln_wire l _) hl, ← List.append_assoc]
    exact ih hls (addHeader http (cstr l.text))

theorem parseHeaders_end (http : AdHttp) (inb : Bytes) :
    (parseHeaders http inb).1 = .headerDone ∨
      ((parseHeaders http inb).1 = http.request.status ∧
        (parseHeaders http inb).2.1.request.status = http.request.status ∧
        lf ∉ (parseHeaders http inb).2.2) := by
  refine parseHeaders_induct
    (R := fun http _ r => r.1 = .headerDone ∨ r.1 = http.request.status ∧
      r.2.1.request.status = http.request.status ∧ lf ∉ r.2.2) ?_ ?_ ?_ http inb
  · exact fun http inb h => Or.inr ⟨rfl, rfl, evbufferReadln_eq_none_iff.1 h⟩
  · exact fun http inb raw rest _ _ => Or.inl rfl
  · exact fun http inb raw rest r _ _ ih => ih

/-- Bytes put behind a header section: the loop goes on where it had to stop, or leaves them. -/
theorem parseHeaders_append {http : AdHttp} (hst : http.request.status = .requestlineDone)
    (inb x : Bytes) :
    parseHeaders http (inb ++ x) =
      if (parseHeaders http inb).1 = .headerDone then
        (.headerDone, (parseHeaders http inb).2.1, (parseHeaders http inb).2.2 ++ x)
      else parseHeaders (parseHeaders http inb).2.1 ((parseHeaders http inb).2.2 ++ x) := by
  refine parseHeaders_induct
    (R := fun http inb r => http.request.status = .requestlineDone → parseHeaders http (inb ++ x) =
      if r.1 = .headerDone then (.headerDone, r.2.1, r.2.2 ++ x)
      else parseHeaders r.2.1 (r.2.2 ++ x)) ?_ ?_ ?_ http inb hst
  · intro http inb _ hst
    simp [hst]
  · intro http inb raw rest h hblank _
    exact parseHeaders_blank http (evbufferReadln_append h x) hblank
  · intro http inb raw rest r h hline ih hst
    rw [parseHeaders_line http (evbufferReadln_append h x) hline]
    exact ih hst

theorem parseHeaders_lines {http : AdHttp} (hst : http.request.status = .requestlineDone)
    {inb : Bytes} (hd : (parseHeaders http inb).1 = .headerDone) :
    ∃ (ls : List Line) (blank : Line), (∀ l ∈ ls, cstr l.text ≠ []) ∧ cstr blank.text = [] ∧
      inb = wireLines ls ++ blank.wire ++ (parseHeaders http inb).2.2 := by
  refine parseHeaders_induct
    (R := fun http inb r => http.request.status = .requestlineDone → r.1 = .headerDone →
      ∃ (ls : List Line) (blank : Line), (∀ l ∈ ls, cstr l.text ≠ []) ∧ cstr blank.text = [] ∧
        inb = wireLines ls ++ blank.wire ++ r.2.2)
    ?_ ?_ ?_ http inb hst hd
  · intro http inb _ hst hd
    exact absurd (hst.symm.trans hd) (by decide)
  · intro http inb raw rest hread hblank _ _
    obtain ⟨eol, rfl, ht, he⟩ := evbufferReadln_spec hread
    exact ⟨[], ⟨raw, eol, ht, he⟩, by simp, hblank, rfl⟩
  · intro http inb raw rest r hread hline ih hst hd
    obtain ⟨eol, rfl, ht, he⟩ := evbufferReadln_spec hread
    obtain ⟨ls, blank, hls, hb, h⟩ := ih hst hd
    refine ⟨⟨raw, eol, ht, he⟩ :: ls, blank, List.forall_mem_cons.2 ⟨hline, hls⟩, hb, ?_⟩
    simpa only [wireLines_cons, Line.wire, List.append_assoc] using congrArg (raw ++ eol ++ ·) h

theorem parseHeaders_head {http : AdHttp} (hst : http.request.status = .requestlineDone)
    (inb : Bytes) (hd : (parseHeaders http inb).1 = .headerDone) :
    ∃ h, inb = h ++ (parseHeaders http inb).2.2 ∧
      ∀ r, parseHeaders http (h ++ r) = (.headerDone, (parseHeaders http inb).2.1, r) := by
  obtain ⟨ls, blank, hls, hb, h⟩ := parseHeaders_lines hst hd
  refine ⟨wireLines ls ++ blank.wire, h, fun r => ?_⟩
  rw [h, parseHeaders_wire hls hb, parseHeaders_wire hls hb]

/-! ## The phases stop -/

theorem headerPhase_status (http : AdHttp) (inb : Bytes) :
    (headerPhase http inb).1.request.status = .headerDone ∨
      (headerPhase http inb).1.request.status = http.request.status := by
  unfold headerPhase
  split_ifs with h
  · rcases parseHeaders_end http inb with he | ⟨he, -, -⟩
    · exact Or.inl he
    · exact Or.inr he
  · exact Or.inr rfl

theorem headerPhase_follows : Push.Follows headerPhase LineDone where
  wait http inb h := by
    have : http.request.status = .init := not_not.1 h
    simp [headerPhase, this]
  keep http inb h := by
    unfold LineDone at h ⊢
    rcases headerPhase_status http inb with e | e <;> rw [e]
    · decide
    · exact h

theorem headerPhase_stops : Push.Stops headerPhase HeadDone where
  idle http inb h := by simp [headerPhase, h.2]
  cut http p x := by
    by_cases hst : http.request.status = .requestlineDone
    · unfold Push.CutAt Push.feed headerPhase
      rcases parseHeaders_end http p with he | ⟨he, hs, -⟩
      · simp [hst, he, parseHeaders_append hst p x]
      · rw [hst] at he hs
        -- the loop had stopped for want of a line, in the status it started from
        have hself : (parseHeaders http p).2.1.setStatus .requestlineDone =
            (parseHeaders http p).2.1 := by rw [← hs]; rfl
        simp [hst, he, hs, hself, parseHeaders_append hst p x]
    · simp [Push.CutAt, Push.feed, headerPhase, hst]
  head http inb h := by
    by_cases hst : http.request.status = .requestlineDone
    · have hd : (parseHeaders http inb).1 = .headerDone := by
        rcases parseHeaders_end http inb with he | ⟨he, -, -⟩
        · exact he
        · exact absurd (show (headerPhase http inb).1.request.status = .requestlineDone by
            simp [headerPhase, hst, he]) h.2
      obtain ⟨hd', e, k⟩ := parseHeaders_head hst inb hd
      refine ⟨hd', by simpa [headerPhase, hst] using e, fun r => ?_⟩
      simp [headerPhase, hst, k r, hd]
    · exact ⟨[], by simp [headerPhase, hst], fun r => by simp [headerPhase, hst]⟩

theorem headerPhase_nil (http : AdHttp) : headerPhase http [] = (http, []) := by
  by_cases hst : http.request.status = .requestlineDone
  · have hend : parseHeaders http [] = (http.request.status, http, []) :=
      Loop.exec_inr _ (by simp [headerStep, evbufferReadln, splitLine])
    rw [headerPhase, if_pos hst, hend]
    rfl
  · rw [headerPhase, if_neg hst]

/-- Any segmentation of what arrives is one call of the header loop. -/
theorem feedAll_headerPhase (http : AdHttp) (segs : List Bytes) :
    Push.feedAll headerPhase (http, []) segs = headerPhase http segs.flatten := by
  have hcuts : Push.CutsAlong headerPhase http segs.flatten :=
    fun p x _ => headerPhase_stops.cut http p x
  exact hcuts.feedAll_eq (headerPhase_nil http) segs (List.prefix_refl _)

section

variable [UrlDecoder]

theorem parseRequestline_status (http : AdHttp) (line : Bytes) :
    (parseRequestline http line).1 = .error ∨ (parseRequestline http line).1 = .requestlineDone := by
  obtain ⟨st, l, -, hst, h⟩ := parseRequestline_spec http line
  have h₀ := h http.request.inbuf
  rw [AdHttp.setInbuf_self] at h₀
  rw [h₀]
  exact hst.imp_right And.left

theorem requestPhase_none {http : AdHttp} {inb : Bytes} (h : lf ∉ inb) :
    requestPhase http inb = (http, inb) := by
  unfold requestPhase
  rw [evbufferReadln_eq_none_iff.2 h]
  split_ifs <;> rfl

theorem requestPhase_line (http : AdHttp) {raw eol : Bytes} (hst : http.request.status = .init)
    (ht : lf ∉ raw) (he : IsEol raw eol) (r : Bytes) :
    requestPhase http (raw ++ eol ++ r) =
      ((parseRequestline http (cstr raw)).2.setStatus (parseRequestline http (cstr raw)).1, r) := by
  simp only [requestPhase, hst, if_true, evbufferReadln_line ht he]

theorem requestPhase_stops : Push.Stops requestPhase LineDone where
  idle http inb h := by simp [requestPhase, show http.request.status ≠ .init from h]
  cut http p x := by
    by_cases hst : http.request.status = .init
    · unfold Push.CutAt Push.feed requestPhase
      cases hr : evbufferReadln p with
      | none => simp [hst]
      | some q =>
        have : (parseRequestline http (cstr q.1)).1 ≠ .init := by
          rcases parseRequestline_status http (cstr q.1) with e | e <;> rw [e] <;> decide
        simp [hst, evbufferReadln_append hr x, this]
    · simp [Push.CutAt, Push.feed, requestPhase, hst]
  head http inb h := by
    by_cases hst : http.request.status = .init
    · cases hr : evbufferReadln inb with
      | none =>
        simp only [LineDone, requestPhase, hst, hr, if_true] at h
        exact absurd rfl h
      | some q =>
        obtain ⟨eol, rfl, ht, he⟩ := evbufferReadln_spec hr
        refine ⟨q.1 ++ eol, ?_, fun r => ?_⟩
        · rw [requestPhase_line http hst ht he]
        · rw [requestPhase_line http hst ht he, requestPhase_line http hst ht he]
    · exact ⟨[], by simp [requestPhase, hst], fun r => by simp [requestPhase, hst]⟩

/-- The request line and the headers. -/
def headPhase : Push.Consumer AdHttp UInt8 := Push.seq requestPhase headerPhase

theorem headPhase_stops : Push.Stops headPhase HeadDone :=
  requestPhase_stops.seq headerPhase_follows headerPhase_stops fun _ h => h.1

end

/-! ## The body phase follows -/

/-- Body bytes arrive at the request. -/
def AdHttp.addBody (http : AdHttp) (data : Bytes) : AdHttp :=
  { http with
    request.inbuf := http.request.inbuf ++ data
    request.bodyin := http.request.bodyin + data.length }

/-- How much of a body of given length is still to come. -/
def AdHttp.bodyLeft (http : AdHttp) : ℕ :=
  (http.request.contentlength - http.request.bodyin).toNat

theorem parseBody_length {http : AdHttp} (hpos : 0 < http.request.contentlength) (inb : Bytes) :
    parseBody http inb =
      (if http.request.contentlength =
          (http.addBody (inb.take http.bodyLeft)).request.bodyin then .done
        else http.request.status, http.addBody (inb.take http.bodyLeft), inb.drop http.bodyLeft) := by
  unfold parseBody AdHttp.bodyLeft
  rw [if_neg hpos.ne', if_pos hpos]
  -- without anything to read, adding the empty list changes nothing
  have hnil : http.addBody [] = http := by simp [AdHttp.addBody]
  by_cases hgt : http.request.contentlength > http.request.bodyin
  · have hm : (http.request.contentlength - http.request.bodyin).toNat > 0 := by omega
    by_cases hinb : inb.length > 0
    · simp only [hgt, hm, hinb, and_self, if_true, httpAddInbuf_fst, httpAddInbuf_eq,
        AdHttp.addBody, AdHttp.setInbuf, List.length_take]
      split_ifs <;> rfl
    · obtain rfl : inb = [] := List.eq_nil_of_length_eq_zero (by omega)
      simp only [hgt, List.length_nil, gt_iff_lt, lt_irrefl, and_false, if_true, if_false,
        List.take_nil, List.drop_nil, hnil]
      split_ifs <;> rfl
  · have hm : (http.request.contentlength - http.request.bodyin).toNat = 0 := by omega
    simp only [hgt, if_false, hm, List.take_zero, List.drop_zero, hnil]
    split_ifs <;> rfl

theorem parseBody_status {http : AdHttp} (hst : http.request.status = .headerDone) (inb : Bytes) :
    (parseBody http inb).1 = .done ∨ (parseBody http inb).1 = .error ∨
      (parseBody http inb).1 = .headerDone := by
  rcases lt_trichotomy http.request.contentlength 0 with hneg | hz | hpos
  · unfold parseBody
    rw [if_neg hneg.ne, if_neg hneg.not_gt, chunkLoop_eq http inb hst]
    split_ifs
    · cases (readChunks http.request.inbuf inb).1 <;> simp [BodyEnd.status]
    · exact Or.inl rfl
  · exact Or.inl (by simp only [parseBody, hz, if_true])
  · rw [parseBody_length hpos]
    dsimp only
    split_ifs
    · exact Or.inl rfl
    · exact Or.inr (Or.inr hst)

theorem parseBody_frame {http : AdHttp} (hst : http.request.status = .headerDone) (inb : Bytes) :
    ∃ b n, (parseBody http inb).2.1 =
      { http with request := { http.request with inbuf := b, bodyin := n } } := by
  rcases lt_trichotomy http.request.contentlength 0 with hneg | hz | hpos
  · unfold parseBody
    rw [if_neg hneg.ne, if_neg hneg.not_gt, chunkLoop_eq http inb hst]
    split_ifs <;> exact ⟨_, _, rfl⟩
  · exact ⟨_, _, by rw [parseBody, if_pos hz]⟩
  · rw [parseBody_length hpos]
    exact ⟨_, _, rfl⟩

theorem bodyPhase_follows : Push.Follows bodyPhase HeadDone where
  wait http inb h := by
    have : http.request.status ≠ .headerDone := fun e => h (by simp [HeadDone, e])
    simp [bodyPhase, this]
  keep http inb h := by
    unfold bodyPhase
    split_ifs with hst
    · rcases parseBody_status hst inb with e | e | e <;> simp [HeadDone, e]
    · exact h

/-! ## The whole parser -/

/-- What `http_parser` returns when it has got past the request line. -/
def exitOf : ReqStatus → ParserExit
  | .done => .ret adOk
  | .error => .ret adClose
  | _ => .ret adTakeover

theorem httpParserBody_eq {http : AdHttp} (hd : HeadDone http) (inb : Bytes) :
    httpParserBody http inb =
      (exitOf (bodyPhase http inb).1.request.status, bodyPhase http inb) := by
  unfold httpParserBody bodyPhase
  by_cases hst : http.request.status = .headerDone
  · simp only [hst, if_true, AdHttp.setStatus_status]
    rcases parseBody_status hst inb with e | e | e <;> simp [e, httpParserEnd, exitOf]
  · simp only [hst, if_false, httpParserEnd]
    obtain ⟨h0, h1⟩ := hd
    cases h : http.request.status <;> simp_all [exitOf]

theorem httpParserHeaders_eq {http : AdHttp} (hd : LineDone http) (inb : Bytes) :
    httpParserHeaders http inb =
      (exitOf (Push.seq headerPhase bodyPhase http inb).1.request.status,
        Push.seq headerPhase bodyPhase http inb) := by
  by_cases hst : http.request.status = .requestlineDone
  · simp only [httpParserHeaders, Push.seq, headerPhase, hst, if_true, AdHttp.setStatus_status]
    rcases parseHeaders_end http inb with he | ⟨he, hs, -⟩
    · simp only [he, reduceCtorEq, if_false]
      exact httpParserBody_eq (by simp [HeadDone]) _
    · simp [he, hst, bodyPhase, exitOf]
  · simp only [httpParserHeaders, Push.seq, headerPhase, hst, if_false]
    exact httpParserBody_eq ⟨hd, hst⟩ inb

section

variable [UrlDecoder]

/-- The whole parser on the state and the input buffer. -/
def parserPhases : Push.Consumer AdHttp UInt8 := Push.seq headPhase bodyPhase

/-- A call of `http_parser`: without a request line it only returns the status as it is, and
otherwise the return value follows the new status.  The assertion behind `BUG_EXIT` holds. -/
theorem httpParser_eq (http : AdHttp) (inb : Bytes) :
    httpParser http inb =
      (if http.request.status = .init ∧ lf ∉ inb then .ret adOk
        else exitOf (parserPhases http inb).1.request.status, parserPhases http inb) := by
  have hseq : parserPhases http inb =
      Push.seq headerPhase bodyPhase (requestPhase http inb).1 (requestPhase http inb).2 := rfl
  by_cases hst : http.request.status = .init
  · cases hr : evbufferReadln inb with
    | none =>
      have hlf := evbufferReadln_eq_none_iff.1 hr
      simp [httpParser, hst, hr, hlf, hseq, requestPhase, Push.seq, headerPhase, bodyPhase,
        ReqStatus.toInt, adOk]
    | some q =>
      have hlf : lf ∈ inb := by
        by_contra hn
        rw [evbufferReadln_eq_none_iff.2 hn] at hr
        cases hr
      have hne : (parseRequestline http (cstr q.1)).1 ≠ .init := by
        rcases parseRequestline_status http (cstr q.1) with e | e <;> rw [e] <;> decide
      have hreq : requestPhase http inb = ((parseRequestline http (cstr q.1)).2.setStatus
          (parseRequestline http (cstr q.1)).1, q.2) := by simp [requestPhase, hst, hr]
      simp only [httpParser, hst, hr, if_true, AdHttp.setStatus_status, hne, if_false, hlf,
        not_true, and_false, hseq, hreq]
      exact httpParserHeaders_eq (by simpa [LineDone] using hne) q.2
  · have hreq : requestPhase http inb = (http, inb) := by simp [requestPhase, hst]
    simp only [httpParser, hst, if_false, false_and, hseq, hreq]
    exact httpParserHeaders_eq hst inb

end

end Asyncd
