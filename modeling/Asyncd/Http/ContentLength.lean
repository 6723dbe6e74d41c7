import Asyncd.Http.Fields
import Asyncd.Http.Segmentation

/-!
# Bodies of given length

A request with a `Content-Length` field is read as it is delimited: `contentLength_delimited` says, for
every point of a run in which segments arrive and the user takes body bytes out in between, what the
parser has done.
-/

open CString ByteLines

namespace Asyncd

/-! ## Body bytes that were taken out -/

/-- Put bytes in front of the body bytes in `request.inbuf`. -/
def AdHttp.prefixInbuf (g : Bytes) (http : AdHttp) : AdHttp :=
  http.setInbuf (g ++ http.request.inbuf)

section

variable (g : Bytes)

@[simp] theorem AdHttp.prefixInbuf_prefixInbuf (a b : Bytes) (http : AdHttp) :
    (http.prefixInbuf a).prefixInbuf b = http.prefixInbuf (b ++ a) := by
  simp [AdHttp.prefixInbuf]

theorem parseHeaders_prefixInbuf (http : AdHttp) (inb : Bytes) :
    parseHeaders (http.prefixInbuf g) inb =
      ((parseHeaders http inb).1, (parseHeaders http inb).2.1.prefixInbuf g,
        (parseHeaders http inb).2.2) := by
  refine Loop.exec_map headerStep_decreasing headerStep_decreasing
    (fun s : AdHttp × Bytes => (s.1.prefixInbuf g, s.2))
    (fun r : ReqStatus × AdHttp × Bytes => (r.1, r.2.1.prefixInbuf g, r.2.2)) ?_ (http, inb)
  rintro ⟨http, inb⟩
  simp only [headerStep]
  cases evbufferReadln inb with
  | none => rfl
  | some p => by_cases h : cstr p.1 = [] <;> simp only [h, if_true, if_false] <;> rfl

theorem headerPhase_prefixInbuf : Push.Commutes headerPhase (AdHttp.prefixInbuf g) := by
  intro http inb
  by_cases hst : http.request.status = .requestlineDone
  · have hst' : (http.prefixInbuf g).request.status = .requestlineDone := hst
    simp only [headerPhase, hst, hst', if_true, parseHeaders_prefixInbuf]
    rfl
  · have hst' : (http.prefixInbuf g).request.status ≠ .requestlineDone := hst
    simp only [headerPhase, hst, hst', if_false]

theorem bodyPhase_prefixInbuf : Push.Commutes bodyPhase (AdHttp.prefixInbuf g) := by
  intro http inb
  by_cases hst : http.request.status = .headerDone
  swap
  · have hst' : (http.prefixInbuf g).request.status ≠ .headerDone := hst
    simp only [bodyPhase, hst, hst', if_false]
  have hst' : (http.prefixInbuf g).request.status = .headerDone := hst
  rcases lt_trichotomy http.request.contentlength 0 with hneg | hz | hpos
  · by_cases hte : http.request.headers.getstr transferEncoding = some chunked
    · rw [bodyPhase_chunked http hst hneg hte, bodyPhase_chunked (http.prefixInbuf g) hst hneg hte,
        readChunks_acc, readChunks_acc http.request.inbuf]
      simp [chunkPhase, prepend, AdHttp.prefixInbuf, AdHttp.setInbuf, AdHttp.setStatus]
    · have hneg' : (http.prefixInbuf g).request.contentlength < 0 := hneg
      have hte' : (http.prefixInbuf g).request.headers.getstr transferEncoding ≠ some chunked := hte
      simp only [bodyPhase, hst, hst', if_true, parseBody, hneg.ne, hneg.not_gt, hneg'.ne,
        hneg'.not_gt, if_false, hte, hte']
      rfl
  · have hz' : (http.prefixInbuf g).request.contentlength = 0 := hz
    simp only [bodyPhase, hst, hst', if_true, parseBody, hz, hz']
    rfl
  · have hadd : ∀ a, (http.prefixInbuf g).addBody a = (http.addBody a).prefixInbuf g := fun a => by
      simp [AdHttp.addBody, AdHttp.prefixInbuf, AdHttp.setInbuf]
    rw [bodyPhase_length http hst hpos, bodyPhase_length (http.prefixInbuf g) hst hpos, hadd]
    rfl

variable [UrlDecoder]

theorem parseRequestline_inbuf (http : AdHttp) (line : Bytes) :
    (parseRequestline http line).2.request.inbuf = http.request.inbuf := by
  have h := parseRequestline_setInbuf http line http.request.inbuf
  rw [AdHttp.setInbuf_self] at h
  rw [h]
  rfl

theorem requestPhase_prefixInbuf : Push.Commutes requestPhase (AdHttp.prefixInbuf g) := by
  intro http inb
  by_cases hst : http.request.status = .init
  swap
  · have hst' : (http.prefixInbuf g).request.status ≠ .init := hst
    simp only [requestPhase, hst, hst', if_false]
  have hst' : (http.prefixInbuf g).request.status = .init := hst
  unfold requestPhase
  rw [if_pos hst, if_pos hst']
  cases evbufferReadln inb with
  | none => rfl
  | some p =>
    simp only [AdHttp.prefixInbuf, parseRequestline_setInbuf, AdHttp.setStatus_inbuf,
      parseRequestline_inbuf]
    rfl

/-- The parser does not look at the body bytes it has put into `request.inbuf`. -/
theorem httpStep_prefixInbuf : Push.Commutes httpStep (AdHttp.prefixInbuf g) := by
  rw [httpStep_eq]
  exact ((requestPhase_prefixInbuf g).seq (headerPhase_prefixInbuf g)).seq (bodyPhase_prefixInbuf g)

end

/-! ## Runs with calls of `ad_http_get_content` -/

/-- What happens to a request: a segment arrives and the parser is called, or the user takes body bytes
out. -/
inductive RequestCall
  | segment (seg : Bytes)
  | getContent (alloc : Bool) (maxsize : ℕ)

/-- The segments of a run. -/
def segments (calls : List RequestCall) : List Bytes :=
  calls.filterMap fun
    | .segment seg => some seg
    | .getContent _ _ => none

/-- The state of a request, the input buffer, and all blocks returned so far. -/
structure Reading where
  http : AdHttp
  inb : Bytes
  got : Bytes

theorem httpGetContent_spec (alloc : Bool) (http : AdHttp) (maxsize : ℕ) :
    (httpGetContent alloc http maxsize).2.prefixInbuf
      ((httpGetContent alloc http maxsize).1.getD []) = http := by
  unfold httpGetContent
  dsimp only
  split_ifs <;> simp [AdHttp.prefixInbuf, evbufferRemove]

/-! ## What the head leaves alone -/

theorem parseHeaders_body (http : AdHttp) (inb : Bytes) :
    (parseHeaders http inb).2.1.request.inbuf = http.request.inbuf ∧
      (parseHeaders http inb).2.1.request.bodyin = http.request.bodyin := by
  rcases parseHeaders_frame http inb with ⟨_, _, e⟩
  rw [e]
  exact ⟨rfl, rfl⟩

theorem headerPhase_body (http : AdHttp) (inb : Bytes) :
    (headerPhase http inb).1.request.inbuf = http.request.inbuf ∧
      (headerPhase http inb).1.request.bodyin = http.request.bodyin := by
  unfold headerPhase
  split_ifs
  · exact parseHeaders_body http inb
  · exact ⟨rfl, rfl⟩

section

variable [UrlDecoder]

/-- One call. -/
def Reading.call (s : Reading) : RequestCall → Reading
  | .segment seg =>
    { s with http := (httpStep s.http (s.inb ++ seg)).1, inb := (httpStep s.http (s.inb ++ seg)).2 }
  | .getContent alloc maxsize =>
    { s with
      http := (httpGetContent alloc s.http maxsize).2
      got := s.got ++ (httpGetContent alloc s.http maxsize).1.getD [] }

/-- A run from a fresh state. -/
def readRequest (calls : List RequestCall) : Reading :=
  calls.foldl Reading.call ⟨freshHttp, [], []⟩

/-- Taking body bytes out does not disturb the parser: with them put back, the run is one without such
calls. -/
theorem readRequest_eq (calls : List RequestCall) :
    ((readRequest calls).http.prefixInbuf (readRequest calls).got, (readRequest calls).inb) =
      Push.feedAll httpStep (freshHttp, []) (segments calls) := by
  induction calls using List.reverseRecOn with
  | nil => rfl
  | append_singleton calls c ih =>
    have hrun : readRequest (calls ++ [c]) = (readRequest calls).call c := by
      simp [readRequest]
    rw [hrun]
    cases c with
    | segment seg =>
      have hseg : segments (calls ++ [.segment seg]) = segments calls ++ [seg] := by
        simp [segments]
      rw [hseg, Push.feedAll_concat, ← ih]
      exact (httpStep_prefixInbuf _ _ _).symm
    | getContent alloc maxsize =>
      have hseg : segments (calls ++ [.getContent alloc maxsize]) = segments calls := by
        simp [segments]
      have := httpGetContent_spec alloc (readRequest calls).http maxsize
      rw [hseg, ← ih, Reading.call, ← AdHttp.prefixInbuf_prefixInbuf, this]

/-! ## Before and after the head -/

theorem parseRequestline_bodyin (http : AdHttp) (line : Bytes) :
    (parseRequestline http line).2.request.bodyin = http.request.bodyin := by
  obtain ⟨st, l, -, -, h⟩ := parseRequestline_spec http line
  have h₀ := h http.request.inbuf
  rw [AdHttp.setInbuf_self] at h₀
  rw [h₀]
  rfl

theorem headPhase_body (http : AdHttp) (inb : Bytes) :
    (headPhase http inb).1.request.inbuf = http.request.inbuf ∧
      (headPhase http inb).1.request.bodyin = http.request.bodyin := by
  have hreq : (requestPhase http inb).1.request.inbuf = http.request.inbuf ∧
      (requestPhase http inb).1.request.bodyin = http.request.bodyin := by
    unfold requestPhase
    split_ifs
    · cases evbufferReadln inb with
      | none => exact ⟨rfl, rfl⟩
      | some p =>
        exact ⟨parseRequestline_inbuf http (cstr p.1), parseRequestline_bodyin http (cstr p.1)⟩
    · exact ⟨rfl, rfl⟩
  have := headerPhase_body (requestPhase http inb).1 (requestPhase http inb).2
  exact ⟨this.1.trans hreq.1, this.2.trans hreq.2⟩

theorem httpStep_before_head {h : RequestHead} (ha : h.Accepted) {p r : Bytes}
    (hp : p <+: h.wire ++ r) (hlt : p.length < h.wire.length) :
    ¬ HeadDone (httpStep freshHttp p).1 ∧ httpStep freshHttp p = headPhase freshHttp p := by
  have hhead : ¬ HeadDone (headPhase freshHttp p).1 := by
    intro hd
    obtain ⟨x, hx⟩ := hp
    have happ := headPhase_stops.append hd x
    rw [hx, headPhase_wire ha] at happ
    have hlen := congrArg List.length hx
    have hrest := congrArg (fun st : AdHttp × Bytes => st.2.length) happ
    simp only [List.length_append] at hlen hrest
    omega
  have heq : httpStep freshHttp p = headPhase freshHttp p := by
    rw [httpStep_eq]
    exact bodyPhase_follows.wait _ _ hhead
  exact ⟨heq ▸ hhead, heq⟩

theorem httpStep_wire {h : RequestHead} (ha : h.Accepted) (q : Bytes) :
    httpStep freshHttp (h.wire ++ q) = bodyPhase h.state q := by
  rw [httpStep_eq, Push.seq, headPhase_wire ha]

theorem RequestHead.state_body {h : RequestHead} (ha : h.Accepted) :
    h.state.request.inbuf = [] ∧ h.state.request.bodyin = 0 := by
  have := headPhase_body freshHttp (h.wire ++ [])
  rwa [headPhase_wire ha] at this

/-! ## Exact delivery -/

/-- The head announces a body of `n` bytes: one `Content-Length` field, with a decimal value. -/
structure FieldHead.Announces (h : FieldHead) (n : ℕ) : Prop where
  accepted : h.head.Accepted
  single : ∃ f, h.fields.filter (Field.named contentLength) = [f] ∧
    IsNumeral 10 (qstrtrim f.value) n
  lt : n < 2 ^ 63

theorem FieldHead.Announces.contentlength {h : FieldHead} {n : ℕ} (ha : h.Announces n) :
    h.head.state.request.contentlength = n := by
  obtain ⟨f, hf, hv⟩ := ha.single
  rw [h.contentlength_state, h.getstr_state_of_single hf, Option.map_some, Option.getD_some,
    atol_numeral hv ha.lt]

/-- What has been read of a request with a body of `n` bytes when `p` has arrived. -/
theorem httpStep_length {h : FieldHead} {n : ℕ} (ha : h.Announces n) {body t p u : Bytes}
    (hn : body.length = n) (hp : p ++ u = h.head.wire ++ body ++ t) :
    let s := httpStep freshHttp p
    (s.1.request.status = .done ↔ h.head.wire.length + n ≤ p.length) ∧
      (HeadDone s.1 → s.1.request.contentlength = n) ∧ s.1.request.bodyin ≤ n ∧
      s.1.request.inbuf = body.take s.1.request.bodyin ∧
      (h.head.wire.length + n ≤ p.length → s.1.request.bodyin = n ∧ s.2 ++ u = t) := by
  intro s
  rw [List.append_assoc] at hp
  rcases Nat.lt_or_ge p.length h.head.wire.length with hlt | hge
  · obtain ⟨hd, hs⟩ := httpStep_before_head ha.accepted ⟨u, hp⟩ hlt
    have hbody := headPhase_body freshHttp p
    rw [← hs] at hbody
    have hinbuf : s.1.request.inbuf = [] := hbody.1
    have hbodyin : s.1.request.bodyin = 0 := hbody.2
    refine ⟨iff_of_false (fun hdone => hd ?_) (by omega), fun h' => absurd h' hd, ?_, ?_, ?_⟩
    · exact ⟨by rw [hdone]; decide, by rw [hdone]; decide⟩
    · rw [hbodyin]
      omega
    · rw [hinbuf, hbodyin, List.take_zero]
    · omega
  · obtain ⟨q, rfl⟩ : h.head.wire <+: p :=
      List.prefix_of_prefix_length_le ⟨body ++ t, rfl⟩ ⟨u, hp⟩ hge
    rw [List.append_assoc, List.append_cancel_left_eq] at hp
    obtain ⟨hinbuf, hbodyin⟩ := RequestHead.state_body ha.accepted
    have hs : s = _ := (httpStep_wire ha.accepted q).trans
      (bodyPhase_of_length rfl ha.contentlength hbodyin q)
    have hlen := congrArg List.length hp
    simp only [List.length_append] at hlen
    have hq : q.take n = body.take (min n q.length) := by
      have := congrArg (List.take (min n q.length)) hp
      rwa [List.take_append_of_le_length (by omega), List.take_append_of_le_length (by omega),
        ← List.take_take, List.take_length] at this
    rw [List.length_append, Nat.add_le_add_iff_left, hs]
    simp only [AdHttp.addBody, AdHttp.setStatus, hinbuf, hbodyin, List.nil_append, Nat.zero_add,
      List.length_take]
    refine ⟨?_, fun _ => ha.contentlength, Nat.min_le_left _ _, hq, fun hle => ⟨?_, ?_⟩⟩
    · by_cases hle : n ≤ q.length <;> simp [hle]
    · exact Nat.min_eq_left hle
    · have := congrArg (List.drop n) hp
      rwa [List.drop_append_of_le_length hle, List.drop_left' hn] at this

/-- Every request with a `Content-Length` field is delimited and delivered exactly, at every point of
every run: `u` is what has not arrived yet of the request and the bytes `t` that follow it. -/
theorem contentLength_delimited {h : FieldHead} {n : ℕ} (ha : h.Announces n) (body t u : Bytes)
    (hn : body.length = n) (calls : List RequestCall)
    (hu : (segments calls).flatten ++ u = h.head.wire ++ body ++ t) :
    let s := readRequest calls
    (s.http.request.status = .done ↔
        h.head.wire.length + n ≤ (segments calls).flatten.length) ∧
      (HeadDone s.http → s.http.request.contentlength = n) ∧ s.http.request.bodyin ≤ n ∧
      s.got ++ s.http.request.inbuf = body.take s.http.request.bodyin ∧
      (h.head.wire.length + n ≤ (segments calls).flatten.length →
        s.http.request.bodyin = n ∧ s.inb ++ u = t) := by
  have hcuts : Push.CutsAlong httpStep freshHttp (h.head.wire ++ body ++ t) := by
    rw [List.append_assoc, cutsAlong_httpStep_wire ha.accepted]
    exact fun hc => absurd hc.1 (by rw [ha.contentlength]; omega)
  have hrun := readRequest_eq calls
  rw [hcuts.feedAll_eq httpStep_nil _ ⟨u, hu⟩] at hrun
  have := httpStep_length ha hn hu
  rw [← hrun] at this
  exact this

end

/-- A body of three bytes, cut in the head and in the body, with blocks taken out in between. -/
theorem contentLength_delimited_abc :
    let s := @readRequest percentDecoder
      [.segment (bytes "PUT / HTTP/1.1\r\nContent-Len"), .getContent true 0,
        .segment (bytes "gth: 3\r\n\r\nab"), .getContent true 1, .segment (bytes "cGET")]
    s.http.request.status = .done ∧ s.got ++ s.http.request.inbuf = bytes "abc" ∧
      s.inb = bytes "GET" := by
  let f : Field := ⟨bytes "Content-Length", bytes " 3", crlf, by decide, by decide, by decide,
    isEol_crlf _⟩
  let h : FieldHead := ⟨⟨bytes "PUT / HTTP/1.1", crlf, by decide, isEol_crlf _⟩, [f], crlf,
    isEol_crlf _⟩
  have hacc : @RequestHead.Accepted percentDecoder h.head := by
    unfold RequestHead.Accepted
    decide +kernel
  have ha : @FieldHead.Announces percentDecoder h 3 :=
    @FieldHead.Announces.mk percentDecoder h 3 hacc
      ⟨f, rfl, by decide +kernel, by decide +kernel, by decide +kernel⟩ (by decide)
  intro s
  obtain ⟨hdone, -, -, hbody, hend⟩ :=
    @contentLength_delimited percentDecoder h 3 ha (bytes "abc") (bytes "GET") [] rfl
      [.segment (bytes "PUT / HTTP/1.1\r\nContent-Len"), .getContent true 0,
        .segment (bytes "gth: 3\r\n\r\nab"), .getContent true 1, .segment (bytes "cGET")]
      (by decide +kernel)
  obtain ⟨hn, ht⟩ := hend (by decide +kernel)
  refine ⟨hdone.2 (by decide +kernel), ?_, ?_⟩
  · exact hbody.trans (by rw [hn]; rfl)
  · simpa using ht

end Asyncd
