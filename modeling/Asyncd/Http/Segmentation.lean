import Asyncd.Http.ChunkCuts
import Asyncd.Http.Head

/-!
# Segmentation

Each call of `http_parser` reads what has arrived so far.  The request line, the headers and a body of
given length are read the same however the stream is cut into segments; a chunked body is where it is
`ChunksDelimited` (`segmentIndependent_httpStep_iff`).
-/

open CString ByteLines

namespace Asyncd

/-! ## Cuts in the body -/

theorem AdHttp.addBody_addBody (http : AdHttp) (a b : Bytes) :
    (http.addBody a).addBody b = http.addBody (a ++ b) := by
  simp [AdHttp.addBody, Nat.add_assoc]

theorem AdHttp.bodyLeft_addBody (http : AdHttp) (a : Bytes) :
    (http.addBody a).bodyLeft = http.bodyLeft - a.length := by
  simp only [AdHttp.bodyLeft, AdHttp.addBody]
  omega

@[simp] theorem AdHttp.addBody_setStatus (http : AdHttp) (st : ReqStatus) (a : Bytes) :
    (http.setStatus st).addBody a = (http.addBody a).setStatus st := rfl

@[simp] theorem AdHttp.bodyLeft_setStatus (http : AdHttp) (st : ReqStatus) :
    (http.setStatus st).bodyLeft = http.bodyLeft := rfl

theorem bodyPhase_length (http : AdHttp) (hst : http.request.status = .headerDone)
    (hpos : 0 < http.request.contentlength) (inb : Bytes) :
    bodyPhase http inb =
      ((http.addBody (inb.take http.bodyLeft)).setStatus
        (if http.request.contentlength =
            (http.addBody (inb.take http.bodyLeft)).request.bodyin then .done else .headerDone),
        inb.drop http.bodyLeft) := by
  simp only [bodyPhase, hst, if_true, parseBody_length hpos]

theorem bodyPhase_of_length {http : AdHttp} {n : ℕ} (hst : http.request.status = .headerDone)
    (hlen : http.request.contentlength = n) (hb : http.request.bodyin = 0) (q : Bytes) :
    bodyPhase http q =
      ((http.addBody (q.take n)).setStatus (if n ≤ q.length then .done else .headerDone),
        q.drop n) := by
  rcases Nat.eq_zero_or_pos n with rfl | hpos
  · have h0 : http.addBody [] = http := by simp [AdHttp.addBody]
    have hz : http.request.contentlength = 0 := hlen
    simp only [bodyPhase, hst, if_true, parseBody, hz, List.take_zero, List.drop_zero, h0,
      Nat.zero_le]
  · have hleft : http.bodyLeft = n := by
      rw [AdHttp.bodyLeft, hlen, hb]
      omega
    have hdone : http.request.contentlength = (http.addBody (q.take n)).request.bodyin ↔
        n ≤ q.length := by
      simp only [hlen, AdHttp.addBody, hb, List.length_take]
      omega
    rw [bodyPhase_length http hst (by omega), hleft]
    simp only [hdone]

theorem bodyPhase_cutAt_length {http : AdHttp} (hst : http.request.status = .headerDone)
    (hpos : 0 < http.request.contentlength) (p x : Bytes) : Push.CutAt bodyPhase http p x := by
  unfold Push.CutAt Push.feed
  rw [bodyPhase_length http hst hpos p, bodyPhase_length http hst hpos (p ++ x)]
  by_cases hdone : http.request.contentlength =
      (http.addBody (p.take http.bodyLeft)).request.bodyin
  · -- the last byte of the body is in `p`
    have hm : http.bodyLeft ≤ p.length := by
      simp only [AdHttp.addBody, AdHttp.bodyLeft, List.length_take] at hdone ⊢
      omega
    rw [if_pos hdone, List.take_append_of_le_length hm, List.drop_append_of_le_length hm,
      if_pos hdone]
    simp [bodyPhase]
  · rw [if_neg hdone, bodyPhase_length ((http.addBody _).setStatus _) rfl hpos]
    have hm : p.length < http.bodyLeft ∨ http.bodyLeft = 0 := by
      simp only [AdHttp.addBody, AdHttp.bodyLeft, List.length_take] at hdone ⊢
      omega
    have htake : p.take http.bodyLeft ++
        (p.drop http.bodyLeft ++ x).take (http.bodyLeft - (p.take http.bodyLeft).length) =
          (p ++ x).take http.bodyLeft := by
      rcases hm with hm | hm
      · rw [@List.take_append _ p, List.take_of_length_le hm.le, List.drop_eq_nil_of_le hm.le,
          List.nil_append]
      · simp [hm]
    have hdrop : (p.drop http.bodyLeft ++ x).drop (http.bodyLeft - (p.take http.bodyLeft).length) =
        (p ++ x).drop http.bodyLeft := by
      rcases hm with hm | hm
      · rw [@List.drop_append _ p, List.take_of_length_le hm.le, List.drop_eq_nil_of_le hm.le,
          List.nil_append, List.nil_append]
      · simp [hm]
    rw [AdHttp.addBody_setStatus, AdHttp.bodyLeft_setStatus, AdHttp.bodyLeft_addBody,
      AdHttp.addBody_addBody, htake, hdrop]
    rfl

/-- What the chunk loop makes of the state and the buffer. -/
def chunkPhase (http : AdHttp) (r : BodyEnd × Bytes × Bytes) : AdHttp × Bytes :=
  ((http.setInbuf r.2.1).setStatus r.1.status, r.2.2)

theorem bodyPhase_chunked (http : AdHttp) (hst : http.request.status = .headerDone)
    (hlen : http.request.contentlength < 0)
    (hte : http.request.headers.getstr transferEncoding = some chunked) (inb : Bytes) :
    bodyPhase http inb = chunkPhase http (readChunks http.request.inbuf inb) := by
  simp only [bodyPhase, hst, if_true, parseBody, hlen.ne, hlen.not_gt, if_false, hte,
    chunkLoop_eq http inb hst, chunkPhase]

theorem chunkPhase_injective (http : AdHttp) : Function.Injective (chunkPhase http) := by
  rintro ⟨e, d, r⟩ ⟨e', d', r'⟩ h
  simp only [chunkPhase, Prod.mk.injEq] at h
  have hd : d = d' := congrArg (fun h : AdHttp => h.request.inbuf) h.1
  have he : e.status = e'.status := congrArg (fun h : AdHttp => h.request.status) h.1
  rw [BodyEnd.status_injective he, hd, h.2]

/-- The body phase called again is the chunk loop resumed. -/
theorem feed_chunkPhase {http : AdHttp} (hlen : http.request.contentlength < 0)
    (hte : http.request.headers.getstr transferEncoding = some chunked)
    (r : BodyEnd × Bytes × Bytes) (x : Bytes) :
    Push.feed bodyPhase (chunkPhase http r) x = chunkPhase http (resume r x) := by
  obtain ⟨e, d, b⟩ := r
  cases e with
  | more => exact bodyPhase_chunked ((http.setInbuf d).setStatus .headerDone) rfl hlen hte _
  | done => simp [Push.feed, bodyPhase, chunkPhase, resume, BodyEnd.status]
  | malformed => simp [Push.feed, bodyPhase, chunkPhase, resume, BodyEnd.status]

theorem bodyPhase_cutAt_chunked {http : AdHttp} (hst : http.request.status = .headerDone)
    (hlen : http.request.contentlength < 0)
    (hte : http.request.headers.getstr transferEncoding = some chunked) (p x : Bytes) :
    Push.CutAt bodyPhase http p x ↔ ReadCut p x := by
  unfold Push.CutAt ReadCut
  rw [bodyPhase_chunked http hst hlen hte, bodyPhase_chunked http hst hlen hte, feed_chunkPhase hlen hte,
    (chunkPhase_injective http).eq_iff, readChunks_acc, readChunks_acc http.request.inbuf (p ++ x),
    resume_prepend, (prepend_injective _).eq_iff]

theorem bodyPhase_none {http : AdHttp} (hst : http.request.status = .headerDone)
    (h : http.request.contentlength = 0 ∨ http.request.contentlength < 0 ∧
      http.request.headers.getstr transferEncoding ≠ some chunked) (inb : Bytes) :
    bodyPhase http inb = (http.setStatus .done, inb) := by
  obtain h | ⟨h, hte⟩ := h
  · simp only [bodyPhase, hst, if_true, parseBody, h]
  · simp only [bodyPhase, hst, if_true, parseBody, h.ne, h.not_gt, if_false, hte]

theorem bodyPhase_cutAt_none {http : AdHttp} (hst : http.request.status = .headerDone)
    (h : http.request.contentlength = 0 ∨ http.request.contentlength < 0 ∧
      http.request.headers.getstr transferEncoding ≠ some chunked) (p x : Bytes) :
    Push.CutAt bodyPhase http p x := by
  unfold Push.CutAt Push.feed
  rw [bodyPhase_none hst h, bodyPhase_none hst h]
  simp [bodyPhase]

/-- Only cuts in a chunked body can matter. -/
theorem bodyPhase_cutsAlong_iff (http : AdHttp) (body : Bytes) :
    Push.CutsAlong bodyPhase http body ↔
      (http.request.status = .headerDone → http.request.contentlength < 0 →
        http.request.headers.getstr transferEncoding = some chunked → ChunksDelimited body) := by
  by_cases hst : http.request.status = .headerDone
  swap
  · have hidle : ∀ b, bodyPhase http b = (http, b) := fun b => by simp [bodyPhase, hst]
    apply iff_of_true _ fun h => absurd h hst
    intro p x _
    simp [Push.CutAt, Push.feed, hidle]
  rcases lt_trichotomy http.request.contentlength 0 with hneg | hz | hpos
  · by_cases hte : http.request.headers.getstr transferEncoding = some chunked
    · simp only [hst, hneg, hte, true_implies, ← readCuts_iff]
      apply forall_congr'
      intro p
      apply forall_congr'
      intro x
      exact imp_congr_right fun _ => bodyPhase_cutAt_chunked hst hneg hte p x
    · exact iff_of_true (fun p x _ => bodyPhase_cutAt_none hst (Or.inr ⟨hneg, hte⟩) p x)
        fun _ _ h => absurd h hte
  · exact iff_of_true (fun p x _ => bodyPhase_cutAt_none hst (Or.inl hz) p x)
      fun _ h => absurd hz h.ne
  · exact iff_of_true (fun p x _ => bodyPhase_cutAt_length hst hpos p x)
      fun _ h => absurd h hpos.not_gt

/-! ## The whole stream -/

section

variable [UrlDecoder]

/-- One call of `http_parser`, on the state and the input buffer. -/
def httpStep : Push.Consumer AdHttp UInt8 := fun http inb => (httpParser http inb).2

theorem httpStep_eq : httpStep = Push.seq headPhase bodyPhase := by
  funext http inb
  rw [httpStep, httpParser_eq]
  rfl

theorem httpStep_nil : httpStep freshHttp [] = (freshHttp, []) := by
  rw [httpStep_eq, Push.seq, headPhase, Push.seq, requestPhase_none List.not_mem_nil]
  rfl

theorem cutsAlong_httpStep_wire {h : RequestHead} (ha : h.Accepted) (r : Bytes) :
    Push.CutsAlong httpStep freshHttp (h.wire ++ r) ↔ (h.Chunked → ChunksDelimited r) := by
  rw [httpStep_eq, headPhase_stops.cutsAlong_seq bodyPhase_follows, headPhase_wire ha,
    bodyPhase_cutsAlong_iff]
  refine ⟨fun H hc => H ?_ rfl hc.1 hc.2, fun H _ _ hlen hte => H ⟨hlen, hte⟩⟩
  simp [HeadDone, h.state_status]

/-- At every point of a stream all ways of cutting what has arrived lead to the same state, exactly
when the stream does not start with a chunked request whose body is not delimited. -/
theorem segmentIndependent_httpStep_iff (stream : Bytes) :
    Push.SegmentIndependent httpStep freshHttp stream ↔
      ∀ (h : RequestHead) (body : Bytes), stream = h.wire ++ body → h.Accepted → h.Chunked →
        ChunksDelimited body := by
  rw [Push.segmentIndependent_iff httpStep_nil]
  constructor
  · rintro H h body rfl ha
    exact (cutsAlong_httpStep_wire ha body).1 H
  · intro H
    by_cases hst : (headPhase freshHttp stream).1.request.status = .headerDone
    · obtain ⟨h, ha, hs⟩ := exists_head hst
      rw [hs, cutsAlong_httpStep_wire ha]
      exact H h _ hs ha
    · rw [httpStep_eq, headPhase_stops.cutsAlong_seq bodyPhase_follows, bodyPhase_cutsAlong_iff]
      exact fun _ h => absurd h hst

end

/-- A chunk whose size line ends in LF and whose data is followed by CR LF: cut inside that CR LF, the
request is refused; in one segment it is read. -/
theorem segmentation_cut_in_line_end :
    let head := bytes "POST / HTTP/1.1\nTransfer-Encoding: chunked\n\n"
    let cut := [head ++ bytes "1\nA\r", bytes "\n0\r\n\r\n"]
    let whole := [head ++ bytes "1\nA\r\n0\r\n\r\n"]
    cut.flatten = whole.flatten ∧
      (Push.feedAll (@httpStep percentDecoder) (freshHttp, []) cut).1.request.status = .error ∧
      (Push.feedAll (@httpStep percentDecoder) (freshHttp, []) whole).1.request.status = .done := by
  decide +kernel

end Asyncd
