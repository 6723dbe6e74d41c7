import Asyncd.Http.Message
import Asyncd.Http.Trailers

/-!
# Bodies that are taken out while they arrive

`ad_http_get_content` may be called at any time.  `message_streamed` says of every well-formed request,
whatever body it has, that such calls neither lose nor repeat a byte of it, and do not disturb the parser.
-/

open CString ByteLines

namespace Asyncd

section

variable [UrlDecoder]

/-- The parser only adds to the body bytes that it has put into `request.inbuf`. -/
theorem httpStep_inbuf (http : AdHttp) (inb : Bytes) :
    http.request.inbuf <+: (httpStep http inb).1.request.inbuf := by
  have hcommutes := httpStep_prefixInbuf http.request.inbuf (http.setInbuf []) inb
  have hback : (http.setInbuf []).prefixInbuf http.request.inbuf = http := by
    simp [AdHttp.prefixInbuf, AdHttp.setInbuf]
  rw [hback] at hcommutes
  rw [hcommutes]
  exact List.prefix_append _ _

/-- What has been read of `w` when `p` has arrived. -/
theorem Reads.arrived {w p u t : Bytes} {final : AdHttp} (hw : Reads w final) (h : p ++ u = w ++ t) :
    let s := httpStep freshHttp p
    (s.1.request.status = .done ↔ w.length ≤ p.length) ∧ s.1.request.status ≠ .error ∧
      s.1.request.inbuf <+: final.request.inbuf ∧
      (w.length ≤ p.length → s.1 = final ∧ s.2 ++ u = t) := by
  intro s
  rcases Nat.lt_or_ge p.length w.length with hlt | hge
  · have hp : p <+: w := by
      apply List.prefix_of_prefix_length_le _ (List.prefix_append w t) hlt.le
      exact ⟨u, h⟩
    obtain ⟨r, hr⟩ := hp
    obtain ⟨hdone, herror⟩ := hw.short ⟨u, h⟩ hlt
    refine ⟨iff_of_false hdone (not_le.2 hlt), herror, ?_, fun hle => absurd hle (not_le.2 hlt)⟩
    -- what is still to come of `w` only adds to the body
    have hcut : httpStep s.1 (s.2 ++ r) = httpStep freshHttp (p ++ r) := by
      apply hw.cuts [] p r
      rw [hr, List.append_nil]
    rw [hr, ← List.append_nil w, hw.whole] at hcut
    have hmore := httpStep_inbuf s.1 (s.2 ++ r)
    rwa [hcut] at hmore
  · have hp : w <+: p := by
      apply List.prefix_of_prefix_length_le (List.prefix_append w t) _ hge
      exact ⟨u, h⟩
    obtain ⟨q, rfl⟩ := hp
    have hs : s = (final, q) := hw.whole q
    have ht : q ++ u = t := by
      rw [List.append_assoc] at h
      exact List.append_cancel_left h
    rw [hs]
    refine ⟨iff_of_true hw.done hge, ?_, List.prefix_refl _, fun _ => ⟨rfl, ht⟩⟩
    rw [hw.done]
    decide

/-- A well-formed request is read while segments of it arrive and blocks of its body are taken out: at
every point of every run the blocks and what waits in `request.inbuf` are a front of the body, and it is
never refused.  It is done when it has arrived, and then all its body is there, and nothing of what
follows has been touched. -/
theorem message_streamed (m : Message) (t u : Bytes) (calls : List RequestCall)
    (h : (segments calls).flatten ++ u = m.wire ++ t) :
    let s := readRequest calls
    (s.http.request.status = .done ↔ m.wire.length ≤ (segments calls).flatten.length) ∧
      s.http.request.status ≠ .error ∧ s.got ++ s.http.request.inbuf <+: m.body.content ∧
      (s.http.request.status = .done → s.inb ++ u = t ∧
        s.http.record = { m.record with body := s.http.request.inbuf } ∧
        s.got ++ s.http.request.inbuf = m.body.content) := by
  intro s
  obtain ⟨final, hreads, hrecord⟩ := m.reads
  have hrun := readRequest_eq calls
  rw [(hreads.cuts t).feedAll_eq httpStep_nil _ ⟨u, h⟩] at hrun
  obtain ⟨hdone, herror, hprefix, hwhole⟩ := hreads.arrived h
  rw [← hrun] at hdone herror hprefix hwhole
  have hbody : final.request.inbuf = m.body.content := congrArg Record.body hrecord
  rw [hbody] at hprefix
  refine ⟨hdone, herror, hprefix, fun hst => ?_⟩
  obtain ⟨hfinal, ht⟩ := hwhole (hdone.1 hst)
  refine ⟨ht, ?_, ?_⟩
  · rw [← hrecord, ← hfinal]
    rfl
  · rw [← hbody, ← hfinal]
    rfl

end

/-- Two chunks of which the first is taken out while the second arrives. -/
theorem message_streamed_abc :
    let s := @readRequest percentDecoder
      [.segment (bytes "POST / HTTP/1.1\r\nTransfer-Encoding:chunked\r\n\r\n2\r\nab\r\n1"),
        .getContent true 1, .segment (bytes "\r\nc\r\n0\r\n\r\nGET")]
    s.got = bytes "a" ∧ s.http.request.inbuf = bytes "bc" ∧ s.inb = bytes "GET" := by
  let m : @Message percentDecoder := @Message.mk percentDecoder chunkedPost
    (.chunks
      [⟨bytes "2", [], bytes "ab", ⟨by decide, by decide +kernel, by decide +kernel⟩, by decide,
          by decide +kernel, by decide +kernel, by decide⟩,
        ⟨bytes "1", [], bytes "c", ⟨by decide, by decide +kernel, by decide +kernel⟩, by decide,
          by decide +kernel, by decide +kernel, by decide⟩]) chunkedPost_announces
  intro s
  obtain ⟨hdone, -, -, hend⟩ := @message_streamed percentDecoder m (bytes "GET") []
    [.segment (bytes "POST / HTTP/1.1\r\nTransfer-Encoding:chunked\r\n\r\n2\r\nab\r\n1"),
      .getContent true 1, .segment (bytes "\r\nc\r\n0\r\n\r\nGET")] (by decide +kernel)
  obtain ⟨ht, -, hbody⟩ := hend (hdone.2 (by decide +kernel))
  have hgot : s.got = bytes "a" := by decide +kernel
  have hcontent : (@Message.body percentDecoder m).content = bytes "a" ++ bytes "bc" := by decide
  rw [List.append_nil] at ht
  rw [hgot, hcontent] at hbody
  exact ⟨hgot, List.append_cancel_left hbody, ht⟩

end Asyncd
