import Asyncd.Http.Refused
import Asyncd.Server.Service

/-!
# A stream with a malformed request

Behind well-formed requests comes one that the parser refuses, and behind it anything.  The peer is sent
the answers to the requests in front, in order, and nothing else; once all these are served and what is
refused has arrived, the connection closes (`refused_closes`).
-/

open CString ByteLines

namespace Asyncd

section

variable {σ : Type} [UrlDecoder] {server : AdServer σ} {reply : AdHttp → List ResponseCall × ℤ}
  (ha : HttpAnswering server reply)

include ha

theorem answering_refused (conn : AdConn) {http : AdHttp} (hx : conn.httpState = some http)
    (herror : (httpStep http conn.inb).1.request.status = .error) (world : σ) :
    ∃ visits, callHooks server evRead conn world =
      (some adClose, { conn with toConnView := afterParser conn http }, world, visits) := by
  obtain ⟨hooks, hhooks, -⟩ := ha
  obtain ⟨st, hret, hrun⟩ :=
    adHttpHandler_read (fun _ => true) (show evRead.init = false from rfl) rfl hx world
  have hline : HasLine http conn.inb := by
    by_contra hn
    have hinit := (Classical.not_imp.1 hn).1
    rw [httpStep, httpParser_of_not_hasLine hn] at herror
    exact absurd (hinit.symm.trans herror) (by decide)
  obtain rfl := ParserExit.ret.inj (hret.symm.trans
    (((parserLaw_iff http conn.inb).2 hline).close.2 herror))
  exact ⟨_, callHooks_handler_stop hhooks hrun (by decide)⟩

variable {x : Exchange σ} {stream p sent : Bytes}

theorem waits_refused (h : x.Waits stream p sent) {seg : Bytes} (hseg : p ++ seg <+: stream)
    (herror : (httpStep freshHttp (p ++ seg)).1.request.status = .error) :
    (x.step server (.read seg)).Closing sent := by
  obtain ⟨conn, hconn, hw, -, hsent⟩ := h
  obtain ⟨http, hx, -, hfeed⟩ := hw.state
  obtain ⟨hnext, htaken⟩ := exchange_step_conn server hconn (c := .read seg) (by simp)
  have hread := hfeed seg hseg
  let conn' : AdConn := { conn with inb := conn.inb ++ seg }
  obtain ⟨visits, hcalls⟩ := answering_refused ha conn' hx
    (by rw [show httpStep http conn'.inb = _ from hread]; exact herror) x.session.world
  rw [callback, connCb_conn hcalls hw.status] at hnext
  exact closing_of_cbEnd _ _ hnext rfl (by rwa [htaken])

/-- Bytes that arrive when the requests `ms` are still to be served, and `w` behind them is refused. -/
theorem waits_read_refused (hp : server.pipelining = true) {w t : Bytes} (hr : Refused w)
    (ms : List Message) (h : x.Waits (wires ms ++ (w ++ t)) p sent) {seg : Bytes}
    (hseg : p ++ seg <+: wires ms ++ (w ++ t)) :
    (x.step server (.read seg)).Waits (wires ms ++ (w ++ t)) (p ++ seg) sent ∧
        (p ++ seg).length < (ms.map fun m => m.wire.length).headD w.length ∨
      ms = [] ∧ w.length ≤ (p ++ seg).length ∧ (x.step server (.read seg)).Closing sent ∨
      ∃ m ms' rest, ms = m :: ms' ∧ p ++ seg = m.wire ++ rest ∧
        (¬m.Ends reply ∧ (x.step server (.read seg)).Waits (wires ms' ++ (w ++ t)) rest
            (sent ++ m.answer reply) ∨
          m.Ends reply ∧ (x.step server (.read seg)).Closing (sent ++ m.answer reply)) := by
  cases ms with
  | nil =>
    rcases Nat.lt_or_ge (p ++ seg).length w.length with hshort | hlong
    · exact Or.inl ⟨waits_short ha h hseg (hr.cuts t) (hr.short hseg hshort), hshort⟩
    · obtain ⟨q, hq⟩ : w <+: p ++ seg := List.prefix_of_prefix_length_le ⟨t, rfl⟩ hseg hlong
      refine Or.inr (Or.inl ⟨rfl, hlong, waits_refused ha h hseg ?_⟩)
      rw [← hq]
      exact hr.whole q
  | cons m ms =>
    have hreads := m.parsed_eq
    have hstream : wires (m :: ms) ++ (w ++ t) = m.wire ++ (wires ms ++ (w ++ t)) := by
      simp [wires]
    rcases Nat.lt_or_ge (p ++ seg).length m.wire.length with hshort | hlong
    · exact Or.inl ⟨waits_short ha h hseg (hstream ▸ hreads.cuts _)
        (hreads.short (hstream ▸ hseg) hshort), hshort⟩
    · obtain ⟨rest, hrest⟩ : m.wire <+: p ++ seg :=
        List.prefix_of_prefix_length_le ⟨_, hstream.symm⟩ hseg hlong
      refine Or.inr (Or.inr ⟨m, ms, rest, rfl, hrest.symm, ?_⟩)
      have hfinal : httpStep freshHttp (p ++ seg) = (m.parsed, rest) := by
        rw [← hrest]
        exact hreads.whole rest
      cases waits_whole ha hp h hseg hfinal hreads.done (wires ms ++ (w ++ t)) with
      | inl hopen =>
        refine Or.inl ⟨fun he => ?_, hopen.2⟩
        rw [Message.Ends, hopen.1] at he
        exact absurd he (by decide)
      | inr hclosing => exact Or.inr hclosing

end

/-! ## The run -/

section

variable [UrlDecoder]

/-- The requests are served, of which `n` bytes have been served and `k` have arrived behind them, and
then `len` bytes are refused: each takes a segment of its own once it has arrived. -/
def RefusedFrom (n k : ℕ) (ms : List Message) (len : ℕ) (cs : List Callback) : Prop :=
  Serving.serve (endsFrom n ((ms.map fun m => m.wire.length) ++ [len])) (readEnds (n + k) cs) = []

variable {n : ℕ} {p seg : Bytes} {ms : List Message} {len : ℕ}

theorem not_refusedFrom_nil (n k : ℕ) (ms : List Message) (len : ℕ) :
    ¬RefusedFrom n k ms len [] := by
  rw [RefusedFrom, readEnds, show arrivals [] = [] from rfl, List.map_nil, endsFrom,
    Serving.serve_nil_right]
  cases ms <;> exact List.cons_ne_nil _ _

theorem refusedFrom_reads (n k : ℕ) (ms : List Message) (len : ℕ) (cs : List Callback) :
    RefusedFrom n k ms len ((arrivals cs).map .read) ↔ RefusedFrom n k ms len cs := by
  rw [RefusedFrom, readEnds, arrivals_reads, RefusedFrom, readEnds]

theorem refusedFrom_short
    (h : (p ++ seg).length < (ms.map fun m => m.wire.length).headD len) (cs : List Callback) :
    RefusedFrom n p.length ms len (.read seg :: cs) ↔ RefusedFrom n (p ++ seg).length ms len cs := by
  rw [RefusedFrom, readEnds_read, Nat.add_assoc, ← List.length_append, RefusedFrom]
  cases ms with
  | nil =>
    have hlt : n + (p ++ seg).length < n + len := Nat.add_lt_add_left h n
    exact iff_of_eq (congrArg (· = []) (Serving.serve_of_lt hlt _ _))
  | cons m ms =>
    have hlt : n + (p ++ seg).length < n + m.wire.length := Nat.add_lt_add_left h n
    exact iff_of_eq (congrArg (· = []) (Serving.serve_of_lt hlt _ _))

theorem refusedFrom_whole {rest : Bytes} {m : Message} (h : p ++ seg = m.wire ++ rest)
    (cs : List Callback) : RefusedFrom n p.length (m :: ms) len (.read seg :: cs) ↔
      RefusedFrom (n + m.wire.length) rest.length ms len cs := by
  have hlen : (p ++ seg).length = m.wire.length + rest.length := by rw [h, List.length_append]
  rw [RefusedFrom, readEnds_read, Nat.add_assoc, ← List.length_append, RefusedFrom, hlen,
    ← Nat.add_assoc]
  exact iff_of_eq (congrArg (· = []) (Serving.serve_of_le (Nat.le_add_right _ _) _ _))

theorem refusedFrom_end (h : len ≤ (p ++ seg).length) (cs : List Callback) :
    RefusedFrom n p.length [] len (.read seg :: cs) := by
  rw [RefusedFrom, readEnds_read, Nat.add_assoc, ← List.length_append]
  have hle : n + len ≤ n + (p ++ seg).length := Nat.add_le_add_left h n
  exact (Serving.serve_of_le hle _ _).trans (Serving.serve_nil_left _)

variable {σ : Type} {server : AdServer σ} {reply : AdHttp → List ResponseCall × ℤ}
  (hs : AnsweringServer server reply)

include hs

theorem refused_run {w t : Bytes} (hr : Refused w) (cs : List Callback) (ms : List Message)
    {x : Exchange σ} {p sent : Bytes} (h : x.Waits (wires ms ++ (w ++ t)) p sent)
    (hp : p ++ (arrivals (heard cs)).flatten <+: wires ms ++ (w ++ t)) (n : ℕ) :
    (cs.foldl (Exchange.step server) x).Answered reply sent (servedFrom n p.length ms (heard cs))
      ((∀ c ∈ cs, ¬c.HangsUp) ∧ ¬RefusedFrom n p.length ms w.length (heard cs)) := by
  rw [← refusedFrom_reads]
  refine Lasting.run
    (waits_lasting hs.hooks (fun i : List Message × Bytes × Bytes => wires i.1 ++ (w ++ t))
      (fun i => i.2.1) fun i => i.2.2)
    (M := fun i segs stays x => ∀ n, i.2.1 ++ segs.flatten <+: wires i.1 ++ (w ++ t) →
      x.Answered reply i.2.2 (servedOf Message.wire n i.2.1.length i.1 segs)
        (stays ∧ ¬RefusedFrom n i.2.1.length i.1 w.length (segs.map .read)))
    ?_ ?_ ?_ (i := (ms, p, sent)) h cs n hp
  · rintro ⟨ms, p, sent⟩ x h n -
    obtain ⟨hopen, hsent⟩ := h.isOpen
    have hnot := not_refusedFrom_nil n p.length ms w.length
    exact ⟨by simpa using hsent, iff_of_true hopen ⟨by simp, trivial, hnot⟩⟩
  · rintro ⟨ms, p, sent⟩ x h n -
    exact ⟨by simpa using h.2, iff_of_false h.not_isOpen fun h => h.2.1⟩
  · rintro ⟨ms, p, sent⟩ x seg segs stays x' h ih hclosed n hp
    rw [List.flatten_cons, ← List.append_assoc] at hp
    rcases waits_read_refused hs.hooks hs.pipelining hr ms h ((List.prefix_append _ _).trans hp) with
      ⟨hw, hshort⟩ | ⟨rfl, hlong, hclosing⟩ | ⟨m, ms', rest, rfl, hrest, hnext⟩
    · -- neither a request nor what is refused is complete
      have hserved : ∀ m ∈ ms.head?, (p ++ seg).length < m.wire.length := by
        intro m hm
        rwa [List.head?_eq_some_iff.1 hm |>.choose_spec] at hshort
      rw [servedOf_short hserved, List.map_cons, refusedFrom_short hshort]
      exact ih (j := (ms, p ++ seg, sent)) hw n hp
    · refine ⟨?_, iff_of_false (hclosed hclosing).not_isOpen fun h => ?_⟩
      · rw [servedOf, Serving.served_nil]
        simpa using (hclosed hclosing).2
      · exact h.2.2 (refusedFrom_end hlong _)
    · rw [servedOf_whole hrest, List.map_cons, refusedFrom_whole hrest]
      have hstream : wires (m :: ms') ++ (w ++ t) = m.wire ++ (wires ms' ++ (w ++ t)) := by
        simp [wires]
      rw [hrest, hstream, List.append_assoc] at hp
      have hp' := (List.prefix_append_right_inj m.wire).1 hp
      cases hnext with
      | inl hopen =>
        have hrun := ih (j := (ms', rest, sent ++ m.answer reply)) hopen.2 (n + m.wire.length) hp'
        refine ⟨?_, hrun.stays.trans ?_⟩
        · rw [Serving.upTo_cons_of_neg hopen.1, List.flatMap_cons, ← List.append_assoc]
          exact hrun.sent
        · rw [List.forall_mem_cons, and_iff_right hopen.1]
      | inr hend =>
        refine ⟨?_, iff_of_false (hclosed hend.2).not_isOpen fun h => ?_⟩
        · rw [Serving.upTo_cons_of_pos hend.1, List.flatMap_singleton]
          exact (hclosed hend.2).2
        · exact h.1 m List.mem_cons_self hend.1

/-- Well-formed requests, one that the parser refuses, and anything behind it arrive in whatever
segments.  The peer is sent the answers to the requests that are served, in order, up to the first that
closes the connection, and nothing else.  The connection is closing as soon as an answer closes it, the
peer hangs up, or all the requests have been served and what is refused has been read. -/
theorem refused_closes {w : Bytes} (hr : Refused w) (ms : List Message) (t : Bytes) (world : σ)
    (cs : List Callback) (h : (arrivals (heard cs)).flatten <+: wires ms ++ (w ++ t)) :
    (exchange server world cs).Answered reply [] (served ms (heard cs))
      ((∀ c ∈ cs, ¬c.HangsUp) ∧ ¬RefusedFrom 0 0 ms w.length (heard cs)) :=
  refused_run hs hr cs ms (answering_start hs.hooks world _) (by simpa using h) 0

end

/-- A request, a line that is no request line, and another request.  Only the first is answered. -/
theorem refused_between_requests :
    let cs := [.read (bytes "GET / HTTP/1.1\r\n\r\nXYZ\r\nGET / HT"), .drain 9,
      .read (bytes "TP/1.1\r\n\r\n")]
    let x := exchange (@helloworldHttpServer percentDecoder) () cs
    x.sent = @Message.answer percentDecoder helloworldReply getMessage ∧ ¬x.Open := by
  intro cs x
  let l : Line := ⟨bytes "XYZ", crlf, by decide, isEol_crlf _⟩
  have hr : @Refused percentDecoder l.wire := @refused_line percentDecoder l (by decide +kernel)
  obtain ⟨hsent, hstays⟩ := @refused_closes percentDecoder _ _ _
    (@helloworldHttp_server percentDecoder) _ hr [getMessage] (bytes "GET / HTTP/1.1\r\n\r\n") () cs
    (by decide +kernel)
  have hserved : @served percentDecoder [getMessage] (heard cs) = [getMessage] := by
    apply @served_of_enough percentDecoder
    exact Serving.enough_cons.2 ⟨by decide +kernel, by simp [Serving.Enough, endsFrom]⟩
  have hopen : ¬@Message.Ends percentDecoder helloworldReply getMessage := by
    unfold Message.Ends
    decide +kernel
  rw [hserved] at hsent hstays
  constructor
  · rw [hsent, Serving.upTo_cons_of_neg hopen]
    simp
  · rw [hstays]
    refine fun h => h.2.2 ?_
    unfold RefusedFrom
    decide +kernel

end Asyncd
