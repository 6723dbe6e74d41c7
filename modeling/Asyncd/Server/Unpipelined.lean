import Asyncd.Server.Service

/-!
# A server without pipelining

With `server.request_pipelining` off, `AD_DONE` leaves the connection as it is: `conn_cb` calls no hook
on it any more, and what arrives is drained.  So of a stream that starts with a well-formed request only
this one is answered, whatever comes behind it, and a connection that is not closed stays and discards
what it is sent (`first_request_only`).
-/

open CString ByteLines

namespace Asyncd

/-- The connection is there, and done: no hook is called on what arrives. -/
def Exchange.Discards {σ : Type} (x : Exchange σ) (sent : Bytes) : Prop :=
  ∃ conn, x.session.conn = some conn ∧ conn.status = adDone ∧ conn.inb = [] ∧
    x.taken ++ conn.out = sent

/-! ## A connection that is done -/

section

variable {σ : Type} {server : AdServer σ} {x : Exchange σ} {sent : Bytes}
  (hp : server.pipelining = false)

include hp

theorem connCbEnd_discards {event : Event} {conn : AdConn} (hst : conn.status = adDone)
    (world : σ) : connCbEnd server event conn world =
      ⟨some { conn with inb := if event = evRead then [] else conn.inb }, world, []⟩ := by
  rw [connCbEnd, if_pos hst, if_neg (by simp [hp])]
  by_cases hread : event = evRead
  · rw [if_pos hread, if_pos hread]
  · rw [if_neg hread, if_neg hread]

theorem connCb_discards (event : Event) (conn : AdConn) (hst : conn.status = adDone) (world : σ) :
    connCb server event conn world =
      ⟨some { conn with inb := if event = evRead then [] else conn.inb }, world, []⟩ := by
  have hne : ¬(conn.status = adOk ∨ conn.status = adTakeover) := by
    rw [hst]
    decide
  rw [connCb, if_neg hne, connCbEnd_discards hp hst]

/-- A connection that is done stays so until the peer hangs up: what arrives is discarded, and no hook
is called. -/
theorem discards_step (h : x.Discards sent) {c : Callback} (hc : ¬c.HangsUp) :
    (x.step server c).Discards sent ∧ (x.step server c).session.trace = x.session.trace := by
  obtain ⟨conn, hconn, hst, hinb, hsent⟩ := h
  obtain ⟨conn', hcb, hst', hinb', hsent'⟩ : ∃ conn',
      callback server c conn x.session.world = ⟨some conn', x.session.world, []⟩ ∧
        conn'.status = adDone ∧ conn'.inb = [] ∧
          x.taken ++ x.session.transported c ++ conn'.out = sent := by
    cases c with
    | read seg =>
      have hcb := connCb_discards hp evRead { conn with inb := conn.inb ++ seg } hst
      refine ⟨_, hcb x.session.world, hst, rfl, ?_⟩
      rwa [Session.transported_read, List.append_nil]
    | write =>
      refine ⟨_, connCb_discards hp evWrite conn hst x.session.world, hst, hinb, ?_⟩
      rwa [Session.transported_write, List.append_nil]
    | event what =>
      refine ⟨conn, if_neg hc, hst, hinb, ?_⟩
      rwa [Session.transported_event, List.append_nil]
    | drain n =>
      refine ⟨_, rfl, hst, hinb, ?_⟩
      rw [Session.transported, hconn]
      exact (append_drain x.taken conn.out n).trans hsent
  have hstep : x.session.step server c = ⟨some conn', x.session.world, x.session.trace⟩ := by
    rw [Session.step, hconn]
    dsimp only
    rw [hcb, Session.after, List.append_nil]
  rw [Exchange.step, hstep]
  exact ⟨⟨conn', rfl, hst', hinb', hsent'⟩, rfl⟩

theorem discards_run (cs : List Callback) (h : x.Discards sent) (hcs : ∀ c ∈ cs, ¬c.HangsUp) :
    (cs.foldl (Exchange.step server) x).session.trace = x.session.trace := by
  induction cs generalizing x with
  | nil => rfl
  | cons c cs ih =>
    obtain ⟨hc, hcs⟩ := List.forall_mem_cons.1 hcs
    obtain ⟨hstep, htrace⟩ := discards_step hp h hc
    exact (ih hstep hcs).trans htrace

theorem discards_lasting {ι : Type} (sent : ι → Bytes) :
    Lasting server (fun i x => x.Discards (sent i)) sent where
  conn := by
    rintro i x ⟨conn, hconn, -, -, hsent⟩
    exact ⟨conn, hconn, hsent⟩
  write h := (discards_step hp h (c := .write) id).1
  drain h n := (discards_step hp h (c := .drain n) id).1
  event h what hwhat := (discards_step hp h (c := .event what) hwhat).1

end

/-! ## Runs -/

section

variable {σ : Type} [UrlDecoder] {server : AdServer σ} {reply : AdHttp → List ResponseCall × ℤ}
  {x : Exchange σ} {stream p sent : Bytes} (ha : HttpAnswering server reply)
  (hp : server.pipelining = false)

include ha hp

theorem waits_last (m : Message) (t : Bytes) (h : x.Waits (m.wire ++ t) p sent) {seg : Bytes}
    (hseg : p ++ seg <+: m.wire ++ t) (hlong : m.wire.length ≤ (p ++ seg).length) :
    ¬m.Ends reply ∧ (x.step server (.read seg)).Discards (sent ++ m.answer reply) ∨
      m.Ends reply ∧ (x.step server (.read seg)).Closing (sent ++ m.answer reply) := by
  have hreads := m.parsed_eq
  obtain ⟨rest, hrest⟩ : m.wire <+: p ++ seg :=
    List.prefix_of_prefix_length_le (List.prefix_append _ _) hseg hlong
  have hfinal : httpStep freshHttp (p ++ seg) = (m.parsed, rest) := by
    rw [← hrest]
    exact hreads.whole rest
  obtain ⟨conn, world, hstatus, -, hnext, hout⟩ := waits_answered ha h hseg hfinal hreads.done
  obtain ⟨hooks, -, hanswering⟩ := id ha
  cases hanswering.status m.parsed with
  | inl hst =>
    have hdone := hstatus.trans hst
    rw [connCbEnd_discards hp hdone] at hnext
    refine Or.inl ⟨fun he => ?_, _, hnext, hdone, rfl, hout⟩
    rw [Message.Ends, hst] at he
    exact absurd he (by decide)
  | inr hst => exact Or.inr ⟨hst, closing_of_cbEnd _ _ hnext (hstatus.trans hst) hout⟩

end

/-- How the exchange stands when `n` bytes have been heard: the request is answered once it is whole. -/
structure Exchange.AnswersFirst {σ : Type} [UrlDecoder] (x : Exchange σ)
    (reply : AdHttp → List ResponseCall × ℤ) (m : Message) (n : ℕ) (stays : Prop) : Prop where
  sent : x.sent = if m.wire.length ≤ n then m.answer reply else []
  waits : x.Open ↔ n < m.wire.length ∧ stays
  discards : (∃ out, x.Discards out) ↔ m.wire.length ≤ n ∧ ¬m.Ends reply ∧ stays

section

variable {σ : Type} [UrlDecoder] {server : AdServer σ} {reply : AdHttp → List ResponseCall × ℤ}
  {x : Exchange σ} {stream p sent : Bytes} {m : Message} {n : ℕ} {stays : Prop}

omit [UrlDecoder] in
theorem Exchange.Discards.not_open (h : x.Discards sent) : ¬x.Open ∧ x.sent = sent := by
  obtain ⟨conn, hconn, hst, -, hsent⟩ := h
  constructor
  · rintro ⟨conn', hconn', hopen⟩
    rw [hconn] at hconn'
    cases hconn'
    rw [hst] at hopen
    exact absurd hopen (by decide)
  · rw [Exchange.sent, hconn]
    exact hsent

omit [UrlDecoder] in
theorem Exchange.Closing.not_discards (h : x.Closing sent) : ¬∃ out, x.Discards out := by
  rintro ⟨out, conn, hconn, hst, -⟩
  rw [h.1 conn hconn] at hst
  exact absurd hst (by decide)

omit [UrlDecoder] in
theorem Exchange.Open.not_discards (h : x.Open) : ¬∃ out, x.Discards out :=
  fun ⟨_, hd⟩ => hd.not_open.1 h

theorem answersFirst_waits (h : x.Waits stream p []) (hn : n < m.wire.length) :
    x.AnswersFirst reply m n True where
  sent := h.isOpen.2.trans (if_neg (Nat.not_le.2 hn)).symm
  waits := iff_of_true h.isOpen.1 ⟨hn, trivial⟩
  discards := iff_of_false h.isOpen.1.not_discards fun h => absurd h.1 (Nat.not_le.2 hn)

theorem answersFirst_left (h : x.Closing []) (hn : n < m.wire.length) :
    x.AnswersFirst reply m n False where
  sent := h.2.trans (if_neg (Nat.not_le.2 hn)).symm
  waits := iff_of_false h.not_isOpen And.right
  discards := iff_of_false h.not_discards fun h => h.2.2

theorem answersFirst_discards (h : x.Discards (m.answer reply)) (hn : m.wire.length ≤ n)
    (hends : ¬m.Ends reply) : x.AnswersFirst reply m n True where
  sent := h.not_open.2.trans (if_pos hn).symm
  waits := iff_of_false h.not_open.1 fun h => absurd h.1 (Nat.not_lt.2 hn)
  discards := iff_of_true ⟨_, h⟩ ⟨hn, hends, trivial⟩

theorem answersFirst_closing (h : x.Closing (m.answer reply)) (hn : m.wire.length ≤ n)
    (hends : ¬m.Ends reply → ¬stays) : x.AnswersFirst reply m n stays where
  sent := h.2.trans (if_pos hn).symm
  waits := iff_of_false h.not_isOpen fun h => absurd h.1 (Nat.not_lt.2 hn)
  discards := iff_of_false h.not_discards fun h => hends h.2.1 h.2.2

variable (ha : HttpAnswering server reply) (hp : server.pipelining = false)

include ha hp

/-- When `p` has arrived, the connection waits for the rest of the request, or discards what comes behind
it. -/
def Exchange.FirstStands (x : Exchange σ) (reply : AdHttp → List ResponseCall × ℤ) (m : Message)
    (t p : Bytes) : Prop :=
  p.length < m.wire.length ∧ x.Waits (m.wire ++ t) p [] ∨
    m.wire.length ≤ p.length ∧ ¬m.Ends reply ∧ x.Discards (m.answer reply)

theorem firstStands_lasting (t : Bytes) : Lasting server (fun p x => x.FirstStands reply m t p)
    fun p => if m.wire.length ≤ p.length then m.answer reply else [] := by
  have hw := waits_lasting ha (fun _ : Bytes => m.wire ++ t) id fun _ => []
  have hd := discards_lasting hp fun _ : Bytes => m.answer reply
  refine ⟨?_, ?_, ?_, ?_⟩
  · rintro p x (⟨hlt, h⟩ | ⟨hle, -, h⟩)
    · rw [if_neg (Nat.not_le.2 hlt)]
      exact hw.conn h
    · rw [if_pos hle]
      exact hd.conn (i := p) h
  · rintro p x (⟨hlt, h⟩ | ⟨hle, hends, h⟩)
    · exact Or.inl ⟨hlt, hw.write h⟩
    · exact Or.inr ⟨hle, hends, hd.write (i := p) h⟩
  · rintro p x (⟨hlt, h⟩ | ⟨hle, hends, h⟩) n
    · exact Or.inl ⟨hlt, hw.drain h n⟩
    · exact Or.inr ⟨hle, hends, hd.drain (i := p) h n⟩
  · rintro p x (⟨hlt, h⟩ | ⟨hle, hends, h⟩) what hwhat
    · exact Or.inl ⟨hlt, hw.event h hwhat⟩
    · exact Or.inr ⟨hle, hends, hd.event (i := p) h hwhat⟩

/-- While the request has not arrived, it waits; from then on nothing is answered. -/
theorem first_run (t : Bytes) (cs : List Callback) (h : x.FirstStands reply m t p)
    (hcame : p ++ (arrivals (heard cs)).flatten <+: m.wire ++ t) :
    (cs.foldl (Exchange.step server) x).AnswersFirst reply m
      (p ++ (arrivals (heard cs)).flatten).length (∀ c ∈ cs, ¬c.HangsUp) := by
  refine Lasting.run (firstStands_lasting ha hp t)
    (M := fun p segs stays x => p ++ segs.flatten <+: m.wire ++ t →
      x.AnswersFirst reply m (p ++ segs.flatten).length stays)
    ?_ ?_ ?_ h cs hcame
  · rintro p x (⟨hlt, h⟩ | ⟨hle, hends, h⟩) -
    · exact answersFirst_waits h (by simpa using hlt)
    · exact answersFirst_discards h (by simpa using hle) hends
  · intro p x h _
    by_cases hle : m.wire.length ≤ p.length
    · rw [if_pos hle] at h
      exact answersFirst_closing h (by simpa using hle) fun _ h => h
    · rw [if_neg hle] at h
      exact answersFirst_left h (by simpa using hle)
  · intro p x seg segs stays x' h ih hclosed hcame
    rw [List.flatten_cons, ← List.append_assoc] at hcame ⊢
    have hseg : p ++ seg <+: m.wire ++ t := (List.prefix_append _ _).trans hcame
    rcases h with ⟨hlt, h⟩ | ⟨hle, hends, h⟩
    · rcases Nat.lt_or_ge (p ++ seg).length m.wire.length with hshort | hlong
      · have hw := waits_short ha h hseg (m.parsed_eq.cuts t) (m.parsed_eq.short hseg hshort)
        exact ih (Or.inl ⟨hshort, hw⟩) hcame
      · rcases waits_last ha hp m t h hseg hlong with ⟨hends, hd⟩ | ⟨hends, hclosing⟩
        · exact ih (Or.inr ⟨hlong, hends, hd⟩) hcame
        · have hn : m.wire.length ≤ (p ++ seg ++ segs.flatten).length := hlong.trans (by simp)
          exact answersFirst_closing (hclosed hclosing) hn (absurd hends)
    · have hle' : m.wire.length ≤ (p ++ seg).length := hle.trans (by simp)
      exact ih (Or.inr ⟨hle', hends, (discards_step hp h (c := .read seg) id).1⟩) hcame

/-- Without pipelining, of a stream that starts with a well-formed request only this one is answered,
once it has arrived, whatever comes behind it and in whatever segments.  If the answer does not close the
connection, it stays until the peer hangs up and discards what arrives, and from the request on nothing is
added to the trace: no hook is called any more. -/
theorem first_request_only (m : Message) (t : Bytes) (world : σ) (cs : List Callback)
    (h : (arrivals (heard cs)).flatten <+: m.wire ++ t) :
    (exchange server world cs).AnswersFirst reply m (arrivals (heard cs)).flatten.length
        (∀ c ∈ cs, ¬c.HangsUp) ∧
      ∀ pre post, cs = pre ++ post → m.wire.length ≤ (arrivals pre).flatten.length →
        ¬m.Ends reply → (∀ c ∈ cs, ¬c.HangsUp) →
          (session server world cs).trace = (session server world pre).trace := by
  have hstart : (exchange server world []).FirstStands reply m t [] :=
    Or.inl ⟨m.wire_length_pos, answering_start ha world _⟩
  refine ⟨first_run ha hp t cs hstart h, ?_⟩
  rintro pre post rfl hwhole hends hall
  obtain ⟨hpre, hpost⟩ := List.forall_mem_append.1 hall
  have hheard : ∀ cs : List Callback, (∀ c ∈ cs, ¬c.HangsUp) → heard cs = cs := fun cs hcs =>
    List.takeWhile_eq_self_iff.2 fun c hc => decide_eq_true (hcs c hc)
  have hpre' : (arrivals (heard pre)).flatten <+: m.wire ++ t := by
    rw [hheard _ hall, arrivals, List.filterMap_append, List.flatten_append] at h
    rw [hheard pre hpre]
    exact (List.prefix_append _ _).trans h
  have hfirst := first_run ha hp t pre hstart hpre'
  rw [List.nil_append, hheard pre hpre] at hfirst
  obtain ⟨out, hdiscards⟩ := hfirst.discards.2 ⟨hwhole, hends, hpre⟩
  have htrace := discards_run hp post hdiscards hpost
  rw [← exchange_session, ← exchange_session, exchange, List.foldl_append]
  exact htrace

end

/-- `helloworld_http_server.c` without options: the second request and what comes behind it are not
answered, and no hook sees them. -/
theorem first_request_greeted :
    let server := { @helloworldHttpServer percentDecoder with options := [] }
    let first : List Callback :=
      [.read (bytes "GET / HT"), .read (bytes "TP/1.1\r\n\r\nGET / HTTP/1.1\r\n\r\n")]
    let x := exchange server () (first ++ [.read (bytes "GET")])
    x.sent = @Message.answer percentDecoder helloworldReply getMessage ∧ (∃ out, x.Discards out) ∧
      (session server () (first ++ [.read (bytes "GET")])).trace = (session server () first).trace := by
  intro server first x
  have hanswering : @HttpAnswering Unit percentDecoder server helloworldReply := by
    refine ⟨_, ?_, helloworldHttp_answering⟩
    dsimp only [server]
    exact @helloworldHttp_hooks percentDecoder
  obtain ⟨⟨hsent, -, hdiscards⟩, htrace⟩ := @first_request_only Unit percentDecoder _ _ hanswering rfl
    getMessage (bytes "GET / HTTP/1.1\r\n\r\nGET") () (first ++ [.read (bytes "GET")])
    (by decide +kernel)
  have hwhole : (@Message.wire percentDecoder getMessage).length ≤
      (arrivals (heard (first ++ [.read (bytes "GET")]))).flatten.length := by
    decide +kernel
  have hends : ¬@Message.Ends percentDecoder helloworldReply getMessage := by
    unfold Message.Ends
    decide +kernel
  refine ⟨?_, hdiscards.2 ⟨hwhole, hends, by decide⟩,
    htrace first _ rfl (by decide +kernel) hends (by decide)⟩
  rw [hsent, if_pos hwhole]

end Asyncd
