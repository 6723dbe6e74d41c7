import Asyncd.Server.Clients

/-!
# The HTTP echo server

The hook of `echo_http_server.c` answers a complete request with its body, but returns `AD_OK`: the
request stays where it is, and what comes behind it is never parsed.  Each further segment calls the hook
again, whose response is refused because the header has been sent.  The hook counts these calls from the
segment that completes the request, and closes the connection at the fourth (`echoHttp_answers`).
-/

open CString ByteLines

namespace Asyncd

namespace EchoHttp

/-- The response: what `ad_http_get_content` returns is passed on to `ad_http_response`. -/
def respond (http : AdHttp) (out : Bytes) : AdHttp × Bytes :=
  let (data, http) := httpGetContent true http 0
  (adHttpResponse http out 200 (some (bytes "text/plain")) data (data.getD []).length).2

/-- `my_conn_handler`.  `userdata` points to the counter; `calloc` and `malloc` are taken to succeed. -/
def myConnHandler (event : Event) (conn : AdConn) (world : Unit) : Option (ℤ × ConnView × Unit) :=
  if event.init then
    some (adOk, adConnSetUserdata conn.toConnView (some (.user 0)) (some (.user 0)), world)
  else if event.read then
    if adHttpGetStatus conn.toConnView = .done then
      match conn.userdata.data, conn.httpState with
      | some (.user counter), some http =>
        let (http, out) := respond http conn.out
        let counter := counter + 1
        some (if counter > 3 then adClose else adOk,
          { conn.toConnView with
            out := out
            userdata.data := some (.user counter) }.setHttp http, world)
      | _, _ => none
    else some (adOk, conn.toConnView, world)
  else some (adOk, conn.toConnView, world)

end EchoHttp

section

variable [UrlDecoder]

/-- The server that `main` sets up, with the options that `ad_server_start` adds. -/
def echoHttpServer : AdServer Unit :=
  let server := adServerSetOption ⟨[], []⟩ (bytes "server.port") (bytes "8888")
  let server := adServerSetOption server (bytes "server.addr") (bytes "0.0.0.0")
  let server := adServerSetOption server (bytes "server.timeout") (bytes "60")
  let server := adServerRegisterHook server (some (adHttpHandler fun _ => true))
  let server := adServerRegisterHook server (some EchoHttp.myConnHandler)
  setUndefinedOptions server

theorem echoHttp_hooks : echoHttpServer.hooks =
    httpHook (fun _ => true) :: [⟨none, some EchoHttp.myConnHandler⟩] :=
  setUndefinedOptions_hooks _

/-! ## The answer -/

theorem Message.parsed_record (m : Message) : m.parsed.record = m.record := by
  obtain ⟨final, hreads, hrecord⟩ := m.reads
  have hwhole := hreads.whole []
  rw [List.append_nil] at hwhole
  rw [Message.parsed, hwhole, hrecord]

/-- The response with the body of a request. -/
def echoHttpAnswer (m : Message) : Bytes :=
  simpleHeader m.parsed 200 (bytes "text/plain") m.body.content.length ++ m.body.content

omit [UrlDecoder] in
theorem httpGetContent_all (http : AdHttp) : httpGetContent true http 0 =
    (if http.request.inbuf = [] then none else some http.request.inbuf, http.setInbuf []) := by
  by_cases hnil : http.request.inbuf = []
  · have hsame : http.setInbuf [] = http := by rw [AdHttp.setInbuf, ← hnil]
    simp [httpGetContent, hnil, hsame]
  · simp [httpGetContent, hnil, evbufferRemove]

omit [UrlDecoder] in
theorem respond_eq (http : AdHttp) (out : Bytes) : EchoHttp.respond http out =
    (adHttpResponse (http.setInbuf []) out 200 (some (bytes "text/plain"))
      (if http.request.inbuf = [] then none else some http.request.inbuf)
      http.request.inbuf.length).2 := by
  rw [EchoHttp.respond, httpGetContent_all]
  by_cases hnil : http.request.inbuf = []
  · simp [hnil]
  · simp [hnil]

omit [UrlDecoder] in
theorem respond_fresh {http : AdHttp} (hr : http.response = freshHttp.response)
    (hbody : http.request.inbuf.length < 2 ^ 63) (out : Bytes) :
    (EchoHttp.respond http out).1.request.status = http.request.status ∧
      (EchoHttp.respond http out).1.response.frozenHeader = true ∧
      (EchoHttp.respond http out).2 = out ++
        simpleHeader http 200 (bytes "text/plain") http.request.inbuf.length ++
          http.request.inbuf := by
  -- the size is passed as an `off_t`
  have hsize : http.request.inbuf.length < 2 ^ 64 := by omega
  have hr' : (http.setInbuf []).response = freshHttp.response := hr
  have hblock : dataBlock (if http.request.inbuf = [] then none else some http.request.inbuf)
      http.request.inbuf.length = http.request.inbuf := by
    split_ifs with hnil
    · rw [hnil]
      rfl
    · exact dataBlock_whole _
  rw [respond_eq, adHttpResponse_writes hr' out 200 (bytes "text/plain") _ hsize, hblock]
  refine ⟨?_, rfl, rfl⟩
  change (prepareResponse (http.setInbuf []) _ _ _).request.status = _
  rw [prepareResponse_request]
  rfl

omit [UrlDecoder] in
theorem respond_frozen {http : AdHttp} (hf : http.response.frozenHeader = true) (out : Bytes) :
    EchoHttp.respond http out = (http.setInbuf [], out) := by
  have hf' : (http.setInbuf []).response.frozenHeader = true := hf
  rw [respond_eq, adHttpResponse, if_pos hf']

/-! ## Dispatches -/

/-- A dispatch that the handler lets through. -/
theorem echoHttp_calls {event : Event} {conn : AdConn} {view view' : ConnView} {st : ℤ}
    (hrun : adHttpHandler (fun _ => true) event conn () = some (adOk, view, ()))
    (h : EchoHttp.myConnHandler event { conn with toConnView := view } () = some (st, view', ())) :
    ∃ visits, callHooks echoHttpServer event conn () =
      (some st, { conn with toConnView := view' }, (), visits) :=
  ⟨_, callHooks_handler_ok echoHttp_hooks hrun (callHooksFrom_last _ rfl rfl h 1)⟩

omit [UrlDecoder] in
theorem echoHttp_idle (conn : AdConn) (h : ∀ http ∈ conn.httpState, http.request.status ≠ .done) :
    EchoHttp.myConnHandler evRead conn () = some (adOk, conn.toConnView, ()) := by
  have hnot : adHttpGetStatus conn.toConnView ≠ .done := by
    intro hd
    obtain ⟨http, hx, hdone⟩ := (adHttpGetStatus_done _).1 hd
    exact h http hx hdone
  simp [EchoHttp.myConnHandler, evRead, hnot]

omit [UrlDecoder] in
theorem echoHttp_done {conn : AdConn} {http : AdHttp} {k : ℕ} (hx : conn.httpState = some http)
    (hdone : http.request.status = .done) (hdata : conn.userdata.data = some (.user k)) :
    EchoHttp.myConnHandler evRead conn () = some (if k + 1 > 3 then adClose else adOk,
      { conn.toConnView with
        out := (EchoHttp.respond http conn.out).2
        userdata.data := some (.user (k + 1)) }.setHttp (EchoHttp.respond http conn.out).1, ()) := by
  have hstatus : adHttpGetStatus conn.toConnView = .done := (adHttpGetStatus_done _).2 ⟨http, hx, hdone⟩
  have hx' : conn.toConnView.httpState = some http := hx
  simp [EchoHttp.myConnHandler, evRead, hstatus, hdata, hx']

/-! ## One segment -/

variable {stream p : Bytes} {conn : AdConn}

/-- A segment with which the request is done, or that comes when it is. -/
theorem echoHttp_read {http final : AdHttp} {k : ℕ} {seg rest : Bytes}
    (hst : conn.status = adOk ∨ conn.status = adTakeover) (hx : conn.httpState = some http)
    (hdata : conn.userdata.data = some (.user k))
    (hread : httpStep http (conn.inb ++ seg) = (final, rest))
    (hdone : final.request.status = .done) :
    ∃ conn' : AdConn, conn'.status = (if k + 1 > 3 then adClose else adOk) ∧
      conn'.userdata.data = some (.user (k + 1)) ∧
      conn'.httpState = some (EchoHttp.respond final conn.out).1 ∧
      conn'.out = (EchoHttp.respond final conn.out).2 ∧
      (callback echoHttpServer (.read seg) conn ()).conn =
        (connCbEnd echoHttpServer evRead conn' ()).conn := by
  let conn₁ : AdConn := { conn with inb := conn.inb ++ seg }
  let conn₂ : AdConn := { conn₁ with toConnView := afterParser conn₁ http }
  have hfinal : httpStep http conn₁.inb = (final, rest) := hread
  have hx₂ : conn₂.httpState = some final := by
    change some (httpStep http conn₁.inb).1 = some final
    rw [hfinal]
  have hrun := adHttpHandler_done (show conn₁.httpState = some http from hx)
    (by rw [hfinal]; exact hdone) ()
  obtain ⟨visits, hcalls⟩ := echoHttp_calls hrun (echoHttp_done hx₂ hdone hdata)
  refine ⟨_, ?_, ?_, ?_, ?_, connCb_conn hcalls hst⟩
  · rfl
  · rfl
  · rfl
  · rfl

theorem echoHttp_short (hw : Waiting stream p conn) (hdata : conn.userdata.data = some (.user 0))
    {seg : Bytes} (hseg : p ++ seg <+: stream) (hcuts : Push.CutsAlong httpStep freshHttp stream)
    (hst : (httpStep freshHttp (p ++ seg)).1.request.status ≠ .done ∧
      (httpStep freshHttp (p ++ seg)).1.request.status ≠ .error) :
    ∃ conn', (callback echoHttpServer (.read seg) conn ()).conn = some conn' ∧
      Waiting stream (p ++ seg) conn' ∧ conn'.userdata.data = some (.user 0) ∧
      conn'.out = conn.out := by
  obtain ⟨http, hx, -, hfeed⟩ := hw.state
  have hread := hfeed seg hseg
  let conn₁ : AdConn := { conn with inb := conn.inb ++ seg }
  obtain ⟨st, visits, hok, hcalls⟩ := handler_short echoHttp_hooks conn₁ hx (hread ▸ hst) ()
    fun conn' hnot => ⟨_, callHooksFrom_last _ rfl rfl (echoHttp_idle conn' hnot) 1⟩
  exact ⟨_, (connCb_conn hcalls hw.status).trans (connCbEnd_open hok ()),
    waiting_afterParser hfeed hseg hcuts hst.1 hok, hdata, rfl⟩

/-! ## Runs -/

/-- The request has been answered, and `k` segments have been counted, from the one that completed it. -/
structure AdConn.Counted (conn : AdConn) (k : ℕ) : Prop where
  status : conn.status = adOk
  counter : conn.userdata.data = some (.user k)
  request : ∃ http, conn.httpState = some http ∧ http.request.status = .done ∧
    http.response.frozenHeader = true

/-- When the bytes of `i` have arrived, the connection waits for the rest of the request, or its segments
are counted. -/
def AdConn.Echoes (conn : AdConn) (m : Message) (t : Bytes) (i : Bytes × ℕ) : Prop :=
  i.2 = 0 ∧ i.1.length < m.wire.length ∧ Waiting (m.wire ++ t) i.1 conn ∧
      conn.userdata.data = some (.user 0) ∨
    i.2 ≠ 0 ∧ i.2 ≤ 3 ∧ m.wire.length ≤ i.1.length ∧ conn.Counted i.2

/-- What has been sent when `n` bytes have arrived. -/
def echoHttpSent (m : Message) (n : ℕ) : Bytes := if m.wire.length ≤ n then echoHttpAnswer m else []

/-- The connection shows how it stands, and what has been sent. -/
def Exchange.Echoing (x : Exchange Unit) (m : Message) (t : Bytes) (i : Bytes × ℕ) : Prop :=
  ∃ conn, x.session.conn = some conn ∧ conn.Echoes m t i ∧
    x.taken ++ conn.out = echoHttpSent m i.1.length

theorem echoing_lasting (m : Message) (t : Bytes) :
    Lasting echoHttpServer (fun i x => x.Echoing m t i) fun i => echoHttpSent m i.1.length := by
  apply lasting_of_conn
  · rintro i conn (⟨-, -, hw, -⟩ | ⟨-, -, -, hc⟩)
    · exact hw.status
    · exact Or.inl hc.status
  · rintro i conn out (⟨hk, hlt, hw, hdata⟩ | ⟨hk, hle, hlen, hc⟩)
    · exact Or.inl ⟨hk, hlt, ⟨hw.status, hw.state⟩, hdata⟩
    · exact Or.inr ⟨hk, hle, hlen, hc.status, hc.counter, hc.request⟩
  · rintro i conn world h
    refine ⟨?_, echoHttp_calls rfl rfl⟩
    rcases h with ⟨hk, hlt, hw, hdata⟩ | ⟨hk, hle, hlen, hc⟩
    · exact Or.inl ⟨hk, hlt, ⟨Or.inl rfl, hw.state⟩, hdata⟩
    · exact Or.inr ⟨hk, hle, hlen, rfl, hc.counter, hc.request⟩

/-- How the exchange stands when `n` bytes have arrived and `k` segments have been counted. -/
structure Exchange.EchoedOnce (x : Exchange Unit) (m : Message) (n k : ℕ) (stays : Prop) : Prop where
  sent : x.sent = echoHttpSent m n
  stays : x.Open ↔ k ≤ 3 ∧ stays

section

variable {m : Message} {t : Bytes} {x : Exchange Unit} {k : ℕ} {seg : Bytes}

theorem echoing_short (h : x.Echoing m t (p, 0)) (hseg : p ++ seg <+: m.wire ++ t)
    (hshort : (p ++ seg).length < m.wire.length) :
    (x.step echoHttpServer (.read seg)).Echoing m t (p ++ seg, 0) := by
  obtain ⟨conn, hconn, ⟨-, hlt, hw, hdata⟩ | ⟨hk, -⟩, hsent⟩ := h
  · have hnext := exchange_step_conn echoHttpServer hconn (c := .read seg) (by simp)
    obtain ⟨conn', hcb, hw', hdata', hout⟩ := echoHttp_short hw hdata hseg (m.parsed_eq.cuts t)
      (m.parsed_eq.short hseg hshort)
    refine ⟨conn', hnext.1.trans hcb, Or.inl ⟨rfl, hshort, hw', hdata'⟩, ?_⟩
    rw [hnext.2, hout, hsent]
    rw [echoHttpSent, if_neg (Nat.not_le.2 hlt), echoHttpSent, if_neg (Nat.not_le.2 hshort)]
  · exact absurd rfl hk

theorem echoing_whole (hbody : m.body.content.length < 2 ^ 63) (h : x.Echoing m t (p, 0))
    (hseg : p ++ seg <+: m.wire ++ t) (hlong : m.wire.length ≤ (p ++ seg).length) :
    (x.step echoHttpServer (.read seg)).Echoing m t (p ++ seg, 1) := by
  obtain ⟨conn, hconn, ⟨-, hlt, hw, hdata⟩ | ⟨hk, -⟩, hsent⟩ := h
  · have hnext := exchange_step_conn echoHttpServer hconn (c := .read seg) (by simp)
    obtain ⟨http, hx, -, hfeed⟩ := hw.state
    obtain ⟨rest, hrest⟩ : m.wire <+: p ++ seg :=
      List.prefix_of_prefix_length_le (List.prefix_append _ _) hseg hlong
    have hread : httpStep http (conn.inb ++ seg) = (m.parsed, rest) := by
      rw [hfeed seg hseg, ← hrest]
      exact m.parsed_eq.whole rest
    obtain ⟨conn', hst, hdata', hx', hout, hend⟩ :=
      echoHttp_read hw.status hx hdata hread m.parsed_eq.done
    have hinbuf : m.parsed.request.inbuf = m.body.content := congrArg Record.body m.parsed_record
    obtain ⟨hstatus, hfrozen, hwritten⟩ := respond_fresh m.parsed_response (hinbuf ▸ hbody) conn.out
    rw [hwritten, hinbuf] at hout
    have hopen : (connCbEnd echoHttpServer evRead conn' ()).conn = some conn' :=
      connCbEnd_open (Or.inl hst) ()
    refine ⟨conn', hnext.1.trans (hend.trans hopen),
      Or.inr ⟨one_ne_zero, by omega, hlong, hst, hdata', _, hx', hstatus.trans m.parsed_eq.done,
        hfrozen⟩, ?_⟩
    rw [hnext.2, hout, echoHttpSent, if_pos hlong, echoHttpAnswer, List.append_assoc,
      ← List.append_assoc, hsent, echoHttpSent, if_neg (Nat.not_le.2 hlt), List.nil_append]
  · exact absurd rfl hk

/-- The segment comes when the request has been answered, and is only counted. -/
theorem echoing_counted (hk : k ≠ 0) (h : x.Echoing m t (p, k)) (seg : Bytes) :
    m.wire.length ≤ p.length ∧
      (k + 1 ≤ 3 ∧ (x.step echoHttpServer (.read seg)).Echoing m t (p ++ seg, k + 1) ∨
        3 < k + 1 ∧ (x.step echoHttpServer (.read seg)).Closing (echoHttpAnswer m)) := by
  obtain ⟨conn, hconn, ⟨hk', -⟩ | ⟨-, hle, hlen, hc⟩, hsent⟩ := h
  · exact absurd hk' hk
  · have hnext := exchange_step_conn echoHttpServer hconn (c := .read seg) (by simp)
    obtain ⟨http, hx, hdone, hfrozen⟩ := hc.request
    have hread : httpStep http (conn.inb ++ seg) = (http, conn.inb ++ seg) := by
      rw [httpStep, httpParser_of_done hdone]
    obtain ⟨conn', hst, hdata, hx', hout, hend⟩ :=
      echoHttp_read (Or.inl hc.status) hx hc.counter hread hdone
    rw [respond_frozen hfrozen] at hx' hout
    rw [echoHttpSent, if_pos hlen] at hsent
    have hlen' : m.wire.length ≤ (p ++ seg).length := hlen.trans (by simp)
    have hsent' : (x.step echoHttpServer (.read seg)).taken ++ conn'.out = echoHttpAnswer m := by
      rw [hnext.2, hout, hsent]
    refine ⟨hlen, ?_⟩
    by_cases hmore : k + 1 ≤ 3
    · rw [if_neg (Nat.not_lt.2 hmore)] at hst
      have hopen : (connCbEnd echoHttpServer evRead conn' ()).conn = some conn' :=
        connCbEnd_open (Or.inl hst) ()
      have hcounted : conn'.Counted (k + 1) := ⟨hst, hdata, _, hx', hdone, hfrozen⟩
      refine Or.inl ⟨hmore, conn', hnext.1.trans (hend.trans hopen),
        Or.inr ⟨Nat.succ_ne_zero k, hmore, hlen', hcounted⟩, ?_⟩
      rw [echoHttpSent, if_pos hlen']
      exact hsent'
    · rw [if_pos (Nat.not_le.1 hmore)] at hst
      exact Or.inr ⟨Nat.not_le.1 hmore, closing_of_cbEnd _ _ (hnext.1.trans hend) hst hsent'⟩

theorem Exchange.Echoing.isOpen (h : x.Echoing m t (p, k)) :
    x.Open ∧ k ≤ 3 ∧ x.sent = echoHttpSent m p.length := by
  obtain ⟨conn, hconn, hechoes, hsent⟩ := h
  have hstands : (conn.status = adOk ∨ conn.status = adTakeover) ∧ k ≤ 3 := by
    rcases hechoes with ⟨hk, -, hw, -⟩ | ⟨-, hle, -, hc⟩
    · exact ⟨hw.status, (Nat.le_of_eq hk).trans (Nat.zero_le 3)⟩
    · exact ⟨Or.inl hc.status, hle⟩
  refine ⟨⟨conn, hconn, hstands.1⟩, hstands.2, ?_⟩
  rw [Exchange.sent, hconn]
  exact hsent

/-- How often a segment comes when the request is complete, the first segment apart. -/
theorem countP_segments (seg : Bytes) (segs : List Bytes) :
    (endsFrom p.length ((seg :: segs).map List.length)).countP (m.wire.length ≤ ·) =
      (endsFrom (p ++ seg).length (segs.map List.length)).countP (m.wire.length ≤ ·) +
        if m.wire.length ≤ (p ++ seg).length then 1 else 0 := by
  rw [List.map_cons, endsFrom, List.countP_cons, ← List.length_append]
  simp only [decide_eq_true_eq]

theorem echoHttp_run (hbody : m.body.content.length < 2 ^ 63) (cs : List Callback)
    (h : x.Echoing m t (p, k)) (hp : p ++ (arrivals (heard cs)).flatten <+: m.wire ++ t) :
    (cs.foldl (Exchange.step echoHttpServer) x).EchoedOnce m
      (p ++ (arrivals (heard cs)).flatten).length
      (k + (readEnds p.length (heard cs)).countP (m.wire.length ≤ ·)) (∀ c ∈ cs, ¬c.HangsUp) := by
  refine Lasting.run (echoing_lasting m t)
    (M := fun i segs stays x => i.1 ++ segs.flatten <+: m.wire ++ t →
      x.EchoedOnce m (i.1 ++ segs.flatten).length
        (i.2 + (endsFrom i.1.length (segs.map List.length)).countP (m.wire.length ≤ ·)) stays)
    ?_ ?_ ?_ (i := (p, k)) h cs hp
  · rintro ⟨p, k⟩ x h -
    obtain ⟨hopen, hk, hsent⟩ := h.isOpen
    exact ⟨by simpa using hsent, iff_of_true hopen ⟨hk, trivial⟩⟩
  · rintro ⟨p, k⟩ x h -
    exact ⟨by simpa using h.2, iff_of_false h.not_isOpen And.right⟩
  · rintro ⟨p, k⟩ x seg segs stays x' h ih hclosed hp
    change x.Echoing m t (p, k) at h
    rw [List.flatten_cons, ← List.append_assoc] at hp ⊢
    rw [countP_segments]
    have hseg : p ++ seg <+: m.wire ++ t := (List.prefix_append _ _).trans hp
    by_cases hk : k = 0
    · subst hk
      by_cases hlong : m.wire.length ≤ (p ++ seg).length
      · have hrun := ih (j := (p ++ seg, 1)) (echoing_whole hbody h hseg hlong) hp
        rw [if_pos hlong, Nat.add_comm _ 1, Nat.zero_add]
        exact hrun
      · rw [if_neg hlong]
        exact ih (j := (p ++ seg, 0)) (echoing_short h hseg (Nat.not_le.1 hlong)) hp
    · obtain ⟨hlen, hnext⟩ := echoing_counted hk h seg
      have hlong : m.wire.length ≤ (p ++ seg).length := hlen.trans (by simp)
      rw [if_pos hlong, Nat.add_comm _ 1, ← Nat.add_assoc]
      rcases hnext with ⟨-, hnext⟩ | ⟨hmore, hclosing⟩
      · exact ih (j := (p ++ seg, k + 1)) hnext hp
      · -- it is the fourth segment
        have hall : m.wire.length ≤ (p ++ seg ++ segs.flatten).length := hlong.trans (by simp)
        refine ⟨?_, iff_of_false (hclosed hclosing).not_isOpen fun h => ?_⟩
        · rw [echoHttpSent, if_pos hall]
          exact (hclosed hclosing).2
        · have hle : k + 1 + _ ≤ 3 := h.1
          omega

theorem echoing_start (m : Message) (t : Bytes) :
    (exchange echoHttpServer () []).Echoing m t ([], 0) := by
  have hhandler : adHttpHandler (fun _ => true) evInitWrite blankConn () = some (adOk,
      adConnSetExtra blankConn.toConnView (some (.http freshHttp)) (some .httpFree), ()) := rfl
  obtain ⟨visits, hinit⟩ := echoHttp_calls hhandler rfl
  have hnew : (exchange echoHttpServer () []).session.conn = _ := dispatch_conn hinit
    fun status conn world => ⟨some { conn with status := status }, world, []⟩
  have hlen : ([] : Bytes).length < m.wire.length := m.wire_length_pos
  refine ⟨_, hnew, Or.inl ⟨rfl, hlen, waiting_fresh rfl rfl _ rfl, rfl⟩, ?_⟩
  rw [echoHttpSent, if_neg (Nat.not_le.2 hlen)]
  rfl

end

/-! ## All clients -/

/-- There is an HTTP state, and the counter is attached. -/
def ConnView.Attached (v : ConnView) : Prop :=
  v.httpState ≠ none ∧ ∃ k, v.userdata.data = some (.user k)

omit [UrlDecoder] in
theorem echoHttp_hook {event : Event} (hi : event.init = false) {conn : AdConn}
    (h : conn.Attached) : ∃ st view,
      EchoHttp.myConnHandler event conn () = some (st, view, ()) ∧ view.Attached := by
  obtain ⟨hx, k, hdata⟩ := id h
  have hinit : ¬event.init = true := by simp [hi]
  unfold EchoHttp.myConnHandler
  rw [if_neg hinit]
  by_cases hread : event.read = true
  · rw [if_pos hread]
    by_cases hdone : adHttpGetStatus conn.toConnView = .done
    · obtain ⟨http, hhttp⟩ := Option.ne_none_iff_exists'.1 hx
      rw [if_pos hdone, hdata, hhttp]
      exact ⟨_, _, rfl, Option.some_ne_none _, k + 1, rfl⟩
    · rw [if_neg hdone]
      exact ⟨_, _, rfl, h⟩
  · rw [if_neg hread]
    exact ⟨_, _, rfl, h⟩

theorem echoHttp_called {event : Event} (hi : event.init = false)
    (he : event.read = false → event.write = true ∨ event.close = true) {conn : AdConn}
    (h : conn.Attached) : ∃ st view visits, callHooks echoHttpServer event conn () =
      (some st, { conn with toConnView := view }, (), visits) ∧ view.Attached := by
  obtain ⟨st, view, hrun, hview⟩ : ∃ st view,
      adHttpHandler (fun _ => true) event conn () = some (st, view, ()) ∧ view.Attached := by
    cases hr : event.read with
    | true =>
      obtain ⟨http, hhttp⟩ := Option.ne_none_iff_exists'.1 h.1
      obtain ⟨st, -, hrun⟩ := adHttpHandler_read (fun _ => true) hi hr hhttp ()
      exact ⟨st, _, hrun, Option.some_ne_none _, h.2⟩
    | false =>
      refine ⟨adOk, conn.toConnView, ?_, h⟩
      rcases he hr with hw | hc
      · simp [adHttpHandler, hi, hr, hw]
      · simp [adHttpHandler, hi, hr, hc]
  by_cases hst : st = adOk
  · subst hst
    have hview' : ({ conn with toConnView := view } : AdConn).Attached := hview
    obtain ⟨st', view', hhook, hview'⟩ := echoHttp_hook hi hview'
    obtain ⟨visits, hcalls⟩ := echoHttp_calls hrun hhook
    exact ⟨st', view', visits, hcalls, hview'⟩
  · exact ⟨st, view, _, callHooks_handler_stop echoHttp_hooks hrun hst, hview⟩

theorem echoHttp_not_exited (cs : List Callback) :
    (session echoHttpServer () cs).exited = false := by
  -- on an event that it does not know, the handler would end the process
  have inv : Invariant echoHttpServer (fun _ _ => True) (fun conn _ => conn.Attached) fun d =>
      d.event.init = true ∨ CbEvent d.event → d.status ≠ none := by
    refine ⟨fun _ => trivial, ?_, ?_, fun _ _ _ h => h, fun _ _ _ _ h => h, fun _ => trivial⟩
    · intro event conn world hinit _
      have hhandler : adHttpHandler (fun _ => true) event conn () = some (adOk,
          adConnSetExtra conn.toConnView (some (.http freshHttp)) (some .httpFree), ()) := if_pos hinit
      obtain ⟨visits, hcalls⟩ := echoHttp_calls hhandler (if_pos hinit)
      rw [hcalls]
      exact ⟨⟨Option.some_ne_none freshHttp, 0, rfl⟩, fun _ => Option.some_ne_none _⟩
    · intro event conn world hi h
      by_cases he : event.read = false → event.write = true ∨ event.close = true
      · obtain ⟨st, view, visits, hcalls, hview⟩ := echoHttp_called hi he h
        rw [hcalls]
        exact ⟨hview, fun _ => Option.some_ne_none st⟩
      · push Not at he
        obtain ⟨hr, hw, hc⟩ := he
        have hhandler : adHttpHandler (fun _ => true) event conn () = none := by
          simp [adHttpHandler, hi, hr, hw, hc]
        rw [callHooks_handler echoHttp_hooks, hhandler]
        refine ⟨h, ?_⟩
        rintro (hinit | rfl | rfl | ⟨t, rfl⟩)
        · simp [hi] at hinit
        · cases hr
        · exact absurd rfl hw
        · exact absurd rfl hc
  rw [← survives_iff]
  intro d hd
  exact (inv.session () cs).2 d hd (session_event echoHttpServer () cs hd)

/-- In whatever order the loop calls back, no callback ends the process.  Every client of
`echo_http_server.c` that sends a well-formed request, and anything behind it, in whatever segments, is
sent the response with the body of that request once it is complete, and nothing else.  Its connection is
open exactly while at most three segments came since then, that of the end of the request included, and it
does not hang up. -/
theorem echoHttp_answers (handles : Handles) (steps : List LoopStep) :
    ∃ s, loopRun echoHttpServer ⟨handles, [], [], ()⟩ steps = some s ∧
      ∀ k < accepts steps, ∀ (m : Message) (t : Bytes), m.body.content.length < 2 ^ 63 →
        (arrivals (heard (callbacksOf k steps))).flatten <+: m.wire ++ t →
        s.sentTo k (received echoHttpServer k ⟨handles, [], [], ()⟩ steps) =
            echoHttpSent m (arrivals (heard (callbacksOf k steps))).flatten.length ∧
          ((∃ conn trace, s.conns[k]? = some ⟨some conn, trace⟩ ∧
              (conn.status = adOk ∨ conn.status = adTakeover)) ↔
            (readEnds 0 (heard (callbacksOf k steps))).countP (m.wire.length ≤ ·) ≤ 3 ∧
              ∀ c ∈ callbacksOf k steps, ¬c.HangsUp) := by
  obtain ⟨s, hrun, hclients⟩ := loopRun_clients echoHttp_not_exited handles steps
  refine ⟨s, hrun, fun k hk m t hbody hm => ?_⟩
  obtain ⟨hsent, hconn⟩ := hclients k hk
  have hechoed := echoHttp_run hbody (callbacksOf k steps) (echoing_start m t) hm
  rw [List.nil_append, Nat.zero_add] at hechoed
  exact ⟨hsent.trans hechoed.sent, (conn_open_iff hconn).trans hechoed.stays⟩

end

/-- A request with a body of three bytes, and three segments behind it. -/
theorem echoHttp_answers_put :
    let head := bytes "PUT / HTTP/1.1\r\nContent-Length: 3\r\n\r\n"
    let steps : List LoopStep := [.accept, .callback 0 (.read (head ++ bytes "a")),
      .callback 0 (.read (bytes "bcGET")), .callback 0 (.read (bytes "x")),
      .callback 0 (.read (bytes "y")), .callback 0 (.read (bytes "z"))]
    ∃ m : @Message percentDecoder, @Message.wire percentDecoder m = head ++ bytes "abc" ∧
      ∃ s, loopRun (@echoHttpServer percentDecoder) ⟨⟨none, none, none, none, none⟩, [], [], ()⟩ steps =
          some s ∧
        s.sentTo 0 (received (@echoHttpServer percentDecoder) 0
          ⟨⟨none, none, none, none, none⟩, [], [], ()⟩ steps) = @echoHttpAnswer percentDecoder m ∧
        ¬∃ conn trace, s.conns[0]? = some ⟨some conn, trace⟩ ∧
          (conn.status = adOk ∨ conn.status = adTakeover) := by
  intro head steps
  let f : Field := ⟨bytes "Content-Length", bytes " 3", crlf, by decide, by decide, by decide,
    isEol_crlf _⟩
  let h : FieldHead := ⟨⟨bytes "PUT / HTTP/1.1", crlf, by decide, isEol_crlf _⟩, [f], crlf,
    isEol_crlf _⟩
  have hacc : @RequestHead.Accepted percentDecoder h.head := by
    unfold RequestHead.Accepted
    decide +kernel
  have ha : @FieldHead.Announces percentDecoder h 3 :=
    @FieldHead.Announces.mk percentDecoder h 3 hacc
      ⟨f, rfl, by decide +kernel, by decide +kernel, by decide +kernel⟩ (by decide)
  let m : @Message percentDecoder := @Message.mk percentDecoder h (.sized (bytes "abc")) ha
  have hhead : h.head.wire = head := by decide +kernel
  have hwire : @Message.wire percentDecoder m = head ++ bytes "abc" :=
    congrArg (· ++ bytes "abc") hhead
  obtain ⟨s, hrun, hclients⟩ :=
    @echoHttp_answers percentDecoder ⟨none, none, none, none, none⟩ steps
  obtain ⟨hsent, hopen⟩ := hclients 0 (by decide) m (bytes "GETxyz")
    (show (bytes "abc").length < 2 ^ 63 by decide) (by rw [hwire]; decide +kernel)
  refine ⟨m, hwire, s, hrun, ?_, ?_⟩
  · refine hsent.trans (if_pos ?_)
    rw [hwire]
    decide +kernel
  · rw [hopen, hwire]
    decide +kernel

end Asyncd
