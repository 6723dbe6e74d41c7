import Asyncd.Lib.Serving
import Asyncd.Http.Message
import Asyncd.Server.Handler

/-!
# Pipelined requests

A server with pipelining on, `ad_http_handler`, and a hook that records every complete request and
answers it.  One callback serves at most one request (`step_read_whole`), so the requests of a stream
are recorded as `Serving.serve` serves them, and `pipelining_recorded_iff` says when that is all.
-/

open CString ByteLines

namespace Asyncd

/-! ## The hook -/

/-- A hook that records a complete request, answers it and returns `AD_DONE`. -/
def recordingHook (answer : AdConn → List Record → List ResponseCall) : UserHook (List Record) where
  method := none
  cb := some fun event conn log =>
    match conn.httpState with
    | none => some ([], adOk, log)
    | some http =>
      if event.read ∧ http.request.status = .done then
        some ((answer conn log).map .respond, adDone, log ++ [http.record])
      else some ([], adOk, log)

/-- Response calls on a connection with an HTTP state. -/
def ConnView.respond (v : ConnView) (http : AdHttp) (cs : List ResponseCall) : ConnView :=
  { v with out := (runResponse http v.out cs).2 }.setHttp (runResponse http v.out cs).1

theorem ConnView.setHttp_self {v : ConnView} {http : AdHttp} (hx : v.httpState = some http) :
    v.setHttp http = v := by
  have hdata : v.extra.data = some (.http http) := by
    unfold ConnView.httpState at hx
    split at hx
    · rwa [← Option.some.inj hx]
    · cases hx
  rw [ConnView.setHttp, ← hdata]

theorem runCalls_respond {v : ConnView} {http : AdHttp} (hx : v.httpState = some http)
    (cs : List ResponseCall) : runCalls v (cs.map .respond) = some (v.respond http cs) := by
  induction cs generalizing v http with
  | nil => exact congrArg some (ConnView.setHttp_self hx).symm
  | cons c cs ih =>
    have hrun : (UserCall.respond c).run v =
        some ({ v with out := (c.run http v.out).2 }.setHttp (c.run http v.out).1) := by
      simp [UserCall.run, ConnView.withHttp, hx]
    rw [List.map_cons, runCalls_cons hrun]
    exact ih (ConnView.setHttp_httpState _ _)

theorem callHooksFrom_last {σ : Type} (hook : AdHook σ) {cb} (hcb : hook.cb = some cb)
    (hm : hook.method = none) {event : Event} {conn : AdConn} {world world' : σ} {st : ℤ}
    {view : ConnView} (hrun : cb event conn world = some (st, view, world')) (i : ℕ) :
    callHooksFrom event i [hook] conn world =
      (some st, { conn with toConnView := view }, world', [⟨i, true, conn⟩]) := by
  simp only [callHooksFrom, hcb, hm, Option.isSome_none, Bool.false_eq_true, false_and, if_false,
    hrun]
  split_ifs with hst
  · rfl
  · rw [not_not.1 hst]

section

variable (answer : AdConn → List Record → List ResponseCall) {event : Event} {conn : AdConn}
  (log : List Record)

theorem recordingHook_idle
    (h : ∀ http ∈ conn.httpState, ¬(event.read = true ∧ http.request.status = .done)) :
    callHooksFrom event 1 ([recordingHook answer].map UserHook.hook) conn log =
      (some adOk, conn, log, [⟨1, true, conn⟩]) := by
  refine callHooksFrom_last (recordingHook answer).hook rfl rfl ?_ 1
  cases hx : conn.httpState with
  | none => simp [hx, runCalls]
  | some http => simp [hx, runCalls, h http hx]

theorem recordingHook_done (conn : AdConn) {http : AdHttp} (hx : conn.httpState = some http)
    (hdone : http.request.status = .done) :
    ∃ view : ConnView, view.inb = conn.inb ∧
      callHooksFrom evRead 1 ([recordingHook answer].map UserHook.hook) conn log =
        (some adDone, { conn with toConnView := view }, log ++ [http.record], [⟨1, true, conn⟩]) := by
  have hview := runCalls_respond hx (answer conn log)
  refine ⟨conn.toConnView.respond http (answer conn log), rfl,
    callHooksFrom_last (recordingHook answer).hook rfl rfl ?_ 1⟩
  simp [hx, hdone, evRead, hview]

end

/-! ## The handler in front of other hooks -/

section

variable {σ : Type} [UrlDecoder] {server : AdServer σ} {hooks : List (AdHook σ)} {event : Event}

/-- On WRITE and CLOSE nothing is done, if the other hooks do nothing. -/
theorem handler_idle (hhooks : server.hooks = httpHook (fun _ => true) :: hooks)
    (he : event = evWrite ∨ ∃ t, event = evClose t) {conn : AdConn} {world : σ}
    (hidle : ∃ visits, callHooksFrom event 1 hooks conn world = (some adOk, conn, world, visits)) :
    ∃ visits, callHooks server event conn world = (some adOk, conn, world, visits) := by
  have hrun : adHttpHandler (fun _ => true) event conn world =
      some (adOk, conn.toConnView, world) := by
    obtain rfl | ⟨t, rfl⟩ := he <;> rfl
  obtain ⟨visits, hrest⟩ := hidle
  exact ⟨_, callHooks_handler_ok hhooks hrun hrest⟩

theorem handler_init (hhooks : server.hooks = httpHook (fun _ => true) :: hooks)
    (he : event = evInitWrite ∨ event = evInit) (conn : AdConn) (world : σ)
    (hidle : ∀ conn' : AdConn, ∃ visits,
      callHooksFrom event 1 hooks conn' world = (some adOk, conn', world, visits)) :
    ∃ visits, callHooks server event conn world =
      (some adOk, { conn with extra := ⟨some (.http freshHttp), some .httpFree⟩ }, world, visits) := by
  have hrun : adHttpHandler (fun _ => true) event conn world = some (adOk,
      adConnSetExtra conn.toConnView (some (.http freshHttp)) (some .httpFree), world) := by
    obtain rfl | rfl := he <;> rfl
  obtain ⟨visits, hrest⟩ := hidle
    { conn with extra := ⟨some (.http freshHttp), some .httpFree⟩ }
  exact ⟨_, callHooks_handler_ok hhooks hrun hrest⟩

omit [UrlDecoder] in
theorem not_read_of_idle (he : event = evWrite ∨ ∃ t, event = evClose t) : event.read = false := by
  obtain rfl | ⟨t, rfl⟩ := he <;> rfl

omit [UrlDecoder] in
theorem not_read_of_init (he : event = evInitWrite ∨ event = evInit) : event.read = false := by
  obtain rfl | rfl := he <;> rfl

theorem adHttpHandler_done {conn : AdConn} {http : AdHttp} (hx : conn.httpState = some http)
    (hdone : (httpStep http conn.inb).1.request.status = .done) (world : σ) :
    adHttpHandler (fun _ => true) evRead conn world = some (adOk, afterParser conn http, world) := by
  obtain ⟨st, hret, hrun⟩ :=
    adHttpHandler_read (fun _ => true) (show evRead.init = false from rfl) rfl hx world
  have hline : HasLine http conn.inb := by
    by_contra hn
    have hinit := (Classical.not_imp.1 hn).1
    rw [httpStep, httpParser_of_not_hasLine hn] at hdone
    exact absurd (hinit.symm.trans hdone) (by decide)
  have hok := ((parserLaw_iff http conn.inb).2 hline).ok.2 hdone
  rw [hrun, ParserExit.ret.inj (hret.symm.trans hok)]

/-- Bytes that do not complete the request, where the other hooks do nothing then. -/
theorem handler_short (hhooks : server.hooks = httpHook (fun _ => true) :: hooks) (conn : AdConn)
    {http : AdHttp} (hx : conn.httpState = some http)
    (hst : (httpStep http conn.inb).1.request.status ≠ .done ∧
      (httpStep http conn.inb).1.request.status ≠ .error) (world : σ)
    (hidle : ∀ conn' : AdConn, (∀ http ∈ conn'.httpState, http.request.status ≠ .done) →
      ∃ visits, callHooksFrom evRead 1 hooks conn' world = (some adOk, conn', world, visits)) :
    ∃ st visits, (st = adOk ∨ st = adTakeover) ∧ callHooks server evRead conn world =
      (some st, { conn with toConnView := afterParser conn http }, world, visits) := by
  obtain ⟨st, hret, hrun⟩ :=
    adHttpHandler_read (fun _ => true) (show evRead.init = false from rfl) rfl hx world
  by_cases hok : st = adOk
  · subst hok
    obtain ⟨visits, hrest⟩ := hidle { conn with toConnView := afterParser conn http } fun _ h hd => by
      cases h
      exact hst.1 hd
    exact ⟨adOk, _, Or.inl rfl, callHooks_handler_ok hhooks hrun hrest⟩
  · refine ⟨st, _, Or.inr ?_, callHooks_handler_stop hhooks hrun hok⟩
    have hline : HasLine http conn.inb := by
      by_contra hn
      rw [httpParser_of_not_hasLine hn] at hret
      exact hok (ParserExit.ret.inj hret).symm
    obtain h | h | h := httpParser_ret http conn.inb
    · exact absurd (ParserExit.ret.inj (hret.symm.trans h)) hok
    · exact absurd (((parserLaw_iff http conn.inb).2 hline).close.1 h) hst.2
    · exact ParserExit.ret.inj (hret.symm.trans h)

end

/-! ## Dispatches -/

section

variable [UrlDecoder]

/-- `ad_http_handler` and the recording hook. -/
structure RecordingServer (server : AdServer (List Record)) : Prop where
  pipelining : server.pipelining = true
  hooks : ∃ answer, server.hooks =
    httpHook (fun _ => true) :: [recordingHook answer].map UserHook.hook

variable {server : AdServer (List Record)} (hs : RecordingServer server)

include hs

theorem calls_idle {event : Event} (he : event = evWrite ∨ event = evClose false) (conn : AdConn)
    (log : List Record) :
    ∃ visits, callHooks server event conn log = (some adOk, conn, log, visits) := by
  obtain ⟨answer, hhooks⟩ := hs.hooks
  have he' : event = evWrite ∨ ∃ t, event = evClose t := he.imp_right fun h => ⟨_, h⟩
  apply handler_idle hhooks he'
  exact ⟨_, recordingHook_idle answer log fun _ _ h => by simp [not_read_of_idle he'] at h⟩

theorem calls_init {event : Event} (he : event = evInitWrite ∨ event = evInit) (conn : AdConn)
    (log : List Record) :
    ∃ visits, callHooks server event conn log =
      (some adOk, { conn with extra := ⟨some (.http freshHttp), some .httpFree⟩ }, log, visits) := by
  obtain ⟨answer, hhooks⟩ := hs.hooks
  apply handler_init hhooks he conn log
  intro conn'
  exact ⟨_, recordingHook_idle answer log fun _ _ h => by simp [not_read_of_init he] at h⟩

theorem calls_read_short (conn : AdConn) {http : AdHttp} (hx : conn.httpState = some http)
    (hst : (httpStep http conn.inb).1.request.status ≠ .done ∧
      (httpStep http conn.inb).1.request.status ≠ .error) (log : List Record) :
    ∃ st visits, (st = adOk ∨ st = adTakeover) ∧ callHooks server evRead conn log =
      (some st, { conn with toConnView := afterParser conn http }, log, visits) := by
  obtain ⟨answer, hhooks⟩ := hs.hooks
  apply handler_short hhooks conn hx hst log
  intro conn' hnot
  exact ⟨_, recordingHook_idle answer log fun http hx hd => hnot http hx hd.2⟩

theorem calls_read_whole (conn : AdConn) {http : AdHttp} (hx : conn.httpState = some http)
    (hdone : (httpStep http conn.inb).1.request.status = .done) (log : List Record) :
    ∃ (view : ConnView) (visits : List Visit), view.inb = (httpStep http conn.inb).2 ∧
      callHooks server evRead conn log = (some adDone, { conn with toConnView := view },
        log ++ [(httpStep http conn.inb).1.record], visits) := by
  obtain ⟨answer, hhooks⟩ := hs.hooks
  obtain ⟨view, hinb, hrec⟩ := recordingHook_done answer log
    { conn with toConnView := afterParser conn http } rfl hdone
  exact ⟨view, _, hinb, callHooks_handler_ok hhooks (adHttpHandler_done hx hdone log) hrec⟩

/-! ## Callbacks -/

omit [UrlDecoder] hs in
theorem dispatch_of_calls {event : Event} {conn conn' : AdConn} {log log' : List Record} {st : ℤ}
    {visits : List Visit}
    (h : callHooks server event conn log = (some st, conn', log', visits))
    (next : ℤ → AdConn → List Record → Session (List Record)) :
    dispatch server event conn log next =
      (next st conn' log').after [.dispatch ⟨event, conn, visits, some st⟩] := by
  rw [dispatch, h]

/-- The session has this connection and this log. -/
def Session.At (s : Session (List Record)) (conn : AdConn) (log : List Record) : Prop :=
  s.conn = some conn ∧ s.world = log

omit [UrlDecoder] hs in
theorem connCb_open {event : Event} {conn conn' : AdConn} {log log' : List Record} {st : ℤ}
    {visits : List Visit} (h : callHooks server event conn log = (some st, conn', log', visits))
    (hconn : conn.status = adOk ∨ conn.status = adTakeover) (hconn' : conn'.status = conn.status) :
    connCb server event conn log =
      (connCbEnd server event { conn' with status := st } log').after
        [.dispatch ⟨event, conn, visits, some st⟩] := by
  have hupd : ¬(conn'.status = adClose ∨ conn'.status = adDone ∧ conn'.status ≥ st) := by
    rw [hconn']
    exact status_replaced hconn st
  rw [connCb, if_pos hconn, dispatch_of_calls h, if_pos hupd]

omit [UrlDecoder] hs in
theorem connCb_wait {event : Event} {conn conn' : AdConn} {log log' : List Record} {st : ℤ}
    {visits : List Visit} (h : callHooks server event conn log = (some st, conn', log', visits))
    (hconn : conn.status = adOk ∨ conn.status = adTakeover) (hconn' : conn'.status = conn.status)
    (hst : st = adOk ∨ st = adTakeover) :
    (connCb server event conn log).At { conn' with status := st } log' := by
  rw [connCb_open h hconn hconn', connCbEnd]
  obtain rfl | rfl := hst <;> exact ⟨rfl, rfl⟩

theorem connCb_done {conn conn' : AdConn} {log log' : List Record} {visits : List Visit}
    (h : callHooks server evRead conn log = (some adDone, conn', log', visits))
    (hconn : conn.status = adOk ∨ conn.status = adTakeover) (hconn' : conn'.status = conn.status) :
    ∃ conn'', (connCb server evRead conn log).At conn'' log' ∧ conn''.status = adOk ∧
      conn''.httpState = some freshHttp ∧ conn''.inb = conn'.inb := by
  obtain ⟨visits₁, hclose⟩ := calls_idle hs (Or.inr rfl) { conn' with status := adDone } log'
  obtain ⟨visits₂, hinit⟩ := calls_init hs (Or.inr rfl)
    (connReset { conn' with status := adDone }).1 log'
  rw [connCb_open h hconn hconn', connCbEnd, if_pos rfl, if_pos hs.pipelining,
    dispatch_of_calls hclose, dispatch_of_calls hinit]
  exact ⟨_, ⟨rfl, rfl⟩, rfl, rfl, rfl⟩

/-! ## A connection that waits for a request -/

/-- The connection waits for the rest of a request on `stream` of which `p` has arrived. -/
structure Waiting (stream p : Bytes) (conn : AdConn) : Prop where
  status : conn.status = adOk ∨ conn.status = adTakeover
  state : ∃ http, conn.httpState = some http ∧ http.request.status ≠ .done ∧
    ∀ x, p ++ x <+: stream → httpStep http (conn.inb ++ x) = httpStep freshHttp (p ++ x)

omit hs in
theorem waiting_fresh {conn : AdConn} (hst : conn.status = adOk)
    (hx : conn.httpState = some freshHttp) (stream : Bytes) {p : Bytes} (hp : conn.inb = p) :
    Waiting stream p conn :=
  ⟨Or.inl hst, freshHttp, hx, by decide, fun _ _ => by rw [hp]⟩

omit hs in
/-- The parser has taken a segment that leaves the request incomplete. -/
theorem waiting_afterParser {stream p seg : Bytes} {conn : AdConn} {http : AdHttp} {st : ℤ}
    (hfeed : ∀ y, p ++ y <+: stream → httpStep http (conn.inb ++ y) = httpStep freshHttp (p ++ y))
    (hseg : p ++ seg <+: stream) (hcuts : Push.CutsAlong httpStep freshHttp stream)
    (hst : (httpStep freshHttp (p ++ seg)).1.request.status ≠ .done)
    (hok : st = adOk ∨ st = adTakeover) :
    let conn' : AdConn := { conn with inb := conn.inb ++ seg }
    Waiting stream (p ++ seg) { conn' with toConnView := afterParser conn' http, status := st } := by
  have hread := hfeed seg hseg
  refine ⟨hok, (httpStep http (conn.inb ++ seg)).1, rfl, ?_, ?_⟩
  · rw [hread]
    exact hst
  · intro y hy
    change Push.feed httpStep (httpStep http (conn.inb ++ seg)) y = _
    rw [hread]
    exact hcuts _ _ hy

/-- The session waits, with the log `log`. -/
def Session.Waits (s : Session (List Record)) (log : List Record) (stream p : Bytes) : Prop :=
  ∃ conn, s.At conn log ∧ Waiting stream p conn

omit [UrlDecoder] hs in
theorem Session.At.step {s : Session (List Record)} {conn : AdConn} {log : List Record}
    (h : s.At conn log) (c : Callback) {conn' : AdConn} {log' : List Record}
    (hc : (callback server c conn log).At conn' log') : (s.step server c).At conn' log' := by
  obtain ⟨hconn, rfl⟩ := h
  rw [Session.step, hconn]
  exact hc

theorem start_waits (stream : Bytes) : (session server [] []).Waits [] stream [] := by
  obtain ⟨visits, hinit⟩ := calls_init hs (Or.inl rfl) blankConn []
  have hnew : session server [] [] = _ := dispatch_of_calls hinit fun status conn world =>
    ⟨some { conn with status := status }, world, []⟩
  rw [hnew]
  exact ⟨_, ⟨rfl, rfl⟩, waiting_fresh rfl rfl stream rfl⟩

variable {s : Session (List Record)} {log : List Record} {stream p : Bytes}

theorem step_write (h : s.Waits log stream p) : (s.step server .write).Waits log stream p := by
  obtain ⟨conn, hat, hst, hstate⟩ := h
  obtain ⟨visits, hidle⟩ := calls_idle hs (Or.inl rfl) conn log
  exact ⟨_, hat.step .write (connCb_wait hidle hst rfl (Or.inl rfl)), Or.inl rfl, hstate⟩

omit hs in
theorem step_drain (h : s.Waits log stream p) (n : ℕ) :
    (s.step server (.drain n)).Waits log stream p := by
  obtain ⟨conn, hat, hst, hstate⟩ := h
  exact ⟨_, hat.step (.drain n) ⟨rfl, rfl⟩, hst, hstate⟩

theorem step_read_short (h : s.Waits log stream p) {seg : Bytes} (hseg : p ++ seg <+: stream)
    (hcuts : Push.CutsAlong httpStep freshHttp stream)
    (hst : (httpStep freshHttp (p ++ seg)).1.request.status ≠ .done ∧
      (httpStep freshHttp (p ++ seg)).1.request.status ≠ .error) :
    (s.step server (.read seg)).Waits log stream (p ++ seg) := by
  obtain ⟨conn, hat, hconn, http, hx, -, hfeed⟩ := h
  have hstep := hfeed seg hseg
  obtain ⟨st, visits, hok, hcalls⟩ := calls_read_short hs
    { conn with inb := conn.inb ++ seg } hx (hstep ▸ hst) log
  exact ⟨_, hat.step (.read seg) (connCb_wait hcalls hconn rfl hok),
    waiting_afterParser hfeed hseg hcuts hst.1 hok⟩

/-- A segment that completes the request: the request is recorded, and what is left of the segment
waits, whatever it is. -/
theorem step_read_whole (h : s.Waits log stream p) {seg t : Bytes} (hseg : p ++ seg <+: stream)
    {final : AdHttp} (hfinal : httpStep freshHttp (p ++ seg) = (final, t))
    (hdone : final.request.status = .done) (stream' : Bytes) :
    (s.step server (.read seg)).Waits (log ++ [final.record]) stream' t := by
  obtain ⟨conn, hat, hconn, http, hx, -, hfeed⟩ := h
  have hstep := (hfeed seg hseg).trans hfinal
  obtain ⟨view, visits, hinb, hcalls⟩ := calls_read_whole hs
    { conn with inb := conn.inb ++ seg } hx (by rw [hstep]; exact hdone) log
  rw [hstep] at hinb hcalls
  obtain ⟨conn', hat', hst', hx', hinb'⟩ := connCb_done hs hcalls hconn rfl
  refine ⟨conn', hat.step (.read seg) hat', ?_⟩
  exact waiting_fresh hst' hx' stream' (hinb'.trans hinb)

/-! ## Runs -/

/-- The bytes of some requests. -/
def wires (ms : List Message) : Bytes := ms.flatMap Message.wire

/-- One callback, when the requests `ms` are still to be read and `p` of them has arrived.  At most one
of them is recorded. -/
theorem step_read (ms : List Message) (h : s.Waits log (wires ms) p) {seg : Bytes}
    (hseg : p ++ seg <+: wires ms) :
    (s.step server (.read seg)).Waits log (wires ms) (p ++ seg) ∧
        (∀ m ∈ ms.head?, (p ++ seg).length < m.wire.length) ∨
      ∃ m ms' t, ms = m :: ms' ∧ p ++ seg = m.wire ++ t ∧
        (s.step server (.read seg)).Waits (log ++ [m.record]) (wires ms') t := by
  cases ms with
  | nil =>
    have hnil : p ++ seg = [] := List.prefix_nil.1 hseg
    refine Or.inl ⟨?_, by simp⟩
    apply step_read_short hs h hseg
    · intro q x hq
      obtain ⟨rfl, rfl⟩ := List.append_eq_nil_iff.1 (List.prefix_nil.1 hq)
      rw [Push.CutAt, Push.feed, httpStep_nil, List.append_nil, httpStep_nil]
    · rw [hnil, httpStep_nil]
      exact ⟨by decide, by decide⟩
  | cons m ms =>
    obtain ⟨final, hreads, hrec⟩ := m.reads
    have hwires : wires (m :: ms) = m.wire ++ wires ms := rfl
    obtain hshort | hlong := Nat.lt_or_ge (p ++ seg).length m.wire.length
    · left
      refine ⟨step_read_short hs h hseg (hwires ▸ hreads.cuts _) (hreads.short (hwires ▸ hseg) hshort),
        ?_⟩
      rintro _ ⟨⟩
      exact hshort
    · obtain ⟨t, ht⟩ : m.wire <+: p ++ seg :=
        List.prefix_of_prefix_length_le ⟨wires ms, hwires.symm⟩ hseg hlong
      refine Or.inr ⟨m, ms, t, rfl, ht.symm, ?_⟩
      rw [← hrec]
      exact step_read_whole hs h hseg (by rw [← ht]; exact hreads.whole t) hreads.done (wires ms)

end

/-- The ends of parts of given lengths that follow each other from `n` on. -/
def endsFrom (n : ℕ) : List ℕ → List ℕ
  | [] => []
  | a :: l => (n + a) :: endsFrom (n + a) l

theorem length_endsFrom (n : ℕ) (l : List ℕ) : (endsFrom n l).length = l.length := by
  induction l generalizing n with
  | nil => rfl
  | cons a l ih => rw [endsFrom, List.length_cons, ih, List.length_cons]

theorem le_of_mem_endsFrom {n : ℕ} {l : List ℕ} : ∀ e ∈ endsFrom n l, n ≤ e := by
  induction l generalizing n with
  | nil => simp [endsFrom]
  | cons a l ih =>
    intro e he
    obtain rfl | he := List.mem_cons.1 he
    · omega
    · have hle := ih e he
      omega

theorem endsFrom_sorted (n : ℕ) (l : List ℕ) : (endsFrom n l).Pairwise (· ≤ ·) := by
  induction l generalizing n with
  | nil => exact List.Pairwise.nil
  | cons a l ih => exact List.pairwise_cons.2 ⟨le_of_mem_endsFrom, ih (n + a)⟩

/-- The segments of the read callbacks. -/
def arrivals (cs : List Callback) : List Bytes :=
  cs.filterMap fun
    | .read seg => some seg
    | _ => none

section

variable [UrlDecoder]

/-- Where the requests end in the stream. -/
def requestEnds (n : ℕ) (ms : List Message) : List ℕ := endsFrom n (ms.map fun m => m.wire.length)

theorem length_requestEnds (n : ℕ) (ms : List Message) : (requestEnds n ms).length = ms.length := by
  rw [requestEnds, length_endsFrom, List.length_map]

/-- How much of the stream has arrived at each read callback. -/
def readEnds (n : ℕ) (cs : List Callback) : List ℕ := endsFrom n ((arrivals cs).map List.length)

omit [UrlDecoder] in
theorem readEnds_read (n : ℕ) (seg : Bytes) (cs : List Callback) :
    readEnds n (.read seg :: cs) = (n + seg.length) :: readEnds (n + seg.length) cs := rfl

theorem serve_requestEnds_of_lt {n e : ℕ} {ms : List Message}
    (h : ∀ m ∈ ms.head?, e < n + m.wire.length) (es : List ℕ) :
    Serving.serve (requestEnds n ms) (e :: es) = Serving.serve (requestEnds n ms) es := by
  cases ms with
  | nil =>
    rw [show requestEnds n [] = [] from rfl, Serving.serve_nil_left, Serving.serve_nil_left]
  | cons m ms => exact Serving.serve_of_lt (h m rfl) _ _

/-- A run records the requests that `serve` serves: `n` bytes have been read and recorded, and `p` of
the requests `ms` has arrived. -/
theorem run_records {server : AdServer (List Record)} (hs : RecordingServer server)
    {cs : List Callback} (hcs : ∀ c ∈ cs, ∀ what, c ≠ .event what) (ms : List Message)
    {s : Session (List Record)} {log : List Record} {p : Bytes} (h : s.Waits log (wires ms) p)
    (hp : p ++ (arrivals cs).flatten = wires ms) (n : ℕ) :
    (cs.foldl (Session.step server) s).world = log ++ (ms.take (ms.length -
      (Serving.serve (requestEnds n ms) (readEnds (n + p.length) cs)).length)).map
        Message.record := by
  induction cs generalizing s log p ms n with
  | nil =>
    obtain ⟨conn, hat, -⟩ := h
    rw [readEnds, show arrivals [] = [] from rfl, List.map_nil, endsFrom, Serving.serve_nil_right,
      length_requestEnds, Nat.sub_self]
    simpa using hat.2
  | cons c cs ih =>
    obtain ⟨hc, hcs'⟩ := List.forall_mem_cons.1 hcs
    cases c with
    | event what => exact absurd rfl (hc what)
    | write => exact ih hcs' ms (step_write hs h) hp n
    | drain k => exact ih hcs' ms (step_drain h k) hp n
    | read seg =>
      have harr : arrivals (.read seg :: cs) = seg :: arrivals cs := rfl
      rw [harr, List.flatten_cons, ← List.append_assoc] at hp
      rw [List.foldl_cons, readEnds_read, Nat.add_assoc, ← List.length_append]
      rcases step_read hs ms h ⟨_, hp⟩ with ⟨hw, hshort⟩ | ⟨m, ms, t, rfl, ht, hw⟩
      · rw [serve_requestEnds_of_lt fun m hm => Nat.add_lt_add_left (hshort m hm) n]
        exact ih hcs' ms hw hp n
      · -- the first request is served, and what is left of the segment waits
        have hlen : (p ++ seg).length = m.wire.length + t.length := by rw [ht, List.length_append]
        have hp' : t ++ (arrivals cs).flatten = wires ms := by
          rw [ht, List.append_assoc] at hp
          exact List.append_cancel_left hp
        have hrun := ih hcs' ms hw hp' (n + m.wire.length)
        rw [Nat.add_assoc, ← hlen] at hrun
        have hle := Serving.serve_length_le (requestEnds (n + m.wire.length) ms)
          (readEnds (n + (p ++ seg).length) cs)
        rw [length_requestEnds] at hle
        have hserve : Serving.serve (requestEnds n (m :: ms))
            ((n + (p ++ seg).length) :: readEnds (n + (p ++ seg).length) cs) =
              Serving.serve (requestEnds (n + m.wire.length) ms)
                (readEnds (n + (p ++ seg).length) cs) :=
          Serving.serve_of_le
            (show n + m.wire.length ≤ n + (p ++ seg).length by rw [hlen]; omega) _ _
        rw [hserve, hrun, List.length_cons, Nat.sub_add_comm hle, List.take_succ_cons, List.map_cons,
          List.append_assoc]
        rfl

/-- With pipelining on, every request of a stream is recorded, and nothing else, exactly if for each
request enough read callbacks come once it has arrived. -/
theorem pipelining_recorded_iff {server : AdServer (List Record)} (hs : RecordingServer server)
    (ms : List Message) (cs : List Callback) (hcs : ∀ c ∈ cs, ∀ what, c ≠ .event what)
    (hstream : (arrivals cs).flatten = wires ms) :
    (session server [] cs).world = ms.map Message.record ↔
      Serving.Enough (requestEnds 0 ms) (readEnds 0 cs) := by
  have hrun := run_records hs hcs ms (start_waits hs (wires ms)) hstream 0
  rw [List.nil_append, List.length_nil, Nat.add_zero] at hrun
  have hiff : Serving.serve (requestEnds 0 ms) (readEnds 0 cs) = [] ↔ _ :=
    Serving.serve_eq_nil_iff (endsFrom_sorted _ _) (endsFrom_sorted _ _)
  rw [← List.length_eq_zero_iff] at hiff
  have hle := Serving.serve_length_le (requestEnds 0 ms) (readEnds 0 cs)
  rw [length_requestEnds] at hle
  rw [show (session server [] cs).world = _ from hrun]
  apply Iff.trans _ hiff
  constructor
  · intro h
    have hlen := congrArg List.length h
    rw [List.length_map, List.length_map, List.length_take] at hlen
    omega
  · intro h
    rw [h, Nat.sub_zero, List.take_length]

end

/-- A server for evaluation, which answers nothing. -/
def recordingServer : AdServer (List Record) where
  options := [(bytes "server.request_pipelining", bytes "1")]
  hooks := @httpHook _ percentDecoder (fun _ => true) ::
    [recordingHook fun _ _ => []].map UserHook.hook

theorem recordingServer_spec : @RecordingServer percentDecoder recordingServer :=
  @RecordingServer.mk percentDecoder _ (by decide +kernel) ⟨fun _ _ => [], rfl⟩

/-- A request without headers and body. -/
def getMessage : @Message percentDecoder :=
  @Message.mk percentDecoder ⟨⟨bytes "GET / HTTP/1.1", crlf, by decide, isEol_crlf _⟩, [], crlf,
    isEol_blank⟩ .none
    (@FieldHead.AnnouncesNothing.mk percentDecoder _
      (by unfold RequestHead.Accepted; decide +kernel) (by simp) (by simp))

/-- Two requests in one segment: the second is never recorded. -/
theorem pipelining_one_segment :
    let cs := [.read (@wires percentDecoder [getMessage, getMessage]), .write]
    (arrivals cs).flatten = @wires percentDecoder [getMessage, getMessage] ∧
      (session recordingServer [] cs).world ≠
        [getMessage, getMessage].map (@Message.record percentDecoder) := by
  intro cs
  refine ⟨List.append_nil _, fun h => ?_⟩
  have hlen : (session recordingServer [] cs).world.length = 1 := by decide +kernel
  rw [h] at hlen
  exact absurd hlen (by simp)

/-- Two requests in two segments. -/
theorem pipelining_two_segments :
    (session recordingServer [] [.read (@Message.wire percentDecoder getMessage),
      .read (@Message.wire percentDecoder getMessage)]).world =
        [getMessage, getMessage].map (@Message.record percentDecoder) := by
  apply (@pipelining_recorded_iff percentDecoder _ recordingServer_spec _ _ (by simp) rfl).2
  refine Serving.enough_cons.2 ⟨by decide +kernel, Serving.enough_cons.2 ⟨by decide +kernel, ?_⟩⟩
  simp [Serving.Enough, endsFrom]

end Asyncd
