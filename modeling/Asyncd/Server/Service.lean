import Asyncd.Server.Exchange
import Asyncd.Server.Helloworld
import Asyncd.Server.Pipelining
import Asyncd.Server.Routing

/-!
# A server that answers requests

Behind `ad_http_handler`, hooks that answer a complete request and do nothing on anything else, with
pipelining on.  Whatever the segments in which well-formed requests arrive, the peer receives the
answers in order: those of the requests that are served, up to the first whose answer closes the
connection (`answers_in_order`).
-/

open CString ByteLines

namespace Asyncd

/-! ## Answers -/

theorem setResponse_state (http : AdHttp) (c : ResponseCall) (out out' : Bytes) :
    (c.run http out).1 = (c.run http out').1 := by
  cases c with
  | setHeader name value => rfl
  | setCode code reason => rfl
  | setContent contenttype size => rfl
  | response code contenttype data size =>
    simp only [ResponseCall.run, adHttpResponse]
    split_ifs
    · rfl
    · rw [sendData_emits, sendData_emits]
  | sendHeader => rw [ResponseCall.run, ResponseCall.run, sendHeader_emits, sendHeader_emits]
  | sendData data size => rw [ResponseCall.run, ResponseCall.run, sendData_emits, sendData_emits]
  | sendChunk data size => rw [ResponseCall.run, ResponseCall.run, sendChunk_emits, sendChunk_emits]

theorem responseEmissions_out (http : AdHttp) (out out' : Bytes) (cs : List ResponseCall) :
    responseEmissions http out cs = responseEmissions http out' cs := by
  induction cs generalizing http out out' with
  | nil => rfl
  | cons c cs ih =>
    rw [responseEmissions, responseEmissions, setResponse_state http c out out']
    exact congrArg _ (ih _ _ _)

theorem runResponse_append_out (http : AdHttp) (out : Bytes) (cs : List ResponseCall) :
    (runResponse http out cs).2 = out ++ (runResponse http [] cs).2 := by
  rw [runResponse_out, runResponse_out, List.nil_append, responseEmissions_out http out []]

section

variable {σ : Type}

theorem callHooksFrom_idle {event : Event} {conn : AdConn} {world : σ} {users : List (UserHook σ)}
    (h : ∀ user ∈ users, ∀ cb, user.cb = some cb → cb event conn world = some ([], adOk, world))
    (i : ℕ) : ∃ visits, callHooksFrom event i (users.map UserHook.hook) conn world =
      (some adOk, conn, world, visits) := by
  induction users generalizing i with
  | nil => exact ⟨[], rfl⟩
  | cons user users ih =>
    obtain ⟨huser, husers⟩ := List.forall_mem_cons.1 h
    obtain ⟨visits, hrest⟩ := ih husers (i + 1)
    rw [List.map_cons]
    cases hcb : user.cb with
    | none => exact ⟨visits, by rw [callHooksFrom_none _ _ _ _ (by simp [UserHook.hook, hcb]), hrest]⟩
    | some cb =>
      obtain ⟨cb', hcb', hrun⟩ := user.run hcb (huser cb hcb) rfl
      by_cases hpass : user.hook.Passes conn
      · exact ⟨_, by rw [callHooksFrom_ok _ _ _ _ hcb' hpass hrun, hrest]⟩
      · exact ⟨_, by rw [callHooksFrom_skip _ _ _ _ hcb' hpass, hrest]⟩

/-- Hooks that answer a complete request with `reply`, and do nothing on anything else. -/
structure AnsweringHooks (hooks : List (AdHook σ)) (reply : AdHttp → List ResponseCall × ℤ) :
    Prop where
  idle : ∀ (event : Event) (conn : AdConn) (world : σ),
    (∀ http ∈ conn.httpState, ¬(event.read = true ∧ http.request.status = .done)) →
    ∃ visits, callHooksFrom event 1 hooks conn world = (some adOk, conn, world, visits)
  answer : ∀ (conn : AdConn) {http : AdHttp} (world : σ), conn.httpState = some http →
    http.request.status = .done → conn.method = http.request.method → http.request.method.isSome →
    ∃ world' visits, callHooksFrom evRead 1 hooks conn world = (some (reply http).2,
      { conn with toConnView := conn.toConnView.respond http (reply http).1 }, world', visits)
  status : ∀ http, (reply http).2 = adDone ∨ (reply http).2 = adClose

variable [UrlDecoder]

/-- Such hooks behind `ad_http_handler`. -/
def HttpAnswering (server : AdServer σ) (reply : AdHttp → List ResponseCall × ℤ) : Prop :=
  ∃ hooks, server.hooks = httpHook (fun _ => true) :: hooks ∧ AnsweringHooks hooks reply

/-- A server with such hooks behind `ad_http_handler`, and with pipelining. -/
structure AnsweringServer (server : AdServer σ) (reply : AdHttp → List ResponseCall × ℤ) :
    Prop where
  pipelining : server.pipelining = true
  hooks : HttpAnswering server reply

/-- The HTTP state in which the parser leaves a request. -/
def Message.parsed (m : Message) : AdHttp := (httpStep freshHttp m.wire).1

/-- The bytes of the answer to a request. -/
def Message.answer (reply : AdHttp → List ResponseCall × ℤ) (m : Message) : Bytes :=
  (runResponse m.parsed [] (reply m.parsed).1).2

/-- The answer to the request closes the connection. -/
def Message.Ends (reply : AdHttp → List ResponseCall × ℤ) (m : Message) : Prop :=
  (reply m.parsed).2 = adClose

instance (reply : AdHttp → List ResponseCall × ℤ) : DecidablePred (Message.Ends reply) := fun m =>
  inferInstanceAs (Decidable ((reply m.parsed).2 = adClose))

end

/-! ## Dispatches -/

section

variable {σ : Type} [UrlDecoder] {server : AdServer σ} {reply : AdHttp → List ResponseCall × ℤ}
  (ha : HttpAnswering server reply)

include ha

theorem answering_idle {event : Event} (he : event = evWrite ∨ ∃ t, event = evClose t)
    (conn : AdConn) (world : σ) :
    ∃ visits, callHooks server event conn world = (some adOk, conn, world, visits) := by
  obtain ⟨hooks, hhooks, ha⟩ := ha
  apply handler_idle hhooks he
  exact ha.idle event conn world fun _ _ h => by simp [not_read_of_idle he] at h

theorem answering_init {event : Event} (he : event = evInitWrite ∨ event = evInit) (conn : AdConn)
    (world : σ) : ∃ visits, callHooks server event conn world =
      (some adOk, { conn with extra := ⟨some (.http freshHttp), some .httpFree⟩ }, world, visits) := by
  obtain ⟨hooks, hhooks, ha⟩ := ha
  apply handler_init hhooks he conn world
  intro conn'
  exact ha.idle event conn' world fun _ _ h => by simp [not_read_of_init he] at h

theorem answering_short (conn : AdConn) {http : AdHttp} (hx : conn.httpState = some http)
    (hst : (httpStep http conn.inb).1.request.status ≠ .done ∧
      (httpStep http conn.inb).1.request.status ≠ .error) (world : σ) :
    ∃ st visits, (st = adOk ∨ st = adTakeover) ∧ callHooks server evRead conn world =
      (some st, { conn with toConnView := afterParser conn http }, world, visits) := by
  obtain ⟨hooks, hhooks, ha⟩ := ha
  apply handler_short hhooks conn hx hst world
  intro conn' hnot
  exact ha.idle evRead conn' world fun http hx hd => hnot http hx hd.2

theorem answering_whole (conn : AdConn) {http : AdHttp} (hx : conn.httpState = some http)
    (hm : InStep conn.outline conn.method)
    (hdone : (httpStep http conn.inb).1.request.status = .done) (world : σ) :
    ∃ world' visits, callHooks server evRead conn world =
      (some (reply (httpStep http conn.inb).1).2, { conn with
        toConnView := (afterParser conn http).respond (httpStep http conn.inb).1
          (reply (httpStep http conn.inb).1).1 }, world', visits) := by
  obtain ⟨hooks, hhooks, ha⟩ := ha
  obtain ⟨hknown, hagree⟩ := afterParser_agree hm hx
  have hdone' : (httpParser http conn.inb).2.1.request.status = .done := hdone
  obtain ⟨world', visits, hrest⟩ := ha.answer
    { conn with toConnView := afterParser conn http } world rfl hdone
    hagree (hknown.set (by rw [hdone']; decide) (by rw [hdone']; decide))
  exact ⟨world', _, callHooks_handler_ok hhooks (adHttpHandler_done hx hdone world) hrest⟩

/-! ## Callbacks -/

omit [UrlDecoder] ha in
theorem dispatch_conn {event : Event} {conn conn' : AdConn} {world world' : σ} {st : ℤ}
    {visits : List Visit} (h : callHooks server event conn world = (some st, conn', world', visits))
    (next : ℤ → AdConn → σ → Session σ) :
    (dispatch server event conn world next).conn = (next st conn' world').conn := by
  rw [dispatch, h]
  rfl

omit [UrlDecoder] ha in
theorem connCb_conn {event : Event} {conn conn' : AdConn} {world world' : σ} {st : ℤ}
    {visits : List Visit} (h : callHooks server event conn world = (some st, conn', world', visits))
    (hconn : conn.status = adOk ∨ conn.status = adTakeover) :
    (connCb server event conn world).conn =
      (connCbEnd server event { conn' with status := st } world').conn := by
  have hst : conn'.status = conn.status := by
    have hkeep := callHooksFrom_status event 0 server.hooks conn world
    rwa [← callHooks, h] at hkeep
  rw [connCb, if_pos hconn, dispatch_conn h, if_pos]
  rw [hst]
  exact status_replaced hconn st

omit [UrlDecoder] ha in
theorem connCbEnd_open {event : Event} {conn : AdConn} {st : ℤ} (hst : st = adOk ∨ st = adTakeover)
    (world : σ) : (connCbEnd server event { conn with status := st } world).conn =
      some { conn with status := st } := by
  unfold connCbEnd
  obtain rfl | rfl := hst <;> rfl

omit [UrlDecoder] ha in
theorem connCbEnd_closing (server : AdServer σ) (event : Event) {conn : AdConn}
    (hst : conn.status = adClose) (world : σ) :
    (connCbEnd server event conn world).conn = none ∧ conn.out = [] ∨
      (connCbEnd server event conn world).conn = some conn := by
  have hdone : conn.status ≠ adDone := by rw [hst]; decide
  rw [connCbEnd, if_neg hdone, if_pos hst]
  by_cases hout : conn.out = []
  · rw [if_pos hout]
    refine Or.inl ⟨?_, hout⟩
    obtain ⟨d, -, -, ⟨-, hnone, -⟩ | ⟨st, conn', world', -, hst', hrun⟩⟩ := dispatch_cases server
      (if event.close then event else evClose false) conn world fun _ conn world =>
        connFree server conn world
    · exact hnone
    · rw [hrun, connFree_of_close server (hst'.trans hst)]
      rfl
  · rw [if_neg hout]
    exact Or.inr rfl

theorem connCbEnd_done (hp : server.pipelining = true) (event : Event) (conn : AdConn)
    (hst : conn.status = adDone) (world : σ) :
    ∃ conn', (connCbEnd server event conn world).conn = some conn' ∧ conn'.status = adOk ∧
      conn'.httpState = some freshHttp ∧ conn'.method = none ∧ conn'.inb = conn.inb ∧
      conn'.out = conn.out := by
  obtain ⟨visits₁, hclose⟩ := answering_idle ha (Or.inr ⟨false, rfl⟩) conn world
  obtain ⟨visits₂, hinit⟩ := answering_init ha (Or.inr rfl) (connReset conn).1 world
  let conn' : AdConn :=
    { (connReset conn).1 with extra := ⟨some (.http freshHttp), some .httpFree⟩ }
  refine ⟨conn', ?_, rfl, rfl, rfl, rfl, rfl⟩
  rw [connCbEnd, if_pos hst, if_pos hp, dispatch_conn hclose]
  exact dispatch_conn hinit _

end

/-! ## What the peer receives -/

/-- What was taken and what is in the out buffer. -/
def Exchange.sent {σ : Type} (x : Exchange σ) : Bytes :=
  x.taken ++ ((x.session.conn.map fun conn => conn.out).getD [])

/-- The connection waits for the rest of a request on `stream` of which `p` has arrived. -/
def Exchange.Waits {σ : Type} [UrlDecoder] (x : Exchange σ) (stream p sent : Bytes) : Prop :=
  ∃ conn, x.session.conn = some conn ∧ Waiting stream p conn ∧ InStep conn.outline conn.method ∧
    x.taken ++ conn.out = sent

/-- The connection closes, or is freed. -/
def Exchange.Closing {σ : Type} (x : Exchange σ) (sent : Bytes) : Prop :=
  (∀ conn, x.session.conn = some conn → conn.status = adClose) ∧ x.sent = sent

/-- The peer hangs up. -/
def Callback.HangsUp : Callback → Prop
  | .event what => what.eof ∨ what.error ∨ what.timeout
  | _ => False

instance : DecidablePred Callback.HangsUp
  | .event what => inferInstanceAs (Decidable (what.eof ∨ what.error ∨ what.timeout))
  | .read _ | .write | .drain _ => inferInstanceAs (Decidable False)

/-- The callbacks before the peer hangs up. -/
def heard (cs : List Callback) : List Callback := cs.takeWhile fun c => ¬c.HangsUp

section

variable {σ : Type} {server : AdServer σ} {x : Exchange σ} {sent : Bytes}

theorem closing_of_conn {conn : AdConn} (hconn : x.session.conn = some conn)
    (hst : conn.status = adClose) (hsent : x.taken ++ conn.out = sent) : x.Closing sent := by
  refine ⟨fun conn' h => ?_, ?_⟩
  · rw [hconn] at h
    cases h
    exact hst
  · rw [Exchange.sent, hconn]
    exact hsent

theorem exchange_step_conn (server : AdServer σ) {conn : AdConn}
    (hconn : x.session.conn = some conn) {c : Callback} (hc : ∀ n, c ≠ .drain n) :
    (x.step server c).session.conn = (callback server c conn x.session.world).conn ∧
      (x.step server c).taken = x.taken := by
  constructor
  · simp only [Exchange.step, Session.step, hconn]
    rfl
  · cases c with
    | drain n => exact absurd rfl (hc n)
    | read seg => exact List.append_nil _
    | write => exact List.append_nil _
    | event what => exact List.append_nil _

theorem exchange_step_drain (server : AdServer σ) {conn : AdConn}
    (hconn : x.session.conn = some conn) (n : ℕ) :
    (x.step server (.drain n)).session.conn = some { conn with out := conn.out.drop n } ∧
      (x.step server (.drain n)).taken = x.taken ++ conn.out.take n := by
  constructor
  · simp only [Exchange.step, Session.step, hconn]
    rfl
  · simp only [Exchange.step, Session.transported, hconn]
    rfl

theorem append_drain (taken out : Bytes) (n : ℕ) :
    taken ++ out.take n ++ out.drop n = taken ++ out := by
  rw [List.append_assoc, List.take_append_drop]

theorem closing_of_cbEnd (event : Event) (world : σ) {conn : AdConn} {c : Callback}
    (hconn : (x.step server c).session.conn = (connCbEnd server event conn world).conn)
    (hst : conn.status = adClose)
    (hsent : (x.step server c).taken ++ conn.out = sent) : (x.step server c).Closing sent := by
  obtain ⟨hnone, hout⟩ | hsome := connCbEnd_closing server event hst world
  · rw [hnone] at hconn
    refine ⟨fun _ h => (by rw [hconn] at h; cases h), ?_⟩
    rw [Exchange.sent, hconn, ← hsent, hout]
    rfl
  · rw [hsome] at hconn
    exact closing_of_conn hconn hst hsent

theorem exchange_step_none (hnone : x.session.conn = none) (c : Callback) : x.step server c = x := by
  obtain ⟨⟨conn, world, trace⟩, taken⟩ := x
  obtain rfl : conn = none := hnone
  cases c <;> exact congrArg _ (List.append_nil taken)

theorem closing_step (h : x.Closing sent) (c : Callback) : (x.step server c).Closing sent := by
  cases hconn : x.session.conn with
  | none => rwa [exchange_step_none hconn]
  | some conn =>
    have hst := h.1 conn hconn
    have hne : ¬(conn.status = adOk ∨ conn.status = adTakeover) := by
      rw [hst]
      decide
    have hsent : x.taken ++ conn.out = sent := by
      have := h.2
      rwa [Exchange.sent, hconn] at this
    have hstep := exchange_step_conn server hconn (c := c)
    cases c with
    | read seg =>
      obtain ⟨hnext, htaken⟩ := hstep (by simp)
      rw [callback, connCb, if_neg hne] at hnext
      exact closing_of_cbEnd _ _ hnext hst (by rwa [htaken])
    | write =>
      obtain ⟨hnext, htaken⟩ := hstep (by simp)
      rw [callback, connCb, if_neg hne] at hnext
      exact closing_of_cbEnd _ _ hnext hst (by rwa [htaken])
    | event what =>
      obtain ⟨hnext, htaken⟩ := hstep (by simp)
      by_cases hw : what.eof ∨ what.error ∨ what.timeout
      · rw [callback_hangUp server hw] at hnext
        exact closing_of_cbEnd _ _ hnext rfl (by rwa [htaken])
      · rw [callback, connEventCb, if_neg hw] at hnext
        exact closing_of_conn hnext hst (by rwa [htaken])
    | drain n =>
      obtain ⟨hnext, htaken⟩ := exchange_step_drain server hconn n
      refine closing_of_conn hnext hst ?_
      rw [htaken, append_drain, hsent]

theorem closing_run (server : AdServer σ) (h : x.Closing sent) (cs : List Callback) :
    (cs.foldl (Exchange.step server) x).Closing sent := by
  induction cs generalizing x with
  | nil => exact h
  | cons c cs ih => exact ih (closing_step h c)

theorem closing_hangUp (server : AdServer σ) {conn : AdConn} (hconn : x.session.conn = some conn)
    (hsent : x.taken ++ conn.out = sent) {c : Callback} (hc : c.HangsUp) :
    (x.step server c).Closing sent := by
  cases c with
  | read seg => cases hc
  | write => cases hc
  | drain n => cases hc
  | event what =>
    obtain ⟨hnext, htaken⟩ := exchange_step_conn server hconn
      (c := .event what) (by simp)
    rw [callback_hangUp server hc] at hnext
    exact closing_of_cbEnd _ _ hnext rfl (by rwa [htaken])

theorem heard_of_hangsUp {c : Callback} (hc : c.HangsUp) (cs : List Callback) :
    heard (c :: cs) = [] := List.takeWhile_cons_of_neg (by simpa using hc)

theorem heard_of_not_hangsUp {c : Callback} (hc : ¬c.HangsUp) (cs : List Callback) :
    heard (c :: cs) = c :: heard cs := List.takeWhile_cons_of_pos (by simpa using hc)

/-! ## A rule for runs -/

theorem arrivals_reads (segs : List Bytes) : arrivals (segs.map .read) = segs := by
  rw [arrivals, List.filterMap_map]
  exact List.filterMap_some

/-- Ways in which a connection waits, and what has been sent by then.  They last until bytes arrive or the
peer hangs up. -/
structure Lasting {ι : Type} (server : AdServer σ) (W : ι → Exchange σ → Prop) (sent : ι → Bytes) :
    Prop where
  conn : ∀ {i x}, W i x → ∃ conn, x.session.conn = some conn ∧ x.taken ++ conn.out = sent i
  write : ∀ {i x}, W i x → W i (x.step server .write)
  drain : ∀ {i x}, W i x → ∀ n, W i (x.step server (.drain n))
  event : ∀ {i x}, W i x → ∀ {what : BevEvent}, ¬(what.eof ∨ what.error ∨ what.timeout) →
    W i (x.step server (.event what))

/-- What is to be shown of a run, from the way in which the connection waits, the segments that are heard
and whether the peer stays: only the segments matter, and a closing connection closes whatever comes. -/
theorem Lasting.run {ι : Type} {W : ι → Exchange σ → Prop} {sent : ι → Bytes}
    (h : Lasting server W sent) {M : ι → List Bytes → Prop → Exchange σ → Prop}
    (stay : ∀ {i x}, W i x → M i [] True x)
    (leave : ∀ {i x}, x.Closing (sent i) → M i [] False x)
    (read : ∀ {i x seg segs stays x'}, W i x →
      (∀ {j}, W j (x.step server (.read seg)) → M j segs stays x') →
      (∀ {out}, (x.step server (.read seg)).Closing out → x'.Closing out) →
      M i (seg :: segs) stays x')
    {i : ι} (hx : W i x) (cs : List Callback) :
    M i (arrivals (heard cs)) (∀ c ∈ cs, ¬c.HangsUp) (cs.foldl (Exchange.step server) x) := by
  induction cs generalizing i x with
  | nil =>
    have hstays : (∀ c ∈ ([] : List Callback), ¬c.HangsUp) = True := by simp
    rw [hstays]
    exact stay hx
  | cons c cs ih =>
    by_cases hc : c.HangsUp
    · have hleaves : (∀ c' ∈ c :: cs, ¬c'.HangsUp) = False :=
        eq_false fun h => h c List.mem_cons_self hc
      obtain ⟨conn, hconn, hsent⟩ := h.conn hx
      rw [heard_of_hangsUp hc, hleaves]
      exact leave (closing_run server (closing_hangUp server hconn hsent hc) cs)
    · have hstays : (∀ c' ∈ c :: cs, ¬c'.HangsUp) = ∀ c' ∈ cs, ¬c'.HangsUp := by
        rw [List.forall_mem_cons]
        exact propext (and_iff_right hc)
      rw [heard_of_not_hangsUp hc, hstays]
      cases c with
      | write => exact ih (h.write hx)
      | drain n => exact ih (h.drain hx n)
      | event what => exact ih (h.event hx hc)
      | read seg => exact read hx ih fun hclosing => closing_run server hclosing cs

/-- Ways of waiting that a connection shows, whatever is in its out buffer: where the hooks do nothing on
WRITE, they last. -/
theorem lasting_of_conn {ι : Type} {V : ι → AdConn → Prop} {sent : ι → Bytes}
    (status : ∀ {i conn}, V i conn → conn.status = adOk ∨ conn.status = adTakeover)
    (output : ∀ {i conn} out, V i conn → V i { conn with out := out })
    (write : ∀ {i conn} world, V i conn → V i { conn with status := adOk } ∧
      ∃ visits, callHooks server evWrite conn world = (some adOk, conn, world, visits)) :
    Lasting server (fun i x => ∃ conn, x.session.conn = some conn ∧ V i conn ∧
      x.taken ++ conn.out = sent i) sent where
  conn := by
    rintro i x ⟨conn, hconn, -, hsent⟩
    exact ⟨conn, hconn, hsent⟩
  write := by
    rintro i x ⟨conn, hconn, hV, hsent⟩
    have hnext := exchange_step_conn server hconn (c := .write) (by simp)
    obtain ⟨hok, visits, hidle⟩ := write x.session.world hV
    rw [callback, connCb_conn hidle (status hV), connCbEnd_open (Or.inl rfl)] at hnext
    exact ⟨_, hnext.1, hok, by rwa [hnext.2]⟩
  drain := by
    rintro i x ⟨conn, hconn, hV, hsent⟩ n
    have hnext := exchange_step_drain server hconn n
    refine ⟨_, hnext.1, output _ hV, ?_⟩
    rw [hnext.2, append_drain, hsent]
  event := by
    rintro i x ⟨conn, hconn, hV, hsent⟩ what hwhat
    have hnext := exchange_step_conn server hconn (c := .event what) (by simp)
    rw [callback, connEventCb, if_neg hwhat] at hnext
    exact ⟨conn, hnext.1, hV, by rwa [hnext.2]⟩

/-! ## A connection that waits -/

variable [UrlDecoder] {reply : AdHttp → List ResponseCall × ℤ}
  {stream p : Bytes} (ha : HttpAnswering server reply)

include ha

theorem answering_start (world : σ) (stream : Bytes) :
    (exchange server world []).Waits stream [] [] := by
  obtain ⟨visits, hinit⟩ := answering_init ha (Or.inl rfl) blankConn world
  have hnew : (exchange server world []).session.conn = _ := dispatch_conn hinit
    fun status conn world => ⟨some { conn with status := status }, world, []⟩
  exact ⟨_, hnew, waiting_fresh rfl rfl stream rfl, .of_known methodKnown_fresh (Or.inl rfl), rfl⟩

theorem waits_lasting {ι : Type} (stream p sent : ι → Bytes) :
    Lasting server (fun i x => x.Waits (stream i) (p i) (sent i)) sent := by
  have hlasting : Lasting server (fun i x => ∃ conn, x.session.conn = some conn ∧
      (Waiting (stream i) (p i) conn ∧ InStep conn.outline conn.method) ∧
        x.taken ++ conn.out = sent i) sent := by
    apply lasting_of_conn
    · exact fun h => h.1.status
    · exact fun out h => ⟨⟨h.1.status, h.1.state⟩, h.2⟩
    · intro i conn world h
      exact ⟨⟨⟨Or.inl rfl, h.1.state⟩, h.2⟩, answering_idle ha (Or.inl rfl) conn world⟩
  simpa only [Exchange.Waits, and_assoc] using hlasting

theorem waits_short (h : x.Waits stream p sent) {seg : Bytes} (hseg : p ++ seg <+: stream)
    (hcuts : Push.CutsAlong httpStep freshHttp stream)
    (hst : (httpStep freshHttp (p ++ seg)).1.request.status ≠ .done ∧
      (httpStep freshHttp (p ++ seg)).1.request.status ≠ .error) :
    (x.step server (.read seg)).Waits stream (p ++ seg) sent := by
  obtain ⟨conn, hconn, hw, hm, hsent⟩ := h
  obtain ⟨http, hx, -, hfeed⟩ := hw.state
  obtain ⟨hnext, htaken⟩ := exchange_step_conn server hconn
    (c := .read seg) (by simp)
  have hread := hfeed seg hseg
  let conn' : AdConn := { conn with inb := conn.inb ++ seg }
  have hm' : InStep conn'.outline conn'.method := hm
  obtain ⟨st, visits, hok, hcalls⟩ := answering_short ha conn' hx (hread ▸ hst) x.session.world
  rw [callback, connCb_conn hcalls hw.status, connCbEnd_open hok] at hnext
  exact ⟨_, hnext, waiting_afterParser hfeed hseg hcuts hst.1 hok, InStep.afterParser hm' hx,
    by rwa [htaken]⟩

/-- A segment that completes a request: it is answered, and `conn_cb` goes on with the status of the
answer and what is left of the segment. -/
theorem waits_answered (h : x.Waits stream p sent) {seg t : Bytes} (hseg : p ++ seg <+: stream)
    {final : AdHttp} (hfinal : httpStep freshHttp (p ++ seg) = (final, t))
    (hdone : final.request.status = .done) :
    ∃ conn world, conn.status = (reply final).2 ∧ conn.inb = t ∧
      (x.step server (.read seg)).session.conn = (connCbEnd server evRead conn world).conn ∧
      (x.step server (.read seg)).taken ++ conn.out =
        sent ++ (runResponse final [] (reply final).1).2 := by
  obtain ⟨conn, hconn, hw, hm, hsent⟩ := h
  obtain ⟨http, hx, -, hfeed⟩ := hw.state
  obtain ⟨hnext, htaken⟩ := exchange_step_conn server hconn
    (c := .read seg) (by simp)
  have hread := (hfeed seg hseg).trans hfinal
  let conn' : AdConn := { conn with inb := conn.inb ++ seg }
  obtain ⟨world', visits, hcalls⟩ := answering_whole ha conn' hx hm
    (by rw [show httpStep http conn'.inb = _ from hread]; exact hdone) x.session.world
  rw [show httpStep http conn'.inb = _ from hread] at hcalls
  rw [callback, connCb_conn hcalls hw.status] at hnext
  refine ⟨_, world', rfl, congrArg Prod.snd hread, hnext, ?_⟩
  have hout : (x.step server (.read seg)).taken ++ (runResponse final conn.out (reply final).1).2 =
      sent ++ (runResponse final [] (reply final).1).2 := by
    rw [htaken, runResponse_append_out, ← List.append_assoc, hsent]
  exact hout

/-- With pipelining, what is left of the segment waits, or the connection closes. -/
theorem waits_whole (hp : server.pipelining = true) (h : x.Waits stream p sent) {seg t : Bytes}
    (hseg : p ++ seg <+: stream) {final : AdHttp}
    (hfinal : httpStep freshHttp (p ++ seg) = (final, t))
    (hdone : final.request.status = .done) (stream' : Bytes) :
    (reply final).2 = adDone ∧ (x.step server (.read seg)).Waits stream' t
        (sent ++ (runResponse final [] (reply final).1).2) ∨
      (reply final).2 = adClose ∧ (x.step server (.read seg)).Closing
        (sent ++ (runResponse final [] (reply final).1).2) := by
  obtain ⟨conn, world, hstatus, hinb, hnext, hout⟩ := waits_answered ha h hseg hfinal hdone
  obtain ⟨hooks, -, hanswering⟩ := id ha
  cases hanswering.status final with
  | inl hst =>
    obtain ⟨conn', hend, hok, hx, hm, hinb', hout'⟩ :=
      connCbEnd_done ha hp evRead conn (hstatus.trans hst) world
    refine Or.inl ⟨hst, conn', hnext.trans hend,
      waiting_fresh hok hx stream' (hinb'.trans hinb), ?_, by rw [hout', hout]⟩
    rw [ConnView.outline, hx, hm]
    exact .of_known methodKnown_fresh (Or.inl rfl)
  | inr hst => exact Or.inr ⟨hst, closing_of_cbEnd _ _ hnext (hstatus.trans hst) hout⟩

/-! ## Runs -/

omit ha in
/-- Read alone or in front of others, a request leaves the parser in the same state. -/
theorem Message.parsed_eq (m : Message) :
    Reads m.wire m.parsed := by
  obtain ⟨final, hreads, -⟩ := m.reads
  have hwhole := hreads.whole []
  rw [List.append_nil] at hwhole
  rwa [Message.parsed, hwhole]

omit ha in
theorem Message.wire_length_pos (m : Message) : 0 < m.wire.length := by
  rw [List.length_pos_iff]
  intro hnil
  have hwhole := m.parsed_eq.whole []
  rw [hnil, List.append_nil, httpStep_nil] at hwhole
  have hdone := m.parsed_eq.done
  rw [← show freshHttp = m.parsed from congrArg Prod.fst hwhole] at hdone
  exact absurd hdone (by decide)

/-- Bytes that arrive when the requests `ms` are still to be served and `p` of them has arrived: at most
one of them is answered. -/
theorem waits_read (hp : server.pipelining = true) (ms : List Message) (h : x.Waits (wires ms) p sent) {seg : Bytes}
    (hseg : p ++ seg <+: wires ms) :
    (x.step server (.read seg)).Waits (wires ms) (p ++ seg) sent ∧
        (∀ m ∈ ms.head?, (p ++ seg).length < m.wire.length) ∨
      ∃ m ms' t, ms = m :: ms' ∧ p ++ seg = m.wire ++ t ∧
        (¬m.Ends reply ∧
            (x.step server (.read seg)).Waits (wires ms') t (sent ++ m.answer reply) ∨
          m.Ends reply ∧ (x.step server (.read seg)).Closing (sent ++ m.answer reply)) := by
  cases ms with
  | nil =>
    have hnil : p ++ seg = [] := List.prefix_nil.1 hseg
    refine Or.inl ⟨?_, by simp⟩
    apply waits_short ha h hseg
    · intro q y hq
      obtain ⟨rfl, rfl⟩ := List.append_eq_nil_iff.1 (List.prefix_nil.1 hq)
      rw [Push.CutAt, Push.feed, httpStep_nil, List.append_nil, httpStep_nil]
    · rw [hnil, httpStep_nil]
      exact ⟨by decide, by decide⟩
  | cons m ms =>
    have hreads := m.parsed_eq
    have hwires : wires (m :: ms) = m.wire ++ wires ms := rfl
    obtain hshort | hlong := Nat.lt_or_ge (p ++ seg).length m.wire.length
    · left
      refine ⟨waits_short ha h hseg (hwires ▸ hreads.cuts _)
        (hreads.short (hwires ▸ hseg) hshort), ?_⟩
      rintro _ ⟨⟩
      exact hshort
    · obtain ⟨t, ht⟩ : m.wire <+: p ++ seg :=
        List.prefix_of_prefix_length_le ⟨wires ms, hwires.symm⟩ hseg hlong
      refine Or.inr ⟨m, ms, t, rfl, ht.symm, ?_⟩
      have hfinal : httpStep freshHttp (p ++ seg) = (m.parsed, t) := by
        rw [← ht]
        exact hreads.whole t
      obtain ⟨hst, hw⟩ | ⟨hst, hc⟩ := waits_whole ha hp h hseg hfinal hreads.done (wires ms)
      · refine Or.inl ⟨fun he => ?_, hw⟩
        rw [Message.Ends, hst] at he
        exact absurd he (by decide)
      · exact Or.inr ⟨hst, hc⟩

end

/-- The items of a stream that are served, one at each segment if it has arrived; `n` bytes have been
served and `k` have arrived behind them. -/
def servedOf {β : Type} (wire : β → Bytes) (n k : ℕ) (items : List β) (segs : List Bytes) : List β :=
  Serving.served items (endsFrom n (items.map fun b => (wire b).length))
    (endsFrom (n + k) (segs.map List.length))

section

variable {β : Type} {wire : β → Bytes} {n : ℕ} {p seg : Bytes}

@[simp] theorem servedOf_nil (n k : ℕ) (items : List β) : servedOf wire n k items [] = [] :=
  Serving.served_nil_right (by rw [length_endsFrom, List.length_map])

theorem servedOf_short {items : List β}
    (h : ∀ b ∈ items.head?, (p ++ seg).length < (wire b).length) (segs : List Bytes) :
    servedOf wire n p.length items (seg :: segs) = servedOf wire n (p ++ seg).length items segs := by
  rw [servedOf, List.map_cons, endsFrom, Nat.add_assoc, ← List.length_append, servedOf]
  cases items with
  | nil => rw [Serving.served_nil, Serving.served_nil]
  | cons b items => exact Serving.served_of_lt (Nat.add_lt_add_left (h b rfl) n) _ _ _

theorem servedOf_whole {t : Bytes} {b : β} (ht : p ++ seg = wire b ++ t) (items : List β)
    (segs : List Bytes) : servedOf wire n p.length (b :: items) (seg :: segs) =
      b :: servedOf wire (n + (wire b).length) t.length items segs := by
  have hlen := congrArg List.length ht
  rw [List.length_append, List.length_append] at hlen
  have hend : n + p.length + seg.length = n + (wire b).length + t.length := by omega
  simp only [servedOf, List.map_cons, endsFrom]
  rw [hend]
  exact Serving.served_of_le (Nat.le_add_right _ _) b (by rw [length_endsFrom, List.length_map]) _

end

section

variable [UrlDecoder]

/-- The requests of `ms` that are served in the callbacks, if `n` bytes have been served and `k` have
arrived behind them. -/
def servedFrom (n k : ℕ) (ms : List Message) (cs : List Callback) : List Message :=
  Serving.served ms (requestEnds n ms) (readEnds (n + k) cs)

/-- The requests of a stream that are served: at each segment the first that is left, if it has arrived. -/
def served (ms : List Message) (cs : List Callback) : List Message := servedFrom 0 0 ms cs

/-- Where enough segments come once a request has arrived, all are served. -/
theorem served_of_enough {ms : List Message} {cs : List Callback}
    (h : Serving.Enough (requestEnds 0 ms) (readEnds 0 cs)) : served ms cs = ms :=
  Serving.served_of_enough (endsFrom_sorted _ _) (endsFrom_sorted _ _) h ms

variable {σ : Type} {server : AdServer σ} {reply : AdHttp → List ResponseCall × ℤ}
  (hs : AnsweringServer server reply)

/-- The connection is there and not closing. -/
def Exchange.Open (x : Exchange σ) : Prop :=
  ∃ conn, x.session.conn = some conn ∧ (conn.status = adOk ∨ conn.status = adTakeover)

/-- What has been sent is `sent` and behind it the answers to `ms`, and the connection is open exactly
if none of these closes it and `stays`. -/
structure Exchange.Answered (x : Exchange σ) (reply : AdHttp → List ResponseCall × ℤ) (sent : Bytes)
    (ms : List Message) (stays : Prop) : Prop where
  sent : x.sent = sent ++ (Serving.upTo (Message.Ends reply) ms).flatMap (Message.answer reply)
  stays : x.Open ↔ (∀ m ∈ ms, ¬m.Ends reply) ∧ stays

theorem Exchange.Waits.isOpen {x : Exchange σ} {stream p sent : Bytes} (h : x.Waits stream p sent) :
    x.Open ∧ x.sent = sent := by
  obtain ⟨conn, hconn, hw, -, hsent⟩ := h
  refine ⟨⟨conn, hconn, hw.status⟩, ?_⟩
  rw [Exchange.sent, hconn]
  exact hsent

omit [UrlDecoder] in
theorem Exchange.Closing.not_isOpen {x : Exchange σ} {sent : Bytes} (h : x.Closing sent) :
    ¬x.Open := by
  rintro ⟨conn, hconn, hst⟩
  rw [h.1 conn hconn] at hst
  exact absurd hst (by decide)

include hs

theorem answering_run (cs : List Callback) (ms : List Message) {x : Exchange σ} {p sent : Bytes}
    (h : x.Waits (wires ms) p sent) (hp : p ++ (arrivals (heard cs)).flatten <+: wires ms) (n : ℕ) :
    (cs.foldl (Exchange.step server) x).Answered reply sent (servedFrom n p.length ms (heard cs))
      (∀ c ∈ cs, ¬c.HangsUp) := by
  refine Lasting.run (waits_lasting hs.hooks (fun i : List Message × Bytes × Bytes => wires i.1)
    (fun i => i.2.1) fun i => i.2.2)
    (M := fun i segs stays x => ∀ n, i.2.1 ++ segs.flatten <+: wires i.1 →
      x.Answered reply i.2.2 (servedOf Message.wire n i.2.1.length i.1 segs) stays)
    ?_ ?_ ?_ (i := (ms, p, sent)) h cs n hp
  · rintro ⟨ms, p, sent⟩ x h n -
    obtain ⟨hopen, hsent⟩ := h.isOpen
    exact ⟨by simpa using hsent, iff_of_true hopen (by simp)⟩
  · rintro ⟨ms, p, sent⟩ x h n -
    exact ⟨by simpa using h.2, iff_of_false h.not_isOpen And.right⟩
  · rintro ⟨ms, p, sent⟩ x seg segs stays x' h ih hclosed n hp
    rw [List.flatten_cons, ← List.append_assoc] at hp
    obtain ⟨hw, hshort⟩ | ⟨m, ms', t, rfl, ht, hnext⟩ :=
      waits_read hs.hooks hs.pipelining ms h ((List.prefix_append _ _).trans hp)
    · rw [servedOf_short hshort]
      exact ih (j := (ms, p ++ seg, sent)) hw n hp
    · rw [servedOf_whole ht]
      rw [ht, List.append_assoc] at hp
      have hp' : t ++ segs.flatten <+: wires ms' := (List.prefix_append_right_inj m.wire).1 hp
      obtain ⟨hends, hw⟩ | ⟨hends, hclosing⟩ := hnext
      · -- the answer leaves the connection open
        have hrun := ih (j := (ms', t, sent ++ m.answer reply)) hw (n + m.wire.length) hp'
        refine ⟨?_, hrun.stays.trans ?_⟩
        · rw [Serving.upTo_cons_of_neg hends, List.flatMap_cons, ← List.append_assoc]
          exact hrun.sent
        · rw [List.forall_mem_cons, and_iff_right hends]
      · refine ⟨?_, iff_of_false (hclosed hclosing).not_isOpen fun h => ?_⟩
        · rw [Serving.upTo_cons_of_pos hends, List.flatMap_singleton]
          exact (hclosed hclosing).2
        · exact h.1 m List.mem_cons_self hends

/-- While a stream of well-formed requests arrives, in whatever segments, the peer is sent the answers
to those that are served, in order, up to the first that closes the connection, and the connection stays
open exactly while no answer closes it and the peer does not hang up. -/
theorem answers_in_order (ms : List Message) (world : σ) (cs : List Callback)
    (h : (arrivals (heard cs)).flatten <+: wires ms) :
    (exchange server world cs).Answered reply [] (served ms (heard cs)) (∀ c ∈ cs, ¬c.HangsUp) :=
  answering_run hs cs ms (answering_start hs.hooks world (wires ms)) (by simpa using h) 0

end

/-! ## `helloworld_http_server.c` -/

/-- What the hooks do with a complete request. -/
def helloworldReply (http : AdHttp) : List ResponseCall × ℤ :=
  if http.request.method = some (bytes "GET") then
    ([.response 200 (some (bytes "text/html")) (some (bytes "Hello World")) 11],
      if adHttpIsKeepaliveRequest http then adDone else adClose)
  else
    ([.response 501 (some (bytes "text/html")) (some (bytes "Not implemented")) 15], adClose)

theorem adHttpGetStatus_done (v : ConnView) :
    adHttpGetStatus v = .done ↔ ∃ http ∈ v.httpState, http.request.status = .done := by
  unfold adHttpGetStatus
  cases v.httpState <;> simp

theorem helloworldHttp_idle {event : Event} {conn : AdConn}
    (h : ∀ http ∈ conn.httpState, ¬(event.read = true ∧ http.request.status = .done)) :
    ∀ user ∈ [myHttpGetHandler, myHttpDefaultHandler], ∀ cb, user.cb = some cb →
      cb event conn () = some ([], adOk, ()) := by
  have hnot : event.read = true → adHttpGetStatus conn.toConnView ≠ .done := by
    intro hr hd
    obtain ⟨http, hx, hdone⟩ := (adHttpGetStatus_done _).1 hd
    exact h http hx ⟨hr, hdone⟩
  intro user huser cb hcb
  rcases List.mem_cons.1 huser with rfl | huser
  · cases hcb
    by_cases hr : event.read = true
    · simp only [hr, if_true, if_neg (hnot hr)]
    · simp only [hr, if_false, Bool.false_eq_true]
  · obtain rfl := List.mem_singleton.1 huser
    cases hcb
    by_cases hr : event.read = true
    · simp only [hr, if_true, if_neg (hnot hr)]
    · simp only [hr, if_false, Bool.false_eq_true]

theorem myHttpGetHandler_done {cb} (hcb : myHttpGetHandler.cb = some cb) {conn : AdConn}
    {http : AdHttp} (hx : conn.httpState = some http) (hdone : http.request.status = .done)
    (hget : http.request.method = some (bytes "GET")) :
    cb evRead conn () =
      some ((helloworldReply http).1.map .respond, (helloworldReply http).2, ()) := by
  have hd : adHttpGetStatus conn.toConnView = .done := (adHttpGetStatus_done _).2 ⟨http, hx, hdone⟩
  cases hcb
  simp only [evRead, if_true, hd, hx, Option.map_some, helloworldReply, if_pos hget]
  rfl

theorem myHttpDefaultHandler_done {cb} (hcb : myHttpDefaultHandler.cb = some cb) {conn : AdConn}
    {http : AdHttp} (hx : conn.httpState = some http) (hdone : http.request.status = .done)
    (hget : http.request.method ≠ some (bytes "GET")) :
    cb evRead conn () =
      some ((helloworldReply http).1.map .respond, (helloworldReply http).2, ()) := by
  have hd : adHttpGetStatus conn.toConnView = .done := (adHttpGetStatus_done _).2 ⟨http, hx, hdone⟩
  cases hcb
  simp only [evRead, if_true, hd, helloworldReply, if_neg hget]
  rfl

theorem helloworldReply_status (http : AdHttp) :
    (helloworldReply http).2 = adDone ∨ (helloworldReply http).2 = adClose := by
  unfold helloworldReply
  split_ifs
  · exact Or.inl rfl
  · exact Or.inr rfl
  · exact Or.inr rfl

theorem helloworldHttp_answering :
    AnsweringHooks ([myHttpGetHandler, myHttpDefaultHandler].map UserHook.hook) helloworldReply where
  idle event conn world h := callHooksFrom_idle (helloworldHttp_idle h) 1
  answer conn http world hx hdone hm hset := by
    have hst : (helloworldReply http).2 ≠ adOk := by
      rcases helloworldReply_status http with h | h <;> rw [h] <;> decide
    by_cases hget : http.request.method = some (bytes "GET")
    · have hpass : myHttpGetHandler.hook.Passes conn := fun h => h.2.2 (hm.trans hget).symm
      obtain ⟨cb, hcb, hrun⟩ := myHttpGetHandler.run rfl (myHttpGetHandler_done rfl hx hdone hget)
        (runCalls_respond hx _)
      exact ⟨(), _, callHooksFrom_stop _ _ _ _ hcb hpass hrun hst⟩
    · have hskip : ¬myHttpGetHandler.hook.Passes conn := fun h =>
        h ⟨rfl, hm ▸ hset, fun e => hget (hm.symm.trans e.symm)⟩
      have hpass : myHttpDefaultHandler.hook.Passes conn := fun h => by
        simp [UserHook.hook, myHttpDefaultHandler] at h
      obtain ⟨cb, hcb, hrun⟩ := myHttpDefaultHandler.run rfl
        (myHttpDefaultHandler_done rfl hx hdone hget) (runCalls_respond hx _)
      refine ⟨(), ⟨1, false, conn⟩ :: [⟨2, true, conn⟩], ?_⟩
      rw [List.map_cons, callHooksFrom_skip _ _ _ _ rfl hskip, List.map_cons,
        callHooksFrom_stop _ _ _ _ hcb hpass hrun hst]
  status := helloworldReply_status

theorem helloworldHttp_server [UrlDecoder] :
    AnsweringServer helloworldHttpServer helloworldReply :=
  ⟨helloworldHttp_pipelining, _, helloworldHttp_hooks, helloworldHttp_answering⟩

/-- A request that arrives in two segments. -/
theorem answers_one_request :
    let x := exchange (@helloworldHttpServer percentDecoder) ()
      [.read (bytes "GET / HT"), .drain 1, .read (bytes "TP/1.1\r\n\r\n"), .drain 10]
    x.sent = @Message.answer percentDecoder helloworldReply getMessage ∧ x.Open := by
  intro x
  obtain ⟨hsent, hstays⟩ := @answers_in_order percentDecoder _ _ _ (@helloworldHttp_server percentDecoder)
    [getMessage] ()
    [.read (bytes "GET / HT"), .drain 1, .read (bytes "TP/1.1\r\n\r\n"), .drain 10]
    (by decide +kernel)
  have hserved : @served percentDecoder [getMessage]
      (heard [.read (bytes "GET / HT"), .drain 1, .read (bytes "TP/1.1\r\n\r\n"), .drain 10]) =
        [getMessage] := by
    apply @served_of_enough percentDecoder
    exact Serving.enough_cons.2 ⟨by decide +kernel, by simp [Serving.Enough, endsFrom]⟩
  rw [hserved] at hsent hstays
  have hopen : ¬@Message.Ends percentDecoder helloworldReply getMessage := by
    unfold Message.Ends
    decide +kernel
  refine ⟨?_, hstays.2 ⟨by simpa using hopen, by decide⟩⟩
  rw [hsent, Serving.upTo_cons_of_neg hopen]
  simp

end Asyncd
