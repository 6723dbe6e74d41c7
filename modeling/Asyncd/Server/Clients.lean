import Asyncd.Server.Interleaving
import Asyncd.Server.Responses
import Asyncd.Server.Service
import Asyncd.Server.Survival

/-!
# The clients of a server

`received` is what the transport takes from one of the connections while the loop calls back on all of
them in any order; where connections do not interfere, it is what is taken in the connection's own
session (`loopRun_received`).  So every client of the example servers receives what it would receive
alone: the greeting (`helloworldTcp_greets`), or the answers to its own requests
(`helloworldHttp_answers`).
-/

open CString ByteLines

namespace Asyncd

/-! ## What a client receives -/

section

variable {σ ρ : Type} (server : AdServer σ)

/-- What the transport takes from connection `k` in a step of the loop. -/
def Running.transported (s : Running σ) (k : ℕ) : LoopStep → Bytes
  | .accept => []
  | .callback j c =>
    if j = k then
      (s.conns[k]?.map fun a => Session.transported ⟨a.conn, s.world, a.trace⟩ c).getD []
    else []

/-- What it takes from connection `k` as long as the process runs. -/
def received (k : ℕ) : Running σ → List LoopStep → Bytes
  | _, [] => []
  | s, step :: steps =>
    s.transported k step ++ ((loopStep server s step).map fun s => received k s steps).getD []

variable {server} {view : σ → ρ} {world : σ} {handles : Handles}

theorem received_concat (k : ℕ) {s s' : Running σ} {steps : List LoopStep}
    (hrun : loopRun server s steps = some s') (step : LoopStep) :
    received server k s (steps ++ [step]) = received server k s steps ++ s'.transported k step := by
  induction steps generalizing s with
  | nil =>
    cases hrun
    have hend : ((loopStep server s' step).map fun _ => ([] : Bytes)).getD [] = [] := by
      cases loopStep server s' step <;> rfl
    simp only [List.nil_append, received, hend, List.append_nil]
  | cons first steps ih =>
    rw [loopRun, List.foldlM_cons, Option.bind_eq_bind, Option.bind_eq_some_iff] at hrun
    obtain ⟨s₁, hfirst, hrun⟩ := hrun
    rw [List.cons_append, received, received, hfirst, Option.map_some, Option.map_some,
      Option.getD_some, Option.getD_some, ih hrun, List.append_assoc]

/-- Where connections do not interfere, they are where their own sessions are. -/
theorem loopRun_conns (h : ∀ hook ∈ server.hooks, hook.ReadsOnly view) {steps : List LoopStep}
    {s : Running σ} (hrun : loopRun server ⟨handles, [], [], world⟩ steps = some s) :
    s.conns = (List.range (accepts steps)).map fun k =>
      (session server world (callbacksOf k steps)).accepted := by
  have hloop := loopRun_eq_sessions world h handles steps
  rw [hrun, Option.map_some] at hloop
  dsimp only at hloop
  split_ifs at hloop
  exact Option.some.inj hloop

theorem callbacksOf_concat (k : ℕ) (steps : List LoopStep) (step : LoopStep) :
    callbacksOf k (steps ++ [step]) =
      callbacksOf k steps ++ Interleave.own k (accepts steps) [step.toStep] := by
  rw [callbacksOf, List.map_append, Interleave.own_append, Nat.zero_add]
  rfl

theorem loopRun_received (h : ∀ hook ∈ server.hooks, hook.ReadsOnly view) (k : ℕ)
    {steps : List LoopStep} {s : Running σ}
    (hrun : loopRun server ⟨handles, [], [], world⟩ steps = some s) :
    received server k ⟨handles, [], [], world⟩ steps =
      (exchange server world (callbacksOf k steps)).taken := by
  induction steps using List.reverseRecOn generalizing s with
  | nil => rfl
  | append_singleton steps step ih =>
    rw [loopRun, List.foldlM_append, Option.bind_eq_bind, Option.bind_eq_some_iff] at hrun
    obtain ⟨s₀, hrun, -⟩ := hrun
    have hget : s₀.conns[k]? = if k < accepts steps then
        some (session server world (callbacksOf k steps)).accepted else none := by
      rw [loopRun_conns h hrun, List.getElem?_map]
      by_cases hk : k < accepts steps
      · rw [List.getElem?_range hk, if_pos hk]
        rfl
      · rw [List.getElem?_eq_none (by simpa using hk), if_neg hk]
        rfl
    rw [received_concat k hrun, ih hrun, callbacksOf_concat]
    cases step with
    | accept => simp [Running.transported, LoopStep.toStep, Interleave.own]
    | callback j c =>
      rw [LoopStep.toStep, Interleave.own, Interleave.own, Running.transported, hget]
      by_cases hj : j = k
      · by_cases hk : k < accepts steps
        · rw [if_pos hj, if_pos hk, if_pos ⟨hj, hk⟩, exchange_concat]
          have hsame : (exchange server world (callbacksOf k steps)).session.transported c =
              Session.transported ⟨(session server world (callbacksOf k steps)).conn, s₀.world,
                (session server world (callbacksOf k steps)).trace⟩ c := by
            rw [exchange_session]
            cases c <;> rfl
          rw [Exchange.step, hsame]
          rfl
        · simp [hk]
      · simp [hj]

/-- What a client has received, and what waits for it in the out buffer of connection `k`. -/
def Running.sentTo (s : Running σ) (k : ℕ) (taken : Bytes) : Bytes :=
  taken ++ (((s.conns[k]?.bind Accepted.conn).map fun conn => conn.out).getD [])

theorem loopRun_sent (h : ∀ hook ∈ server.hooks, hook.ReadsOnly view) {steps : List LoopStep}
    {s : Running σ} (hrun : loopRun server ⟨handles, [], [], world⟩ steps = some s) {k : ℕ}
    (hk : k < accepts steps) :
    s.sentTo k (received server k ⟨handles, [], [], world⟩ steps) =
        (exchange server world (callbacksOf k steps)).sent ∧
      s.conns[k]? = some (exchange server world (callbacksOf k steps)).session.accepted := by
  have hget : s.conns[k]? = some (exchange server world (callbacksOf k steps)).session.accepted := by
    rw [loopRun_conns h hrun, List.getElem?_map, List.getElem?_range hk, exchange_session]
    rfl
  refine ⟨?_, hget⟩
  rw [Running.sentTo, hget, loopRun_received h k hrun]
  rfl

theorem conn_open_iff {s : Running σ} {k : ℕ} {x : Exchange σ}
    (h : s.conns[k]? = some x.session.accepted) :
    (∃ conn trace, s.conns[k]? = some ⟨some conn, trace⟩ ∧
      (conn.status = adOk ∨ conn.status = adTakeover)) ↔ x.Open := by
  rw [h]
  constructor
  · rintro ⟨conn, trace, hconn, hst⟩
    exact ⟨conn, congrArg Accepted.conn (Option.some.inj hconn), hst⟩
  · rintro ⟨conn, hconn, hst⟩
    exact ⟨conn, _, by rw [← hconn]; rfl, hst⟩

end

theorem readsOnly_unit (hook : AdHook Unit) : hook.ReadsOnly fun world : Unit => world :=
  ⟨fun _ _ _ _ _ _ _ _ _ => rfl, fun _ _ _ _ _ _ _ => rfl⟩

/-- Where no session ends the process and nothing is shared, the loop runs on, and every client is where
it would be alone. -/
theorem loopRun_clients {server : AdServer Unit} (h : ∀ cs, (session server () cs).exited = false)
    (handles : Handles) (steps : List LoopStep) :
    ∃ s, loopRun server ⟨handles, [], [], ()⟩ steps = some s ∧ ∀ k < accepts steps,
      s.sentTo k (received server k ⟨handles, [], [], ()⟩ steps) =
          (exchange server () (callbacksOf k steps)).sent ∧
        s.conns[k]? = some (exchange server () (callbacksOf k steps)).session.accepted := by
  have hreads : ∀ hook ∈ server.hooks, hook.ReadsOnly fun world : Unit => world :=
    fun hook _ => readsOnly_unit hook
  have hloop := loopRun_eq_sessions () hreads handles steps
  dsimp only at hloop
  rw [if_neg (by simp [h])] at hloop
  obtain ⟨s, hrun, -⟩ := Option.map_eq_some_iff.1 hloop
  exact ⟨s, hrun, fun k hk => loopRun_sent hreads hrun hk⟩

/-! ## `helloworld_tcp_server.c` -/

theorem helloworldTcp_closing (cs : List Callback) :
    (exchange helloworldTcpServer () cs).Closing (bytes "Hello World.") := by
  have hinit : callHooks helloworldTcpServer evInitWrite blankConn () = (some adClose,
      { blankConn with out := bytes "Hello World." }, (), [⟨0, true, blankConn⟩]) := by
    rw [callHooks, helloworldTcp_hooks]
    rfl
  have hconn : (exchange helloworldTcpServer () []).session.conn = _ := dispatch_conn hinit
    fun status conn world => ⟨some { conn with status := status }, world, []⟩
  exact closing_run _ (closing_of_conn hconn rfl rfl) cs

theorem helloworldTcp_not_exited (cs : List Callback) :
    (session helloworldTcpServer () cs).exited = false := by
  rw [← survives_iff]
  intro d hd
  obtain ⟨world, -, hst⟩ := session_calls helloworldTcpServer () cs hd
  rw [callHooks, helloworldTcp_hooks] at hst
  cases hw : d.event.write <;>
    simp [hst, callHooksFrom, myConnHandler, hw, adOk, adClose]

/-- In whatever order the loop calls back, no callback ends the process, and every client of
`helloworld_tcp_server.c` is sent the greeting and nothing else. -/
theorem helloworldTcp_greets (handles : Handles) (steps : List LoopStep) :
    ∃ s, loopRun helloworldTcpServer ⟨handles, [], [], ()⟩ steps = some s ∧
      ∀ k < accepts steps,
        s.sentTo k (received helloworldTcpServer k ⟨handles, [], [], ()⟩ steps) =
          bytes "Hello World." := by
  obtain ⟨s, hrun, hclients⟩ := loopRun_clients helloworldTcp_not_exited handles steps
  refine ⟨s, hrun, fun k hk => ?_⟩
  rw [(hclients k hk).1]
  exact (helloworldTcp_closing (callbacksOf k steps)).2

/-! ## `helloworld_http_server.c` -/

section

variable [UrlDecoder]

/-- Neither hook calls a function on a request that does not exist. -/
theorem helloworldHttp_careful : CarefulServer helloworldHttpServer fun _ => true := by
  refine ⟨_, helloworldHttp_hooks, ?_⟩
  intro user huser cb hcb event conn world
  by_cases hdone : event.read = true ∧ adHttpGetStatus conn.toConnView = .done
  · obtain ⟨http, hx, -⟩ := (adHttpGetStatus_done _).1 hdone.2
    have hx : conn.httpState = some http := hx
    have hsome : conn.httpState ≠ none := by simp [hx]
    rcases List.mem_cons.1 huser with rfl | huser
    · cases hcb
      simp only [hdone.1, hdone.2, if_true]
      exact ⟨_, _, _, congrArg _ hx, fun h => absurd h hsome⟩
    · obtain rfl := List.mem_singleton.1 huser
      cases hcb
      simp only [hdone.1, hdone.2, if_true]
      exact ⟨_, _, _, rfl, fun h => absurd h hsome⟩
  · refine ⟨[], adOk, (), helloworldHttp_idle ?_ user huser cb hcb, by simp⟩
    intro http hx hd
    exact hdone ⟨hd.1, (adHttpGetStatus_done _).2 ⟨http, hx, hd.2⟩⟩

theorem Message.parsed_response (m : Message) : m.parsed.response = freshHttp.response :=
  httpParser_response freshHttp m.wire

/-- The response to a request. -/
def helloworldAnswer (m : Message) : Bytes :=
  if m.parsed.request.method = some (bytes "GET") then
    simpleHeader m.parsed 200 (bytes "text/html") 11 ++ bytes "Hello World"
  else simpleHeader m.parsed 501 (bytes "text/html") 15 ++ bytes "Not implemented"

/-- The request is the last one. -/
def HelloworldEnds (m : Message) : Prop :=
  ¬(m.parsed.request.method = some (bytes "GET") ∧ adHttpIsKeepaliveRequest m.parsed = true)

instance : DecidablePred HelloworldEnds := fun _ => inferInstanceAs (Decidable (¬(_ ∧ _)))

theorem answer_helloworld (m : Message) : m.answer helloworldReply = helloworldAnswer m := by
  have hresponse : ∀ (code : ℤ) (data : Bytes), data.length < 2 ^ 64 →
      (runResponse m.parsed [] [.response code (some (bytes "text/html")) (some data)
        data.length]).2 = simpleHeader m.parsed code (bytes "text/html") data.length ++ data :=
    fun code data hdata => adHttpResponse_fresh m.parsed_response [] code _ data hdata
  by_cases hget : m.parsed.request.method = some (bytes "GET")
  · rw [Message.answer, helloworldReply, if_pos hget, helloworldAnswer, if_pos hget]
    exact hresponse 200 (bytes "Hello World") (by decide)
  · rw [Message.answer, helloworldReply, if_neg hget, helloworldAnswer, if_neg hget]
    exact hresponse 501 (bytes "Not implemented") (by decide)

theorem ends_helloworld (m : Message) : m.Ends helloworldReply ↔ HelloworldEnds m := by
  unfold Message.Ends helloworldReply HelloworldEnds
  by_cases hget : m.parsed.request.method = some (bytes "GET")
  · by_cases hk : adHttpIsKeepaliveRequest m.parsed = true
    · simp [hget, hk, adDone, adClose]
    · simp [hget, hk]
  · simp [hget]

/-- In whatever order the loop calls back, no callback ends the process.  Every client of
`helloworld_http_server.c` that sends well-formed requests, in whatever segments, is sent the responses
to those that are served, in order, up to the first that is not a GET request or is not kept alive, and
its connection stays open exactly while there is none and the client does not hang up. -/
theorem helloworldHttp_answers (handles : Handles) (steps : List LoopStep) :
    ∃ s, loopRun helloworldHttpServer ⟨handles, [], [], ()⟩ steps = some s ∧
      ∀ k < accepts steps, ∀ ms : List Message,
        (arrivals (heard (callbacksOf k steps))).flatten <+: wires ms →
        let done := served ms (heard (callbacksOf k steps))
        s.sentTo k (received helloworldHttpServer k ⟨handles, [], [], ()⟩ steps) =
            (Serving.upTo HelloworldEnds done).flatMap helloworldAnswer ∧
          ((∃ conn trace, s.conns[k]? = some ⟨some conn, trace⟩ ∧
              (conn.status = adOk ∨ conn.status = adTakeover)) ↔
            (∀ m ∈ done, ¬HelloworldEnds m) ∧ ∀ c ∈ callbacksOf k steps, ¬c.HangsUp) := by
  obtain ⟨s, hrun⟩ := loopRun_survives helloworldHttp_careful (Or.inr fun _ => rfl) handles () steps
  refine ⟨s, hrun, fun k hk ms hms => ?_⟩
  have hreads : ∀ hook ∈ helloworldHttpServer.hooks, hook.ReadsOnly fun world : Unit => world :=
    fun hook _ => readsOnly_unit hook
  obtain ⟨hsent, hconn⟩ := loopRun_sent hreads hrun hk
  obtain ⟨hanswers, hstays⟩ := answers_in_order helloworldHttp_server ms () (callbacksOf k steps) hms
  constructor
  · rw [hsent, hanswers, List.nil_append, Serving.upTo_congr ends_helloworld]
    exact congrArg (List.flatMap · _) (funext answer_helloworld)
  · simp only [← ends_helloworld]
    exact (conn_open_iff hconn).trans hstays

end

/-- Another request without headers and body. -/
def postHead : FieldHead := ⟨postLine, [], crlf, isEol_blank⟩

theorem postHead_announcesNothing : @FieldHead.AnnouncesNothing percentDecoder postHead := by
  refine @FieldHead.AnnouncesNothing.mk percentDecoder _ ?_ ?_ ?_
  · unfold RequestHead.Accepted
    decide +kernel
  · simp [postHead]
  · simp [postHead]

def postMessage : @Message percentDecoder :=
  @Message.mk percentDecoder postHead .none postHead_announcesNothing

/-- Two clients: a GET request in two segments, and between them a POST request. -/
theorem helloworldHttp_answers_two :
    let steps : List LoopStep := [.accept, .accept, .callback 0 (.read (bytes "GET / HT")),
      .callback 1 (.read (bytes "POST / HTTP/1.1\r\n\r\n")),
      .callback 0 (.read (bytes "TP/1.1\r\n\r\n"))]
    let r : Running Unit := ⟨⟨none, none, none, none, none⟩, [], [], ()⟩
    ∃ s, loopRun (@helloworldHttpServer percentDecoder) r steps = some s ∧
      s.sentTo 0 (received (@helloworldHttpServer percentDecoder) 0 r steps) =
        bytes ("HTTP/1.1 200 OK\r\nConnection: Keep-Alive\r\nContent-Type: text/html\r\n" ++
          "Content-Length: 11\r\n\r\nHello World") ∧
      (∃ conn trace, s.conns[0]? = some ⟨some conn, trace⟩ ∧
        (conn.status = adOk ∨ conn.status = adTakeover)) ∧
      s.sentTo 1 (received (@helloworldHttpServer percentDecoder) 1 r steps) =
        bytes ("HTTP/1.1 501 Not Implemented\r\nConnection: Keep-Alive\r\n" ++
          "Content-Type: text/html\r\nContent-Length: 15\r\n\r\nNot implemented") ∧
      ¬∃ conn trace, s.conns[1]? = some ⟨some conn, trace⟩ ∧
        (conn.status = adOk ∨ conn.status = adTakeover) := by
  intro steps r
  obtain ⟨s, hrun, hclients⟩ := @helloworldHttp_answers percentDecoder r.handles steps
  obtain ⟨hget, hgetOpen⟩ := hclients 0 (by decide) [getMessage] (by decide +kernel)
  obtain ⟨hpost, hpostOpen⟩ := hclients 1 (by decide) [postMessage] (by decide +kernel)
  have hserved : @served percentDecoder [getMessage] (heard (callbacksOf 0 steps)) = [getMessage] := by
    apply @served_of_enough percentDecoder
    exact Serving.enough_cons.2 ⟨by decide +kernel, by simp [Serving.Enough, endsFrom]⟩
  have hserved' : @served percentDecoder [postMessage] (heard (callbacksOf 1 steps)) =
      [postMessage] := by
    apply @served_of_enough percentDecoder
    exact Serving.enough_cons.2 ⟨by decide +kernel, by simp [Serving.Enough, endsFrom]⟩
  have hends : ¬@HelloworldEnds percentDecoder getMessage := by decide +kernel
  have hends' : @HelloworldEnds percentDecoder postMessage := by decide +kernel
  rw [hserved] at hget hgetOpen
  rw [hserved'] at hpost hpostOpen
  refine ⟨s, hrun, hget.trans ?_, hgetOpen.2 ⟨by simpa using hends, by decide⟩, hpost.trans ?_, ?_⟩
  · rw [Serving.upTo_cons_of_neg hends]
    decide +kernel
  · rw [Serving.upTo_cons_of_pos hends']
    decide +kernel
  · exact fun h => (hpostOpen.1 h).1 postMessage (by simp) hends'

end Asyncd
