import Asyncd.Server.Lifecycle

/-!
# The server and its connections

The event loop accepts connections and calls back on them in any order; when it has finished,
`close_server` and `ad_server_free` release what the server holds.  The connections are not among it:
`shutdown_closes_iff` says that only those are closed that were closed before.
-/

open CString

namespace Asyncd

/-! ## The loop -/

/-- A connection that was accepted, while it exists, and what has happened to it. -/
structure Accepted where
  conn : Option AdConn
  trace : List Output
  deriving DecidableEq

/-- What a server holds: the objects behind the pointers of `struct ad_server_s`, and the server itself
with its options, statistics and hooks. -/
inductive Handle
  | notifyBuffer (id : ℕ)
  | listener (id : ℕ)
  | thread (id : ℕ)
  | evbase (id : ℕ)
  | sslctx (id : ℕ)
  | server
  deriving DecidableEq

/-- The pointers of `struct ad_server_s`. -/
structure Handles where
  notifyBuffer : Option ℕ
  listener : Option ℕ
  thread : Option ℕ
  evbase : Option ℕ
  sslctx : Option ℕ
  deriving DecidableEq

/-- A server in a process that exists: what it holds, what was released, its connections in the order in
which they were accepted, and the world. -/
structure Running (σ : Type) where
  handles : Handles
  released : List Handle
  conns : List Accepted
  world : σ

/-- What the loop does: it accepts a connection, or calls back on one. -/
inductive LoopStep
  | accept
  | callback (k : ℕ) (c : Callback)

section

variable {σ : Type}

/-- A hook has ended the process. -/
def Session.exited (s : Session σ) : Bool := (dispatches s.trace).any fun d => d.status.isNone

variable (server : AdServer σ)

/-- One step of the loop, unless a hook ends the process: `listener_cb`, when its allocations succeed,
or a callback of a connection. -/
def loopStep (s : Running σ) : LoopStep → Option (Running σ)
  | .accept =>
    let new := connNew server [] [] s.world
    if new.exited then none
    else some { s with conns := s.conns ++ [⟨new.conn, new.trace⟩], world := new.world }
  | .callback k c =>
    match s.conns[k]? with
    | none => some s
    | some a =>
      let new := Session.step server ⟨a.conn, s.world, a.trace⟩ c
      if new.exited then none
      else some { s with conns := s.conns.set k ⟨new.conn, new.trace⟩, world := new.world }

/-- Steps of the loop, one after the other. -/
def loopRun (s : Running σ) (steps : List LoopStep) : Option (Running σ) :=
  steps.foldlM (loopStep server) s

/-! ## The end of the server -/

variable (calls : Handle → List LoopStep)

/-- Release an object, if there is one; `calls` are the callbacks that libevent makes meanwhile. -/
def Running.release (s : Running σ) : Option Handle → Option (Running σ)
  | none => some s
  | some h => loopRun server { s with released := s.released ++ [h] } (calls h)

/-- `close_server`, when the loop has finished: `pthread_join` waits for that. -/
def closeServer (s : Running σ) : Option (Running σ) := do
  let s ← s.release server calls (s.handles.notifyBuffer.map .notifyBuffer)
  let s := { s with handles.notifyBuffer := none }
  let s ← s.release server calls (s.handles.listener.map .listener)
  let s := { s with handles.listener := none }
  let s ← s.release server calls (s.handles.thread.map .thread)
  return { s with handles.thread := none }

/-- `ad_server_free`. -/
def adServerFree (s : Running σ) : Option (Running σ) := do
  let s ←
    if adServerGetOptionInt server (bytes "server.thread") ≠ 0 ∧ s.handles.thread.isSome then
      closeServer server calls s
    else pure s
  let s ← s.release server calls (s.handles.evbase.map .evbase)
  let s ← s.release server calls (s.handles.sslctx.map .sslctx)
  s.release server calls (some .server)

/-- The server is stopped and released. -/
def shutdown (s : Running σ) : Option (Running σ) := do
  let s ← closeServer server calls s
  adServerFree server calls s

end

/-! ## The end of a connection -/

section

variable {σ : Type} (server : AdServer σ)

/-- The outputs of a connection that is freed: after the dispatch `d`, the userdata that the hooks left is
released. -/
def Freed (tr : List Output) : Prop :=
  ∃ (pre : List Output) (d : Dispatch) (world : σ),
    tr = pre ++ .dispatch d ::
      ((connReset (callHooks server d.event d.before world).2.1).2 ++ [.connFree])

/-- Whoever frees the connection releases its userdata first. -/
def Session.Tidy (s : Session σ) : Prop := Output.connFree ∈ s.trace → Freed server s.trace

variable {server}

theorem Freed.append {tr : List Output} (h : Freed server tr) (out : List Output) :
    Freed server (out ++ tr) := by
  obtain ⟨pre, d, world, rfl⟩ := h
  exact ⟨out ++ pre, d, world, (List.append_assoc _ _ _).symm⟩

theorem Session.Tidy.after {s : Session σ} (h : s.Tidy server) {out : List Output}
    (hout : Output.connFree ∉ out) : (s.after out).Tidy server := by
  intro hf
  rcases List.mem_append.1 hf with hf | hf
  · exact absurd hf hout
  · exact (h hf).append out

theorem dispatch_tidy {event : Event} {conn : AdConn} {world : σ}
    {next : ℤ → AdConn → σ → Session σ}
    (hnext : ∀ st conn' world', conn'.status = conn.status →
      (next st conn' world').Tidy server) :
    (dispatch server event conn world next).Tidy server := by
  obtain ⟨d, -, -, ⟨-, -, htr⟩ | ⟨st, conn', world', -, hst, hrun⟩⟩ :=
    dispatch_cases server event conn world next
  · intro hf
    rw [htr] at hf
    simp at hf
  · rw [hrun]
    exact (hnext st conn' world' hst).after (by simp)

theorem tidy_idle (conn : AdConn) (world : σ) :
    (Session.mk (some conn) world []).Tidy server := fun hf => by cases hf

theorem final_tidy (event : Event) {conn : AdConn} (hclose : conn.status = adClose) (world : σ) :
    (dispatch server event conn world fun _ conn world => connFree server conn world).Tidy
      server := by
  have hst := callHooksFrom_status event 0 server.hooks conn world
  intro hf
  unfold dispatch at hf ⊢
  cases hcalls : callHooks server event conn world with
  | mk status r =>
    obtain ⟨conn', world', visits⟩ := r
    rw [← callHooks, hcalls] at hst
    rw [hcalls] at hf
    cases status with
    | none => simp at hf
    | some st =>
      have hfree := connFree_of_close server (hst.trans hclose) world'
      refine ⟨[], ⟨event, conn, visits, some st⟩, world, ?_⟩
      simp only [hcalls, hfree, Session.after, connRelease, List.nil_append, List.singleton_append]

theorem connCbEnd_tidy (event : Event) (conn : AdConn) (world : σ) :
    (connCbEnd server event conn world).Tidy server := by
  apply connCbEnd_cases server event conn world
  · intro _ _
    apply dispatch_tidy
    intro _ conn' world' _
    apply Session.Tidy.after _ (releases_connReset conn').2
    exact dispatch_tidy fun _ conn world _ => tidy_idle conn world
  · exact fun _ => tidy_idle _ world
  · exact fun _ => tidy_idle conn world
  · exact fun hclose _ => final_tidy _ hclose world

theorem connCb_tidy (event : Event) (conn : AdConn) (world : σ) :
    (connCb server event conn world).Tidy server := by
  unfold connCb
  split_ifs
  · exact dispatch_tidy fun _ _ world' _ => connCbEnd_tidy event _ world'
  · exact connCbEnd_tidy event conn world

/-- Every callback that frees the connection releases its userdata first. -/
theorem callback_tidy (c : Callback) (conn : AdConn) (world : σ) :
    (callback server c conn world).Tidy server := by
  cases c with
  | read seg => exact connCb_tidy evRead _ world
  | write => exact connCb_tidy evWrite conn world
  | event what =>
    rw [callback, connEventCb]
    split_ifs
    · exact connCb_tidy _ _ world
    · exact tidy_idle conn world
  | drain n => exact tidy_idle _ world

/-! ## Connections of the loop -/

/-- What is known of a connection of the loop, whatever the others do: it goes on by moves, no hook of
it has ended the process, and it is freed with its userdata. -/
structure Accepted.Lives (server : AdServer σ) (a : Accepted) : Prop where
  moves : ∃ (d : Dispatch) (out : List Output), d.event = evInitWrite ∧ a.trace = .dispatch d :: out ∧
    Moves server.pipelining d.status out (a.conn.map AdConn.status)
  running : ∀ d ∈ dispatches a.trace, d.status ≠ none
  tidy : Output.connFree ∈ a.trace → Freed server a.trace

theorem running_of_not_exited {s : Session σ} (h : ¬s.exited) :
    ∀ d ∈ dispatches s.trace, d.status ≠ none := by
  intro d hd hnone
  apply h
  rw [Session.exited, List.any_eq_true]
  exact ⟨d, hd, by rw [hnone]; rfl⟩

theorem Accepted.Lives.not_freed {a : Accepted} (h : a.Lives server) {conn : AdConn}
    (hconn : a.conn = some conn) : Output.connFree ∉ a.trace := by
  obtain ⟨d, out, -, htr, hm⟩ := h.moves
  rw [hconn] at hm
  rw [htr, List.mem_cons, not_or]
  exact ⟨by simp, hm.not_freed⟩

theorem lives_new {world : σ} (hexit : ¬(connNew server [] [] world).exited) :
    Accepted.Lives server
      ⟨(connNew server [] [] world).conn, (connNew server [] [] world).trace⟩ := by
  obtain ⟨d, he, htr, hst⟩ := session_start server world
  have hm : Moves server.pipelining d.status []
      ((connNew server [] [] world).conn.map AdConn.status) := by
    rw [← hst]
    exact .refl _
  refine ⟨⟨d, [], he, htr, hm⟩, running_of_not_exited hexit, ?_⟩
  intro hf
  rw [show (connNew server [] [] world).trace = _ from htr] at hf
  simp at hf

theorem Accepted.Lives.step {a : Accepted} (h : a.Lives server) {world : σ} {c : Callback}
    (hexit : ¬(Session.step server ⟨a.conn, world, a.trace⟩ c).exited) :
    Accepted.Lives server ⟨(Session.step server ⟨a.conn, world, a.trace⟩ c).conn,
      (Session.step server ⟨a.conn, world, a.trace⟩ c).trace⟩ := by
  obtain ⟨d, out, he, htr, hm⟩ := h.moves
  obtain ⟨out', htr', hm'⟩ := step_moves server ⟨a.conn, world, a.trace⟩ c
  refine ⟨⟨d, out ++ out', he, ?_, hm.trans hm'⟩, running_of_not_exited hexit, ?_⟩
  · rw [htr']
    simp only [htr, List.cons_append]
  · cases hconn : a.conn with
    | none => exact h.tidy
    | some conn => exact (callback_tidy c conn world).after (h.not_freed hconn)

variable (server)

/-- The invariant rule of the loop. -/
theorem loopRun_rule {I : Running σ → Prop}
    (hstep : ∀ s s' step, I s → loopStep server s step = some s' → I s') {s s' : Running σ}
    {steps : List LoopStep} (hs : I s) (hrun : loopRun server s steps = some s') : I s' := by
  unfold loopRun at hrun
  induction steps generalizing s with
  | nil =>
    cases hrun
    exact hs
  | cons step steps ih =>
    rw [List.foldlM_cons, Option.bind_eq_bind, Option.bind_eq_some_iff] at hrun
    rcases hrun with ⟨s₁, hfirst, hrest⟩
    exact ih (hstep s s₁ step hs hfirst) hrest

theorem loopStep_lives {s s' : Running σ} {step : LoopStep} (hs : ∀ a ∈ s.conns, a.Lives server)
    (hstep : loopStep server s step = some s') : ∀ a ∈ s'.conns, a.Lives server := by
  cases step with
  | accept =>
    simp only [loopStep, Option.ite_none_left_eq_some, Option.some.injEq] at hstep
    obtain ⟨hexit, rfl⟩ := hstep
    simp only [List.forall_mem_append, List.forall_mem_singleton]
    exact ⟨hs, lives_new hexit⟩
  | callback k c =>
    rw [loopStep] at hstep
    cases hk : s.conns[k]? with
    | none =>
      rw [hk] at hstep
      cases hstep
      exact hs
    | some a =>
      simp only [hk, Option.ite_none_left_eq_some, Option.some.injEq] at hstep
      obtain ⟨hexit, rfl⟩ := hstep
      intro a' ha'
      rcases List.mem_or_eq_of_mem_set ha' with ha' | rfl
      · exact hs a' ha'
      · exact (hs a (List.mem_of_getElem? hk)).step hexit

theorem loopRun_lives {s s' : Running σ} {steps : List LoopStep} (hs : ∀ a ∈ s.conns, a.Lives server)
    (hrun : loopRun server s steps = some s') : ∀ a ∈ s'.conns, a.Lives server :=
  loopRun_rule server (I := fun s => ∀ a ∈ s.conns, a.Lives server)
    (fun _ _ _ hs hstep => loopStep_lives server hs hstep) hs hrun

/-- The connection has ended: nothing but the closes of finished requests came before the final close,
which carries `AD_EVENT_SHUTDOWN` if it is asked for; then the userdata was released, and the connection
freed. -/
def Accepted.Closed (shutdown : Bool) (a : Accepted) : Prop :=
  a.conn = none ∧ ∃ (pre : List Output) (d : Dispatch) (world : σ),
    a.trace = pre ++ .dispatch d ::
      ((connReset (callHooks server d.event d.before world).2.1).2 ++ [.connFree]) ∧
      Output.connFree ∉ pre ∧ (dispatches pre).map Dispatch.event ∈ opened ∧
      d.event.close = true ∧ (shutdown = true → d.event.shutdown = true)

variable {server}

/-- The last dispatch of a trace, and what follows it, are determined. -/
theorem last_dispatch_unique {pre pre' rel rel' : List Output} {d d' : Dispatch}
    (h : pre ++ .dispatch d :: rel = pre' ++ .dispatch d' :: rel') (hrel : dispatches rel = [])
    (hrel' : dispatches rel' = []) : pre = pre' ∧ d = d' ∧ rel = rel' := by
  rcases append_eq_split h with ⟨m, rfl, rfl⟩ | ⟨m, rfl, hm⟩
  · simp at hrel'
  · cases m with
    | nil =>
      obtain ⟨hd, rfl⟩ := List.cons_eq_cons.1 hm
      cases hd
      exact ⟨(List.append_nil _).symm, rfl, rfl⟩
    | cons o m =>
      rw [(List.cons_eq_cons.1 hm).2] at hrel
      simp at hrel

/-- A connection of the loop that is gone has been closed in order. -/
theorem Accepted.Lives.closed {a : Accepted} (h : a.Lives server) (hnone : a.conn = none) :
    a.Closed server false := by
  obtain ⟨d₀, out, he, htr, hm⟩ := h.moves
  have hd₀ : d₀.status ≠ none := h.running d₀ (by rw [htr]; simp)
  have hfreed : Output.connFree ∈ out := by
    rcases hm.ended hd₀ (by rw [hnone]; rfl) with hf | ⟨d, hd, hst⟩
    · exact hf
    · exact absurd hst (h.running d (by rw [htr]; simp [hd]))
  obtain ⟨pre, d, rel, rfl, ⟨⟨t, hclose⟩, -⟩, hrel, hpre, hopen, -⟩ := hm.freed hfreed
  obtain ⟨pre', d', world, hpre'⟩ := h.tidy (by rw [htr]; simp)
  have hsame : Output.dispatch d₀ :: pre ++ .dispatch d :: (rel ++ [.connFree]) =
      pre' ++ .dispatch d' ::
        ((connReset (callHooks server d'.event d'.before world).2.1).2 ++ [.connFree]) := by
    rw [← hpre', htr]
    rfl
  have hnil : ∀ {rel : List Output}, Releases rel → dispatches (rel ++ [.connFree]) = [] := by
    intro rel hrel
    simp [hrel.1]
  obtain ⟨rfl, rfl, -⟩ := last_dispatch_unique hsame (hnil hrel) (hnil (releases_connReset _))
  refine ⟨hnone, _, d, world, hpre', by simp [hpre], ?_, by rw [hclose]; rfl, nofun⟩
  exact (hopen.word he).2 rfl

theorem Accepted.Lives.no_shutdown {a : Accepted} (h : a.Lives server) :
    ∀ d ∈ dispatches a.trace, d.event.shutdown = false := by
  obtain ⟨d₀, out, he, htr, hm⟩ := h.moves
  rw [htr, dispatches_dispatch, List.forall_mem_cons]
  exact ⟨by rw [he]; rfl, hm.no_shutdown⟩

end

/-! ## Shutdown -/

section

variable {σ : Type} (server : AdServer σ) {calls : Handle → List LoopStep}

theorem release_eq (hcalls : ∀ h, calls h = []) (s : Running σ) (h : Option Handle) :
    s.release server calls h = some { s with released := s.released ++ h.toList } := by
  cases h with
  | none => simp [Running.release]
  | some h =>
    rw [Running.release, hcalls]
    rfl

theorem closeServer_eq (hcalls : ∀ h, calls h = []) (s : Running σ) :
    closeServer server calls s = some
      { s with
        handles := { s.handles with notifyBuffer := none, listener := none, thread := none }
        released := s.released ++ (s.handles.notifyBuffer.map Handle.notifyBuffer).toList ++
          (s.handles.listener.map Handle.listener).toList ++
          (s.handles.thread.map Handle.thread).toList } := by
  simp [closeServer, release_eq server hcalls]

/-- `ad_server_free` releases the event base, the SSL context and the server, when the thread has
finished. -/
theorem adServerFree_eq (hcalls : ∀ h, calls h = []) {s : Running σ} (hthread : s.handles.thread = none) :
    adServerFree server calls s = some
      { s with
        released := s.released ++ (s.handles.evbase.map Handle.evbase).toList ++
          (s.handles.sslctx.map Handle.sslctx).toList ++ [.server] } := by
  simp [adServerFree, hthread, release_eq server hcalls]

/-- What the server holds is released, in this order, and nothing happens to its connections. -/
theorem shutdown_eq (hcalls : ∀ h, calls h = []) (s : Running σ) :
    shutdown server calls s = some
      { s with
        handles := { s.handles with notifyBuffer := none, listener := none, thread := none }
        released := s.released ++ (s.handles.notifyBuffer.map Handle.notifyBuffer).toList ++
          (s.handles.listener.map Handle.listener).toList ++
          (s.handles.thread.map Handle.thread).toList ++
          (s.handles.evbase.map Handle.evbase).toList ++
          (s.handles.sslctx.map Handle.sslctx).toList ++ [.server] } := by
  rw [shutdown, closeServer_eq server hcalls, Option.bind_eq_bind, Option.bind_some,
    adServerFree_eq server hcalls rfl]

end

/-- After the shutdown every connection has been closed in order exactly if all of them were closed
before.  Those that are open stay as they are, and no hook is ever told of the shutdown. -/
theorem shutdown_closes_iff {σ : Type} (server : AdServer σ) {calls : Handle → List LoopStep}
    (hcalls : ∀ h, calls h = []) (handles : Handles) (world : σ) {steps : List LoopStep} {s : Running σ}
    (hrun : loopRun server ⟨handles, [], [], world⟩ steps = some s) :
    ∃ s', shutdown server calls s = some s' ∧ s'.conns = s.conns ∧
      (List.Forall₂ (fun before a : Accepted => a.Closed server before.conn.isSome) s.conns s'.conns ↔
        ∀ a ∈ s.conns, a.conn = none) ∧
      ∀ a ∈ s'.conns, ∀ d ∈ dispatches a.trace, d.event.shutdown = false := by
  have hlives : ∀ a ∈ s.conns, a.Lives server := loopRun_lives server (by simp) hrun
  refine ⟨_, shutdown_eq server hcalls s, rfl, ?_, fun a ha => (hlives a ha).no_shutdown⟩
  rw [List.forall₂_same]
  constructor
  · intro h a ha
    exact (h a ha).1
  · intro h a ha
    have hclosed := (hlives a ha).closed (h a ha)
    rwa [h a ha]

/-- A server whose hook attaches userdata to a new connection. -/
def keepingServer : AdServer Unit where
  options := []
  hooks := [⟨none, some fun event conn world =>
    let view := conn.toConnView
    some (adOk, if event.init then adConnSetUserdata view (some (.user 1)) (some (.user 1)) else view,
      world)⟩]

/-- The server when it has been started. -/
def started : Running Unit := ⟨⟨some 0, some 1, none, some 2, none⟩, [], [], ()⟩

/-- The peer has closed the connection before the shutdown. -/
theorem shutdown_after_eof :
    ∃ s s' : Running Unit,
      loopRun keepingServer started [.accept, .callback 0 (.event { eof := true })] = some s ∧
        s.conns.length = 1 ∧ shutdown keepingServer (fun _ => []) s = some s' ∧
        List.Forall₂ (fun before a : Accepted => a.Closed keepingServer before.conn.isSome)
          s.conns s'.conns := by
  have hsome : ((loopRun keepingServer started
      [.accept, .callback 0 (.event { eof := true })]).map fun s =>
        s.conns.map Accepted.conn) = some [none] := by decide
  obtain ⟨s, hrun, hconns⟩ := Option.map_eq_some_iff.1 hsome
  obtain ⟨s', hs', -, hiff, -⟩ := @shutdown_closes_iff Unit keepingServer (fun _ => [])
    (fun _ => rfl) started.handles () _ _ hrun
  have hlen := congrArg List.length hconns
  rw [List.length_map] at hlen
  refine ⟨s, s', hrun, hlen, hs', hiff.2 fun a ha => ?_⟩
  have hmem := List.mem_map_of_mem (f := Accepted.conn) ha
  rw [hconns] at hmem
  exact List.mem_singleton.1 hmem

/-- A connection that is open when the server is stopped is not closed. -/
theorem shutdown_leaves_open :
    ∃ s s' : Running Unit, loopRun keepingServer started [.accept] = some s ∧
      shutdown keepingServer (fun _ => []) s = some s' ∧
      ¬List.Forall₂ (fun before a : Accepted => a.Closed keepingServer before.conn.isSome)
        s.conns s'.conns := by
  have hopen : ((loopRun keepingServer started [.accept]).map fun s =>
      s.conns.map fun a => a.conn.isSome) = some [true] := by decide
  obtain ⟨s, hrun, hconns⟩ := Option.map_eq_some_iff.1 hopen
  refine ⟨s, _, hrun, shutdown_eq keepingServer (fun _ => rfl) s, ?_⟩
  rw [List.forall₂_same]
  intro h
  cases hs : s.conns with
  | nil =>
    rw [hs] at hconns
    cases hconns
  | cons a conns =>
    have hnone : a.conn = none := (h a (by rw [hs]; simp)).1
    rw [hs, List.map_cons, hnone] at hconns
    cases hconns

end Asyncd
