import Asyncd.Server.Rule

/-!
# What the peer receives

The transport takes bytes from the front of the out buffer; an `Exchange` is a session with the bytes
that were taken.  `OutputInvariant.exchange` is a rule for what is true of them: an invariant may speak
of the dispatches so far, of what was taken and of what is still in the out buffer, and of a connection
that is freed it says how things stood at the final close.
-/

namespace Asyncd

variable {σ : Type}

/-- What the transport takes in a callback. -/
def Session.transported (s : Session σ) : Callback → Bytes
  | .drain n => (s.conn.map fun conn => conn.out.take n).getD []
  | _ => []

@[simp] theorem Session.transported_read (s : Session σ) (seg : Bytes) :
    s.transported (.read seg) = [] := rfl

@[simp] theorem Session.transported_write (s : Session σ) : s.transported .write = [] := rfl

@[simp] theorem Session.transported_event (s : Session σ) (what : BevEvent) :
    s.transported (.event what) = [] := rfl

/-- A session, and what the transport has taken so far. -/
structure Exchange (σ : Type) where
  session : Session σ
  taken : Bytes

/-- One callback. -/
def Exchange.step (server : AdServer σ) (x : Exchange σ) (c : Callback) : Exchange σ :=
  ⟨x.session.step server c, x.taken ++ x.session.transported c⟩

/-- A run: a new connection, then the callbacks. -/
def exchange (server : AdServer σ) (world : σ) (cs : List Callback) : Exchange σ :=
  cs.foldl (Exchange.step server) ⟨connNew server [] [] world, []⟩

theorem exchange_concat (server : AdServer σ) (world : σ) (cs : List Callback) (c : Callback) :
    exchange server world (cs ++ [c]) = (exchange server world cs).step server c :=
  List.foldl_append

theorem exchange_session (server : AdServer σ) (world : σ) (cs : List Callback) :
    (exchange server world cs).session = session server world cs := by
  induction cs using List.reverseRecOn with
  | nil => rfl
  | append_singleton cs c ih =>
    rw [exchange_concat, session_concat, ← ih]
    rfl

/-! ## The rule -/

/-- `I₀` holds where a request starts and `I` from there on.  `ds` are the dispatches so far, `taken` is
what the transport has taken. -/
structure OutputInvariant (server : AdServer σ)
    (I₀ I : List Dispatch → Bytes → AdConn → σ → Prop) : Prop where
  init : ∀ {event ds taken conn world st conn' world' visits}, event.init = true →
    I₀ ds taken conn world → callHooks server event conn world = (some st, conn', world', visits) →
    I (ds ++ [⟨event, conn, visits, some st⟩]) taken conn' world'
  call : ∀ {event ds taken conn world st conn' world' visits}, event.init = false →
    I ds taken conn world → callHooks server event conn world = (some st, conn', world', visits) →
    I (ds ++ [⟨event, conn, visits, some st⟩]) taken conn' world'
  status : ∀ {ds taken conn world} st, I ds taken conn world →
    I ds taken { conn with status := st } world
  input : ∀ {ds taken conn world} inb, I ds taken conn world →
    I ds taken { conn with inb := inb } world
  drain : ∀ {ds taken conn world} n, I ds taken conn world →
    I ds (taken ++ conn.out.take n) { conn with out := conn.out.drop n } world
  reset : ∀ {ds taken conn world}, I ds taken conn world → I₀ ds taken (connReset conn).1 world

/-- The last of the dispatches is the final close: it came on an empty out buffer, with the invariant,
and left the world as it is. -/
def ClosedWith (server : AdServer σ) (I : List Dispatch → Bytes → AdConn → σ → Prop)
    (ds : List Dispatch) (taken : Bytes) (world : σ) : Prop :=
  ∃ (ds' : List Dispatch) (d : Dispatch) (conn' : AdConn) (world' : σ), ds = ds' ++ [d] ∧
    I ds' taken d.before world' ∧ d.event.init = false ∧ d.event.close = true ∧ d.before.out = [] ∧
    callHooks server d.event d.before world' = (d.status, conn', world, d.visits)

/-- The invariant holds of the connection that is left, and held at the final close if it is freed. -/
structure Session.KeepsOut (server : AdServer σ) (I : List Dispatch → Bytes → AdConn → σ → Prop)
    (ds : List Dispatch) (taken : Bytes) (s : Session σ) : Prop where
  conn : ∀ conn, s.conn = some conn → I (ds ++ dispatches s.trace) taken conn s.world
  live : s.conn ≠ none → Output.connFree ∉ s.trace
  freed : Output.connFree ∈ s.trace → ClosedWith server I (ds ++ dispatches s.trace) taken s.world

section

variable {server : AdServer σ} {I : List Dispatch → Bytes → AdConn → σ → Prop}
  {ds : List Dispatch} {taken : Bytes}

theorem Session.KeepsOut.after {s : Session σ} {out : List Output}
    (h : s.KeepsOut server I (ds ++ dispatches out) taken) (hout : Output.connFree ∉ out) :
    (s.after out).KeepsOut server I ds taken := by
  have hds : ds ++ dispatches (s.after out).trace = ds ++ dispatches out ++ dispatches s.trace := by
    rw [show (s.after out).trace = out ++ s.trace from rfl, dispatches_append, List.append_assoc]
  refine ⟨?_, ?_, ?_⟩
  · rw [hds]
    exact h.conn
  · intro hconn hf
    exact (List.mem_append.1 hf).elim hout (h.live hconn)
  · intro hf
    rw [hds]
    exact h.freed ((List.mem_append.1 hf).resolve_left hout)

theorem Session.KeepsOut.released {s : Session σ} {out : List Output}
    (h : s.KeepsOut server I ds taken) (hout : Releases out) :
    (s.after out).KeepsOut server I ds taken := by
  apply Session.KeepsOut.after _ hout.2
  rw [hout.1, List.append_nil]
  exact h

theorem keepsOut_idle {conn : AdConn} {world : σ} (h : I ds taken conn world) :
    Session.KeepsOut server I ds taken ⟨some conn, world, []⟩ := by
  refine ⟨?_, fun _ hf => (by cases hf), fun hf => (by cases hf)⟩
  rintro _ ⟨⟩
  rw [dispatches_nil, List.append_nil]
  exact h

theorem dispatch_keepsOut {event : Event} {conn : AdConn} {world : σ}
    {next : ℤ → AdConn → σ → Session σ}
    (hnext : ∀ st conn' world' visits,
      callHooks server event conn world = (some st, conn', world', visits) →
      (next st conn' world').KeepsOut server I (ds ++ [⟨event, conn, visits, some st⟩]) taken) :
    (dispatch server event conn world next).KeepsOut server I ds taken := by
  unfold dispatch
  cases hcalls : callHooks server event conn world with
  | mk status r =>
    obtain ⟨conn', world', visits⟩ := r
    cases status with
    | none => exact ⟨fun _ h => (by cases h), fun h => absurd rfl h, fun hf => by simp at hf⟩
    | some st => exact Session.KeepsOut.after (hnext st conn' world' visits hcalls) (by simp)

theorem keepsOut_release {conn : AdConn} {world : σ} (h : ClosedWith server I ds taken world) :
    (connRelease conn world).KeepsOut server I ds taken := by
  refine ⟨fun _ h => (by cases h), fun h => absurd rfl h, fun _ => ?_⟩
  have hds : ds ++ dispatches (connRelease conn world).trace = ds := by
    simp [connRelease, (releases_connReset conn).1]
  rw [hds]
  exact h

theorem final_keepsOut {event : Event} (hi : event.init = false) (hc : event.close = true)
    {conn : AdConn} {world : σ} (hclose : conn.status = adClose) (hout : conn.out = [])
    (h : I ds taken conn world) :
    (dispatch server event conn world fun _ conn world =>
      connFree server conn world).KeepsOut server I ds taken := by
  apply dispatch_keepsOut
  intro st conn' world' visits hcalls
  have hst : conn'.status = adClose := by
    have := callHooksFrom_status event 0 server.hooks conn world
    rw [← callHooks, hcalls] at this
    exact this.trans hclose
  rw [connFree_of_close server hst]
  exact keepsOut_release ⟨ds, _, conn', world, rfl, h, hi, hc, hout, hcalls⟩

end

namespace OutputInvariant

variable {server : AdServer σ} {I₀ I : List Dispatch → Bytes → AdConn → σ → Prop}
  (inv : OutputInvariant server I₀ I) {ds : List Dispatch} {taken : Bytes} {conn : AdConn} {world : σ}

include inv

theorem cbEnd {event : Event} (he : CbEvent event) (h : I ds taken conn world) :
    (connCbEnd server event conn world).KeepsOut server I ds taken := by
  apply connCbEnd_cases server event conn world (Q := Session.KeepsOut server I ds taken)
  · intro _ _
    apply dispatch_keepsOut
    intro st conn' world' visits hcalls
    have hnext := inv.call rfl h hcalls
    apply Session.KeepsOut.released _ (releases_connReset conn')
    apply dispatch_keepsOut
    intro st' conn'' world'' visits' hcalls'
    exact keepsOut_idle (inv.init rfl (inv.reset hnext) hcalls')
  · exact fun _ => keepsOut_idle (inv.input [] h)
  · exact fun _ => keepsOut_idle h
  · intro hclose hout
    obtain ⟨t, ht⟩ := he.final
    rw [ht]
    exact final_keepsOut rfl rfl hclose hout h

theorem cb {event : Event} (he : CbEvent event) (hi : event.init = false) (h : I ds taken conn world) :
    (connCb server event conn world).KeepsOut server I ds taken := by
  unfold connCb
  split_ifs
  · apply dispatch_keepsOut
    intro st conn' world' visits hcalls
    have hnext := inv.call hi h hcalls
    apply inv.cbEnd he
    split_ifs
    · exact hnext
    · exact inv.status st hnext
  · exact inv.cbEnd he h

theorem callback (c : Callback) (h : I ds taken conn world) :
    (callback server c conn world).KeepsOut server I ds
      (taken ++ Session.transported ⟨some conn, world, []⟩ c) := by
  cases c with
  | read seg =>
    rw [Session.transported_read, List.append_nil]
    exact inv.cb (Or.inl rfl) rfl (inv.input (conn.inb ++ seg) h)
  | write =>
    rw [Session.transported_write, List.append_nil]
    exact inv.cb (Or.inr (Or.inl rfl)) rfl h
  | drain n => exact keepsOut_idle (inv.drain n h)
  | event what =>
    rw [Session.transported_event, List.append_nil, Asyncd.callback, connEventCb]
    split_ifs
    · exact inv.cb (Or.inr (Or.inr ⟨_, rfl⟩)) rfl (inv.status adClose h)
    · exact keepsOut_idle h

/-- The invariant holds along every run, and at the final close. -/
theorem exchange (h : I₀ [] [] blankConn world) (cs : List Callback) :
    (exchange server world cs).session.KeepsOut server I []
      (Asyncd.exchange server world cs).taken := by
  induction cs using List.reverseRecOn with
  | nil =>
    have hnew : (connNew server [] [] world).KeepsOut server I [] [] := by
      unfold connNew
      apply dispatch_keepsOut
      intro st conn' world' visits hcalls
      exact keepsOut_idle (inv.status st (inv.init rfl h hcalls))
    exact hnew
  | append_singleton cs c ih =>
    rw [exchange_concat]
    generalize Asyncd.exchange server world cs = x at ih ⊢
    obtain ⟨⟨conn, world, trace⟩, taken⟩ := x
    cases conn with
    | none =>
      have hidle : Session.transported ⟨none, world, trace⟩ c = [] := by cases c <;> rfl
      rw [Exchange.step, hidle, List.append_nil]
      exact ih
    | some conn =>
      have hlive : Output.connFree ∉ trace := ih.live (Option.some_ne_none conn)
      have hnext := inv.callback c (ih.conn conn rfl)
      exact Session.KeepsOut.after hnext hlive

end OutputInvariant

end Asyncd
