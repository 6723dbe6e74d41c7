import Asyncd.Server.Exchange
import Asyncd.Server.Helloworld
import Asyncd.Server.World

/-!
# Delivery

The hooks of a server write down what they append to the out buffer, in a log that none of them reads.
Whatever happens, the log is what the transport has taken followed by what is still in the buffer, and
a connection is freed only when everything has been taken that was appended before the final close
(`output_delivered`).
-/

open CString

namespace Asyncd

section

variable {σ : Type}

/-- The hook only appends to the out buffer. -/
def AdHook.Appends (hook : AdHook σ) : Prop :=
  ∀ cb, hook.cb = some cb → ∀ event conn world st view world',
    cb event conn world = some (st, view, world') → conn.out <+: view.out

/-- The hook with a log of what it appends. -/
def AdHook.logged (hook : AdHook σ) : AdHook (σ × Bytes) where
  method := hook.method
  cb := hook.cb.map fun cb event conn world => (cb event conn world.1).map fun r =>
    (r.1, r.2.1, (r.2.2, world.2 ++ r.2.1.out.drop conn.out.length))

/-- The server with a log. -/
def AdServer.logged (server : AdServer σ) : AdServer (σ × Bytes) where
  options := server.options
  hooks := server.hooks.map AdHook.logged

theorem AdHook.logged_maps (hook : AdHook σ) : hook.logged.Maps Prod.fst hook where
  method := rfl
  cb event conn world := by
    obtain ⟨method, cb⟩ := hook
    cases cb with
    | none => rfl
    | some cb =>
      simp only [logged, Option.map_some, Option.map_map]
      cases cb event conn world.1 <;> rfl

theorem AdServer.logged_maps (server : AdServer σ) : server.logged.Maps Prod.fst server := by
  refine ⟨rfl, ?_⟩
  rw [logged, List.forall₂_map_left_iff, List.forall₂_same]
  exact fun hook _ => hook.logged_maps

/-- What was taken and what is in the out buffer are what was logged. -/
def Logged (taken : Bytes) (conn : AdConn) (world : σ × Bytes) : Prop := taken ++ conn.out = world.2

theorem AdHook.Appends.keeps {hook : AdHook σ} (h : hook.Appends) (event : Event) (taken : Bytes) :
    hook.logged.Keeps event (Logged taken) := by
  intro cb hcb conn world hlog st view world' hrun
  obtain ⟨cb', hcb', rfl⟩ := Option.map_eq_some_iff.1 hcb
  obtain ⟨r, hr, hres⟩ := Option.map_eq_some_iff.1 hrun
  cases hres
  obtain ⟨x, hx⟩ := h cb' hcb' event conn world.1 _ _ _ hr
  have hdrop : r.2.1.out.drop conn.out.length = x := by rw [← hx, List.drop_left]
  change taken ++ r.2.1.out = world.2 ++ r.2.1.out.drop conn.out.length
  rw [hdrop, ← hx, ← List.append_assoc, hlog]

theorem callHooks_logged {server : AdServer σ} (h : ∀ hook ∈ server.hooks, hook.Appends)
    {taken : Bytes} {conn : AdConn} {world : σ × Bytes} (hlog : Logged taken conn world)
    (event : Event) :
    Logged taken (callHooks server.logged event conn world).2.1
      (callHooks server.logged event conn world).2.2.1 := by
  apply (callHooksFrom_rule _ 0 hlog).1
  intro hook hhook
  obtain ⟨hook', hhook', rfl⟩ := List.mem_map.1 hhook
  exact (h hook' hhook').keeps event taken

/-- The log is what was taken and what is in the out buffer. -/
theorem logged_invariant {server : AdServer σ} (h : ∀ hook ∈ server.hooks, hook.Appends) :
    OutputInvariant server.logged (fun _ => Logged) (fun _ => Logged) where
  init := by
    intro event ds taken conn world st conn' world' visits _ hlog hcalls
    have hnext := callHooks_logged h hlog event
    rw [hcalls] at hnext
    exact hnext
  call := by
    intro event ds taken conn world st conn' world' visits _ hlog hcalls
    have hnext := callHooks_logged h hlog event
    rw [hcalls] at hnext
    exact hnext
  status := fun _ hlog => hlog
  input := fun _ hlog => hlog
  drain := by
    intro ds taken conn world n hlog
    rw [Logged, List.append_assoc, List.take_append_drop]
    exact hlog
  reset := fun hlog => hlog

/-- Nothing that the hooks append is lost or comes out of order: in every run it is what the transport
has taken and what is in the out buffer, and when the connection is freed all of it has been taken but
what the hooks append at the final close. -/
theorem output_delivered {server : AdServer σ} (h : ∀ hook ∈ server.hooks, hook.Appends) (world : σ)
    (cs : List Callback) :
    let x := exchange server.logged (world, []) cs
    x.session.map Prod.fst = session server world cs ∧
      (∀ conn, x.session.conn = some conn → x.taken ++ conn.out = x.session.world.2) ∧
      (Output.connFree ∈ x.session.trace → ∃ ds d world', dispatches x.session.trace = ds ++ [d] ∧
        d.event.close = true ∧ d.before.out = [] ∧
        x.session.world.2 = x.taken ++ (callHooks server d.event d.before world').2.1.out) := by
  intro x
  have hkeeps := @OutputInvariant.exchange _ _ _ _ (logged_invariant h) (world, []) rfl cs
  refine ⟨?_, ?_, ?_⟩
  · rw [exchange_session, ← session_map server.logged_maps]
  · exact hkeeps.conn
  · intro hf
    obtain ⟨ds, d, conn', world', hds, hlog, -, hclose, hout, hcalls⟩ := hkeeps.freed hf
    rw [List.nil_append] at hds
    refine ⟨ds, d, world'.1, hds, hclose, hout, ?_⟩
    have hnext := callHooks_logged h hlog d.event
    have hsame : callHooks server d.event d.before world'.1 = _ :=
      callHooksFrom_map server.logged_maps.hooks d.event 0 d.before world'
    rw [hsame, ← callHooks, hcalls]
    rw [hcalls] at hnext
    exact hnext.symm

end

/-! ## Hooks that append -/

theorem httpHook_appends {σ : Type} [UrlDecoder] (alloc : σ → Bool) : (httpHook alloc).Appends := by
  rintro _ ⟨⟩ event conn world st view world' hrun
  cases hi : event.init with
  | true =>
    simp only [adHttpHandler, hi, if_true] at hrun
    cases hnew : httpNew (alloc world) <;> rw [hnew] at hrun <;> cases hrun <;>
      exact List.prefix_rfl
  | false =>
    cases hr : event.read with
    | true =>
      cases hx : conn.httpState with
      | none =>
        rw [adHttpHandler_read_none alloc hi hr hx] at hrun
        cases hrun
      | some http =>
        obtain ⟨st', -, hrun'⟩ := adHttpHandler_read alloc hi hr hx world
        rw [hrun'] at hrun
        cases hrun
        exact List.prefix_rfl
    | false =>
      rw [adHttpHandler_idle alloc hi hr hrun]

theorem UserCall.run_out {v v' : ConnView} {c : UserCall} (h : c.run v = some v') :
    v.out <+: v'.out := by
  cases c with
  | addOut data => cases h; exact List.prefix_append v.out data
  | drainIn n => cases h; exact List.prefix_rfl
  | setUserdata data freeCb => cases h; exact List.prefix_rfl
  | setMethod method => cases h; exact List.prefix_rfl
  | getContent alloc maxsize =>
    obtain ⟨http, -, rfl⟩ := Option.map_eq_some_iff.1 h
    exact List.prefix_rfl
  | respond call =>
    obtain ⟨http, -, rfl⟩ := Option.map_eq_some_iff.1 h
    exact ⟨_, (call.run_out http v.out).symm⟩

theorem runCalls_out {v v' : ConnView} {calls : List UserCall} (h : runCalls v calls = some v') :
    v.out <+: v'.out := by
  induction calls generalizing v with
  | nil => cases h; exact List.prefix_rfl
  | cons c calls ih =>
    rw [runCalls, List.foldlM_cons, Option.bind_eq_bind, Option.bind_eq_some_iff] at h
    obtain ⟨v₁, hc, h⟩ := h
    exact (UserCall.run_out hc).trans (ih h)

theorem UserHook.hook_appends {σ : Type} (hook : UserHook σ) : hook.hook.Appends := by
  intro cb hcb event conn world st view world' hrun
  obtain ⟨cb', -, rfl⟩ := Option.map_eq_some_iff.1 hcb
  simp only [Option.bind_eq_bind, Option.bind_eq_some_iff, Option.pure_def, Option.some.injEq,
    Prod.mk.injEq, Prod.exists] at hrun
  obtain ⟨calls, st', world₁, -, view', hcalls, rfl, rfl, rfl⟩ := hrun
  exact runCalls_out hcalls

/-- `output_delivered` is about every server of HTTP hooks. -/
theorem httpServer_appends {σ : Type} [UrlDecoder] {server : AdServer σ} {alloc : σ → Bool}
    {users : List (UserHook σ)} (h : server.hooks = httpHook alloc :: users.map UserHook.hook) :
    ∀ hook ∈ server.hooks, hook.Appends := by
  rw [h, List.forall_mem_cons, List.forall_mem_map]
  exact ⟨httpHook_appends alloc, fun user _ => user.hook_appends⟩

theorem helloworldTcp_appends : ∀ hook ∈ helloworldTcpServer.hooks, hook.Appends := by
  rw [helloworldTcp_hooks]
  intro hook hhook
  obtain rfl := List.mem_singleton.1 hhook
  rintro _ ⟨⟩ event conn world st view world' hrun
  unfold myConnHandler at hrun
  split_ifs at hrun <;> cases hrun
  · exact List.prefix_append conn.out _
  · exact List.prefix_rfl

/-- The transport takes the greeting in two parts, and the connection is closed. -/
theorem greeting_delivered :
    let x := exchange helloworldTcpServer.logged ((), []) [.drain 5, .write, .drain 7, .write]
    x.session.map Prod.fst =
        session helloworldTcpServer () [.drain 5, .write, .drain 7, .write] ∧
      (∀ conn, x.session.conn = some conn → x.taken ++ conn.out = x.session.world.2) ∧
      ∃ ds d world', dispatches x.session.trace = ds ++ [d] ∧ d.event.close = true ∧
        d.before.out = [] ∧ x.session.world.2 = x.taken ++
          (callHooks helloworldTcpServer d.event d.before world').2.1.out := by
  intro x
  obtain ⟨hmap, hconn, hfreed⟩ := output_delivered helloworldTcp_appends ()
    [.drain 5, .write, .drain 7, .write]
  exact ⟨hmap, hconn, hfreed (by decide +kernel)⟩

end Asyncd
