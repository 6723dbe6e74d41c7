import Asyncd.Lib.Interleave
import Asyncd.Server.Rule
import Asyncd.Server.Shutdown

/-!
# The world of the hooks

What the hooks keep outside the connections can be looked at through a function of it.  Where hooks do
with the image of the world what other hooks do with the world, every run is the image of a run
(`session_map`, `loopRun_map`).  A ghost that hooks write and never read is erased this way, and so is
the part of the world that the hooks do not look at.
-/

open CString

namespace Asyncd

variable {σ ρ : Type} (f : σ → ρ)

/-- The image of what a hook returns. -/
def mapWorld (r : ℤ × ConnView × σ) : ℤ × ConnView × ρ := (r.1, r.2.1, f r.2.2)

/-- `hook'` does with the image of the world what `hook` does with the world. -/
structure AdHook.Maps (hook : AdHook σ) (hook' : AdHook ρ) : Prop where
  method : hook'.method = hook.method
  cb : ∀ event conn world, (hook'.cb.map fun cb => cb event conn (f world)) =
    hook.cb.map fun cb => (cb event conn world).map (mapWorld f)

/-- All hooks do. -/
structure AdServer.Maps (server : AdServer σ) (server' : AdServer ρ) : Prop where
  options : server'.options = server.options
  hooks : List.Forall₂ (AdHook.Maps f) server.hooks server'.hooks

/-- The image of a session. -/
def Session.map (s : Session σ) : Session ρ := ⟨s.conn, f s.world, s.trace⟩

@[simp] theorem Session.map_exited (s : Session σ) : (s.map f).exited = s.exited := rfl

theorem Session.map_after (s : Session σ) (out : List Output) :
    (s.after out).map f = (s.map f).after out := rfl

variable {f}

theorem AdHook.Maps.passes {hook : AdHook σ} {hook' : AdHook ρ} (h : hook.Maps f hook')
    (conn : AdConn) : hook'.Passes conn ↔ hook.Passes conn := by
  rw [AdHook.Passes, AdHook.Passes, h.method]

theorem AdHook.Maps.cb_none {hook : AdHook σ} {hook' : AdHook ρ} (h : hook.Maps f hook')
    (event : Event) (conn : AdConn) (world : σ) (hcb : hook.cb = none) : hook'.cb = none := by
  have := h.cb event conn world
  rw [hcb, Option.map_none] at this
  exact Option.map_eq_none_iff.1 this

theorem AdHook.Maps.cb_some {hook : AdHook σ} {hook' : AdHook ρ} (h : hook.Maps f hook')
    (event : Event) (conn : AdConn) (world : σ) {cb} (hcb : hook.cb = some cb) :
    ∃ cb', hook'.cb = some cb' ∧
      cb' event conn (f world) = (cb event conn world).map (mapWorld f) := by
  have := h.cb event conn world
  rw [hcb, Option.map_some] at this
  obtain ⟨cb', hcb', hrun⟩ := Option.map_eq_some_iff.1 this
  exact ⟨cb', hcb', hrun⟩

/-! ## One dispatch -/

theorem callHooksFrom_map {hooks : List (AdHook σ)} {hooks' : List (AdHook ρ)}
    (h : List.Forall₂ (AdHook.Maps f) hooks hooks') (event : Event) (i : ℕ) (conn : AdConn)
    (world : σ) :
    callHooksFrom event i hooks' conn (f world) =
      let r := callHooksFrom event i hooks conn world
      (r.1, r.2.1, f r.2.2.1, r.2.2.2) := by
  induction h generalizing i conn world with
  | nil => rfl
  | @cons hook hook' hooks hooks' hhook _ ih =>
    cases hcb : hook.cb with
    | none =>
      rw [callHooksFrom_none _ _ _ _ hcb,
        callHooksFrom_none _ _ _ _ (hhook.cb_none event conn world hcb)]
      exact ih (i + 1) conn world
    | some cb =>
      obtain ⟨cb', hcb', hrun'⟩ := hhook.cb_some event conn world hcb
      by_cases hpass : hook.Passes conn
      · have hpass' := (hhook.passes conn).2 hpass
        cases hrun : cb event conn world with
        | none =>
          rw [hrun] at hrun'
          rw [callHooksFrom_exit _ _ _ _ hcb hpass hrun,
            callHooksFrom_exit _ _ _ _ hcb' hpass' hrun']
        | some r =>
          obtain ⟨st, view, world'⟩ := r
          rw [hrun] at hrun'
          by_cases hst : st = adOk
          · subst hst
            rw [callHooksFrom_ok _ _ _ _ hcb hpass hrun,
              callHooksFrom_ok _ _ _ _ hcb' hpass' hrun', ih]
          · rw [callHooksFrom_stop _ _ _ _ hcb hpass hrun hst,
              callHooksFrom_stop _ _ _ _ hcb' hpass' hrun' hst]
      · have hpass' : ¬hook'.Passes conn := fun h => hpass ((hhook.passes conn).1 h)
        rw [callHooksFrom_skip _ _ _ _ hcb hpass, callHooksFrom_skip _ _ _ _ hcb' hpass', ih]

section

variable {server : AdServer σ} {server' : AdServer ρ} (h : server.Maps f server')

include h

theorem dispatch_map (event : Event) (conn : AdConn) (world : σ)
    {next : ℤ → AdConn → σ → Session σ} {next' : ℤ → AdConn → ρ → Session ρ}
    (hnext : ∀ st conn world, next' st conn (f world) = (next st conn world).map f) :
    dispatch server' event conn (f world) next' = (dispatch server event conn world next).map f := by
  unfold dispatch callHooks
  rw [callHooksFrom_map h.hooks]
  cases callHooksFrom event 0 server.hooks conn world with
  | mk status r =>
    cases status with
    | none => rfl
    | some st => simp only [hnext, Session.map_after]

/-! ## Callbacks -/

theorem pipelining_map : server'.pipelining = server.pipelining := by
  unfold AdServer.pipelining adServerGetOptionInt adServerGetOption
  rw [h.options]

theorem connNew_map (inb out : Bytes) (world : σ) :
    connNew server' inb out (f world) = (connNew server inb out world).map f := by
  unfold connNew
  exact dispatch_map h _ _ _ fun _ _ _ => rfl

theorem connFree_map (conn : AdConn) (world : σ) :
    connFree server' conn (f world) = (connFree server conn world).map f := by
  unfold connFree
  split_ifs
  · exact dispatch_map h _ _ _ fun _ _ _ => rfl
  · rfl

theorem connCbEnd_map (event : Event) (conn : AdConn) (world : σ) :
    connCbEnd server' event conn (f world) = (connCbEnd server event conn world).map f := by
  unfold connCbEnd
  rw [pipelining_map h]
  split_ifs
  · refine dispatch_map h _ _ _ fun _ conn world => ?_
    rw [Session.map_after]
    congr 1
    exact dispatch_map h _ _ _ fun _ _ _ => rfl
  · rfl
  · rfl
  · exact dispatch_map h _ _ _ fun _ conn world => connFree_map h conn world
  · exact dispatch_map h _ _ _ fun _ conn world => connFree_map h conn world
  · rfl
  · rfl

theorem connCb_map (event : Event) (conn : AdConn) (world : σ) :
    connCb server' event conn (f world) = (connCb server event conn world).map f := by
  unfold connCb
  split_ifs
  · exact dispatch_map h _ _ _ fun _ conn world => connCbEnd_map h event _ world
  · exact connCbEnd_map h event conn world

theorem callback_map (c : Callback) (conn : AdConn) (world : σ) :
    callback server' c conn (f world) = (callback server c conn world).map f := by
  cases c with
  | read seg => exact connCb_map h evRead _ world
  | write => exact connCb_map h evWrite conn world
  | event what =>
    simp only [callback, connEventCb]
    split_ifs
    · exact connCb_map h _ _ world
    · rfl
  | drain n => rfl

/-! ## Runs -/

theorem step_map (s : Session σ) (c : Callback) :
    (s.map f).step server' c = (s.step server c).map f := by
  unfold Session.step
  cases hconn : s.conn with
  | none =>
    have hconn' : (s.map f).conn = none := hconn
    rw [hconn']
  | some conn =>
    have hconn' : (s.map f).conn = some conn := hconn
    rw [hconn', Session.map_after]
    exact congrArg (Session.after s.trace) (callback_map h c conn s.world)

theorem session_map (world : σ) (cs : List Callback) :
    session server' (f world) cs = (session server world cs).map f := by
  induction cs using List.reverseRecOn with
  | nil => exact connNew_map h [] [] world
  | append_singleton cs c ih => rw [session_concat, session_concat, ih, step_map h]

variable (f)

omit h in
/-- The image of a server in a process. -/
def Running.map (s : Running σ) : Running ρ := ⟨s.handles, s.released, s.conns, f s.world⟩

theorem loopStep_map (s : Running σ) (step : LoopStep) :
    loopStep server' (s.map f) step = (loopStep server s step).map (Running.map f) := by
  cases step with
  | accept =>
    have hnew : connNew server' [] [] (s.map f).world = _ := connNew_map h [] [] s.world
    simp only [loopStep, hnew, Session.map_exited]
    by_cases hexit : (connNew server [] [] s.world).exited = true
    · rw [if_pos hexit, if_pos hexit]
      rfl
    · rw [if_neg hexit, if_neg hexit]
      rfl
  | callback k c =>
    have hconns : (s.map f).conns = s.conns := rfl
    simp only [loopStep, hconns]
    cases s.conns[k]? with
    | none => rfl
    | some a =>
      have hnew : Session.step server' ⟨a.conn, (s.map f).world, a.trace⟩ c = _ :=
        step_map h ⟨a.conn, s.world, a.trace⟩ c
      simp only [hnew, Session.map_exited]
      by_cases hexit : (Session.step server ⟨a.conn, s.world, a.trace⟩ c).exited = true
      · rw [if_pos hexit, if_pos hexit]
        rfl
      · rw [if_neg hexit, if_neg hexit]
        rfl

theorem loopRun_map (s : Running σ) (steps : List LoopStep) :
    loopRun server' (s.map f) steps = (loopRun server s steps).map (Running.map f) :=
  (Interleave.foldlM_simulates (I := fun _ => True) (fun s step _ => (loopStep_map f h s step).symm)
    (fun _ _ _ _ _ => trivial) trivial steps).symm

end

end Asyncd
