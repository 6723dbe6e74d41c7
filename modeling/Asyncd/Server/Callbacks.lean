import Asyncd.Server.Lifecycle

/-!
# Callbacks one by one

Which dispatches a single callback makes, and the status it leaves: `CbEnd` for the part of `conn_cb`
behind the first dispatch, and `CbRun` for a callback.  Other than by the moves of the abstract connection,
it is known here what does not follow any more in the same callback.
-/

namespace Asyncd

/-- The dispatches of `conn_cb` behind the first one, and the status it leaves, if the connection and the
process still exist. -/
inductive CbEnd (event : Event) (conn : AdConn) : List Dispatch → Option ℤ → Prop
  /-- nothing is dispatched -/
  | idle (h : ¬(conn.status = adClose ∧ conn.out = [])) : CbEnd event conn [] (some conn.status)
  /-- a hook ends the process while a finished request is closed -/
  | cut {d : Dispatch} (hst : conn.status = adDone) (he : d.event = evClose false)
      (hb : d.before = conn) : CbEnd event conn [d] none
  /-- a finished request is closed and the connection prepared for the next -/
  | reset {d i : Dispatch} (hst : conn.status = adDone) (he : d.event = evClose false)
      (hb : d.before = conn) (hi : i.event = evInit) :
      CbEnd event conn [d, i] (i.status.map fun _ => adOk)
  /-- the connection is closed, and freed unless a hook ends the process -/
  | final {d : Dispatch} (hst : conn.status = adClose) (hout : conn.out = [])
      (he : d.event = if event.close then event else evClose false) (hb : d.before = conn) :
      CbEnd event conn [d] none

/-- A callback: what it dispatches first, if it asks the hooks, and how it ends. -/
inductive CbRun : Callback → AdConn → List Dispatch → Option ℤ → Prop
  /-- the transport takes bytes, or an event without the flags that matter -/
  | idle {c : Callback} {conn : AdConn} (h : ∀ seg, c ≠ .read seg) (hw : c ≠ .write)
      (he : ∀ what, c = .event what → ¬(what.eof ∨ what.error ∨ what.timeout)) :
      CbRun c conn [] (some conn.status)
  /-- the peer is gone -/
  | hangUp {what : BevEvent} {conn : AdConn} {ds : List Dispatch} {st : Option ℤ}
      (hw : what.eof ∨ what.error ∨ what.timeout)
      (hend : CbEnd (evClose what.timeout) { conn with status := adClose } ds st) :
      CbRun (.event what) conn ds st
  /-- the hooks are not asked -/
  | wait {c : Callback} {event : Event} {conn conn' : AdConn} {ds : List Dispatch} {st : Option ℤ}
      (hc : (∃ seg, c = .read seg) ∧ event = evRead ∨ c = .write ∧ event = evWrite)
      (hst : ¬(conn.status = adOk ∨ conn.status = adTakeover)) (hst' : conn'.status = conn.status)
      (hout : conn'.out = conn.out) (hend : CbEnd event conn' ds st) : CbRun c conn ds st
  /-- a hook ends the process -/
  | cut {c : Callback} {conn : AdConn} {d : Dispatch}
      (hc : (∃ seg, c = .read seg) ∧ d.event = evRead ∨ c = .write ∧ d.event = evWrite)
      (hst : conn.status = adOk ∨ conn.status = adTakeover) (hd : d.status = none) :
      CbRun c conn [d] none
  /-- the hooks are asked, and their answer is the status to go on with -/
  | serve {c : Callback} {conn conn' : AdConn} {d : Dispatch} {ds : List Dispatch} {st : Option ℤ}
      (hc : (∃ seg, c = .read seg) ∧ d.event = evRead ∨ c = .write ∧ d.event = evWrite)
      (hst : conn.status = adOk ∨ conn.status = adTakeover) (hd : d.status = some conn'.status)
      (hb : d.before.status = conn.status) (hend : CbEnd d.event conn' ds st) :
      CbRun c conn (d :: ds) st

theorem served_event {c : Callback} {event : Event}
    (hc : (∃ seg, c = .read seg) ∧ event = evRead ∨ c = .write ∧ event = evWrite) :
    CbEvent event ∧ event.init = false ∧ event.close = false := by
  rcases hc with ⟨-, rfl⟩ | ⟨-, rfl⟩
  · exact ⟨Or.inl rfl, rfl, rfl⟩
  · exact ⟨Or.inr (Or.inl rfl), rfl, rfl⟩

variable {σ : Type} (server : AdServer σ)

@[simp] theorem Session.after_status (out : List Output) (s : Session σ) :
    (s.after out).status = s.status := rfl

@[simp] theorem Session.after_dispatches (out : List Output) (s : Session σ) :
    dispatches (s.after out).trace = dispatches out ++ dispatches s.trace :=
  dispatches_append _ _

theorem connRelease_dispatches (conn : AdConn) (world : σ) :
    dispatches (connRelease conn world).trace = [] ∧ (connRelease conn world).status = none := by
  refine ⟨?_, rfl⟩
  rw [connRelease, dispatches_append, (releases_connReset conn).1]
  rfl

/-- A finished request is closed, and the connection is prepared for the next. -/
theorem reset_end (event : Event) {conn : AdConn} (hdone : conn.status = adDone) (world : σ) :
    let s := dispatch server (evClose false) conn world fun _ conn world =>
      (dispatch server evInit (connReset conn).1 world fun _ conn world =>
        ⟨some conn, world, []⟩).after (connReset conn).2
    CbEnd event conn (dispatches s.trace) s.status := by
  intro s
  obtain ⟨d, he, hb, ⟨-, hconn, htr⟩ | ⟨st, conn', world', -, -, hrun⟩⟩ :=
    dispatch_cases server (evClose false) conn world fun _ conn world =>
      (dispatch server evInit (connReset conn).1 world fun _ conn world =>
        ⟨some conn, world, []⟩).after (connReset conn).2
  · rw [Session.status, hconn, htr]
    exact .cut hdone he hb
  · rw [show s = _ from hrun]
    obtain ⟨i, hi, -, hlast⟩ := dispatch_cases server evInit (connReset conn').1 world'
      fun _ conn world => ⟨some conn, world, []⟩
    have hreset : CbEnd event conn [_, _] _ := .reset hdone he hb hi
    simp only [Session.after_dispatches, Session.after_status, (releases_connReset conn').1,
      dispatches_dispatch, dispatches_nil, List.nil_append, List.cons_append]
    rcases hlast with ⟨hd, hconn, htr⟩ | ⟨st', conn'', world'', hd, hst, hrun'⟩
    · rw [Session.status, hconn, htr]
      rwa [hd] at hreset
    · rw [hrun']
      rw [hd] at hreset
      simpa [Session.status, Session.after, hst] using hreset

theorem final_end (event : Event) {conn : AdConn} (hclose : conn.status = adClose)
    (hout : conn.out = []) (world : σ) :
    let s := dispatch server (if event.close then event else evClose false) conn world
      fun _ conn world => connFree server conn world
    CbEnd event conn (dispatches s.trace) s.status := by
  intro s
  obtain ⟨d, he, hb, ⟨-, hconn, htr⟩ | ⟨st, conn', world', -, hst, hrun⟩⟩ :=
    dispatch_cases server (if event.close then event else evClose false) conn world
      fun _ conn world => connFree server conn world
  · rw [Session.status, hconn, htr]
    exact .final hclose hout he hb
  · have hrel := connRelease_dispatches conn' world'
    rw [show s = _ from hrun, connFree_of_close server (hst.trans hclose)]
    simp only [Session.after_dispatches, Session.after_status, hrel.1, hrel.2]
    exact .final hclose hout he hb

theorem connCbEnd_end (event : Event) (conn : AdConn) (world : σ) :
    CbEnd event conn (dispatches (connCbEnd server event conn world).trace)
      (connCbEnd server event conn world).status := by
  apply connCbEnd_cases server event conn world
    (Q := fun s => CbEnd event conn (dispatches s.trace) s.status)
  · intro hdone _
    exact reset_end server event hdone world
  · intro hdone
    apply CbEnd.idle
    rintro ⟨hclose, -⟩
    rw [hdone] at hclose
    cases hclose
  · exact CbEnd.idle
  · intro hclose hout
    exact final_end server event hclose hout world

/-- `conn_cb` on bytes that arrived or an out buffer that has drained. -/
theorem connCb_run {c : Callback} {event : Event} {conn conn₀ : AdConn} (world : σ)
    (hc : (∃ seg, c = .read seg) ∧ event = evRead ∨ c = .write ∧ event = evWrite)
    (hst : conn.status = conn₀.status) (hout : conn.out = conn₀.out) :
    CbRun c conn₀ (dispatches (connCb server event conn world).trace)
      (connCb server event conn world).status := by
  by_cases hserve : conn.status = adOk ∨ conn.status = adTakeover
  · obtain ⟨d, rfl, rfl, ⟨hd, hconn, htr⟩ | ⟨st, conn', world', hd, hrun⟩⟩ :=
      connCb_serves server event hserve world
    · rw [Session.status, hconn, htr]
      exact .cut hc (hst ▸ hserve) hd
    · rw [hrun]
      exact .serve hc (hst ▸ hserve) hd hst (connCbEnd_end server d.event _ world')
  · rw [connCb, if_neg hserve]
    exact .wait hc (hst ▸ hserve) hst hout (connCbEnd_end server event conn world)

theorem callback_run (c : Callback) (conn : AdConn) (world : σ) :
    CbRun c conn (dispatches (callback server c conn world).trace)
      (callback server c conn world).status := by
  cases c with
  | read seg => exact connCb_run server world (Or.inl ⟨⟨seg, rfl⟩, rfl⟩) rfl rfl
  | write => exact connCb_run server world (Or.inr ⟨rfl, rfl⟩) rfl rfl
  | drain n => exact .idle (by simp) (by simp) (by simp)
  | event what =>
    by_cases hw : what.eof ∨ what.error ∨ what.timeout
    · rw [callback_hangUp server hw]
      exact .hangUp hw (connCbEnd_end server _ _ world)
    · rw [callback, connEventCb, if_neg hw]
      apply CbRun.idle (by simp) (by simp)
      intro what' e
      cases e
      exact hw

end Asyncd
