import Asyncd.Server.Rule

/-!
# Connections that fail

What becomes of a connection on which libevent reports an error.  `conn_cb` closes and frees it only if
the out buffer is empty, and a transport that has failed takes nothing from the out buffer any more:
`failed_released_iff` says which connections are released, and that the others stay.
-/

namespace Asyncd

section

variable {σ : Type} (server : AdServer σ)

/-- A session ends with the final close: the hooks are told, the userdata is released and the connection
freed, unless a hook ends the process. -/
def Session.Closes (event : Event) (s : Session σ) : Prop :=
  s.conn = none ∧
    ∃ d : Dispatch, d.event = event ∧ d.before.status = adClose ∧
      (d.status = none ∧ s.trace = [.dispatch d] ∨
        ∃ rel, Releases rel ∧ s.trace = .dispatch d :: (rel ++ [.connFree]))

/-- The final close of a connection with nothing left to send. -/
theorem closes_of_out_nil (event : Event) {conn : AdConn} (hst : conn.status = adClose)
    (world : σ) :
    (dispatch server event conn world fun _ conn world => connFree server conn world).Closes
      event := by
  obtain ⟨d, hd, rfl, h⟩ :=
    dispatch_cases server event conn world fun _ conn world => connFree server conn world
  cases h with
  | inl h => exact ⟨h.2.1, d, hd, hst, Or.inl ⟨h.1, h.2.2⟩⟩
  | inr h =>
    obtain ⟨st, conn', world', -, hst', hrun⟩ := h
    rw [hrun, connFree_of_close server (hst'.trans hst)]
    exact ⟨rfl, d, hd, hst, Or.inr ⟨(connReset conn').2, releases_connReset conn', rfl⟩⟩

theorem connCbEnd_waiting {event : Event} {conn : AdConn} (hst : conn.status = adClose)
    (world : σ) :
    connCbEnd server event conn world =
      if conn.out = [] then
        dispatch server (if event.close then event else evClose false) conn world
          fun _ conn world => connFree server conn world
      else ⟨some conn, world, []⟩ := by
  rw [connCbEnd, if_neg, if_pos hst]
  rw [hst]
  decide

/-- A connection that waits for its end: the bytes left to send are known. -/
def Session.Lingers (out : Bytes) (s : Session σ) : Prop :=
  ∃ conn, s.conn = some conn ∧ conn.status = adClose ∧ conn.out = out

/-- Nothing happens to a connection that waits, as long as the transport takes nothing. -/
theorem Session.Lingers.step {s : Session σ} {out : Bytes} (h : s.Lingers out) (hout : out ≠ [])
    {c : Callback} (hc : ∀ n, c ≠ .drain n) :
    (s.step server c).Lingers out ∧ (s.step server c).trace = s.trace := by
  obtain ⟨conn, hconn, hst, rfl⟩ := h
  have hidle : ∀ event (conn' : AdConn), conn'.status = adClose → conn'.out = conn.out →
      connCb server event conn' s.world = ⟨some conn', s.world, []⟩ := by
    intro event conn' hst' hout'
    have hne : ¬(conn'.status = adOk ∨ conn'.status = adTakeover) := by
      rw [hst']
      decide
    rw [connCb, if_neg hne, connCbEnd_waiting server hst', if_neg (by rwa [hout'])]
  simp only [Session.step, hconn]
  cases c with
  | read seg =>
    rw [callback, hidle evRead { conn with inb := conn.inb ++ seg } hst rfl]
    exact ⟨⟨_, rfl, hst, rfl⟩, List.append_nil _⟩
  | write =>
    rw [callback, hidle evWrite _ hst rfl]
    exact ⟨⟨_, rfl, hst, rfl⟩, List.append_nil _⟩
  | event what =>
    rw [callback, connEventCb]
    split_ifs
    · rw [hidle _ { conn with status := adClose } rfl rfl]
      exact ⟨⟨_, rfl, rfl, rfl⟩, List.append_nil _⟩
    · exact ⟨⟨_, rfl, hst, rfl⟩, List.append_nil _⟩
  | drain n => exact absurd rfl (hc n)

theorem Session.Lingers.foldl {s : Session σ} {out : Bytes} (h : s.Lingers out) (hout : out ≠ [])
    {cs : List Callback} (hcs : ∀ n, .drain n ∉ cs) :
    (cs.foldl (Session.step server) s).Lingers out ∧
      (cs.foldl (Session.step server) s).trace = s.trace := by
  induction cs generalizing s with
  | nil => exact ⟨h, rfl⟩
  | cons c cs ih =>
    simp only [List.mem_cons, not_or] at hcs
    have hstep := h.step server hout fun n => Ne.symm (hcs n).1
    have hrest := ih hstep.1 fun n => (hcs n).2
    exact ⟨hrest.1, hrest.2.trans hstep.2⟩

end

/-- On an error, exactly the connections with an empty out buffer are closed and freed; the others are
neither closed nor freed by any callback that follows, as long as the transport takes nothing. -/
theorem failed_released_iff {σ : Type} (server : AdServer σ) (world : σ) (cs : List Callback)
    {conn : AdConn} (hconn : (session server world cs).conn = some conn) {what : BevEvent}
    (hw : what.error = true) :
    ((callback server (.event what) conn (session server world cs).world).Closes
        (evClose what.timeout) ↔ conn.out = []) ∧
      (conn.out ≠ [] → ∀ later : List Callback, (∀ n, .drain n ∉ later) →
        (session server world (cs ++ .event what :: later)).Lingers conn.out ∧
          (session server world (cs ++ .event what :: later)).trace =
            (session server world cs).trace) := by
  have hhang := callback_hangUp server (Or.inr (Or.inl hw)) conn (session server world cs).world
  rw [connCbEnd_waiting server rfl] at hhang
  refine ⟨⟨?_, ?_⟩, ?_⟩
  · rintro ⟨hnone, -⟩
    by_contra hout
    rw [hhang, if_neg hout] at hnone
    cases hnone
  · intro hout
    rw [hhang, if_pos hout]
    exact closes_of_out_nil server _ rfl _
  · intro hout later hlater
    have hfail : (session server world (cs ++ [.event what])).Lingers conn.out ∧
        (session server world (cs ++ [.event what])).trace = (session server world cs).trace := by
      rw [session_concat, Session.step, hconn]
      simp only [hhang, if_neg hout]
      exact ⟨⟨_, rfl, rfl, rfl⟩, List.append_nil _⟩
    have hrest := hfail.1.foldl server hout hlater
    rw [show cs ++ Callback.event what :: later = cs ++ [.event what] ++ later by simp]
    rw [session_append]
    exact ⟨hrest.1, hrest.2.trans hfail.2⟩

/-- A server whose hook sends back the bytes that have arrived. -/
def echoServer : AdServer Unit where
  options := []
  hooks := [⟨none, some fun event conn world =>
    let view := conn.toConnView
    some (adOk, if event.read then { view with inb := [], out := view.out ++ view.inb } else view,
      world)⟩]

/-- The connection of `echoServer` after one byte has arrived. -/
def echoConn : AdConn := { blankConn with out := [65] }

/-- A byte has arrived and is not sent yet when the error comes: the connection stays. -/
theorem failed_echo_leaks :
    (session echoServer () [.read [65]]).conn = some echoConn ∧
      ¬(callback echoServer (.event { error := true }) echoConn ()).Closes (evClose false) ∧
      ∀ later : List Callback, (∀ n, .drain n ∉ later) →
        (session echoServer () (.read [65] :: .event { error := true } :: later)).Lingers [65] := by
  have hconn : (session echoServer () [.read [65]]).conn = some echoConn := by decide
  have hfail := @failed_released_iff _ echoServer () [.read [65]] _ hconn { error := true } rfl
  refine ⟨hconn, fun h => ?_, fun later hlater => ?_⟩
  · have hout : echoConn.out = [] := hfail.1.1 h
    exact absurd hout (by decide)
  · exact (hfail.2 (by decide) later hlater).1

/-- Not every connection on which an error is reported is released. -/
theorem failed_not_released :
    (session echoServer () [.read [65]]).conn = some echoConn ∧
      ¬(callback echoServer (.event { error := true }) echoConn
        (session echoServer () [.read [65]]).world).Closes (evClose false) := by
  refine ⟨by decide, ?_⟩
  rintro ⟨hnone, -⟩
  revert hnone
  decide

end Asyncd
