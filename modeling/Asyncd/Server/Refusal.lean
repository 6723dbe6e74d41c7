import Asyncd.Server.Callbacks
import Asyncd.Server.Handler
import Asyncd.Lib.Runs

/-!
# Refused requests

A hook refuses a request by returning `AD_CLOSE` from `AD_EVENT_INIT`.  `conn_new` takes that for the
status of the connection, and `conn_cb` ignores it when it starts the next request of a pipelined
connection: the connection stays in the status `AD_OK`, and the next bytes reach the hooks
(`init_honoured_iff`).
-/

open CString

namespace Asyncd

/-- A dispatch of `AD_EVENT_INIT` that returned `AD_CLOSE`. -/
structure RefusedInit (i : Dispatch) : Prop where
  init : i.event.init = true
  status : i.status = some adClose

instance (i : Dispatch) : Decidable (RefusedInit i) :=
  decidable_of_iff (i.event.init = true ∧ i.status = some adClose)
    ⟨fun h => ⟨h.1, h.2⟩, fun h => ⟨h.init, h.status⟩⟩

/-- The callback is `conn_read_cb` or `conn_write_cb`. -/
def Callback.Serves (c : Callback) : Prop := (∃ seg, c = .read seg) ∨ c = .write

section

variable {σ : Type} (server : AdServer σ) (world : σ)

/-- After a refused `AD_EVENT_INIT` there is at most the final close. -/
def InitHonoured (cs : List Callback) : Prop :=
  ∀ pre i post, dispatches (session server world cs).trace = pre ++ i :: post → RefusedInit i →
    OnlyFinalClose post

/-- The callback comes on a connection in the status `AD_OK` whose last dispatch is a refused
`AD_EVENT_INIT`. -/
def MeetsRefusal (s : Session σ) (c : Callback) : Prop :=
  c.Serves ∧ s.status = some adOk ∧
    ∃ i, (dispatches s.trace).getLast? = some i ∧ RefusedInit i

end

/-! ## One callback -/

variable {c : Callback} {conn : AdConn} {ds : List Dispatch} {st : Option ℤ}

/-- A request that is prepared for is the last thing in its callback. -/
theorem CbEnd.init {event : Event} (h : CbEnd event conn ds st) (he : event.init = false)
    {pre post : List Dispatch} {i : Dispatch} (hi : ds = pre ++ i :: post)
    (hinit : i.event.init = true) : post = [] ∧ st = i.status.map fun _ => adOk := by
  have hclose : ∀ d : Dispatch, d.event = evClose false → d ≠ i := by
    rintro d hd rfl
    rw [hd] at hinit
    cases hinit
  cases h with
  | idle => exact absurd hi.symm (by simp)
  | @cut d hst hd =>
    rcases List.append_eq_singleton_iff.1 hi.symm with ⟨-, e⟩ | ⟨-, e⟩
    · exact absurd (List.cons_eq_cons.1 e).1.symm (hclose d hd)
    · cases e
  | @reset d i' hst hd hb hi' =>
    cases pre with
    | nil => exact absurd (List.cons_eq_cons.1 hi).1 (hclose d hd)
    | cons d' pre =>
      have htail := (List.cons_eq_cons.1 hi).2
      rcases List.append_eq_singleton_iff.1 htail.symm with ⟨-, e⟩ | ⟨-, e⟩
      · obtain ⟨rfl, rfl⟩ := List.cons_eq_cons.1 e
        exact ⟨rfl, rfl⟩
      · cases e
  | @final d hst hout hd =>
    rcases List.append_eq_singleton_iff.1 hi.symm with ⟨-, e⟩ | ⟨-, e⟩
    · obtain rfl := (List.cons_eq_cons.1 e).1
      rw [hd] at hinit
      split_ifs at hinit
      · rw [he] at hinit
        cases hinit
      · cases hinit
    · cases e

theorem CbRun.init (h : CbRun c conn ds st) {pre post : List Dispatch} {i : Dispatch}
    (hi : ds = pre ++ i :: post) (hinit : i.event.init = true) :
    post = [] ∧ st = i.status.map fun _ => adOk := by
  cases h with
  | idle => exact absurd hi.symm (by simp)
  | hangUp hw hend => exact hend.init rfl hi hinit
  | wait hc hst hst' hout hend => exact hend.init (served_event hc).2.1 hi hinit
  | @cut _ _ d hc =>
    rcases List.append_eq_singleton_iff.1 hi.symm with ⟨-, e⟩ | ⟨-, e⟩
    · obtain rfl := (List.cons_eq_cons.1 e).1
      rw [(served_event hc).2.1] at hinit
      cases hinit
    · cases e
  | serve hc hst hd hb hend =>
    cases pre with
    | nil =>
      obtain rfl := (List.cons_eq_cons.1 hi).1
      rw [(served_event hc).2.1] at hinit
      cases hinit
    | cons d' pre => exact hend.init (served_event hc).2.1 (List.cons_eq_cons.1 hi).2 hinit

theorem CbRun.serves (h : CbRun c conn ds st) (hc : c.Serves)
    (hst : conn.status = adOk ∨ conn.status = adTakeover) :
    ∃ d ds', ds = d :: ds' ∧ d.event.close = false := by
  cases h with
  | idle hr hw => exact absurd hc (by rintro (⟨seg, rfl⟩ | rfl) <;> simp_all)
  | hangUp => exact absurd hc (by rintro (⟨seg, e⟩ | e) <;> cases e)
  | wait hc' hst' => exact absurd hst hst'
  | cut hc' => exact ⟨_, _, rfl, (served_event hc').2.2⟩
  | serve hc' => exact ⟨_, _, rfl, (served_event hc').2.2⟩

theorem CbEnd.closing {event : Event} (h : CbEnd event conn ds st) (he : CbEvent event)
    (hst : conn.status = adClose) :
    OnlyFinalClose ds ∧ (st = none ∨ ds = [] ∧ st = some adClose) := by
  have hdone : conn.status ≠ adDone := by
    rw [hst]
    decide
  cases h with
  | idle => exact ⟨Or.inl rfl, Or.inr ⟨rfl, by rw [hst]⟩⟩
  | cut hst' => exact absurd hst' hdone
  | reset hst' => exact absurd hst' hdone
  | @final d hst' hout hd hb =>
    obtain ⟨t, ht⟩ := he.final
    exact ⟨Or.inr ⟨d, rfl, ⟨t, hd.trans ht⟩, hb ▸ hout⟩, Or.inl rfl⟩

theorem CbRun.closing (h : CbRun c conn ds st)
    (hst : conn.status = adClose ∨ ¬c.Serves ∧ conn.status = adOk) :
    OnlyFinalClose ds ∧ (st = none ∨ ds = [] ∧ (st = some adClose ∨ st = some adOk)) := by
  have hclosing : OnlyFinalClose ds ∧ (st = none ∨ ds = [] ∧ st = some adClose) →
      OnlyFinalClose ds ∧ (st = none ∨ ds = [] ∧ (st = some adClose ∨ st = some adOk)) :=
    fun h => ⟨h.1, h.2.imp_right fun h => ⟨h.1, Or.inl h.2⟩⟩
  have hserves : ∀ {event : Event},
      (∃ seg, c = .read seg) ∧ event = evRead ∨ c = .write ∧ event = evWrite →
      conn.status = adClose := by
    intro event hc
    have hc' : c.Serves := hc.imp And.left And.left
    exact hst.resolve_right fun h => h.1 hc'
  have hne : conn.status = adClose → ¬(conn.status = adOk ∨ conn.status = adTakeover) := by
    intro e
    rw [e]
    decide
  cases h with
  | idle =>
    refine ⟨Or.inl rfl, Or.inr ⟨rfl, ?_⟩⟩
    exact hst.imp (congrArg some) fun h => congrArg some h.2
  | @hangUp what _ _ _ _ hend => exact hclosing (hend.closing (Or.inr (Or.inr ⟨_, rfl⟩)) rfl)
  | wait hc _ hst' _ hend =>
    exact hclosing (hend.closing (served_event hc).1 (hst'.trans (hserves hc)))
  | cut hc hst' => exact absurd hst' (hne (hserves hc))
  | serve hc hst' => exact absurd hst' (hne (hserves hc))

/-! ## Every run -/

section

variable {σ : Type} {server : AdServer σ} {world : σ}

/-- After a refused `AD_EVENT_INIT`, the connection waits for its end, or for the next callback. -/
def Settled (s : Session σ) : Prop :=
  ∀ pre i post, dispatches s.trace = pre ++ i :: post → RefusedInit i →
    OnlyFinalClose post ∧
      (s.status = none ∨ post = [] ∧ (s.status = some adClose ∨ s.status = some adOk))

theorem settled_start : Settled (session server world []) := by
  intro pre i post hds hi
  obtain ⟨d, -, htr, hst⟩ := session_start server world
  rw [htr, dispatches_dispatch, dispatches_nil] at hds
  rcases List.append_eq_singleton_iff.1 hds.symm with ⟨-, e⟩ | ⟨-, e⟩
  · obtain ⟨rfl, rfl⟩ := List.cons_eq_cons.1 e
    exact ⟨Or.inl rfl, Or.inr ⟨rfl, Or.inl (hst.trans hi.status)⟩⟩
  · cases e

/-- Nothing but a callback that meets a refusal breaks that. -/
theorem Settled.step {s : Session σ} (h : Settled s) {c : Callback} (hc : ¬MeetsRefusal s c) :
    Settled (s.step server c) := by
  unfold Session.step
  cases hconn : s.conn with
  | none => exact h
  | some conn =>
    intro pre i post hds hi
    have hrun := callback_run server c conn s.world
    rw [Session.after_dispatches] at hds
    rw [Session.after_status]
    have hstatus : s.status = some conn.status := by rw [Session.status, hconn]; rfl
    rcases append_eq_split hds with ⟨m, hold, rfl⟩ | ⟨m, rfl, hnew⟩
    · -- the refusal is older than the callback
      obtain ⟨-, hnone | ⟨rfl, hst⟩⟩ := h pre i m hold hi
      · rw [hstatus] at hnone
        cases hnone
      have hlast : (dispatches s.trace).getLast? = some i := by rw [hold]; simp
      rw [List.nil_append]
      apply hrun.closing
      rw [hstatus, Option.some.injEq, Option.some.injEq] at hst
      refine hst.imp_right fun hok => ⟨fun hs => hc ⟨hs, ?_, i, hlast, hi⟩, hok⟩
      rw [hstatus, hok]
    · obtain ⟨rfl, hst⟩ := hrun.init hnew hi.init
      rw [hst, hi.status]
      exact ⟨Or.inl rfl, Or.inr ⟨rfl, Or.inr rfl⟩⟩

/-- A refused `AD_EVENT_INIT` is honoured in a run exactly if no callback of the run meets the refusal of
the `AD_EVENT_INIT` of a pipelined reset. -/
theorem init_honoured_iff (server : AdServer σ) (world : σ) (cs : List Callback) :
    InitHonoured server world cs ↔
      Runs.Steps (fun cs₀ c => ¬MeetsRefusal (session server world cs₀) c) cs := by
  constructor
  · rintro h cs₀ c cs₁ rfl ⟨hserves, hst, i, hlast, hi⟩
    obtain ⟨pre, hpre⟩ := List.getLast?_eq_some_iff.1 hlast
    obtain ⟨conn, hconn, hok⟩ := Option.map_eq_some_iff.1 hst
    obtain ⟨d, ds, hds, hclose⟩ := (callback_run server c conn (session server world cs₀).world).serves
      hserves (Or.inl hok)
    -- the first dispatch of the callback stands right behind the refused one
    have hstep : dispatches (session server world (cs₀ ++ [c])).trace = pre ++ i :: d :: ds := by
      rw [session_concat, Session.step, hconn]
      simp [hpre, hds]
    obtain ⟨out, htr, -⟩ := session_moves server world (cs₀ ++ [c]) cs₁
    have hall : dispatches (session server world (cs₀ ++ c :: cs₁)).trace =
        pre ++ i :: (d :: (ds ++ dispatches out)) := by
      have happ : cs₀ ++ c :: cs₁ = cs₀ ++ [c] ++ cs₁ := by simp
      rw [happ, htr, dispatches_append, hstep]
      simp
    rcases h pre i _ hall hi with hnil | ⟨f, hf, ⟨t, ht⟩, -⟩
    · cases hnil
    · obtain rfl := (List.cons_eq_cons.1 hf).1
      rw [ht] at hclose
      cases hclose
  · intro h pre i post hds hi
    have hsettled : Settled (session server world cs) := by
      refine h.invariant (I := fun cs => Settled (session server world cs)) settled_start ?_
        (List.append_nil cs).symm
      intro cs₀ c _ _ hI hc
      rw [session_concat]
      exact hI.step hc
    exact (hsettled pre i post hds hi).1

end

/-! ## A second request that is refused -/

/-- A server that reads HTTP requests one after the other; the allocations of `http_new` succeed for the
first one only, when the world is `true`. -/
def refusingServer : AdServer Bool :=
  let _ := percentDecoder
  { options := [(bytes "server.request_pipelining", bytes "1")]
    hooks :=
      [httpHook id,
        ⟨none, some fun event conn world =>
          if event.read then some (adDone, conn.toConnView, false)
          else some (adOk, conn.toConnView, world)⟩] }

/-- The bytes behind the first request reach `http_parser`, which has no HTTP state: its assertion ends
the process. -/
theorem refused_second_request :
    ¬InitHonoured refusingServer true
      [.read (bytes "GET / HTTP/1.1\r\n\r\n"), .read (bytes "G")] := by
  intro h
  have hrun : (dispatches (session refusingServer true
      [.read (bytes "GET / HTTP/1.1\r\n\r\n"), .read (bytes "G")]).trace).map
        (fun d => (d.event, d.status)) =
      [(evInitWrite, some adOk), (evRead, some adDone), (evClose false, some adOk)] ++
        [(evInit, some adClose), (evRead, none)] := by decide +kernel
  obtain ⟨pre, rest, hds, -, hrest⟩ := List.map_eq_append_iff.1 hrun
  obtain ⟨i, rest, rfl, hi, hrest⟩ := List.map_eq_cons_iff.1 hrest
  obtain ⟨d, rest, rfl, hd, -⟩ := List.map_eq_cons_iff.1 hrest
  rw [Prod.mk.injEq] at hi hd
  rcases h pre i _ hds ⟨by rw [hi.1]; rfl, hi.2⟩ with hnil | ⟨f, hf, ⟨t, ht⟩, -⟩
  · cases hnil
  · obtain rfl := (List.cons_eq_cons.1 hf).1
    rw [hd.1] at ht
    cases ht

end Asyncd
