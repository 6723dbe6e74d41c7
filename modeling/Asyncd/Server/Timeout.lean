import Asyncd.Server.Callbacks
import Asyncd.Server.Failure
import Asyncd.Lib.Runs

/-!
# Timeouts

`AD_EVENT_TIMEOUT` is passed on in the event of the callback that closes the connection, and kept nowhere
else.  When output is pending, the connection is closed by a later callback, whose event says nothing
about why it is closed: `close_timeout_iff` says which runs tell the hooks the truth.
-/

namespace Asyncd

/-- The callback is a `BEV_EVENT_TIMEOUT` reported to `conn_event_cb`. -/
def Callback.reportsTimeout : Callback → Bool
  | .event what => what.timeout
  | _ => false

/-- The callback gets to `conn_cb`. -/
def Callback.Active (c : Callback) : Prop :=
  (∃ seg, c = .read seg) ∨ c = .write ∨
    ∃ what : BevEvent, c = .event what ∧ (what.eof ∨ what.error ∨ what.timeout)

/-- The close of a connection in the status `AD_CLOSE`. -/
structure IsFinal (d : Dispatch) : Prop where
  close : d.event.close = true
  status : d.before.status = adClose

/-! ## One callback -/

variable {c : Callback} {conn : AdConn} {ds : List Dispatch} {st : Option ℤ} {f : Dispatch}

theorem not_isFinal_of_done (hb : f.before = conn) (hst : conn.status = adDone) : ¬IsFinal f := by
  intro hf
  have h := hf.status
  rw [hb, hst] at h
  exact absurd h (by decide)

/-- The final close passes on the flag of its callback, and is the end. -/
theorem CbEnd.isFinal {event : Event} (h : CbEnd event conn ds st) (he : CbEvent event)
    (hf : f ∈ ds) (hfinal : IsFinal f) :
    st = none ∧ conn.out = [] ∧ f.event.timeout = event.timeout := by
  cases h with
  | idle => cases hf
  | cut hst hd hb =>
    obtain rfl := List.mem_singleton.1 hf
    exact absurd hfinal (not_isFinal_of_done hb hst)
  | reset hst hd hb hi =>
    rcases List.mem_pair.1 hf with rfl | rfl
    · exact absurd hfinal (not_isFinal_of_done hb hst)
    · have hclose := hfinal.close
      rw [hi] at hclose
      cases hclose
  | final hst hout hd =>
    obtain rfl := List.mem_singleton.1 hf
    refine ⟨rfl, hout, ?_⟩
    rw [hd]
    rcases he with rfl | rfl | ⟨t, rfl⟩ <;> rfl

theorem CbEnd.exists_final {event : Event} (h : CbEnd event conn ds st) (he : CbEvent event)
    (hst : conn.status = adClose) (hout : conn.out = []) : ∃ f ∈ ds, IsFinal f := by
  have hdone : conn.status ≠ adDone := by
    rw [hst]
    decide
  cases h with
  | idle h => exact absurd ⟨hst, hout⟩ h
  | cut hst' => exact absurd hst' hdone
  | reset hst' => exact absurd hst' hdone
  | @final d _ _ hd hb =>
    refine ⟨d, by simp, ?_, by rw [hb, hst]⟩
    rw [hd]
    rcases he with rfl | rfl | ⟨t, rfl⟩ <;> rfl

theorem served_active {event : Event}
    (hc : (∃ seg, c = .read seg) ∧ event = evRead ∨ c = .write ∧ event = evWrite) :
    event.timeout = c.reportsTimeout ∧ c.Active := by
  rcases hc with ⟨⟨seg, rfl⟩, rfl⟩ | ⟨rfl, rfl⟩
  · exact ⟨rfl, Or.inl ⟨seg, rfl⟩⟩
  · exact ⟨rfl, Or.inr (Or.inl rfl)⟩

theorem CbRun.isFinal (h : CbRun c conn ds st) (hf : f ∈ ds) (hfinal : IsFinal f) :
    st = none ∧ f.event.timeout = c.reportsTimeout ∧
      (conn.status = adClose → conn.out = [] ∧ c.Active) := by
  have hfirst : ∀ d : Dispatch,
      ((∃ seg, c = .read seg) ∧ d.event = evRead ∨ c = .write ∧ d.event = evWrite) → f ≠ d := by
    rintro d hd rfl
    have hclose := hfinal.close
    rw [(served_event hd).2.2] at hclose
    cases hclose
  cases h with
  | idle => cases hf
  | @hangUp what _ _ _ hw hend =>
    have hev : CbEvent (evClose what.timeout) := Or.inr (Or.inr ⟨_, rfl⟩)
    obtain ⟨hst, hout, ht⟩ := hend.isFinal hev hf hfinal
    exact ⟨hst, ht, fun _ => ⟨hout, Or.inr (Or.inr ⟨what, rfl, hw⟩)⟩⟩
  | wait hc hst hst' hout hend =>
    obtain ⟨ht, hact⟩ := served_active hc
    obtain ⟨hst, hout', ht'⟩ := hend.isFinal (served_event hc).1 hf hfinal
    exact ⟨hst, ht'.trans ht, fun _ => ⟨hout ▸ hout', hact⟩⟩
  | cut hc =>
    exact absurd (List.mem_singleton.1 hf) (hfirst _ hc)
  | serve hc hst hd hb hend =>
    have hmem := (List.mem_cons.1 hf).resolve_left (hfirst _ hc)
    obtain ⟨hst', -, ht'⟩ := hend.isFinal (served_event hc).1 hmem hfinal
    refine ⟨hst', ht'.trans (served_active hc).1, fun hclose => ?_⟩
    rw [hclose] at hst
    exact absurd hst (by decide)

theorem CbRun.exists_final (h : CbRun c conn ds st) (hst : conn.status = adClose)
    (hout : conn.out = []) (hc : c.Active) : ∃ f ∈ ds, IsFinal f := by
  have hserve : ¬(conn.status = adOk ∨ conn.status = adTakeover) := by
    rw [hst]
    decide
  cases h with
  | idle hr hw he =>
    rcases hc with ⟨seg, e⟩ | e | ⟨what, e, hwhat⟩
    · exact absurd e (hr seg)
    · exact absurd e hw
    · exact absurd hwhat (he what e)
  | hangUp hw hend => exact hend.exists_final (Or.inr (Or.inr ⟨_, rfl⟩)) rfl hout
  | wait hc _ hst' hout' hend =>
    exact hend.exists_final (served_event hc).1 (hst'.trans hst) (hout'.trans hout)
  | cut _ hst' => exact absurd hst' hserve
  | serve _ hst' => exact absurd hst' hserve

/-! ## Every run -/

section

variable {σ : Type} (server : AdServer σ) (world : σ)

/-- The event that put the connection into the status `AD_CLOSE` was a timeout. -/
def TimedOut (cs : List Callback) : Prop :=
  ∃ cs₀ c cs₁, cs = cs₀ ++ c :: cs₁ ∧ c.reportsTimeout = true ∧
    ∃ st, (session server world cs₀).status = some st ∧ st ≠ adClose

/-- The final close tells whether the connection is closed for a timeout. -/
def CloseTruthful (cs : List Callback) : Prop :=
  ∀ f ∈ dispatches (session server world cs).trace, IsFinal f →
    (f.event.timeout = true ↔ TimedOut server world cs)

/-- The callback closes a connection that was waiting for its output to drain, and is a timeout while the
cause was not, or the other way round. -/
def Misleads (cs : List Callback) (c : Callback) : Prop :=
  c.Active ∧ ¬(c.reportsTimeout = true ↔ TimedOut server world cs) ∧
    ∃ conn, (session server world cs).conn = some conn ∧ conn.status = adClose ∧ conn.out = []

variable {server world}

theorem timedOut_concat (cs : List Callback) (c : Callback) :
    TimedOut server world (cs ++ [c]) ↔
      TimedOut server world cs ∨ c.reportsTimeout = true ∧
        ∃ st, (session server world cs).status = some st ∧ st ≠ adClose := by
  constructor
  · rintro ⟨cs₀, c', cs₁, e, ht, hst⟩
    rcases append_eq_split e with ⟨m, rfl, -⟩ | ⟨m, rfl, hm⟩
    · exact Or.inl ⟨cs₀, c', m, rfl, ht, hst⟩
    · rcases List.append_eq_singleton_iff.1 hm.symm with ⟨rfl, e'⟩ | ⟨-, e'⟩
      · obtain ⟨rfl, -⟩ := List.cons_eq_cons.1 e'
        rw [List.append_nil] at hst
        exact Or.inr ⟨ht, hst⟩
      · cases e'
  · rintro (⟨cs₀, c', cs₁, rfl, ht, hst⟩ | ⟨ht, hst⟩)
    · exact ⟨cs₀, c', cs₁ ++ [c], by simp, ht, hst⟩
    · exact ⟨cs, c, [], rfl, ht, hst⟩

/-- After a timeout the connection is closed or waits for that. -/
theorem TimedOut.closing {cs : List Callback} (h : TimedOut server world cs) {st : ℤ}
    (hst : (session server world cs).status = some st) : st = adClose := by
  obtain ⟨cs₀, c, cs₁, rfl, ht, st₀, hst₀, -⟩ := h
  cases c with
  | event what =>
    have hw : what.eof ∨ what.error ∨ what.timeout := Or.inr (Or.inr ht)
    obtain ⟨out₁, -, h₁⟩ := step_hangUp_moves server (session server world cs₀) hw
    obtain ⟨out₂, -, h₂⟩ := session_moves server world (cs₀ ++ [.event what]) cs₁
    rw [List.append_assoc, List.singleton_append, session_concat] at h₂
    rcases h₁ with ⟨hnone, -⟩ | h₁
    · rw [Session.status, hnone] at hst₀
      cases hst₀
    · have hwait := (h₁.trans h₂).waiting (W := fun s => s = adClose) (by decide) (by decide) rfl
        (fun _ => by decide) rfl
      exact (hwait.2 st hst).2
  | _ => cases ht

theorem start_not_final {f : Dispatch} (hf : f ∈ dispatches (session server world []).trace) :
    ¬IsFinal f := by
  obtain ⟨d, he, htr, -⟩ := session_start server world
  rw [htr] at hf
  obtain rfl : f = d := by simpa using hf
  intro hfinal
  have hclose := hfinal.close
  rw [he] at hclose
  cases hclose

theorem final_gone {cs : List Callback} (hf : f ∈ dispatches (session server world cs).trace)
    (hfinal : IsFinal f) : (session server world cs).conn = none := by
  induction cs using List.reverseRecOn with
  | nil => exact absurd hfinal (start_not_final hf)
  | append_singleton cs c ih =>
    rw [session_concat, Session.step] at hf ⊢
    cases hconn : (session server world cs).conn with
    | none =>
      rw [hconn] at hf
      exact hconn
    | some conn =>
      rw [hconn, Session.after_dispatches, List.mem_append] at hf
      rcases hf with hf | hf
      · rw [ih hf] at hconn
        cases hconn
      · have hrun := callback_run server c conn (session server world cs).world
        exact Option.map_eq_none_iff.1 (hrun.isFinal hf hfinal).1

theorem not_isFinal_of_open {cs : List Callback} {conn : AdConn}
    (hconn : (session server world cs).conn = some conn) :
    ∀ f ∈ dispatches (session server world cs).trace, ¬IsFinal f := by
  intro f hf hfinal
  rw [final_gone hf hfinal] at hconn
  cases hconn

/-- The final close is to be looked for in the last callback. -/
theorem closeTruthful_concat {cs : List Callback} {conn : AdConn}
    (hconn : (session server world cs).conn = some conn) (c : Callback) :
    CloseTruthful server world (cs ++ [c]) ↔
      ∀ f ∈ dispatches (callback server c conn (session server world cs).world).trace, IsFinal f →
        (c.reportsTimeout = true ↔ TimedOut server world (cs ++ [c])) := by
  have hold := not_isFinal_of_open hconn
  have hrun := callback_run server c conn (session server world cs).world
  unfold CloseTruthful
  rw [session_concat, Session.step, hconn]
  simp only [Session.after_dispatches, List.mem_append]
  constructor
  · intro h f hf hfinal
    rw [← (hrun.isFinal hf hfinal).2.1]
    exact h f (Or.inr hf) hfinal
  · intro h f hf hfinal
    have hnew := hf.resolve_left fun hf => hold f hf hfinal
    rw [(hrun.isFinal hnew hfinal).2.1]
    exact h f hnew hfinal

theorem closeTruthful_waiting_iff {cs : List Callback} {conn : AdConn}
    (hconn : (session server world cs).conn = some conn) (hst : conn.status = adClose)
    (c : Callback) :
    CloseTruthful server world (cs ++ [c]) ↔ ¬Misleads server world cs c := by
  have hcause : TimedOut server world (cs ++ [c]) ↔ TimedOut server world cs := by
    rw [timedOut_concat, or_iff_left]
    rintro ⟨-, st, hst', hne⟩
    rw [Session.status, hconn] at hst'
    cases hst'
    exact hne hst
  have hrun := callback_run server c conn (session server world cs).world
  rw [closeTruthful_concat hconn, hcause]
  constructor
  · rintro h ⟨hact, hne, conn', hconn', -, hout⟩
    rw [hconn] at hconn'
    cases hconn'
    obtain ⟨f, hf, hfinal⟩ := hrun.exists_final hst hout hact
    exact hne (h f hf hfinal)
  · intro hno f hf hfinal
    obtain ⟨hout, hact⟩ := (hrun.isFinal hf hfinal).2.2 hst
    by_contra hne
    exact hno ⟨hact, hne, conn, hconn, hst, hout⟩

theorem closeTruthful_of_cause {cs : List Callback} {conn : AdConn}
    (hconn : (session server world cs).conn = some conn) (hst : conn.status ≠ adClose)
    (c : Callback) :
    CloseTruthful server world (cs ++ [c]) ∧ ¬Misleads server world cs c := by
  have hstatus : (session server world cs).status = some conn.status := by
    rw [Session.status, hconn]
    rfl
  constructor
  · rw [closeTruthful_concat hconn, timedOut_concat, hstatus]
    intro f hf hfinal
    constructor
    · exact fun h => Or.inr ⟨h, _, rfl, hst⟩
    · rintro (h | h)
      · exact absurd (h.closing hstatus) hst
      · exact h.1
  · rintro ⟨-, -, conn', hconn', hst', -⟩
    rw [hconn] at hconn'
    cases hconn'
    exact hst hst'

theorem closeTruthful_concat_iff (cs : List Callback) (c : Callback) :
    CloseTruthful server world (cs ++ [c]) ↔
      CloseTruthful server world cs ∧ ¬Misleads server world cs c := by
  cases hconn : (session server world cs).conn with
  | none =>
    have hsame : TimedOut server world (cs ++ [c]) ↔ TimedOut server world cs := by
      rw [timedOut_concat, or_iff_left]
      rintro ⟨-, st, hst, -⟩
      rw [Session.status, hconn] at hst
      cases hst
    have hno : ¬Misleads server world cs c := by
      rintro ⟨-, -, conn, h, -⟩
      rw [hconn] at h
      cases h
    rw [and_iff_left hno, CloseTruthful, session_concat, Session.step, hconn]
    simp only [hsame, CloseTruthful]
  | some conn =>
    have hcs : CloseTruthful server world cs := fun f hf hfinal =>
      absurd hfinal (not_isFinal_of_open hconn f hf)
    rw [and_iff_right hcs]
    by_cases hst : conn.status = adClose
    · exact closeTruthful_waiting_iff hconn hst c
    · exact iff_of_true (closeTruthful_of_cause hconn hst c).1 (closeTruthful_of_cause hconn hst c).2

/-- The final close carries `AD_EVENT_TIMEOUT` exactly for connections that were closed for a timeout, in
exactly the runs in which no callback misleads: a connection that waits in `AD_CLOSE` for its output is
closed by a timeout if and only if it was put into `AD_CLOSE` by one. -/
theorem close_timeout_iff (server : AdServer σ) (world : σ) (cs : List Callback) :
    CloseTruthful server world cs ↔
      Runs.Steps (fun cs₀ c => ¬Misleads server world cs₀ c) cs := by
  induction cs using List.reverseRecOn with
  | nil =>
    have htold : CloseTruthful server world [] := fun f hf hfinal =>
      absurd hfinal (start_not_final hf)
    exact iff_of_true htold (Runs.steps_nil _)
  | append_singleton cs c ih => rw [closeTruthful_concat_iff, ih, Runs.steps_concat_iff]

end

/-- The peer is idle for too long while an answer is pending.  The write callback that ends the
connection once the answer is sent says nothing of a timeout. -/
theorem timeout_not_told :
    ¬CloseTruthful echoServer () [.read [65], .event { timeout := true }, .drain 1, .write] := by
  intro h
  have hfinal : (⟨evClose false, { blankConn with status := adClose },
      [⟨0, true, { blankConn with status := adClose }⟩], some adOk⟩ : Dispatch) ∈
        dispatches (session echoServer () [.read [65], .event { timeout := true }, .drain 1,
          .write]).trace := by decide +kernel
  have htimeout : TimedOut echoServer ()
      [.read [65], .event { timeout := true }, .drain 1, .write] :=
    ⟨[.read [65]], .event { timeout := true }, [.drain 1, .write], rfl, rfl, adOk, by decide,
      by decide⟩
  have htold := (h _ hfinal ⟨rfl, rfl⟩).2 htimeout
  cases htold

end Asyncd
