import Asyncd.Lib.Serving
import Asyncd.Server.Shutdown

/-!
# Sockets that are accepted

`listener_cb` may find no buffer for a socket, or no connection for a buffer.  It then breaks the loop
off.  For the connections, that is all that happens (`serverLoop_eq`).  Every socket is closed once,
or belongs to a connection that exists, but for those for which there was no buffer: they stay open
(`sockets_accounted`).
-/

namespace Asyncd

/-! ## The listener -/

/-- What the allocations of `listener_cb` return: that of the buffer, plain or SSL, and that of
`conn_new`. -/
structure Allocs where
  buffer : Bool
  conn : Bool
  deriving DecidableEq

/-- A connection is made. -/
abbrev Allocs.Succeed (a : Allocs) : Prop := a.buffer ∧ a.conn

/-- What happens in the loop: the listener is called back for the sockets that wait, or a connection. -/
inductive LoopEvent
  | listener (sockets : List Allocs)
  | callback (k : ℕ) (c : Callback)

/-- A server with the sockets it has accepted, numbered in their order: those of the connections, and
those that were closed.  `loopbreak` says that `event_base_loopbreak` was called, and `server->errcode`
set to `ENOMEM`. -/
structure Listening (σ : Type) where
  running : Running σ
  accepted : List Allocs
  owned : List ℕ
  closed : List ℕ
  loopbreak : Bool

section

variable {σ : Type} (server : AdServer σ)

/-- `listener_cb`.  A buffer closes its socket when it is freed. -/
def listenerCb (s : Listening σ) (a : Allocs) : Option (Listening σ) :=
  let socket := s.accepted.length
  let s := { s with accepted := s.accepted ++ [a] }
  if ¬a.buffer then some { s with loopbreak := true }
  else if ¬a.conn then some { s with closed := s.closed ++ [socket], loopbreak := true }
  else
    (loopStep server s.running .accept).map fun running =>
      { s with running := running, owned := s.owned ++ [socket] }

/-- How many times the buffer of a connection has been freed. -/
def Running.frees (s : Running σ) (k : ℕ) : ℕ :=
  (s.conns[k]?.map fun a => a.trace.count .connFree).getD 0

/-- A callback of a connection; `conn_free` frees the buffer. -/
def connCallback (s : Listening σ) (k : ℕ) (c : Callback) : Option (Listening σ) :=
  (loopStep server s.running (.callback k c)).map fun running =>
    { s with
      running := running
      closed := s.closed ++
        s.owned[k]?.toList.flatMap (List.replicate (running.frees k - s.running.frees k)) }

/-- An event of the loop.  The listener goes on with the sockets that wait. -/
def listenStep (s : Listening σ) : LoopEvent → Option (Listening σ)
  | .listener sockets => sockets.foldlM (listenerCb server) s
  | .callback k c => connCallback server s k c

/-- The events of the loop, until it is broken off. -/
def listenRun (s : Listening σ) (events : List LoopEvent) : Option (Listening σ) :=
  events.foldlM (fun s e => if s.loopbreak then some s else listenStep server s e) s

/-- `server_loop`. -/
def serverLoop (s : Listening σ) (events : List LoopEvent) : Option (ℤ × Listening σ) :=
  (listenRun server s events).map fun s => (if s.loopbreak then -1 else 0, s)

/-- Before the loop. -/
def listening (handles : Handles) (world : σ) : Listening σ :=
  ⟨⟨handles, [], [], world⟩, [], [], [], false⟩

end

/-! ## The connections -/

/-- The sockets of an event. -/
def LoopEvent.sockets : LoopEvent → List Allocs
  | .listener sockets => sockets
  | .callback _ _ => []

/-- What an event does when the sockets are left out for which an allocation fails. -/
def LoopEvent.steps : LoopEvent → List LoopStep
  | .listener sockets => sockets.flatMap fun a => if a.Succeed then [.accept] else []
  | .callback k c => [.callback k c]

/-- An allocation fails. -/
def LoopEvent.Fails (e : LoopEvent) : Prop := ∃ a ∈ e.sockets, ¬a.Succeed

instance : DecidablePred LoopEvent.Fails := fun _ => inferInstanceAs (Decidable (∃ _ ∈ _, _))

section

variable {σ : Type} {server : AdServer σ} {s s' : Listening σ}

theorem loopRun_append (r : Running σ) (steps steps' : List LoopStep) :
    loopRun server r (steps ++ steps') =
      (loopRun server r steps).bind fun r => loopRun server r steps' :=
  List.foldlM_append

/-- For the connections, a socket for which an allocation fails is not there. -/
theorem listenerCb_running (s : Listening σ) (a : Allocs) :
    (listenerCb server s a).map Listening.running =
      loopRun server s.running (if a.Succeed then [.accept] else []) := by
  obtain ⟨buffer, conn⟩ := a
  cases buffer with
  | false => rfl
  | true =>
    cases conn with
    | false => rfl
    | true =>
      have haccept : loopRun server s.running [.accept] = loopStep server s.running .accept := by
        simp [loopRun]
      simp [listenerCb, haccept, Function.comp_def]

theorem listener_running (s : Listening σ) (sockets : List Allocs) :
    (sockets.foldlM (listenerCb server) s).map Listening.running =
      loopRun server s.running (LoopEvent.listener sockets).steps := by
  induction sockets generalizing s with
  | nil => rfl
  | cons a sockets ih =>
    rw [List.foldlM_cons, Option.bind_eq_bind, Option.map_bind, LoopEvent.steps, List.flatMap_cons,
      loopRun_append, ← listenerCb_running, Option.bind_map]
    exact congrArg _ (funext ih)

theorem listenStep_running (s : Listening σ) (e : LoopEvent) :
    (listenStep server s e).map Listening.running = loopRun server s.running e.steps := by
  cases e with
  | listener sockets => exact listener_running s sockets
  | callback k c =>
    have hcall : loopRun server s.running [.callback k c] =
        loopStep server s.running (.callback k c) := by
      simp [loopRun]
    simp [listenStep, connCallback, LoopEvent.steps, hcall, Function.comp_def]

theorem listener_records {sockets : List Allocs}
    (h : sockets.foldlM (listenerCb server) s = some s') :
    s'.accepted = s.accepted ++ sockets ∧
      (s'.loopbreak = true ↔ s.loopbreak = true ∨ ∃ a ∈ sockets, ¬a.Succeed) := by
  induction sockets generalizing s with
  | nil =>
    cases h
    exact ⟨(List.append_nil _).symm, by simp⟩
  | cons a sockets ih =>
    rw [List.foldlM_cons, Option.bind_eq_bind, Option.bind_eq_some_iff] at h
    obtain ⟨s₁, hfirst, hrest⟩ := h
    have hone : s₁.accepted = s.accepted ++ [a] ∧
        (s₁.loopbreak = true ↔ s.loopbreak = true ∨ ¬a.Succeed) := by
      unfold listenerCb at hfirst
      by_cases hbuffer : a.buffer
      · by_cases hconn : a.conn
        · simp only [hbuffer, hconn, not_true_eq_false, if_false, Option.map_eq_some_iff] at hfirst
          obtain ⟨r, -, rfl⟩ := hfirst
          exact ⟨rfl, by simp [hbuffer, hconn]⟩
        · simp only [hbuffer, hconn, not_true_eq_false, if_false] at hfirst
          cases hfirst
          exact ⟨rfl, by simp [hconn]⟩
      · simp only [hbuffer] at hfirst
        cases hfirst
        exact ⟨rfl, by simp [hbuffer]⟩
    obtain ⟨haccepted, hbreak⟩ := ih hrest
    constructor
    · rw [haccepted, hone.1, List.append_assoc, List.singleton_append]
    · rw [hbreak, hone.2, or_assoc, List.exists_mem_cons_iff]

theorem listenStep_records {e : LoopEvent} (h : listenStep server s e = some s') :
    s'.accepted = s.accepted ++ e.sockets ∧
      (s'.loopbreak = true ↔ s.loopbreak = true ∨ e.Fails) := by
  cases e with
  | listener sockets => exact listener_records h
  | callback k c =>
    obtain ⟨r, -, rfl⟩ := Option.map_eq_some_iff.1 h
    exact ⟨(List.append_nil _).symm, by simp [LoopEvent.Fails, LoopEvent.sockets]⟩

theorem listenRun_of_break (h : s.loopbreak = true) (events : List LoopEvent) :
    listenRun server s events = some s := by
  induction events with
  | nil => rfl
  | cons e events ih =>
    rw [listenRun, List.foldlM_cons, if_pos h]
    exact ih

theorem listenRun_cons (h : ¬s.loopbreak) (e : LoopEvent) (events : List LoopEvent) :
    listenRun server s (e :: events) =
      (listenStep server s e).bind fun s => listenRun server s events := by
  rw [listenRun, List.foldlM_cons, if_neg h]
  rfl

/-- The loop goes on up to the first event in which an allocation fails. -/
theorem listenRun_running (hs : ¬s.loopbreak) (events : List LoopEvent) :
    (listenRun server s events).map Listening.running =
      loopRun server s.running ((Serving.upTo LoopEvent.Fails events).flatMap LoopEvent.steps) := by
  induction events generalizing s with
  | nil => rfl
  | cons e events ih =>
    have hrunning : (listenStep server s e).map Listening.running =
        loopRun server s.running e.steps := listenStep_running s e
    rw [listenRun_cons hs]
    cases hstep : listenStep server s e with
    | none =>
      rw [hstep] at hrunning
      by_cases hfails : e.Fails
      · rw [Serving.upTo_cons_of_pos hfails, List.flatMap_singleton, ← hrunning]
        rfl
      · rw [Serving.upTo_cons_of_neg hfails, List.flatMap_cons, loopRun_append, ← hrunning]
        rfl
    | some s₁ =>
      rw [hstep] at hrunning
      have hbreak := (listenStep_records hstep).2
      rw [or_iff_right hs] at hbreak
      rw [Option.bind_some]
      by_cases hfails : e.Fails
      · rw [Serving.upTo_cons_of_pos hfails, List.flatMap_singleton, ← hrunning,
          listenRun_of_break (hbreak.2 hfails)]
      · rw [Serving.upTo_cons_of_neg hfails, List.flatMap_cons, loopRun_append, ← hrunning,
          ih (mt hbreak.1 hfails)]
        rfl

theorem listenRun_records (hs : ¬s.loopbreak) {events : List LoopEvent}
    (h : listenRun server s events = some s') :
    s'.accepted = s.accepted ++ (Serving.upTo LoopEvent.Fails events).flatMap LoopEvent.sockets ∧
      (s'.loopbreak = true ↔ ∃ e ∈ events, e.Fails) := by
  induction events generalizing s with
  | nil =>
    cases h
    exact ⟨(List.append_nil _).symm, by simp [hs]⟩
  | cons e events ih =>
    rw [listenRun_cons hs, Option.bind_eq_some_iff] at h
    obtain ⟨s₁, hfirst, hrest⟩ := h
    obtain ⟨haccepted, hbreak⟩ := listenStep_records hfirst
    rw [or_iff_right hs] at hbreak
    by_cases hfails : e.Fails
    · rw [listenRun_of_break (hbreak.2 hfails)] at hrest
      cases hrest
      rw [Serving.upTo_cons_of_pos hfails, List.flatMap_singleton]
      exact ⟨haccepted, iff_of_true (hbreak.2 hfails) ⟨e, List.mem_cons_self, hfails⟩⟩
    · obtain ⟨haccepted', hbreak'⟩ := ih (mt hbreak.1 hfails) hrest
      rw [Serving.upTo_cons_of_neg hfails, List.flatMap_cons]
      constructor
      · rw [haccepted', haccepted, List.append_assoc]
      · rw [hbreak', List.exists_mem_cons_iff, or_iff_right hfails]

end

/-- Where allocations fail, the connections are those of the loop in which the sockets that fail are not
there, up to the event in which the first fails.  There the loop is broken off, and `server_loop` returns
-1. -/
theorem serverLoop_eq {σ : Type} (server : AdServer σ) (handles : Handles) (world : σ)
    (events : List LoopEvent) :
    (serverLoop server (listening handles world) events).map (fun r => (r.1, r.2.running)) =
      (loopRun server ⟨handles, [], [], world⟩
        ((Serving.upTo LoopEvent.Fails events).flatMap LoopEvent.steps)).map
          fun r => (if ∃ e ∈ events, e.Fails then -1 else 0, r) := by
  have hs : ¬(listening handles world).loopbreak := by simp [listening]
  have hrunning := @listenRun_running _ server _ hs events
  rw [show (listening handles world).running = ⟨handles, [], [], world⟩ from rfl] at hrunning
  rw [← hrunning, serverLoop]
  cases hrun : listenRun server (listening handles world) events with
  | none => rfl
  | some s =>
    have hbreak := (listenRun_records hs hrun).2
    simp [hbreak]

/-! ## The sockets -/

section

variable {σ : Type} {server : AdServer σ}

theorem Accepted.Lives.frees {a : Accepted} (h : a.Lives server) :
    a.trace.count .connFree = if a.conn = none then 1 else 0 := by
  obtain ⟨d, out, -, htr, hm⟩ := h.moves
  cases hconn : a.conn with
  | some conn =>
    rw [if_neg (by simp)]
    exact List.count_eq_zero_of_not_mem (h.not_freed hconn)
  | none =>
    rw [hconn] at hm
    rw [if_pos rfl, htr, List.count_cons_of_ne (by simp)]
    have hrunning := h.running
    rw [htr, dispatches_dispatch, List.forall_mem_cons] at hrunning
    have hfreed : Output.connFree ∈ out := by
      cases hm.ended hrunning.1 rfl with
      | inl hfreed => exact hfreed
      | inr hend =>
        obtain ⟨d', hd', hnone⟩ := hend
        exact absurd hnone (hrunning.2 d' hd')
    obtain ⟨pre, d', rel, rfl, -, hrel, hpre, -⟩ := hm.freed hfreed
    simp [List.count_append, List.count_eq_zero_of_not_mem hpre,
      List.count_eq_zero_of_not_mem hrel.2]

/-- Where the sockets are. -/
structure Sockets (server : AdServer σ) (s : Listening σ) : Prop where
  lives : ∀ a ∈ s.running.conns, a.Lives server
  length : s.owned.length = s.running.conns.length
  nodup : s.owned.Nodup
  owned_iff : ∀ i, i ∈ s.owned ↔ ∃ a, s.accepted[i]? = some a ∧ a.Succeed
  closed_owned : ∀ k i, s.owned[k]? = some i → s.closed.count i = s.running.frees k
  closed_other : ∀ i a, s.accepted[i]? = some a → ¬a.Succeed →
    s.closed.count i = if a.buffer then 1 else 0
  closed_lt : ∀ i ∈ s.closed, i < s.accepted.length

theorem sockets_start (handles : Handles) (world : σ) : Sockets server (listening handles world) := by
  refine ⟨by simp [listening], rfl, List.nodup_nil, ?_, ?_, ?_, ?_⟩ <;> simp [listening]

theorem getElem?_concat_eq_some_iff {α : Type} {l : List α} {a b : α} {i : ℕ} :
    (l ++ [a])[i]? = some b ↔ l[i]? = some b ∨ i = l.length ∧ b = a := by
  rcases Nat.lt_trichotomy i l.length with h | h | h
  · rw [List.getElem?_append_left h]
    exact ⟨Or.inl, fun h' => h'.resolve_right fun h' => absurd h'.1 h.ne⟩
  · subst h
    simp [eq_comm]
  · have h' : (l ++ [a]).length ≤ i := by
      rw [List.length_append, List.length_singleton]
      omega
    rw [List.getElem?_eq_none h', List.getElem?_eq_none h.le]
    simp
    omega

theorem loopStep_accept {r r' : Running σ} (h : loopStep server r .accept = some r') :
    ∃ a : Accepted, r'.conns = r.conns ++ [a] ∧ a.trace.count .connFree = 0 := by
  simp only [loopStep, Option.ite_none_left_eq_some, Option.some.injEq] at h
  obtain ⟨-, rfl⟩ := h
  obtain ⟨d, -, htr, -⟩ := session_start server r.world
  refine ⟨_, rfl, ?_⟩
  rw [show (connNew server [] [] r.world).trace = _ from htr]
  rfl

theorem loopStep_callback {r r' : Running σ} {k : ℕ} {c : Callback}
    (h : loopStep server r (.callback k c) = some r') :
    r'.conns.length = r.conns.length ∧ r.frees k ≤ r'.frees k ∧
      ∀ j ≠ k, r'.frees j = r.frees j := by
  rw [loopStep] at h
  cases hk : r.conns[k]? with
  | none =>
    rw [hk] at h
    cases h
    exact ⟨rfl, le_rfl, fun _ _ => rfl⟩
  | some a =>
    simp only [hk, Option.ite_none_left_eq_some, Option.some.injEq] at h
    obtain ⟨-, rfl⟩ := h
    obtain ⟨out, htr, -⟩ := step_moves server ⟨a.conn, r.world, a.trace⟩ c
    have hlt := (List.getElem?_eq_some_iff.1 hk).1
    refine ⟨by simp, ?_, fun j hj => ?_⟩
    · simp only [Running.frees, hk, List.getElem?_set_self hlt, htr, Option.map_some,
        Option.getD_some, List.count_append]
      exact Nat.le_add_right _ _
    · simp [Running.frees, hj.symm]

theorem Sockets.refuse {s : Listening σ} {a : Allocs} (inv : Sockets server s) (ha : ¬a.Succeed) :
    Sockets server { s with
      accepted := s.accepted ++ [a]
      closed := s.closed ++ if a.buffer then [s.accepted.length] else []
      loopbreak := true } := by
  have hnew : s.closed.count s.accepted.length = 0 :=
    List.count_eq_zero_of_not_mem fun hmem => (inv.closed_lt _ hmem).false
  refine ⟨inv.lives, inv.length, inv.nodup, fun i => ?_, fun k i hk => ?_, fun i b hi hb => ?_,
    fun i hi => ?_⟩
  · rw [inv.owned_iff]
    constructor
    · rintro ⟨b, hi, hb⟩
      exact ⟨b, getElem?_concat_eq_some_iff.2 (Or.inl hi), hb⟩
    · rintro ⟨b, hi, hb⟩
      cases getElem?_concat_eq_some_iff.1 hi with
      | inl hi => exact ⟨b, hi, hb⟩
      | inr hi => exact absurd (hi.2 ▸ hb) ha
  · have hi := (inv.owned_iff i).1 (List.mem_of_getElem? hk)
    obtain ⟨b, hi, -⟩ := hi
    have hne : s.accepted.length ≠ i := (List.getElem?_eq_some_iff.1 hi).1.ne'
    rw [List.count_append, inv.closed_owned k i hk]
    cases a.buffer <;> simp [hne]
  · rw [List.count_append]
    cases getElem?_concat_eq_some_iff.1 hi with
    | inl hi =>
      have hne : s.accepted.length ≠ i := (List.getElem?_eq_some_iff.1 hi).1.ne'
      rw [inv.closed_other i b hi hb]
      cases a.buffer <;> simp [hne]
    | inr hi =>
      obtain ⟨rfl, rfl⟩ := hi
      rw [hnew]
      cases b.buffer <;> simp
  · rw [List.length_append, List.length_singleton]
    cases List.mem_append.1 hi with
    | inl hi => exact (inv.closed_lt i hi).trans (Nat.lt_succ_self _)
    | inr hi =>
      split_ifs at hi
      · rw [List.mem_singleton.1 hi]
        exact Nat.lt_succ_self _
      · cases hi

theorem Sockets.accept {s : Listening σ} {a : Allocs} (inv : Sockets server s) (ha : a.Succeed)
    {r : Running σ} (hstep : loopStep server s.running .accept = some r) :
    Sockets server { s with
      running := r
      accepted := s.accepted ++ [a]
      owned := s.owned ++ [s.accepted.length] } := by
  have hlives := loopStep_lives server inv.lives hstep
  obtain ⟨new, hconns, hfrees⟩ := loopStep_accept hstep
  have hnew : s.accepted.length ∉ s.owned := by
    intro hmem
    obtain ⟨b, hi, -⟩ := (inv.owned_iff _).1 hmem
    exact (List.getElem?_eq_some_iff.1 hi).1.false
  refine ⟨hlives, ?_, ?_, fun i => ?_, fun k i hk => ?_, fun i b hi hb => ?_, fun i hi => ?_⟩
  · simp [hconns, inv.length]
  · exact inv.nodup.append (List.nodup_singleton _) (List.disjoint_singleton.2 hnew)
  · rw [List.mem_append, inv.owned_iff, List.mem_singleton]
    constructor
    · rintro (⟨b, hi, hb⟩ | rfl)
      · exact ⟨b, getElem?_concat_eq_some_iff.2 (Or.inl hi), hb⟩
      · exact ⟨a, getElem?_concat_eq_some_iff.2 (Or.inr ⟨rfl, rfl⟩), ha⟩
    · rintro ⟨b, hi, hb⟩
      exact (getElem?_concat_eq_some_iff.1 hi).imp (fun hi => ⟨b, hi, hb⟩) And.left
  · cases getElem?_concat_eq_some_iff.1 hk with
    | inl hk =>
      have hlt := (List.getElem?_eq_some_iff.1 hk).1
      rw [inv.length] at hlt
      rw [inv.closed_owned k i hk, Running.frees, Running.frees, hconns,
        List.getElem?_append_left hlt]
    | inr hk =>
      obtain ⟨rfl, rfl⟩ := hk
      have hfresh := List.count_eq_zero_of_not_mem fun hmem => (inv.closed_lt _ hmem).false
      rw [hfresh, Running.frees, hconns, inv.length, List.getElem?_concat_length]
      exact hfrees.symm
  · cases getElem?_concat_eq_some_iff.1 hi with
    | inl hi => exact inv.closed_other i b hi hb
    | inr hi => exact absurd (hi.2 ▸ ha) hb
  · rw [List.length_append]
    exact Nat.lt_add_right _ (inv.closed_lt i hi)

theorem listenerCb_sockets {s s' : Listening σ} {a : Allocs} (inv : Sockets server s)
    (h : listenerCb server s a = some s') : Sockets server s' := by
  by_cases ha : a.Succeed
  · rw [listenerCb, if_neg (not_not.2 ha.1), if_neg (not_not.2 ha.2)] at h
    obtain ⟨r, hstep, rfl⟩ := Option.map_eq_some_iff.1 h
    exact inv.accept ha hstep
  · have hrefuse := inv.refuse ha
    obtain ⟨buffer, conn⟩ := a
    cases buffer with
    | false =>
      cases h
      simpa using hrefuse
    | true =>
      cases conn with
      | false =>
        cases h
        exact hrefuse
      | true => exact absurd ⟨rfl, rfl⟩ ha

theorem connCallback_sockets {s s' : Listening σ} {k : ℕ} {c : Callback} (inv : Sockets server s)
    (h : connCallback server s k c = some s') : Sockets server s' := by
  obtain ⟨r, hstep, rfl⟩ := Option.map_eq_some_iff.1 h
  have hlives := loopStep_lives server inv.lives hstep
  obtain ⟨hlength, hle, hother⟩ := loopStep_callback hstep
  -- the socket of the connection is closed as often as its buffer is freed
  have hcount : ∀ i, (s.owned[k]?.toList.flatMap
      (List.replicate (r.frees k - s.running.frees k))).count i =
        if s.owned[k]? = some i then r.frees k - s.running.frees k else 0 := by
    intro i
    cases s.owned[k]? with
    | none => simp
    | some j => simp [List.count_replicate]
  refine ⟨hlives, inv.length.trans hlength.symm, inv.nodup, inv.owned_iff, fun j i hj => ?_,
    fun i a hi ha => ?_, fun i hi => ?_⟩
  · rw [List.count_append, hcount, inv.closed_owned j i hj]
    by_cases hjk : j = k
    · subst hjk
      rw [if_pos hj]
      exact Nat.add_sub_cancel' hle
    · have hne : s.owned[k]? ≠ some i := by
        intro hk
        have hlt := (List.getElem?_eq_some_iff.1 hj).1
        exact hjk ((List.getElem?_inj hlt inv.nodup).1 (hj.trans hk.symm))
      rw [if_neg hne, Nat.add_zero]
      exact (hother j hjk).symm
  · have hne : s.owned[k]? ≠ some i := by
      intro hk
      obtain ⟨b, hi', hb⟩ := (inv.owned_iff i).1 (List.mem_of_getElem? hk)
      rw [hi] at hi'
      cases hi'
      exact ha hb
    rw [List.count_append, hcount, if_neg hne, inv.closed_other i a hi ha, Nat.add_zero]
  · cases List.mem_append.1 hi with
    | inl hi => exact inv.closed_lt i hi
    | inr hi =>
      have hpos := List.count_pos_iff.2 hi
      rw [hcount] at hpos
      split_ifs at hpos with hk
      · obtain ⟨b, hi', -⟩ := (inv.owned_iff i).1 (List.mem_of_getElem? hk)
        exact (List.getElem?_eq_some_iff.1 hi').1
      · exact absurd hpos (lt_irrefl 0)

theorem listener_sockets {s s' : Listening σ} {sockets : List Allocs} (inv : Sockets server s)
    (h : sockets.foldlM (listenerCb server) s = some s') : Sockets server s' := by
  induction sockets generalizing s with
  | nil =>
    cases h
    exact inv
  | cons a sockets ih =>
    rw [List.foldlM_cons, Option.bind_eq_bind, Option.bind_eq_some_iff] at h
    obtain ⟨s₁, hfirst, hrest⟩ := h
    exact ih (listenerCb_sockets inv hfirst) hrest

theorem listenRun_sockets {s s' : Listening σ} {events : List LoopEvent} (inv : Sockets server s)
    (h : listenRun server s events = some s') : Sockets server s' := by
  induction events generalizing s with
  | nil =>
    cases h
    exact inv
  | cons e events ih =>
    by_cases hs : s.loopbreak
    · rw [listenRun_of_break hs] at h
      cases h
      exact inv
    · rw [listenRun_cons hs, Option.bind_eq_some_iff] at h
      obtain ⟨s₁, hfirst, hrest⟩ := h
      refine ih ?_ hrest
      cases e with
      | listener sockets => exact listener_sockets inv hfirst
      | callback k c => exact connCallback_sockets inv hfirst

end

/-- A connection that exists has the socket. -/
def Listening.Holds {σ : Type} (s : Listening σ) (i : ℕ) : Prop :=
  ∃ (k : ℕ) (a : Accepted), s.owned[k]? = some i ∧ s.running.conns[k]? = some a ∧ a.conn ≠ none

/-- Every socket that was accepted belongs to at most one connection.  If there was a buffer for it, it
is closed once, or a connection that exists has it; if not, neither is ever the case. -/
theorem sockets_accounted {σ : Type} {server : AdServer σ} {handles : Handles} {world : σ}
    {events : List LoopEvent} {s : Listening σ}
    (h : listenRun server (listening handles world) events = some s) :
    s.accepted = (Serving.upTo LoopEvent.Fails events).flatMap LoopEvent.sockets ∧ s.owned.Nodup ∧
      ∀ (i : ℕ) (a : Allocs), s.accepted[i]? = some a →
        if a.buffer then
          s.closed.count i = 1 ∧ ¬s.Holds i ∨ s.closed.count i = 0 ∧ a.conn ∧ s.Holds i
        else s.closed.count i = 0 ∧ ¬s.Holds i := by
  have hs : ¬(listening handles world).loopbreak := by simp [listening]
  have inv := listenRun_sockets (sockets_start handles world) h
  refine ⟨(listenRun_records hs h).1, inv.nodup, fun i a hi => ?_⟩
  by_cases ha : a.Succeed
  · obtain ⟨k, hk⟩ := List.getElem?_of_mem ((inv.owned_iff i).2 ⟨a, hi, ha⟩)
    have hlt := (List.getElem?_eq_some_iff.1 hk).1
    rw [inv.length] at hlt
    have hconn := List.getElem?_eq_getElem hlt
    have hlives := inv.lives _ (List.getElem_mem hlt)
    have hcount := inv.closed_owned k i hk
    rw [Running.frees, hconn, Option.map_some, Option.getD_some, hlives.frees] at hcount
    rw [if_pos ha.1, hcount]
    by_cases hnone : s.running.conns[k].conn = none
    · rw [if_pos hnone]
      refine Or.inl ⟨rfl, ?_⟩
      rintro ⟨j, b, hj, hb, hsome⟩
      have hjlt := (List.getElem?_eq_some_iff.1 hj).1
      have hjk : j = k := (List.getElem?_inj hjlt inv.nodup).1 (hj.trans hk.symm)
      rw [hjk, hconn] at hb
      cases hb
      exact hsome hnone
    · rw [if_neg hnone]
      exact Or.inr ⟨rfl, ha.2, k, _, hk, hconn, hnone⟩
  · have hheld : ¬s.Holds i := by
      rintro ⟨k, b, hk, -⟩
      obtain ⟨b, hi', hb⟩ := (inv.owned_iff i).1 (List.mem_of_getElem? hk)
      rw [hi] at hi'
      cases hi'
      exact ha hb
    have hcount := inv.closed_other i a hi ha
    by_cases hbuffer : a.buffer
    · rw [if_pos hbuffer] at hcount ⊢
      exact Or.inl ⟨hcount, hheld⟩
    · rw [if_neg hbuffer] at hcount ⊢
      exact ⟨hcount, hheld⟩

/-- Three sockets wait.  A connection is made for the first, the second is closed, and the third, for
which there is no buffer, stays open. -/
theorem sockets_three :
    ∃ s, listenRun ⟨[], []⟩ (listening ⟨none, none, none, none, none⟩ ())
        [.listener [⟨true, true⟩, ⟨true, false⟩, ⟨false, true⟩], .listener [⟨true, true⟩]] = some s ∧
      s.accepted.length = 3 ∧ s.Holds 0 ∧ s.closed.count 1 = 1 ∧ s.closed.count 2 = 0 ∧
        ¬s.Holds 2 := by
  have hsome : (listenRun ⟨[], []⟩ (listening ⟨none, none, none, none, none⟩ ())
      [.listener [⟨true, true⟩, ⟨true, false⟩, ⟨false, true⟩], .listener [⟨true, true⟩]]).map
        (fun s => (s.accepted, s.closed)) =
      some ([⟨true, true⟩, ⟨true, false⟩, ⟨false, true⟩], [1]) := by decide +kernel
  obtain ⟨s, hrun, hlists⟩ := Option.map_eq_some_iff.1 hsome
  obtain ⟨haccepted, hclosed⟩ := Prod.mk.inj hlists
  obtain ⟨-, -, hall⟩ := sockets_accounted hrun
  rw [haccepted, hclosed] at hall
  have hfirst := (hall 0 _ rfl).resolve_left fun h => absurd h.1 (by decide)
  refine ⟨s, hrun, by rw [haccepted]; rfl, hfirst.2.2, by rw [hclosed]; rfl, by rw [hclosed]; rfl, ?_⟩
  exact (hall 2 _ rfl).2

end Asyncd
