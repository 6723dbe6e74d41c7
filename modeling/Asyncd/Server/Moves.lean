import Asyncd.Server.Conn

/-!
# The abstract connection

What the life of a connection comes to when only its status is kept: a `Move` is a change of the status
together with the outputs it makes, and `Moves` a sequence of them.  `callback_moves` and
`session_moves` say that every callback, and every run, is such a sequence.
-/

namespace Asyncd

/-! ## Moves -/

/-- The dispatches of a trace. -/
def dispatches (tr : List Output) : List Dispatch :=
  tr.filterMap fun
    | .dispatch d => some d
    | _ => none

@[simp] theorem dispatches_nil : dispatches [] = [] := rfl

@[simp] theorem dispatches_append (tr tr' : List Output) :
    dispatches (tr ++ tr') = dispatches tr ++ dispatches tr' := List.filterMap_append

@[simp] theorem dispatches_dispatch (d : Dispatch) (tr : List Output) :
    dispatches (.dispatch d :: tr) = d :: dispatches tr := rfl

@[simp] theorem dispatches_connFree (tr : List Output) :
    dispatches (.connFree :: tr) = dispatches tr := rfl

/-- Outputs of `conn_reset`: userdata is released, and nothing else happens. -/
def Releases (out : List Output) : Prop := dispatches out = [] ∧ Output.connFree ∉ out

/-- One move of a connection: the status before, the outputs, and the status after, if the connection
and the process still exist.  `pipelining` is the server option. -/
inductive Move (pipelining : Bool) : ℤ → List Output → Option ℤ → Prop
  /-- the peer is gone -/
  | hangUp (st : ℤ) : Move pipelining st [] (some adClose)
  /-- the hooks see bytes that arrived, or that the out buffer has drained -/
  | serve {st : ℤ} {d : Dispatch} (hst : st = adOk ∨ st = adTakeover) (hb : d.before.status = st)
      (he : d.event = evRead ∨ d.event = evWrite) : Move pipelining st [.dispatch d] d.status
  /-- a hook ends the process while a finished request is closed -/
  | resetCut {d : Dispatch} (hp : pipelining = true) (hb : d.before.status = adDone)
      (he : d.event = evClose false) (hd : d.status = none) :
      Move pipelining adDone [.dispatch d] none
  /-- a finished request is closed and the connection prepared for the next -/
  | reset {d i : Dispatch} {out : List Output} (hp : pipelining = true)
      (hb : d.before.status = adDone) (he : d.event = evClose false) (hout : Releases out)
      (hi : i.event = evInit) :
      Move pipelining adDone (.dispatch d :: (out ++ [.dispatch i])) (i.status.map fun _ => adOk)
  /-- a hook ends the process while the connection is closed -/
  | finalCut {d : Dispatch} {t : Bool} (he : d.event = evClose t) (hb : d.before.out = [])
      (hd : d.status = none) : Move pipelining adClose [.dispatch d] none
  /-- the connection is closed and freed -/
  | final {d : Dispatch} {t : Bool} {out : List Output} (he : d.event = evClose t)
      (hb : d.before.out = []) (hout : Releases out) :
      Move pipelining adClose (.dispatch d :: (out ++ [.connFree])) none

theorem Move.dispatches_cases {p : Bool} {st : ℤ} {out : List Output} {st' : Option ℤ}
    (m : Move p st out st') :
    (dispatches out = [] ∧ st' = some adClose) ∨
    (∃ d : Dispatch, dispatches out = [d] ∧ (st = adOk ∨ st = adTakeover) ∧
      (d.event = evRead ∨ d.event = evWrite) ∧ st' = d.status) ∨
    (∃ c i : Dispatch, dispatches out = [c, i] ∧ p = true ∧ st = adDone ∧ c.before.status = adDone ∧
      c.event = evClose false ∧ i.event = evInit ∧ st' = i.status.map fun _ => adOk) ∨
    (∃ c : Dispatch, dispatches out = [c] ∧ p = true ∧ st = adDone ∧ c.event = evClose false ∧
      st' = none) ∨
    ∃ (c : Dispatch) (t : Bool), dispatches out = [c] ∧ st = adClose ∧ c.event = evClose t ∧
      c.before.out = [] ∧ st' = none := by
  cases m with
  | hangUp => exact Or.inl ⟨rfl, rfl⟩
  | @serve _ d hst hb he => exact Or.inr (Or.inl ⟨d, rfl, hst, he, rfl⟩)
  | @reset d i _ hp hb he hout hi =>
    exact Or.inr (Or.inr (Or.inl ⟨d, i, by simp [hout.1], hp, rfl, hb, he, hi, rfl⟩))
  | @resetCut d hp hb he hd =>
    exact Or.inr (Or.inr (Or.inr (Or.inl ⟨d, rfl, hp, rfl, he, rfl⟩)))
  | @finalCut d t he hb hd =>
    exact Or.inr (Or.inr (Or.inr (Or.inr ⟨d, t, rfl, rfl, he, hb, rfl⟩)))
  | @final d t _ he hb hout =>
    exact Or.inr (Or.inr (Or.inr (Or.inr ⟨d, t, by simp [hout.1], rfl, he, hb, rfl⟩)))

/-- Several moves. -/
inductive Moves (pipelining : Bool) : Option ℤ → List Output → Option ℤ → Prop
  | refl (st : Option ℤ) : Moves pipelining st [] st
  | tail {st st'' : Option ℤ} {st' : ℤ} {out out' : List Output}
      (h : Moves pipelining st out (some st')) (m : Move pipelining st' out' st'') :
      Moves pipelining st (out ++ out') st''

theorem Move.moves {p : Bool} {st : ℤ} {out : List Output} {st' : Option ℤ} (m : Move p st out st') :
    Moves p (some st) out st' := by
  have := (Moves.refl (some st)).tail m
  simpa using this

theorem Moves.trans {p : Bool} {st st' st'' : Option ℤ} {out out' : List Output}
    (h : Moves p st out st') (h' : Moves p st' out' st'') : Moves p st (out ++ out') st'' := by
  induction h' with
  | refl => simpa using h
  | tail _ m ih =>
    rw [← List.append_assoc]
    exact ih.tail m

theorem Moves.of_none {p : Bool} {st : Option ℤ} {out : List Output} (h : Moves p none out st) :
    out = [] ∧ st = none := by
  induction h with
  | refl => exact ⟨rfl, rfl⟩
  | tail _ _ ih => cases ih.2

/-! ## What the code does -/

variable {σ : Type} (server : AdServer σ)

theorem callHooksFrom_status (event : Event) (i : ℕ) (hooks : List (AdHook σ)) (conn : AdConn)
    (world : σ) : (callHooksFrom event i hooks conn world).2.1.status = conn.status := by
  induction hooks generalizing i conn world with
  | nil => rfl
  | cons hook hooks ih =>
    unfold callHooksFrom
    split
    · exact ih _ _ _
    · split_ifs
      · exact ih _ _ _
      · split
        · rfl
        · dsimp only
          split_ifs
          · rfl
          · exact ih _ _ _

/-- A dispatch goes on record, and what follows goes on unless the process has ended. -/
theorem dispatch_cases (event : Event) (conn : AdConn) (world : σ)
    (next : ℤ → AdConn → σ → Session σ) :
    ∃ d : Dispatch, d.event = event ∧ d.before = conn ∧
      ((d.status = none ∧ (dispatch server event conn world next).conn = none ∧
          (dispatch server event conn world next).trace = [.dispatch d]) ∨
        ∃ (st : ℤ) (conn' : AdConn) (world' : σ), d.status = some st ∧ conn'.status = conn.status ∧
          dispatch server event conn world next = (next st conn' world').after [.dispatch d]) := by
  have hst := callHooksFrom_status event 0 server.hooks conn world
  unfold dispatch callHooks
  generalize callHooksFrom event 0 server.hooks conn world = r at hst ⊢
  obtain ⟨status, conn', world', visits⟩ := r
  refine ⟨⟨event, conn, visits, status⟩, rfl, rfl, ?_⟩
  cases status with
  | none => exact Or.inl ⟨rfl, rfl, rfl⟩
  | some st => exact Or.inr ⟨st, conn', world', rfl, hst, rfl⟩

/-- What `conn_cb` does behind the first dispatch, by its exits. -/
theorem connCbEnd_cases (event : Event) (conn : AdConn) (world : σ) {Q : Session σ → Prop}
    (reset : conn.status = adDone → server.pipelining = true →
      Q (dispatch server (evClose false) conn world fun _ conn world =>
        (dispatch server evInit (connReset conn).1 world fun _ conn world =>
          ⟨some conn, world, []⟩).after (connReset conn).2))
    (clear : conn.status = adDone → Q ⟨some { conn with inb := [] }, world, []⟩)
    (idle : ¬(conn.status = adClose ∧ conn.out = []) → Q ⟨some conn, world, []⟩)
    (final : conn.status = adClose → conn.out = [] →
      Q (dispatch server (if event.close then event else evClose false) conn world
        fun _ conn world => connFree server conn world)) :
    Q (connCbEnd server event conn world) := by
  unfold connCbEnd
  by_cases hdone : conn.status = adDone
  · have hopen : conn.status ≠ adClose := by
      rw [hdone]
      decide
    rw [if_pos hdone]
    split_ifs with hp
    · exact reset hdone hp
    · exact clear hdone
    · exact idle fun h => hopen h.1
  · rw [if_neg hdone]
    by_cases hclose : conn.status = adClose
    · rw [if_pos hclose]
      by_cases hout : conn.out = []
      · rw [if_pos hout]
        exact final hclose hout
      · rw [if_neg hout]
        exact idle fun h => hout h.2
    · rw [if_neg hclose]
      exact idle fun h => hclose h.1

theorem releases_resetSlot (slot : Slot) : Releases (resetSlot slot).2 := by
  unfold resetSlot Releases
  split
  · simp
  · split <;> simp [dispatches]

theorem releases_connReset (conn : AdConn) : Releases (connReset conn).2 := by
  obtain ⟨h₀, h₀'⟩ := releases_resetSlot conn.userdata
  obtain ⟨h₁, h₁'⟩ := releases_resetSlot conn.extra
  simp [Releases, connReset, h₀, h₁, h₀', h₁']

@[simp] theorem connReset_status (conn : AdConn) : (connReset conn).1.status = adOk := rfl

/-- What happens to a connection from a status on is a sequence of moves. -/
def Session.MovesFrom (p : Bool) (st : ℤ) (s : Session σ) : Prop :=
  Moves p (some st) s.trace (s.conn.map AdConn.status)

theorem reset_moves {conn : AdConn} (hp : server.pipelining = true) (hdone : conn.status = adDone)
    (world : σ) :
    (dispatch server (evClose false) conn world fun _ conn world =>
      (dispatch server evInit (connReset conn).1 world fun _ conn world =>
        ⟨some conn, world, []⟩).after (connReset conn).2).MovesFrom server.pipelining adDone := by
  unfold Session.MovesFrom
  obtain ⟨d, he, rfl, ⟨hd, hconn, htr⟩ | ⟨st, conn', world', hd, hst, hrun⟩⟩ :=
    dispatch_cases server (evClose false) conn world fun _ conn world =>
      (dispatch server evInit (connReset conn).1 world fun _ conn world =>
        ⟨some conn, world, []⟩).after (connReset conn).2
  · rw [hconn, htr]
    exact (Move.resetCut hp hdone he hd).moves
  · rw [hrun]
    obtain ⟨i, hi, -, hend⟩ := dispatch_cases server evInit (connReset conn').1 world'
      fun _ conn world => ⟨some conn, world, []⟩
    have hmove := (Move.reset (i := i) hp hdone he (releases_connReset conn') hi).moves
    rcases hend with ⟨his, hconn, htr⟩ | ⟨st', conn'', world'', his, hst', hrun'⟩
    · simp only [Session.after, hconn, htr]
      simpa [his] using hmove
    · simp only [Session.after, hrun', connReset_status] at hst' ⊢
      simpa [his, hst'] using hmove

theorem connFree_of_close {conn : AdConn} (hclose : conn.status = adClose) (world : σ) :
    connFree server conn world = connRelease conn world := by
  rw [connFree, if_neg]
  rw [hclose, ne_eq, not_not]

theorem final_moves {event : Event} {t : Bool} (he : event = evClose t) {conn : AdConn}
    (hclose : conn.status = adClose) (hout : conn.out = []) (world : σ) :
    (dispatch server event conn world fun _ conn world =>
      connFree server conn world).MovesFrom server.pipelining adClose := by
  unfold Session.MovesFrom
  obtain ⟨d, hde, rfl, ⟨hd, hconn, htr⟩ | ⟨st, conn', world', hd, hst, hrun⟩⟩ :=
    dispatch_cases server event conn world fun _ conn world => connFree server conn world
  · rw [hconn, htr]
    exact (Move.finalCut (hde.trans he) hout hd).moves
  · rw [hrun, connFree_of_close server (hst.trans hclose)]
    exact (Move.final (hde.trans he) hout (releases_connReset conn')).moves

/-- The events that reach `conn_cb`. -/
def CbEvent (event : Event) : Prop :=
  event = evRead ∨ event = evWrite ∨ ∃ t, event = evClose t

theorem CbEvent.final {event : Event} (he : CbEvent event) :
    ∃ t, (if event.close = true then event else evClose false) = evClose t := by
  rcases he with rfl | rfl | ⟨t, rfl⟩
  · exact ⟨false, rfl⟩
  · exact ⟨false, rfl⟩
  · exact ⟨t, rfl⟩

theorem connCbEnd_moves {event : Event} (he : CbEvent event) (conn : AdConn) (world : σ) :
    (connCbEnd server event conn world).MovesFrom server.pipelining conn.status := by
  apply connCbEnd_cases server event conn world
    (Q := fun s => s.MovesFrom server.pipelining conn.status)
  · intro hdone hp
    rw [hdone]
    exact reset_moves server hp hdone world
  · intro _
    exact .refl (some conn.status)
  · intro _
    exact .refl (some conn.status)
  · intro hclose hout
    obtain ⟨t, ht⟩ := he.final
    rw [hclose]
    exact final_moves server ht hclose hout world

theorem status_replaced {old : ℤ} (h : old = adOk ∨ old = adTakeover) (st : ℤ) :
    ¬(old = adClose ∨ old = adDone ∧ old ≥ st) := by
  rcases h with rfl | rfl <;> simp [adOk, adTakeover, adDone, adClose]

/-- `conn_cb` where the hooks are called: it goes on from the status they return. -/
theorem connCb_serves (event : Event) {conn : AdConn}
    (hst : conn.status = adOk ∨ conn.status = adTakeover) (world : σ) :
    ∃ d : Dispatch, d.event = event ∧ d.before = conn ∧
      ((d.status = none ∧ (connCb server event conn world).conn = none ∧
          (connCb server event conn world).trace = [.dispatch d]) ∨
        ∃ (st : ℤ) (conn' : AdConn) (world' : σ), d.status = some st ∧
          connCb server event conn world =
            (connCbEnd server event { conn' with status := st } world').after [.dispatch d]) := by
  rw [connCb, if_pos hst]
  obtain ⟨d, he, hb, hcases⟩ := dispatch_cases server event conn world fun status conn world =>
    connCbEnd server event
      (if ¬ (conn.status = adClose ∨ conn.status = adDone ∧ conn.status ≥ status) then
        { conn with status := status } else conn) world
  refine ⟨d, he, hb, hcases.imp_right ?_⟩
  rintro ⟨st, conn', world', hd, hst', hrun⟩
  refine ⟨st, conn', world', hd, ?_⟩
  rw [hrun, if_pos]
  rw [hst']
  exact status_replaced hst st

theorem connCb_moves {event : Event} (he : event = evRead ∨ event = evWrite) (conn : AdConn)
    (world : σ) : (connCb server event conn world).MovesFrom server.pipelining conn.status := by
  have he' : CbEvent event := he.imp_right Or.inl
  by_cases hst : conn.status = adOk ∨ conn.status = adTakeover
  · obtain ⟨d, hde, rfl, hcases⟩ := connCb_serves server event hst world
    have hmove : Move server.pipelining d.before.status [.dispatch d] d.status :=
      .serve hst rfl (by rwa [hde])
    unfold Session.MovesFrom
    rcases hcases with ⟨hd, hconn, htr⟩ | ⟨st, conn', world', hd, hrun⟩
    · rw [hd] at hmove
      rw [hconn, htr]
      exact hmove.moves
    · have hend := connCbEnd_moves server he' { conn' with status := st } world'
      rw [hd] at hmove
      rw [hrun]
      exact hmove.moves.trans hend
  · rw [connCb, if_neg hst]
    exact connCbEnd_moves server he' conn world

/-- When the peer is gone, no status is asked for. -/
theorem callback_hangUp {what : BevEvent} (hw : what.eof ∨ what.error ∨ what.timeout) (conn : AdConn)
    (world : σ) :
    callback server (.event what) conn world =
      connCbEnd server (evClose what.timeout) { conn with status := adClose } world := by
  rw [callback, connEventCb, if_pos hw, connCb, if_neg (by simp [adOk, adTakeover, adClose])]

theorem hangUp_moves {what : BevEvent} (hw : what.eof ∨ what.error ∨ what.timeout) (conn : AdConn)
    (world : σ) :
    (callback server (.event what) conn world).MovesFrom server.pipelining adClose := by
  rw [callback_hangUp server hw]
  exact connCbEnd_moves server (Or.inr (Or.inr ⟨what.timeout, rfl⟩))
    { conn with status := adClose } world

/-- Every callback is a sequence of moves. -/
theorem callback_moves (c : Callback) (conn : AdConn) (world : σ) :
    (callback server c conn world).MovesFrom server.pipelining conn.status := by
  cases c with
  | read seg => exact connCb_moves server (Or.inl rfl) { conn with inb := conn.inb ++ seg } world
  | write => exact connCb_moves server (Or.inr rfl) conn world
  | drain n => exact .refl (some conn.status)
  | event what =>
    by_cases hw : what.eof ∨ what.error ∨ what.timeout
    · exact (Move.hangUp conn.status).moves.trans (hangUp_moves server hw conn world)
    · rw [callback, connEventCb, if_neg hw]
      exact .refl (some conn.status)

/-- The status of the connection of a session, while it exists. -/
def Session.status {σ : Type} (s : Session σ) : Option ℤ := s.conn.map AdConn.status

theorem step_moves (s : Session σ) (c : Callback) :
    ∃ out, (s.step server c).trace = s.trace ++ out ∧
      Moves server.pipelining s.status out (s.step server c).status := by
  unfold Session.step Session.status
  cases hc : s.conn with
  | none => exact ⟨[], by simp, by rw [hc]; exact .refl _⟩
  | some conn => exact ⟨_, rfl, callback_moves server c conn s.world⟩

theorem session_moves (world : σ) (cs cs' : List Callback) :
    ∃ out, (session server world (cs ++ cs')).trace = (session server world cs).trace ++ out ∧
      Moves server.pipelining (session server world cs).status out
        (session server world (cs ++ cs')).status := by
  induction cs' using List.reverseRecOn with
  | nil => exact ⟨[], by simp, by rw [List.append_nil]; exact .refl _⟩
  | append_singleton cs' c ih =>
    obtain ⟨out, htr, hm⟩ := ih
    obtain ⟨out', htr', hm'⟩ := step_moves server (session server world (cs ++ cs')) c
    refine ⟨out ++ out', ?_, ?_⟩
    · rw [← List.append_assoc, session_concat, htr', htr, List.append_assoc]
    · rw [← List.append_assoc, session_concat]
      exact hm.trans hm'

theorem session_start (world : σ) :
    ∃ d : Dispatch, d.event = evInitWrite ∧ (session server world []).trace = [.dispatch d] ∧
      (session server world []).status = d.status := by
  unfold session connNew Session.status
  dsimp only [List.foldl_nil]
  obtain ⟨d, he, -, ⟨hd, hconn, htr⟩ | ⟨st, conn', world', hd, hst, hrun⟩⟩ :=
    dispatch_cases server evInitWrite _ world fun status conn world =>
      ⟨some { conn with status := status }, world, []⟩
  · exact ⟨d, he, htr, by rw [hconn, hd]; rfl⟩
  · exact ⟨d, he, by rw [hrun]; rfl, by rw [hrun, hd]; rfl⟩

/-- A run is the dispatch of `conn_new` and then moves. -/
theorem session_trace (world : σ) (cs : List Callback) :
    ∃ (d : Dispatch) (out : List Output), d.event = evInitWrite ∧
      (session server world cs).trace = .dispatch d :: out ∧
      Moves server.pipelining d.status out (session server world cs).status := by
  obtain ⟨d, he, htr, hst⟩ := session_start server world
  obtain ⟨out, htr', hm⟩ := session_moves server world [] cs
  rw [List.nil_append] at htr' hm
  exact ⟨d, out, he, by rw [htr', htr]; rfl, hst ▸ hm⟩

theorem Moves.event {p : Bool} {st st' : Option ℤ} {out : List Output} (h : Moves p st out st')
    {d : Dispatch} (hd : d ∈ dispatches out) : d.event = evInit ∨ CbEvent d.event := by
  induction h with
  | refl => cases hd
  | tail _ m ih =>
    rw [dispatches_append, List.mem_append] at hd
    obtain hd | hd := hd
    · exact ih hd
    · obtain ⟨e, -⟩ | ⟨d', e, -, he, -⟩ | ⟨c, i, e, -, -, -, hc, hi, -⟩ | ⟨c, e, -, -, hc, -⟩ |
        ⟨c, t, e, -, hc, -, -⟩ := m.dispatches_cases
      all_goals rw [e] at hd
      · cases hd
      · obtain rfl := List.mem_singleton.1 hd
        exact Or.inr (he.imp_right Or.inl)
      · obtain rfl | hd := List.mem_cons.1 hd
        · exact Or.inr (Or.inr (Or.inr ⟨_, hc⟩))
        · obtain rfl := List.mem_singleton.1 hd
          exact Or.inl hi
      · obtain rfl := List.mem_singleton.1 hd
        exact Or.inr (Or.inr (Or.inr ⟨_, hc⟩))
      · obtain rfl := List.mem_singleton.1 hd
        exact Or.inr (Or.inr (Or.inr ⟨_, hc⟩))

/-- The hooks are asked about INIT and about the events that reach `conn_cb`, and no others. -/
theorem session_event (world : σ) (cs : List Callback) {d : Dispatch}
    (hd : d ∈ dispatches (session server world cs).trace) :
    d.event.init = true ∨ CbEvent d.event := by
  obtain ⟨d₀, out, he, htr, hm⟩ := session_trace server world cs
  rw [htr] at hd
  rcases List.mem_cons.1 hd with rfl | hd
  · exact Or.inl (by rw [he]; rfl)
  · exact (hm.event hd).imp_left fun hi => by rw [hi]; rfl

theorem step_hangUp_moves (s : Session σ) {what : BevEvent}
    (hw : what.eof ∨ what.error ∨ what.timeout) :
    ∃ out, (s.step server (.event what)).trace = s.trace ++ out ∧
      (s.conn = none ∧ out = [] ∨
        Moves server.pipelining (some adClose) out (s.step server (.event what)).status) := by
  unfold Session.step Session.status
  cases hc : s.conn with
  | none => exact ⟨[], by simp, Or.inl ⟨rfl, rfl⟩⟩
  | some conn =>
    exact ⟨_, rfl, Or.inr (hangUp_moves server hw conn s.world)⟩

end Asyncd
