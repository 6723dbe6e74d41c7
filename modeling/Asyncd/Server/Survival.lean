import Asyncd.Server.Handler
import Asyncd.Server.World

/-!
# The process survives

`ad_http_handler` asserts that there is an HTTP state when bytes arrive, and the functions that hooks
call on the request dereference it.  With hooks that do not touch a request that does not exist, the
process ends exactly where bytes arrive on an open connection without an HTTP state
(`loopRun_ends_iff`).  That takes an allocation that fails between two pipelined requests: without
pipelining, or where allocations succeed, no order of callbacks ends the process (`loopRun_survives`).
-/

open CString

namespace Asyncd

/-! ## Hooks that take care -/

/-- The call works on the HTTP state of the connection. -/
def UserCall.UsesHttp : UserCall → Prop
  | .getContent _ _ => True
  | .respond _ => True
  | _ => False

/-- The hook does not end the process by itself, and calls no function on a request that does not
exist. -/
def UserHook.Careful {σ : Type} (hook : UserHook σ) : Prop :=
  ∀ cb, hook.cb = some cb → ∀ event conn world, ∃ calls st world',
    cb event conn world = some (calls, st, world') ∧
      (conn.httpState = none → ∀ c ∈ calls, ¬c.UsesHttp)

theorem UserCall.run_some {v : ConnView} {c : UserCall}
    (h : v.httpState ≠ none ∨ ¬c.UsesHttp) : ∃ v', c.run v = some v' := by
  have hhttp : c.UsesHttp → ∀ f, ∃ v', v.withHttp f = some v' := by
    intro hc f
    obtain ⟨http, hx⟩ := Option.ne_none_iff_exists'.1 (h.resolve_right (not_not.2 hc))
    exact ⟨_, by rw [ConnView.withHttp, hx, Option.map_some]⟩
  cases c with
  | addOut data => exact ⟨_, rfl⟩
  | drainIn n => exact ⟨_, rfl⟩
  | setUserdata data freeCb => exact ⟨_, rfl⟩
  | setMethod method => exact ⟨_, rfl⟩
  | getContent alloc maxsize => exact hhttp trivial _
  | respond call => exact hhttp trivial fun http out => call.run http out

theorem outline_none {v : ConnView} : v.outline = none ↔ v.httpState = none := Option.map_eq_none_iff

theorem runCalls_some {v : ConnView} {calls : List UserCall}
    (h : v.httpState = none → ∀ c ∈ calls, ¬c.UsesHttp) : ∃ v', runCalls v calls = some v' := by
  induction calls generalizing v with
  | nil => exact ⟨v, rfl⟩
  | cons c calls ih =>
    have hc : v.httpState ≠ none ∨ ¬c.UsesHttp := by
      rw [or_iff_not_imp_left, not_not]
      exact fun hx => h hx c List.mem_cons_self
    obtain ⟨v', hv'⟩ := UserCall.run_some hc
    rw [runCalls_cons hv']
    apply ih
    intro hx c' hc'
    -- calls leave the outline of the request, and with it whether there is one
    have hsame := (UserCall.run_outline hv').1
    rw [← outline_none, hsame, outline_none] at hx
    exact h hx c' (List.mem_cons_of_mem c hc')

section

variable {σ : Type}

/-- `ad_http_handler` comes first, and the hooks behind it are careful. -/
structure CarefulServer (server : AdServer σ) (alloc : σ → Bool) [UrlDecoder] : Prop where
  hooks : ∃ users : List (UserHook σ),
    server.hooks = httpHook alloc :: users.map UserHook.hook ∧ ∀ user ∈ users, user.Careful

/-- Careful hooks return, and leave it alone whether there is an HTTP state. -/
theorem callHooksFrom_careful {users : List (UserHook σ)} (h : ∀ user ∈ users, user.Careful)
    (event : Event) (i : ℕ) (conn : AdConn) (world : σ) :
    ∃ st conn' world' visits,
      callHooksFrom event i (users.map UserHook.hook) conn world = (some st, conn', world', visits) ∧
        (conn'.httpState = none ↔ conn.httpState = none) := by
  induction users generalizing i conn world with
  | nil => exact ⟨adOk, conn, world, [], rfl, Iff.rfl⟩
  | cons user users ih =>
    obtain ⟨huser, husers⟩ := List.forall_mem_cons.1 h
    rw [List.map_cons]
    cases hcb : user.hook.cb with
    | none =>
      rw [callHooksFrom_none _ _ _ _ hcb]
      exact ih husers (i + 1) conn world
    | some cb =>
      by_cases hpass : user.hook.Passes conn
      · obtain ⟨cb', hcb', -⟩ := Option.map_eq_some_iff.1 hcb
        obtain ⟨calls, st, world', hrun, hcalls⟩ := huser cb' hcb' event conn world
        obtain ⟨view, hview⟩ := runCalls_some hcalls
        obtain ⟨cb'', hcb'', hret⟩ := user.run hcb' hrun hview
        obtain rfl := Option.some.inj (hcb.symm.trans hcb'')
        have hsame : view.httpState = none ↔ conn.httpState = none := by
          rw [← outline_none, (runCalls_outline hview).1, outline_none]
        by_cases hst : st = adOk
        · rw [hst] at hret
          obtain ⟨st', conn', world'', visits, hrest, hiff⟩ :=
            ih husers (i + 1) { conn with toConnView := view } world'
          rw [callHooksFrom_ok _ _ _ _ hcb hpass hret, hrest]
          exact ⟨st', conn', world'', _, rfl, hiff.trans hsame⟩
        · rw [callHooksFrom_stop _ _ _ _ hcb hpass hret hst]
          exact ⟨st, _, world', _, rfl, hsame⟩
      · obtain ⟨st', conn', world'', visits, hrest, hiff⟩ := ih husers (i + 1) conn world
        rw [callHooksFrom_skip _ _ _ _ hcb hpass, hrest]
        exact ⟨st', conn', world'', _, rfl, hiff⟩

/-! ## Sessions that survive -/

/-- No hook has ended the process. -/
def Session.Survives (s : Session σ) : Prop := ∀ d ∈ dispatches s.trace, d.status ≠ none

/-- The connection is closing, or there is an HTTP state. -/
def AdConn.Ready (conn : AdConn) : Prop := conn.status = adClose ∨ conn.httpState ≠ none

/-- The process survives, and a connection that is left is ready if `R`. -/
structure Session.Well (R : Prop) (s : Session σ) : Prop where
  survives : s.Survives
  ready : R → ∀ conn, s.conn = some conn → conn.Ready

theorem Session.step_trace {server : AdServer σ} {conn : AdConn} {world : σ} {trace : List Output}
    (c : Callback) : (Session.step server ⟨some conn, world, trace⟩ c).trace =
      trace ++ (callback server c conn world).trace := rfl

theorem Session.Well.after {R : Prop} {s : Session σ} (h : s.Well R) {out : List Output}
    (hout : ∀ d ∈ dispatches out, d.status ≠ none) : (s.after out).Well R := by
  refine ⟨?_, h.ready⟩
  rw [Survives, Session.after, dispatches_append, List.forall_mem_append]
  exact ⟨hout, h.survives⟩

theorem well_idle {R : Prop} (conn : AdConn) (h : R → conn.Ready) (world : σ) :
    Session.Well R ⟨some conn, world, []⟩ := by
  refine ⟨by simp [Session.Survives], ?_⟩
  rintro hready _ ⟨⟩
  exact h hready

theorem well_release {R : Prop} (conn : AdConn) (world : σ) :
    (connRelease conn world).Well R := by
  refine ⟨?_, fun _ _ h => by cases h⟩
  simp [Session.Survives, connRelease, (releases_connReset conn).1]

/-! ## One dispatch -/

variable [UrlDecoder] {server : AdServer σ} {alloc : σ → Bool}

/-- The handler can be called: bytes only arrive where there is an HTTP state, and there are no other
events than the ones it knows. -/
structure Callable (event : Event) (conn : AdConn) : Prop where
  read : event.init = false → event.read = true → conn.httpState ≠ none
  known : event.init = false → event.read = false → event.write = true ∨ event.close = true

/-- After the dispatch there is an HTTP state. -/
def Provided (alloc : σ → Bool) (event : Event) (conn : AdConn) (world : σ) : Prop :=
  event.init = true ∧ alloc world = true ∨ event.init = false ∧ conn.httpState ≠ none

theorem adHttpHandler_returns {event : Event} {conn : AdConn} (he : Callable event conn)
    (world : σ) :
    ∃ st view, adHttpHandler alloc event conn world = some (st, view, world) ∧
      (Provided alloc event conn world → view.httpState ≠ none) ∧
      (event.init = true → alloc world = false → st = adClose) := by
  cases hi : event.init with
  | true =>
    cases ha : alloc world with
    | true =>
      refine ⟨adOk, _, by simp [adHttpHandler, hi, httpNew, ha]; rfl, fun _ => ?_, ?_⟩
      · exact Option.some_ne_none freshHttp
      · rintro - ⟨⟩
    | false =>
      refine ⟨adClose, conn.toConnView, by simp [adHttpHandler, hi, httpNew, ha], ?_,
        fun _ _ => rfl⟩
      rintro (⟨-, h⟩ | ⟨h, -⟩)
      · rw [ha] at h
        cases h
      · rw [hi] at h
        cases h
  | false =>
    have hview : Provided alloc event conn world → conn.httpState ≠ none := by
      rintro (⟨h, -⟩ | ⟨-, h⟩)
      · rw [hi] at h
        cases h
      · exact h
    cases hr : event.read with
    | true =>
      obtain ⟨http, hx⟩ := Option.ne_none_iff_exists'.1 (he.read hi hr)
      obtain ⟨st, -, hrun⟩ := adHttpHandler_read alloc hi hr hx world
      exact ⟨st, _, hrun, fun _ => Option.some_ne_none _, by rintro ⟨⟩⟩
    | false =>
      refine ⟨adOk, conn.toConnView, ?_, hview, by rintro ⟨⟩⟩
      rcases he.known hi hr with hw | hc
      · simp [adHttpHandler, hi, hr, hw]
      · simp [adHttpHandler, hi, hr, hc]

theorem callHooks_careful (hs : CarefulServer server alloc) {event : Event} {conn : AdConn}
    (he : Callable event conn) (world : σ) :
    ∃ st conn' world' visits, callHooks server event conn world = (some st, conn', world', visits) ∧
      (Provided alloc event conn world → conn'.httpState ≠ none) ∧
      (event.init = true → alloc world = false → st = adClose) := by
  obtain ⟨users, hhooks, hcareful⟩ := hs.hooks
  obtain ⟨st, view, hrun, hview, hrefuse⟩ := adHttpHandler_returns he world
  by_cases hst : st = adOk
  · rw [hst] at hrun
    obtain ⟨st', conn', world', visits, hrest, hiff⟩ :=
      callHooksFrom_careful hcareful event 1 { conn with toConnView := view } world
    exact ⟨st', conn', world', _, callHooks_handler_ok hhooks hrun hrest,
      fun h => mt hiff.1 (hview h), fun hi ha => absurd (hst.symm.trans (hrefuse hi ha)) (by decide)⟩
  · exact ⟨st, _, world, _, callHooks_handler_stop hhooks hrun hst, hview, hrefuse⟩

/-! ## One callback -/

theorem dispatch_well {R : Prop} (hs : CarefulServer server alloc) {event : Event} {conn : AdConn}
    (he : Callable event conn) (world : σ) {next : ℤ → AdConn → σ → Session σ}
    (hnext : ∀ st conn' world', conn'.status = conn.status →
      (Provided alloc event conn world → conn'.httpState ≠ none) →
      (event.init = true → alloc world = false → st = adClose) →
      (next st conn' world').Well R) :
    (dispatch server event conn world next).Well R := by
  obtain ⟨st, conn', world', visits, hcalls, hx, hrefuse⟩ := callHooks_careful hs he world
  have hst := callHooksFrom_status event 0 server.hooks conn world
  rw [← callHooks, hcalls] at hst
  unfold dispatch
  rw [hcalls]
  apply (hnext st conn' world' hst hx hrefuse).after
  intro d hd
  rw [List.mem_singleton.1 hd]
  exact Option.some_ne_none st

omit [UrlDecoder] in
theorem callable_close (t : Bool) (conn : AdConn) : Callable (evClose t) conn :=
  ⟨fun _ h => (by cases h), fun _ _ => Or.inr rfl⟩

omit [UrlDecoder] in
theorem callable_init {event : Event} (h : event.init = true) (conn : AdConn) : Callable event conn :=
  ⟨fun h' => absurd (h.symm.trans h') (by decide), fun h' => absurd (h.symm.trans h') (by decide)⟩

theorem reset_well (hs : CarefulServer server alloc) {R : Prop}
    (halloc : R → ∀ world, alloc world = true) (conn : AdConn) (world : σ) :
    (dispatch server evInit (connReset conn).1 world fun _ conn world =>
      ⟨some conn, world, []⟩).Well R := by
  apply dispatch_well hs (callable_init rfl _)
  intro _ conn' world' _ hx _
  exact well_idle _ (fun h => Or.inr (hx (Or.inl ⟨rfl, halloc h world⟩))) world'

theorem connFree_well (hs : CarefulServer server alloc) {R : Prop} (conn : AdConn) (world : σ) :
    (connFree server conn world).Well R := by
  unfold connFree
  split_ifs
  · have hcall : Callable evShutdown conn := ⟨fun _ h => (by cases h), fun _ _ => Or.inr rfl⟩
    exact dispatch_well hs hcall world fun _ conn world _ _ _ => well_release conn world
  · exact well_release conn world

/-- What follows the first dispatch is never an assertion.  `R` stands for the server without
pipelining, or with allocations that succeed. -/
theorem connCbEnd_well (hs : CarefulServer server alloc) {R : Prop}
    (halloc : R → server.pipelining = true → ∀ world, alloc world = true) {event : Event}
    (he : CbEvent event) {conn : AdConn} (hready : R → conn.Ready) (world : σ) :
    (connCbEnd server event conn world).Well R := by
  apply connCbEnd_cases server event conn world (Q := Session.Well R)
  · intro _ hp
    apply dispatch_well hs (callable_close false conn)
    intro _ conn' world' _ _ _
    apply (reset_well hs (fun h => halloc h hp) conn' world').after
    simp [(releases_connReset conn').1]
  · exact fun _ => well_idle { conn with inb := [] } (fun h => hready h) world
  · exact fun _ => well_idle conn hready world
  · intro _ _
    obtain ⟨t, ht⟩ := he.final
    rw [ht]
    exact dispatch_well hs (callable_close t conn) world fun _ conn world _ _ _ =>
      connFree_well hs conn world

theorem connCb_well (hs : CarefulServer server alloc) {R : Prop}
    (halloc : R → server.pipelining = true → ∀ world, alloc world = true) {event : Event}
    (he : CbEvent event) (hinit : event.init = false) (conn : AdConn) (hready : R → conn.Ready)
    (hcall : conn.status = adOk ∨ conn.status = adTakeover → Callable event conn) (world : σ) :
    (connCb server event conn world).Well R := by
  by_cases hst : conn.status = adOk ∨ conn.status = adTakeover
  · rw [connCb, if_pos hst]
    apply dispatch_well hs (hcall hst)
    intro st conn' world' _ hx _
    have hready' : R → conn'.httpState ≠ none := by
      intro h
      have hopen : conn.status ≠ adClose := by
        rcases hst with h | h <;> rw [h] <;> decide
      exact hx (Or.inr ⟨hinit, (hready h).resolve_left hopen⟩)
    apply connCbEnd_well hs halloc he
    intro h
    split_ifs
    · exact Or.inr (hready' h)
    · exact Or.inr (hready' h)
  · rw [connCb, if_neg hst]
    exact connCbEnd_well hs halloc he hready world

/-- Bytes arrive on an open connection without an HTTP state. -/
def Callback.Fatal (c : Callback) (conn : AdConn) : Prop :=
  (∃ seg, c = .read seg) ∧ (conn.status = adOk ∨ conn.status = adTakeover) ∧ conn.httpState = none

theorem callback_well (hs : CarefulServer server alloc) {R : Prop}
    (halloc : R → server.pipelining = true → ∀ world, alloc world = true) {c : Callback}
    {conn : AdConn} (hready : R → conn.Ready) (hc : ¬c.Fatal conn) (world : σ) :
    (callback server c conn world).Well R := by
  cases c with
  | read seg =>
    refine connCb_well hs halloc (Or.inl rfl) rfl { conn with inb := conn.inb ++ seg }
      (fun h => hready h) (fun hst => ?_) world
    exact ⟨fun _ _ hx => hc ⟨⟨seg, rfl⟩, hst, hx⟩, fun _ h => (by cases h)⟩
  | write =>
    exact connCb_well hs halloc (Or.inr (Or.inl rfl)) rfl conn hready
      (fun _ => ⟨fun _ h => (by cases h), fun _ _ => Or.inl rfl⟩) world
  | event what =>
    rw [callback, connEventCb]
    split_ifs
    · exact connCb_well hs halloc (Or.inr (Or.inr ⟨_, rfl⟩)) rfl _ (fun _ => Or.inl rfl)
        (fun _ => callable_close _ _) world
    · exact well_idle conn hready world
  | drain n => exact well_idle { conn with out := conn.out.drop n } (fun h => hready h) world

/-- The assertion of the parser fails. -/
theorem callback_fatal (hs : CarefulServer server alloc) {c : Callback} {conn : AdConn}
    (hc : c.Fatal conn) (world : σ) : ¬(callback server c conn world).Survives := by
  obtain ⟨⟨seg, rfl⟩, hst, hx⟩ := hc
  obtain ⟨users, hhooks, -⟩ := hs.hooks
  have hx' : ({ conn with inb := conn.inb ++ seg } : AdConn).httpState = none := hx
  have hrun : adHttpHandler alloc evRead { conn with inb := conn.inb ++ seg } world = none :=
    adHttpHandler_read_none alloc rfl rfl hx' world
  have hcalls := callHooks_handler hhooks evRead { conn with inb := conn.inb ++ seg } world
  rw [hrun] at hcalls
  intro h
  have htr : (callback server (.read seg) conn world).trace =
      [.dispatch ⟨evRead, { conn with inb := conn.inb ++ seg },
        [⟨0, true, { conn with inb := conn.inb ++ seg }⟩], none⟩] := by
    have hst' : ({ conn with inb := conn.inb ++ seg } : AdConn).status = adOk ∨
      ({ conn with inb := conn.inb ++ seg } : AdConn).status = adTakeover := hst
    rw [callback, connCb, if_pos hst', dispatch, hcalls]
  rw [Session.Survives, htr] at h
  exact h _ List.mem_cons_self rfl

/-- A new connection is survived.  One whose HTTP state could not be allocated is closing. -/
theorem connNew_well (hs : CarefulServer server alloc) {R : Prop} (world : σ) :
    (connNew server [] [] world).Well R := by
  unfold connNew
  apply dispatch_well hs (callable_init rfl _)
  intro st conn' world' _ hx hrefuse
  refine well_idle { conn' with status := st } (fun _ => ?_) world'
  cases ha : alloc world with
  | true => exact Or.inr (hx (Or.inl ⟨rfl, ha⟩))
  | false => exact Or.inl (hrefuse rfl ha)

/-! ## The loop -/

omit [UrlDecoder] in
theorem survives_iff (s : Session σ) : s.Survives ↔ s.exited = false := by
  rw [Session.exited, List.any_eq_false]
  refine forall₂_congr fun d _ => ?_
  cases d.status <;> simp

/-- The process has not ended, and the connections that exist are ready if `R`. -/
structure Running.Well (R : Prop) (s : Running σ) : Prop where
  survives : ∀ a ∈ s.conns, ∀ d ∈ dispatches a.trace, d.status ≠ none
  ready : R → ∀ a ∈ s.conns, ∀ conn, a.conn = some conn → conn.Ready

theorem loopStep_none_iff (hs : CarefulServer server alloc) {s : Running σ} (h : s.Well False)
    (step : LoopStep) :
    loopStep server s step = none ↔ ∃ k c conn trace, step = .callback k c ∧
      s.conns[k]? = some ⟨some conn, trace⟩ ∧ c.Fatal conn := by
  cases step with
  | accept =>
    have hnew := (survives_iff _).1 (connNew_well (R := False) hs s.world).survives
    rw [loopStep]
    simp [hnew]
  | callback k c =>
    cases hk : s.conns[k]? with
    | none => simp [loopStep, hk]
    | some a =>
      obtain ⟨conn, trace⟩ := a
      have htrace := h.survives _ (List.mem_of_getElem? hk)
      cases conn with
      | none =>
        have hexit : (Session.mk none s.world trace).exited = false := (survives_iff _).1 htrace
        simp [loopStep, hk, Session.step, hexit]
      | some conn =>
        rw [loopStep, hk]
        by_cases hc : c.Fatal conn
        · have hexit : (Session.step server ⟨some conn, s.world, trace⟩ c).exited = true := by
            rw [← Bool.not_eq_false, ← survives_iff, Session.Survives, Session.step_trace,
              dispatches_append, List.forall_mem_append]
            exact fun h => callback_fatal hs hc s.world h.2
          refine iff_of_true (if_pos hexit) ⟨k, c, conn, trace, rfl, hk, hc⟩
        · have hwell := callback_well (R := False) hs False.elim False.elim hc s.world
          have hexit : (Session.step server ⟨some conn, s.world, trace⟩ c).exited = false :=
            (survives_iff _).1 (hwell.after htrace).survives
          refine iff_of_false ?_ ?_
          · simp [hexit]
          · rintro ⟨k', c', conn', trace', ⟨⟩, hk', hc'⟩
            rw [hk] at hk'
            cases hk'
            exact hc hc'

theorem loopStep_well (hs : CarefulServer server alloc) {R : Prop}
    (halloc : R → server.pipelining = true → ∀ world, alloc world = true) {s s' : Running σ}
    {step : LoopStep} (h : s.Well R) (hstep : loopStep server s step = some s') :
    s'.Well R := by
  cases step with
  | accept =>
    simp only [loopStep, Option.ite_none_left_eq_some, Option.some.injEq] at hstep
    obtain ⟨-, rfl⟩ := hstep
    have hnew := connNew_well (R := R) hs s.world
    refine ⟨?_, fun hready => ?_⟩
    · exact List.forall_mem_append.2 ⟨h.survives, List.forall_mem_singleton.2 hnew.survives⟩
    · exact List.forall_mem_append.2
        ⟨h.ready hready, List.forall_mem_singleton.2 (hnew.ready hready)⟩
  | callback k c =>
    rw [loopStep] at hstep
    cases hk : s.conns[k]? with
    | none =>
      rw [hk] at hstep
      cases hstep
      exact h
    | some a =>
      simp only [hk, Option.ite_none_left_eq_some, Option.some.injEq] at hstep
      obtain ⟨hexit, rfl⟩ := hstep
      have ha := List.mem_of_getElem? hk
      have hsurv : (Session.step server ⟨a.conn, s.world, a.trace⟩ c).Survives := by
        rw [survives_iff, ← Bool.not_eq_true]
        exact hexit
      refine ⟨fun a' ha' => ?_, fun hready a' ha' => ?_⟩
      · rcases List.mem_or_eq_of_mem_set ha' with ha' | rfl
        · exact h.survives a' ha'
        · exact hsurv
      · rcases List.mem_or_eq_of_mem_set ha' with ha' | rfl
        · exact h.ready hready a' ha'
        · obtain ⟨conn, trace⟩ := a
          cases conn with
          | none => exact fun conn' hconn' => by cases hconn'
          | some conn =>
            have hc : ¬c.Fatal conn := fun hc =>
              callback_fatal hs hc s.world fun d hd =>
                hsurv d (by
                  rw [Session.step_trace, dispatches_append]
                  exact List.mem_append_right _ hd)
            have hwell := callback_well hs halloc (fun hr => h.ready hr _ ha conn rfl) hc s.world
            exact hwell.ready hready

/-- The process ends exactly where bytes arrive on an open connection without an HTTP state. -/
theorem loopRun_ends_iff (hs : CarefulServer server alloc) (handles : Handles) (world : σ)
    (steps : List LoopStep) :
    loopRun server ⟨handles, [], [], world⟩ steps = none ↔
      ∃ pre k c post s conn trace, steps = pre ++ .callback k c :: post ∧
        loopRun server ⟨handles, [], [], world⟩ pre = some s ∧
        s.conns[k]? = some ⟨some conn, trace⟩ ∧ c.Fatal conn := by
  have hwell : ∀ {pre s}, loopRun server ⟨handles, [], [], world⟩ pre = some s → s.Well False :=
    fun hrun => loopRun_rule server (fun _ _ _ h hstep => loopStep_well hs False.elim h hstep)
      ⟨by simp, False.elim⟩ hrun
  rw [loopRun, Interleave.foldlM_eq_none_iff]
  constructor
  · rintro ⟨pre, step, post, s, rfl, hpre, hstep⟩
    obtain ⟨k, c, conn, trace, rfl, hk, hc⟩ := (loopStep_none_iff hs (hwell hpre) step).1 hstep
    exact ⟨pre, k, c, post, s, conn, trace, rfl, hpre, hk, hc⟩
  · rintro ⟨pre, k, c, post, s, conn, trace, rfl, hpre, hk, hc⟩
    exact ⟨pre, _, post, s, rfl, hpre,
      (loopStep_none_iff hs (hwell hpre) _).2 ⟨k, c, conn, trace, rfl, hk, hc⟩⟩

/-- Without pipelining, or where the HTTP states can be allocated, no order of callbacks on any number
of connections ends the process. -/
theorem loopRun_survives (hs : CarefulServer server alloc)
    (h : server.pipelining = false ∨ ∀ world, alloc world = true) (handles : Handles) (world : σ)
    (steps : List LoopStep) : ∃ s, loopRun server ⟨handles, [], [], world⟩ steps = some s := by
  rw [← Option.ne_none_iff_exists']
  intro hnone
  have halloc : True → server.pipelining = true → ∀ world, alloc world = true := fun _ hp =>
    h.resolve_left (by rw [hp]; decide)
  obtain ⟨pre, step, post, s, rfl, hpre, hstep⟩ := Interleave.foldlM_eq_none_iff.1 hnone
  have hwell : s.Well True :=
    loopRun_rule server (fun _ _ _ h hstep => loopStep_well hs halloc h hstep)
      ⟨by simp, fun _ => by simp⟩ hpre
  obtain ⟨k, c, conn, trace, -, hk, -, hst, hx⟩ :=
    (loopStep_none_iff hs ⟨hwell.survives, False.elim⟩ step).1 hstep
  rcases hwell.ready trivial _ (List.mem_of_getElem? hk) conn rfl with hclose | hx'
  · rw [hclose] at hst
    exact absurd hst (by decide)
  · exact hx' hx

end

/-- A hook that answers a request, after which there is no memory left. -/
def exhaustingHook : UserHook Bool where
  method := none
  cb := some fun event conn memory =>
    match conn.httpState with
    | none => some ([], adOk, memory)
    | some http =>
      if event.read ∧ http.request.status = .done then
        some ([.respond (.response 200 none none 0)], adDone, false)
      else some ([], adOk, memory)

/-- A server with pipelining; the world tells whether there is memory. -/
def exhaustedServer : AdServer Bool where
  options := [(bytes "server.request_pipelining", bytes "1")]
  hooks := @httpHook _ percentDecoder id :: [exhaustingHook].map UserHook.hook

theorem exhaustedServer_careful : @CarefulServer Bool exhaustedServer id percentDecoder := by
  refine @CarefulServer.mk Bool exhaustedServer id percentDecoder ⟨[exhaustingHook], rfl, ?_⟩
  intro hook hhook
  obtain rfl := List.mem_singleton.1 hhook
  rintro _ ⟨⟩ event conn memory
  cases hx : conn.httpState with
  | none => exact ⟨[], adOk, memory, by simp only [hx], fun _ => by simp⟩
  | some http =>
    by_cases hdone : event.read = true ∧ http.request.status = .done
    · exact ⟨[.respond (.response 200 none none 0)], adDone, false, by simp only [hx, if_pos hdone],
        fun h => absurd h (Option.some_ne_none _)⟩
    · exact ⟨[], adOk, memory, by simp only [hx, if_neg hdone], fun _ => by simp⟩

/-- The request behind the one after which memory has run out is fatal. -/
theorem second_request_fatal :
    let steps : List LoopStep := [.accept, .callback 0 (.read (bytes "GET / HTTP/1.1\r\n\r\n")),
      .callback 0 (.read (bytes "GET"))]
    ∃ pre k c post s conn trace, steps = pre ++ .callback k c :: post ∧
      loopRun exhaustedServer ⟨⟨none, none, none, none, none⟩, [], [], true⟩ pre = some s ∧
      s.conns[k]? = some ⟨some conn, trace⟩ ∧ c.Fatal conn := by
  intro steps
  exact (@loopRun_ends_iff Bool percentDecoder _ _ exhaustedServer_careful _ true steps).1
    (by decide +kernel)

/-- Without pipelining, it is not. -/
theorem second_request_survived :
    ∃ s, loopRun { exhaustedServer with options := [] } ⟨⟨none, none, none, none, none⟩, [], [], true⟩
      [.accept, .callback 0 (.read (bytes "GET / HTTP/1.1\r\n\r\n")),
        .callback 0 (.read (bytes "GET"))] = some s := by
  refine @loopRun_survives Bool percentDecoder _ id ?_ (Or.inl (by decide +kernel)) _ true _
  exact @CarefulServer.mk _ _ _ percentDecoder
    (@CarefulServer.hooks Bool exhaustedServer id percentDecoder exhaustedServer_careful)

end Asyncd
