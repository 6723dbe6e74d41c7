import Asyncd.Server.Handler
import Asyncd.Server.Lifecycle

/-!
# Requests on a reused connection

What a request leaves behind on a connection.  `conn_reset` puts back everything but
`userdata_free_cb`, which means nothing while the slot is empty; `shown` is what remains of a connection
without it, and every part of the server acts on that (`callback_shown`).  So for hooks that do the same,
a connection after the reset goes on like a new one with the same buffers (`isolated_of_blind`).
-/

open CString

namespace Asyncd

/-! ## What a connection shows -/

/-- The free callback of an empty slot is not looked at. -/
def Slot.shown (s : Slot) : Slot := if s.data = none then ⟨none, none⟩ else s

def ConnView.shown (v : ConnView) : ConnView :=
  { v with userdata := v.userdata.shown, extra := v.extra.shown }

def AdConn.shown (conn : AdConn) : AdConn := { conn with toConnView := conn.toConnView.shown }

/-- On `AD_EVENT_INIT`, the flag `AD_EVENT_WRITE` is not looked at. -/
def Event.shown (event : Event) : Event := if event.init then { event with write := false } else event

def Visit.shown (v : Visit) : Visit := { v with conn := v.conn.shown }

def Dispatch.shown (d : Dispatch) : Dispatch where
  event := d.event.shown
  before := d.before.shown
  visits := d.visits.map Visit.shown
  status := d.status

def Output.shown : Output → Output
  | .dispatch d => .dispatch d.shown
  | out => out

@[simp] theorem Slot.shown_data (s : Slot) : s.shown.data = s.data := by
  unfold Slot.shown
  split_ifs with h
  · exact h.symm
  · rfl

theorem Slot.shown_of_none {s : Slot} (h : s.data = none) : s.shown = ⟨none, none⟩ := if_pos h

theorem Slot.shown_of_some {s : Slot} {data : UserPtr} (h : s.data = some data) : s.shown = s :=
  if_neg (by simp [h])

section

variable {σ : Type}

def Session.shown (s : Session σ) : Session σ :=
  ⟨s.conn.map AdConn.shown, s.world, s.trace.map Output.shown⟩

/-- What a run of hooks shows. -/
def shownCalls (r : Option ℤ × AdConn × σ × List Visit) : Option ℤ × AdConn × σ × List Visit :=
  (r.1, r.2.1.shown, r.2.2.1, r.2.2.2.map Visit.shown)

/-- A hook that sees of a connection only what it shows. -/
def AdHook.Blind (hook : AdHook σ) : Prop :=
  ∀ cb, hook.cb = some cb → ∀ event (conn conn' : AdConn) world, conn.shown = conn'.shown →
    (cb event conn world).map (fun r => (r.1, r.2.1.shown, r.2.2)) =
      (cb event conn' world).map fun r => (r.1, r.2.1.shown, r.2.2)

theorem Session.shown_after {s s' : Session σ} (h : s.shown = s'.shown) {out out' : List Output}
    (hout : out.map Output.shown = out'.map Output.shown) :
    (s.after out).shown = (s'.after out').shown := by
  simp only [Session.shown, Session.mk.injEq, Session.after, List.map_append] at h ⊢
  exact ⟨h.1, h.2.1, by rw [hout, h.2.2]⟩

end

/-! ## The server acts on what is shown -/

section

variable {conn conn' : AdConn} (h : conn.shown = conn'.shown)

include h

theorem shown_view : conn.toConnView.shown = conn'.toConnView.shown :=
  congrArg AdConn.toConnView h

theorem shown_inb : conn.inb = conn'.inb :=
  show conn.shown.inb = conn'.shown.inb by rw [h]

theorem shown_out : conn.out = conn'.out :=
  show conn.shown.out = conn'.shown.out by rw [h]

theorem shown_method : conn.method = conn'.method :=
  show conn.shown.method = conn'.shown.method by rw [h]

theorem shown_status : conn.status = conn'.status :=
  show conn.shown.status = conn'.shown.status by rw [h]

theorem shown_setView {v v' : ConnView} (hv : v.shown = v'.shown) :
    ({ conn with toConnView := v } : AdConn).shown = { conn' with toConnView := v' }.shown := by
  have hst := shown_status h
  simp only [AdConn.shown, hv, hst]

theorem shown_setStatus (st : ℤ) :
    ({ conn with status := st } : AdConn).shown = { conn' with status := st }.shown := by
  have hv := shown_view h
  simp only [AdConn.shown, hv]

theorem shown_setBuffers {inb inb' out out' : Bytes} (hin : inb = inb') (hout : out = out') :
    ({ conn with inb := inb, out := out } : AdConn).shown =
      { conn' with inb := inb', out := out' }.shown := by
  rw [hin, hout]
  exact congrArg (fun c : AdConn => { c with inb := inb', out := out' }) h

end

/-- An empty slot is left alone, and a full one shows its free callback. -/
theorem resetSlot_shown {s s' : Slot} (h : s.shown = s'.shown) :
    (resetSlot s).1.shown = (resetSlot s').1.shown ∧ (resetSlot s).2 = (resetSlot s').2 := by
  have hdata : s.data = s'.data := by rw [← s.shown_data, h, s'.shown_data]
  cases hs : s.data with
  | none =>
    have hs' : s'.data = none := hdata ▸ hs
    simp only [resetSlot, hs, hs', h, and_self]
  | some data =>
    rw [Slot.shown_of_some hs, Slot.shown_of_some (hdata ▸ hs)] at h
    rw [h]
    exact ⟨rfl, rfl⟩

theorem connReset_shown {conn conn' : AdConn} (h : conn.shown = conn'.shown) :
    (connReset conn).1.shown = (connReset conn').1.shown ∧ (connReset conn).2 = (connReset conn').2 := by
  have huser := resetSlot_shown (congrArg (fun c : AdConn => c.userdata) h)
  have hextra := resetSlot_shown (congrArg (fun c : AdConn => c.extra) h)
  have hin := shown_inb h
  have hout := shown_out h
  constructor
  · simp only [connReset, AdConn.shown, ConnView.shown, huser.1, hextra.1, hin, hout]
  · simp only [connReset, huser.2, hextra.2]

section

variable {σ : Type}

theorem callHooksFrom_shown {event : Event} {hooks : List (AdHook σ)} (hb : ∀ hook ∈ hooks, hook.Blind)
    (i : ℕ) {conn conn' : AdConn} (h : conn.shown = conn'.shown) (world : σ) :
    shownCalls (callHooksFrom event i hooks conn world) =
      shownCalls (callHooksFrom event i hooks conn' world) := by
  induction hooks generalizing i conn conn' world with
  | nil =>
    simp only [callHooksFrom, shownCalls, h]
  | cons hook hooks ih =>
    rw [List.forall_mem_cons] at hb
    have hvisit : ∀ called, (Visit.mk i called conn).shown = (Visit.mk i called conn').shown :=
      fun called => congrArg (Visit.mk i called) h
    cases hcb : hook.cb with
    | none =>
      rw [callHooksFrom_none _ _ _ _ hcb, callHooksFrom_none _ _ _ _ hcb]
      exact ih hb.2 (i + 1) h world
    | some cb =>
      by_cases hpass : hook.Passes conn
      · have hpass' : hook.Passes conn' := by rwa [AdHook.Passes, ← shown_method h]
        have hcall := hb.1 cb hcb event conn conn' world h
        cases hrun : cb event conn world with
        | none =>
          rw [hrun, Option.map_none] at hcall
          have hrun' := Option.map_eq_none_iff.1 hcall.symm
          rw [callHooksFrom_exit _ _ _ _ hcb hpass hrun, callHooksFrom_exit _ _ _ _ hcb hpass' hrun']
          simp only [shownCalls, h, List.map_cons, List.map_nil, hvisit]
        | some r =>
          obtain ⟨st, view, world₁⟩ := r
          rw [hrun, Option.map_some] at hcall
          obtain ⟨⟨st', view', world₂⟩, hrun', hsame⟩ := Option.map_eq_some_iff.1 hcall.symm
          simp only [Prod.mk.injEq] at hsame
          obtain ⟨rfl, hview, rfl⟩ := hsame
          have hnext := shown_setView h hview.symm
          by_cases hst : st' = adOk
          · rw [hst] at hrun hrun'
            have hrest := ih hb.2 (i + 1) hnext world₂
            rw [callHooksFrom_ok _ _ _ _ hcb hpass hrun, callHooksFrom_ok _ _ _ _ hcb hpass' hrun']
            simp only [shownCalls, Prod.mk.injEq, List.map_cons, hvisit] at hrest ⊢
            exact ⟨hrest.1, hrest.2.1, hrest.2.2.1, by rw [hrest.2.2.2]⟩
          · rw [callHooksFrom_stop _ _ _ _ hcb hpass hrun hst,
              callHooksFrom_stop _ _ _ _ hcb hpass' hrun' hst]
            simp only [shownCalls, hnext, List.map_cons, List.map_nil, hvisit]
      · have hpass' : ¬hook.Passes conn' := by rwa [AdHook.Passes, ← shown_method h]
        have hrest := ih hb.2 (i + 1) h world
        rw [callHooksFrom_skip _ _ _ _ hcb hpass, callHooksFrom_skip _ _ _ _ hcb hpass']
        simp only [shownCalls, Prod.mk.injEq, List.map_cons, hvisit] at hrest ⊢
        exact ⟨hrest.1, hrest.2.1, hrest.2.2.1, by rw [hrest.2.2.2]⟩

variable {server : AdServer σ} (hb : ∀ hook ∈ server.hooks, hook.Blind) {conn conn' : AdConn}

theorem dispatch_shown_of_calls {event event' : Event} (he : event.shown = event'.shown)
    (h : conn.shown = conn'.shown) {world : σ}
    (hcalls : shownCalls (callHooks server event conn world) =
      shownCalls (callHooks server event' conn' world))
    {next next' : ℤ → AdConn → σ → Session σ}
    (hnext : ∀ st (c c' : AdConn) w, (callHooks server event conn world).1 = some st →
      (callHooks server event conn world).2.1 = c → c.shown = c'.shown →
        (next st c w).shown = (next' st c' w).shown) :
    (dispatch server event conn world next).shown =
      (dispatch server event' conn' world next').shown := by
  unfold dispatch
  generalize callHooks server event conn world = r at hcalls hnext ⊢
  generalize callHooks server event' conn' world = r' at hcalls ⊢
  obtain ⟨st, c, w, vs⟩ := r
  obtain ⟨st', c', w', vs'⟩ := r'
  simp only [shownCalls, Prod.mk.injEq] at hcalls
  obtain ⟨rfl, hc, rfl, hvs⟩ := hcalls
  have hd : ∀ status, (Dispatch.mk event conn vs status).shown =
      (Dispatch.mk event' conn' vs' status).shown := by
    intro status
    simp only [Dispatch.shown, he, h, hvs]
  cases st with
  | none => simp only [Session.shown, Option.map_none, List.map_cons, List.map_nil, Output.shown, hd]
  | some st =>
    apply Session.shown_after (hnext st c c' w rfl rfl hc)
    simp only [List.map_cons, List.map_nil, Output.shown, hd]

include hb

theorem dispatch_shown (event : Event) (h : conn.shown = conn'.shown) (world : σ)
    {next next' : ℤ → AdConn → σ → Session σ}
    (hnext : ∀ st (c c' : AdConn) w, c.shown = c'.shown → (next st c w).shown = (next' st c' w).shown) :
    (dispatch server event conn world next).shown = (dispatch server event conn' world next').shown :=
  dispatch_shown_of_calls rfl h (callHooksFrom_shown hb 0 h world)
    fun st c c' w _ _ hc => hnext st c c' w hc

omit hb in
theorem idle_shown (h : conn.shown = conn'.shown) (world : σ) :
    (Session.mk (some conn) world []).shown = (Session.mk (some conn') world []).shown := by
  simp only [Session.shown, Option.map_some, h]

omit hb in
theorem connRelease_shown (h : conn.shown = conn'.shown) (world : σ) :
    (connRelease conn world).shown = (connRelease conn' world).shown := by
  rw [connRelease, connRelease, (connReset_shown h).2]

theorem connFree_shown (h : conn.shown = conn'.shown) (world : σ) :
    (connFree server conn world).shown = (connFree server conn' world).shown := by
  rw [connFree, connFree, shown_status h]
  split_ifs
  · exact dispatch_shown hb evShutdown h world fun _ _ _ w hc => connRelease_shown hc w
  · exact connRelease_shown h world

theorem connCbEnd_shown (event : Event) (h : conn.shown = conn'.shown) (world : σ) :
    (connCbEnd server event conn world).shown = (connCbEnd server event conn' world).shown := by
  have hst := shown_status h
  have hout := shown_out h
  unfold connCbEnd
  by_cases hdone : conn.status = adDone
  · rw [if_pos hdone, if_pos (hst.symm.trans hdone)]
    split_ifs
    · apply dispatch_shown hb _ h
      intro _ c c' w hc
      have hreset := connReset_shown hc
      rw [hreset.2]
      apply Session.shown_after _ rfl
      exact dispatch_shown hb _ hreset.1 w fun _ _ _ w hc => idle_shown hc w
    · exact idle_shown (shown_setBuffers h rfl hout) world
    · exact idle_shown h world
  · rw [if_neg hdone, if_neg fun hdone' => hdone (hst.trans hdone')]
    by_cases hclose : conn.status = adClose
    · rw [if_pos hclose, if_pos (hst.symm.trans hclose), hout]
      split_ifs
      · exact dispatch_shown hb _ h world fun _ _ _ w hc => connFree_shown hb hc w
      · exact dispatch_shown hb _ h world fun _ _ _ w hc => connFree_shown hb hc w
      · exact idle_shown h world
    · rw [if_neg hclose, if_neg fun hclose' => hclose (hst.trans hclose')]
      exact idle_shown h world

theorem connCb_shown (event : Event) (h : conn.shown = conn'.shown) (world : σ) :
    (connCb server event conn world).shown = (connCb server event conn' world).shown := by
  rw [connCb, connCb, shown_status h]
  split_ifs
  · apply dispatch_shown hb _ h
    intro st c c' w hc
    rw [shown_status hc]
    apply connCbEnd_shown hb
    split_ifs
    · exact hc
    · exact shown_setStatus hc st
  · exact connCbEnd_shown hb event h world

theorem callback_shown (c : Callback) (h : conn.shown = conn'.shown) (world : σ) :
    (callback server c conn world).shown = (callback server c conn' world).shown := by
  have hin := shown_inb h
  have hout := shown_out h
  cases c with
  | read seg => exact connCb_shown hb evRead (shown_setBuffers h (by rw [hin]) hout) world
  | write => exact connCb_shown hb evWrite h world
  | event what =>
    rw [callback, callback, connEventCb, connEventCb]
    split_ifs
    · exact connCb_shown hb _ (shown_setStatus h adClose) world
    · exact idle_shown h world
  | drain n => exact idle_shown (shown_setBuffers h hin (by rw [hout])) world

theorem step_shown {s s' : Session σ} (h : s.shown = s'.shown) (c : Callback) :
    (s.step server c).shown = (s'.step server c).shown := by
  have hconn : s.conn.map AdConn.shown = s'.conn.map AdConn.shown := congrArg Session.conn h
  have hworld : s.world = s'.world := show s.shown.world = s'.shown.world by rw [h]
  have htrace : s.trace.map Output.shown = s'.trace.map Output.shown := congrArg Session.trace h
  unfold Session.step
  cases hs : s.conn with
  | none =>
    rw [hs, Option.map_none] at hconn
    rw [Option.map_eq_none_iff.1 hconn.symm]
    exact h
  | some conn =>
    rw [hs, Option.map_some] at hconn
    obtain ⟨conn', hs', hsame⟩ := Option.map_eq_some_iff.1 hconn.symm
    rw [hs', hworld]
    exact Session.shown_after (callback_shown hb c hsame.symm s'.world) htrace

theorem foldl_step_shown {s s' : Session σ} (h : s.shown = s'.shown) (cs : List Callback) :
    (cs.foldl (Session.step server) s).shown = (cs.foldl (Session.step server) s').shown := by
  induction cs generalizing s s' with
  | nil => exact h
  | cons c cs ih => exact ih (step_shown hb h c)

end

/-! ## Hooks that act on what is shown -/

theorem ConnView.httpState_shown {v v' : ConnView} (h : v.shown = v'.shown) :
    v.httpState = v'.httpState := by
  have hdata : v.extra.data = v'.extra.data := by
    rw [← v.extra.shown_data, ← v'.extra.shown_data]
    exact congrArg (fun v : ConnView => v.extra.data) h
  unfold ConnView.httpState
  rw [hdata]

/-- A new HTTP state in the place of one that is there: the free callback is one that is shown. -/
theorem ConnView.setHttp_shown {v v' : ConnView} (h : v.shown = v'.shown) {http : AdHttp}
    (hx : v.httpState = some http) (http' : AdHttp) :
    (v.setHttp http').shown = (v'.setHttp http').shown := by
  have hsome : ∀ {v : ConnView}, v.httpState = some http → ∃ data, v.extra.data = some data := by
    intro v hx
    cases hdata : v.extra.data with
    | none =>
      rw [ConnView.httpState, hdata] at hx
      cases hx
    | some data => exact ⟨data, rfl⟩
  obtain ⟨data, hdata⟩ := hsome hx
  obtain ⟨data', hdata'⟩ := hsome ((ConnView.httpState_shown h).symm.trans hx)
  have hextra : v.extra = v'.extra := by
    rw [← Slot.shown_of_some hdata, ← Slot.shown_of_some hdata']
    exact congrArg ConnView.extra h
  have hset := congrArg (fun w : ConnView =>
    { w with extra := Slot.shown ⟨some (.http http'), v.extra.freeCb⟩ }) h
  rwa [ConnView.setHttp, ConnView.setHttp, ← hextra]

section

variable [UrlDecoder] {σ : Type}

theorem afterParser_shown {conn conn' : AdConn} {http : AdHttp} (h : conn.shown = conn'.shown)
    (hx : conn.httpState = some http) :
    (afterParser conn http).shown = (afterParser conn' http).shown := by
  rw [afterParser, afterParser, ← shown_inb h, ← shown_method h]
  apply ConnView.setHttp_shown
  · exact congrArg (fun v : ConnView =>
      { v with
        inb := (httpParser http conn.inb).2.2
        method :=
          if conn.method = none then (httpParser http conn.inb).2.1.request.method
          else conn.method }) (shown_view h)
  · exact hx

theorem httpHook_blind (alloc : σ → Bool) : (httpHook alloc).Blind := by
  rintro cb hcb event conn conn' world h
  cases hcb
  have hview := shown_view h
  have hidle : ∀ status : ℤ,
      (some (status, conn.toConnView, world)).map
          (fun r : ℤ × ConnView × σ => (r.1, r.2.1.shown, r.2.2)) =
        (some (status, conn'.toConnView, world)).map fun r => (r.1, r.2.1.shown, r.2.2) := by
    intro status
    simp only [Option.map_some, hview]
  by_cases hi : event.init = true
  · unfold adHttpHandler
    rw [if_pos hi, if_pos hi]
    cases httpNew (alloc world) with
    | none => exact hidle adClose
    | some http =>
      have hset := congrArg (fun v : ConnView =>
        { v with extra := Slot.shown ⟨some (.http http), some .httpFree⟩ }) hview
      exact congrArg (fun v => some (adOk, v, world)) hset
  rw [Bool.not_eq_true] at hi
  by_cases hr : event.read = true
  · have hx' := ConnView.httpState_shown hview
    cases hx : conn.httpState with
    | none =>
      rw [adHttpHandler_read_none alloc hi hr hx, adHttpHandler_read_none alloc hi hr (hx' ▸ hx)]
    | some http =>
      obtain ⟨status, hret, hrun⟩ := adHttpHandler_read alloc hi hr hx world
      obtain ⟨status', hret', hrun'⟩ := adHttpHandler_read alloc hi hr (hx' ▸ hx) world
      rw [← shown_inb h, hret, ParserExit.ret.injEq] at hret'
      rw [hrun, hrun', ← hret', Option.map_some, Option.map_some, afterParser_shown h hx]
  · simp only [adHttpHandler, hi, hr, Bool.false_eq_true, if_false]
    split_ifs
    · exact hidle adOk
    · exact hidle adOk
    · rfl

end

section

variable {v v' : ConnView} (h : v.shown = v'.shown)

include h

theorem withHttp_shown (f : AdHttp → Bytes → AdHttp × Bytes) :
    (v.withHttp f).map ConnView.shown = (v'.withHttp f).map ConnView.shown := by
  have hx := ConnView.httpState_shown h
  have hout : v.out = v'.out := show v.shown.out = v'.shown.out by rw [h]
  unfold ConnView.withHttp
  rw [← hx, ← hout]
  cases hv : v.httpState with
  | none => rfl
  | some http =>
    simp only [Option.map_some, Option.some.injEq]
    have hset : ({ v with out := (f http v.out).2 } : ConnView).shown =
        { v' with out := (f http v.out).2 }.shown :=
      congrArg (fun w : ConnView => { w with out := (f http v.out).2 }) h
    exact ConnView.setHttp_shown hset hv _

theorem UserCall.run_shown (c : UserCall) :
    (c.run v).map ConnView.shown = (c.run v').map ConnView.shown := by
  cases c with
  | addOut data =>
    exact congrArg (fun v : ConnView => some { v with out := v.out ++ data }) h
  | drainIn n => exact congrArg (fun v : ConnView => some { v with inb := v.inb.drop n }) h
  | setUserdata data freeCb =>
    exact congrArg (fun v : ConnView =>
      some { v with userdata := Slot.shown ⟨data.map .user, freeCb.map .user⟩ }) h
  | setMethod method => exact congrArg (fun v : ConnView => some { v with method := method }) h
  | getContent alloc maxsize => exact withHttp_shown h _
  | respond call => exact withHttp_shown h fun http out => call.run http out

end

theorem runCalls_shown {v v' : ConnView} (h : v.shown = v'.shown) (calls : List UserCall) :
    (runCalls v calls).map ConnView.shown = (runCalls v' calls).map ConnView.shown := by
  induction calls generalizing v v' with
  | nil => exact congrArg some h
  | cons c calls ih =>
    have hc := UserCall.run_shown h c
    cases hv : c.run v with
    | none =>
      rw [hv, Option.map_none] at hc
      have hv' := Option.map_eq_none_iff.1 hc.symm
      simp [runCalls, List.foldlM_cons, hv, hv']
    | some view =>
      rw [hv, Option.map_some] at hc
      obtain ⟨view', hv', hview⟩ := Option.map_eq_some_iff.1 hc.symm
      rw [runCalls_cons hv, runCalls_cons hv']
      exact ih hview.symm

/-- A hook of users sees only what is shown if its choice of calls does: no call looks at the free
callback of an empty slot. -/
theorem UserHook.hook_blind {σ : Type} {hook : UserHook σ}
    (hcb : ∀ cb, hook.cb = some cb → ∀ event (conn conn' : AdConn) world, conn.shown = conn'.shown →
      cb event conn world = cb event conn' world) : hook.hook.Blind := by
  rintro cb hmap event conn conn' world h
  obtain ⟨choose, hchoose, rfl⟩ := Option.map_eq_some_iff.1 hmap
  beta_reduce
  rw [hcb choose hchoose event conn conn' world h]
  cases choose event conn' world with
  | none => rfl
  | some r =>
    have hcalls := runCalls_shown (shown_view h) r.1
    cases hv : runCalls conn.toConnView r.1 with
    | none =>
      rw [hv, Option.map_none] at hcalls
      simp [hv, Option.map_eq_none_iff.1 hcalls.symm]
    | some view =>
      rw [hv, Option.map_some] at hcalls
      obtain ⟨view', hv', hview⟩ := Option.map_eq_some_iff.1 hcalls.symm
      simp [hv, hv', hview]

/-! ## After the reset -/

section

variable {σ : Type}

/-- On `AD_EVENT_INIT`, the hook returns `AD_OK`, appends nothing, and does not look at the flag
`AD_EVENT_WRITE`. -/
def AdHook.QuietInit (hook : AdHook σ) : Prop :=
  ∀ cb, hook.cb = some cb → ∀ conn world,
    (∃ view world', cb evInit conn world = some (adOk, view, world') ∧ view.out = conn.out) ∧
      cb evInitWrite conn world = cb evInit conn world

theorem httpHook_quietInit [UrlDecoder] :
    (httpHook fun _ : σ => true).QuietInit := by
  rintro cb hcb conn world
  cases hcb
  exact ⟨⟨_, world, rfl, rfl⟩, rfl⟩

theorem callHooksFrom_init {hooks : List (AdHook σ)} (hq : ∀ hook ∈ hooks, hook.QuietInit) (i : ℕ)
    (conn : AdConn) (world : σ) :
    (callHooksFrom evInit i hooks conn world).1 = some adOk ∧
      callHooksFrom evInitWrite i hooks conn world = callHooksFrom evInit i hooks conn world := by
  induction hooks generalizing i conn world with
  | nil => exact ⟨rfl, rfl⟩
  | cons hook hooks ih =>
    rw [List.forall_mem_cons] at hq
    cases hcb : hook.cb with
    | none =>
      rw [callHooksFrom_none _ _ _ _ hcb, callHooksFrom_none _ _ _ _ hcb]
      exact ih hq.2 (i + 1) conn world
    | some cb =>
      by_cases hpass : hook.Passes conn
      · obtain ⟨⟨view, world', hrun, -⟩, hwrite⟩ := hq.1 cb hcb conn world
        have hrest := ih hq.2 (i + 1) { conn with toConnView := view } world'
        rw [callHooksFrom_ok _ _ _ _ hcb hpass hrun,
          callHooksFrom_ok _ _ _ _ hcb hpass (hwrite.trans hrun), hrest.2]
        exact ⟨hrest.1, rfl⟩
      · have hrest := ih hq.2 (i + 1) conn world
        rw [callHooksFrom_skip _ _ _ _ hcb hpass, callHooksFrom_skip _ _ _ _ hcb hpass, hrest.2]
        exact ⟨hrest.1, rfl⟩

theorem resetSlot_data (s : Slot) : (resetSlot s).1.data = none := by
  unfold resetSlot
  split
  · assumption
  · split <;> rfl

/-- After the reset, a connection shows what a new one with its buffers shows. -/
theorem connReset_blank (conn : AdConn) :
    (connReset conn).1.shown = ({ blankConn with inb := conn.inb, out := conn.out } : AdConn).shown := by
  simp only [connReset, AdConn.shown, ConnView.shown, blankConn,
    Slot.shown_of_none (resetSlot_data _), Slot.shown_of_none]

variable {server : AdServer σ}

/-- The dispatch of `AD_EVENT_INIT` behind a reset. -/
def initAfterReset (server : AdServer σ) (conn : AdConn) (world : σ) : Session σ :=
  dispatch server evInit (connReset conn).1 world fun _ conn world => ⟨some conn, world, []⟩

theorem initAfterReset_trace (hq : ∀ hook ∈ server.hooks, hook.QuietInit) (conn : AdConn) (world : σ) :
    ∃ init : Dispatch, init.event = evInit ∧ init.before = (connReset conn).1 ∧
      (initAfterReset server conn world).trace = [.dispatch init] := by
  have hok := (callHooksFrom_init hq 0 (connReset conn).1 world).1
  unfold initAfterReset dispatch callHooks
  generalize callHooksFrom evInit 0 server.hooks (connReset conn).1 world = r at hok ⊢
  obtain ⟨st, conn', world', visits⟩ := r
  obtain rfl : st = some adOk := hok
  exact ⟨⟨evInit, (connReset conn).1, visits, some adOk⟩, rfl, rfl, rfl⟩

/-- Behind a reset, the connection starts like a new one with the same buffers. -/
theorem initAfterReset_shown (hb : ∀ hook ∈ server.hooks, hook.Blind)
    (hq : ∀ hook ∈ server.hooks, hook.QuietInit) (conn : AdConn) (world : σ) :
    (initAfterReset server conn world).shown = (connNew server conn.inb conn.out world).shown := by
  have hblank := connReset_blank conn
  have hinit := callHooksFrom_init hq 0 (connReset conn).1 world
  have hwrite := callHooksFrom_init hq 0 { blankConn with inb := conn.inb, out := conn.out } world
  apply dispatch_shown_of_calls (show evInit.shown = evInitWrite.shown from rfl) hblank
  · rw [callHooks, callHooks]
    rw [show callHooksFrom evInitWrite 0 server.hooks _ world = _ from hwrite.2]
    exact callHooksFrom_shown hb 0 hblank world
  · intro st c c' w hst hc hshown
    -- the status that `conn_new` takes over is the one that is there
    have hok : st = adOk := by
      rw [callHooks, hinit.1] at hst
      exact (Option.some.inj hst).symm
    have hcst : c.status = adOk := by
      rw [← hc]
      exact callHooksFrom_status _ _ _ _ _
    have hset := shown_setStatus hshown adOk
    rw [show ({ c with status := adOk } : AdConn) = c by rw [← hcst]] at hset
    rw [hok]
    exact idle_shown hset w

/-- The callback starts with a read or write dispatch that returns `AD_DONE`, and does not end the
process. -/
def Session.Finishes (server : AdServer σ) (s : Session σ) (c : Callback) : Prop :=
  (s.step server c).conn.isSome ∧
    ∃ (d : Dispatch) (post : List Output), (s.step server c).trace = s.trace ++ .dispatch d :: post ∧
      Served d ∧ d.status = some adDone

theorem connCbEnd_head {event : Event} (he : CbEvent event) {conn : AdConn} {world : σ} {d : Dispatch}
    {post : List Output} (h : (connCbEnd server event conn world).trace = .dispatch d :: post) :
    ¬Served d := by
  have hclose : ∀ {event : Event} {t : Bool} {conn : AdConn} {next : ℤ → AdConn → σ → Session σ},
      event = evClose t → (dispatch server event conn world next).trace = .dispatch d :: post →
        ¬Served d := by
    intro event t conn next he h
    obtain ⟨d', hd', -, hcases⟩ := dispatch_cases server event conn world next
    have hsame : d' = d := by
      rcases hcases with ⟨-, -, htr⟩ | ⟨_, _, _, -, -, hrun⟩
      · rw [htr] at h
        simpa using (List.cons_eq_cons.1 h).1
      · rw [hrun] at h
        simpa using (List.cons_eq_cons.1 h).1
    exact not_served_of_close (hsame ▸ hd'.trans he)
  obtain ⟨t, ht⟩ := he.final
  rw [connCbEnd, ht] at h
  split_ifs at h
  · exact hclose rfl h
  · exact hclose rfl h

/-- A read or write callback that finishes a request goes on from the reset. -/
theorem connCb_finishes (hp : server.pipelining = true) {event : Event}
    (he : event = evRead ∨ event = evWrite) {conn : AdConn} {world : σ} {d : Dispatch}
    {post : List Output} (hconn : (connCb server event conn world).conn.isSome)
    (htr : (connCb server event conn world).trace = .dispatch d :: post) (hserved : Served d)
    (hdone : d.status = some adDone) :
    ∃ (closed : AdConn) (world' : σ) (pre : List Output),
      connCb server event conn world = (initAfterReset server closed world').after pre := by
  have he' : CbEvent event := he.imp_right Or.inl
  by_cases hst : conn.status = adOk ∨ conn.status = adTakeover
  swap
  · rw [connCb, if_neg hst] at htr
    exact absurd hserved (connCbEnd_head he' htr)
  obtain ⟨d', -, -, ⟨-, hnone, -⟩ | ⟨st, conn', world', hst', hrun⟩⟩ :=
    connCb_serves server event hst world
  · rw [hnone] at hconn
    cases hconn
  rw [hrun] at hconn htr ⊢
  -- the status of the first dispatch is the one that was asked for
  have hsame : d' = d := by
    have hhead := (List.cons_eq_cons.1 htr).1
    simpa using hhead
  have hstdone : st = adDone := by
    rw [hsame, hdone] at hst'
    exact (Option.some.inj hst').symm
  rw [hstdone, connCbEnd, if_pos rfl, if_pos hp] at hconn ⊢
  obtain ⟨d₂, -, -, ⟨-, hnone, -⟩ | ⟨_, closed, world₂, -, -, hrun₂⟩⟩ :=
    dispatch_cases server (evClose false) { conn' with status := adDone } world'
      fun _ conn world =>
        (dispatch server evInit (connReset conn).1 world fun _ conn world =>
          ⟨some conn, world, []⟩).after (connReset conn).2
  · rw [Session.after, hnone] at hconn
    cases hconn
  · rw [hrun₂]
    refine ⟨closed, world₂, .dispatch d' :: .dispatch d₂ :: (connReset closed).2, ?_⟩
    simp [Session.after, initAfterReset]

theorem finishes_reset (hp : server.pipelining = true) {s : Session σ} {c : Callback}
    (h : s.Finishes server c) :
    ∃ (closed : AdConn) (world : σ) (pre : List Output),
      s.step server c = (initAfterReset server closed world).after pre := by
  obtain ⟨hsome, d, post, htr, hserved, hdone⟩ := h
  unfold Session.step at hsome htr ⊢
  cases hs : s.conn with
  | none =>
    rw [hs] at hsome
    simp [hs] at hsome
  | some conn =>
    simp only [hs] at hsome htr ⊢
    have htr' : (callback server c conn s.world).trace = .dispatch d :: post :=
      List.append_cancel_left htr
    -- the callback itself goes on from the reset
    have hcb : ∃ (closed : AdConn) (world : σ) (pre : List Output),
        callback server c conn s.world = (initAfterReset server closed world).after pre := by
      cases c with
      | read seg =>
        have hrun : callback server (.read seg) conn s.world =
            connCb server evRead { conn with inb := conn.inb ++ seg } s.world := rfl
        rw [hrun] at hsome htr' ⊢
        exact connCb_finishes hp (Or.inl rfl) hsome htr' hserved hdone
      | write => exact connCb_finishes hp (Or.inr rfl) hsome htr' hserved hdone
      | event what =>
        by_cases hw : what.eof ∨ what.error ∨ what.timeout
        · rw [callback_hangUp server hw] at htr'
          exact absurd hserved (connCbEnd_head (Or.inr (Or.inr ⟨_, rfl⟩)) htr')
        · rw [callback, connEventCb, if_neg hw] at htr'
          cases htr'
      | drain n => cases htr'
    obtain ⟨closed, world, pre, hrun⟩ := hcb
    refine ⟨closed, world, s.trace ++ pre, ?_⟩
    rw [hrun]
    simp [Session.after]

theorem step_after (s : Session σ) (out : List Output) (c : Callback) :
    (s.after out).step server c = (s.step server c).after out := by
  unfold Session.step
  cases hs : s.conn with
  | none => simp [Session.after, hs]
  | some conn => simp [Session.after, hs]

theorem foldl_step_after (s : Session σ) (out : List Output) (cs : List Callback) :
    cs.foldl (Session.step server) (s.after out) = (cs.foldl (Session.step server) s).after out := by
  induction cs generalizing s with
  | nil => rfl
  | cons c cs ih => rw [List.foldl_cons, step_after, ih, List.foldl_cons]

end

/-- From the `AD_EVENT_INIT` that ends a run on, whatever callbacks follow: what happens, and the
connection, are those of a new connection whose buffers hold what was left in them. -/
def Isolated (server : AdServer Unit) (cs : List Callback) : Prop :=
  ∃ (before : List Output) (init : Dispatch),
    (session server () cs).trace = before ++ [.dispatch init] ∧ init.event = evInit ∧
      ∀ later : List Callback, ∃ rest : List Output,
        let fresh := later.foldl (Session.step server)
          (connNew server init.before.inb init.before.out ())
        (session server () (cs ++ later)).trace = before ++ rest ∧
          rest.map Output.shown = fresh.trace.map Output.shown ∧
          (session server () (cs ++ later)).conn.map AdConn.shown = fresh.conn.map AdConn.shown

/-- A request on a reused connection is served like one on a new connection, by all hooks that do not
look at the free callback of an empty slot. -/
theorem isolated_of_blind [UrlDecoder] {server : AdServer Unit} {hooks : List (AdHook Unit)}
    (hs : server.hooks = httpHook (fun _ => true) :: hooks) (hp : server.pipelining = true)
    (hq : ∀ hook ∈ hooks, hook.QuietInit) (hb : ∀ hook ∈ hooks, hook.Blind) {cs : List Callback}
    {c : Callback} (hc : (session server () cs).Finishes server c) : Isolated server (cs ++ [c]) := by
  have hq' : ∀ hook ∈ server.hooks, hook.QuietInit := by
    rw [hs, List.forall_mem_cons]
    exact ⟨httpHook_quietInit, hq⟩
  have hb' : ∀ hook ∈ server.hooks, hook.Blind := by
    rw [hs, List.forall_mem_cons]
    exact ⟨httpHook_blind _, hb⟩
  obtain ⟨closed, world, pre, hrun⟩ := finishes_reset hp hc
  obtain ⟨init, hinit, hbefore, htr⟩ := initAfterReset_trace hq' closed world
  rw [← session_concat] at hrun
  refine ⟨pre, init, by rw [hrun, Session.after, htr], hinit, fun later => ?_⟩
  have hstart : (initAfterReset server closed world).shown =
      (connNew server init.before.inb init.before.out ()).shown := by
    rw [hbefore]
    exact initAfterReset_shown hb' hq' closed world
  have hlater := foldl_step_shown hb' hstart later
  have hall : session server () (cs ++ [c] ++ later) =
      (later.foldl (Session.step server) (initAfterReset server closed world)).after pre := by
    rw [← foldl_step_after, ← hrun, session_append]
  rw [hall]
  exact ⟨_, rfl, congrArg Session.trace hlater, congrArg Session.conn hlater⟩

/-- The outputs of a callback that starts with a served `AD_DONE`. -/
theorem finishes_of_head {σ : Type} {server : AdServer σ} {s : Session σ} {c : Callback}
    (hsome : (s.step server c).conn.isSome) {n : ℕ} (hn : n = s.trace.length)
    (h : (s.step server c).trace[n]?.any (fun
      | .dispatch d => decide ((d.event.read ∨ d.event.write) ∧ d.status = some adDone)
      | _ => false)) : s.Finishes server c := by
  refine ⟨hsome, ?_⟩
  obtain ⟨out, hout⟩ : ∃ out, (s.step server c).trace = s.trace ++ out := by
    unfold Session.step
    split
    · exact ⟨[], (List.append_nil _).symm⟩
    · exact ⟨_, rfl⟩
  rw [hout, hn, List.getElem?_append_right le_rfl, Nat.sub_self] at h
  cases out with
  | nil => cases h
  | cons o post =>
    cases o with
    | dispatch d =>
      have hd : Served d ∧ d.status = some adDone := by simpa [Served] using h
      exact ⟨d, post, hout, hd⟩
    | freeUserdata data freeCb => cases h
    | unreleased data => cases h
    | connFree => cases h

/-- A hook that attaches userdata and answers `AD_DONE` to what arrives, where `done` says so. -/
def answeringHook (done : ConnView → Bool) : UserHook Unit where
  method := none
  cb := some fun event conn world =>
    some (if event.read ∧ done conn.toConnView then ([.setUserdata (some 1) (some 1)], adDone, world)
      else ([], adOk, world))

/-- A server with pipelining and this hook. -/
def answeringServer (done : ConnView → Bool) : AdServer Unit where
  options := [(bytes "server.request_pipelining", bytes "1")]
  hooks := [@httpHook Unit percentDecoder fun _ => true, (answeringHook done).hook]

theorem answeringHook_quietInit (done : ConnView → Bool) :
    ∀ hook ∈ [(answeringHook done).hook], hook.QuietInit := by
  rintro hook hhook cb hcb conn world
  rw [List.mem_singleton.1 hhook] at hcb
  cases hcb
  exact ⟨⟨_, _, rfl, rfl⟩, rfl⟩

theorem answeringHook_blind (done : ConnView → Bool)
    (hdone : ∀ v v' : ConnView, v.shown = v'.shown → done v = done v') :
    ∀ hook ∈ [(answeringHook done).hook], hook.Blind := by
  rintro hook hhook
  rw [List.mem_singleton.1 hhook]
  apply UserHook.hook_blind
  rintro cb hcb event conn conn' world h
  cases hcb
  simp only [hdone _ _ (shown_view h)]

/-- The callback with a whole request. -/
def getRequest : Callback := .read (bytes "GET / HTTP/1.1\r\n\r\n")

/-- A hook that answers every request. -/
theorem isolated_answering : Isolated (answeringServer fun _ => true) [getRequest] := by
  have hfinish : (session (answeringServer fun _ => true) () []).Finishes
      (answeringServer fun _ => true) getRequest :=
    finishes_of_head (by decide +kernel) (n := 1) (by decide +kernel) (by decide +kernel)
  exact @isolated_of_blind percentDecoder _ _ rfl (by decide +kernel)
    (answeringHook_quietInit _) (answeringHook_blind (fun _ => true) fun _ _ _ => rfl) [] _ hfinish

/-- A hook that answers only where there is no free callback sees that there was an earlier request. -/
theorem free_callback_seen :
    let done : ConnView → Bool := fun v => v.userdata.freeCb = none
    (answeringServer done).hooks = @httpHook Unit percentDecoder (fun _ => true) ::
        [(answeringHook done).hook] ∧
      (answeringServer done).pipelining = true ∧
      (∀ hook ∈ [(answeringHook done).hook], hook.QuietInit) ∧
      (session (answeringServer done) () []).Finishes (answeringServer done) getRequest ∧
      ¬Isolated (answeringServer done) [getRequest] := by
  refine ⟨rfl, by decide +kernel, answeringHook_quietInit _,
    finishes_of_head (n := 1) (by decide +kernel) (by decide +kernel) (by decide +kernel), ?_⟩
  rintro ⟨before, init, htr, -, h⟩
  generalize hserver : answeringServer (fun v => decide (v.userdata.freeCb = none)) = server at htr h
  -- nothing is left in the buffers
  have hlast : (session server () [getRequest]).trace.getLast? = some (.dispatch init) := by
    rw [htr, List.getLast?_concat]
  have hempty : (session server () [getRequest]).trace.getLast?.all (fun
      | .dispatch d => decide (d.before.inb = [] ∧ d.before.out = [])
      | _ => true) := by
    rw [← hserver]
    decide +kernel
  have hbuf : init.before.inb = [] ∧ init.before.out = [] := by
    rw [hlast] at hempty
    simpa using hempty
  -- the same request again is answered on a new connection only
  have hbefore : before.length = 5 := by
    have hlen := congrArg List.length htr
    rw [List.length_append, ← hserver] at hlen
    have hsix : (session (answeringServer fun v => decide (v.userdata.freeCb = none)) ()
        [getRequest]).trace.length = 6 := by decide +kernel
    rw [hsix] at hlen
    simpa using hlen.symm
  obtain ⟨rest, hrest, hsame, -⟩ := h [getRequest]
  have hold := congrArg List.length hrest
  have hnew := congrArg List.length hsame
  rw [hbuf.1, hbuf.2] at hnew
  rw [List.length_append, hbefore, ← hserver] at hold
  rw [List.length_map, List.length_map, ← hserver] at hnew
  have hseven : (session (answeringServer fun v => decide (v.userdata.freeCb = none)) ()
      ([getRequest] ++ [getRequest])).trace.length = 7 := by decide +kernel
  have hsix : ([getRequest].foldl
      (Session.step (answeringServer fun v => decide (v.userdata.freeCb = none)))
      (connNew (answeringServer fun v => decide (v.userdata.freeCb = none)) [] [] ())).trace.length
        = 6 := by decide +kernel
  omega

end Asyncd
