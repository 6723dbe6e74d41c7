import Asyncd.Http.Exits
import Asyncd.Http.Framing
import Asyncd.Server.Rule

/-!
# The HTTP handler and the hooks behind it

`ad_http_handler` as a hook, and hooks written by users: on an event such a hook makes calls of the
public functions and returns a status.  `adHttpHandler_read` says what the handler does with bytes that
arrived, and `callHooks_handler` that the other hooks see what it lets through.
-/

open CString

namespace Asyncd

/-! ## The HTTP state of a connection -/

/-- `ad_conn_get_extra`, as the HTTP functions use it: the HTTP state, if the slot points to one. -/
def ConnView.httpState (v : ConnView) : Option AdHttp :=
  match v.extra.data with
  | some (.http http) => some http
  | _ => none

/-- Put a new HTTP state in the place of the old one. -/
def ConnView.setHttp (v : ConnView) (http : AdHttp) : ConnView :=
  { v with extra.data := some (.http http) }

@[simp] theorem ConnView.setHttp_httpState (v : ConnView) (http : AdHttp) :
    (v.setHttp http).httpState = some http := rfl

/-! ## The handler -/

section

variable {σ : Type} [UrlDecoder]

/-- `ad_http_handler`; `alloc` tells whether the allocations of `http_new` succeed. -/
def adHttpHandler (alloc : σ → Bool) (event : Event) (conn : AdConn) (world : σ) :
    Option (ℤ × ConnView × σ) :=
  if event.init then
    match httpNew (alloc world) with
    | none => some (adClose, conn.toConnView, world)
    | some http =>
      some (adOk, adConnSetExtra conn.toConnView (some (.http http)) (some .httpFree), world)
  else if event.read then
    match conn.httpState with
    | none => none -- the assertion at the start of `http_parser`
    | some http =>
      match httpParser http conn.inb with
      | (.bugExit, _) => none
      | (.ret status, http, inb) =>
        let view := { conn.toConnView with inb := inb }.setHttp http
        let view :=
          if conn.method = none ∧ http.request.method ≠ none then
            adConnSetMethod view http.request.method
          else view
        some (status, view, world)
  else if event.write then some (adOk, conn.toConnView, world)
  else if event.close then some (adOk, conn.toConnView, world)
  else none

/-- The handler as it is registered. -/
def httpHook (alloc : σ → Bool) : AdHook σ := ⟨none, some (adHttpHandler alloc)⟩

/-- What the hooks reach of the connection after the parser has been called on its input buffer. -/
def afterParser (conn : AdConn) (http : AdHttp) : ConnView :=
  { conn.toConnView with
    inb := (httpParser http conn.inb).2.2
    method :=
      if conn.method = none then (httpParser http conn.inb).2.1.request.method
      else conn.method }.setHttp (httpParser http conn.inb).2.1

/-- On bytes that arrived, the handler calls the parser and returns what it returns. -/
theorem adHttpHandler_read (alloc : σ → Bool) {event : Event} (hi : event.init = false)
    (hr : event.read = true) {conn : AdConn} {http : AdHttp}
    (hx : conn.httpState = some http) (world : σ) :
    ∃ status, (httpParser http conn.inb).1 = .ret status ∧
      adHttpHandler alloc event conn world =
        some (status, afterParser conn http, world) := by
  obtain ⟨status, hret⟩ : ∃ status, (httpParser http conn.inb).1 = .ret status := by
    obtain h | h | h := httpParser_ret http conn.inb
    · exact ⟨_, h⟩
    · exact ⟨_, h⟩
    · exact ⟨_, h⟩
  refine ⟨status, hret, ?_⟩
  have heq : httpParser http conn.inb =
      (.ret status, (httpParser http conn.inb).2.1, (httpParser http conn.inb).2.2) := by
    rw [← hret]
  simp only [adHttpHandler, hi, hr, hx]
  rw [heq]
  by_cases hm : conn.method = none
  · by_cases hm' : (httpParser http conn.inb).2.1.request.method = none
    · simp [afterParser, hm, hm']
    · simp [afterParser, adConnSetMethod, ConnView.setHttp, hm, hm']
  · simp [afterParser, hm]

/-- Without an HTTP state, the assertion of the parser fails. -/
theorem adHttpHandler_read_none (alloc : σ → Bool) {event : Event} (hi : event.init = false)
    (hr : event.read = true) {conn : AdConn} (hx : conn.httpState = none) (world : σ) :
    adHttpHandler alloc event conn world = none := by
  simp only [adHttpHandler, hi, hr, hx]
  rfl

theorem adHttpHandler_idle (alloc : σ → Bool) {event : Event} (hi : event.init = false)
    (hr : event.read = false) {conn : AdConn} {world world' : σ} {status : ℤ} {view : ConnView}
    (h : adHttpHandler alloc event conn world = some (status, view, world')) :
    view = conn.toConnView := by
  simp only [adHttpHandler, hi, hr, Bool.false_eq_true, if_false] at h
  split_ifs at h <;> cases h <;> rfl

theorem callHooks_handler {server : AdServer σ} {alloc : σ → Bool} {hooks : List (AdHook σ)}
    (hs : server.hooks = httpHook alloc :: hooks) (event : Event) (conn : AdConn) (world : σ) :
    callHooks server event conn world =
      match adHttpHandler alloc event conn world with
      | none => (none, conn, world, [⟨0, true, conn⟩])
      | some (status, view, world) =>
        if status ≠ adOk then (some status, { conn with toConnView := view }, world, [⟨0, true, conn⟩])
        else
          let r := callHooksFrom event 1 hooks { conn with toConnView := view } world
          (r.1, r.2.1, r.2.2.1, ⟨0, true, conn⟩ :: r.2.2.2) := by
  rw [callHooks, hs]
  rfl

/-- A dispatch that the handler lets through goes on with the other hooks. -/
theorem callHooks_handler_ok {server : AdServer σ} {alloc : σ → Bool} {hooks : List (AdHook σ)}
    (hs : server.hooks = httpHook alloc :: hooks) {event : Event} {conn conn' : AdConn}
    {world world' world'' : σ} {view : ConnView} {status : Option ℤ} {visits : List Visit}
    (hrun : adHttpHandler alloc event conn world = some (adOk, view, world'))
    (hrest : callHooksFrom event 1 hooks { conn with toConnView := view } world' =
      (status, conn', world'', visits)) :
    callHooks server event conn world = (status, conn', world'', ⟨0, true, conn⟩ :: visits) := by
  rw [callHooks_handler hs, hrun]
  simp only [ne_eq, not_true_eq_false, if_false, hrest]

theorem callHooks_handler_stop {server : AdServer σ} {alloc : σ → Bool} {hooks : List (AdHook σ)}
    (hs : server.hooks = httpHook alloc :: hooks) {event : Event} {conn : AdConn}
    {world world' : σ} {view : ConnView} {status : ℤ}
    (hrun : adHttpHandler alloc event conn world = some (status, view, world'))
    (hne : status ≠ adOk) :
    callHooks server event conn world =
      (some status, { conn with toConnView := view }, world', [⟨0, true, conn⟩]) := by
  rw [callHooks_handler hs, hrun]
  simp only [if_pos hne]

end

/-! ## Hooks behind the handler -/

/-- What a hook may do with a connection: use its buffers, attach userdata, set its method, take bytes
of the request out, and respond. -/
inductive UserCall
  | addOut (data : Bytes)
  | drainIn (n : ℕ)
  | setUserdata (data : Option ℕ) (freeCb : Option ℕ)
  | setMethod (method : Option Bytes)
  | getContent (alloc : Bool) (maxsize : ℕ)
  | respond (call : ResponseCall)

/-- Work on the HTTP state of a connection.  Without one, the function dereferences NULL. -/
def ConnView.withHttp (v : ConnView) (f : AdHttp → Bytes → AdHttp × Bytes) : Option ConnView :=
  v.httpState.map fun http => { v with out := (f http v.out).2 }.setHttp (f http v.out).1

/-- One call. -/
def UserCall.run (v : ConnView) : UserCall → Option ConnView
  | .addOut data => some { v with out := v.out ++ data }
  | .drainIn n => some { v with inb := v.inb.drop n }
  | .setUserdata data freeCb => some (adConnSetUserdata v (data.map .user) (freeCb.map .user))
  | .setMethod method => some (adConnSetMethod v method)
  | .getContent alloc maxsize =>
    v.withHttp fun http out => ((httpGetContent alloc http maxsize).2, out)
  | .respond call => v.withHttp fun http out => call.run http out

/-- Several calls, one after the other. -/
def runCalls (v : ConnView) (calls : List UserCall) : Option ConnView := calls.foldlM UserCall.run v

theorem runCalls_cons {v v' : ConnView} {c : UserCall} (h : c.run v = some v')
    (calls : List UserCall) : runCalls v (c :: calls) = runCalls v' calls := by
  rw [runCalls, List.foldlM_cons, h]
  rfl

/-- A hook that makes calls and returns a status, or ends the process. -/
structure UserHook (σ : Type) where
  method : Option Bytes
  cb : Option (Event → AdConn → σ → Option (List UserCall × ℤ × σ))

/-- The hook as the server calls it. -/
def UserHook.hook {σ : Type} (hook : UserHook σ) : AdHook σ where
  method := hook.method
  cb := hook.cb.map fun cb event conn world => do
    let (calls, status, world) ← cb event conn world
    let view ← runCalls conn.toConnView calls
    return (status, view, world)

theorem UserHook.run {σ : Type} (hook : UserHook σ) {cb} (hcb : hook.cb = some cb) {event : Event}
    {conn : AdConn} {world world' : σ} {calls : List UserCall} {st : ℤ}
    (h : cb event conn world = some (calls, st, world')) {view : ConnView}
    (hview : runCalls conn.toConnView calls = some view) :
    ∃ cb', hook.hook.cb = some cb' ∧ cb' event conn world = some (st, view, world') := by
  refine ⟨_, congrArg (Option.map _) hcb, ?_⟩
  simp only [h, Option.bind_eq_bind, Option.bind_some, hview]
  rfl

/-! ## What hooks leave alone -/

/-- Status and method of the request, where there is an HTTP state. -/
def ConnView.outline (v : ConnView) : Option (ReqStatus × Option Bytes) :=
  v.httpState.map fun http => (http.request.status, http.request.method)

theorem httpGetContent_outline (alloc : Bool) (http : AdHttp) (maxsize : ℕ) :
    (httpGetContent alloc http maxsize).2.request.status = http.request.status ∧
      (httpGetContent alloc http maxsize).2.request.method = http.request.method := by
  unfold httpGetContent
  dsimp only
  split_ifs <;> exact ⟨rfl, rfl⟩

theorem withHttp_outline {v v' : ConnView} {f : AdHttp → Bytes → AdHttp × Bytes}
    (hf : ∀ http out, (f http out).1.request.status = http.request.status ∧
      (f http out).1.request.method = http.request.method) (h : v.withHttp f = some v') :
    v'.outline = v.outline ∧ v'.method = v.method := by
  obtain ⟨http, hx, rfl⟩ := Option.map_eq_some_iff.1 h
  refine ⟨?_, rfl⟩
  simp only [ConnView.outline, ConnView.setHttp_httpState, hx, Option.map_some, hf]

theorem UserCall.run_outline {v v' : ConnView} {c : UserCall} (h : c.run v = some v') :
    v'.outline = v.outline ∧ ((∀ m, c ≠ .setMethod m) → v'.method = v.method) := by
  cases c with
  | addOut data => cases h; exact ⟨rfl, fun _ => rfl⟩
  | drainIn n => cases h; exact ⟨rfl, fun _ => rfl⟩
  | setUserdata data freeCb => cases h; exact ⟨rfl, fun _ => rfl⟩
  | setMethod method => cases h; exact ⟨rfl, fun hc => absurd rfl (hc method)⟩
  | getContent alloc maxsize =>
    have := withHttp_outline (fun http out => httpGetContent_outline alloc http maxsize) h
    exact ⟨this.1, fun _ => this.2⟩
  | respond call =>
    have := withHttp_outline (f := fun http out => call.run http out)
      (fun http out => by rw [call.run_request]; exact ⟨rfl, rfl⟩) h
    exact ⟨this.1, fun _ => this.2⟩

theorem runCalls_outline {v v' : ConnView} {calls : List UserCall}
    (h : runCalls v calls = some v') :
    v'.outline = v.outline ∧ ((∀ m, .setMethod m ∉ calls) → v'.method = v.method) := by
  unfold runCalls at h
  induction calls generalizing v with
  | nil => cases h; exact ⟨rfl, fun _ => rfl⟩
  | cons c calls ih =>
    rw [List.foldlM_cons, Option.bind_eq_bind, Option.bind_eq_some_iff] at h
    obtain ⟨v₁, hc, h⟩ := h
    obtain ⟨hout, hmeth⟩ := UserCall.run_outline hc
    obtain ⟨hout', hmeth'⟩ := ih h
    refine ⟨hout'.trans hout, fun hno => ?_⟩
    simp only [List.mem_cons, not_or] at hno
    exact (hmeth' fun m => (hno m).2).trans (hmeth fun m => Ne.symm (hno m).1)

/-- The hook does not call `ad_conn_set_method`. -/
def UserHook.LeavesMethod {σ : Type} (hook : UserHook σ) : Prop :=
  ∀ cb, hook.cb = some cb → ∀ event conn world calls status world',
    cb event conn world = some (calls, status, world') → ∀ m, .setMethod m ∉ calls

/-- A hook of users leaves the outline of the request as it is, and the method if it does not set it. -/
theorem UserHook.cb_outline {σ : Type} {hook : UserHook σ} {cb}
    (hcb : hook.hook.cb = some cb) {event : Event} {conn : AdConn} {world world' : σ} {status : ℤ}
    {view : ConnView} (h : cb event conn world = some (status, view, world')) :
    view.outline = conn.outline ∧ (hook.LeavesMethod → view.method = conn.method) := by
  obtain ⟨cb', hcb', rfl⟩ := Option.map_eq_some_iff.1 hcb
  simp only [Option.bind_eq_bind, Option.bind_eq_some_iff, Option.pure_def, Option.some.injEq,
    Prod.mk.injEq, Prod.exists] at h
  obtain ⟨calls, st, world₁, hrun, view', hcalls, rfl, rfl, rfl⟩ := h
  obtain ⟨hout, hmeth⟩ := runCalls_outline hcalls
  exact ⟨hout, fun hno => hmeth (hno cb' hcb' _ _ _ _ _ _ hrun)⟩

end Asyncd
