import Asyncd.Http.State

/-!
# Connections

The life of one connection under the callbacks of libevent: `conn_new`, `conn_cb`, `conn_reset`,
`conn_free` and `call_hooks`.  A hook is any function of the event and of the part of the connection it
can reach; `world` is whatever the hooks keep outside the connection.  A `Session` is the connection,
the world and the trace of what happened: each dispatch with the hooks it came to, the userdata that
was released, and the end of the connection.
-/

open CString

namespace Asyncd

/-! ## Events -/

/-- A set of `AD_EVENT_*` flags. -/
structure Event where
  init : Bool := false
  read : Bool := false
  write : Bool := false
  close : Bool := false
  timeout : Bool := false
  shutdown : Bool := false
  deriving DecidableEq, Repr

/-- `AD_EVENT_INIT`. -/
def evInit : Event := { init := true }

/-- `AD_EVENT_INIT | AD_EVENT_WRITE`. -/
def evInitWrite : Event := { init := true, write := true }

/-- `AD_EVENT_READ`. -/
def evRead : Event := { read := true }

/-- `AD_EVENT_WRITE`. -/
def evWrite : Event := { write := true }

/-- `AD_EVENT_CLOSE`, with `AD_EVENT_TIMEOUT` or not. -/
def evClose (timeout : Bool) : Event := { close := true, timeout := timeout }

/-- `AD_EVENT_CLOSE | AD_EVENT_SHUTDOWN`. -/
def evShutdown : Event := { close := true, shutdown := true }

/-- The flags of a bufferevent event that the code looks at. -/
structure BevEvent where
  eof : Bool := false
  error : Bool := false
  timeout : Bool := false
  deriving DecidableEq, Repr

/-! ## The connection -/

/-- What a userdata pointer points to: the HTTP state, or something of the user's. -/
inductive UserPtr
  | http (http : AdHttp)
  | user (p : ℕ)
  deriving DecidableEq

/-- A free callback: `http_free_cb`, or one of the user's. -/
inductive FreeCb
  | httpFree
  | user (k : ℕ)
  deriving DecidableEq

/-- `userdata[i]` and `userdata_free_cb[i]`. -/
structure Slot where
  data : Option UserPtr
  freeCb : Option FreeCb
  deriving DecidableEq

/-- The part of a connection that hooks reach: the buffers, `userdata[0]`, `userdata[1]` and the
method. -/
structure ConnView where
  inb : Bytes
  out : Bytes
  userdata : Slot
  extra : Slot
  method : Option Bytes
  deriving DecidableEq

/-- `struct ad_conn_s`, without the references to the server and to the bufferevent. -/
structure AdConn extends ConnView where
  status : ℤ
  deriving DecidableEq

/-- `ad_conn_set_userdata`. -/
def adConnSetUserdata (v : ConnView) (data : Option UserPtr) (freeCb : Option FreeCb) : ConnView :=
  { v with userdata := ⟨data, freeCb⟩ }

/-- `ad_conn_set_extra`. -/
def adConnSetExtra (v : ConnView) (data : Option UserPtr) (freeCb : Option FreeCb) : ConnView :=
  { v with extra := ⟨data, freeCb⟩ }

/-- `ad_conn_set_method`. -/
def adConnSetMethod (v : ConnView) (method : Option Bytes) : ConnView := { v with method := method }

/-! ## The server -/

/-- `ad_hook_t`; a hook that returns nothing ends the process. -/
structure AdHook (σ : Type) where
  method : Option Bytes
  cb : Option (Event → AdConn → σ → Option (ℤ × ConnView × σ))

/-- The options and hooks of `struct ad_server_s`. -/
structure AdServer (σ : Type) where
  options : List (Bytes × Bytes)
  hooks : List (AdHook σ)

/-- `ad_server_get_option`. -/
def adServerGetOption {σ : Type} (server : AdServer σ) (key : Bytes) : Option Bytes :=
  (server.options.find? fun e => e.1 = key).map (·.2)

/-- `ad_server_get_option_int`. -/
def adServerGetOptionInt {σ : Type} (server : AdServer σ) (key : Bytes) : ℤ :=
  ((adServerGetOption server key).map atoi).getD 0

/-- `ad_server_register_hook_on_method`. -/
def adServerRegisterHookOnMethod {σ : Type} (server : AdServer σ) (method : Option Bytes)
    (cb : Option (Event → AdConn → σ → Option (ℤ × ConnView × σ))) : AdServer σ :=
  { server with hooks := server.hooks ++ [⟨method, cb⟩] }

/-- `ad_server_register_hook`. -/
def adServerRegisterHook {σ : Type} (server : AdServer σ)
    (cb : Option (Event → AdConn → σ → Option (ℤ × ConnView × σ))) : AdServer σ :=
  adServerRegisterHookOnMethod server none cb

/-- Is `server.request_pipelining` on? -/
def AdServer.pipelining {σ : Type} (server : AdServer σ) : Bool :=
  adServerGetOptionInt server (bytes "server.request_pipelining") ≠ 0

/-! ## What happens -/

/-- A hook in the course of a dispatch: its place in the list, whether it was called or passed over for
its method, and the connection at that moment. -/
structure Visit where
  index : ℕ
  called : Bool
  conn : AdConn
  deriving DecidableEq

/-- A run of `call_hooks`: its event, the connection before, the hooks it came to, and the status it
returned, unless a hook ended the process. -/
structure Dispatch where
  event : Event
  before : AdConn
  visits : List Visit
  status : Option ℤ
  deriving DecidableEq

/-- An entry of the trace. -/
inductive Output
  | dispatch (d : Dispatch)
  | freeUserdata (data : UserPtr) (freeCb : FreeCb)
  | unreleased (data : UserPtr)
  | connFree
  deriving DecidableEq

/-- The connection while it exists, the world, and the trace. -/
structure Session (σ : Type) where
  conn : Option AdConn
  world : σ
  trace : List Output

/-- Put earlier outputs in front of the trace. -/
def Session.after {σ : Type} (out : List Output) (s : Session σ) : Session σ :=
  { s with trace := out ++ s.trace }

/-- `call_hooks` over the rest of the list: the status, the connection, the world and the visits. -/
def callHooksFrom {σ : Type} (event : Event) :
    ℕ → List (AdHook σ) → AdConn → σ → Option ℤ × AdConn × σ × List Visit
  | _, [], conn, world => (some adOk, conn, world, [])
  | i, hook :: hooks, conn, world =>
    match hook.cb with
    | none => callHooksFrom event (i + 1) hooks conn world
    | some cb =>
      if hook.method.isSome ∧ conn.method.isSome ∧ hook.method ≠ conn.method then
        let (status, conn', world', visits) := callHooksFrom event (i + 1) hooks conn world
        (status, conn', world', ⟨i, false, conn⟩ :: visits)
      else
        match cb event conn world with
        | none => (none, conn, world, [⟨i, true, conn⟩])
        | some (status, view, world') =>
          let conn' := { conn with toConnView := view }
          if status ≠ adOk then (some status, conn', world', [⟨i, true, conn⟩])
          else
            let (status, conn'', world'', visits) := callHooksFrom event (i + 1) hooks conn' world'
            (status, conn'', world'', ⟨i, true, conn⟩ :: visits)

section

variable {σ : Type} (server : AdServer σ)

/-- `call_hooks`. -/
def callHooks (event : Event) (conn : AdConn) (world : σ) : Option ℤ × AdConn × σ × List Visit :=
  callHooksFrom event 0 server.hooks conn world

/-- Call the hooks, put that on record, and go on unless the process has ended. -/
def dispatch (event : Event) (conn : AdConn) (world : σ) (next : ℤ → AdConn → σ → Session σ) :
    Session σ :=
  let (status, conn', world', visits) := callHooks server event conn world
  match status with
  | none => ⟨none, world', [.dispatch ⟨event, conn, visits, none⟩]⟩
  | some status =>
    (next status conn' world').after [.dispatch ⟨event, conn, visits, some status⟩]

/-- What `conn_reset` does to one slot. -/
def resetSlot (slot : Slot) : Slot × List Output :=
  match slot.data with
  | none => (slot, [])
  | some data =>
    match slot.freeCb with
    | some cb => ({ slot with data := none }, [.freeUserdata data cb])
    | none => ({ slot with data := none }, [.unreleased data])

/-- `conn_reset`. -/
def connReset (conn : AdConn) : AdConn × List Output :=
  let (userdata, out₀) := resetSlot conn.userdata
  let (extra, out₁) := resetSlot conn.extra
  ({ conn with status := adOk, userdata := userdata, extra := extra, method := none }, out₀ ++ out₁)

/-- The end of `conn_free`. -/
def connRelease (conn : AdConn) (world : σ) : Session σ :=
  ⟨none, world, (connReset conn).2 ++ [.connFree]⟩

/-- `conn_free`. -/
def connFree (conn : AdConn) (world : σ) : Session σ :=
  if conn.status ≠ adClose then
    dispatch server evShutdown conn world fun _ conn world => connRelease conn world
  else connRelease conn world

/-- `conn_new` on a bufferevent whose buffers hold `inb` and `out`. -/
def connNew (inb out : Bytes) (world : σ) : Session σ :=
  let conn : AdConn :=
    { inb := inb, out := out, userdata := ⟨none, none⟩, extra := ⟨none, none⟩, method := none,
      status := adOk }
  dispatch server evInitWrite conn world fun status conn world =>
    ⟨some { conn with status := status }, world, []⟩

/-- `conn_cb` after the first dispatch. -/
def connCbEnd (event : Event) (conn : AdConn) (world : σ) : Session σ :=
  if conn.status = adDone then
    if server.pipelining then
      dispatch server (evClose false) conn world fun _ conn world =>
        (dispatch server evInit (connReset conn).1 world fun _ conn world =>
          ⟨some conn, world, []⟩).after (connReset conn).2
    else if event = evRead then ⟨some { conn with inb := [] }, world, []⟩
    else ⟨some conn, world, []⟩
  else if conn.status = adClose then
    if conn.out = [] then
      dispatch server (if event.close then event else evClose false) conn world
        fun _ conn world => connFree server conn world
    else ⟨some conn, world, []⟩
  else ⟨some conn, world, []⟩

/-- `conn_cb`. -/
def connCb (event : Event) (conn : AdConn) (world : σ) : Session σ :=
  if conn.status = adOk ∨ conn.status = adTakeover then
    dispatch server event conn world fun status conn world =>
      connCbEnd server event
        (if ¬ (conn.status = adClose ∨ conn.status = adDone ∧ conn.status ≥ status) then
          { conn with status := status } else conn) world
  else connCbEnd server event conn world

/-- `conn_event_cb`. -/
def connEventCb (what : BevEvent) (conn : AdConn) (world : σ) : Session σ :=
  if what.eof ∨ what.error ∨ what.timeout then
    connCb server (evClose what.timeout) { conn with status := adClose } world
  else ⟨some conn, world, []⟩

/-- What libevent does with a connection: bytes arrive and `conn_read_cb` is called, `conn_write_cb` or
`conn_event_cb` is called, or the transport takes `n` bytes from the out buffer. -/
inductive Callback
  | read (seg : Bytes)
  | write
  | event (what : BevEvent)
  | drain (n : ℕ)
  deriving DecidableEq

/-- One callback on a connection that exists. -/
def callback (c : Callback) (conn : AdConn) (world : σ) : Session σ :=
  match c with
  | .read seg => connCb server evRead { conn with inb := conn.inb ++ seg } world
  | .write => connCb server evWrite conn world
  | .event what => connEventCb server what conn world
  | .drain n => ⟨some { conn with out := conn.out.drop n }, world, []⟩

/-- One callback in a session. -/
def Session.step (s : Session σ) (c : Callback) : Session σ :=
  match s.conn with
  | none => s
  | some conn => (callback server c conn s.world).after s.trace

/-- A run: a new connection, then the callbacks. -/
def session (world : σ) (cs : List Callback) : Session σ :=
  cs.foldl (Session.step server) (connNew server [] [] world)

theorem session_append (world : σ) (cs cs' : List Callback) :
    session server world (cs ++ cs') = cs'.foldl (Session.step server) (session server world cs) :=
  List.foldl_append

theorem session_concat (world : σ) (cs : List Callback) (c : Callback) :
    session server world (cs ++ [c]) = (session server world cs).step server c :=
  session_append server world cs [c]

end

end Asyncd
