import Asyncd.Server.Handler
import Asyncd.Server.Start

/-!
# The example servers

`helloworld_tcp_server.c` greets every client and closes the connection.  `helloworld_http_server.c` has
`ad_http_handler`, a hook that greets whoever sends a GET request, and a hook that refuses all others.
-/

open CString

namespace Asyncd

/-! ## Options -/

theorem setUndefinedOptions_hooks {σ : Type} (server : AdServer σ) :
    (setUndefinedOptions server).hooks = server.hooks := by
  unfold setUndefinedOptions
  generalize adServerOptions = options
  induction options generalizing server with
  | nil => rfl
  | cons e options ih =>
    rw [List.foldl_cons, ih]
    split_ifs <;> rfl

theorem setUndefinedOptions_options {σ ρ : Type} {server : AdServer σ} {server' : AdServer ρ}
    (h : server.options = server'.options) :
    (setUndefinedOptions server).options = (setUndefinedOptions server').options := by
  unfold setUndefinedOptions
  generalize adServerOptions = options
  induction options generalizing server server' with
  | nil => exact h
  | cons e options ih =>
    rw [List.foldl_cons, List.foldl_cons]
    apply ih
    have hget : adServerGetOption server e.1 = adServerGetOption server' e.1 := by
      rw [adServerGetOption, adServerGetOption, h]
    by_cases hnone : adServerGetOption server' e.1 = none
    · rw [if_pos (hget.trans hnone), if_pos hnone, adServerSetOption, adServerSetOption, h]
    · rw [if_neg (hget ▸ hnone), if_neg hnone]
      exact h

/-! ## `helloworld_tcp_server.c` -/

/-- `my_conn_handler`. -/
def myConnHandler (event : Event) (conn : AdConn) (world : Unit) : Option (ℤ × ConnView × Unit) :=
  if event.write then
    some (adClose, { conn.toConnView with out := conn.out ++ bytes "Hello World." }, world)
  else some (adOk, conn.toConnView, world)

/-- The server that `main` sets up, with the options that `ad_server_start` adds. -/
def helloworldTcpServer : AdServer Unit :=
  let server := adServerSetOption ⟨[], []⟩ (bytes "server.port") (bytes "2222")
  let server := adServerRegisterHook server (some myConnHandler)
  setUndefinedOptions server

theorem helloworldTcp_hooks : helloworldTcpServer.hooks = [⟨none, some myConnHandler⟩] :=
  setUndefinedOptions_hooks _

/-! ## `helloworld_http_server.c` -/

/-- `ad_http_get_status`. -/
def adHttpGetStatus (v : ConnView) : ReqStatus :=
  match v.httpState with
  | none => .error
  | some http => http.request.status

/-- `my_http_get_handler`. -/
def myHttpGetHandler : UserHook Unit where
  method := some (bytes "GET")
  cb := some fun event conn world =>
    if event.read then
      if adHttpGetStatus conn.toConnView = .done then
        conn.httpState.map fun http =>
          ([.respond (.response 200 (some (bytes "text/html")) (some (bytes "Hello World")) 11)],
            if adHttpIsKeepaliveRequest http then adDone else adClose, world)
      else some ([], adOk, world)
    else some ([], adOk, world)

/-- `my_http_default_handler`. -/
def myHttpDefaultHandler : UserHook Unit where
  method := none
  cb := some fun event conn world =>
    if event.read then
      if adHttpGetStatus conn.toConnView = .done then
        some ([.respond (.response 501 (some (bytes "text/html")) (some (bytes "Not implemented")) 15)],
          adClose, world)
      else some ([], adOk, world)
    else some ([], adOk, world)

section

variable [UrlDecoder]

/-- The server that `main` sets up, with the options that `ad_server_start` adds. -/
def helloworldHttpServer : AdServer Unit :=
  let server := adServerSetOption ⟨[], []⟩ (bytes "server.port") (bytes "8888")
  let server := adServerRegisterHook server (some (adHttpHandler fun _ => true))
  let server := adServerRegisterHookOnMethod server myHttpGetHandler.method myHttpGetHandler.hook.cb
  let server := adServerRegisterHook server myHttpDefaultHandler.hook.cb
  setUndefinedOptions server

theorem helloworldHttp_hooks :
    helloworldHttpServer.hooks = httpHook (fun _ => true) ::
      [myHttpGetHandler, myHttpDefaultHandler].map UserHook.hook :=
  setUndefinedOptions_hooks _

theorem helloworldHttp_pipelining : helloworldHttpServer.pipelining = true := by
  let blank : AdServer Unit := ⟨[(bytes "server.port", bytes "8888")], []⟩
  have hoptions : helloworldHttpServer.options = (setUndefinedOptions blank).options :=
    setUndefinedOptions_options rfl
  unfold AdServer.pipelining adServerGetOptionInt adServerGetOption
  rw [hoptions]
  decide +kernel

end

end Asyncd
