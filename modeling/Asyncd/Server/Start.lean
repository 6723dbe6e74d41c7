import Asyncd.Server.Shutdown
import Asyncd.Lib.Runs

/-!
# Starting the server

`ad_server_start` creates an SSL context, an event base, a notification channel and a listener, each in
its turn, and may return at each of these places.  What becomes of the objects when the server is started
again and released at last: `starts_release_iff` says that they are all released unless a certificate
cannot be loaded or an address cannot be bound.
-/

open CString

namespace Asyncd

/-! ## Options -/

/-- `AD_SERVER_OPTIONS`, up to the end marker. -/
def adServerOptions : List (Bytes × Bytes) :=
  [(bytes "server.port", bytes "8888"),
    (bytes "server.addr", bytes "0.0.0.0"),
    (bytes "server.backlog", bytes "128"),
    (bytes "server.timeout", bytes "0"),
    (bytes "server.enable_ssl", bytes "0"),
    (bytes "server.ssl_cert", bytes "/usr/local/etc/ad_server/ad_server.crt"),
    (bytes "server.ssl_pkey", bytes "/usr/local/etc/ad_server/ad_server.key"),
    (bytes "server.request_pipelining", bytes "1"),
    (bytes "server.thread", bytes "0"),
    (bytes "server.free_on_stop", bytes "1")]

section

variable {σ : Type}

/-- `ad_server_set_option`. -/
def adServerSetOption (server : AdServer σ) (key value : Bytes) : AdServer σ :=
  { server with options := (key, value) :: server.options.filter fun e => e.1 ≠ key }

/-- `set_undefined_options`. -/
def setUndefinedOptions (server : AdServer σ) : AdServer σ :=
  adServerOptions.foldl
    (fun server e =>
      if adServerGetOption server e.1 = none then adServerSetOption server e.1 e.2 else server)
    server

/-- `sizeof(unixaddr.sun_path)`. -/
def sunPathSize : ℕ := 108

/-! ## Starts -/

/-- A call of `ad_server_start`: the server as the caller has set it up, what the libraries return
(`event_base_got_break` after the loop), and what the loop does. -/
structure Start (σ : Type) where
  server : AdServer σ
  useCertificateFile : Bool := true
  usePrivateKeyFile : Bool := true
  eventBaseNew : Bool := true
  evconnlistenerNewBind : Bool := true
  loop : List LoopStep := []
  gotBreak : Bool := false

/-- An option of the server after `set_undefined_options`. -/
def Start.option (start : Start σ) (key : String) : ℤ :=
  adServerGetOptionInt (setUndefinedOptions start.server) (bytes key)

/-- Is the address the path of a Unix socket that does not fit? -/
def Start.addrTooLong (start : Start σ) : Bool :=
  let addr := (adServerGetOption (setUndefinedOptions start.server) (bytes "server.addr")).getD []
  addr.head? = some 47 ∧ addr.length ≥ sunPathSize

/-- A server between calls, with the objects that have been created, and those that were live when the
pointer to them was overwritten. -/
structure Startable (σ : Type) extends Running σ where
  created : List Handle
  overwritten : List Handle

/-- Create an object. -/
def Startable.create (s : Startable σ) (handle : ℕ → Handle) : ℕ × Startable σ :=
  (s.created.length, { s with created := s.created ++ [handle s.created.length] })

/-- `init_ssl`.  The context is not released when a file cannot be loaded. -/
def initSsl (start : Start σ) (s : Startable σ) : Option ℕ × Startable σ :=
  let (sslctx, s) := s.create .sslctx
  if ¬start.useCertificateFile ∨ ¬start.usePrivateKeyFile then (none, s) else (some sslctx, s)

/-- The SSL part of `ad_server_start`; an error is a return of -1. -/
def startSsl (start : Start σ) (s : Startable σ) : Except (Startable σ) (Startable σ) :=
  if s.handles.sslctx = none ∧ start.option "server.enable_ssl" ≠ 0 then
    let (sslctx, s) := initSsl start s
    let s := { s with handles.sslctx := sslctx }
    if sslctx = none then .error s else .ok s
  else .ok s

/-- The event base. -/
def startEvbase (start : Start σ) (s : Startable σ) : Except (Startable σ) (Startable σ) :=
  if s.handles.evbase = none then
    if start.eventBaseNew then
      let (evbase, s) := s.create .evbase
      .ok { s with handles.evbase := some evbase }
    else .error s
  else .ok s

/-- The notification channel, whatever `server->notify_buffer` points to. -/
def startNotify (s : Startable σ) : Startable σ :=
  let old := s.handles.notifyBuffer
  let (notifyBuffer, s) := s.create .notifyBuffer
  { s with
    handles.notifyBuffer := some notifyBuffer
    overwritten := s.overwritten ++ (old.map .notifyBuffer).toList }

/-- The listener. -/
def startListener (start : Start σ) (s : Startable σ) : Except (Startable σ) (Startable σ) :=
  if s.handles.listener = none then
    if start.evconnlistenerNewBind then
      let (listener, s) := s.create .listener
      .ok { s with handles.listener := some listener }
    else .error s
  else .ok s

/-- `ad_server_start` before the server listens. -/
def startListening (start : Start σ) (s : Startable σ) : Except (Startable σ) (Startable σ) :=
  if start.addrTooLong then .error s
  else
    match startSsl start s with
    | .error s => .error s
    | .ok s =>
      match startEvbase start s with
      | .error s => .error s
      | .ok s => startListener start (startNotify s)

variable (calls : Handle → List LoopStep)

/-- `ad_server_start` when the server listens: the status, unless a hook ends the process. -/
def startLoop (start : Start σ) (s : Startable σ) : Option (ℤ × Startable σ) :=
  let server := setUndefinedOptions start.server
  if start.option "server.thread" ≠ 0 then
    let old := s.handles.thread
    let (thread, s) := s.create .thread
    some (0, { s with
      handles.thread := some thread
      overwritten := s.overwritten ++ (old.map .thread).toList })
  else do
    let r ← loopRun server s.toRunning start.loop
    let r ← closeServer server calls r
    let r ← if start.option "server.free_on_stop" ≠ 0 then adServerFree server calls r else pure r
    return (if start.gotBreak then -1 else 0, { s with toRunning := r })

/-- `ad_server_start`. -/
def adServerStart (start : Start σ) (s : Startable σ) : Option (ℤ × Startable σ) :=
  match startListening start s with
  | .error s => some (-1, s)
  | .ok s => startLoop calls start s

/-- Starts one after the other. -/
def startsRun (s : Startable σ) (starts : List (Start σ)) : Option (Startable σ) :=
  starts.foldlM (fun s start => (adServerStart calls start s).map (·.2)) s

/-- The server as `ad_server_new` makes it. -/
def adServerNew (world : σ) : Startable σ :=
  ⟨⟨⟨none, none, none, none, none⟩, [], [], world⟩, [], []⟩

/-! ## Failures -/

/-- The start does not run the loop in a thread, and does not release the server. -/
structure Start.Foreground (start : Start σ) : Prop where
  thread : start.option "server.thread" = 0
  free_on_stop : start.option "server.free_on_stop" = 0

/-- A certificate or its key is needed and cannot be loaded. -/
def Start.CertificateFails (start : Start σ) (s : Startable σ) : Prop :=
  ¬start.addrTooLong ∧ s.handles.sslctx = none ∧ start.option "server.enable_ssl" ≠ 0 ∧
    ¬(start.useCertificateFile ∧ start.usePrivateKeyFile)

/-- The start gets as far as the listener and cannot bind it. -/
def Start.BindFails (start : Start σ) (s : Startable σ) : Prop :=
  ¬start.addrTooLong ∧ ¬start.CertificateFails s ∧ (s.handles.evbase ≠ none ∨ start.eventBaseNew) ∧
    ¬start.evconnlistenerNewBind

/-! ## The objects -/

/-- The number that an object was given when it was created. -/
def Handle.id : Handle → Option ℕ
  | .notifyBuffer id | .listener id | .thread id | .evbase id | .sslctx id => some id
  | .server => none

/-- The objects that the pointers of the server lead to. -/
def Handles.live (h : Handles) : List Handle :=
  (h.notifyBuffer.map .notifyBuffer).toList ++ (h.listener.map .listener).toList ++
    (h.thread.map .thread).toList ++ (h.evbase.map .evbase).toList ++
    (h.sslctx.map .sslctx).toList

theorem Handles.count_live (h : Handles) (k : Handle) :
    h.live.count k = (h.notifyBuffer.map Handle.notifyBuffer).toList.count k +
      (h.listener.map Handle.listener).toList.count k + (h.thread.map Handle.thread).toList.count k +
        (h.evbase.map Handle.evbase).toList.count k + (h.sslctx.map Handle.sslctx).toList.count k := by
  simp only [Handles.live, List.count_append]

/-- The objects were numbered as they were created. -/
def Startable.Numbered (s : Startable σ) : Prop :=
  s.created.map Handle.id = (List.range s.created.length).map some

/-- From `s` to `s'`, every object that is created or released goes from one place to another: it is
released, live, overwritten, or one of `dropped`, to which no pointer is left. -/
structure Conserves (s s' : Startable σ) (dropped : List Handle) : Prop where
  numbered : s.Numbered → s'.Numbered
  count : ∀ h, s'.created.count h + (s.released.count h + s.handles.live.count h +
    s.overwritten.count h) = s.created.count h + (s'.released.count h + s'.handles.live.count h +
      s'.overwritten.count h) + dropped.count h

variable {calls} {start : Start σ} {s s' s'' : Startable σ} {dropped dropped' : List Handle}

theorem Conserves.refl (s : Startable σ) : Conserves s s [] := ⟨id, fun _ => rfl⟩

theorem Conserves.trans (h : Conserves s s' dropped) (h' : Conserves s' s'' dropped') :
    Conserves s s'' (dropped ++ dropped') := by
  refine ⟨fun hs => h'.numbered (h.numbered hs), fun k => ?_⟩
  have hk := h.count k
  have hk' := h'.count k
  rw [List.count_append]
  omega

theorem Conserves.of_create {handle : ℕ → Handle} (hid : ∀ n, (handle n).id = some n)
    (hcreated : s'.created = s.created ++ [handle s.created.length])
    (hcount : ∀ h, s.released.count h + s.handles.live.count h + s.overwritten.count h +
      [handle s.created.length].count h = s'.released.count h + s'.handles.live.count h +
        s'.overwritten.count h + dropped.count h) : Conserves s s' dropped := by
  constructor
  · intro hs
    rw [Startable.Numbered] at hs ⊢
    rw [hcreated, List.map_append, hs, List.length_append, List.length_singleton, List.range_succ,
      List.map_append, List.map_singleton, List.map_singleton, hid]
  · intro k
    have hk := hcount k
    rw [hcreated, List.count_append]
    omega

theorem Startable.Numbered.nodup (hs : s.Numbered) : s.created.Nodup ∧ Handle.server ∉ s.created := by
  constructor
  · apply List.Nodup.of_map Handle.id
    rw [hs]
    exact List.nodup_range.map (Option.some_injective ℕ)
  · intro hmem
    have hid := List.mem_map_of_mem (f := Handle.id) hmem
    rw [hs] at hid
    simp [Handle.id] at hid

/-! ## The parts of a start -/

/-- The stages of a start up to the event base leave the other pointers alone. -/
structure Keeps (s s' : Startable σ) : Prop where
  notifyBuffer : s'.handles.notifyBuffer = s.handles.notifyBuffer
  listener : s'.handles.listener = s.handles.listener
  thread : s'.handles.thread = s.handles.thread
  overwritten : s'.overwritten = s.overwritten

theorem Keeps.refl (s : Startable σ) : Keeps s s := ⟨rfl, rfl, rfl, rfl⟩

theorem Keeps.trans (h : Keeps s s') (h' : Keeps s' s'') : Keeps s s'' :=
  ⟨h'.notifyBuffer.trans h.notifyBuffer, h'.listener.trans h.listener, h'.thread.trans h.thread,
    h'.overwritten.trans h.overwritten⟩

theorem initSsl_of_loads (hload : start.useCertificateFile ∧ start.usePrivateKeyFile)
    (s : Startable σ) : initSsl start s = (some s.created.length, (s.create .sslctx).2) := by
  exact if_neg (by tauto)

theorem initSsl_of_fails (hload : ¬(start.useCertificateFile ∧ start.usePrivateKeyFile))
    (s : Startable σ) : initSsl start s = (none, (s.create .sslctx).2) := by
  exact if_pos (by tauto)

/-- Without a certificate the new context is dropped. -/
theorem startSsl_cases (haddr : ¬start.addrTooLong) (s : Startable σ) :
    (∃ s', startSsl start s = .error s' ∧ start.CertificateFails s ∧ Keeps s s' ∧
      ∃ sslctx, Conserves s s' [.sslctx sslctx]) ∨
    ∃ s', startSsl start s = .ok s' ∧ ¬start.CertificateFails s ∧ Keeps s s' ∧
      s'.handles.evbase = s.handles.evbase ∧ Conserves s s' [] := by
  unfold startSsl
  by_cases hneed : s.handles.sslctx = none ∧ start.option "server.enable_ssl" ≠ 0
  · rw [if_pos hneed]
    by_cases hload : start.useCertificateFile ∧ start.usePrivateKeyFile
    · rw [initSsl_of_loads hload]
      refine Or.inr ⟨_, rfl, fun hfail => hfail.2.2.2 hload, ⟨rfl, rfl, rfl, rfl⟩, rfl,
        .of_create (fun _ => rfl) rfl fun k => ?_⟩
      simp [Startable.create, Handles.count_live, hneed.1]
      omega
    · rw [initSsl_of_fails hload]
      refine Or.inl ⟨_, rfl, ⟨haddr, hneed.1, hneed.2, hload⟩, ⟨rfl, rfl, rfl, rfl⟩,
        s.created.length, .of_create (fun _ => rfl) rfl fun k => ?_⟩
      simp [Startable.create, Handles.count_live, hneed.1]
  · rw [if_neg hneed]
    exact Or.inr ⟨s, rfl, fun hfail => hneed ⟨hfail.2.1, hfail.2.2.1⟩, Keeps.refl s, rfl,
      Conserves.refl s⟩

theorem startEvbase_cases (start : Start σ) (s : Startable σ) :
    (startEvbase start s = .error s ∧ ¬(s.handles.evbase ≠ none ∨ start.eventBaseNew)) ∨
    ∃ s', startEvbase start s = .ok s' ∧ (s.handles.evbase ≠ none ∨ start.eventBaseNew) ∧
      Keeps s s' ∧ Conserves s s' [] := by
  unfold startEvbase
  split_ifs with hneed hnew
  · refine Or.inr ⟨_, rfl, Or.inr hnew, ⟨rfl, rfl, rfl, rfl⟩,
      .of_create (fun _ => rfl) rfl fun k => ?_⟩
    simp [Handles.count_live, hneed]
    omega
  · exact Or.inl ⟨rfl, by tauto⟩
  · exact Or.inr ⟨s, rfl, Or.inl hneed, Keeps.refl s, Conserves.refl s⟩

theorem startNotify_conserves (s : Startable σ) : Conserves s (startNotify s) [] := by
  apply Conserves.of_create (fun _ => rfl) rfl
  intro k
  simp [startNotify, Startable.create, Handles.count_live]
  omega

theorem startListener_cases (start : Start σ) (hneed : s.handles.listener = none) :
    (startListener start s = .error s ∧ ¬start.evconnlistenerNewBind) ∨
    ∃ s', startListener start s = .ok s' ∧ start.evconnlistenerNewBind ∧ Conserves s s' [] ∧
      s'.overwritten = s.overwritten := by
  unfold startListener
  rw [if_pos hneed]
  split_ifs with hbind
  · refine Or.inr ⟨_, rfl, hbind, .of_create (fun _ => rfl) rfl fun k => ?_, rfl⟩
    simp [Handles.count_live, hneed]
    omega
  · exact Or.inl ⟨rfl, hbind⟩

theorem loopStep_handles {server : AdServer σ} {r r' : Running σ} {step : LoopStep}
    (h : loopStep server r step = some r') : r'.handles = r.handles ∧ r'.released = r.released := by
  cases step with
  | accept =>
    simp only [loopStep, Option.ite_none_left_eq_some, Option.some.injEq] at h
    rw [← h.2]
    exact ⟨rfl, rfl⟩
  | callback k c =>
    rw [loopStep] at h
    split at h
    · cases h
      exact ⟨rfl, rfl⟩
    · simp only [Option.ite_none_left_eq_some, Option.some.injEq] at h
      rw [← h.2]
      exact ⟨rfl, rfl⟩

/-- The loop neither creates nor releases. -/
theorem loopRun_handles {server : AdServer σ} {r r' : Running σ} {steps : List LoopStep}
    (h : loopRun server r steps = some r') : r'.handles = r.handles ∧ r'.released = r.released := by
  refine loopRun_rule server
    (I := fun r' => r'.handles = r.handles ∧ r'.released = r.released) ?_ ⟨rfl, rfl⟩ h
  intro r₁ r₂ step h₁ hstep
  have h₂ := loopStep_handles hstep
  exact ⟨h₂.1.trans h₁.1, h₂.2.trans h₁.2⟩

theorem startLoop_spec (hcalls : ∀ h, calls h = []) (hfore : start.Foreground) {status : ℤ}
    (h : startLoop calls start s = some (status, s')) :
    s'.handles.notifyBuffer = none ∧ s'.handles.listener = none ∧ s'.handles.thread = none ∧
      s'.overwritten = s.overwritten ∧ Conserves s s' [] := by
  unfold startLoop at h
  rw [if_neg (not_not.2 hfore.thread)] at h
  simp only [if_neg (not_not.2 hfore.free_on_stop), closeServer_eq _ hcalls, Option.bind_eq_bind,
    Option.bind_eq_some_iff, Option.pure_def, Option.some.injEq, Prod.mk.injEq] at h
  rcases h with ⟨r, hrun, _, rfl, _, rfl, -, rfl⟩
  rcases loopRun_handles hrun with ⟨hhandles, hreleased⟩
  refine ⟨rfl, rfl, rfl, rfl, id, fun k => ?_⟩
  simp [Handles.count_live, hhandles, hreleased]
  omega

/-! ## A start -/

/-- Between the starts, there is neither a listener nor a thread. -/
structure Startable.Idle (s : Startable σ) : Prop where
  listener : s.handles.listener = none
  thread : s.handles.thread = none

/-- No notification channel is left over. -/
structure Startable.Clean (s : Startable σ) : Prop where
  notifyBuffer : s.handles.notifyBuffer = none
  overwritten : s.overwritten = []

theorem Keeps.idle (h : Keeps s s') (hs : s.Idle) : s'.Idle :=
  ⟨h.listener.trans hs.listener, h.thread.trans hs.thread⟩

theorem Keeps.clean_iff (h : Keeps s s') : s'.Clean ↔ s.Clean :=
  ⟨fun hs => ⟨h.notifyBuffer.symm.trans hs.notifyBuffer, h.overwritten.symm.trans hs.overwritten⟩,
    fun hs => ⟨h.notifyBuffer.trans hs.notifyBuffer, h.overwritten.trans hs.overwritten⟩⟩

/-- What a call does to the objects: a channel is left over exactly if the address cannot be bound, and
an object is dropped exactly if the certificate cannot be loaded. -/
structure Outcome (certificateFails bindFails : Prop) (s s' : Startable σ) : Prop where
  idle : s'.Idle
  clean_iff : s'.Clean ↔ s.Clean ∧ ¬bindFails
  conserves : ∃ dropped, Conserves s s' dropped ∧ (dropped = [] ↔ ¬certificateFails)

/-- The start returns before the server listens, or the server listens: then the old channel has been
overwritten, and the objects are there. -/
theorem startListening_cases (start : Start σ) (hidle : s.Idle) :
    (∃ s', startListening start s = .error s' ∧
      Outcome (start.CertificateFails s) (start.BindFails s) s s') ∨
    ∃ s', startListening start s = .ok s' ∧ ¬start.BindFails s ∧ ¬start.CertificateFails s ∧
      Conserves s s' [] ∧ (s'.overwritten = [] ↔ s.Clean) := by
  unfold startListening
  by_cases haddr : start.addrTooLong
  · have hbind : ¬start.BindFails s := fun hfail => hfail.1 haddr
    have hcert : ¬start.CertificateFails s := fun hfail => hfail.1 haddr
    rw [if_pos haddr]
    exact Or.inl ⟨s, rfl, hidle, (and_iff_left hbind).symm, [], Conserves.refl s,
      iff_of_true rfl hcert⟩
  rw [if_neg haddr]
  rcases startSsl_cases haddr s with
    ⟨s₁, hssl, hcert, hkeeps, sslctx, hcons⟩ | ⟨s₁, hssl, hcert, hkeeps, hevbase, hcons⟩
  · have hbind : ¬start.BindFails s := fun hfail => hfail.2.1 hcert
    rw [hssl]
    exact Or.inl ⟨s₁, rfl, hkeeps.idle hidle, hkeeps.clean_iff.trans (and_iff_left hbind).symm, _,
      hcons, iff_of_false (List.cons_ne_nil _ _) (not_not.2 hcert)⟩
  simp only [hssl]
  rcases startEvbase_cases start s₁ with ⟨hbase, hfail⟩ | ⟨s₂, hbase, hready, hkeeps', hcons'⟩
  · rw [hevbase] at hfail
    have hbind : ¬start.BindFails s := fun hfail' => hfail hfail'.2.2.1
    rw [hbase]
    exact Or.inl ⟨s₁, rfl, hkeeps.idle hidle, hkeeps.clean_iff.trans (and_iff_left hbind).symm, _,
      hcons, iff_of_true rfl hcert⟩
  simp only [hbase]
  rw [hevbase] at hready
  have hkeeps₂ := hkeeps.trans hkeeps'
  have hidle₂ := hkeeps₂.idle hidle
  have hcons₂ := (hcons.trans hcons').trans (startNotify_conserves s₂)
  rcases startListener_cases start (s := startNotify s₂) hidle₂.listener with
    ⟨hlisten, hfail⟩ | ⟨s₃, hlisten, hbind, hcons₃, hover⟩
  · refine Or.inl ⟨_, hlisten, ⟨hidle₂.listener, hidle₂.thread⟩, iff_of_false ?_ ?_, _, hcons₂,
      iff_of_true rfl hcert⟩
    · intro hclean
      cases hclean.notifyBuffer
    · exact fun hclean => hclean.2 ⟨haddr, hcert, hready, hfail⟩
  · refine Or.inr ⟨s₃, hlisten, fun hfail => hfail.2.2.2 hbind, hcert, hcons₂.trans hcons₃, ?_⟩
    rw [hover, ← hkeeps₂.clean_iff]
    change s₂.overwritten ++ (s₂.handles.notifyBuffer.map Handle.notifyBuffer).toList = [] ↔ _
    rw [List.append_eq_nil_iff, Option.toList_eq_nil_iff, Option.map_eq_none_iff]
    exact ⟨fun hs => ⟨hs.2, hs.1⟩, fun hs => ⟨hs.overwritten, hs.notifyBuffer⟩⟩

theorem adServerStart_outcome (hcalls : ∀ h, calls h = []) (hfore : start.Foreground)
    (hidle : s.Idle) {status : ℤ} (h : adServerStart calls start s = some (status, s')) :
    Outcome (start.CertificateFails s) (start.BindFails s) s s' := by
  unfold adServerStart at h
  rcases startListening_cases start hidle with
    ⟨s₁, hlisten, hout⟩ | ⟨s₁, hlisten, hbind, hcert, hcons, hover⟩
  · rw [hlisten] at h
    cases h
    exact hout
  · rw [hlisten] at h
    rcases startLoop_spec hcalls hfore h with ⟨hnotify, hlistener, hthread, hover', hcons'⟩
    refine ⟨⟨hlistener, hthread⟩, ?_, _, hcons.trans hcons', iff_of_true rfl hcert⟩
    rw [and_iff_left hbind, ← hover, ← hover']
    exact ⟨fun hs => hs.overwritten, fun hs => ⟨hnotify, hs⟩⟩

/-! ## Release -/

/-- What becomes of an object when `ad_server_free` has released the event base and the context: it is
released, or left over. -/
theorem Conserves.count_released {world : σ} (h : Conserves (adServerNew world) s dropped)
    (hidle : s.Idle) {k : Handle} (hk : k ∈ s.created) :
    (s.released ++ (s.handles.evbase.map Handle.evbase).toList ++
        (s.handles.sslctx.map Handle.sslctx).toList ++ [Handle.server]).count k +
      ((s.handles.notifyBuffer.map Handle.notifyBuffer).toList.count k + s.overwritten.count k +
        dropped.count k) = 1 := by
  rcases (h.numbered rfl).nodup with ⟨hnodup, hserver⟩
  have hne : Handle.server ≠ k := fun e => hserver (e ▸ hk)
  have hone := List.count_eq_one_of_mem hnodup hk
  have hcount := h.count k
  rw [Handles.count_live, Handles.count_live, hidle.listener, hidle.thread, hone] at hcount
  simp only [adServerNew, List.count_append, List.count_singleton, beq_iff_eq, if_neg hne,
    Option.map_none, Option.toList_none, List.count_nil] at hcount ⊢
  omega

theorem Conserves.mem_created {world : σ} (h : Conserves (adServerNew world) s dropped) {k : Handle}
    (hk : k ∈ (s.handles.notifyBuffer.map Handle.notifyBuffer).toList ∨ k ∈ dropped) :
    k ∈ s.created := by
  have hpos : 0 < s.handles.live.count k + dropped.count k := by
    rcases hk with hk | hk
    · have := List.count_pos_iff.2 hk
      rw [Handles.count_live]
      omega
    · have := List.count_pos_iff.2 hk
      omega
  have hcount := h.count k
  rw [← List.count_pos_iff]
  simp only [adServerNew, List.count_nil, Handles.count_live, Option.map_none,
    Option.toList_none] at hcount hpos
  omega

/-- Everything is released once exactly if nothing is left over. -/
theorem Conserves.released_once_iff {world : σ} (h : Conserves (adServerNew world) s dropped)
    (hidle : s.Idle) :
    (∀ k ∈ s.created, (s.released ++ (s.handles.evbase.map Handle.evbase).toList ++
        (s.handles.sslctx.map Handle.sslctx).toList ++ [Handle.server]).count k = 1) ∧
      s.overwritten = [] ↔ dropped = [] ∧ s.Clean := by
  constructor
  · rintro ⟨honce, hover⟩
    have hnone : ∀ k, k ∉ (s.handles.notifyBuffer.map Handle.notifyBuffer).toList ∧ k ∉ dropped := by
      intro k
      rw [← not_or]
      intro hk
      have hcreated := h.mem_created hk
      have hcount := h.count_released hidle hcreated
      rw [honce k hcreated] at hcount
      rcases hk with hk | hk
      · have := List.count_pos_iff.2 hk
        omega
      · have := List.count_pos_iff.2 hk
        omega
    refine ⟨List.eq_nil_iff_forall_not_mem.2 fun k => (hnone k).2, ?_, hover⟩
    have hnil := List.eq_nil_iff_forall_not_mem.2 fun k => (hnone k).1
    rwa [Option.toList_eq_nil_iff, Option.map_eq_none_iff] at hnil
  · rintro ⟨rfl, hclean⟩
    refine ⟨fun k hk => ?_, hclean.overwritten⟩
    have hcount := h.count_released hidle hk
    rw [hclean.notifyBuffer, hclean.overwritten] at hcount
    exact hcount

/-! ## Every run -/

section

variable {α : Type} {run : Startable σ → α → Option (Startable σ)}
  (certificateFails bindFails : α → Startable σ → Prop) {world : σ} {cs : List α}

/-- Along every run of calls, the objects are accounted for, and nothing is left behind exactly if no
call leaves anything. -/
theorem objects_run
    (hout : ∀ c ∈ cs, ∀ {s s'}, s.Idle → run s c = some s' →
      Outcome (certificateFails c s) (bindFails c s) s s')
    (hrun : cs.foldlM run (adServerNew world) = some s) :
    s.Idle ∧ ∃ dropped, Conserves (adServerNew world) s dropped ∧
      (dropped = [] ∧ s.Clean ↔
        Runs.Steps (fun pre c => ¬∃ s, pre.foldlM run (adServerNew world) = some s ∧
          (certificateFails c s ∨ bindFails c s)) cs) := by
  induction cs using List.reverseRecOn generalizing s with
  | nil =>
    obtain rfl : adServerNew world = s := Option.some.inj hrun
    have hclean : (adServerNew world).Clean := ⟨rfl, rfl⟩
    exact ⟨⟨rfl, rfl⟩, [], Conserves.refl _, iff_of_true ⟨rfl, hclean⟩ (Runs.steps_nil _)⟩
  | append_singleton pre c ih =>
    rw [List.foldlM_append, Option.bind_eq_bind, Option.bind_eq_some_iff] at hrun
    rcases hrun with ⟨s₀, hpre, hlast⟩
    have hlast' : run s₀ c = some s := by simpa using hlast
    rw [List.forall_mem_append, List.forall_mem_singleton] at hout
    rcases ih hout.1 hpre with ⟨hidle, dropped, hcons, hiff⟩
    have hone := hout.2 hidle hlast'
    rcases hone.conserves with ⟨dropped', hcons', hcert⟩
    have hleaves : (∃ s, pre.foldlM run (adServerNew world) = some s ∧
        (certificateFails c s ∨ bindFails c s)) ↔ certificateFails c s₀ ∨ bindFails c s₀ := by
      simp [hpre]
    refine ⟨hone.idle, dropped ++ dropped', hcons.trans hcons', ?_⟩
    rw [Runs.steps_concat_iff, ← hiff, hleaves, List.append_eq_nil_iff, hone.clean_iff, hcert,
      not_or]
    exact and_and_and_comm

/-- A run of calls, and `ad_server_free` at last. -/
theorem objects_released_iff (hcalls : ∀ h, calls h = [])
    (hout : ∀ c ∈ cs, ∀ {s s'}, s.Idle → run s c = some s' →
      Outcome (certificateFails c s) (bindFails c s) s s')
    (hrun : cs.foldlM run (adServerNew world) = some s) (server : AdServer σ) :
    ∃ s', adServerFree server calls s.toRunning = some s' ∧
      ((∀ h ∈ s.created, s'.released.count h = 1) ∧ s.overwritten = [] ↔
        Runs.Steps (fun pre c => ¬∃ s, pre.foldlM run (adServerNew world) = some s ∧
          (certificateFails c s ∨ bindFails c s)) cs) := by
  rcases objects_run certificateFails bindFails hout hrun with ⟨hidle, dropped, hcons, hiff⟩
  refine ⟨_, adServerFree_eq server hcalls hidle.thread, ?_⟩
  rw [← hiff]
  exact hcons.released_once_iff hidle

end

theorem starts_outcome (hcalls : ∀ h, calls h = []) {starts : List (Start σ)}
    (hfore : ∀ start ∈ starts, start.Foreground) :
    ∀ start ∈ starts, ∀ {s s' : Startable σ}, s.Idle →
      (adServerStart calls start s).map (·.2) = some s' →
        Outcome (start.CertificateFails s) (start.BindFails s) s s' := by
  intro start hstart s s' hidle h
  rcases Option.map_eq_some_iff.1 h with ⟨⟨status, s₁⟩, hone, rfl⟩
  exact adServerStart_outcome hcalls (hfore start hstart) hidle hone

theorem startsRun_conserves (hcalls : ∀ h, calls h = []) {world : σ} {starts : List (Start σ)}
    (hfore : ∀ start ∈ starts, start.Foreground)
    (hrun : startsRun calls (adServerNew world) starts = some s) :
    s.Idle ∧ ∃ dropped, Conserves (adServerNew world) s dropped := by
  rcases objects_run Start.CertificateFails Start.BindFails (starts_outcome hcalls hfore) hrun with
    ⟨hidle, dropped, hcons, -⟩
  exact ⟨hidle, dropped, hcons⟩

/-- A start that leaves an object behind: the certificate cannot be loaded, or the address not bound. -/
def LeavesBehind (calls : Handle → List LoopStep) (world : σ) (pre : List (Start σ))
    (start : Start σ) : Prop :=
  ∃ s, startsRun calls (adServerNew world) pre = some s ∧
    (start.CertificateFails s ∨ start.BindFails s)

end

/-- Starts in the foreground, and `ad_server_free` at last: every object that was created is released
once, and none was overwritten while it was live, in exactly the runs in which no start fails at the
certificate or at the listener. -/
theorem starts_release_iff {σ : Type} {calls : Handle → List LoopStep} (hcalls : ∀ h, calls h = [])
    {starts : List (Start σ)} (hfore : ∀ start ∈ starts, start.Foreground) {world : σ}
    {s : Startable σ} (hrun : startsRun calls (adServerNew world) starts = some s)
    (server : AdServer σ) :
    ∃ s', adServerFree server calls s.toRunning = some s' ∧
      ((∀ h ∈ s.created, s'.released.count h = 1) ∧ s.overwritten = [] ↔
        Runs.Steps (fun pre start => ¬LeavesBehind calls world pre start) starts) := by
  exact objects_released_iff Start.CertificateFails Start.BindFails hcalls (starts_outcome hcalls hfore)
    hrun server

/-- A server without hooks that is not released when it stops. -/
def hooklessServer : AdServer Unit where
  options := [(bytes "server.free_on_stop", bytes "0")]
  hooks := []

/-- A start that succeeds, if the address can be bound; a connection is accepted. -/
def hooklessStart (bound : Bool) : Start Unit :=
  { server := hooklessServer, evconnlistenerNewBind := bound, loop := [.accept] }

theorem hooklessStart_foreground (bound : Bool) : (hooklessStart bound).Foreground := by
  cases bound <;> exact ⟨by decide +kernel, by decide +kernel⟩

/-- A start that gets no event base. -/
def baselessStart : Start Unit := { server := hooklessServer, eventBaseNew := false }

/-- The first start gets no event base, and the second succeeds: its event base, its channel and its
listener are released. -/
theorem starts_release_retried :
    ∃ s s', startsRun (fun _ => []) (adServerNew ()) [baselessStart, hooklessStart true] = some s ∧
      s.created = [.evbase 0, .notifyBuffer 1, .listener 2] ∧
        adServerFree hooklessServer (fun _ => []) s.toRunning = some s' ∧
          (∀ h ∈ s.created, s'.released.count h = 1) ∧ s.overwritten = [] := by
  have hsome : ((startsRun (fun _ => []) (adServerNew ()) [baselessStart, hooklessStart true]).map
      fun s => s.created) = some [.evbase 0, .notifyBuffer 1, .listener 2] := by decide +kernel
  rcases Option.map_eq_some_iff.1 hsome with ⟨s, hrun, hcreated⟩
  have hfore : ∀ start ∈ [baselessStart, hooklessStart true], start.Foreground := by
    rw [List.forall_mem_cons, List.forall_mem_singleton]
    exact ⟨⟨by decide +kernel, by decide +kernel⟩, hooklessStart_foreground true⟩
  rcases starts_release_iff (fun _ => rfl) hfore hrun hooklessServer with ⟨s', hs', hiff⟩
  refine ⟨s, s', hrun, hcreated, hs', hiff.2 ?_⟩
  have hfirst : ¬LeavesBehind (fun _ => []) () [] baselessStart := by
    rintro ⟨s₀, hs₀, hfail | hfail⟩
    · exact hfail.2.2.1 (by decide +kernel)
    · exact hfail.2.2.2 rfl
  have hsecond : ¬LeavesBehind (fun _ => []) () [baselessStart] (hooklessStart true) := by
    rintro ⟨s₀, -, hfail | hfail⟩
    · exact hfail.2.2.1 (by decide +kernel)
    · exact hfail.2.2.2 rfl
  exact Runs.steps_concat_iff.2 ⟨Runs.steps_concat_iff.2 ⟨Runs.steps_nil _, hfirst⟩, hsecond⟩

/-- The address is in use when the server is started first.  The channel of that start is overwritten by
the second start, and never released. -/
theorem retried_start_leaks :
    ∃ s s', (∀ start ∈ [hooklessStart false, hooklessStart true], start.Foreground) ∧
      startsRun (fun _ => []) (adServerNew ()) [hooklessStart false, hooklessStart true] = some s ∧
        adServerFree hooklessServer (fun _ => []) s.toRunning = some s' ∧
          ¬((∀ h ∈ s.created, s'.released.count h = 1) ∧ s.overwritten = []) := by
  have hsome : ((startsRun (fun _ => []) (adServerNew ()) [hooklessStart false, hooklessStart true]).bind
      fun s => (adServerFree hooklessServer (fun _ => []) s.toRunning).map fun s' =>
        (s.created, s'.released, s.overwritten)) =
      some ([.evbase 0, .notifyBuffer 1, .notifyBuffer 2, .listener 3],
        [.notifyBuffer 2, .listener 3, .evbase 0, .server], [.notifyBuffer 1]) := by decide +kernel
  rcases Option.bind_eq_some_iff.1 hsome with ⟨s, hrun, hfree⟩
  rcases Option.map_eq_some_iff.1 hfree with ⟨s', hs', hlists⟩
  refine ⟨s, s', ?_, hrun, hs', ?_⟩
  · simp only [List.forall_mem_cons, hooklessStart_foreground, true_and]
    nofun
  · rintro ⟨-, hover⟩
    have hold : s.overwritten = [.notifyBuffer 1] := congrArg (·.2.2) hlists
    rw [hover] at hold
    cases hold

end Asyncd
