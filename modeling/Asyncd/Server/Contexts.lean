import Asyncd.Server.Start

/-!
# SSL contexts

A user attaches contexts of his own with `ad_server_set_ssl_ctx`, which releases the one that was there,
and `ad_server_start` makes one only where there is none.  So with contexts from
`ad_server_ssl_ctx_create_simple`, attached at any time between starts, every object is released once,
in exactly the runs in which every certificate can be loaded and every address bound
(`attached_release_iff`).
-/

open CString

namespace Asyncd

section

variable {σ : Type}

/-! ## The functions -/

/-- `ad_server_ssl_ctx_create_simple`.  The context is not released when a file cannot be loaded. -/
def adServerSslCtxCreateSimple (useCertificateChainFile usePrivateKeyFile : Bool)
    (s : Startable σ) : Option ℕ × Startable σ :=
  let (sslctx, s) := s.create .sslctx
  if ¬useCertificateChainFile ∨ ¬usePrivateKeyFile then (none, s) else (some sslctx, s)

/-- `ad_server_get_ssl_ctx`. -/
def adServerGetSslCtx (s : Startable σ) : Option ℕ := s.handles.sslctx

/-- `ad_server_set_ssl_ctx`. -/
def adServerSetSslCtx (s : Startable σ) (sslctx : Option ℕ) : Startable σ :=
  { s with
    handles.sslctx := sslctx
    released := s.released ++ ((adServerGetSslCtx s).map .sslctx).toList }

/-- What a user does with a server: start it, or attach a new context. -/
inductive ServerCall (σ : Type)
  | start (how : Start σ)
  | attach (useCertificateChainFile usePrivateKeyFile : Bool)

/-- One call. -/
def ServerCall.run (calls : Handle → List LoopStep) (s : Startable σ) :
    ServerCall σ → Option (Startable σ)
  | .start how => (adServerStart calls how s).map (·.2)
  | .attach useCertificateChainFile usePrivateKeyFile =>
    let (sslctx, s) := adServerSslCtxCreateSimple useCertificateChainFile usePrivateKeyFile s
    some (adServerSetSslCtx s sslctx)

/-- Calls one after the other. -/
def serverCalls (calls : Handle → List LoopStep) (s : Startable σ) (cs : List (ServerCall σ)) :
    Option (Startable σ) :=
  cs.foldlM (ServerCall.run calls) s

/-- A start runs in the foreground. -/
def ServerCall.Foreground : ServerCall σ → Prop
  | .start how => how.Foreground
  | .attach _ _ => True

/-- The call needs a certificate that cannot be loaded. -/
def ServerCall.CertificateFails (s : Startable σ) : ServerCall σ → Prop
  | .start how => how.CertificateFails s
  | .attach useCertificateChainFile usePrivateKeyFile =>
    ¬(useCertificateChainFile ∧ usePrivateKeyFile)

/-- The call gets as far as the listener and cannot bind it. -/
def ServerCall.BindFails (s : Startable σ) : ServerCall σ → Prop
  | .start how => how.BindFails s
  | .attach _ _ => False

/-! ## A call -/

variable {calls : Handle → List LoopStep} {s s' : Startable σ}

/-- The context that was there is released, and the new one takes its place. -/
theorem attach_conserves_of_loads {useCertificateChainFile usePrivateKeyFile : Bool}
    (hload : useCertificateChainFile ∧ usePrivateKeyFile)
    (h : ServerCall.run calls s (.attach useCertificateChainFile usePrivateKeyFile) = some s') :
    Conserves s s' [] := by
  have hcreate : adServerSslCtxCreateSimple useCertificateChainFile usePrivateKeyFile s =
      (some s.created.length, (s.create .sslctx).2) := if_neg (by tauto)
  simp only [ServerCall.run, hcreate, Option.some.injEq] at h
  rw [← h]
  apply Conserves.of_create (fun _ => rfl) rfl
  intro k
  simp [adServerSetSslCtx, adServerGetSslCtx, Startable.create, Handles.count_live]
  omega

/-- Without a certificate the new context is dropped, and the server is left with none. -/
theorem attach_conserves_of_fails {useCertificateChainFile usePrivateKeyFile : Bool}
    (hload : ¬(useCertificateChainFile ∧ usePrivateKeyFile))
    (h : ServerCall.run calls s (.attach useCertificateChainFile usePrivateKeyFile) = some s') :
    Conserves s s' [.sslctx s.created.length] := by
  have hcreate : adServerSslCtxCreateSimple useCertificateChainFile usePrivateKeyFile s =
      (none, (s.create .sslctx).2) := if_pos (by tauto)
  simp only [ServerCall.run, hcreate, Option.some.injEq] at h
  rw [← h]
  apply Conserves.of_create (fun _ => rfl) rfl
  intro k
  simp [adServerSetSslCtx, adServerGetSslCtx, Startable.create, Handles.count_live]
  omega

theorem attach_keeps {useCertificateChainFile usePrivateKeyFile : Bool}
    (h : ServerCall.run calls s (.attach useCertificateChainFile usePrivateKeyFile) = some s') :
    Keeps s s' := by
  rw [ServerCall.run, adServerSslCtxCreateSimple] at h
  split_ifs at h
  · cases h
    exact ⟨rfl, rfl, rfl, rfl⟩
  · cases h
    exact ⟨rfl, rfl, rfl, rfl⟩

theorem ServerCall.run_outcome (hcalls : ∀ h, calls h = []) {c : ServerCall σ} (hfore : c.Foreground)
    (hidle : s.Idle) (h : c.run calls s = some s') :
    Outcome (c.CertificateFails s) (c.BindFails s) s s' := by
  cases c with
  | start how =>
    rw [ServerCall.run, Option.map_eq_some_iff] at h
    rw [ServerCall.Foreground] at hfore
    rcases h with ⟨⟨status, s₁⟩, hstart, rfl⟩
    have hout := adServerStart_outcome hcalls hfore hidle hstart
    exact ⟨hout.idle, hout.clean_iff, hout.conserves⟩
  | attach useCertificateChainFile usePrivateKeyFile =>
    have hkeeps := attach_keeps h
    refine ⟨hkeeps.idle hidle, hkeeps.clean_iff.trans (and_iff_left id).symm, ?_⟩
    by_cases hload : useCertificateChainFile ∧ usePrivateKeyFile
    · exact ⟨_, attach_conserves_of_loads hload h, iff_of_true rfl (not_not.2 hload)⟩
    · exact ⟨_, attach_conserves_of_fails hload h,
        iff_of_false (List.cons_ne_nil _ _) (not_not.2 hload)⟩

/-! ## Every run -/

/-- A call that leaves an object behind: a certificate cannot be loaded, or the address not bound. -/
def CallLeavesBehind (calls : Handle → List LoopStep) (world : σ) (pre : List (ServerCall σ))
    (c : ServerCall σ) : Prop :=
  ∃ s, serverCalls calls (adServerNew world) pre = some s ∧ (c.CertificateFails s ∨ c.BindFails s)

end

/-- Starts in the foreground and contexts attached between them, in any order, and `ad_server_free` at
last: every object that was created is released once, and none was overwritten while it was live, in
exactly the runs in which every certificate that is needed can be loaded and every address bound. -/
theorem attached_release_iff {σ : Type} {calls : Handle → List LoopStep}
    (hcalls : ∀ h, calls h = []) {cs : List (ServerCall σ)} (hfore : ∀ c ∈ cs, c.Foreground)
    {world : σ} {s : Startable σ} (hrun : serverCalls calls (adServerNew world) cs = some s)
    (server : AdServer σ) :
    ∃ s', adServerFree server calls s.toRunning = some s' ∧
      ((∀ h ∈ s.created, s'.released.count h = 1) ∧ s.overwritten = [] ↔
        Runs.Steps (fun pre c => ¬CallLeavesBehind calls world pre c) cs) := by
  refine objects_released_iff (fun c s => c.CertificateFails s) (fun c s => c.BindFails s) hcalls ?_
    hrun server
  intro c hc s s' hidle h
  exact c.run_outcome hcalls (hfore c hc) hidle h

/-- A context is attached before the start and replaced after it: both are released, the first when the
second is attached. -/
theorem attached_release_two :
    ∃ s s', serverCalls (fun _ => []) (adServerNew ())
        [.attach true true, .start (hooklessStart true), .attach true true] = some s ∧
      s.created = [.sslctx 0, .evbase 1, .notifyBuffer 2, .listener 3, .sslctx 4] ∧
        adServerFree hooklessServer (fun _ => []) s.toRunning = some s' ∧
          (∀ h ∈ s.created, s'.released.count h = 1) ∧ s.overwritten = [] := by
  have hsome : ((serverCalls (fun _ => []) (adServerNew ())
      [.attach true true, .start (hooklessStart true), .attach true true]).map fun s => s.created) =
      some [.sslctx 0, .evbase 1, .notifyBuffer 2, .listener 3, .sslctx 4] := by decide +kernel
  rcases Option.map_eq_some_iff.1 hsome with ⟨s, hrun, hcreated⟩
  have hfore : ∀ c ∈ [.attach true true, .start (hooklessStart true), .attach true true],
      ServerCall.Foreground c := by
    simp only [List.forall_mem_cons, ServerCall.Foreground, hooklessStart_foreground, true_and]
    nofun
  rcases attached_release_iff (fun _ => rfl) hfore hrun hooklessServer with ⟨s', hs', hiff⟩
  refine ⟨s, s', hrun, hcreated, hs', hiff.2 ?_⟩
  have hattach : ∀ pre, ¬CallLeavesBehind (fun _ => []) () pre (.attach true true) := by
    rintro pre ⟨s₀, -, hfail | hfail⟩
    · exact hfail ⟨rfl, rfl⟩
    · exact hfail
  have hstart : ∀ pre, ¬CallLeavesBehind (fun _ => []) () pre (.start (hooklessStart true)) := by
    rintro pre ⟨s₀, -, hfail | hfail⟩
    · exact hfail.2.2.1 (by decide +kernel)
    · exact hfail.2.2.2 rfl
  apply Runs.Steps.of_forall
  simp only [List.forall_mem_cons, List.not_mem_nil, false_imp_iff, implies_true, and_true]
  exact ⟨hattach, hstart, hattach⟩

end Asyncd
