import Asyncd.Server.World

/-!
# Connections do not interfere

The event loop calls back on its connections in any order.  Where the hooks read nothing outside the
connection but a part of the world that none of them changes, each connection goes through its own
session and the process ends exactly where one of them ends it (`loopRun_eq_sessions`): the loop is the
product of its connections.
-/

open CString

namespace Asyncd

/-! ## Steps -/

/-- A step of the loop as a step of a family of connections. -/
def LoopStep.toStep : LoopStep → Interleave.Step Callback
  | accept => .spawn
  | callback k c => .act k c

/-- How many connections are accepted. -/
def accepts (steps : List LoopStep) : ℕ := Interleave.spawns (steps.map LoopStep.toStep)

/-- The callbacks on the connection that was accepted after `k` others. -/
def callbacksOf (k : ℕ) (steps : List LoopStep) : List Callback :=
  Interleave.own k 0 (steps.map LoopStep.toStep)

/-- A session, without its world. -/
def Session.accepted {σ : Type} (s : Session σ) : Accepted := ⟨s.conn, s.trace⟩

/-- A hook has ended the process in a callback on the connection. -/
def Accepted.exited (a : Accepted) : Bool := (dispatches a.trace).any fun d => d.status.isNone

@[simp] theorem Session.accepted_exited {σ : Type} (s : Session σ) :
    s.accepted.exited = s.exited := rfl

/-! ## No world -/

section

variable (server : AdServer Unit)

/-- A new connection of a server without a world. -/
def accepted : Accepted := (connNew server [] [] ()).accepted

/-- A callback on a connection of a server without a world. -/
def Accepted.step (a : Accepted) (c : Callback) : Accepted :=
  (Session.step server ⟨a.conn, (), a.trace⟩ c).accepted

theorem Accepted.exited_step (a : Accepted) (c : Callback) (h : a.exited = true) :
    (a.step server c).exited = true := by
  rw [Accepted.step, Session.step]
  cases a.conn with
  | none => exact h
  | some conn =>
    have htr : ((callback server c conn ()).after a.trace).trace =
      a.trace ++ (callback server c conn ()).trace := rfl
    rw [Session.accepted_exited, Session.exited, htr, dispatches_append, List.any_append,
      Bool.or_eq_true]
    exact Or.inl h

theorem session_accepted (cs : List Callback) :
    (session server () cs).accepted = cs.foldl (Accepted.step server) (accepted server) := by
  induction cs using List.reverseRecOn with
  | nil => rfl
  | append_singleton cs c ih =>
    rw [session_concat, List.foldl_append, ← ih]
    rfl

theorem any_set_exited {conns : List Accepted} (h : conns.any Accepted.exited = false) {k : ℕ}
    (hk : k < conns.length) (a : Accepted) : (conns.set k a).any Accepted.exited = a.exited := by
  rw [List.any_eq_false] at h
  cases ha : a.exited with
  | true => exact List.any_eq_true.2 ⟨a, List.mem_set hk a, ha⟩
  | false =>
    refine List.any_eq_false.2 fun a' ha' => ?_
    rcases List.mem_or_eq_of_mem_set ha' with ha' | rfl
    · exact h a' ha'
    · rw [ha]
      decide

/-- A step of the loop is a step of the family of its connections. -/
theorem loopStep_guarded (s : Running Unit) (step : LoopStep)
    (h : s.conns.any Accepted.exited = false) :
    (loopStep server s step).map Running.conns =
      Interleave.Step.guarded (accepted server) (Accepted.step server) Accepted.exited s.conns
        step.toStep := by
  cases step with
  | accept =>
    have hany : (s.conns ++ [accepted server]).any Accepted.exited =
        (connNew server [] [] s.world).exited := by
      rw [List.any_append, h]
      simp [accepted]
    rw [Interleave.Step.guarded_eq _ _ _ (s.conns ++ [accepted server]) rfl, hany, loopStep]
    split_ifs <;> rfl
  | callback k c =>
    rw [Interleave.Step.guarded_eq _ _ _ (s.conns.modify k fun a => a.step server c) rfl,
      loopStep]
    cases hk : s.conns[k]? with
    | none =>
      rw [List.modify_eq_self (List.getElem?_eq_none_iff.1 hk), h]
      rfl
    | some a =>
      obtain ⟨hlt, -⟩ := List.getElem?_eq_some_iff.1 hk
      have hmodify : s.conns.modify k (fun a => a.step server c) =
          s.conns.set k (a.step server c) := by
        have : Inhabited Accepted := ⟨a⟩
        rw [List.modify_eq_set, hk]
        rfl
      have hexit : (a.step server c).exited =
          (Session.step server ⟨a.conn, s.world, a.trace⟩ c).exited := rfl
      rw [hmodify, any_set_exited h hlt, hexit]
      dsimp only
      split_ifs <;> rfl

/-- The loop of a server without a world is the product of its connections. -/
theorem loopRun_product (handles : Handles) (released : List Handle) (steps : List LoopStep) :
    (loopRun server ⟨handles, released, [], ()⟩ steps).map Running.conns =
      let solo := fun k => session server () (callbacksOf k steps)
      if ∃ k < accepts steps, (solo k).exited = true then none
      else some ((List.range (accepts steps)).map fun k => (solo k).accepted) := by
  dsimp only
  have hsim : (loopRun server ⟨handles, released, [], ()⟩ steps).map Running.conns =
      steps.foldlM (fun conns step => Interleave.Step.guarded (accepted server)
        (Accepted.step server) Accepted.exited conns step.toStep) [] := by
    refine Interleave.foldlM_simulates (I := fun s : Running Unit =>
      s.conns.any Accepted.exited = false) (loopStep_guarded server) ?_ rfl steps
    intro s step s' hs hstep
    have hguard := loopStep_guarded server s step hs
    rw [hstep, Option.map_some, Interleave.Step.guarded] at hguard
    split_ifs at hguard with hany
    rw [Option.some.inj hguard]
    simpa using hany
  rw [hsim, ← List.foldlM_map, Interleave.foldlM_guarded _ _ (Accepted.exited_step server) rfl,
    Interleave.run_eq]
  have hsolo : (fun k => (Interleave.own k 0 (steps.map LoopStep.toStep)).foldl
      (Accepted.step server) (accepted server)) =
        fun k => (session server () (callbacksOf k steps)).accepted := by
    funext k
    exact (session_accepted server (callbacksOf k steps)).symm
  rw [hsolo]
  refine if_congr ?_ rfl rfl
  simp [accepts, List.any_map]

end

/-! ## What the hooks read -/

section

variable {σ ρ : Type} (view : σ → ρ)

/-- What the hook does depends on the connection and on a part of the world that it does not change. -/
structure AdHook.ReadsOnly (hook : AdHook σ) : Prop where
  keeps : ∀ cb, hook.cb = some cb → ∀ event conn world st v world',
    cb event conn world = some (st, v, world') → view world' = view world
  same : ∀ cb, hook.cb = some cb → ∀ event conn world world', view world = view world' →
    (cb event conn world).map (mapWorld fun _ => ()) =
      (cb event conn world').map (mapWorld fun _ => ())

variable (world : σ)

/-- The worlds that look like the one at the beginning. -/
abbrev Alike : Type := { world' : σ // view world' = view world }

/-- The hook without a world: it does what it does in the world at the beginning. -/
def AdHook.forget (hook : AdHook σ) : AdHook Unit where
  method := hook.method
  cb := hook.cb.map fun cb event conn _ => (cb event conn world).map (mapWorld fun _ => ())

/-- The server without a world. -/
def AdServer.forget (server : AdServer σ) : AdServer Unit where
  options := server.options
  hooks := server.hooks.map (AdHook.forget world)

variable {view} {world}

theorem session_of_maps {server : AdServer σ} {server' : AdServer ρ} {f : σ → ρ}
    (h : server.Maps f server') (world : σ) (cs : List Callback) :
    (session server' (f world) cs).accepted = (session server world cs).accepted := by
  rw [session_map h]
  rfl

theorem loopRun_of_maps {server : AdServer σ} {server' : AdServer ρ} {f : σ → ρ}
    (h : server.Maps f server') (s : Running σ) (steps : List LoopStep) :
    (loopRun server' (s.map f) steps).map Running.conns =
      (loopRun server s steps).map Running.conns := by
  rw [loopRun_map f h, Option.map_map]
  rfl

variable (world)

/-- The hook on the worlds that look alike. -/
def AdHook.ReadsOnly.restrict {hook : AdHook σ} (h : hook.ReadsOnly view) :
    AdHook (Alike view world) where
  method := hook.method
  cb := hook.cb.attach.map fun cb event conn world' =>
    (cb.1 event conn world'.1).attach.map fun r =>
      (r.1.1, r.1.2.1,
        ⟨r.1.2.2, (h.keeps cb.1 cb.2 event conn world'.1 _ _ _ r.2).trans world'.2⟩)

theorem AdHook.ReadsOnly.restrict_maps {hook : AdHook σ} (h : hook.ReadsOnly view) :
    (h.restrict world).Maps Subtype.val hook where
  method := rfl
  cb event conn world' := by
    obtain ⟨method, cb⟩ := hook
    cases cb with
    | none => rfl
    | some cb =>
      simp [restrict, Option.map_map, Function.comp_def, mapWorld]

/-- On worlds that look alike, the hook does not need the world. -/
theorem AdHook.ReadsOnly.forget_maps {hook : AdHook σ} (h : hook.ReadsOnly view) :
    (h.restrict world).Maps (fun _ => ()) (hook.forget world) where
  method := rfl
  cb event conn world' := by
    obtain ⟨method, cb⟩ := hook
    cases cb with
    | none => rfl
    | some cb =>
      have hsame := h.same cb rfl event conn world'.1 world world'.2
      simp only [restrict, forget, Option.attach_some, Option.map_some, ← hsame, Option.map_map]
      exact congrArg some (Option.attach_map_val _ (mapWorld fun _ => ())).symm

theorem exists_restrict_hooks {hooks : List (AdHook σ)} (h : ∀ hook ∈ hooks, hook.ReadsOnly view) :
    ∃ restricted : List (AdHook (Alike view world)),
      List.Forall₂ (AdHook.Maps Subtype.val) restricted hooks ∧
        List.Forall₂ (AdHook.Maps fun _ => ()) restricted (hooks.map (AdHook.forget world)) := by
  induction hooks with
  | nil => exact ⟨[], .nil, .nil⟩
  | cons hook hooks ih =>
    obtain ⟨hhook, hhooks⟩ := List.forall_mem_cons.1 h
    obtain ⟨restricted, hval, hunit⟩ := ih hhooks
    exact ⟨hhook.restrict world :: restricted, .cons (hhook.restrict_maps world) hval,
      .cons (hhook.forget_maps world) hunit⟩

/-- The server is its restriction to the worlds that look alike, and so is the server without one. -/
theorem exists_restrict {server : AdServer σ} (h : ∀ hook ∈ server.hooks, hook.ReadsOnly view) :
    ∃ restricted : AdServer (Alike view world), restricted.Maps Subtype.val server ∧
      restricted.Maps (fun _ => ()) (server.forget world) := by
  obtain ⟨restricted, hval, hunit⟩ := exists_restrict_hooks world h
  exact ⟨⟨server.options, restricted⟩, ⟨rfl, hval⟩, ⟨rfl, hunit⟩⟩

/-- Whatever the order of the callbacks, each connection goes through the session of its own callbacks,
and the process ends exactly where one of these sessions ends it. -/
theorem loopRun_eq_sessions {server : AdServer σ} (h : ∀ hook ∈ server.hooks, hook.ReadsOnly view)
    (handles : Handles) (steps : List LoopStep) :
    (loopRun server ⟨handles, [], [], world⟩ steps).map Running.conns =
      let solo := fun k => session server world (callbacksOf k steps)
      if ∃ k < accepts steps, (solo k).exited = true then none
      else some ((List.range (accepts steps)).map fun k => (solo k).accepted) := by
  obtain ⟨restricted, hval, hunit⟩ := exists_restrict world h
  let start : Alike view world := ⟨world, rfl⟩
  have hsolo : ∀ k, (session (server.forget world) () (callbacksOf k steps)).accepted =
      (session server world (callbacksOf k steps)).accepted := fun k =>
    (session_of_maps hunit start _).trans (session_of_maps hval start _).symm
  have hexit : ∀ k, (session (server.forget world) () (callbacksOf k steps)).exited =
      (session server world (callbacksOf k steps)).exited := fun k =>
    congrArg Accepted.exited (hsolo k)
  have hloop := (loopRun_of_maps hval ⟨handles, [], [], start⟩ steps).trans
    (loopRun_of_maps hunit ⟨handles, [], [], start⟩ steps).symm
  have hproduct := hloop.trans (loopRun_product (server.forget world) handles [] steps)
  simp only [hsolo, hexit] at hproduct
  exact hproduct

end

/-- A server whose hook counts the events of all connections, and reads the count nowhere. -/
def countingServer : AdServer ℕ where
  options := []
  hooks := [⟨none, some fun _ conn count => some (adOk, conn.toConnView, count + 1)⟩]

theorem countingServer_readsOnly :
    ∀ hook ∈ countingServer.hooks, hook.ReadsOnly fun _ : ℕ => () := by
  intro hook hhook
  obtain rfl := List.mem_singleton.1 hhook
  refine ⟨fun _ _ _ _ _ _ _ _ _ => rfl, ?_⟩
  rintro _ ⟨⟩ event conn world world' _
  rfl

/-- Two connections, one of which the peer closes. -/
theorem loopRun_two_connections :
    (loopRun countingServer ⟨⟨none, none, none, none, none⟩, [], [], 0⟩
      [.accept, .callback 0 .write, .accept, .callback 1 (.event { eof := true }),
        .callback 0 (.read [1])]).map Running.conns =
      some [(session countingServer 0 [.write, .read [1]]).accepted,
        (session countingServer 0 [.event { eof := true }]).accepted] := by
  rw [loopRun_eq_sessions 0 countingServer_readsOnly]
  rfl

end Asyncd
