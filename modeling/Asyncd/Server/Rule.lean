import Asyncd.Server.Moves

/-!
# The invariant rule for runs

`callHooksFrom_rule` carries an invariant along a chain of hooks, and `Invariant.session` one along a
run: what holds of a new connection, is kept by every dispatch and does not depend on what the server
does in between holds always, and what a dispatch then guarantees holds of every dispatch of the run.
-/

namespace Asyncd

variable {σ : Type}

/-! ## Chains of hooks -/

/-- The method filter of `call_hooks` lets the hook be called. -/
def AdHook.Passes (hook : AdHook σ) (conn : AdConn) : Prop :=
  ¬(hook.method.isSome ∧ conn.method.isSome ∧ hook.method ≠ conn.method)

instance (hook : AdHook σ) (conn : AdConn) : Decidable (hook.Passes conn) :=
  inferInstanceAs (Decidable (¬_))

section

variable (event : Event) (i : ℕ) (hooks : List (AdHook σ)) (world : σ) {hook : AdHook σ}
  {conn : AdConn}

theorem callHooksFrom_none (hcb : hook.cb = none) :
    callHooksFrom event i (hook :: hooks) conn world =
      callHooksFrom event (i + 1) hooks conn world := by
  rw [callHooksFrom, hcb]

theorem callHooksFrom_skip {cb} (hcb : hook.cb = some cb) (hpass : ¬hook.Passes conn) :
    callHooksFrom event i (hook :: hooks) conn world =
      let r := callHooksFrom event (i + 1) hooks conn world
      (r.1, r.2.1, r.2.2.1, ⟨i, false, conn⟩ :: r.2.2.2) := by
  simp only [callHooksFrom, hcb, if_pos (not_not.1 hpass)]

theorem callHooksFrom_ok {cb} (hcb : hook.cb = some cb) (hpass : hook.Passes conn)
    {view : ConnView} {world' : σ} (hrun : cb event conn world = some (adOk, view, world')) :
    callHooksFrom event i (hook :: hooks) conn world =
      let r := callHooksFrom event (i + 1) hooks { conn with toConnView := view } world'
      (r.1, r.2.1, r.2.2.1, ⟨i, true, conn⟩ :: r.2.2.2) := by
  simp only [callHooksFrom, hcb, if_neg hpass, hrun, ne_eq, not_true_eq_false, if_false]

theorem callHooksFrom_stop {cb} (hcb : hook.cb = some cb) (hpass : hook.Passes conn)
    {st : ℤ} {view : ConnView} {world' : σ} (hrun : cb event conn world = some (st, view, world'))
    (hst : st ≠ adOk) :
    callHooksFrom event i (hook :: hooks) conn world =
      (some st, { conn with toConnView := view }, world', [⟨i, true, conn⟩]) := by
  simp only [callHooksFrom, hcb, if_neg hpass, hrun, if_pos hst]

theorem callHooksFrom_exit {cb} (hcb : hook.cb = some cb) (hpass : hook.Passes conn)
    (hrun : cb event conn world = none) :
    callHooksFrom event i (hook :: hooks) conn world = (none, conn, world, [⟨i, true, conn⟩]) := by
  simp only [callHooksFrom, hcb, if_neg hpass, hrun]

end

/-- The hook that is called with `event` keeps what `K` says of the connection and the world. -/
def AdHook.Keeps (hook : AdHook σ) (event : Event) (K : AdConn → σ → Prop) : Prop :=
  ∀ cb, hook.cb = some cb → ∀ conn world, K conn world → ∀ st view world',
    cb event conn world = some (st, view, world') → K { conn with toConnView := view } world'

/-- A hook that a dispatch comes to, at its place in the list, under the filter. -/
structure VisitOf (hooks : List (AdHook σ)) (i : ℕ) (v : Visit) (hook : AdHook σ) : Prop where
  le : i ≤ v.index
  get : hooks[v.index - i]? = some hook
  cb : hook.cb.isSome
  called : v.called = true ↔ hook.Passes v.conn

theorem VisitOf.cons {hooks : List (AdHook σ)} {i : ℕ} {v : Visit} {hook : AdHook σ}
    (h : VisitOf hooks (i + 1) v hook) (first : AdHook σ) : VisitOf (first :: hooks) i v hook := by
  have hle := h.le
  refine ⟨by omega, ?_, h.cb, h.called⟩
  rw [show v.index - i = v.index - (i + 1) + 1 by omega, List.getElem?_cons_succ]
  exact h.get

/-- The hooks of a chain keep an invariant: it holds where each hook is come to, and at the end. -/
theorem callHooksFrom_rule {event : Event} {K : AdConn → σ → Prop} {hooks : List (AdHook σ)}
    (hK : ∀ hook ∈ hooks, hook.Keeps event K) (i : ℕ) {conn : AdConn} {world : σ}
    (h : K conn world) :
    K (callHooksFrom event i hooks conn world).2.1 (callHooksFrom event i hooks conn world).2.2.1 ∧
      ∀ v ∈ (callHooksFrom event i hooks conn world).2.2.2,
        (∃ hook, VisitOf hooks i v hook) ∧ ∃ world', K v.conn world' := by
  induction hooks generalizing i conn world with
  | nil => exact ⟨h, by simp [callHooksFrom]⟩
  | cons hook hooks ih =>
    obtain ⟨hhook, hhooks⟩ := List.forall_mem_cons.1 hK
    -- the rest of the chain, from a connection that satisfies the invariant
    have hrest : ∀ {conn : AdConn} {world : σ}, K conn world →
        K (callHooksFrom event (i + 1) hooks conn world).2.1
            (callHooksFrom event (i + 1) hooks conn world).2.2.1 ∧
          ∀ v ∈ (callHooksFrom event (i + 1) hooks conn world).2.2.2,
            (∃ hook', VisitOf (hook :: hooks) i v hook') ∧ ∃ world', K v.conn world' := by
      intro conn world h
      obtain ⟨hend, hvisits⟩ := ih hhooks (i + 1) h
      refine ⟨hend, fun v hv => ?_⟩
      obtain ⟨⟨hook', hv'⟩, hw⟩ := hvisits v hv
      exact ⟨⟨hook', hv'.cons hook⟩, hw⟩
    cases hcb : hook.cb with
    | none =>
      rw [callHooksFrom_none _ _ _ _ hcb]
      exact hrest h
    | some cb =>
      have hfirst : ∀ called : Bool, (called = true ↔ hook.Passes conn) →
          (∃ hook', VisitOf (hook :: hooks) i ⟨i, called, conn⟩ hook') ∧
            ∃ world', K (Visit.mk i called conn).conn world' := fun called hcalled =>
        ⟨⟨hook, le_rfl, by simp, by rw [hcb]; rfl, hcalled⟩, world, h⟩
      by_cases hpass : hook.Passes conn
      · have hcalled := hfirst true (iff_of_true rfl hpass)
        cases hrun : cb event conn world with
        | none =>
          rw [callHooksFrom_exit _ _ _ _ hcb hpass hrun]
          exact ⟨h, List.forall_mem_singleton.2 hcalled⟩
        | some r =>
          obtain ⟨st, view, world'⟩ := r
          have hnext := hhook cb hcb conn world h st view world' hrun
          by_cases hst : st = adOk
          · rw [hst] at hrun
            rw [callHooksFrom_ok _ _ _ _ hcb hpass hrun]
            exact ⟨(hrest hnext).1, List.forall_mem_cons.2 ⟨hcalled, (hrest hnext).2⟩⟩
          · rw [callHooksFrom_stop _ _ _ _ hcb hpass hrun hst]
            exact ⟨hnext, List.forall_mem_singleton.2 hcalled⟩
      · have hpassed := hfirst false (iff_of_false (by simp) hpass)
        rw [callHooksFrom_skip _ _ _ _ hcb hpass]
        exact ⟨(hrest h).1, List.forall_mem_cons.2 ⟨hpassed, (hrest h).2⟩⟩

/-! ## Runs -/

/-- The connection that `conn_new` starts from. -/
def blankConn : AdConn where
  inb := []
  out := []
  userdata := ⟨none, none⟩
  extra := ⟨none, none⟩
  method := none
  status := adOk

/-- `I₀` holds where a request starts and `I` from there on, and `P` of every dispatch. -/
structure Invariant (server : AdServer σ) (I₀ I : AdConn → σ → Prop) (P : Dispatch → Prop) :
    Prop where
  blank : ∀ world, I₀ blankConn world
  init : ∀ event {conn world}, event.init = true → I₀ conn world →
    I (callHooks server event conn world).2.1 (callHooks server event conn world).2.2.1 ∧
      P ⟨event, conn, (callHooks server event conn world).2.2.2,
        (callHooks server event conn world).1⟩
  call : ∀ event {conn world}, event.init = false → I conn world →
    I (callHooks server event conn world).2.1 (callHooks server event conn world).2.2.1 ∧
      P ⟨event, conn, (callHooks server event conn world).2.2.2,
        (callHooks server event conn world).1⟩
  status : ∀ st {conn world}, I conn world → I { conn with status := st } world
  buffers : ∀ inb out {conn world}, I conn world → I { conn with inb := inb, out := out } world
  reset : ∀ {conn world}, I conn world → I₀ (connReset conn).1 world

/-- The invariant holds of the connection of a session, and the guarantee of its dispatches. -/
def Session.Keeps (I : AdConn → σ → Prop) (P : Dispatch → Prop) (s : Session σ) : Prop :=
  (∀ conn, s.conn = some conn → I conn s.world) ∧ ∀ d ∈ dispatches s.trace, P d

theorem Session.Keeps.after {I : AdConn → σ → Prop} {P : Dispatch → Prop} {s : Session σ}
    (h : s.Keeps I P) {out : List Output} (hout : ∀ d ∈ dispatches out, P d) :
    (s.after out).Keeps I P := by
  refine ⟨h.1, ?_⟩
  simp only [Session.after, dispatches_append, List.forall_mem_append]
  exact ⟨hout, h.2⟩

theorem Session.Keeps.released {I : AdConn → σ → Prop} {P : Dispatch → Prop} {s : Session σ}
    (h : s.Keeps I P) {out : List Output} (hout : Releases out) : (s.after out).Keeps I P :=
  h.after (by simp [hout.1])

theorem keeps_idle {I : AdConn → σ → Prop} {P : Dispatch → Prop} {conn : AdConn} {world : σ}
    (h : I conn world) : Session.Keeps I P ⟨some conn, world, []⟩ := by
  refine ⟨?_, by simp⟩
  rintro _ ⟨⟩
  exact h

theorem keeps_release {I : AdConn → σ → Prop} {P : Dispatch → Prop} (conn : AdConn) (world : σ) :
    (connRelease conn world).Keeps I P := by
  refine ⟨fun _ h => (by cases h), ?_⟩
  simp [connRelease, (releases_connReset conn).1]

theorem keeps_dispatch {server : AdServer σ} {I : AdConn → σ → Prop} {P : Dispatch → Prop}
    {event : Event} {conn : AdConn} {world : σ}
    (h : I (callHooks server event conn world).2.1 (callHooks server event conn world).2.2.1 ∧
      P ⟨event, conn, (callHooks server event conn world).2.2.2,
        (callHooks server event conn world).1⟩)
    {next : ℤ → AdConn → σ → Session σ}
    (hnext : ∀ st conn world, I conn world → (next st conn world).Keeps I P) :
    (dispatch server event conn world next).Keeps I P := by
  obtain ⟨hI, hP⟩ := h
  unfold dispatch
  generalize callHooks server event conn world = r at hI hP
  obtain ⟨_ | st, conn', world', visits⟩ := r
  · refine ⟨fun _ h => (by cases h), ?_⟩
    intro d hd
    obtain rfl := List.mem_singleton.1 hd
    exact hP
  · apply (hnext st conn' world' hI).after
    intro d hd
    obtain rfl := List.mem_singleton.1 hd
    exact hP

namespace Invariant

variable {server : AdServer σ} {I₀ I : AdConn → σ → Prop} {P : Dispatch → Prop}
  (inv : Invariant server I₀ I P)

include inv

theorem free {conn : AdConn} {world : σ} (h : I conn world) :
    (connFree server conn world).Keeps I P := by
  unfold connFree
  split_ifs
  · exact keeps_dispatch (inv.call _ rfl h) fun _ conn world _ => keeps_release conn world
  · exact keeps_release conn world

theorem cbEnd {event : Event} (he : event.init = false) {conn : AdConn} {world : σ}
    (h : I conn world) : (connCbEnd server event conn world).Keeps I P := by
  apply connCbEnd_cases server event conn world (Q := Session.Keeps I P)
  · intro _ _
    apply keeps_dispatch (inv.call _ rfl h)
    intro _ conn world h
    apply Session.Keeps.released _ (releases_connReset conn)
    exact keeps_dispatch (inv.init _ rfl (inv.reset h)) fun _ conn world h => keeps_idle h
  · exact fun _ => keeps_idle (inv.buffers [] conn.out h)
  · exact fun _ => keeps_idle h
  · intro _ _
    split_ifs
    · exact keeps_dispatch (inv.call _ he h) fun _ conn world h => inv.free h
    · exact keeps_dispatch (inv.call _ rfl h) fun _ conn world h => inv.free h

theorem cb {event : Event} (he : event.init = false) {conn : AdConn} {world : σ}
    (h : I conn world) : (connCb server event conn world).Keeps I P := by
  unfold connCb
  split_ifs
  · apply keeps_dispatch (inv.call _ he h)
    intro st conn world h
    apply inv.cbEnd he
    split_ifs
    · exact h
    · exact inv.status st h
  · exact inv.cbEnd he h

theorem callback (c : Callback) {conn : AdConn} {world : σ} (h : I conn world) :
    (callback server c conn world).Keeps I P := by
  cases c with
  | read seg => exact inv.cb rfl (inv.buffers (conn.inb ++ seg) conn.out h)
  | write => exact inv.cb rfl h
  | drain n => exact keeps_idle (inv.buffers conn.inb (conn.out.drop n) h)
  | event what =>
    rw [Asyncd.callback, connEventCb]
    split_ifs
    · exact inv.cb rfl (inv.status adClose h)
    · exact keeps_idle h

/-- The invariant holds along every run, and the guarantee for all its dispatches. -/
theorem session (world : σ) (cs : List Callback) : (session server world cs).Keeps I P := by
  induction cs using List.reverseRecOn with
  | nil =>
    exact keeps_dispatch (inv.init _ rfl (inv.blank world)) fun st conn world h =>
      keeps_idle (inv.status st h)
  | append_singleton cs c ih =>
    rw [session_concat]
    unfold Session.step
    cases hc : (Asyncd.session server world cs).conn with
    | none => exact ih
    | some conn => exact (inv.callback c (ih.1 conn hc)).after ih.2

end Invariant

/-- Every dispatch of a run is a call of the hooks. -/
theorem session_calls (server : AdServer σ) (world : σ) (cs : List Callback) {d : Dispatch}
    (hd : d ∈ dispatches (session server world cs).trace) :
    ∃ world', d.visits = (callHooks server d.event d.before world').2.2.2 ∧
      d.status = (callHooks server d.event d.before world').1 := by
  have inv : Invariant server (fun _ _ => True) (fun _ _ => True) (fun d =>
      ∃ world', d.visits = (callHooks server d.event d.before world').2.2.2 ∧
        d.status = (callHooks server d.event d.before world').1) :=
    ⟨fun _ => trivial, fun _ _ world _ _ => ⟨trivial, world, rfl, rfl⟩,
      fun _ _ world _ _ => ⟨trivial, world, rfl, rfl⟩, fun _ _ _ _ => trivial,
      fun _ _ _ _ _ => trivial, fun _ => trivial⟩
  exact (inv.session world cs).2 d hd

end Asyncd
