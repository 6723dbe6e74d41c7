import Asyncd.Server.Rule

/-!
# INIT and CLOSE, hook by hook

The dispatches of a connection alternate between INIT and CLOSE (`Moves.phases`).  What a single hook is
given does so as long as the method filter passes it over at neither; `init_close_paired` says so, and
that the filter at CLOSE is what matters where hooks leave the method alone on these events.
-/

open CString

namespace Asyncd

/-! ## Phases -/

/-- The two ends of a request. -/
inductive Phase
  | init
  | close
  deriving DecidableEq, Repr

/-- The end of a request that an event stands for. -/
def Event.phase? (event : Event) : Option Phase :=
  if event.init then some .init else if event.close then some .close else none

/-- INIT and CLOSE, `n` times. -/
def cycles (n : ℕ) : List Phase := (List.replicate n [.init, .close]).flatten

theorem cycles_succ (n : ℕ) : cycles (n + 1) = cycles n ++ [.init, .close] := by
  simp [cycles, List.replicate_succ']

theorem count_cycles (n : ℕ) (ph : Phase) : (cycles n).count ph = n := by
  induction n with
  | zero => rfl
  | succ n ih =>
    rw [cycles_succ, List.count_append, ih]
    cases ph <;> rfl

/-- The events that start or end a request in a run. -/
def Boundary (event : Event) : Prop :=
  event = evInitWrite ∨ event = evInit ∨ ∃ t, event = evClose t

/-- The phases of some dispatches. -/
def phases (ds : List Dispatch) : List Phase := ds.filterMap fun d => d.event.phase?

/-- The dispatch calls hook `i`. -/
def Dispatch.Calls (i : ℕ) (d : Dispatch) : Prop := ∃ v ∈ d.visits, v.index = i ∧ v.called = true

instance (i : ℕ) (d : Dispatch) : Decidable (d.Calls i) :=
  inferInstanceAs (Decidable (∃ v ∈ _, _ ∧ _))

/-- The INIT and CLOSE events that hook `i` is given. -/
def deliveries (i : ℕ) (ds : List Dispatch) : List Phase := phases (ds.filter (·.Calls i))

@[simp] theorem phases_nil : phases [] = [] := rfl

theorem phases_append (ds ds' : List Dispatch) : phases (ds ++ ds') = phases ds ++ phases ds' :=
  List.filterMap_append

theorem phases_cons_of_none {d : Dispatch} (h : d.event.phase? = none) (ds : List Dispatch) :
    phases (d :: ds) = phases ds := List.filterMap_cons_none h

theorem phases_cons_of_some {d : Dispatch} {ph : Phase} (h : d.event.phase? = some ph)
    (ds : List Dispatch) : phases (d :: ds) = ph :: phases ds := List.filterMap_cons_some h

theorem phase?_readWrite {event : Event} (h : event = evRead ∨ event = evWrite) :
    event.phase? = none := by
  obtain rfl | rfl := h <;> rfl

theorem phase?_close {event : Event} {t : Bool} (h : event = evClose t) :
    event.phase? = some .close := by
  subst h
  rfl

theorem phase?_init {event : Event} (h : event = evInitWrite ∨ event = evInit) :
    event.phase? = some .init := by
  obtain rfl | rfl := h <;> rfl

theorem init_of_phase {event : Event} (h : event.phase? = some .init) : event.init = true := by
  unfold Event.phase? at h
  split_ifs at h with hinit
  · exact hinit
  · cases h

/-! ## Counting -/

theorem deliveries_eq_phases {i : ℕ} {ds : List Dispatch}
    (h : ∀ d ∈ ds, d.event.phase? ≠ none → d.Calls i) : deliveries i ds = phases ds := by
  rw [deliveries, phases, List.filterMap_filter]
  apply List.filterMap_congr
  intro d hd
  by_cases hph : d.event.phase? = none
  · simp [hph]
  · simp [h d hd hph]

theorem deliveries_append (i : ℕ) (ds ds' : List Dispatch) :
    deliveries i (ds ++ ds') = deliveries i ds ++ deliveries i ds' := by
  rw [deliveries, List.filter_append, phases_append]
  rfl

theorem count_deliveries_le (i : ℕ) (ds : List Dispatch) (ph : Phase) :
    (deliveries i ds).count ph ≤ (phases ds).count ph :=
  (List.filter_sublist.filterMap _).count_le ph

theorem count_deliveries_lt {i : ℕ} {ds : List Dispatch} {d : Dispatch} (hd : d ∈ ds) {ph : Phase}
    (hph : d.event.phase? = some ph) (hcall : ¬d.Calls i) :
    (deliveries i ds).count ph < (phases ds).count ph := by
  obtain ⟨pre, post, rfl⟩ := List.append_of_mem hd
  have hskip : deliveries i (d :: post) = deliveries i post := by simp [deliveries, hcall]
  rw [deliveries_append, hskip, phases_append, phases_cons_of_some hph, List.count_append,
    List.count_append, List.count_cons_self]
  have hpre := count_deliveries_le i pre ph
  have hpost := count_deliveries_le i post ph
  omega

theorem count_deliveries_eq {i : ℕ} {ds : List Dispatch} {ph : Phase}
    (h : ∀ d ∈ ds, d.event.phase? = some ph → d.Calls i) :
    (deliveries i ds).count ph = (phases ds).count ph := by
  rw [deliveries, phases, phases, List.filterMap_filter, List.count_filterMap, List.count_filterMap]
  apply List.countP_congr
  intro d hd
  by_cases hph : d.event.phase? = some ph
  · simp [hph, h d hd hph]
  · by_cases hcall : d.Calls i <;> simp [hph, hcall]

/-! ## Moves -/

/-- The phases of a connection alternate, and end in CLOSE when it is freed. -/
theorem Moves.phases {p : Bool} {st st' : Option ℤ} {out : List Output} (h : Moves p st out st')
    {d : Dispatch} (hd : d.event = evInitWrite) :
    ∃ n, Asyncd.phases (d :: dispatches out) = cycles n ++ [.init] ∧ Output.connFree ∉ out ∨
      Asyncd.phases (d :: dispatches out) = cycles n ∧ st' = none := by
  have hclose : ∀ n, cycles n ++ [.init] ++ [.close] = cycles (n + 1) := fun n => by
    rw [cycles_succ, List.append_assoc]
    rfl
  induction h with
  | refl =>
    rw [dispatches_nil, phases_cons_of_some (phase?_init (Or.inl hd))]
    exact ⟨0, Or.inl ⟨rfl, by simp⟩⟩
  | tail _ m ih =>
    obtain ⟨n, ⟨hph, hfree⟩ | ⟨-, hnone⟩⟩ := ih
    swap
    · cases hnone
    rw [dispatches_append, ← List.cons_append, phases_append, hph]
    cases m with
    | hangUp => exact ⟨n, Or.inl ⟨by simp, by simpa using hfree⟩⟩
    | serve _ _ he =>
      rw [dispatches_dispatch, phases_cons_of_none (phase?_readWrite he)]
      exact ⟨n, Or.inl ⟨by simp, by simpa using hfree⟩⟩
    | resetCut _ _ he _ =>
      rw [dispatches_dispatch, phases_cons_of_some (phase?_close he)]
      exact ⟨n + 1, Or.inr ⟨hclose n, rfl⟩⟩
    | reset _ _ he hout hi =>
      rw [dispatches_dispatch, dispatches_append, hout.1, List.nil_append, dispatches_dispatch,
        phases_cons_of_some (phase?_close he), phases_cons_of_some (phase?_init (Or.inr hi))]
      refine ⟨n + 1, Or.inl ⟨?_, by simp [hfree, hout.2]⟩⟩
      simp [← hclose]
    | finalCut he _ _ =>
      rw [dispatches_dispatch, phases_cons_of_some (phase?_close he)]
      exact ⟨n + 1, Or.inr ⟨hclose n, rfl⟩⟩
    | final he _ hout =>
      rw [dispatches_dispatch, dispatches_append, hout.1, List.nil_append, dispatches_connFree,
        phases_cons_of_some (phase?_close he)]
      exact ⟨n + 1, Or.inr ⟨hclose n, rfl⟩⟩

theorem Moves.events {p : Bool} {st st' : Option ℤ} {out : List Output} (h : Moves p st out st')
    {d : Dispatch} (hd : d ∈ dispatches out) :
    d.event = evRead ∨ d.event = evWrite ∨ Boundary d.event := by
  obtain hinit | hread | hwrite | hclose := h.event hd
  · exact Or.inr (Or.inr (Or.inr (Or.inl hinit)))
  · exact Or.inl hread
  · exact Or.inr (Or.inl hwrite)
  · exact Or.inr (Or.inr (Or.inr (Or.inr hclose)))

/-! ## Hooks that go on -/

section

variable {σ : Type}

/-- The hooks return `AD_OK` to INIT and CLOSE. -/
def GoOn (hooks : List (AdHook σ)) : Prop :=
  ∀ hook ∈ hooks, ∀ cb ∈ hook.cb, ∀ event, Boundary event → ∀ conn world,
    ∃ view world', cb event conn world = some (adOk, view, world')

theorem callHooksFrom_goOn_cons {first : AdHook σ} {hooks : List (AdHook σ)}
    (h : GoOn (first :: hooks)) {event : Event} (he : Boundary event) (i : ℕ) (conn : AdConn)
    (world : σ) :
    ∃ pre conn' world', (callHooksFrom event i (first :: hooks) conn world).2.2.2 =
        pre ++ (callHooksFrom event (i + 1) hooks conn' world').2.2.2 ∧
      (first.cb.isSome → ∃ v ∈ pre, v.index = i) := by
  cases hcb : first.cb with
  | none => exact ⟨[], conn, world, by rw [callHooksFrom_none _ _ _ _ hcb]; rfl, fun h => by cases h⟩
  | some cb =>
    obtain ⟨view, world', hrun⟩ := h first List.mem_cons_self cb hcb event he conn world
    by_cases hpass : first.Passes conn
    · exact ⟨[⟨i, true, conn⟩], { conn with toConnView := view }, world',
        by rw [callHooksFrom_ok _ _ _ _ hcb hpass hrun]; rfl,
        fun _ => ⟨_, List.mem_singleton_self _, rfl⟩⟩
    · exact ⟨[⟨i, false, conn⟩], conn, world, by rw [callHooksFrom_skip _ _ _ _ hcb hpass]; rfl,
        fun _ => ⟨_, List.mem_singleton_self _, rfl⟩⟩

theorem callHooksFrom_goOn {hooks : List (AdHook σ)} (h : GoOn hooks) {event : Event}
    (he : Boundary event) (i : ℕ) (conn : AdConn) (world : σ) {k : ℕ} {hook : AdHook σ}
    (hk : hooks[k]? = some hook) (hcb : hook.cb.isSome) :
    ∃ v ∈ (callHooksFrom event i hooks conn world).2.2.2, v.index = i + k := by
  induction hooks generalizing i k conn world with
  | nil => cases hk
  | cons first hooks ih =>
    obtain ⟨pre, conn', world', hvisits, hfirst⟩ := callHooksFrom_goOn_cons h he i conn world
    rw [hvisits]
    cases k with
    | zero =>
      obtain rfl := Option.some.inj hk
      obtain ⟨v, hv, hi⟩ := hfirst hcb
      exact ⟨v, List.mem_append_left _ hv, hi⟩
    | succ k =>
      obtain ⟨v, hv, hi⟩ := ih (fun hook hmem => h hook (List.mem_cons_of_mem _ hmem)) (i + 1)
        conn' world' hk
      exact ⟨v, List.mem_append_right _ hv, by omega⟩

/-! ## Single hooks -/

/-- The filter passes no hook over in this dispatch. -/
def Dispatch.AllPass (hooks : List (AdHook σ)) (d : Dispatch) : Prop :=
  ∀ v ∈ d.visits, ∀ hook ∈ hooks[v.index]?, hook.Passes v.conn

instance (hooks : List (AdHook σ)) (d : Dispatch) : Decidable (d.AllPass hooks) :=
  inferInstanceAs (Decidable (∀ v ∈ _, ∀ hook ∈ _, AdHook.Passes hook _))

/-- The hooks do not set the method on INIT and CLOSE. -/
def KeepMethod (hooks : List (AdHook σ)) : Prop :=
  ∀ hook ∈ hooks, ∀ cb ∈ hook.cb, ∀ event, Boundary event → ∀ conn world status view world',
    cb event conn world = some (status, view, world') → view.method = conn.method

variable {server : AdServer σ}

theorem boundary_of_phase {world : σ} {cs : List Callback} {d : Dispatch}
    (hd : d ∈ dispatches (session server world cs).trace) (hph : d.event.phase? ≠ none) :
    Boundary d.event := by
  obtain ⟨d₀, out, he₀, htr, hm⟩ := session_trace server world cs
  rw [htr, dispatches_dispatch] at hd
  rcases List.mem_cons.1 hd with rfl | hd
  · exact Or.inl he₀
  · rcases hm.events hd with he | he | he
    · exact absurd (phase?_readWrite (Or.inl he)) hph
    · exact absurd (phase?_readWrite (Or.inr he)) hph
    · exact he

/-- The visits of a dispatch that starts or ends a request: every hook is come to, under the filter. -/
theorem boundary_visits (hok : GoOn server.hooks) {world : σ} {cs : List Callback} {d : Dispatch}
    (hd : d ∈ dispatches (session server world cs).trace) (hph : d.event.phase? ≠ none) :
    (∀ i, ∀ hook ∈ server.hooks[i]?, hook.cb.isSome → ∃ v ∈ d.visits, v.index = i) ∧
      ∀ v ∈ d.visits, ∃ hook ∈ server.hooks[v.index]?, hook.cb.isSome ∧
        (v.called = true ↔ hook.Passes v.conn) := by
  obtain ⟨world', hvisits, -⟩ := session_calls server world cs hd
  have hb := boundary_of_phase hd hph
  constructor
  · intro i hook hi hcb
    have := callHooksFrom_goOn hok hb 0 d.before world' hi hcb
    rw [hvisits, callHooks]
    simpa using this
  · intro v hv
    rw [hvisits] at hv
    obtain ⟨⟨hook, hvisit⟩, -⟩ := (callHooksFrom_rule (K := fun _ _ => True)
      (fun _ _ _ _ _ _ _ _ _ _ _ => trivial) 0 trivial).2 v hv
    exact ⟨hook, hvisit.get, hvisit.cb, hvisit.called⟩

theorem calls_of_allPass (hok : GoOn server.hooks) {world : σ} {cs : List Callback} {d : Dispatch}
    (hd : d ∈ dispatches (session server world cs).trace) (hph : d.event.phase? ≠ none)
    (hpass : d.AllPass server.hooks) {i : ℕ} {hook : AdHook σ} (hi : server.hooks[i]? = some hook)
    (hcb : hook.cb.isSome) : d.Calls i := by
  obtain ⟨hall, hfilter⟩ := boundary_visits hok hd hph
  obtain ⟨v, hv, rfl⟩ := hall i hook hi hcb
  obtain ⟨hook', hi', -, hcalled⟩ := hfilter v hv
  exact ⟨v, hv, rfl, hcalled.2 (hpass v hv hook' hi')⟩

theorem session_phases (server : AdServer σ) (world : σ) (cs : List Callback) :
    ∃ n, phases (dispatches (session server world cs).trace) <+: cycles n ∧
      (Output.connFree ∈ (session server world cs).trace →
        phases (dispatches (session server world cs).trace) = cycles n) := by
  obtain ⟨d₀, out, he₀, htr, hm⟩ := session_trace server world cs
  rw [htr, dispatches_dispatch]
  obtain ⟨n, ⟨hph, hfree⟩ | ⟨hph, -⟩⟩ := hm.phases he₀
  · refine ⟨n + 1, ?_, fun hf => ?_⟩
    · rw [hph, cycles_succ]
      exact (List.prefix_append_right_inj _).2 ⟨[.close], rfl⟩
    · simp [hfree] at hf
  · exact ⟨n, by rw [hph], fun _ => hph⟩

theorem method_at_init {world : σ} {cs : List Callback} {d : Dispatch}
    (hd : d ∈ dispatches (session server world cs).trace) (hinit : d.event.init = true) :
    d.before.method = none := by
  have inv : Invariant server (fun conn _ => conn.method = none) (fun _ _ => True)
      (fun d => d.event.init = true → d.before.method = none) :=
    ⟨fun _ => rfl, fun _ _ _ _ h => ⟨trivial, fun _ => h⟩,
      fun event conn world he _ => ⟨trivial, fun h => by rw [he] at h; cases h⟩,
      fun _ _ _ _ => trivial, fun _ _ _ _ _ => trivial, fun _ => rfl⟩
  exact (inv.session world cs).2 d hd hinit

theorem passes_congr (hook : AdHook σ) {conn conn' : AdConn} (h : conn.method = conn'.method) :
    hook.Passes conn ↔ hook.Passes conn' := by
  simp only [AdHook.Passes, h]

/-- Where hooks leave the method, all of a dispatch goes by the method before it. -/
theorem visit_method (hkeep : KeepMethod server.hooks) {world : σ} {cs : List Callback}
    {d : Dispatch} (hd : d ∈ dispatches (session server world cs).trace)
    (hph : d.event.phase? ≠ none) {v : Visit} (hv : v ∈ d.visits) :
    v.conn.method = d.before.method := by
  obtain ⟨world', hvisits, -⟩ := session_calls server world cs hd
  rw [hvisits] at hv
  have hkeeps : ∀ hook ∈ server.hooks,
      hook.Keeps d.event fun conn (_ : σ) => conn.method = d.before.method := by
    intro hook hmem cb hcb conn world h status view world' hrun
    exact (hkeep hook hmem cb hcb _ (boundary_of_phase hd hph) _ _ _ _ _ hrun).trans h
  obtain ⟨-, world'', hmeth⟩ := (callHooksFrom_rule hkeeps 0 rfl).2 v hv
  exact hmeth

/-- INIT comes on a connection without a method, and passes no hook over. -/
theorem allPass_init (hkeep : KeepMethod server.hooks) {world : σ} {cs : List Callback}
    {d : Dispatch} (hd : d ∈ dispatches (session server world cs).trace)
    (hph : d.event.phase? = some .init) : d.AllPass server.hooks := by
  intro v hv hook _
  have hmeth : v.conn.method = none := by
    rw [visit_method hkeep hd (by rw [hph]; simp) hv]
    exact method_at_init hd (init_of_phase hph)
  simp [AdHook.Passes, hmeth]

section

variable (hok : GoOn server.hooks) (hkeep : KeepMethod server.hooks) {world : σ} {cs : List Callback}
  {d : Dispatch} (hd : d ∈ dispatches (session server world cs).trace) (hph : d.event.phase? ≠ none)

include hok hkeep hd hph

/-- A hook that is called is on the method before the dispatch, if both have one. -/
theorem passes_of_calls {i : ℕ} {hook : AdHook σ} (hi : server.hooks[i]? = some hook)
    (hcall : d.Calls i) : hook.Passes d.before := by
  obtain ⟨v, hv, rfl, hcalled⟩ := hcall
  obtain ⟨hook', hi', -, hiff⟩ := (boundary_visits hok hd hph).2 v hv
  obtain rfl := Option.some.inj (hi.symm.trans hi')
  rw [passes_congr hook (visit_method hkeep hd hph hv)] at hiff
  exact hiff.1 hcalled

theorem allPass_of_passes
    (hpass : ∀ hook ∈ server.hooks, hook.cb.isSome → hook.Passes d.before) :
    d.AllPass server.hooks := by
  intro v hv hook hi
  rw [passes_congr hook (visit_method hkeep hd hph hv)]
  obtain ⟨hook', hi', hcb, -⟩ := (boundary_visits hok hd hph).2 v hv
  obtain rfl := Option.some.inj (hi.symm.trans hi')
  exact hpass hook (List.mem_of_getElem? hi) hcb

end

/-- A hook that misses a CLOSE is given fewer of them than of INIT. -/
theorem deliveries_ne_cycles (hok : GoOn server.hooks) (hkeep : KeepMethod server.hooks) {world : σ}
    {cs : List Callback} (hfree : .connFree ∈ (session server world cs).trace) {d : Dispatch}
    (hd : d ∈ dispatches (session server world cs).trace) (hph : d.event.phase? = some .close)
    {i : ℕ} {hook : AdHook σ} (hi : server.hooks[i]? = some hook) (hcb : hook.cb.isSome)
    (hcall : ¬d.Calls i) (m : ℕ) : deliveries i (dispatches (session server world cs).trace) ≠
      cycles m := by
  intro hm
  obtain ⟨n, -, hfreed⟩ := session_phases server world cs
  have hlt := count_deliveries_lt hd hph hcall
  have heq : (deliveries i (dispatches (session server world cs).trace)).count .init = _ :=
    count_deliveries_eq fun d hd hph =>
      calls_of_allPass hok hd (by rw [hph]; simp) (allPass_init hkeep hd hph) hi hcb
  rw [hm, hfreed hfree, count_cycles, count_cycles] at heq hlt
  omega

/-- Hooks that go on are given INIT and CLOSE in turn, and as often, where the filter passes them over
at neither.  Where they leave the method alone on these events, that is exactly where at every CLOSE
the connection has no method or that of each hook registered on one. -/
theorem init_close_paired (hok : GoOn server.hooks) (world : σ) (cs : List Callback) :
    let s := session server world cs
    let ds := dispatches s.trace
    ((∀ d ∈ ds, d.event.phase? ≠ none → d.AllPass server.hooks) →
      ∀ i, ∀ hook ∈ server.hooks[i]?, hook.cb.isSome →
        ∃ n, deliveries i ds <+: cycles n ∧ (.connFree ∈ s.trace → deliveries i ds = cycles n)) ∧
    (KeepMethod server.hooks → .connFree ∈ s.trace →
      ((∀ i, ∀ hook ∈ server.hooks[i]?, hook.cb.isSome → ∃ n, deliveries i ds = cycles n) ↔
        ∀ d ∈ ds, d.event.phase? = some .close →
          ∀ hook ∈ server.hooks, hook.cb.isSome → hook.Passes d.before)) := by
  intro s ds
  obtain ⟨n, hpre, hfreed⟩ := session_phases server world cs
  have hpaired : (∀ d ∈ ds, d.event.phase? ≠ none → d.AllPass server.hooks) →
      ∀ i, ∀ hook ∈ server.hooks[i]?, hook.cb.isSome →
        ∃ n, deliveries i ds <+: cycles n ∧ (.connFree ∈ s.trace → deliveries i ds = cycles n) := by
    intro hall i hook hi hcb
    have heq : deliveries i ds = phases ds := deliveries_eq_phases fun d hd hph =>
      calls_of_allPass hok hd hph (hall d hd hph) hi hcb
    rw [heq]
    exact ⟨n, hpre, hfreed⟩
  refine ⟨hpaired, fun hkeep hfree => ?_⟩
  constructor
  · intro hall d hd hph hook hmem hcb
    obtain ⟨i, hi⟩ := List.getElem?_of_mem hmem
    obtain ⟨m, hm⟩ := hall i hook hi hcb
    apply passes_of_calls hok hkeep hd (by rw [hph]; simp) hi
    by_contra hcall
    exact deliveries_ne_cycles hok hkeep hfree hd hph hi hcb hcall m hm
  · intro hclose i hook hi hcb
    have hall : ∀ d ∈ ds, d.event.phase? ≠ none → d.AllPass server.hooks := by
      intro d hd hph
      cases h : d.event.phase? with
      | none => exact absurd h hph
      | some ph =>
        cases ph with
        | init => exact allPass_init hkeep hd h
        | close => exact allPass_of_passes hok hkeep hd hph (hclose d hd h)
    obtain ⟨m, -, hm⟩ := hpaired hall i hook hi hcb
    exact ⟨m, hm hfree⟩

end

/-- A server with a hook that sets the method `GET` when bytes arrive, and a hook for `POST`. -/
def getServer : AdServer Unit :=
  adServerRegisterHookOnMethod
    (adServerRegisterHook ⟨[], []⟩ (some fun event conn world =>
      some (adOk, if event.read then adConnSetMethod conn.toConnView (some (bytes "GET"))
        else conn.toConnView, world)))
    (some (bytes "POST")) (some fun _ conn world => some (adOk, conn.toConnView, world))

theorem goOn_getServer : GoOn getServer.hooks := by
  intro hook hmem cb hcb event _ conn world
  obtain rfl | hmem := List.mem_cons.1 hmem
  · cases hcb
    exact ⟨_, _, rfl⟩
  · obtain rfl := List.mem_singleton.1 hmem
    cases hcb
    exact ⟨_, _, rfl⟩

/-- The hook for `POST` is given INIT, but not CLOSE. -/
theorem init_without_close :
    let s := session getServer () [.read (bytes "GET"), .event { eof := true }]
    GoOn getServer.hooks ∧ Output.connFree ∈ s.trace ∧
      ¬∃ n, deliveries 1 (dispatches s.trace) = cycles n := by
  intro s
  refine ⟨goOn_getServer, by decide +kernel, ?_⟩
  rintro ⟨n, hn⟩
  have hdel : deliveries 1 (dispatches s.trace) = [.init] := by decide +kernel
  have hinit := congrArg (List.count Phase.init) (hdel.symm.trans hn)
  have hclose := congrArg (List.count Phase.close) (hdel.symm.trans hn)
  rw [count_cycles] at hinit hclose
  exact absurd (hinit.trans hclose.symm) (by decide)

/-- A server with pipelining, a hook that sets the method `GET` when bytes arrive, and a hook for `GET`
that is done with every request. -/
def pipelinedServer : AdServer Unit :=
  adServerRegisterHookOnMethod
    (adServerRegisterHook ⟨[(bytes "server.request_pipelining", bytes "1")], []⟩
      (some fun event conn world =>
        some (adOk, if event.read then adConnSetMethod conn.toConnView (some (bytes "GET"))
          else conn.toConnView, world)))
    (some (bytes "GET")) (some fun event conn world =>
      some (if event.read then adDone else adOk, conn.toConnView, world))

theorem goOn_pipelinedServer : GoOn pipelinedServer.hooks := by
  intro hook hmem cb hcb event he conn world
  obtain rfl | hmem := List.mem_cons.1 hmem
  · cases hcb
    exact ⟨_, _, rfl⟩
  · obtain rfl := List.mem_singleton.1 hmem
    cases hcb
    have hread : event.read = false := by
      rcases he with rfl | rfl | ⟨t, rfl⟩ <;> rfl
    exact ⟨conn.toConnView, world, by simp [hread]⟩

/-- A request is answered, and the peer hangs up: the first CLOSE finds the method set. -/
theorem init_close_paired_get :
    let ds := dispatches (session pipelinedServer ()
      [.read (bytes "GET / HTTP/1.1\r\n\r\n"), .event { eof := true }]).trace
    (∃ d ∈ ds, d.event.phase? = some .close ∧ d.before.method = some (bytes "GET")) ∧
      ∃ n, deliveries 1 ds = cycles n := by
  intro ds
  refine ⟨by decide +kernel, ?_⟩
  obtain ⟨n, -, hn⟩ := (init_close_paired goOn_pipelinedServer ()
    [.read (bytes "GET / HTTP/1.1\r\n\r\n"), .event { eof := true }]).1
    (by decide +kernel) 1 ⟨some (bytes "GET"), _⟩ rfl rfl
  exact ⟨n, hn (by decide +kernel)⟩

end Asyncd
