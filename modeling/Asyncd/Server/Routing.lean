import Asyncd.Server.Handler

/-!
# What reaches the hooks behind the HTTP handler

With `ad_http_handler` first, `AD_EVENT_READ` comes to the other hooks when the parser has returned
`AD_OK`.  Where the parser had a line to read, that is for a complete request
(`later_reads_complete_iff`) and to hooks of its method (`method_routing_iff`).
-/

open CString ByteLines

namespace Asyncd

/-! ## Complete requests -/

/-- The dispatch comes to a hook behind the first one and calls it. -/
def Dispatch.ReachesLater (d : Dispatch) : Prop := ∃ v ∈ d.visits, 1 ≤ v.index ∧ v.called = true

instance (d : Dispatch) : Decidable d.ReachesLater := inferInstanceAs (Decidable (∃ v ∈ _, _ ∧ _))

/-- Before the dispatch, the parser has a request line to read or has read it. -/
def Dispatch.HasLine (d : Dispatch) : Prop :=
  ∀ http ∈ d.before.httpState, Asyncd.HasLine http d.before.inb

instance (d : Dispatch) : Decidable d.HasLine := inferInstanceAs (Decidable (∀ http ∈ _, _))

section

variable {σ : Type} [UrlDecoder]

/-- The parser that is called in the dispatch finds the request complete. -/
def Dispatch.Complete (d : Dispatch) : Prop :=
  ∃ http ∈ d.before.httpState, (httpParser http d.before.inb).2.1.request.status = .done

instance (d : Dispatch) : Decidable d.Complete := inferInstanceAs (Decidable (∃ http ∈ _, _))

/-- The dispatches of `AD_EVENT_READ` in a trace. -/
def reads (tr : List Output) : List Dispatch := (dispatches tr).filter (·.event = evRead)

variable {server : AdServer σ} {alloc : σ → Bool} {hooks : List (AdHook σ)}

theorem read_reaches_later (hs : server.hooks = httpHook alloc :: hooks) {conn : AdConn} {world : σ}
    {v : Visit} (hv : v ∈ (callHooks server evRead conn world).2.2.2) (hi : 1 ≤ v.index) :
    ∃ http, conn.httpState = some http ∧ (httpParser http conn.inb).1 = .ret adOk := by
  have hinit : evRead.init = false := rfl
  cases hx : conn.httpState with
  | none =>
    rw [callHooks_handler hs, adHttpHandler_read_none alloc hinit rfl hx] at hv
    obtain rfl := List.mem_singleton.1 hv
    exact absurd hi (by simp)
  | some http =>
    obtain ⟨status, hret, hrun⟩ := adHttpHandler_read alloc hinit rfl hx world
    by_cases hok : status = adOk
    · exact ⟨http, rfl, by rw [hret, hok]⟩
    · rw [callHooks_handler_stop hs hrun hok] at hv
      obtain rfl := List.mem_singleton.1 hv
      exact absurd hi (by simp)

/-- A later hook that is given `AD_EVENT_READ` is given a complete request exactly if the parser had a
request line. -/
theorem complete_iff_hasLine (hs : server.hooks = httpHook alloc :: hooks) {world : σ}
    {cs : List Callback} {d : Dispatch} (hd : d ∈ reads (session server world cs).trace)
    (hl : d.ReachesLater) : d.Complete ↔ d.HasLine := by
  obtain ⟨hd, he⟩ := List.mem_filter.1 hd
  obtain ⟨v, hv, hi, -⟩ := hl
  obtain ⟨world', hvisits, -⟩ := session_calls server world cs hd
  rw [hvisits, of_decide_eq_true he] at hv
  obtain ⟨http, hx, hok⟩ := read_reaches_later hs hv hi
  simp only [Dispatch.Complete, Dispatch.HasLine, hx, Option.mem_some_iff, exists_eq_left',
    forall_eq']
  constructor
  · intro hdone
    by_contra hline
    rw [httpParser_of_not_hasLine hline] at hdone
    exact absurd ((Classical.not_imp.1 hline).1.symm.trans hdone) (by decide)
  · intro hline
    exact ((parserLaw_iff http d.before.inb).2 hline).ok.1 hok

/-- The return value of the parser follows the status of the request exactly where there was a line to
read, and so hooks behind the handler get `AD_EVENT_READ` for complete requests only. -/
theorem later_reads_complete_iff (hs : server.hooks = httpHook alloc :: hooks) (world : σ)
    (cs : List Callback) :
    (∀ (http : AdHttp) (inb : Bytes), ParserLaw http inb ↔ HasLine http inb) ∧
      ((∀ d ∈ reads (session server world cs).trace, d.ReachesLater → d.Complete) ↔
        ∀ d ∈ reads (session server world cs).trace, d.ReachesLater → d.HasLine) := by
  refine ⟨parserLaw_iff, ?_⟩
  apply forall_congr'
  intro d
  apply imp_congr_right
  intro hd
  apply imp_congr_right
  exact complete_iff_hasLine hs hd

end

/-- A server with `ad_http_handler` and one hook that does nothing. -/
def quietServer : AdServer Unit :=
  adServerRegisterHook
    (adServerRegisterHook ⟨[], []⟩ (some (@adHttpHandler Unit percentDecoder fun _ => true)))
    (some fun _ conn world => some (adOk, conn.toConnView, world))

/-- The first bytes of a request line go to the hook behind the handler. -/
theorem later_read_incomplete :
    ¬@ParserLaw percentDecoder freshHttp (bytes "GET") ∧
      ¬∀ d ∈ reads (session quietServer () [.read (bytes "GET")]).trace,
        d.ReachesLater → @Dispatch.Complete percentDecoder d := by
  refine ⟨fun h => ?_, by decide +kernel⟩
  have hdone := (@ParserLaw.ok percentDecoder _ _ h).1 rfl
  exact absurd hdone (by decide)

/-- A request line without its end and then the rest. -/
theorem later_reads_complete_get :
    let ds := reads (session quietServer () [.read (bytes "GET / HTTP/1.1\r\n"),
      .read (bytes "\r\n")]).trace
    (∃ d ∈ ds, d.ReachesLater) ∧ ∀ d ∈ ds, d.ReachesLater → @Dispatch.Complete percentDecoder d :=
  ⟨by decide +kernel, (@later_reads_complete_iff Unit percentDecoder quietServer (fun _ => true) _ rfl
    () _).2.2 (by decide +kernel)⟩

/-! ## Hooks on methods -/

/-- The method `m` of a connection with the outline `o` is unset or that of the request, and the method
of the request is set from the request line on. -/
structure InStep (o : Option (ReqStatus × Option Bytes)) (m : Option Bytes) : Prop where
  idle : o = none → m = none
  agree : ∀ r ∈ o, m = none ∨ m = r.2
  unset : ∀ r ∈ o, r.1 = .init → r.2 = none
  set : ∀ r ∈ o, r.1 ≠ .init → r.1 ≠ .error → r.2.isSome

theorem InStep.start : InStep none none := ⟨fun _ => rfl, by simp, by simp, by simp⟩

theorem InStep.of_known {http : AdHttp} (h : MethodKnown http) {m : Option Bytes}
    (hm : m = none ∨ m = http.request.method) :
    InStep (some (http.request.status, http.request.method)) m := by
  refine ⟨fun h => (by cases h), ?_, ?_, ?_⟩
  · rintro _ ⟨⟩
    exact hm
  · rintro _ ⟨⟩
    exact h.unset
  · rintro _ ⟨⟩
    exact h.set

theorem userHook_keeps {σ : Type} {hook : UserHook σ} (hm : hook.LeavesMethod) (event : Event)
    (K : Option (ReqStatus × Option Bytes) → Option Bytes → Prop) :
    hook.hook.Keeps event fun conn _ => K conn.outline conn.method := by
  intro cb hcb conn world h status view world' hrun
  obtain ⟨ho, hv⟩ := UserHook.cb_outline hcb hrun
  simp only [ho, hv hm]
  exact h

section

variable {σ : Type} [UrlDecoder]

theorem afterParser_outline (conn : AdConn) (http : AdHttp) :
    (afterParser conn http).outline = some ((httpParser http conn.inb).2.1.request.status,
      (httpParser http conn.inb).2.1.request.method) := rfl

theorem afterParser_method (conn : AdConn) (http : AdHttp) :
    (afterParser conn http).method = if conn.method = none then
      (httpParser http conn.inb).2.1.request.method else conn.method := rfl

theorem afterParser_agree {conn : AdConn} {http : AdHttp} (h : InStep conn.outline conn.method)
    (hx : conn.httpState = some http) :
    MethodKnown (httpParser http conn.inb).2.1 ∧
      (afterParser conn http).method = (httpParser http conn.inb).2.1.request.method := by
  have ho : conn.outline = some (http.request.status, http.request.method) := by
    rw [ConnView.outline, hx]
    rfl
  rw [ho] at h
  refine ⟨httpParser_known ⟨h.unset _ rfl, h.set _ rfl⟩ _, ?_⟩
  rw [afterParser_method]
  split_ifs with hm
  · rfl
  · -- the method was set, so it stays
    have hagree := (h.agree _ rfl).resolve_left hm
    have hst : http.request.status ≠ .init := fun h0 => hm (hagree.trans (h.unset _ rfl h0))
    rw [httpParser_method hst]
    exact hagree

theorem InStep.afterParser {conn : AdConn} {http : AdHttp} (h : InStep conn.outline conn.method)
    (hx : conn.httpState = some http) :
    InStep (afterParser conn http).outline (afterParser conn http).method :=
  .of_known (afterParser_agree h hx).1 (Or.inr (afterParser_agree h hx).2)

theorem httpHook_keeps (alloc : σ → Bool) {event : Event} (hi : event.init = false) :
    (httpHook alloc).Keeps event fun conn _ => InStep conn.outline conn.method := by
  rintro _ ⟨⟩ conn world h status view world' hrun
  by_cases hr : event.read = true
  · cases hx : conn.httpState with
    | none =>
      rw [adHttpHandler_read_none alloc hi hr hx] at hrun
      cases hrun
    | some http =>
      obtain ⟨st, -, he⟩ := adHttpHandler_read alloc hi hr hx world
      rw [he] at hrun
      cases hrun
      exact h.afterParser hx
  · rw [adHttpHandler_idle alloc hi (by simpa using hr) hrun]
    exact h

end

/-! ## Routing -/

/-- A called hook that is registered on a method is on the method of the request. -/
def Dispatch.Routed {σ : Type} (hooks : List (AdHook σ)) (d : Dispatch) : Prop :=
  ∀ v ∈ d.visits, v.called = true → ∀ hook ∈ hooks[v.index]?, ∀ m ∈ hook.method,
    ∃ http ∈ v.conn.httpState, http.request.method = some m

/-- No hook that is registered on a method is called. -/
def Dispatch.NoneOnMethod {σ : Type} (hooks : List (AdHook σ)) (d : Dispatch) : Prop :=
  ∀ v ∈ d.visits, v.called = true → ∀ hook ∈ hooks[v.index]?, hook.method = none

theorem method_iff_outline (v : ConnView) (m : Bytes) :
    (∃ http ∈ v.httpState, http.request.method = some m) ↔ ∃ st, v.outline = some (st, some m) := by
  cases hx : v.httpState with
  | none => simp [ConnView.outline, hx]
  | some http => simp [ConnView.outline, hx]

instance {σ : Type} (hooks : List (AdHook σ)) (d : Dispatch) : Decidable (d.Routed hooks) :=
  inferInstanceAs (Decidable (∀ v ∈ _, _ → ∀ hook ∈ _, ∀ m ∈ _, ∃ http ∈ _, _))

instance {σ : Type} (hooks : List (AdHook σ)) (d : Dispatch) : Decidable (d.NoneOnMethod hooks) :=
  inferInstanceAs (Decidable (∀ v ∈ _, _ → ∀ hook ∈ _, AdHook.method hook = none))

theorem Dispatch.NoneOnMethod.routed {σ : Type} {hooks : List (AdHook σ)} {d : Dispatch}
    (h : d.NoneOnMethod hooks) : d.Routed hooks := by
  intro v hv hcalled hook hhook m hm
  rw [h v hv hcalled hook hhook] at hm
  cases hm

theorem connReset_outline (conn : AdConn) : (connReset conn).1.outline = none := by
  have hslot : (resetSlot conn.extra).1.data = none := by
    unfold resetSlot
    split
    · assumption
    · split <;> rfl
  simp only [ConnView.outline, ConnView.httpState, connReset, hslot]
  rfl

section

variable {σ : Type} [UrlDecoder]

variable {server : AdServer σ} {alloc : σ → Bool} {hooks : List (UserHook σ)}
  (hs : server.hooks = httpHook alloc :: hooks.map UserHook.hook)
  (hm : ∀ hook ∈ hooks, hook.LeavesMethod)

include hs hm

theorem later_rule (event : Event) {K : Option (ReqStatus × Option Bytes) → Option Bytes → Prop}
    (conn : AdConn) (world : σ) (h : K conn.outline conn.method) :
    let r := callHooksFrom event 1 (hooks.map UserHook.hook) conn world
    K r.2.1.outline r.2.1.method ∧ ∀ v ∈ r.2.2.2, K v.conn.outline v.conn.method ∧
      ∀ hook ∈ server.hooks[v.index]?, v.called = true ↔ hook.Passes v.conn := by
  have hkeeps : ∀ hook ∈ hooks.map UserHook.hook,
      hook.Keeps event fun conn (_ : σ) => K conn.outline conn.method := by
    intro hook hmem
    obtain ⟨user, huser, rfl⟩ := List.mem_map.1 hmem
    exact userHook_keeps (hm user huser) event K
  obtain ⟨hend, hvisits⟩ := callHooksFrom_rule hkeeps 1 h
  refine ⟨hend, fun v hv => ?_⟩
  obtain ⟨⟨hook, hvisit⟩, -, hK⟩ := hvisits v hv
  refine ⟨hK, fun hook' hmem => ?_⟩
  have hle := hvisit.le
  have hget := hvisit.get
  rw [hs, show v.index = v.index - 1 + 1 by omega, List.getElem?_cons_succ, hget] at hmem
  obtain rfl := Option.some.inj hmem
  exact hvisit.called

omit hm in
theorem noneOnMethod_first (event : Event) (conn before : AdConn) (status : Option ℤ) :
    Dispatch.NoneOnMethod server.hooks ⟨event, before, [⟨0, true, conn⟩], status⟩ := by
  intro v hv _
  rw [List.mem_singleton.1 hv, hs]
  rintro _ ⟨⟩
  rfl

omit hm in
/-- The visits behind the handler are what there is to be said of a dispatch that it lets through. -/
theorem routed_of_later {event : Event} {before conn : AdConn} {status : Option ℤ}
    {visits : List Visit} (h : ∀ v ∈ visits, v.called = true → ∀ hook ∈ server.hooks[v.index]?,
      ∀ m ∈ hook.method, ∃ http ∈ v.conn.httpState, http.request.method = some m) :
    Dispatch.Routed server.hooks ⟨event, before, ⟨0, true, conn⟩ :: visits, status⟩ := by
  intro v hv
  rcases List.mem_cons.1 hv with rfl | hv
  · exact (noneOnMethod_first hs event conn before status).routed _ (List.mem_singleton_self _)
  · exact h v hv

theorem later_routed {conn : AdConn} {m : Bytes} (ho : conn.outline = some (.done, some m))
    (hm' : conn.method = some m) (world : σ) :
    ∀ v ∈ (callHooksFrom evRead 1 (hooks.map UserHook.hook) conn world).2.2.2, v.called = true →
      ∀ hook ∈ server.hooks[v.index]?, ∀ M ∈ hook.method,
        ∃ http ∈ v.conn.httpState, http.request.method = some M := by
  intro v hv hcalled hook hhook M hM
  obtain ⟨⟨ho, hmeth⟩, hpass⟩ := (later_rule hs hm evRead
    (K := fun o m' => o = some (.done, some m) ∧ m' = some m) conn world ⟨ho, hm'⟩).2 v hv
  have hsame := (hpass hook hhook).1 hcalled
  have heq : M = m := by
    by_contra hne
    refine hsame ⟨by rw [hM]; rfl, by rw [hmeth]; rfl, ?_⟩
    rw [hM, hmeth]
    exact fun heq => hne (Option.some.inj heq)
  rw [heq]
  exact (method_iff_outline _ _).2 ⟨_, ho⟩

/-- A request of which nothing is known has no method on any visit. -/
theorem later_unknown {conn : AdConn} {st : ReqStatus} (ho : conn.outline = some (st, none))
    (world : σ) :
    ∀ v ∈ (callHooksFrom evRead 1 (hooks.map UserHook.hook) conn world).2.2.2, ∀ m,
      ¬∃ http ∈ v.conn.httpState, http.request.method = some m := by
  intro v hv m hex
  obtain ⟨st', ho'⟩ := (method_iff_outline _ _).1 hex
  have hkeep := ((later_rule hs hm evRead (K := fun o _ => o = some (st, none)) conn world ho).2 v hv).1
  have hcon := ho'.symm.trans hkeep
  cases hcon

theorem afterParser_routed {conn : AdConn} {http : AdHttp} (h : InStep conn.outline conn.method)
    (hx : conn.httpState = some http) (hret : (httpParser http conn.inb).1 = .ret adOk)
    (hline : HasLine http conn.inb) (world : σ) :
    ∀ v ∈ (callHooksFrom evRead 1 (hooks.map UserHook.hook)
        { conn with toConnView := afterParser conn http } world).2.2.2, v.called = true →
      ∀ hook ∈ server.hooks[v.index]?, ∀ M ∈ hook.method,
        ∃ http ∈ v.conn.httpState, http.request.method = some M := by
  obtain ⟨hknown, hmeth⟩ := afterParser_agree h hx
  have hdone := ((parserLaw_iff http conn.inb).2 hline).ok.1 hret
  obtain ⟨m, hm'⟩ := Option.isSome_iff_exists.1
    (hknown.set (by rw [hdone]; decide) (by rw [hdone]; decide))
  have hmethod : (afterParser conn http).method = some m := hmeth.trans hm'
  have houtline : (afterParser conn http).outline = some (.done, some m) := by
    rw [afterParser_outline, hdone, hm']
  exact later_routed hs hm houtline hmethod world

omit hs hm in
theorem afterParser_outline_init {conn : AdConn} {http : AdHttp}
    (h : InStep conn.outline conn.method) (hx : conn.httpState = some http)
    (hline : ¬HasLine http conn.inb) : (afterParser conn http).outline = some (.init, none) := by
  have hsame := httpParser_of_not_hasLine hline
  have hst : http.request.status = .init := (Classical.not_imp.1 hline).1
  have hknown := (afterParser_agree h hx).1
  have hnone : http.request.method = none := by
    rw [hsame] at hknown
    exact hknown.unset hst
  rw [afterParser_outline, hsame, hst, hnone]

/-- A dispatch of `AD_EVENT_READ` gives the request to hooks of its method only, exactly if the parser
has a request line or no hook on a method is called. -/
theorem read_routed_iff {conn : AdConn} (h : InStep conn.outline conn.method) (world : σ) :
    let d : Dispatch := ⟨evRead, conn, (callHooks server evRead conn world).2.2.2,
      (callHooks server evRead conn world).1⟩
    d.Routed server.hooks ↔ d.HasLine ∨ d.NoneOnMethod server.hooks := by
  have hinit : evRead.init = false := rfl
  intro d
  cases hx : conn.httpState with
  | none =>
    have hnone : d.NoneOnMethod server.hooks := by
      simp only [d, callHooks_handler hs, adHttpHandler_read_none alloc hinit rfl hx]
      exact noneOnMethod_first hs _ _ _ _
    exact iff_of_true hnone.routed (Or.inr hnone)
  | some http =>
    obtain ⟨status, hret, hrun⟩ := adHttpHandler_read alloc hinit rfl hx world
    by_cases hok : status = adOk
    swap
    · have hnone : d.NoneOnMethod server.hooks := by
        simp only [d, callHooks_handler_stop hs hrun hok]
        exact noneOnMethod_first hs _ _ _ _
      exact iff_of_true hnone.routed (Or.inr hnone)
    subst hok
    have hd : d.HasLine ↔ HasLine http conn.inb := by
      simp [Dispatch.HasLine, d, hx]
    by_cases hline : HasLine http conn.inb
    · refine iff_of_true ?_ (Or.inl (hd.2 hline))
      simp only [d, callHooks_handler_ok hs hrun rfl]
      apply routed_of_later hs
      exact afterParser_routed hs hm h hx hret hline world
    · have ho := afterParser_outline_init h hx hline
      refine ⟨fun hr => Or.inr ?_, fun hor => (hor.resolve_left fun hl => hline (hd.1 hl)).routed⟩
      intro v hv hcalled hook hhook
      by_contra hsome
      obtain ⟨M, hM⟩ := Option.ne_none_iff_exists'.1 hsome
      have hex := hr v hv hcalled hook hhook M hM
      simp only [d, callHooks_handler_ok hs hrun rfl] at hv
      rcases List.mem_cons.1 hv with rfl | hv
      · exact hsome (noneOnMethod_first hs evRead conn conn d.status _ (List.mem_singleton_self _) rfl
          hook hhook)
      · exact later_unknown hs hm ho world v hv M hex

theorem httpHooks_invariant :
    Invariant server (fun conn _ => conn.outline = none ∧ conn.method = none)
      (fun conn _ => InStep conn.outline conn.method) fun d =>
        d.event = evRead → (d.Routed server.hooks ↔ d.HasLine ∨ d.NoneOnMethod server.hooks) where
  blank _ := ⟨rfl, rfl⟩
  init event conn world hi h := by
    refine ⟨?_, fun he => absurd hi (by rw [show event = evRead from he]; decide)⟩
    obtain ⟨ho, hmeth⟩ := h
    rw [callHooks_handler hs]
    cases ha : alloc world with
    | false =>
      have hrun : adHttpHandler alloc event conn world = some (adClose, conn.toConnView, world) := by
        simp [adHttpHandler, hi, httpNew, ha]
      rw [hrun]
      change InStep conn.outline conn.method
      rw [ho, hmeth]
      exact .start
    | true =>
      have hrun : adHttpHandler alloc event conn world = some (adOk,
          adConnSetExtra conn.toConnView (some (.http freshHttp)) (some .httpFree), world) := by
        simp [adHttpHandler, hi, httpNew, ha]
      rw [hrun]
      refine (later_rule hs hm event (K := InStep) _ world ?_).1
      change InStep (some (.init, none)) conn.method
      rw [hmeth]
      exact .of_known methodKnown_fresh (Or.inl rfl)
  call event conn world hi h := by
    refine ⟨?_, ?_⟩
    · have hkeeps : ∀ hook ∈ server.hooks,
          hook.Keeps event fun conn (_ : σ) => InStep conn.outline conn.method := by
        rw [hs]
        refine List.forall_mem_cons.2 ⟨httpHook_keeps alloc hi, fun hook hmem => ?_⟩
        obtain ⟨user, huser, rfl⟩ := List.mem_map.1 hmem
        exact userHook_keeps (hm user huser) event InStep
      exact (callHooksFrom_rule hkeeps 0 h).1
    · rintro rfl
      exact read_routed_iff hs hm h world
  status _ _ _ h := h
  buffers _ _ _ _ h := h
  reset _ := ⟨connReset_outline _, rfl⟩

/-- In every run, hooks on a method are given `AD_EVENT_READ` for requests of that method only, exactly
if the parser has a request line whenever one of them is called. -/
theorem method_routing_iff (world : σ) (cs : List Callback) :
    (∀ d ∈ reads (session server world cs).trace, d.Routed server.hooks) ↔
      ∀ d ∈ reads (session server world cs).trace, d.HasLine ∨ d.NoneOnMethod server.hooks := by
  apply forall_congr'
  intro d
  apply imp_congr_right
  intro hd
  obtain ⟨hd, he⟩ := List.mem_filter.1 hd
  exact ((httpHooks_invariant hs hm).session world cs).2 d hd (of_decide_eq_true he)

end

/-- A server with `ad_http_handler` and a hook for `POST`, which does nothing. -/
def postServer : AdServer Unit :=
  adServerRegisterHookOnMethod
    (adServerRegisterHook ⟨[], []⟩ (some (@adHttpHandler Unit percentDecoder fun _ => true)))
    (some (bytes "POST")) (UserHook.mk none (some fun _ _ world => some ([], adOk, world))).hook.cb

/-- The first bytes of a `GET` request go to the hook for `POST`. -/
theorem routed_partial_get :
    ¬∀ d ∈ reads (session postServer () [.read (bytes "GET")]).trace, d.Routed postServer.hooks := by
  decide +kernel

/-- A whole `GET` request comes to the hook for `POST` and does not go to it. -/
theorem method_routing_get :
    let ds := reads (session postServer () [.read (bytes "GET / HTTP/1.1\r\n\r\n")]).trace
    (∃ d ∈ ds, d.visits.length = 2) ∧ ∀ d ∈ ds, d.Routed postServer.hooks := by
  refine ⟨by decide +kernel, ?_⟩
  exact (@method_routing_iff Unit percentDecoder postServer (fun _ => true)
    [⟨some (bytes "POST"), some fun _ _ world => some ([], adOk, world)⟩] rfl
    (by
      intro hook hmem cb hcb event conn world calls status world' hrun m
      obtain rfl := List.mem_singleton.1 hmem
      cases hcb
      cases hrun
      simp) () _).2 (by decide +kernel)

end Asyncd
