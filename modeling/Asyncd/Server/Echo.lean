import Asyncd.Server.Clients

/-!
# The echo server

`echo_tcp_server.c` keeps a counter for each connection.  At each `AD_EVENT_READ` it takes one line from
the in buffer and sends it back with the counter, and it closes the connection after three lines.  Lines
that arrive together wait for later segments, so a client is sent back the lines that are served, one at
each segment, up to the third (`echoTcp_answers`).
-/

open CString ByteLines

namespace Asyncd

namespace EchoTcp

/-- What is sent back for a line. -/
def echo (data : Bytes) (counter : ℕ) : Bytes :=
  cstr data ++ bytes ", counter:" ++ decimal counter ++ bytes ", userdata:SHARED-USERDATA\n"

/-- `my_conn_handler`.  `userdata` points to the counter; `calloc` is taken to succeed. -/
def myConnHandler (event : Event) (conn : AdConn) (world : Unit) : Option (ℤ × ConnView × Unit) :=
  if event.init then
    some (adOk, adConnSetUserdata conn.toConnView (some (.user 0)) (some (.user 0)), world)
  else if event.read then
    match conn.userdata.data with
    | some (.user counter) =>
      match evbufferReadlnAny conn.inb with
      | some (data, inb) =>
        some (if counter + 1 < 3 then adOk else adClose,
          { conn.toConnView with
            inb := inb
            out := conn.out ++ echo data (counter + 1)
            userdata := { conn.userdata with data := some (.user (counter + 1)) } }, world)
      | none => some (if counter < 3 then adOk else adClose, conn.toConnView, world)
    | _ => none
  else some (adOk, conn.toConnView, world)

end EchoTcp

/-- The server that `main` sets up, with the options that `ad_server_start` adds. -/
def echoTcpServer : AdServer Unit :=
  let server := adServerSetOption ⟨[], []⟩ (bytes "server.port") (bytes "2222")
  let server := adServerSetOption server (bytes "server.addr") (bytes "0.0.0.0")
  let server := adServerSetOption server (bytes "server.timeout") (bytes "5")
  let server := adServerRegisterHook server (some EchoTcp.myConnHandler)
  let server := adServerSetOption server (bytes "server.request_pipelining") (bytes "1")
  let server := adServerSetOption server (bytes "server.thread") (bytes "0")
  let server := adServerSetOption server (bytes "server.free_on_stop") (bytes "1")
  setUndefinedOptions server

theorem echoTcp_hooks : echoTcpServer.hooks = [⟨none, some EchoTcp.myConnHandler⟩] :=
  setUndefinedOptions_hooks _

/-! ## Lines -/

/-- A line of a client: some bytes, none of which ends a line. -/
structure TextLine where
  text : Bytes
  nonempty : text ≠ []
  plain : ∀ c ∈ text, ¬IsEolByte c

/-- The line as it is sent. -/
def TextLine.wire (l : TextLine) : Bytes := l.text ++ [lf]

/-- Several lines, one after the other. -/
def textLines (ls : List TextLine) : Bytes := ls.flatMap TextLine.wire

theorem TextLine.length_wire (l : TextLine) : l.wire.length = l.text.length + 1 := by
  rw [wire, List.length_append, List.length_singleton]

theorem textLines_head {ls : List TextLine} {rest : Bytes} (h : rest <+: textLines ls) :
    ∀ c ∈ rest.head?, ¬IsEolByte c := by
  intro c hc
  cases ls with
  | nil =>
    rw [List.prefix_nil.1 h] at hc
    cases hc
  | cons l ls =>
    cases hrest : rest with
    | nil =>
      rw [hrest] at hc
      cases hc
    | cons a rest' =>
      rw [hrest] at hc h
      obtain rfl := Option.some.inj hc
      obtain ⟨b, text, htext⟩ := List.exists_cons_of_ne_nil l.nonempty
      have hwire : textLines (l :: ls) = b :: (text ++ [lf] ++ textLines ls) := by
        rw [textLines, List.flatMap_cons, TextLine.wire, htext]
        rfl
      rw [hwire] at h
      obtain rfl := (List.cons_prefix_cons.1 h).1
      exact l.plain a (htext ▸ List.mem_cons_self)

theorem readlnAny_short {ls : List TextLine} {q : Bytes} (hq : q <+: textLines ls)
    (hshort : ∀ l ∈ ls.head?, q.length < l.wire.length) : evbufferReadlnAny q = none := by
  apply evbufferReadlnAny_none
  cases ls with
  | nil =>
    rw [List.prefix_nil.1 hq]
    simp
  | cons l ls =>
    have hlen := hshort l rfl
    rw [l.length_wire] at hlen
    have htext : q <+: l.text := by
      apply List.prefix_of_prefix_length_le hq _ (by omega)
      rw [textLines, List.flatMap_cons, TextLine.wire, List.append_assoc]
      exact List.prefix_append _ _
    exact fun c hc => l.plain c (htext.subset hc)

theorem readlnAny_whole {l : TextLine} {ls : List TextLine} {q : Bytes}
    (hq : q <+: textLines (l :: ls)) (hlong : l.wire.length ≤ q.length) :
    ∃ rest, q = l.wire ++ rest ∧ rest <+: textLines ls ∧ evbufferReadlnAny q = some (l.text, rest) := by
  have hlines : textLines (l :: ls) = l.wire ++ textLines ls := List.flatMap_cons
  obtain ⟨rest, rfl⟩ : l.wire <+: q := by
    apply List.prefix_of_prefix_length_le _ hq hlong
    rw [hlines]
    exact List.prefix_append _ _
  rw [hlines] at hq
  have hrest : rest <+: textLines ls := (List.prefix_append_right_inj l.wire).1 hq
  refine ⟨rest, rfl, hrest, ?_⟩
  rw [TextLine.wire, List.append_assoc]
  exact evbufferReadlnAny_line l.plain (Or.inr rfl) (textLines_head hrest)

/-- The lines that are served: at each segment the first that is left, if it has arrived; `n` bytes have
been served and `k` have arrived behind them. -/
def servedLines (n k : ℕ) (ls : List TextLine) (cs : List Callback) : List TextLine :=
  Serving.served ls (endsFrom n (ls.map fun l => l.wire.length)) (readEnds (n + k) cs)

/-- What is sent back for them, from the counter `k` on. -/
def echoes (k : ℕ) (ls : List TextLine) : Bytes :=
  (ls.zipIdx (k + 1)).flatMap fun e => EchoTcp.echo e.1.text e.2

/-! ## One connection -/

/-- The connection has sent `k` lines back, and `p` waits in its in buffer. -/
def Exchange.Counts (x : Exchange Unit) (k : ℕ) (p sent : Bytes) : Prop :=
  ∃ conn, x.session.conn = some conn ∧ conn.status = adOk ∧
    conn.userdata = ⟨some (.user k), some (.user 0)⟩ ∧ conn.inb = p ∧ x.taken ++ conn.out = sent

theorem echoTcp_calls (event : Event) (conn : AdConn) {st : ℤ} {view : ConnView}
    (h : EchoTcp.myConnHandler event conn () = some (st, view, ())) :
    callHooks echoTcpServer event conn () =
      (some st, { conn with toConnView := view }, (), [⟨0, true, conn⟩]) := by
  rw [callHooks, echoTcp_hooks]
  exact callHooksFrom_last _ rfl rfl h 0

theorem counts_start : (exchange echoTcpServer () []).Counts 0 [] [] := by
  have hinit := echoTcp_calls evInitWrite blankConn rfl
  have hnew : (exchange echoTcpServer () []).session.conn = _ := dispatch_conn hinit
    fun status conn world => ⟨some { conn with status := status }, world, []⟩
  exact ⟨_, hnew, rfl, rfl, rfl, rfl⟩

variable {x : Exchange Unit} {k : ℕ} {p sent : Bytes}

theorem counts_lasting {ι : Type} (k : ι → ℕ) (p sent : ι → Bytes) :
    Lasting echoTcpServer (fun i x => x.Counts (k i) (p i) (sent i)) sent := by
  have hlasting : Lasting echoTcpServer (fun i x => ∃ conn, x.session.conn = some conn ∧
      (conn.status = adOk ∧ conn.userdata = ⟨some (.user (k i)), some (.user 0)⟩ ∧ conn.inb = p i) ∧
        x.taken ++ conn.out = sent i) sent := by
    apply lasting_of_conn
    · exact fun h => Or.inl h.1
    · exact fun out h => h
    · exact fun world h => ⟨⟨rfl, h.2⟩, _, echoTcp_calls evWrite _ rfl⟩
  simpa only [Exchange.Counts, and_assoc] using hlasting

theorem counts_short (hk : k < 3) (h : x.Counts k p sent) {seg : Bytes}
    (hread : evbufferReadlnAny (p ++ seg) = none) :
    (x.step echoTcpServer (.read seg)).Counts k (p ++ seg) sent := by
  obtain ⟨conn, hconn, hst, hdata, hinb, hsent⟩ := h
  have hnext := exchange_step_conn echoTcpServer hconn (c := .read seg) (by simp)
  let conn' : AdConn := { conn with inb := conn.inb ++ seg }
  have hread' : evbufferReadlnAny conn'.inb = none := by
    rw [← hread, ← hinb]
  have hrun : EchoTcp.myConnHandler evRead conn' () = some (adOk, conn'.toConnView, ()) := by
    simp [EchoTcp.myConnHandler, evRead, conn', hdata, hread', hk]
  rw [callback, connCb_conn (echoTcp_calls _ _ hrun) (Or.inl hst), connCbEnd_open (Or.inl rfl)] at hnext
  refine ⟨_, hnext.1, rfl, hdata, ?_, by rwa [hnext.2]⟩
  rw [← hinb]

theorem counts_line (h : x.Counts k p sent) {seg data rest : Bytes}
    (hread : evbufferReadlnAny (p ++ seg) = some (data, rest)) :
    k + 1 < 3 ∧ (x.step echoTcpServer (.read seg)).Counts (k + 1) rest
        (sent ++ EchoTcp.echo data (k + 1)) ∨
      ¬k + 1 < 3 ∧ (x.step echoTcpServer (.read seg)).Closing
        (sent ++ EchoTcp.echo data (k + 1)) := by
  obtain ⟨conn, hconn, hst, hdata, hinb, hsent⟩ := h
  have hnext := exchange_step_conn echoTcpServer hconn (c := .read seg) (by simp)
  let conn' : AdConn := { conn with inb := conn.inb ++ seg }
  let view : ConnView :=
    { conn'.toConnView with
      inb := rest
      out := conn.out ++ EchoTcp.echo data (k + 1)
      userdata := ⟨some (.user (k + 1)), some (.user 0)⟩ }
  have hread' : evbufferReadlnAny conn'.inb = some (data, rest) := by
    rw [← hread, ← hinb]
  have hrun : EchoTcp.myConnHandler evRead conn' () =
      some (if k + 1 < 3 then adOk else adClose, view, ()) := by
    simp [EchoTcp.myConnHandler, evRead, conn', view, hdata, hread']
  have hout : (x.step echoTcpServer (.read seg)).taken ++ (conn.out ++ EchoTcp.echo data (k + 1)) =
      sent ++ EchoTcp.echo data (k + 1) := by
    rw [hnext.2, ← List.append_assoc, hsent]
  rw [callback, connCb_conn (echoTcp_calls _ _ hrun) (Or.inl hst)] at hnext
  by_cases hk : k + 1 < 3
  · rw [if_pos hk, connCbEnd_open (Or.inl rfl)] at hnext
    exact Or.inl ⟨hk, _, hnext.1, rfl, rfl, rfl, hout⟩
  · rw [if_neg hk] at hnext
    exact Or.inr ⟨hk, closing_of_cbEnd _ _ hnext.1 rfl hout⟩

/-! ## Runs -/

theorem echoes_cons (k : ℕ) (l : TextLine) (ls : List TextLine) :
    echoes k (l :: ls) = EchoTcp.echo l.text (k + 1) ++ echoes (k + 1) ls := by
  rw [echoes, List.zipIdx_cons, List.flatMap_cons, echoes]

/-- What has been sent are the lines of `ls` that are sent back, and the connection is open exactly if
there are fewer than three in all and `stays`. -/
structure Exchange.Echoed (x : Exchange Unit) (k : ℕ) (sent : Bytes) (ls : List TextLine)
    (stays : Prop) : Prop where
  sent : x.sent = sent ++ echoes k (ls.take (3 - k))
  stays : x.Open ↔ k + ls.length < 3 ∧ stays

theorem Exchange.Counts.isOpen (h : x.Counts k p sent) : x.Open ∧ x.sent = sent := by
  obtain ⟨conn, hconn, hst, -, -, hsent⟩ := h
  refine ⟨⟨conn, hconn, Or.inl hst⟩, ?_⟩
  rw [Exchange.sent, hconn]
  exact hsent

/-- Once `k` lines have been sent back, and `p` of the lines `ls` has arrived. -/
theorem echoTcp_run (cs : List Callback) (ls : List TextLine) (hk : k < 3) (h : x.Counts k p sent)
    (hp : p ++ (arrivals (heard cs)).flatten <+: textLines ls) (n : ℕ) :
    (cs.foldl (Exchange.step echoTcpServer) x).Echoed k sent (servedLines n p.length ls (heard cs))
      (∀ c ∈ cs, ¬c.HangsUp) := by
  refine Lasting.run (counts_lasting (fun i : List TextLine × ℕ × Bytes × Bytes => i.2.1)
    (fun i => i.2.2.1) fun i => i.2.2.2)
    (M := fun i segs stays x => ∀ n, i.2.1 < 3 → i.2.2.1 ++ segs.flatten <+: textLines i.1 →
      x.Echoed i.2.1 i.2.2.2 (servedOf TextLine.wire n i.2.2.1.length i.1 segs) stays)
    ?_ ?_ ?_ (i := (ls, k, p, sent)) h cs n hk hp
  · rintro ⟨ls, k, p, sent⟩ x h n hk -
    obtain ⟨hopen, hsent⟩ := h.isOpen
    exact ⟨by simpa [echoes] using hsent, iff_of_true hopen ⟨by simpa using hk, trivial⟩⟩
  · rintro ⟨ls, k, p, sent⟩ x h n - -
    exact ⟨by simpa [echoes] using h.2, iff_of_false h.not_isOpen And.right⟩
  · rintro ⟨ls, k, p, sent⟩ x seg segs stays x' h ih hclosed n hk hp
    change k < 3 at hk
    change x.Counts k p sent at h
    rw [List.flatten_cons, ← List.append_assoc] at hp
    have hseg : p ++ seg <+: textLines ls := (List.prefix_append _ _).trans hp
    by_cases hshort : ∀ l ∈ ls.head?, (p ++ seg).length < l.wire.length
    · rw [servedOf_short hshort]
      have hnext := counts_short hk h (readlnAny_short hseg hshort)
      exact ih (j := (ls, k, p ++ seg, sent)) hnext n hk hp
    · push Not at hshort
      obtain ⟨l, hl, hlong⟩ := hshort
      obtain ⟨ls', rfl⟩ := List.head?_eq_some_iff.1 hl
      obtain ⟨rest, hrest, -, hread⟩ := readlnAny_whole hseg hlong
      rw [servedOf_whole hrest]
      have hlines : textLines (l :: ls') = l.wire ++ textLines ls' := List.flatMap_cons
      rw [hrest, hlines, List.append_assoc] at hp
      have hp' := (List.prefix_append_right_inj l.wire).1 hp
      rcases counts_line h hread with ⟨hk', hnext⟩ | ⟨hk', hclosing⟩
      · have hrun := ih (j := (ls', k + 1, rest, sent ++ EchoTcp.echo l.text (k + 1))) hnext
          (n + l.wire.length) hk' hp'
        have htake : 3 - k = 3 - (k + 1) + 1 := by omega
        refine ⟨?_, ?_⟩
        · rw [htake, List.take_succ_cons, echoes_cons, ← List.append_assoc]
          exact hrun.sent
        · rw [List.length_cons, Nat.add_comm _ 1, ← Nat.add_assoc]
          exact hrun.stays
      · -- it is the third line
        have htake : 3 - k = 0 + 1 := by omega
        refine ⟨?_, iff_of_false (hclosed hclosing).not_isOpen fun h => ?_⟩
        · rw [htake, List.take_succ_cons, List.take_zero, echoes_cons, ← List.append_assoc]
          exact (hclosed hclosing).2.trans (List.append_nil _).symm
        · have hlen : k + (l :: _).length < 3 := h.1
          rw [List.length_cons] at hlen
          omega

/-! ## All clients -/

/-- The handler finds the counter that it attached on INIT. -/
theorem echoTcp_not_exited (cs : List Callback) :
    (session echoTcpServer () cs).exited = false := by
  have inv : Invariant echoTcpServer (fun _ _ => True)
      (fun conn _ => ∃ k, conn.userdata.data = some (.user k)) fun d => d.status ≠ none := by
    refine ⟨fun _ => trivial, ?_, ?_, fun _ _ _ h => h, fun _ _ _ _ h => h, fun _ => trivial⟩
    · intro event conn world hinit _
      have hrun : EchoTcp.myConnHandler event conn () = some (adOk,
          adConnSetUserdata conn.toConnView (some (.user 0)) (some (.user 0)), ()) := if_pos hinit
      rw [echoTcp_calls _ _ hrun]
      exact ⟨⟨0, rfl⟩, by simp⟩
    · rintro event conn world hinit ⟨k, hdata⟩
      obtain ⟨st, view, hrun, hview⟩ : ∃ st view,
          EchoTcp.myConnHandler event conn () = some (st, view, ()) ∧
            ∃ k, view.userdata.data = some (.user k) := by
        unfold EchoTcp.myConnHandler
        rw [if_neg (by simp [hinit])]
        by_cases hread : event.read = true
        · rw [if_pos hread, hdata]
          cases evbufferReadlnAny conn.inb with
          | none => exact ⟨_, _, rfl, k, hdata⟩
          | some r => exact ⟨_, _, rfl, k + 1, rfl⟩
        · rw [if_neg hread]
          exact ⟨_, _, rfl, k, hdata⟩
      rw [echoTcp_calls _ _ hrun]
      exact ⟨hview, by simp⟩
  exact (survives_iff _).1 (inv.session () cs).2

/-- In whatever order the loop calls back, no callback ends the process.  Every client of
`echo_tcp_server.c` that sends lines, in whatever segments, is sent back those that are served, with
their numbers, up to the third, and its connection is open exactly while there are fewer and it does not
hang up. -/
theorem echoTcp_answers (handles : Handles) (steps : List LoopStep) :
    ∃ s, loopRun echoTcpServer ⟨handles, [], [], ()⟩ steps = some s ∧
      ∀ k < accepts steps, ∀ ls : List TextLine,
        (arrivals (heard (callbacksOf k steps))).flatten <+: textLines ls →
        let done := servedLines 0 0 ls (heard (callbacksOf k steps))
        s.sentTo k (received echoTcpServer k ⟨handles, [], [], ()⟩ steps) = echoes 0 (done.take 3) ∧
          ((∃ conn trace, s.conns[k]? = some ⟨some conn, trace⟩ ∧
              (conn.status = adOk ∨ conn.status = adTakeover)) ↔
            done.length < 3 ∧ ∀ c ∈ callbacksOf k steps, ¬c.HangsUp) := by
  obtain ⟨s, hrun, hclients⟩ := loopRun_clients echoTcp_not_exited handles steps
  refine ⟨s, hrun, fun k hk ls hls => ?_⟩
  obtain ⟨hsent, hconn⟩ := hclients k hk
  have hechoed := echoTcp_run (callbacksOf k steps) ls (by decide) counts_start (by simpa using hls) 0
  constructor
  · exact hsent.trans hechoed.sent
  · rw [← Nat.zero_add (List.length _)]
    exact (conn_open_iff hconn).trans hechoed.stays

/-- Two clients: one sends two lines at once and a part of a third, and is sent back two, one at each
segment; the other hangs up in its first line. -/
theorem echoTcp_answers_two :
    let steps : List LoopStep := [.accept, .accept, .callback 0 (.read (bytes "a\nb\n")),
      .callback 1 (.read (bytes "c")), .callback 0 (.read (bytes "d")),
      .callback 1 (.event { eof := true })]
    let r : Running Unit := ⟨⟨none, none, none, none, none⟩, [], [], ()⟩
    ∃ s, loopRun echoTcpServer r steps = some s ∧
      s.sentTo 0 (received echoTcpServer 0 r steps) =
        bytes ("a, counter:1, userdata:SHARED-USERDATA\n" ++
          "b, counter:2, userdata:SHARED-USERDATA\n") ∧
      (∃ conn trace, s.conns[0]? = some ⟨some conn, trace⟩ ∧
        (conn.status = adOk ∨ conn.status = adTakeover)) ∧
      s.sentTo 1 (received echoTcpServer 1 r steps) = [] ∧
      ¬∃ conn trace, s.conns[1]? = some ⟨some conn, trace⟩ ∧
        (conn.status = adOk ∨ conn.status = adTakeover) := by
  intro steps r
  let line (c : UInt8) (h : ¬IsEolByte c) : TextLine :=
    ⟨[c], List.cons_ne_nil _ _, List.forall_mem_singleton.2 h⟩
  let a := line 97 (by decide)
  let b := line 98 (by decide)
  let c := line 99 (by decide)
  let d := line 100 (by decide)
  obtain ⟨s, hrun, hclients⟩ := echoTcp_answers r.handles steps
  obtain ⟨hsent, hopen⟩ := hclients 0 (by decide) [a, b, d] (by decide +kernel)
  obtain ⟨hsent', hopen'⟩ := hclients 1 (by decide) [c] (by decide +kernel)
  refine ⟨s, hrun, hsent.trans (by decide +kernel), hopen.2 ⟨by decide +kernel, by decide⟩,
    hsent'.trans (by decide +kernel), fun h => ?_⟩
  exact absurd (hopen'.1 h).2 (by decide)

end Asyncd
