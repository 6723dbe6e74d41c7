import Mathlib.Logic.Relation
import Asyncd.Server.Start

/-!
# Stopping the server from another thread

One thread runs the event loop, another calls `ad_server_stop`.  The code of both is a list of accesses
to what the server holds, and the threads take turns in any order; `sleep` promises nothing.  Nothing is
accessed that has been released exactly if the server runs in a thread of its own, or is not released
when it stops and its loop never ends untold (`stop_safe_iff`).  Then both threads can come to their ends
as long as the loop can exit or the notification channel is there, and leave what one thread leaves that
makes the same calls (`stop_finishes_iff`).
-/

open CString

namespace Asyncd

/-! ## Code -/

/-- An access to the server and to what it holds. -/
inductive Access
  | notifyLoopexit
  | getOption
  | eventLoop
  | gotBreak
  | freeNotifyBuffer
  | freeListener
  | joinThread
  | freeEvbase
  | freeSslctx
  | freeServer
  deriving DecidableEq

/-- `server_loop`. -/
def serverLoopCode : List Access := [.eventLoop, .gotBreak]

/-- `close_server`. -/
def closeServerCode : List Access := [.freeNotifyBuffer, .freeListener, .joinThread]

/-- `ad_server_free` behind `close_server`, which has cleared `server->thread`. -/
def adServerFreeCode : List Access := [.getOption, .freeEvbase, .freeSslctx, .freeServer]

/-- The server is closed, and released if `server.free_on_stop` is on. -/
def closeCode (freeOnStop : Bool) : List Access :=
  closeServerCode ++ .getOption :: if freeOnStop then adServerFreeCode else []

/-- The thread that runs the loop: that of `ad_server_start`, or a thread of its own. -/
def runnerCode (thread freeOnStop : Bool) : List Access :=
  serverLoopCode ++ if thread then [] else closeCode freeOnStop

/-- `ad_server_stop`. -/
def adServerStopCode (thread freeOnStop : Bool) : List Access :=
  .notifyLoopexit :: .getOption :: if thread then closeCode freeOnStop else []

/-! ## Accesses -/

/-- The pointers of the server, and what has been released. -/
structure Holding where
  handles : Handles
  released : List Handle

namespace Access

/-- What an access releases. -/
def releases (h : Handles) : Access → List Handle
  | freeNotifyBuffer => (h.notifyBuffer.map .notifyBuffer).toList
  | freeListener => (h.listener.map .listener).toList
  | joinThread => (h.thread.map .thread).toList
  | freeEvbase => (h.evbase.map .evbase).toList
  | freeSslctx => (h.sslctx.map .sslctx).toList
  | freeServer => [.server]
  | _ => []

/-- What it uses besides the server. -/
def uses (h : Handles) : Access → List Handle
  | notifyLoopexit => (h.notifyBuffer.map .notifyBuffer).toList
  | eventLoop | gotBreak => (h.evbase.map .evbase).toList
  | a => a.releases h

/-- It uses something that has been released, or writes to a channel that is not there. -/
def Faults (m : Holding) (a : Access) : Prop :=
  .server ∈ m.released ∨ (∃ h ∈ a.uses m.handles, h ∈ m.released) ∨
    a = .notifyLoopexit ∧ m.handles.notifyBuffer = none

/-- The pointers after an access: `close_server` clears them. -/
def clear (h : Handles) : Access → Handles
  | freeNotifyBuffer => { h with notifyBuffer := none }
  | freeListener => { h with listener := none }
  | joinThread => { h with thread := none }
  | _ => h

/-- An access. -/
def run (m : Holding) (a : Access) : Holding :=
  ⟨a.clear m.handles, m.released ++ a.releases m.handles⟩

end Access

/-! ## Two threads -/

/-- The two threads with what is left of their code, and the notification: written to the channel, or
taken in, so that the loop exits.  Where `ends` is set the loop may also end untold, by
`event_base_loopbreak` or with no event left. -/
structure Stopping extends Holding where
  ends : Bool
  pending : Bool
  told : Bool
  runner : List Access
  stopper : List Access

namespace Stopping

/-- The loop can exit. -/
def Exits (s : Stopping) : Prop := s.told = true ∨ s.ends = true

/-- The access can be made: the loop has come to its end, and a thread is joined when its code has. -/
def Ready (s : Stopping) : Access → Prop
  | .eventLoop => s.Exits
  | .joinThread => s.handles.thread = none ∨ s.runner = []
  | _ => True

/-- The loop takes in the notification. -/
def noticed (s : Stopping) : Stopping := { s with pending := false, told := true }

/-- The thread that runs the loop makes an access. -/
def runnerTurn (s : Stopping) (a : Access) (rest : List Access) : Stopping :=
  { s with toHolding := a.run s.toHolding, runner := rest }

/-- The thread that calls `ad_server_stop` makes an access. -/
def stopperTurn (s : Stopping) (a : Access) (rest : List Access) : Stopping :=
  { s with
    toHolding := a.run s.toHolding
    pending := s.pending || a = .notifyLoopexit
    stopper := rest }

section

variable (s : Stopping) (a : Access) (rest : List Access)

@[simp] theorem runnerTurn_toHolding : (s.runnerTurn a rest).toHolding = a.run s.toHolding := rfl

@[simp] theorem runnerTurn_runner : (s.runnerTurn a rest).runner = rest := rfl

@[simp] theorem stopperTurn_toHolding : (s.stopperTurn a rest).toHolding = a.run s.toHolding := rfl

@[simp] theorem stopperTurn_stopper : (s.stopperTurn a rest).stopper = rest := rfl

@[simp] theorem stopperTurn_pending :
    (s.stopperTurn a rest).pending = (s.pending || a = .notifyLoopexit) := rfl

end

/-- One of the threads makes its next access, or the loop takes in the notification. -/
inductive Step : Stopping → Stopping → Prop
  | notice {s : Stopping} {rest : List Access} (loop : s.runner = .eventLoop :: rest)
      (pending : s.pending = true) (channel : s.handles.notifyBuffer ≠ none) :
      Step s s.noticed
  | runner {s : Stopping} {a : Access} {rest : List Access} (next : s.runner = a :: rest)
      (ready : s.Ready a) (sound : ¬a.Faults s.toHolding) :
      Step s (s.runnerTurn a rest)
  | stopper {s : Stopping} {a : Access} {rest : List Access} (next : s.stopper = a :: rest)
      (ready : s.Ready a) (sound : ¬a.Faults s.toHolding) :
      Step s (s.stopperTurn a rest)

/-- Turns of the two threads. -/
abbrev Reaches : Stopping → Stopping → Prop := Relation.ReflTransGen Step

theorem reaches_ends {s s' : Stopping} (h : s.Reaches s') : s'.ends = s.ends := by
  induction h with
  | refl => rfl
  | tail _ hstep ih =>
    rw [← ih]
    cases hstep <;> rfl

/-- The next access of one of the threads is to something that has been released, or writes to a channel
that is not there. -/
def Faulty (s : Stopping) : Prop :=
  ∃ a rest, (s.runner = a :: rest ∨ s.stopper = a :: rest) ∧ a.Faults s.toHolding

/-- Both threads have come to their ends. -/
def Finished (s : Stopping) : Prop := s.runner = [] ∧ s.stopper = []

end Stopping

/-- The loop runs, and `ad_server_stop` is called. -/
def stopping (thread freeOnStop ends : Bool) (m : Holding) : Stopping where
  toHolding := m
  ends := ends
  pending := false
  told := false
  runner := runnerCode thread freeOnStop
  stopper := adServerStopCode thread freeOnStop

/-! ## Code that owns what it accesses -/

/-- The code accesses nothing that has been released. -/
def Sound : Holding → List Access → Prop
  | _, [] => True
  | m, a :: code => ¬a.Faults m ∧ Sound (a.run m) code

/-- The pointers after some code, and what it has released. -/
def runCode (m : Holding) (code : List Access) : Holding := code.foldl Access.run m

theorem runCode_concat (m : Holding) (code : List Access) (a : Access) :
    runCode m (code ++ [a]) = a.run (runCode m code) := by
  rw [runCode, List.foldl_append]
  rfl

theorem Sound.next {m : Holding} {pre post : List Access} {a : Access}
    (h : Sound m (pre ++ a :: post)) : ¬a.Faults (runCode m pre) := by
  induction pre generalizing m with
  | nil => exact h.1
  | cons b pre ih => exact ih h.2

theorem Sound.rest {m : Holding} {pre post : List Access} (h : Sound m (pre ++ post)) :
    Sound (runCode m pre) post := by
  induction pre generalizing m with
  | nil => exact h
  | cons b pre ih => exact ih h.2

/-- Only `pthread_join` clears the pointer to the thread. -/
theorem runCode_thread {m : Holding} {code : List Access} (h : .joinThread ∉ code) :
    (runCode m code).handles.thread = m.handles.thread := by
  induction code using List.reverseRecOn with
  | nil => rfl
  | append_singleton code a ih =>
    rw [List.mem_append, not_or, List.mem_singleton] at h
    rw [runCode_concat, ← ih h.1]
    cases a <;> first | rfl | exact absurd rfl h.2

theorem runCode_thread_none {m : Holding} (hm : m.handles.thread = none) (code : List Access) :
    (runCode m code).handles.thread = none := by
  induction code using List.reverseRecOn with
  | nil => exact hm
  | append_singleton code a ih =>
    rw [runCode_concat]
    cases a <;> first | exact ih | rfl

/-- What no access of the code releases stays as it is. -/
theorem runCode_held {m : Holding} {x : Handle} {code : List Access} (hm : x ∉ m.released)
    (h : ∀ a ∈ code, ∀ handles, x ∉ a.releases handles) : x ∉ (runCode m code).released := by
  induction code using List.reverseRecOn with
  | nil => exact hm
  | append_singleton code a ih =>
    rw [runCode_concat]
    intro hmem
    rcases List.mem_append.1 hmem with hmem | hmem
    · exact ih (fun b hb => h b (List.mem_append_left _ hb)) hmem
    · exact h a (by simp) _ hmem

theorem runCode_server {m : Holding} {code : List Access} (hm : Handle.server ∉ m.released)
    (h : .freeServer ∉ code) : Handle.server ∉ (runCode m code).released := by
  refine runCode_held hm fun a ha handles => ?_
  cases a with
  | freeServer => exact absurd ha h
  | _ => simp [Access.releases]

/-- The thread of the loop keeps a server that is not released when it stops. -/
theorem runCode_kept {m : Holding} {pre post : List Access} (hm : Handle.server ∉ m.released)
    (hcode : runnerCode false false = pre ++ post) : Handle.server ∉ (runCode m pre).released := by
  refine runCode_server hm fun hmem => ?_
  have hfree : .freeServer ∈ runnerCode false false := by
    rw [hcode]
    exact List.mem_append_left _ hmem
  exact absurd hfree (by decide)

theorem runCode_evbase (m : Holding) (code : List Access) :
    (runCode m code).handles.evbase = m.handles.evbase := by
  induction code using List.reverseRecOn with
  | nil => rfl
  | append_singleton code a ih =>
    rw [runCode_concat, ← ih]
    cases a <;> rfl

theorem runCode_evbase_held {m : Holding} {code : List Access} {id : ℕ}
    (hm : Handle.evbase id ∉ m.released) (h : .freeEvbase ∉ code) :
    Handle.evbase id ∉ (runCode m code).released := by
  refine runCode_held hm fun a ha handles => ?_
  cases a with
  | freeEvbase => exact absurd ha h
  | _ => simp [Access.releases]

theorem runCode_notifyBuffer_held {m : Holding}
    (hm : ∀ id, m.handles.notifyBuffer = some id → .notifyBuffer id ∉ m.released)
    (code : List Access) (id : ℕ) (hid : (runCode m code).handles.notifyBuffer = some id) :
    .notifyBuffer id ∉ (runCode m code).released := by
  induction code using List.reverseRecOn with
  | nil => exact hm id hid
  | append_singleton code a ih =>
    rw [runCode_concat] at hid ⊢
    cases a <;> first | cases hid | simpa [Access.run, Access.releases] using ih hid

/-! ## Code that releases what is held -/

/-- Nothing that the pointers lead to has been released. -/
structure Holding.Held (m : Holding) : Prop where
  notifyBuffer : ∀ id, m.handles.notifyBuffer = some id → .notifyBuffer id ∉ m.released
  listener : ∀ id, m.handles.listener = some id → .listener id ∉ m.released
  thread : ∀ id, m.handles.thread = some id → .thread id ∉ m.released
  evbase : ∀ id, m.handles.evbase = some id → .evbase id ∉ m.released
  sslctx : ∀ id, m.handles.sslctx = some id → .sslctx id ∉ m.released
  server : .server ∉ m.released

theorem run_of_keeps {a : Access} (ha : a ∈ [.notifyLoopexit, .getOption, .eventLoop, .gotBreak])
    (m : Holding) : a.run m = m := by
  simp only [List.mem_cons, List.not_mem_nil, or_false] at ha
  rcases ha with rfl | rfl | rfl | rfl <;> exact congrArg (Holding.mk _) (List.append_nil _)

theorem runCode_keeps (code : List Access)
    (hcode : ∀ a ∈ code, a ∈ [.notifyLoopexit, .getOption, .eventLoop, .gotBreak]) (m : Holding)
    (rest : List Access) : runCode m (code ++ rest) = runCode m rest := by
  induction code with
  | nil => rfl
  | cons a code ih =>
    rw [List.forall_mem_cons] at hcode
    rw [← ih hcode.2]
    exact congrArg (fun m => runCode m (code ++ rest)) (run_of_keeps hcode.1 m)

section

variable {freeOnStop : Bool} {m : Holding}

theorem closeCode_sound (hm : m.Held) : Sound m (closeCode freeOnStop) := by
  have hserver := hm.server
  cases freeOnStop
  · simpa [closeCode, closeServerCode, Sound, Access.Faults, Access.run, Access.uses,
      Access.releases, Access.clear, hserver] using ⟨hm.notifyBuffer, hm.listener, hm.thread⟩
  · simpa [closeCode, closeServerCode, adServerFreeCode, Sound, Access.Faults, Access.run,
      Access.uses, Access.releases, Access.clear, hserver]
      using ⟨hm.notifyBuffer, hm.listener, hm.thread, hm.evbase, hm.sslctx⟩

variable (freeOnStop) in
theorem adServerStop_sound (hm : m.Held) (hnotify : m.handles.notifyBuffer ≠ none) :
    Sound m (adServerStopCode true freeOnStop) := by
  have hfirst : ¬Access.notifyLoopexit.Faults m := by
    simpa [Access.Faults, Access.uses, hm.server, hnotify] using hm.notifyBuffer
  have hsecond : ¬Access.getOption.Faults m := by
    simp [Access.Faults, Access.uses, Access.releases, hm.server]
  refine ⟨hfirst, ?_⟩
  rw [run_of_keeps (by decide)]
  refine ⟨hsecond, ?_⟩
  rw [run_of_keeps (by decide)]
  exact closeCode_sound hm

variable (freeOnStop) in
theorem runner_sound (hm : m.Held) : Sound m (runnerCode false freeOnStop) := by
  have hloop : ∀ a : Access, a = .eventLoop ∨ a = .gotBreak → ¬a.Faults m := by
    rintro a (rfl | rfl) <;> simpa [Access.Faults, Access.uses, hm.server] using hm.evbase
  refine ⟨hloop _ (Or.inl rfl), ?_⟩
  rw [run_of_keeps (by decide)]
  refine ⟨hloop _ (Or.inr rfl), ?_⟩
  rw [run_of_keeps (by decide)]
  exact closeCode_sound hm

end

/-! ## A server in a thread of its own -/

theorem prefix_of_notMem {α : Type} {l₁ l₂ pre rest : List α} {a : α}
    (h : l₁ ++ a :: l₂ = pre ++ rest) (ha : a ∉ pre) : pre <+: l₁ := by
  rcases List.append_eq_append_iff.1 h with ⟨t, rfl, ht⟩ | ⟨t, rfl, -⟩
  · cases t with
    | nil => exact ⟨[], by simp⟩
    | cons b t =>
      rw [List.cons_append, List.cons.injEq] at ht
      rw [ht.1] at ha
      exact absurd (by simp) ha
  · exact List.prefix_append pre t

section

variable {freeOnStop ends : Bool} {m : Holding}

/-- The thread that calls `ad_server_stop` has got through `pre`. -/
structure Threaded (freeOnStop : Bool) (m : Holding) (s : Stopping) (pre : List Access) : Prop where
  code : adServerStopCode true freeOnStop = pre ++ s.stopper
  holding : s.toHolding = runCode m pre
  runner : s.runner = serverLoopCode ∨ s.Exits ∧ (s.runner = [.gotBreak] ∨ s.runner = [])
  joined : .joinThread ∈ pre → s.runner = []
  notified : pre ≠ [] → s.pending = true ∨ s.told = true

theorem threaded_start : Threaded freeOnStop m (stopping true freeOnStop ends m) [] :=
  ⟨rfl, rfl, Or.inl rfl, by simp, by simp⟩

/-- Before the thread is joined, nothing is released that the loop uses. -/
theorem Threaded.loop_sound {s : Stopping} {pre : List Access} (inv : Threaded freeOnStop m s pre)
    (hm : m.Held) {a : Access} {rest : List Access} (hnext : s.runner = a :: rest) :
    ¬a.Faults s.toHolding := by
  have hjoin : .joinThread ∉ pre := fun hmem => by simp [inv.joined hmem] at hnext
  have hcode : [.notifyLoopexit, .getOption, .freeNotifyBuffer, .freeListener] ++
      .joinThread :: .getOption :: (if freeOnStop then adServerFreeCode else []) =
        pre ++ s.stopper := inv.code
  have hpre := prefix_of_notMem hcode hjoin
  have hserver : Handle.server ∉ s.released := by
    rw [inv.holding]
    exact runCode_server hm.server fun hmem => by simpa using hpre.subset hmem
  have hevbase : ∀ id, s.handles.evbase = some id → Handle.evbase id ∉ s.released := by
    intro id hid
    have hno : .freeEvbase ∉ pre := fun hmem => by simpa using hpre.subset hmem
    rw [inv.holding, runCode_evbase] at hid
    rw [inv.holding]
    exact runCode_evbase_held (hm.evbase id hid) hno
  have hloop : a = .eventLoop ∨ a = .gotBreak := by
    cases inv.runner with
    | inl hr =>
      rw [hr] at hnext
      exact Or.inl (List.cons.inj hnext).1.symm
    | inr hr =>
      cases hr.2 with
      | inl hr =>
        rw [hr] at hnext
        exact Or.inr (List.cons.inj hnext).1.symm
      | inr hr =>
        rw [hr] at hnext
        cases hnext
  cases hloop with
  | inl h => simpa [h, Access.Faults, Access.uses, hserver] using hevbase
  | inr h => simpa [h, Access.Faults, Access.uses, hserver] using hevbase

theorem Threaded.step {s s' : Stopping} {pre : List Access} (inv : Threaded freeOnStop m s pre)
    (hthread : m.handles.thread ≠ none) (hstep : Stopping.Step s s') :
    ∃ pre', Threaded freeOnStop m s' pre' := by
  cases hstep with
  | notice loop pending channel =>
    refine ⟨pre, inv.code, inv.holding, ?_, inv.joined, fun _ => Or.inr rfl⟩
    exact inv.runner.imp_right fun hr => ⟨Or.inl rfl, hr.2⟩
  | runner next ready sound =>
    rename_i a rest
    -- the loop releases nothing
    have hheld : a = .eventLoop ∨ a = .gotBreak → a.run s.toHolding = runCode m pre := by
      intro ha
      rw [run_of_keeps (by rcases ha with rfl | rfl <;> decide), inv.holding]
    have hjoin : .joinThread ∉ pre := fun hmem => by simp [inv.joined hmem] at next
    cases inv.runner with
    | inl hr =>
      rw [hr] at next
      obtain ⟨rfl, rfl⟩ := List.cons.inj next
      exact ⟨pre, inv.code, hheld (Or.inl rfl), Or.inr ⟨ready, Or.inl rfl⟩,
        fun hj => absurd hj hjoin, inv.notified⟩
    | inr hr =>
      cases hr.2 with
      | inl hr' =>
        rw [hr'] at next
        obtain ⟨rfl, rfl⟩ := List.cons.inj next
        exact ⟨pre, inv.code, hheld (Or.inr rfl), Or.inr ⟨hr.1, Or.inr rfl⟩, fun _ => rfl,
          inv.notified⟩
      | inr hr' =>
        rw [hr'] at next
        cases next
  | stopper next ready sound =>
    rename_i a rest
    refine ⟨pre ++ [a], ?_, ?_, inv.runner, fun hj => ?_, fun _ => ?_⟩
    · rw [List.append_assoc, List.singleton_append, Stopping.stopperTurn_stopper, ← next]
      exact inv.code
    · rw [runCode_concat, ← inv.holding, Stopping.stopperTurn_toHolding]
    · by_cases hpre : .joinThread ∈ pre
      · exact inv.joined hpre
      · have ha : a = .joinThread := by simpa [hpre, eq_comm] using hj
        rw [ha] at ready
        refine ready.resolve_left ?_
        rw [inv.holding, runCode_thread hpre]
        exact hthread
    · by_cases hpre : pre = []
      · have hcode := inv.code
        rw [hpre, next] at hcode
        have hfirst : .notifyLoopexit = a := (List.cons.inj hcode).1
        exact Or.inl (by simp [hfirst])
      · exact (inv.notified hpre).imp_left fun hp => by simp [hp]

theorem Threaded.reaches {s : Stopping} (hthread : m.handles.thread ≠ none)
    (hr : (stopping true freeOnStop ends m).Reaches s) :
    ∃ pre, Threaded freeOnStop m s pre := by
  induction hr with
  | refl => exact ⟨[], threaded_start⟩
  | tail _ hstep ih =>
    obtain ⟨pre, inv⟩ := ih
    exact inv.step hthread hstep

theorem Threaded.not_faulty {s : Stopping} {pre : List Access} (inv : Threaded freeOnStop m s pre)
    (hm : m.Held) (hnotify : m.handles.notifyBuffer ≠ none) : ¬s.Faulty := by
  rintro ⟨a, rest, hnext | hnext, hf⟩
  · exact inv.loop_sound hm hnext hf
  · have hsound := adServerStop_sound freeOnStop hm hnotify
    rw [inv.code, hnext] at hsound
    rw [inv.holding] at hf
    exact hsound.next hf

end

/-! ## The faults of a server in the foreground -/

section

variable {freeOnStop ends : Bool} {m : Holding}

/-- In the foreground, the thread that runs the loop has got through `pre`, and the other is somewhere in
`ad_server_stop`. -/
structure Passing (freeOnStop : Bool) (m : Holding) (s : Stopping) (pre : List Access) : Prop where
  code : runnerCode false freeOnStop = pre ++ s.runner
  holding : s.toHolding = runCode m pre
  stopper : s.stopper <:+ [.notifyLoopexit, .getOption]

theorem Passing.step {s s' : Stopping} {pre : List Access} (inv : Passing freeOnStop m s pre)
    (hstep : Stopping.Step s s') : ∃ pre', Passing freeOnStop m s' pre' := by
  cases hstep with
  | notice loop pending channel => exact ⟨pre, inv.code, inv.holding, inv.stopper⟩
  | runner next ready sound =>
    rename_i a rest
    refine ⟨pre ++ [a], ?_, ?_, inv.stopper⟩
    · rw [List.append_assoc, List.singleton_append, Stopping.runnerTurn_runner, ← next]
      exact inv.code
    · rw [runCode_concat, ← inv.holding, Stopping.runnerTurn_toHolding]
  | stopper next ready sound =>
    rename_i a rest
    have hsuffix := inv.stopper
    rw [next] at hsuffix
    have hkeeps : a ∈ [.notifyLoopexit, .getOption, .eventLoop, .gotBreak] :=
      List.mem_append_left [Access.eventLoop, Access.gotBreak] (hsuffix.subset List.mem_cons_self)
    exact ⟨pre, inv.code, (run_of_keeps hkeeps _).trans inv.holding,
      (List.suffix_cons a rest).trans hsuffix⟩

theorem Passing.reaches {s : Stopping} (hr : (stopping false freeOnStop ends m).Reaches s) :
    ∃ pre, Passing freeOnStop m s pre := by
  induction hr with
  | refl => exact ⟨[], rfl, rfl, List.suffix_refl _⟩
  | tail _ hstep ih =>
    obtain ⟨pre, inv⟩ := ih
    exact inv.step hstep

theorem Passing.server_held {s : Stopping} {pre : List Access} (inv : Passing freeOnStop m s pre)
    (hm : m.Held) (hfree : freeOnStop = false) : Handle.server ∉ s.released := by
  rw [inv.holding]
  exact runCode_kept hm.server (hfree ▸ inv.code)

/-- Only `ad_server_stop` faults: at a server that has been released, or at a channel that is gone. -/
theorem Passing.fault {s : Stopping} {pre : List Access} (inv : Passing freeOnStop m s pre)
    (hm : m.Held) (hf : s.Faulty) :
    .server ∈ s.released ∨
      (∃ rest, s.stopper = .notifyLoopexit :: rest) ∧ s.handles.notifyBuffer = none := by
  obtain ⟨a, rest, hnext | hnext, hf⟩ := hf
  · have hsound := runner_sound freeOnStop hm
    rw [inv.code, hnext] at hsound
    rw [inv.holding] at hf
    exact absurd hf hsound.next
  · have hmem := inv.stopper.subset (hnext ▸ List.mem_cons_self)
    rcases hf with hserver | ⟨h, hused, hreleased⟩ | ⟨rfl, hnone⟩
    · exact Or.inl hserver
    · -- the channel is not released while the pointer leads to it
      simp only [List.mem_cons, List.not_mem_nil, or_false] at hmem
      rcases hmem with rfl | rfl
      · obtain ⟨id, hid, rfl⟩ : ∃ id, s.handles.notifyBuffer = some id ∧ .notifyBuffer id = h := by
          simpa [Access.uses] using hused
        rw [inv.holding] at hid hreleased
        exact absurd hreleased (runCode_notifyBuffer_held hm.notifyBuffer pre id hid)
      · cases hused
    · exact Or.inr ⟨⟨rest, hnext⟩, hnone⟩

end

/-! ## A server in the foreground -/

section

variable {freeOnStop : Bool} {m : Holding}

/-- The thread that runs the loop has got through `pre`. -/
structure Foreground (freeOnStop : Bool) (m : Holding) (s : Stopping) (pre : List Access) :
    Prop where
  code : runnerCode false freeOnStop = pre ++ s.runner
  holding : s.toHolding = runCode m pre
  ends : s.ends = false
  told : pre ≠ [] → s.told = true
  stopper : s.stopper = adServerStopCode false freeOnStop ∧ pre = [] ∧ s.told = false ∧
      s.pending = false ∨
    (s.stopper = [.getOption] ∨ s.stopper = []) ∧ (s.pending = true ∨ s.told = true)

theorem foreground_start : Foreground freeOnStop m (stopping false freeOnStop false m) [] :=
  ⟨rfl, rfl, rfl, by simp, Or.inl ⟨rfl, rfl, rfl, rfl⟩⟩

theorem Foreground.step {s s' : Stopping} {pre : List Access} (inv : Foreground freeOnStop m s pre)
    (hstep : Stopping.Step s s') : ∃ pre', Foreground freeOnStop m s' pre' := by
  cases hstep with
  | notice loop pending channel =>
    refine ⟨pre, inv.code, inv.holding, inv.ends, fun _ => rfl, Or.inr ⟨?_, Or.inr rfl⟩⟩
    cases inv.stopper with
    | inl hs => exact absurd (pending.symm.trans hs.2.2.2) (by decide)
    | inr hs => exact hs.1
  | runner next ready sound =>
    rename_i a rest
    -- the loop only goes on when it has been told to exit
    have htold : s.told = true := by
      by_cases hpre : pre = []
      · have hcode := inv.code
        rw [hpre, next] at hcode
        have hfirst : .eventLoop = a := (List.cons.inj hcode).1
        rw [← hfirst] at ready
        exact ready.resolve_right (by simp [inv.ends])
      · exact inv.told hpre
    refine ⟨pre ++ [a], ?_, ?_, inv.ends, fun _ => htold, Or.inr ?_⟩
    · rw [List.append_assoc, List.singleton_append, Stopping.runnerTurn_runner, ← next]
      exact inv.code
    · rw [runCode_concat, ← inv.holding, Stopping.runnerTurn_toHolding]
    · exact inv.stopper.resolve_left fun hs => absurd (htold.symm.trans hs.2.2.1) (by decide)
  | stopper next ready sound =>
    rename_i a rest
    cases inv.stopper with
    | inl hs =>
      rw [hs.1] at next
      obtain ⟨rfl, rfl⟩ := List.cons.inj next
      exact ⟨pre, inv.code, (run_of_keeps (by decide) _).trans inv.holding, inv.ends, inv.told,
        Or.inr ⟨Or.inl rfl, Or.inl (by simp)⟩⟩
    | inr hs =>
      cases hs.1 with
      | inl hs' =>
        rw [hs'] at next
        obtain ⟨rfl, rfl⟩ := List.cons.inj next
        exact ⟨pre, inv.code, (run_of_keeps (by decide) _).trans inv.holding, inv.ends, inv.told,
          Or.inr ⟨Or.inr rfl, hs.2.imp_left fun hp => by simp [hp]⟩⟩
      | inr hs' =>
        rw [hs'] at next
        cases next

theorem Foreground.reaches {s s' : Stopping} {pre : List Access}
    (inv : Foreground freeOnStop m s pre) (hr : s.Reaches s') :
    ∃ pre', Foreground freeOnStop m s' pre' := by
  induction hr with
  | refl => exact ⟨pre, inv⟩
  | tail _ hstep ih =>
    obtain ⟨pre, inv⟩ := ih
    exact inv.step hstep

theorem Foreground.passing {s : Stopping} {pre : List Access}
    (inv : Foreground freeOnStop m s pre) : Passing freeOnStop m s pre := by
  refine ⟨inv.code, inv.holding, ?_⟩
  rcases inv.stopper with ⟨hs, -⟩ | ⟨hs | hs, -⟩
  · rw [hs]
    exact List.suffix_refl _
  · rw [hs]
    exact List.suffix_cons _ _
  · rw [hs]
    exact List.nil_suffix

/-- While `ad_server_stop` has not told the loop to exit, the channel is there. -/
theorem Foreground.channel_held {s : Stopping} {pre rest : List Access}
    (inv : Foreground freeOnStop m s pre) (hnotify : m.handles.notifyBuffer ≠ none)
    (hnext : s.stopper = .notifyLoopexit :: rest) : s.handles.notifyBuffer ≠ none := by
  rcases inv.stopper with ⟨-, hpre, -⟩ | ⟨hstopper | hstopper, -⟩
  · rw [inv.holding, hpre]
    exact hnotify
  · cases hstopper.symm.trans hnext
  · cases hstopper.symm.trans hnext

theorem Foreground.stopper_sound {s : Stopping} {pre : List Access}
    (inv : Foreground false m s pre) (hm : m.Held) (hnotify : m.handles.notifyBuffer ≠ none) :
    Sound s.toHolding s.stopper := by
  have hserver := inv.passing.server_held hm rfl
  cases inv.stopper with
  | inl hs =>
    have hheld : s.toHolding = m := by
      rw [inv.holding, hs.2.1]
      rfl
    rw [hs.1, hheld]
    simpa [adServerStopCode, Sound, Access.Faults, Access.run, Access.uses, Access.releases,
      Access.clear, hm.server, hnotify] using hm.notifyBuffer
  | inr hs =>
    cases hs.1 with
    | inl hs' => simp [hs', Sound, Access.Faults, Access.uses, Access.releases, hserver]
    | inr hs' => simp [hs', Sound]

theorem Foreground.not_faulty {s : Stopping} {pre : List Access} (inv : Foreground false m s pre)
    (hm : m.Held) (hnotify : m.handles.notifyBuffer ≠ none) : ¬s.Faulty := by
  intro hf
  rcases inv.passing.fault hm hf with hserver | ⟨⟨rest, hnext⟩, hnone⟩
  · exact inv.passing.server_held hm rfl hserver
  · exact inv.channel_held hnotify hnext hnone

end

/-! ## Threads that come to their ends -/

section

variable {freeOnStop : Bool} {m : Holding} {s : Stopping}

/-- The thread that runs the loop has come to its end. -/
def Stopping.ran (s : Stopping) : Stopping :=
  { s with toHolding := runCode s.toHolding s.runner, runner := [] }

/-- Code without `pthread_join` comes to its end, when the loop can exit. -/
theorem runner_finishes (hexits : s.Exits) (hthread : s.handles.thread = none)
    (hsound : Sound s.toHolding s.runner) :
    s.Reaches s.ran := by
  induction hrunner : s.runner generalizing s with
  | nil =>
    obtain ⟨m, ends, pending, told, runner, stopper⟩ := s
    obtain rfl : runner = [] := hrunner
    exact Relation.ReflTransGen.refl
  | cons a code ih =>
    have hran : (s.runnerTurn a code).ran = s.ran := by
      simp [Stopping.ran, Stopping.runnerTurn, hrunner, runCode]
    rw [hrunner] at hsound
    rw [← hran]
    have hready : s.Ready a := by
      cases a <;> first | exact hexits | exact Or.inl hthread | trivial
    refine Relation.ReflTransGen.head (.runner hrunner hready hsound.1) ?_
    refine ih (s := s.runnerTurn a code) hexits ?_ hsound.2 rfl
    cases a <;> first | exact hthread | rfl

theorem stopper_finishes (hrunner : s.runner = []) (hexits : s.Exits)
    (hsound : Sound s.toHolding s.stopper) : ∃ s', s.Reaches s' ∧ s'.Finished := by
  induction hstopper : s.stopper generalizing s with
  | nil => exact ⟨s, .refl, hrunner, hstopper⟩
  | cons a code ih =>
    rw [hstopper] at hsound
    have hready : s.Ready a := by
      cases a <;> first | exact hexits | exact Or.inr hrunner | trivial
    have hstep := Stopping.Step.stopper hstopper hready hsound.1
    obtain ⟨s', hreach, hfin⟩ := ih (s := s.stopperTurn a code) hrunner hexits hsound.2 rfl
    exact ⟨s', .head hstep hreach, hfin⟩

theorem Threaded.runner_finishes {pre : List Access} (inv : Threaded freeOnStop m s pre)
    (hm : m.Held) (hexits : s.Exits) :
    ∃ s', s.Reaches s' ∧ Threaded freeOnStop m s' pre ∧ s'.Exits ∧ s'.runner = [] := by
  -- from the last access of the loop on
  have hlast : ∀ {t : Stopping}, Threaded freeOnStop m t pre → t.Exits → t.runner = [.gotBreak] →
      ∃ t', t.Reaches t' ∧ Threaded freeOnStop m t' pre ∧ t'.Exits ∧ t'.runner = [] := by
    intro t inv hexits hr
    have hstep := Stopping.Step.runner hr trivial (inv.loop_sound hm hr)
    refine ⟨_, .single hstep, ⟨inv.code, ?_, Or.inr ⟨hexits, Or.inr rfl⟩, fun _ => rfl,
      inv.notified⟩, hexits, rfl⟩
    exact (run_of_keeps (by decide) _).trans inv.holding
  cases inv.runner with
  | inl hr =>
    have hstep := Stopping.Step.runner hr hexits (inv.loop_sound hm hr)
    have hjoin : .joinThread ∉ pre := fun hmem => by
      rw [inv.joined hmem] at hr
      cases hr
    have hnext : Threaded freeOnStop m (s.runnerTurn .eventLoop [.gotBreak]) pre := ⟨inv.code,
      (run_of_keeps (by decide) _).trans inv.holding, Or.inr ⟨hexits, Or.inl rfl⟩,
      fun hmem => absurd hmem hjoin, inv.notified⟩
    obtain ⟨t, hreach, hrest⟩ := hlast hnext hexits rfl
    exact ⟨t, .head hstep hreach, hrest⟩
  | inr hr =>
    cases hr.2 with
    | inl hr' => exact hlast inv hexits hr'
    | inr hr' => exact ⟨s, .refl, inv, hexits, hr'⟩

theorem Threaded.finishes_of_exits {pre : List Access} (inv : Threaded freeOnStop m s pre)
    (hm : m.Held) (hnotify : m.handles.notifyBuffer ≠ none) (hexits : s.Exits) :
    ∃ s', s.Reaches s' ∧ s'.Finished := by
  obtain ⟨t, hreach, inv', hexits', hr⟩ := inv.runner_finishes hm hexits
  have hsound := adServerStop_sound freeOnStop hm hnotify
  rw [inv'.code] at hsound
  have hrest := hsound.rest
  rw [← inv'.holding] at hrest
  obtain ⟨s', hreach', hfin⟩ := stopper_finishes hr hexits' hrest
  exact ⟨s', hreach.trans hreach', hfin⟩

/-- The notification has been written: the loop takes it in, if it is still there to be read. -/
theorem Threaded.finishes_of_pending {pre : List Access} (inv : Threaded freeOnStop m s pre)
    (hm : m.Held) (hnotify : m.handles.notifyBuffer ≠ none) (hpending : s.pending = true ∨ s.Exits)
    (hchannel : s.handles.notifyBuffer ≠ none) : ∃ s', s.Reaches s' ∧ s'.Finished := by
  by_cases hexits : s.Exits
  · exact inv.finishes_of_exits hm hnotify hexits
  · have hr := inv.runner.resolve_right fun h => hexits h.1
    have hstep := Stopping.Step.notice hr (hpending.resolve_right hexits) hchannel
    have hnext : Threaded freeOnStop m s.noticed pre := ⟨inv.code, inv.holding, Or.inl hr, inv.joined,
      fun _ => Or.inr rfl⟩
    obtain ⟨s', hreach, hfin⟩ := hnext.finishes_of_exits hm hnotify (Or.inl rfl)
    exact ⟨s', .head hstep hreach, hfin⟩

theorem Threaded.finishes {pre : List Access} (inv : Threaded freeOnStop m s pre) (hm : m.Held)
    (hthread : m.handles.thread ≠ none) (hnotify : m.handles.notifyBuffer ≠ none)
    (hchannel : s.Exits ∨ s.handles.notifyBuffer ≠ none) : ∃ s', s.Reaches s' ∧ s'.Finished := by
  by_cases hexits : s.Exits
  · exact inv.finishes_of_exits hm hnotify hexits
  have hbuffer := hchannel.resolve_left hexits
  by_cases hpre : pre = []
  · -- the notification is yet to be written
    have hcode := inv.code
    have hhold := inv.holding
    rw [hpre] at hcode hhold
    have hsound : ¬Access.notifyLoopexit.Faults s.toHolding := by
      rw [hhold]
      exact (adServerStop_sound freeOnStop hm hnotify).1
    have hstep := Stopping.Step.stopper hcode.symm trivial hsound
    obtain ⟨pre', inv'⟩ := inv.step hthread hstep
    obtain ⟨s', hreach, hfin⟩ := inv'.finishes_of_pending hm hnotify (Or.inl (by simp)) hbuffer
    exact ⟨s', .head hstep hreach, hfin⟩
  · exact inv.finishes_of_pending hm hnotify ((inv.notified hpre).imp_right Or.inl) hbuffer

/-- Without the channel the loop is never told. -/
theorem never_finishes (hexits : ¬s.Exits) (hchannel : s.handles.notifyBuffer = none)
    (hrunner : s.runner = serverLoopCode) {s' : Stopping} (hreach : s.Reaches s') :
    ¬s'.Finished := by
  have hkeep : ¬s'.Exits ∧ s'.handles.notifyBuffer = none ∧ s'.runner = serverLoopCode := by
    induction hreach with
    | refl => exact ⟨hexits, hchannel, hrunner⟩
    | tail _ hstep ih =>
      obtain ⟨hexits, hchannel, hrunner⟩ := ih
      cases hstep with
      | notice _ _ channel => exact absurd hchannel channel
      | runner next ready =>
        rw [hrunner] at next
        obtain ⟨rfl, rfl⟩ := List.cons.inj next
        exact absurd ready hexits
      | stopper next ready sound =>
        rename_i a rest
        refine ⟨hexits, ?_, hrunner⟩
        cases a <;> first | exact hchannel | rfl
  intro hfin
  rw [hfin.1] at hkeep
  cases hkeep.2.2

theorem Foreground.finishes_of_told {pre : List Access} (inv : Foreground false m s pre)
    (hm : m.Held) (hthread : m.handles.thread = none) (hnotify : m.handles.notifyBuffer ≠ none)
    (htold : s.told = true) : ∃ s', s.Reaches s' ∧ s'.Finished := by
  have hsound := runner_sound false hm
  rw [inv.code] at hsound
  have hrest := hsound.rest
  rw [← inv.holding] at hrest
  have hnone : s.handles.thread = none := by
    rw [inv.holding]
    exact runCode_thread_none hthread pre
  have hreach := runner_finishes (Or.inl htold) hnone hrest
  obtain ⟨pre', inv'⟩ := inv.reaches hreach
  have hstopper := inv'.stopper_sound hm hnotify
  obtain ⟨s', hreach', hfin⟩ := stopper_finishes (s := s.ran) rfl (Or.inl htold) hstopper
  exact ⟨s', hreach.trans hreach', hfin⟩

theorem Foreground.finishes_of_pending {pre : List Access} (inv : Foreground false m s pre)
    (hm : m.Held) (hthread : m.handles.thread = none) (hnotify : m.handles.notifyBuffer ≠ none)
    (hpending : s.pending = true ∨ s.told = true) : ∃ s', s.Reaches s' ∧ s'.Finished := by
  by_cases htold : s.told = true
  · exact inv.finishes_of_told hm hthread hnotify htold
  · have hpre : pre = [] := by
      by_contra hne
      exact htold (inv.told hne)
    have hcode := inv.code
    have hhold := inv.holding
    rw [hpre] at hcode hhold
    have hchannel : s.handles.notifyBuffer ≠ none := by
      rw [hhold]
      exact hnotify
    have hstep := Stopping.Step.notice hcode.symm (hpending.resolve_right htold) hchannel
    obtain ⟨pre', inv'⟩ := inv.step hstep
    obtain ⟨s', hreach, hfin⟩ := inv'.finishes_of_told hm hthread hnotify rfl
    exact ⟨s', .head hstep hreach, hfin⟩

theorem Foreground.finishes {pre : List Access} (inv : Foreground false m s pre) (hm : m.Held)
    (hthread : m.handles.thread = none) (hnotify : m.handles.notifyBuffer ≠ none) :
    ∃ s', s.Reaches s' ∧ s'.Finished := by
  cases inv.stopper with
  | inl hs =>
    have hsound := inv.stopper_sound hm hnotify
    rw [hs.1] at hsound
    have hstep := Stopping.Step.stopper hs.1 trivial hsound.1
    obtain ⟨pre', inv'⟩ := inv.step hstep
    obtain ⟨s', hreach, hfin⟩ := inv'.finishes_of_pending hm hthread hnotify (Or.inl (by simp))
    exact ⟨s', .head hstep hreach, hfin⟩
  | inr hs => exact inv.finishes_of_pending hm hthread hnotify hs.2

/-- If the loop ends untold, the channel is gone when `ad_server_stop` writes to it. -/
theorem foreground_ends_faulty (hm : m.Held) (hthread : m.handles.thread = none) :
    ∃ s, (stopping false freeOnStop true m).Reaches s ∧ s.Faulty := by
  refine ⟨_, runner_finishes (Or.inr rfl) hthread (runner_sound _ hm), .notifyLoopexit, _, Or.inr rfl,
    Or.inr (Or.inr ⟨rfl, ?_⟩)⟩
  cases freeOnStop <;> rfl

theorem runCode_freed (m : Holding) :
    Handle.server ∈ (runCode m (runnerCode false true)).released := by
  have hlast : runnerCode false true = serverLoopCode ++ closeServerCode ++
    [.getOption, .getOption, .freeEvbase, .freeSslctx] ++ [.freeServer] := rfl
  rw [hlast, runCode_concat]
  exact List.mem_append_right _ (List.mem_singleton_self _)

/-- If the server is released by the thread of the loop, `ad_server_stop` looks an option up in it. -/
theorem foreground_freed_faulty {ends : Bool} (hm : m.Held) (hthread : m.handles.thread = none)
    (hnotify : m.handles.notifyBuffer ≠ none) :
    ∃ s, (stopping false true ends m).Reaches s ∧ s.Faulty := by
  let s := stopping false true ends m
  let written := s.stopperTurn .notifyLoopexit [.getOption]
  have hsound : ¬Access.notifyLoopexit.Faults m :=
    (adServerStop_sound true hm hnotify).1
  have hheld : written.toHolding = m := run_of_keeps (by decide) m
  have hwrite : Stopping.Step s written := .stopper rfl trivial hsound
  have hnotice : Stopping.Step written written.noticed :=
    .notice rfl rfl (by rw [hheld]; exact hnotify)
  have hcode : Sound written.noticed.toHolding (runnerCode false true) := by
    rw [show written.noticed.toHolding = m from hheld]
    exact runner_sound true hm
  have hrun : written.noticed.Reaches written.noticed.ran :=
    runner_finishes (Or.inl rfl) hthread hcode
  exact ⟨_, .head hwrite (.head hnotice hrun), .getOption, [], Or.inr rfl,
    Or.inl (runCode_freed written.noticed.toHolding)⟩

end

/-! ## Every order of turns -/

section

variable {thread freeOnStop ends : Bool} {m : Holding} {s : Stopping}

/-- What is held while the loop runs: each object once, and the thread, if there is one. -/
structure Holding.Serving (thread : Bool) (m : Holding) : Prop where
  once : (m.released ++ m.handles.live).Nodup
  server : .server ∉ m.released
  notifyBuffer : m.handles.notifyBuffer ≠ none
  thread_iff : m.handles.thread ≠ none ↔ thread = true

theorem Holding.Serving.held (h : m.Serving thread) : m.Held := by
  have hlive : ∀ k ∈ m.handles.live, k ∉ m.released := by
    intro k hk hrel
    exact List.disjoint_of_nodup_append h.once hrel hk
  have hpointer : ∀ {o : Option ℕ} {handle : ℕ → Handle},
      (∀ k ∈ (o.map handle).toList, k ∈ m.handles.live) → ∀ id, o = some id →
        handle id ∉ m.released := by
    intro o handle ho id hid
    exact hlive _ (ho _ (by simp [hid]))
  exact ⟨hpointer (by simp +contextual [Handles.live]), hpointer (by simp +contextual [Handles.live]),
    hpointer (by simp +contextual [Handles.live]), hpointer (by simp +contextual [Handles.live]),
    hpointer (by simp +contextual [Handles.live]), h.server⟩

theorem stopping_safe_iff (h : m.Serving thread) :
    (∀ s, (stopping thread freeOnStop ends m).Reaches s → ¬s.Faulty) ↔
      thread = true ∨ freeOnStop = false ∧ ends = false := by
  cases thread with
  | true =>
    refine iff_of_true (fun s hr => ?_) (Or.inl rfl)
    obtain ⟨pre, inv⟩ := Threaded.reaches (h.thread_iff.2 rfl) hr
    exact inv.not_faulty h.held h.notifyBuffer
  | false =>
    have hnone : m.handles.thread = none := not_not.1 (mt h.thread_iff.1 (by decide))
    cases freeOnStop with
    | true =>
      refine iff_of_false (fun hsafe => ?_) (by simp)
      obtain ⟨s, hr, hf⟩ := foreground_freed_faulty h.held hnone h.notifyBuffer
      exact hsafe s hr hf
    | false =>
      cases ends with
      | true =>
        refine iff_of_false (fun hsafe => ?_) (by simp)
        obtain ⟨s, hr, hf⟩ := foreground_ends_faulty h.held hnone
        exact hsafe s hr hf
      | false =>
        refine iff_of_true (fun s hr => ?_) (Or.inr ⟨rfl, rfl⟩)
        obtain ⟨pre, inv⟩ := foreground_start.reaches hr
        exact inv.not_faulty h.held h.notifyBuffer

/-- Where something goes wrong, `ad_server_stop` finds the server released by the other thread, or the
channel gone because the loop has ended untold. -/
theorem stopping_fault (h : m.Serving thread)
    (hr : (stopping thread freeOnStop ends m).Reaches s) (hf : s.Faulty) :
    freeOnStop = true ∧ .server ∈ s.released ∨
      ends = true ∧ (∃ rest, s.stopper = .notifyLoopexit :: rest) ∧
        s.handles.notifyBuffer = none := by
  cases thread with
  | true => exact absurd hf ((stopping_safe_iff h).2 (Or.inl rfl) s hr)
  | false =>
    obtain ⟨pre, inv⟩ := Passing.reaches hr
    rcases inv.fault h.held hf with hserver | ⟨⟨rest, hnext⟩, hnone⟩
    · refine Or.inl ⟨?_, hserver⟩
      by_contra hfree
      rw [Bool.not_eq_true] at hfree
      exact inv.server_held h.held hfree hserver
    · refine Or.inr ⟨?_, ⟨rest, hnext⟩, hnone⟩
      by_contra hends
      obtain rfl : ends = false := by simpa using hends
      obtain ⟨pre', inv'⟩ := foreground_start.reaches hr
      exact inv'.channel_held h.notifyBuffer hnext hnone

theorem stopping_finishes_iff (h : m.Serving thread)
    (hsafe : thread = true ∨ freeOnStop = false ∧ ends = false)
    (hr : (stopping thread freeOnStop ends m).Reaches s) :
    (∃ s', s.Reaches s' ∧ s'.Finished) ↔ s.Exits ∨ s.handles.notifyBuffer ≠ none := by
  cases thread with
  | true =>
    have hsome := h.thread_iff.2 rfl
    obtain ⟨pre, inv⟩ := Threaded.reaches hsome hr
    refine ⟨fun hfin => ?_, inv.finishes h.held hsome h.notifyBuffer⟩
    by_contra hnot
    obtain ⟨hexits, hchannel⟩ := not_or.1 hnot
    obtain ⟨s', hr', hfin'⟩ := hfin
    have hrunner := inv.runner.resolve_right fun h => hexits h.1
    exact never_finishes hexits (not_not.1 hchannel) hrunner hr' hfin'
  | false =>
    obtain ⟨rfl, rfl⟩ := hsafe.resolve_left (by decide)
    have hnone : m.handles.thread = none := not_not.1 (mt h.thread_iff.1 (by decide))
    obtain ⟨pre, inv⟩ := foreground_start.reaches hr
    refine iff_of_true (inv.finishes h.held hnone h.notifyBuffer) ?_
    by_cases hpre : pre = []
    · have hhold := inv.holding
      rw [hpre] at hhold
      rw [hhold]
      exact Or.inr h.notifyBuffer
    · exact Or.inl (Or.inl (inv.told hpre))

/-- At the end, what the code of the two threads has done is what it does in one thread. -/
theorem stopping_finished (h : m.Serving thread)
    (hsafe : thread = true ∨ freeOnStop = false ∧ ends = false)
    (hr : (stopping thread freeOnStop ends m).Reaches s) (hfin : s.Finished) :
    s.toHolding = runCode m (closeCode freeOnStop) := by
  cases thread with
  | true =>
    obtain ⟨pre, inv⟩ := Threaded.reaches (h.thread_iff.2 rfl) hr
    have hcode := inv.code
    rw [hfin.2, List.append_nil] at hcode
    rw [inv.holding, ← hcode]
    exact runCode_keeps [.notifyLoopexit, .getOption] (by decide) _ _
  | false =>
    obtain ⟨rfl, rfl⟩ := hsafe.resolve_left (by decide)
    obtain ⟨pre, inv⟩ := foreground_start.reaches hr
    have hcode := inv.code
    rw [hfin.1, List.append_nil] at hcode
    rw [inv.holding, ← hcode]
    exact runCode_keeps serverLoopCode (by decide) _ _

theorem closeCode_nodup (honce : (m.released ++ m.handles.live).Nodup) (hserver : .server ∉ m.released)
    (freeOnStop : Bool) : (runCode m (closeCode freeOnStop)).released.Nodup := by
  have hlive : Handle.server ∉ m.handles.live := by simp [Handles.live]
  cases freeOnStop with
  | false =>
    have hrun : ∃ rest, m.released ++ m.handles.live =
        (runCode m (closeCode false)).released ++ rest :=
      ⟨(m.handles.evbase.map .evbase).toList ++ (m.handles.sslctx.map .sslctx).toList, by
        simp [runCode, closeCode, closeServerCode, Access.run, Access.clear, Access.releases,
          Handles.live]⟩
    obtain ⟨rest, hrun⟩ := hrun
    rw [hrun] at honce
    exact honce.of_append_left
  | true =>
    have hrun : (runCode m (closeCode true)).released =
        m.released ++ m.handles.live ++ [.server] := by
      simp [runCode, closeCode, closeServerCode, adServerFreeCode, Access.run, Access.clear,
        Access.releases, Handles.live]
    rw [hrun]
    refine honce.append (List.nodup_singleton _) ?_
    simp [List.disjoint_singleton, hserver, hlive]

end

/-! ## Stopping a server that was started -/

section

variable {σ : Type}

/-- The pointers of a server, and what has been released. -/
def Running.holding (s : Running σ) : Holding := ⟨s.handles, s.released⟩

/-- What one thread leaves when it makes the calls itself. -/
theorem closeCode_run {calls : Handle → List LoopStep} (hcalls : ∀ h, calls h = [])
    (server : AdServer σ) (s : Running σ) (freeOnStop : Bool) :
    ∃ s', (if freeOnStop then shutdown server calls s else closeServer server calls s) = some s' ∧
      s'.holding = runCode s.holding (closeCode freeOnStop) := by
  cases freeOnStop
  · refine ⟨_, closeServer_eq server hcalls s, ?_⟩
    simp [Running.holding, runCode, closeCode, closeServerCode, Access.run, Access.clear,
      Access.releases]
  · refine ⟨_, shutdown_eq server hcalls s, ?_⟩
    simp [Running.holding, runCode, closeCode, closeServerCode, adServerFreeCode, Access.run,
      Access.clear, Access.releases]

variable {calls : Handle → List LoopStep} {world : σ} {pre : List (Start σ)} {start : Start σ}
  {s₀ s : Startable σ}

/-- The server listens, and where it is to run in a thread of its own, this is created. -/
def Start.launch (start : Start σ) (s : Startable σ) : Startable σ :=
  if start.option "server.thread" ≠ 0 then
    let (thread, s) := s.create .thread
    { s with handles.thread := some thread }
  else s

/-- `ad_server_stop` is called while the loop runs. -/
def Start.stopping (start : Start σ) (ends : Bool) (s : Startable σ) : Stopping :=
  Asyncd.stopping (start.option "server.thread" ≠ 0) (start.option "server.free_on_stop" ≠ 0) ends
    (start.launch s).holding

theorem startLoop_launch (hthread : start.option "server.thread" ≠ 0)
    (hnone : s.handles.thread = none) : startLoop calls start s = some (0, start.launch s) := by
  rw [startLoop, if_pos hthread, Start.launch, if_pos hthread]
  simp [Startable.create, hnone]

theorem startListener_ok (h : startListener start s₀ = .ok s) :
    s.handles.notifyBuffer = s₀.handles.notifyBuffer ∧ s.handles.thread = s₀.handles.thread := by
  unfold startListener at h
  split_ifs at h <;> cases h <;> exact ⟨rfl, rfl⟩

theorem startListening_ok (hidle : s₀.Idle) (h : startListening start s₀ = .ok s) :
    s.handles.notifyBuffer ≠ none ∧ s.handles.thread = none := by
  unfold startListening at h
  by_cases haddr : start.addrTooLong
  · rw [if_pos haddr] at h
    cases h
  rw [if_neg haddr] at h
  cases startSsl_cases haddr s₀ with
  | inl hssl =>
    obtain ⟨s₁, hssl, -⟩ := hssl
    rw [hssl] at h
    cases h
  | inr hssl =>
    obtain ⟨s₁, hssl, -, hkeeps, -⟩ := hssl
    simp only [hssl] at h
    cases startEvbase_cases start s₁ with
    | inl hbase =>
      rw [hbase.1] at h
      cases h
    | inr hbase =>
      obtain ⟨s₂, hbase, -, hkeeps', -⟩ := hbase
      simp only [hbase] at h
      have hlisten := startListener_ok h
      have hthread := ((hkeeps.trans hkeeps').idle hidle).thread
      exact ⟨by simp [hlisten.1, startNotify], hlisten.2.trans hthread⟩

/-- Where the objects are accounted for, each is released or held, and once. -/
theorem Conserves.once {dropped : List Handle} (h : Conserves (adServerNew world) s dropped) :
    (s.holding.released ++ s.holding.handles.live).Nodup ∧ Handle.server ∉ s.holding.released := by
  change (s.released ++ s.handles.live).Nodup ∧ Handle.server ∉ s.released
  obtain ⟨hnodup, hserver⟩ := (h.numbered rfl).nodup
  have hcount : ∀ k, (s.released ++ s.handles.live).count k ≤ s.created.count k := by
    intro k
    have hk := h.count k
    simp only [adServerNew, List.count_nil, List.count_append, Handles.count_live, Option.map_none,
      Option.toList_none] at hk ⊢
    omega
  constructor
  · rw [List.nodup_iff_count_le_one]
    exact fun k => (hcount k).trans (List.nodup_iff_count_le_one.1 hnodup k)
  · intro hrel
    have hpos := List.count_pos_iff.2 (List.mem_append_left s.handles.live hrel)
    have hle := hcount .server
    rw [List.count_eq_zero_of_not_mem hserver] at hle
    omega

/-- What a server holds while its loop runs, whatever starts came before. -/
theorem startListening_serving (hcalls : ∀ h, calls h = [])
    (hfore : ∀ start ∈ pre, start.Foreground)
    (hpre : startsRun calls (adServerNew world) pre = some s₀)
    (h : startListening start s₀ = .ok s) {thread : Bool}
    (hiff : start.option "server.thread" ≠ 0 ↔ thread = true) :
    (start.launch s).holding.Serving thread := by
  obtain ⟨hidle, dropped, hcons⟩ := startsRun_conserves hcalls hfore hpre
  obtain ⟨hnotify, hnone⟩ := startListening_ok hidle h
  have hlisten : Conserves s₀ s [] := by
    cases startListening_cases start hidle with
    | inl herror =>
      obtain ⟨s₁, herror, -⟩ := herror
      rw [herror] at h
      cases h
    | inr hok =>
      obtain ⟨s₁, hok, -, -, hcons', -⟩ := hok
      rw [hok] at h
      cases h
      exact hcons'
  have hcons' := hcons.trans hlisten
  by_cases hthread : start.option "server.thread" ≠ 0
  · have hlaunch : start.launch s = { (s.create .thread).2 with
        handles.thread := some s.created.length } := if_pos hthread
    have hcreate : Conserves s (start.launch s) [] := by
      rw [hlaunch]
      refine .of_create (fun _ => rfl) rfl fun k => ?_
      simp [Startable.create, Handles.count_live, hnone]
      omega
    obtain ⟨honce, hserver⟩ := (hcons'.trans hcreate).once
    refine ⟨honce, hserver, ?_, iff_of_true ?_ (hiff.1 hthread)⟩
    · rw [hlaunch]
      exact hnotify
    · simp [hlaunch, Running.holding]
  · have hlaunch : start.launch s = s := if_neg hthread
    obtain ⟨honce, hserver⟩ := hcons'.once
    rw [hlaunch]
    exact ⟨honce, hserver, hnotify, iff_of_false (not_not.2 hnone) (mt hiff.2 hthread)⟩

end

/-- The server is stopped by another thread while its loop runs, after any starts in the foreground that
came before.  In no order of turns is something accessed that has been released, exactly if the server
runs in a thread of its own, or is not released when it stops and its loop never ends untold.  Otherwise
what is met is a server that has been released, or `ad_server_stop` writes to a channel that is gone: the
first only if the server is released when it stops, the second only if its loop can end untold. -/
theorem stop_safe_iff {σ : Type} {calls : Handle → List LoopStep} (hcalls : ∀ h, calls h = [])
    {world : σ} {pre : List (Start σ)} (hfore : ∀ start ∈ pre, start.Foreground)
    {s₀ : Startable σ} (hpre : startsRun calls (adServerNew world) pre = some s₀) {start : Start σ}
    {s : Startable σ} (h : startListening start s₀ = .ok s) (ends : Bool) :
    ((∀ t, (start.stopping ends s).Reaches t → ¬t.Faulty) ↔
      start.option "server.thread" ≠ 0 ∨
        start.option "server.free_on_stop" = 0 ∧ ends = false) ∧
    ∀ t, (start.stopping ends s).Reaches t → t.Faulty →
      start.option "server.free_on_stop" ≠ 0 ∧ .server ∈ t.released ∨
        ends = true ∧ (∃ rest, t.stopper = .notifyLoopexit :: rest) ∧
          t.handles.notifyBuffer = none := by
  have hserving := startListening_serving hcalls hfore hpre h decide_eq_true_iff.symm
  refine ⟨(stopping_safe_iff hserving).trans ?_, fun t hr hf => ?_⟩
  · rw [decide_eq_true_eq, decide_eq_false_iff_not, not_not]
  · rw [← decide_eq_true_eq (p := start.option "server.free_on_stop" ≠ 0)]
    exact stopping_fault hserving hr hf

/-- A start of a server for which no option is set but `server.thread`. -/
def threadStart (thread : String) : Start Unit where
  server := { options := [(bytes "server.thread", bytes thread)], hooks := [] }

theorem threadStart_listens {thread : String} (h : thread = "0" ∨ thread = "1") :
    ∃ s, startListening (threadStart thread) (adServerNew ()) = .ok s := by
  have hok : (startListening (threadStart thread) (adServerNew ())).isOk = true := by
    rcases h with rfl | rfl <;> decide +kernel
  cases hs : startListening (threadStart thread) (adServerNew ()) with
  | error s =>
    rw [hs] at hok
    cases hok
  | ok s => exact ⟨s, rfl⟩

/-- By default the server runs in the foreground and is released there, and `ad_server_stop` goes on
with it. -/
theorem stop_default_unsafe :
    ∃ s t, startListening (threadStart "0") (adServerNew ()) = .ok s ∧
      ((threadStart "0").stopping false s).Reaches t ∧ t.Faulty ∧ .server ∈ t.released := by
  obtain ⟨s, hs⟩ := threadStart_listens (Or.inl rfl)
  obtain ⟨hiff, hfault⟩ := stop_safe_iff (fun _ => rfl) (List.forall_mem_nil _) rfl hs false
  have hunsafe := (not_congr hiff).2 (by decide +kernel)
  push Not at hunsafe
  obtain ⟨t, hr, hf⟩ := hunsafe
  have hfreed := (hfault t hr hf).resolve_right fun h => absurd h.1 (by decide)
  exact ⟨s, t, hs, hr, hf, hfreed.2⟩

/-- With such options both threads can come to their ends as long as the loop can exit or the channel is
there to tell it, and no longer; when they have, just that has been released, each object once, that
`close_server` and `ad_server_free` release in one thread. -/
theorem stop_finishes_iff {σ : Type} {calls : Handle → List LoopStep} (hcalls : ∀ h, calls h = [])
    {world : σ} {pre : List (Start σ)} (hfore : ∀ start ∈ pre, start.Foreground)
    {s₀ : Startable σ} (hpre : startsRun calls (adServerNew world) pre = some s₀) {start : Start σ}
    {s : Startable σ} (h : startListening start s₀ = .ok s) {ends : Bool}
    (hsafe : start.option "server.thread" ≠ 0 ∨
      start.option "server.free_on_stop" = 0 ∧ ends = false)
    {t : Stopping} (hr : (start.stopping ends s).Reaches t) :
    ((∃ t', t.Reaches t' ∧ t'.Finished) ↔
      t.told = true ∨ ends = true ∨ t.handles.notifyBuffer ≠ none) ∧
    (t.Finished → ∃ s' : Running σ,
      (if start.option "server.free_on_stop" ≠ 0 then
          shutdown (setUndefinedOptions start.server) calls (start.launch s).toRunning
        else closeServer (setUndefinedOptions start.server) calls (start.launch s).toRunning) =
          some s' ∧
      t.toHolding = s'.holding ∧ t.released.Nodup) := by
  have hserving := startListening_serving hcalls hfore hpre h decide_eq_true_iff.symm
  have hsafe' : decide (start.option "server.thread" ≠ 0) = true ∨
      decide (start.option "server.free_on_stop" ≠ 0) = false ∧ ends = false := by
    rwa [decide_eq_true_eq, decide_eq_false_iff_not, not_not]
  refine ⟨?_, fun hfin => ?_⟩
  · rw [stopping_finishes_iff hserving hsafe' hr, Stopping.Exits, Stopping.reaches_ends hr, or_assoc]
    rfl
  · have hheld := stopping_finished hserving hsafe' hr hfin
    obtain ⟨s', hrun, hs'⟩ := closeCode_run hcalls (setUndefinedOptions start.server)
      (start.launch s).toRunning (start.option "server.free_on_stop" ≠ 0)
    simp only [decide_eq_true_iff] at hrun
    refine ⟨s', hrun, hheld.trans hs'.symm, ?_⟩
    rw [hheld]
    exact closeCode_nodup hserving.once hserving.server _

/-- In a thread of its own the server can be stopped from the start. -/
theorem stop_thread_finishes :
    ∃ s t, startListening (threadStart "1") (adServerNew ()) = .ok s ∧
      ((threadStart "1").stopping false s).Reaches t ∧ t.Finished := by
  obtain ⟨s, hs⟩ := threadStart_listens (Or.inr rfl)
  have hthread : (threadStart "1").option "server.thread" ≠ 0 := by decide +kernel
  obtain ⟨hiff, -⟩ := stop_finishes_iff (fun _ => rfl) (List.forall_mem_nil _) rfl hs
    (Or.inl hthread) (.refl : ((threadStart "1").stopping false s).Reaches _)
  have hserving := startListening_serving (fun _ => rfl) (List.forall_mem_nil _) rfl hs
    (iff_of_true hthread rfl)
  obtain ⟨t, hr, hfin⟩ := hiff.2 (Or.inr (Or.inr hserving.notifyBuffer))
  exact ⟨s, t, hs, hr, hfin⟩

end Asyncd
