import Mathlib.Computability.Language
import Mathlib.Order.CompletePartialOrder
import Asyncd.Server.Moves

/-!
# The lifecycle of a connection

The dispatches of a connection follow the expression
`(INIT|WRITE) (READ|WRITE)* [CLOSE INIT (READ|WRITE)*]* CLOSE(+TIMEOUT)`, whatever the hooks do and in
whatever order the callbacks come.  The invariants are proved of `Moves`; `session_lifecycle` carries
them over to the code.
-/

open scoped Computability

namespace Asyncd

/-! ## Words -/

/-- `READ|WRITE`, one event or the other. -/
def readWrite : Language Event := {[evRead]} + {[evWrite]}

/-- `CLOSE INIT`. -/
def closeInit : Language Event := {[evClose false]} * {[evInit]}

/-- The words of a connection that is not closed yet. -/
def opened : Language Event := {[evInitWrite]} * readWrite∗ * (closeInit * readWrite∗)∗

/-- The words of a connection that is closed. -/
def lifecycle : Language Event := opened * ({[evClose false]} + {[evClose true]})

theorem denest_mul_right {α : Type*} (a b : Language α) :
    a∗ * (b * a∗)∗ * b ≤ a∗ * (b * a∗)∗ := by
  have hb : b ≤ b * a∗ := by
    calc b = b * 1 := (mul_one b).symm
      _ ≤ b * a∗ := by gcongr; exact one_le_kstar
  calc a∗ * (b * a∗)∗ * b ≤ a∗ * (b * a∗)∗ * (b * a∗) := by gcongr
    _ = a∗ * ((b * a∗)∗ * (b * a∗)) := mul_assoc _ _ _
    _ ≤ a∗ * (b * a∗)∗ := by gcongr; exact kstar_mul_le_kstar

theorem denest_mul_left {α : Type*} (a b : Language α) :
    a∗ * (b * a∗)∗ * a ≤ a∗ * (b * a∗)∗ := by
  -- the last factor goes into the star it stands behind
  have hlast : (b * a∗)∗ * (b * a∗) * a ≤ (b * a∗)∗ := by
    calc (b * a∗)∗ * (b * a∗) * a = (b * a∗)∗ * (b * (a∗ * a)) := by simp only [mul_assoc]
      _ ≤ (b * a∗)∗ * (b * a∗) := by gcongr; exact kstar_mul_le_kstar
      _ ≤ (b * a∗)∗ := kstar_mul_le_kstar
  calc a∗ * (b * a∗)∗ * a = a∗ * (1 + (b * a∗)∗ * (b * a∗)) * a := by
        rw [Language.one_add_kstar_mul_self_eq_kstar]
    _ = a∗ * a * 1 + a∗ * ((b * a∗)∗ * (b * a∗) * a) := by
        rw [mul_add, add_mul, mul_one, mul_one]
        simp only [mul_assoc]
    _ ≤ a∗ * (b * a∗)∗ + a∗ * (b * a∗)∗ := by
        gcongr
        · exact kstar_mul_le_kstar
        · exact one_le_kstar
    _ = a∗ * (b * a∗)∗ := add_idem _

theorem opened_mul_readWrite : opened * readWrite ≤ opened := by
  unfold opened
  rw [mul_assoc {[evInitWrite]}, mul_assoc {[evInitWrite]}]
  exact mul_le_mul' le_rfl (denest_mul_left readWrite closeInit)

theorem opened_mul_closeInit : opened * closeInit ≤ opened := by
  unfold opened
  rw [mul_assoc {[evInitWrite]}, mul_assoc {[evInitWrite]}]
  exact mul_le_mul' le_rfl (denest_mul_right readWrite closeInit)

theorem opened_append_readWrite {w : List Event} {e : Event} (hw : w ∈ opened)
    (he : e = evRead ∨ e = evWrite) : w ++ [e] ∈ opened := by
  apply opened_mul_readWrite (Language.append_mem_mul hw _)
  rcases he with rfl | rfl
  · exact Or.inl rfl
  · exact Or.inr rfl

theorem opened_append_closeInit {w : List Event} (hw : w ∈ opened) :
    w ++ [evClose false, evInit] ∈ opened :=
  opened_mul_closeInit (Language.append_mem_mul hw ⟨_, rfl, _, rfl, rfl⟩)

theorem opened_initWrite : [evInitWrite] ∈ opened := by
  have h := Language.append_mem_mul
    (Language.append_mem_mul (Set.mem_singleton [evInitWrite]) (Language.nil_mem_kstar readWrite))
    (Language.nil_mem_kstar (closeInit * readWrite∗))
  exact h

theorem lifecycle_close {w : List Event} (hw : w ∈ opened) (t : Bool) :
    w ++ [evClose t] ∈ lifecycle := by
  apply Language.append_mem_mul hw
  cases t
  · exact Or.inl rfl
  · exact Or.inr rfl

/-! ## Invariants of moves -/

/-- A dispatch that closes the connection for good, when nothing is left to be sent. -/
def FinalClose (d : Dispatch) : Prop := (∃ t, d.event = evClose t) ∧ d.before.out = []

/-- At most the final close. -/
def OnlyFinalClose (ds : List Dispatch) : Prop := ds = [] ∨ ∃ f, ds = [f] ∧ FinalClose f

section

variable {p : Bool}

theorem append_eq_split {α : Type*} {l r pre post : List α} {a : α} (h : l ++ r = pre ++ a :: post) :
    (∃ m, l = pre ++ a :: m ∧ post = m ++ r) ∨ ∃ m, pre = l ++ m ∧ r = m ++ a :: post := by
  rcases List.append_eq_append_iff.1 h with ⟨m, hp, hr⟩ | ⟨m, hl, hr⟩
  · exact Or.inr ⟨m, hp, hr⟩
  · cases m with
    | nil => exact Or.inr ⟨[], by simpa using hl.symm, by simpa using hr.symm⟩
    | cons b m =>
      obtain ⟨rfl, rfl⟩ := List.cons_eq_cons.1 hr
      exact Or.inl ⟨m, hl, rfl⟩

/-- The words of the moves after a first dispatch. -/
theorem Moves.word {st st' : Option ℤ} {out : List Output} (h : Moves p st out st') {d : Dispatch}
    (hd : d.event = evInitWrite) :
    (∃ rest, (d :: dispatches out).map Dispatch.event ++ rest ∈ lifecycle) ∧
      (st'.isSome → (d :: dispatches out).map Dispatch.event ∈ opened) := by
  have hclose : ∀ {w : List Event}, w ∈ opened → ∃ rest, w ++ rest ∈ lifecycle :=
    fun hw => ⟨_, lifecycle_close hw false⟩
  induction h with
  | refl =>
    have : [d].map Dispatch.event ∈ opened := by simpa [hd] using opened_initWrite
    exact ⟨hclose this, fun _ => this⟩
  | tail _ m ih =>
    have hw := ih.2 rfl
    rw [dispatches_append, ← List.cons_append, List.map_append]
    rcases m.dispatches_cases with ⟨e, -⟩ | ⟨d', e, -, he, -⟩ | ⟨c, i, e, -, -, -, hc, hi, -⟩ |
      ⟨c, e, -, -, hc, rfl⟩ | ⟨c, t, e, -, hc, -, rfl⟩
    all_goals rw [e]
    · exact ⟨by simpa using hclose hw, fun _ => by simpa using hw⟩
    · have := opened_append_readWrite hw he
      exact ⟨hclose this, fun _ => this⟩
    · have := opened_append_closeInit hw
      rw [← hc, ← hi] at this
      exact ⟨hclose this, fun _ => this⟩
    · exact ⟨⟨[], by simpa [hc] using lifecycle_close hw false⟩, fun h => by cases h⟩
    · exact ⟨⟨[], by simpa [hc] using lifecycle_close hw t⟩, fun h => by cases h⟩

/-- From statuses that only wait for the end, there is at most the final close. -/
theorem Moves.waiting {W : ℤ → Prop} (hok : ¬ W adOk) (htake : ¬ W adTakeover)
    (hclose : W adClose) (hdone : p = true → ¬ W adDone) {st : ℤ} (hst : W st) {st' : Option ℤ}
    {out : List Output} (h : Moves p (some st) out st') :
    OnlyFinalClose (dispatches out) ∧ ∀ s, st' = some s → dispatches out = [] ∧ W s := by
  generalize hs : some st = st₀ at h
  induction h with
  | refl =>
    subst hs
    refine ⟨Or.inl rfl, ?_⟩
    rintro s ⟨⟩
    exact ⟨rfl, hst⟩
  | tail _ m ih =>
    obtain ⟨hnil, hW⟩ := ih.2 _ rfl
    rw [dispatches_append, hnil, List.nil_append]
    rcases m.dispatches_cases with ⟨e, rfl⟩ | ⟨d', e, h, -, -⟩ | ⟨c, i, e, hp, rfl, -⟩ |
      ⟨c, e, hp, rfl, -⟩ | ⟨c, t, e, -, hc, hb, rfl⟩
    · refine ⟨Or.inl e, ?_⟩
      rintro s ⟨⟩
      exact ⟨e, hclose⟩
    · rcases h with rfl | rfl
      · exact absurd hW hok
      · exact absurd hW htake
    · exact absurd hW (hdone hp)
    · exact absurd hW (hdone hp)
    · exact ⟨Or.inr ⟨c, e, ⟨t, hc⟩, hb⟩, fun s h => by cases h⟩

/-- The events of the dispatches that take the status a hook returned. -/
def Served (d : Dispatch) : Prop := d.event.read = true ∨ d.event.write = true

theorem not_served_of_close {d : Dispatch} {t : Bool} (h : d.event = evClose t) : ¬ Served d := by
  simp [Served, h, evClose]

theorem not_served_of_init {d : Dispatch} (h : d.event = evInit) : ¬ Served d := by
  simp [Served, h, evInit]

theorem Moves.after_served {st st' : Option ℤ} {out : List Output} (h : Moves p st out st')
    {pre post : List Dispatch} {d : Dispatch} (hd : dispatches out = pre ++ d :: post)
    (he : Served d) : ∃ out', Moves p d.status out' st' ∧ dispatches out' = post := by
  induction h generalizing post with
  | refl => simp at hd
  | @tail st'' st₁ out₀ out₁ h m ih =>
    rw [dispatches_append] at hd
    rcases append_eq_split hd with ⟨l, hl, rfl⟩ | ⟨l, -, hl⟩
    · obtain ⟨out', hm, rfl⟩ := ih hl
      exact ⟨out' ++ out₁, hm.tail m, dispatches_append _ _⟩
    · -- the dispatch is in the last move
      have hmem : d ∈ dispatches out₁ := by simp [hl]
      rcases m.dispatches_cases with ⟨e, -⟩ | ⟨d', e, -, -, rfl⟩ | ⟨c, i, e, -, -, -, hc, hi, -⟩ |
        ⟨c, e, -, -, hc, -⟩ | ⟨c, t, e, -, hc, -, -⟩
      all_goals rw [e] at hl hmem
      · simp at hmem
      · obtain rfl : d = d' := by simpa using hmem
        obtain ⟨-, rfl⟩ : l = [] ∧ post = [] := by
          have := congrArg List.length hl
          simp only [List.length_append, List.length_cons, List.length_nil] at this
          exact ⟨List.eq_nil_of_length_eq_zero (by omega), List.eq_nil_of_length_eq_zero (by omega)⟩
        exact ⟨[], .refl _, rfl⟩
      · simp only [List.mem_cons, List.not_mem_nil, or_false] at hmem
        rcases hmem with rfl | rfl
        · exact absurd he (not_served_of_close hc)
        · exact absurd he (not_served_of_init hi)
      · obtain rfl : d = c := by simpa using hmem
        exact absurd he (not_served_of_close hc)
      · obtain rfl : d = c := by simpa using hmem
        exact absurd he (not_served_of_close hc)

/-- While the connection exists, the last dispatch is not a close, and `AD_DONE` is what it returned. -/
theorem Moves.last {d : Dispatch} (hd : d.event = evInitWrite) {st' : Option ℤ} {out : List Output}
    (h : Moves p d.status out st') {s : ℤ} (hs : st' = some s) :
    ∃ pre e, d :: dispatches out = pre ++ [e] ∧ e.event.close = false ∧
      (s = adDone → e.status = some adDone) := by
  induction h generalizing s with
  | refl => exact ⟨[], d, rfl, by rw [hd]; rfl, fun h => h ▸ hs⟩
  | @tail st₂ st₁ out₀ out₁ _ m ih =>
    rw [dispatches_append, ← List.cons_append]
    rcases m.dispatches_cases with ⟨e, rfl⟩ | ⟨d', e, -, he, rfl⟩ | ⟨c, i, e, -, -, -, -, hi, rfl⟩ |
      ⟨c, e, -, -, hc, rfl⟩ | ⟨c, t, e, -, hc, -, rfl⟩
    · obtain ⟨pre, e', hpre, hclose, -⟩ := ih rfl
      obtain rfl : adClose = s := by simpa using hs
      exact ⟨pre, e', by rw [e, List.append_nil, hpre], hclose, fun h => absurd h (by decide)⟩
    · refine ⟨_, d', by rw [e], ?_, fun h => h ▸ hs⟩
      rcases he with he | he <;> rw [he] <;> rfl
    · refine ⟨d :: dispatches out₀ ++ [c], i, by rw [e]; simp, by rw [hi]; rfl, ?_⟩
      rintro rfl
      cases hst : i.status <;> simp [hst, adOk, adDone] at hs
    · cases hs
    · cases hs

/-- A close that is not the last dispatch closes a request that is done, and an init follows. -/
theorem Moves.pairs {d : Dispatch} (hd : d.event = evInitWrite) {st' : Option ℤ} {out : List Output}
    (h : Moves p d.status out st') {pre post : List Dispatch} {c : Dispatch}
    (hc : d :: dispatches out = pre ++ c :: post) (hclose : c.event.close = true) (hpost : post ≠ []) :
    p = true ∧ c.before.status = adDone ∧ (∃ pre' e, pre = pre' ++ [e] ∧ e.status = some adDone) ∧
      ∃ i post', post = i :: post' ∧ i.event = evInit := by
  induction h generalizing post with
  | refl =>
    have := congrArg List.length hc
    simp only [dispatches_nil, List.length_append, List.length_cons, List.length_nil] at this
    exact absurd (List.eq_nil_of_length_eq_zero (by omega)) hpost
  | tail h m ih =>
    rw [dispatches_append, ← List.cons_append] at hc
    obtain ⟨pre₁, e₁, hpre₁, he₁, hdone₁⟩ := Moves.last hd h rfl
    rcases append_eq_split hc with ⟨l, hl, rfl⟩ | ⟨l, rfl, hl⟩
    · -- the close is in an earlier move
      have hlne : l ≠ [] := by
        rintro rfl
        rw [hpre₁] at hl
        have := (List.append_inj' hl rfl).2
        rw [List.cons_eq_cons] at this
        rw [this.1, hclose] at he₁
        cases he₁
      obtain ⟨hp, hb, hpre, i, post', rfl, hi⟩ := ih hl hlne
      exact ⟨hp, hb, hpre, i, _, rfl, hi⟩
    · have hlen := congrArg List.length hl
      have hpos := List.length_pos_of_ne_nil hpost
      simp only [List.length_append, List.length_cons] at hlen
      rcases m.dispatches_cases with ⟨e, -⟩ | ⟨d', e, -⟩ | ⟨c', i, e, hp, hst, hb, hc', hi, -⟩ |
        ⟨c', e, -⟩ | ⟨c', t, e, -⟩
      all_goals rw [e] at hl hlen; simp only [List.length_cons, List.length_nil] at hlen
      · omega
      · omega
      · obtain rfl : l = [] := List.eq_nil_of_length_eq_zero (by omega)
        obtain ⟨rfl, rfl⟩ := List.cons_eq_cons.1 hl
        exact ⟨hp, hb, ⟨pre₁, e₁, by rw [List.append_nil, hpre₁], hdone₁ hst⟩, i, [], rfl, hi⟩
      · omega
      · omega

/-- Without pipelining there are no dispatches but those whose status counts and closes. -/
theorem Moves.served_or_close {st st' : Option ℤ} {out : List Output} (h : Moves p st out st')
    (hp : p = false) {d : Dispatch} (hd : d ∈ dispatches out) :
    Served d ∨ d.event.close = true := by
  induction h with
  | refl => cases hd
  | tail _ m ih =>
    rw [dispatches_append, List.mem_append] at hd
    rcases hd with hd | hd
    · exact ih hd
    · rcases m.dispatches_cases with ⟨e, -⟩ | ⟨d', e, -, he, -⟩ | ⟨c, i, e, hp', -⟩ |
        ⟨c, e, hp', -⟩ | ⟨c, t, e, -, hc, -⟩
      all_goals rw [e] at hd
      · cases hd
      · obtain rfl : d = d' := by simpa using hd
        rcases he with he | he <;> simp [Served, he, evRead, evWrite]
      · rw [hp] at hp'
        cases hp'
      · rw [hp] at hp'
        cases hp'
      · obtain rfl : d = c := by simpa using hd
        exact Or.inr (by rw [hc]; rfl)

theorem Moves.after_first {d₀ : Dispatch} {st' : Option ℤ} {out : List Output}
    (h : Moves p d₀.status out st') {pre post : List Dispatch} {d : Dispatch}
    (hd : d₀ :: dispatches out = pre ++ d :: post) (he : Served d) :
    ∃ out', Moves p d.status out' st' ∧ dispatches out' = post := by
  cases pre with
  | nil =>
    obtain ⟨rfl, rfl⟩ := List.cons_eq_cons.1 hd
    exact ⟨out, h, rfl⟩
  | cons _ pre => exact h.after_served (List.cons_eq_cons.1 hd).2 he

theorem Moves.only_final_of_close {st' : Option ℤ} {out : List Output}
    (h : Moves p (some adClose) out st') : OnlyFinalClose (dispatches out) :=
  (h.waiting (W := fun s => s = adClose) (by decide) (by decide) rfl (fun _ => by decide) rfl).1

theorem Moves.only_final_of_done (hp : p = false) {st' : Option ℤ} {out : List Output}
    (h : Moves p (some adDone) out st') : OnlyFinalClose (dispatches out) :=
  (h.waiting (W := fun s => s = adDone ∨ s = adClose) (by decide) (by decide) (Or.inr rfl)
    (fun h => by rw [hp] at h; cases h) (Or.inl rfl)).1

theorem Moves.freed {st st' : Option ℤ} {out : List Output} (h : Moves p st out st')
    (hf : Output.connFree ∈ out) :
    ∃ pre d rel, out = pre ++ .dispatch d :: (rel ++ [.connFree]) ∧ FinalClose d ∧ Releases rel ∧
      Output.connFree ∉ pre ∧ Moves p st pre (some adClose) ∧ st' = none := by
  induction h with
  | refl => cases hf
  | tail h m ih =>
    have hpre : Output.connFree ∉ _ := fun hmem => by
      obtain ⟨_, _, _, _, _, _, _, _, hnone⟩ := ih hmem
      cases hnone
    rcases List.mem_append.1 hf with hmem | hmem
    · exact absurd hmem hpre
    · cases m with
      | @final d t rel he hb hout => exact ⟨_, d, rel, rfl, ⟨⟨t, he⟩, hb⟩, hout, hpre, h, rfl⟩
      | @reset d i rel _ _ _ hout => simp [hout.2] at hmem
      | _ => simp at hmem

theorem Moves.not_freed {st : Option ℤ} {out : List Output} {s : ℤ} (h : Moves p st out (some s)) :
    Output.connFree ∉ out := by
  intro hf
  obtain ⟨_, _, _, _, _, _, _, _, hnone⟩ := h.freed hf
  cases hnone

theorem Moves.no_shutdown {st st' : Option ℤ} {out : List Output} (h : Moves p st out st') :
    ∀ d ∈ dispatches out, d.event.shutdown = false := by
  induction h with
  | refl => simp
  | tail _ m ih =>
    rw [dispatches_append, List.forall_mem_append]
    refine ⟨ih, ?_⟩
    rcases m.dispatches_cases with ⟨e, -⟩ | ⟨d', e, -, he, -⟩ | ⟨c, i, e, -, -, -, hc, hi, -⟩ |
      ⟨c, e, -, -, hc, -⟩ | ⟨c, t, e, -, hc, -, -⟩
    all_goals rw [e]
    · simp
    · rcases he with he | he <;> simp [he, evRead, evWrite]
    · simp [hc, hi, evClose, evInit]
    · simp [hc, evClose]
    · simp [hc, evClose]

theorem Moves.ended {st st' : Option ℤ} {out : List Output} (h : Moves p st out st')
    (hst : st ≠ none) (hend : st' = none) :
    Output.connFree ∈ out ∨ ∃ d ∈ dispatches out, d.status = none := by
  cases h with
  | refl => exact absurd hend hst
  | tail _ m =>
    simp only [dispatches_append, List.mem_append]
    cases m with
    | hangUp => cases hend
    | @serve _ d => exact Or.inr ⟨d, Or.inr (by simp), hend⟩
    | @resetCut d _ _ _ hd => exact Or.inr ⟨d, Or.inr (by simp), hd⟩
    | @reset d i rel => exact Or.inr ⟨i, Or.inr (by simp), by simpa using hend⟩
    | @finalCut d _ _ _ hd => exact Or.inr ⟨d, Or.inr (by simp), hd⟩
    | final => exact Or.inl (Or.inr (by simp))

end

/-! ## Every run -/

section

variable {σ : Type} (server : AdServer σ) (world : σ)

/-- After the peer is gone, only the final close is dispatched. -/
theorem session_after_hangUp {what : BevEvent} (hw : what.eof ∨ what.error ∨ what.timeout)
    (cs₀ cs₁ : List Callback) :
    ∃ post, dispatches (session server world (cs₀ ++ .event what :: cs₁)).trace =
      dispatches (session server world cs₀).trace ++ post ∧ OnlyFinalClose post := by
  obtain ⟨out₁, htr₁, h₁⟩ := step_hangUp_moves server (session server world cs₀) hw
  obtain ⟨out₂, htr₂, h₂⟩ := session_moves server world (cs₀ ++ [.event what]) cs₁
  rw [List.append_assoc, List.singleton_append, session_concat] at htr₂ h₂
  refine ⟨dispatches (out₁ ++ out₂), ?_, ?_⟩
  · rw [← dispatches_append, ← List.append_assoc, ← htr₁, ← htr₂]
  · rcases h₁ with ⟨hnone, rfl⟩ | h₁
    · have hst : ((session server world cs₀).step server (.event what)).status = none := by
        simp [Session.status, Session.step, hnone]
      rw [hst] at h₂
      rw [h₂.of_none.1]
      exact Or.inl rfl
    · exact (h₁.trans h₂).only_final_of_close

/-- Without pipelining, a status `AD_DONE` is followed by the final close only. -/
theorem session_after_done (hp : server.pipelining = false) {cs : List Callback}
    {pre post : List Dispatch} {d : Dispatch}
    (hd : dispatches (session server world cs).trace = pre ++ d :: post)
    (hst : d.status = some adDone) : OnlyFinalClose post := by
  obtain ⟨d₀, out, he₀, htr, hm⟩ := session_trace server world cs
  rw [htr, dispatches_dispatch] at hd
  have hmem : d ∈ d₀ :: dispatches out := by rw [hd]; simp
  have hkind : Served d ∨ d.event.close = true := by
    rcases List.mem_cons.1 hmem with rfl | hmem
    · exact Or.inl (by simp [Served, he₀, evInitWrite])
    · exact hm.served_or_close hp hmem
  rcases hkind with hserved | hclose
  · obtain ⟨out', hm', rfl⟩ := hm.after_first hd hserved
    exact (hst ▸ hm').only_final_of_done hp
  · by_contra hpost
    have hpip := (hm.pairs he₀ hd hclose fun h => hpost (Or.inl h)).1
    rw [hp] at hpip
    cases hpip

theorem session_freed_once (cs : List Callback) :
    (session server world cs).trace.count .connFree ≤ 1 := by
  obtain ⟨d₀, out, -, htr, hm⟩ := session_trace server world cs
  rw [htr, List.count_cons_of_ne (by simp)]
  by_cases hf : Output.connFree ∈ out
  · obtain ⟨pre, d, rel, rfl, -, hrel, hpre, -⟩ := hm.freed hf
    simp [List.count_append, List.count_eq_zero_of_not_mem hpre,
      List.count_eq_zero_of_not_mem hrel.2]
  · rw [List.count_eq_zero_of_not_mem hf]
    omega

theorem session_freed_last {cs : List Callback} {c : Callback} {out : List Output}
    (htr : (session server world (cs ++ [c])).trace = (session server world cs).trace ++ out)
    (hf : .connFree ∈ out) :
    ∃ pre d rel, out = pre ++ .dispatch d :: (rel ++ [.connFree]) ∧ FinalClose d ∧
      dispatches rel = [] ∧ (session server world (cs ++ [c])).conn = none := by
  obtain ⟨out', htr', hm⟩ := step_moves server (session server world cs) c
  rw [← session_concat] at htr' hm
  rw [List.append_cancel_left (htr.symm.trans htr')] at hf ⊢
  obtain ⟨pre, d, rel, rfl, hd, hrel, -, -, hnone⟩ := hm.freed hf
  exact ⟨pre, d, rel, rfl, hd, hrel.1, by simpa [Session.status] using hnone⟩

end

/-- The lifecycle of a connection, for every chain of hooks and every run. -/
theorem session_lifecycle {σ : Type} (server : AdServer σ) (world : σ) (cs : List Callback) :
    let run := session server world
    let ds := dispatches (run cs).trace
    -- the events are a prefix of a word
    (∃ rest, ds.map Dispatch.event ++ rest ∈ lifecycle) ∧
    -- a close that is not the last dispatch needs pipelining and is caused by a status `AD_DONE`
    (∀ pre c post, ds = pre ++ c :: post → c.event.close = true → post ≠ [] →
      server.pipelining = true ∧ c.before.status = adDone ∧
        (∃ pre' e, pre = pre' ++ [e] ∧ e.status = some adDone) ∧
        ∃ i post', post = i :: post' ∧ i.event = evInit) ∧
    -- after a status `AD_CLOSE`, and after the peer is gone, only the final close
    (∀ pre d post, ds = pre ++ d :: post → Served d → d.status = some adClose →
      OnlyFinalClose post) ∧
    (∀ cs₀ what cs₁, cs = cs₀ ++ .event what :: cs₁ → what.eof ∨ what.error ∨ what.timeout →
      ∃ post, ds = dispatches (run cs₀).trace ++ post ∧ OnlyFinalClose post) ∧
    -- without pipelining, also after a status `AD_DONE`
    (server.pipelining = false → ∀ pre d post, ds = pre ++ d :: post → d.status = some adDone →
      OnlyFinalClose post) ∧
    -- the connection is freed at most once, in the callback of the final close, with nothing left to send
    (run cs).trace.count .connFree ≤ 1 ∧
    (∀ cs₀ c cs₁ out, cs = cs₀ ++ c :: cs₁ → (run (cs₀ ++ [c])).trace = (run cs₀).trace ++ out →
      .connFree ∈ out →
        ∃ pre d rel, out = pre ++ .dispatch d :: (rel ++ [.connFree]) ∧ FinalClose d ∧
          dispatches rel = [] ∧ (run (cs₀ ++ [c])).conn = none) := by
  intro run ds
  obtain ⟨d₀, out, he₀, htr, hm⟩ := session_trace server world cs
  have hds : ds = d₀ :: dispatches out := congrArg dispatches htr
  refine ⟨?_, ?_, ?_, ?_, ?_, session_freed_once server world cs, ?_⟩
  · rw [hds]
    exact (hm.word he₀).1
  · intro pre c post hc hclose hpost
    exact hm.pairs he₀ (hds ▸ hc) hclose hpost
  · intro pre d post hd hserved hst
    obtain ⟨out', hm', rfl⟩ := hm.after_first (hds ▸ hd) hserved
    exact (hst ▸ hm').only_final_of_close
  · rintro cs₀ what cs₁ rfl hw
    exact session_after_hangUp server world hw cs₀ cs₁
  · intro hp pre d post hd hst
    exact session_after_done server world hp hd hst
  · intro cs₀ c cs₁ out' _ htr' hf
    exact session_freed_last server world htr' hf

end Asyncd
