import Asyncd.Server.Rule
import Asyncd.Lib.Runs
import Mathlib.Data.Multiset.Count

/-!
# Userdata

`ad_conn_set_userdata` and `ad_conn_set_extra` should hand back what they replace, for the caller to
release.  What they return is the address of the array `conn->userdata`.  A `Ledger` keeps the pointers
that were attached with a free callback and what became of them: `userdata_owned_iff` is about all that
is asked of the calls, and `conserved_iff` about the pointers alone.
-/

namespace Asyncd

/-! ## The calls -/

/-- The index of a slot: 0 is for userdata, 1 is for extra. -/
inductive SlotIndex
  | userdata
  | extra
  deriving DecidableEq

/-- `userdata[index]` and `userdata_free_cb[index]`. -/
def AdConn.slot (conn : AdConn) : SlotIndex → Slot
  | .userdata => conn.userdata
  | .extra => conn.extra

/-- Write `userdata[index]` and `userdata_free_cb[index]`. -/
def AdConn.setSlot (conn : AdConn) (index : SlotIndex) (slot : Slot) : AdConn :=
  match index with
  | .userdata => { conn with userdata := slot }
  | .extra => { conn with extra := slot }

/-- `set_userdata`: what it returns, and the connection.  As `conn->userdata` is an array, `prev` is its
address, `base`. -/
def setUserdata (base : UserPtr) (conn : AdConn) (index : SlotIndex) (userdata : Option UserPtr)
    (freeCb : Option FreeCb) : Option UserPtr × AdConn :=
  let prev := some base
  (prev, conn.setSlot index ⟨userdata, freeCb⟩)

/-- `get_userdata`. -/
def getUserdata (conn : AdConn) (index : SlotIndex) : Option UserPtr := (conn.slot index).data

/-- A call that concerns the userdata of a connection.  The calls that hooks make in the course of
`conn_free` are calls of their own. -/
inductive UserdataCall
  | set (index : SlotIndex) (userdata : Option UserPtr) (freeCb : Option FreeCb)
  | get (index : SlotIndex)
  | reset
  | free
  deriving DecidableEq

/-- What a call returns, the connection it leaves, and what it puts out. -/
structure CallResult where
  returned : Option UserPtr
  conn : Option AdConn
  out : List Output

/-- A call on a connection that exists. -/
def UserdataCall.run (base : UserPtr) (conn : AdConn) : UserdataCall → CallResult
  | .set index userdata freeCb =>
    let (prev, conn) := setUserdata base conn index userdata freeCb
    ⟨prev, some conn, []⟩
  | .get index => ⟨getUserdata conn index, some conn, []⟩
  | .reset => ⟨none, some (connReset conn).1, (connReset conn).2⟩
  | .free => ⟨none, (connRelease conn ()).conn, (connRelease conn ()).trace⟩

/-- The slot that a call is about. -/
def UserdataCall.index : UserdataCall → Option SlotIndex
  | .set index _ _ => some index
  | .get index => some index
  | _ => none

/-- The call attaches a pointer, `NULL` or not. -/
def UserdataCall.IsSet (call : UserdataCall) : Prop :=
  ∃ index userdata freeCb, call = .set index userdata freeCb

/-! ## What should become of the pointers -/

/-- The pointer that was set last on a slot, `NULL` if there is none or it was released since. -/
def lastSet (index : SlotIndex) (calls : List UserdataCall) : Option UserPtr :=
  calls.foldl
    (fun last call =>
      match call with
      | .set index' userdata _ => if index' = index then userdata else last
      | .get _ => last
      | .reset => none
      | .free => none)
    none

/-- The pointer in a slot with its free callback, if it has both. -/
def Slot.owned (slot : Slot) : Multiset (UserPtr × FreeCb) :=
  match slot.data, slot.freeCb with
  | some data, some cb => {(data, cb)}
  | _, _ => 0

/-- The pointers with free callbacks that a connection holds. -/
def AdConn.owned (conn : AdConn) : Multiset (UserPtr × FreeCb) :=
  conn.userdata.owned + conn.extra.owned

/-- The pointers that were passed to free callbacks. -/
def freedIn (out : List Output) : Multiset (UserPtr × FreeCb) :=
  ↑(out.filterMap fun o =>
    match o with
    | .freeUserdata data cb => some (data, cb)
    | _ => none)

/-- The pointer with a free callback that a call attaches. -/
def UserdataCall.attaches : UserdataCall → Multiset (UserPtr × FreeCb)
  | .set _ userdata freeCb => Slot.owned ⟨userdata, freeCb⟩
  | _ => 0

/-- The pointer with a free callback that a call replaces and returns. -/
def UserdataCall.handsBack (base : UserPtr) (conn : AdConn) (call : UserdataCall) :
    Multiset (UserPtr × FreeCb) :=
  match call with
  | .set index _ _ =>
    if (call.run base conn).returned = (conn.slot index).data then (conn.slot index).owned else 0
  | _ => 0

/-- A connection while it exists, and the pointers that were attached with a free callback, those that
were handed back, and those that were passed to their callbacks. -/
structure Ledger where
  conn : Option AdConn
  attached : Multiset (UserPtr × FreeCb)
  handedBack : Multiset (UserPtr × FreeCb)
  freed : Multiset (UserPtr × FreeCb)

/-- The pointers that are still held. -/
def Ledger.held (l : Ledger) : Multiset (UserPtr × FreeCb) :=
  match l.conn with
  | none => 0
  | some conn => conn.owned

/-- Every pointer attached is held, was handed back or was passed to its callback, and one of these
once. -/
def Ledger.Balanced (l : Ledger) : Prop := l.attached = l.held + l.handedBack + l.freed

instance (l : Ledger) : Decidable l.Balanced := inferInstanceAs (Decidable (_ = _))

/-- One call. -/
def Ledger.call (base : UserPtr) (l : Ledger) (call : UserdataCall) : Ledger :=
  match l.conn with
  | none => l
  | some conn =>
    { conn := (call.run base conn).conn
      attached := l.attached + call.attaches
      handedBack := l.handedBack + call.handsBack base conn
      freed := l.freed + freedIn (call.run base conn).out }

/-- The ledger of a new connection after some calls. -/
def ledger (base : UserPtr) (calls : List UserdataCall) : Ledger :=
  calls.foldl (Ledger.call base) ⟨some blankConn, 0, 0, 0⟩

/-- What is asked of a call, after other calls. -/
structure KeepsOwnership (base : UserPtr) (pre : List UserdataCall) (call : UserdataCall) : Prop where
  set_returns : ∀ conn, (ledger base pre).conn = some conn → ∀ index userdata freeCb,
    call = .set index userdata freeCb → (call.run base conn).returned = lastSet index pre
  get_returns : ∀ conn, (ledger base pre).conn = some conn → ∀ index, call = .get index →
    (call.run base conn).returned = lastSet index pre
  independent : ∀ conn, (ledger base pre).conn = some conn → ∀ conn',
    (call.run base conn).conn = some conn' → ∀ index, call.index = some index → ∀ other ≠ index,
      conn'.slot other = conn.slot other
  conserved : (ledger base (pre ++ [call])).Balanced

/-! ## Slots -/

theorem setUserdata_userdata (base : UserPtr) (conn : AdConn) (userdata : Option UserPtr)
    (freeCb : Option FreeCb) : (setUserdata base conn .userdata userdata freeCb).2 =
      { conn with toConnView := adConnSetUserdata conn.toConnView userdata freeCb } := rfl

theorem setUserdata_extra (base : UserPtr) (conn : AdConn) (userdata : Option UserPtr)
    (freeCb : Option FreeCb) : (setUserdata base conn .extra userdata freeCb).2 =
      { conn with toConnView := adConnSetExtra conn.toConnView userdata freeCb } := rfl

@[simp] theorem AdConn.slot_setSlot (conn : AdConn) (index : SlotIndex) (slot : Slot) :
    (conn.setSlot index slot).slot index = slot := by cases index <;> rfl

theorem AdConn.slot_setSlot_of_ne (conn : AdConn) {index other : SlotIndex} (h : other ≠ index)
    (slot : Slot) : (conn.setSlot index slot).slot other = conn.slot other := by
  cases index <;> cases other
  · exact absurd rfl h
  · rfl
  · rfl
  · exact absurd rfl h

theorem AdConn.owned_setSlot (conn : AdConn) (index : SlotIndex) (slot : Slot) :
    (conn.setSlot index slot).owned + (conn.slot index).owned = conn.owned + slot.owned := by
  cases index
  · change slot.owned + conn.extra.owned + conn.userdata.owned = _
    rw [AdConn.owned]
    ac_rfl
  · change conn.userdata.owned + slot.owned + conn.extra.owned = _
    rw [AdConn.owned]
    ac_rfl

theorem freedIn_append (out out' : List Output) :
    freedIn (out ++ out') = freedIn out + freedIn out' := by
  rw [freedIn, List.filterMap_append, ← Multiset.coe_add]
  rfl

theorem freedIn_resetSlot (slot : Slot) :
    freedIn (resetSlot slot).2 = slot.owned ∧ (resetSlot slot).1.data = none := by
  rcases slot with ⟨data, cb⟩
  cases data <;> cases cb <;> exact ⟨rfl, rfl⟩

theorem Slot.owned_of_data_none {slot : Slot} (h : slot.data = none) : slot.owned = 0 := by
  rw [Slot.owned, h]

theorem AdConn.owned_of_data_none {conn : AdConn} (h : ∀ index, (conn.slot index).data = none) :
    conn.owned = 0 := by
  have huserdata : conn.userdata.owned = 0 := Slot.owned_of_data_none (h .userdata)
  have hextra : conn.extra.owned = 0 := Slot.owned_of_data_none (h .extra)
  rw [AdConn.owned, huserdata, hextra, add_zero]

/-- `conn_reset` passes all pointers to their callbacks, and none is left. -/
theorem connReset_owned (conn : AdConn) :
    freedIn (connReset conn).2 = conn.owned ∧
      ∀ index, ((connReset conn).1.slot index).data = none := by
  rcases freedIn_resetSlot conn.userdata with ⟨hfreed, hnone⟩
  rcases freedIn_resetSlot conn.extra with ⟨hfreed', hnone'⟩
  constructor
  · rw [AdConn.owned, ← hfreed, ← hfreed', ← freedIn_append]
    rfl
  · intro index
    cases index
    · exact hnone
    · exact hnone'

/-! ## Runs -/

variable {base : UserPtr} {pre calls : List UserdataCall} {call : UserdataCall} {conn : AdConn}

theorem ledger_concat (base : UserPtr) (pre : List UserdataCall) (call : UserdataCall) :
    ledger base (pre ++ [call]) = (ledger base pre).call base call := List.foldl_concat ..

theorem lastSet_concat (index : SlotIndex) (pre : List UserdataCall) (call : UserdataCall) :
    lastSet index (pre ++ [call]) =
      match call with
      | .set index' userdata _ => if index' = index then userdata else lastSet index pre
      | .get _ => lastSet index pre
      | .reset => none
      | .free => none := List.foldl_concat ..

theorem slot_lastSet (hconn : (ledger base pre).conn = some conn) (index : SlotIndex) :
    (conn.slot index).data = lastSet index pre := by
  induction pre using List.reverseRecOn generalizing conn with
  | nil =>
    cases hconn
    cases index <;> rfl
  | append_singleton pre call ih =>
    rw [ledger_concat, Ledger.call] at hconn
    rw [lastSet_concat]
    cases hold : (ledger base pre).conn with
    | none =>
      rw [hold] at hconn
      simp only [hold] at hconn
      cases hconn
    | some old =>
      simp only [hold] at hconn
      cases call with
      | set index' userdata freeCb =>
        cases hconn
        by_cases h : index' = index
        · subst h
          simp
        · rw [AdConn.slot_setSlot_of_ne _ (Ne.symm h), ih hold]
          simp [h]
      | get index' =>
        cases hconn
        exact ih hold
      | reset =>
        cases hconn
        exact (connReset_owned old).2 index
      | free => cases hconn

theorem get_last (hconn : (ledger base pre).conn = some conn) (index : SlotIndex) :
    ((UserdataCall.get index).run base conn).returned = lastSet index pre :=
  slot_lastSet hconn index

theorem slots_independent {conn' : AdConn} (hconn' : (call.run base conn).conn = some conn')
    {index other : SlotIndex} (hindex : call.index = some index) (hother : other ≠ index) :
    conn'.slot other = conn.slot other := by
  cases call with
  | set index' userdata freeCb =>
    cases hindex
    cases hconn'
    exact conn.slot_setSlot_of_ne hother _
  | get index' =>
    cases hconn'
    rfl
  | reset => cases hindex
  | free => cases hindex

/-! ## Pointers that get lost -/

/-- The call replaces a pointer that has a free callback and is not the address it returns. -/
def Loses (base : UserPtr) (pre : List UserdataCall) (call : UserdataCall) : Prop :=
  ∃ conn index userdata freeCb, (ledger base pre).conn = some conn ∧
    call = .set index userdata freeCb ∧
      ∃ data cb, conn.slot index = ⟨some data, some cb⟩ ∧ data ≠ base

theorem Slot.owned_ne_zero {slot : Slot} (h : slot.owned ≠ 0) :
    ∃ data cb, slot = ⟨some data, some cb⟩ := by
  rcases slot with ⟨data, cb⟩
  cases data with
  | none => exact absurd rfl h
  | some data =>
    cases cb with
    | none => exact absurd rfl h
    | some cb => exact ⟨data, cb, rfl⟩

/-- What a set replaces is handed back, or it is lost. -/
theorem handsBack_set_iff (hconn : (ledger base pre).conn = some conn) (index : SlotIndex)
    (userdata : Option UserPtr) (freeCb : Option FreeCb) :
    (UserdataCall.set index userdata freeCb).handsBack base conn = (conn.slot index).owned ↔
      ¬Loses base pre (.set index userdata freeCb) := by
  have hif : (UserdataCall.set index userdata freeCb).handsBack base conn =
      if some base = (conn.slot index).data then (conn.slot index).owned else 0 := rfl
  rw [hif]
  constructor
  · rintro h ⟨conn', index', _, _, hconn', hcall, data, cb, hslot, hne⟩
    rw [hconn] at hconn'
    cases hconn'
    cases hcall
    rw [hslot, if_neg (fun e => hne (Option.some.inj e).symm)] at h
    exact absurd h.symm (Multiset.singleton_ne_zero _)
  · intro hno
    split_ifs with hbase
    · rfl
    · by_contra hlost
      rcases Slot.owned_ne_zero (Ne.symm hlost) with ⟨data, cb, hslot⟩
      refine hno ⟨conn, index, userdata, freeCb, hconn, rfl, data, cb, hslot, ?_⟩
      rintro rfl
      rw [hslot] at hbase
      exact hbase rfl

theorem Ledger.call_of_not_isSet (base : UserPtr) (l : Ledger) (hcall : ¬call.IsSet) :
    (l.call base call).attached = l.attached ∧ (l.call base call).handedBack = l.handedBack ∧
      (l.call base call).held + (l.call base call).freed = l.held + l.freed := by
  rcases l with ⟨conn, attached, handedBack, freed⟩
  cases conn with
  | none => exact ⟨rfl, rfl, rfl⟩
  | some conn =>
    cases call with
    | set index userdata freeCb => exact absurd ⟨index, userdata, freeCb, rfl⟩ hcall
    | get index => exact ⟨add_zero _, add_zero _, congrArg (conn.owned + ·) (add_zero freed)⟩
    | reset =>
      obtain ⟨hfreed, hnone⟩ := connReset_owned conn
      refine ⟨add_zero _, add_zero _, ?_⟩
      calc (connReset conn).1.owned + (freed + freedIn (connReset conn).2)
          = freed + conn.owned := by rw [AdConn.owned_of_data_none hnone, hfreed, zero_add]
        _ = conn.owned + freed := add_comm _ _
    | free =>
      have hfreed : freedIn ((connReset conn).2 ++ [.connFree]) = conn.owned := by
        rw [freedIn_append, (connReset_owned conn).1]
        exact add_zero _
      refine ⟨add_zero _, add_zero _, ?_⟩
      calc 0 + (freed + freedIn ((connReset conn).2 ++ [.connFree]))
          = freed + conn.owned := by rw [hfreed, zero_add]
        _ = conn.owned + freed := add_comm _ _

theorem balanced_set_iff (h : (ledger base pre).Balanced)
    (hconn : (ledger base pre).conn = some conn) (index : SlotIndex) (userdata : Option UserPtr)
    (freeCb : Option FreeCb) :
    ((ledger base pre).call base (.set index userdata freeCb)).Balanced ↔
      (UserdataCall.set index userdata freeCb).handsBack base conn = (conn.slot index).owned := by
  have hheld : (ledger base pre).held = conn.owned := by rw [Ledger.held, hconn]
  rw [Ledger.Balanced, hheld] at h
  have hmove := conn.owned_setSlot index ⟨userdata, freeCb⟩
  rw [Ledger.call, hconn]
  change (ledger base pre).attached + Slot.owned ⟨userdata, freeCb⟩ =
    (conn.setSlot index ⟨userdata, freeCb⟩).owned +
      ((ledger base pre).handedBack + _) + ((ledger base pre).freed + 0) ↔ _
  rw [h]
  simp only [Multiset.ext, Multiset.count_add] at hmove ⊢
  apply forall_congr'
  intro p
  have hp := hmove p
  simp only [Multiset.count_zero]
  omega

/-- One call keeps the balance exactly if it loses nothing. -/
theorem balanced_concat_iff (h : (ledger base pre).Balanced) :
    (ledger base (pre ++ [call])).Balanced ↔ ¬Loses base pre call := by
  rw [ledger_concat]
  by_cases hset : call.IsSet
  · obtain ⟨index, userdata, freeCb, rfl⟩ := hset
    cases hconn : (ledger base pre).conn with
    | none =>
      have hno : ¬Loses base pre (.set index userdata freeCb) := by
        rintro ⟨conn, _, _, _, hconn', -⟩
        rw [hconn] at hconn'
        cases hconn'
      rw [Ledger.call, hconn]
      exact iff_of_true h hno
    | some conn =>
      rw [balanced_set_iff h hconn, handsBack_set_iff hconn]
  · have hno : ¬Loses base pre call := by
      rintro ⟨_, index, userdata, freeCb, -, e, -⟩
      exact hset ⟨index, userdata, freeCb, e⟩
    obtain ⟨hattached, hhanded, hheld⟩ := (ledger base pre).call_of_not_isSet base hset
    refine iff_of_true ?_ hno
    rw [Ledger.Balanced, hattached, hhanded, add_right_comm, hheld, add_right_comm]
    exact h

/-- Pointers with free callbacks are conserved in exactly the runs in which none is replaced, other than
the address that the calls return. -/
theorem conserved_iff (base : UserPtr) (calls : List UserdataCall) :
    Runs.Steps (fun pre call => (ledger base (pre ++ [call])).Balanced) calls ↔
      Runs.Steps (fun pre call => ¬Loses base pre call) calls := by
  apply Runs.steps_iff (I := fun pre => (ledger base pre).Balanced) rfl
  · exact fun pre call _ _ hpre => balanced_concat_iff hpre
  · exact fun pre call _ _ hpre hkeep => (balanced_concat_iff hpre).2 hkeep

/-! ## All that is asked of the calls -/

/-- As long as nothing is set, the slots are empty, and the ledger balanced. -/
structure Unused (base : UserPtr) (pre : List UserdataCall) : Prop where
  empty : (ledger base pre).conn ≠ none → ∀ index, lastSet index pre = none
  balanced : (ledger base pre).Balanced

/-- A pointer is attached to the connection. -/
def Attaches (base : UserPtr) (pre : List UserdataCall) (call : UserdataCall) : Prop :=
  (ledger base pre).conn ≠ none ∧ call.IsSet

theorem Loses.attaches (h : Loses base pre call) : Attaches base pre call := by
  rcases h with ⟨conn, index, userdata, freeCb, hconn, rfl, -⟩
  exact ⟨by simp [hconn], index, userdata, freeCb, rfl⟩

theorem Unused.concat (h : Unused base pre) (hcall : ¬Attaches base pre call) :
    Unused base (pre ++ [call]) := by
  refine ⟨?_, (balanced_concat_iff h.balanced).2 fun hlost => hcall hlost.attaches⟩
  intro hconn index
  have hopen : (ledger base pre).conn ≠ none := by
    intro hnone
    rw [ledger_concat, Ledger.call, hnone] at hconn
    exact hconn hnone
  have hlast := h.empty hopen index
  rw [lastSet_concat]
  cases call with
  | set index' userdata freeCb => exact absurd ⟨hopen, index', userdata, freeCb, rfl⟩ hcall
  | get index' => exact hlast
  | reset => rfl
  | free => rfl

/-- A call does what is asked exactly if it is no set, as long as there has been none: a set returns an
address, and not the `NULL` that was in the slot. -/
theorem Unused.keepsOwnership_iff (h : Unused base pre) :
    KeepsOwnership base pre call ↔ ¬Attaches base pre call := by
  constructor
  · rintro hkeep ⟨hopen, index, userdata, freeCb, hcall⟩
    cases hconn : (ledger base pre).conn with
    | none => exact hopen hconn
    | some conn =>
      have hreturned := hkeep.set_returns conn hconn index userdata freeCb hcall
      rw [h.empty hopen index, hcall] at hreturned
      cases hreturned
  · intro hcall
    refine ⟨?_, ?_, ?_, (balanced_concat_iff h.balanced).2 fun hlost => hcall hlost.attaches⟩
    · intro conn hconn index userdata freeCb e
      exact absurd ⟨by simp [hconn], index, userdata, freeCb, e⟩ hcall
    · rintro conn hconn index rfl
      exact get_last hconn index
    · intro conn _ conn' hconn' index hindex other hother
      exact slots_independent hconn' hindex hother

/-- All that is asked holds in exactly the runs in which nothing is attached to the connection: every set
returns the address of the array. -/
theorem userdata_owned_iff (base : UserPtr) (calls : List UserdataCall) :
    Runs.Steps (KeepsOwnership base) calls ↔
      Runs.Steps (fun pre call => ¬Attaches base pre call) calls := by
  refine Runs.steps_iff (I := Unused base) ⟨fun _ _ => rfl, rfl⟩ ?_ ?_
  · exact fun pre call _ _ hpre => hpre.keepsOwnership_iff
  · exact fun pre call _ _ hpre hcall => hpre.concat hcall

/-- The second of two pointers attached to the same slot takes the place of the first, which nobody gets
to release. -/
theorem replaced_userdata_lost :
    ¬Runs.Steps (KeepsOwnership (.user 0))
      [.set .userdata (some (.user 1)) (some (.user 1)),
        .set .userdata (some (.user 2)) (some (.user 2))] := by
  intro h
  have hlost := (h [_] _ [] rfl).conserved
  revert hlost
  decide

end Asyncd
