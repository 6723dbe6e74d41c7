import Asyncd.Http.Freeze
import Asyncd.Lib.Runs

/-!
# The accounts of a response

`response.bodyout` counts the data of a body of given length by the sizes that the calls name, in a
`size_t`.  `accounts_iff` says when it is the number of bytes of the body, and within the length: when no
call names a size without passing data, and no sum wraps around.  `reports_iff` says when the send
functions return the number of bytes that they append.
-/

open CString

namespace Asyncd

/-! ## Calls as a program can make them -/

/-- A data pointer that is not NULL points to `size` bytes. -/
def Readable (data : Option Bytes) (size : ℕ) : Prop := ∀ b ∈ data, size ≤ b.length

/-- The arguments are in the range of their types, and data can be read. -/
def ResponseCall.Valid : ResponseCall → Prop
  | .setContent _ size => -2 ^ 63 ≤ size ∧ size < 2 ^ 63
  | .response _ _ data size => -2 ^ 63 ≤ size ∧ size < 2 ^ 63 ∧ Readable data size.toNat
  | .sendData data size => size < 2 ^ 64 ∧ Readable data size
  | .sendChunk data size => size < 2 ^ 64 ∧ Readable data size
  | _ => True

/-! ## The body -/

/-- What an emission adds behind the header block. -/
def Emission.body : Emission → Bytes
  | header _ => []
  | data block => block
  | chunk block size => chunkWire block size

/-- The number of bytes behind the header block. -/
def bodyBytes (ems : List Emission) : ℕ := (ems.flatMap Emission.body).length

@[simp] theorem bodyBytes_append (ems ems' : List Emission) :
    bodyBytes (ems ++ ems') = bodyBytes ems + bodyBytes ems' := by
  simp [bodyBytes]

@[simp] theorem bodyBytes_nil : bodyBytes [] = 0 := rfl

@[simp] theorem bodyBytes_headerEmits (http : AdHttp) : bodyBytes (headerEmits http) = 0 := by
  unfold headerEmits
  split_ifs <;> rfl

theorem bodyBytes_dataEmits {http : AdHttp} (data : Option Bytes) {size : ℕ}
    (h : Fits http.response.contentlength http.response.bodyout size) :
    bodyBytes (dataEmits http data size) = (dataBlock data size).length := by
  rw [dataEmits, if_pos h, bodyBytes_append, bodyBytes_headerEmits, Nat.zero_add]
  simp [bodyBytes, Emission.body]

theorem dataBlock_length {data : Option Bytes} {size : ℕ} (hr : Readable data size) :
    (dataBlock data size).length = if data.isSome then size else 0 := by
  cases data with
  | none => rfl
  | some b =>
    have hle : size ≤ b.length := hr b rfl
    by_cases h0 : size > 0
    · simp [dataBlock, h0, hle]
    · simp [dataBlock, show size = 0 by omega]

/-! ## The counter -/

/-- The counter is the number of bytes of the body, as long as there is a length to keep to. -/
structure Balanced (http : AdHttp) (ems : List Emission) : Prop where
  unsent : http.response.frozenHeader = false → http.response.bodyout = 0 ∧ bodyBytes ems = 0
  count : 0 ≤ http.response.contentlength → http.response.bodyout = bodyBytes ems ∧
    http.response.bodyout ≤ http.response.contentlength
  range : http.response.contentlength < 2 ^ 63

/-- A call of `ad_http_send_data` that is accepted adds up without wrapping around, and passes data if
it names a size. -/
def DataCounts (http : AdHttp) (data : Option Bytes) (size : ℕ) : Prop :=
  Fits http.response.contentlength http.response.bodyout size →
    http.response.bodyout + size < 2 ^ 64 ∧ (data = none → size = 0)

/-- A call that sends data counts it rightly. -/
def ResponseCall.Counts (http : AdHttp) : ResponseCall → Prop
  | .response _ _ data size =>
    http.response.frozenHeader = false → 0 ≤ size → data = none → size = 0
  | .sendData data size => DataCounts http data size
  | _ => True

/-- After the call the counter is right, and too much data was refused. -/
structure Accounts (http : AdHttp) (out : Bytes) (ems : List Emission) (c : ResponseCall) : Prop where
  count : 0 ≤ (c.run http out).1.response.contentlength →
    (c.run http out).1.response.bodyout = bodyBytes (ems ++ c.emits http) ∧
      (c.run http out).1.response.bodyout ≤ (c.run http out).1.response.contentlength
  refuses : ∀ data size, c = .sendData data size → 0 ≤ http.response.contentlength →
    http.response.contentlength < (http.response.bodyout + size : ℕ) →
    adHttpSendData http out data size = (0, http, out)

section

variable {http : AdHttp} {ems : List Emission}

theorem sendData_accepted {data : Option Bytes} {size : ℕ} (out : Bytes)
    (h : Fits http.response.contentlength http.response.bodyout size) :
    (adHttpSendData http out data size).2.1 = http.freeze.addBodyout size := by
  rw [sendData_emits, if_pos h]

theorem sendData_refused {size : ℕ} (out : Bytes) (data : Option Bytes)
    (h : ¬Fits http.response.contentlength http.response.bodyout size) :
    adHttpSendData http out data size = (0, http, out) := by
  unfold adHttpSendData
  by_cases h1 : http.response.contentlength < 0
  · rw [if_pos h1]
  · have h2 : (http.response.bodyout + size) % 2 ^ 64 > http.response.contentlength.toNat :=
      not_le.1 fun hle => h ⟨not_lt.1 h1, hle⟩
    rw [if_neg h1, if_pos h2]

theorem Balanced.sendData (h : Balanced http ems) (out : Bytes) {data : Option Bytes} {size : ℕ}
    (hr : 0 ≤ http.response.contentlength → Readable data size) (hc : DataCounts http data size) :
    Balanced (adHttpSendData http out data size).2.1 (ems ++ dataEmits http data size) := by
  by_cases hfits : Fits http.response.contentlength http.response.bodyout size
  · obtain ⟨hlt, hnone⟩ := hc hfits
    have hsum : (http.response.bodyout + size) % 2 ^ 64 = http.response.bodyout + size :=
      Nat.mod_eq_of_lt hlt
    have hblock : (dataBlock data size).length = size := by
      rw [dataBlock_length (hr hfits.1)]
      cases data with
      | none => exact (hnone rfl).symm
      | some b => rfl
    have hle := hfits.2
    rw [hsum] at hle
    rw [sendData_accepted out hfits]
    refine ⟨nofun, fun hpos => ?_, h.range⟩
    have hcount := (h.count hfits.1).1
    have hpos := hfits.1
    simp only [AdHttp.addBodyout, AdHttp.freeze, bodyBytes_append, bodyBytes_dataEmits data hfits,
      hblock]
    omega
  · rw [sendData_refused out data hfits, dataEmits, if_neg hfits, List.append_nil]
    exact h

/-- Data that is counted wrongly leaves the counter wrong, or has been accepted beyond the length. -/
theorem dataCounts_of_accounts (h : Balanced http ems) (out : Bytes) {data : Option Bytes} {size : ℕ}
    (hsize : size < 2 ^ 64)
    (hcount : 0 ≤ http.response.contentlength →
      (adHttpSendData http out data size).2.1.response.bodyout =
        bodyBytes (ems ++ dataEmits http data size))
    (hrefuse : 0 ≤ http.response.contentlength →
      http.response.contentlength < (http.response.bodyout + size : ℕ) →
      (adHttpSendData http out data size).2.1 = http) :
    DataCounts http data size := by
  intro hfits
  have hbal := h.count hfits.1
  have hrange := h.range
  have hcount := hcount hfits.1
  have hrefuse := hrefuse hfits.1
  rw [sendData_accepted out hfits] at hcount hrefuse
  have hlt : http.response.bodyout + size < 2 ^ 64 := by
    by_contra hge
    have hsame := congrArg (fun s => s.response.bodyout) (hrefuse (by omega))
    simp only [AdHttp.addBodyout, AdHttp.freeze] at hsame
    omega
  refine ⟨hlt, ?_⟩
  rintro rfl
  rw [bodyBytes_append, bodyBytes_dataEmits none hfits] at hcount
  simp only [AdHttp.addBodyout, AdHttp.freeze, Nat.mod_eq_of_lt hlt, dataBlock, List.length_nil] at hcount
  omega

/-! ## One call -/

theorem Balanced.same (h : Balanced http ems) {http' : AdHttp} (hs : SameBody http http') :
    Balanced http' ems where
  unsent hf := by
    rw [hs.bodyout]
    exact h.unsent (hs.frozen ▸ hf)
  count hpos := by
    rw [hs.bodyout, hs.contentlength]
    exact h.count (hs.contentlength ▸ hpos)
  range := hs.contentlength ▸ h.range

theorem Balanced.setContent (h : Balanced http ems) (contenttype : Option Bytes) {size : ℤ}
    (hsize : size < 2 ^ 63) :
    Balanced (adHttpSetResponseContent http contenttype size).2 ems := by
  cases hf : http.response.frozenHeader with
  | true =>
    rw [(refuses_of_frozen hf).setContent]
    exact h
  | false =>
    rw [setResponseContent_eq hf]
    obtain ⟨h0, hb⟩ := h.unsent hf
    refine ⟨fun _ => ⟨h0, hb⟩, fun hpos => ?_, ?_⟩
    · simp only at hpos ⊢
      omega
    · simp only
      omega

theorem Balanced.prepare (h : Balanced http ems) (code : ℤ) (contenttype : Option Bytes) {size : ℤ}
    (hsize : size < 2 ^ 63) : Balanced (prepareResponse http code contenttype size) ems := by
  rw [prepareResponse_eq]
  exact (h.same (sameBody_setHead http code)).setContent contenttype hsize

theorem Balanced.freeze (h : Balanced http ems) :
    Balanced http.freeze (ems ++ headerEmits http) := by
  refine ⟨nofun, fun hpos => ?_, h.range⟩
  rw [bodyBytes_append, bodyBytes_headerEmits]
  exact h.count hpos

/-- Without a length to keep to, and with the header block written, nothing is counted. -/
theorem Balanced.chunk (h : Balanced http ems) (hneg : http.response.contentlength < 0)
    (ems' : List Emission) : Balanced http.freeze ems' :=
  ⟨nofun, fun hpos => absurd hpos (not_le.2 hneg), h.range⟩

theorem prepareResponse_contentlength (hf : http.response.frozenHeader = false) (code : ℤ)
    (contenttype : Option Bytes) (size : ℤ) :
    (prepareResponse http code contenttype size).response.contentlength = max size (-1) := by
  rw [prepareResponse_eq, setResponseContent_eq ((sameBody_setHead http code).frozen.trans hf)]

/-- `ad_http_response` sends all of a body of its own length, so that only missing data is counted
wrongly. -/
theorem response_counts_iff (h : Balanced http ems) (hf : http.response.frozenHeader = false)
    (code : ℤ) (contenttype data : Option Bytes) {size : ℤ}
    (hsize : -2 ^ 63 ≤ size ∧ size < 2 ^ 63) :
    DataCounts (prepareResponse http code contenttype size) data (size % 2 ^ 64).toNat ↔
      (0 ≤ size → data = none → size = 0) := by
  have hprep := h.prepare code contenttype hsize.2
  have hfrozen := (prepareResponse_frozenHeader http code contenttype size).trans hf
  unfold DataCounts
  rw [prepareResponse_contentlength hf, (hprep.unsent hfrozen).1]
  constructor
  · intro hc hpos hnone
    have := (hc ⟨by omega, by omega⟩).2 hnone
    omega
  · intro hc hfits
    have hpos : 0 ≤ size := by
      have := hfits.1
      omega
    refine ⟨by omega, fun hnone => ?_⟩
    have := hc hpos hnone
    omega

namespace ResponseCall

theorem balanced {c : ResponseCall} (h : Balanced http ems) (out : Bytes) (hv : c.Valid)
    (hc : c.Counts http) : Balanced (c.run http out).1 (ems ++ c.emits http) := by
  cases c with
  | setHeader name value =>
    simp only [emits, List.append_nil]
    exact h.same (sameBody_setHeader http name value)
  | setCode code reason =>
    simp only [emits, List.append_nil]
    exact h.same (sameBody_setCode http code reason)
  | setContent contenttype size =>
    simp only [emits, List.append_nil]
    exact h.setContent contenttype hv.2
  | response code contenttype data size =>
    cases hf : http.response.frozenHeader with
    | true =>
      rw [run, (refuses_of_frozen hf).response, emits, if_pos hf, List.append_nil]
      exact h
    | false =>
      have hsend := (response_counts_iff h hf code contenttype data ⟨hv.1, hv.2.1⟩).2 (hc hf)
      have hlen := prepareResponse_contentlength hf code contenttype size
      have hr : 0 ≤ (prepareResponse http code contenttype size).response.contentlength →
          Readable data (size % 2 ^ 64).toNat := by
        intro hpos
        rw [hlen] at hpos
        have hlt : size < 2 ^ 63 := hv.2.1
        rw [Int.emod_eq_of_lt (by omega) (by omega)]
        exact hv.2.2
      have hprep := (h.prepare code contenttype hv.2.1).sendData out hr hsend
      simpa only [run, emits, adHttpResponse, hf, Bool.false_eq_true, if_false] using hprep
  | sendHeader =>
    rw [run, sendHeader_emits, emits]
    exact h.freeze
  | sendData data size => exact h.sendData out (fun _ => hv.2) hc
  | sendChunk data size =>
    rw [run, sendChunk_emits, emits, chunkEmits]
    split_ifs with hneg
    · exact h.chunk hneg _
    · rw [List.append_nil]
      exact h

theorem accounts_iff_counts {c : ResponseCall} (h : Balanced http ems) (out : Bytes) (hv : c.Valid) :
    Accounts http out ems c ↔ c.Counts http := by
  constructor
  · intro ha
    cases c with
    | response code contenttype data size =>
      intro hf
      rw [← response_counts_iff h hf code contenttype data ⟨hv.1, hv.2.1⟩]
      have hprep := h.prepare code contenttype hv.2.1
      have hfrozen := (prepareResponse_frozenHeader http code contenttype size).trans hf
      have hcount := ha.count
      simp only [run, emits, adHttpResponse, hf, Bool.false_eq_true, if_false] at hcount
      apply dataCounts_of_accounts hprep out (by omega)
      · intro hpos
        refine (hcount ?_).1
        rw [sendData_emits]
        split_ifs <;> exact hpos
      · -- the size of the data is the length, and nothing has been sent
        intro hpos hgt
        rw [prepareResponse_contentlength hf] at hpos hgt
        rw [(hprep.unsent hfrozen).1] at hgt
        omega
    | sendData data size =>
      apply dataCounts_of_accounts h out hv.1
      · intro hpos
        refine (ha.count ?_).1
        rw [run, sendData_emits]
        split_ifs <;> exact hpos
      · intro hpos hgt
        rw [ha.refuses data size rfl hpos hgt]
    | _ => trivial
  · intro hc
    refine ⟨(balanced h out hv hc).count, ?_⟩
    rintro data size rfl hpos hgt
    apply sendData_refused
    intro hfits
    have hlt := (hc hfits).1
    have hle := hfits.2
    rw [Nat.mod_eq_of_lt hlt] at hle
    omega

end ResponseCall

end

/-! ## Every sequence of calls -/

theorem balanced_fresh (request : HttpRequest) : Balanced ⟨request, freshHttp.response⟩ [] where
  unsent _ := ⟨rfl, rfl⟩
  count hpos := absurd hpos (by simp [freshHttp])
  range := by simp [freshHttp]

/-- Each call of a sequence accounts for what it does. -/
def AccountsAlong (http : AdHttp) (out : Bytes) (cs : List ResponseCall) : Prop :=
  Runs.Steps (fun pre c => Accounts (runResponse http out pre).1 (runResponse http out pre).2
    (responseEmissions http out pre) c) cs

/-- Each call of a sequence counts rightly. -/
def CountsAlong (http : AdHttp) (out : Bytes) (cs : List ResponseCall) : Prop :=
  Runs.Steps (fun pre (c : ResponseCall) => c.Counts (runResponse http out pre).1) cs

/-- In a sequence of calls from a fresh response, each call leaves the counter at the number of bytes
of the body, within the length, and refuses data beyond it, exactly if each call counts rightly. -/
theorem accounts_iff (request : HttpRequest) (out : Bytes) {cs : List ResponseCall}
    (hv : ∀ c ∈ cs, c.Valid) :
    AccountsAlong ⟨request, freshHttp.response⟩ out cs ↔
      CountsAlong ⟨request, freshHttp.response⟩ out cs := by
  unfold AccountsAlong CountsAlong
  generalize hhttp : (⟨request, freshHttp.response⟩ : AdHttp) = http
  refine Runs.steps_iff
    (I := fun pre => Balanced (runResponse http out pre).1 (responseEmissions http out pre))
    (hhttp ▸ balanced_fresh request) ?_ ?_
  · rintro pre c post rfl h
    exact c.accounts_iff_counts h _ (hv c (by simp))
  · rintro pre c post rfl h hc
    rw [runResponse_concat, responseEmissions_concat]
    exact c.balanced h _ (hv c (by simp)) hc

/-- Data of the length that was set. -/
theorem accounts_data :
    AccountsAlong freshHttp [] [.setContent none 1, .sendData (some (bytes "a")) 1] ↔
      CountsAlong freshHttp [] [.setContent none 1, .sendData (some (bytes "a")) 1] := by
  apply accounts_iff freshHttp.request []
  intro c hc
  rcases List.mem_pair.1 hc with rfl | rfl
  · exact ⟨by decide, by decide⟩
  · exact ⟨by decide, fun b hb => by cases hb; decide⟩

/-- A NULL block with a size is counted, and adds nothing. -/
theorem accounts_null : ¬AccountsAlong freshHttp [] [.setContent none 3, .sendData none 3] := by
  intro h
  have hcount := (h [.setContent none 3] (.sendData none 3) [] rfl).count
  revert hcount
  decide +kernel

/-! ## Return values -/

/-- What a send function returns; the other functions return no number of bytes. -/
def ResponseCall.sent (http : AdHttp) (out : Bytes) : ResponseCall → Option ℕ
  | .response code contenttype data size =>
    some (adHttpResponse http out code contenttype data size).1
  | .sendHeader => some (adHttpSendHeader http out).1
  | .sendData data size => some (adHttpSendData http out data size).1
  | .sendChunk data size => some (adHttpSendChunk http out data size).1
  | _ => none

/-- The number of bytes that a call appends. -/
def ResponseCall.appended (http : AdHttp) (out : Bytes) (c : ResponseCall) : ℕ :=
  (c.run http out).2.length - out.length

/-- The call is one of `ad_http_send_chunk`. -/
def ResponseCall.IsSendChunk (c : ResponseCall) : Prop := ∃ data size, c = .sendChunk data size

/-- A send function returns the number of bytes it has appended, and a chunk that is sent increases the
counter. -/
structure Reports (http : AdHttp) (out : Bytes) (c : ResponseCall) : Prop where
  count : ∀ n ∈ c.sent http out, n = c.appended http out
  chunk : c.IsSendChunk → 0 < c.appended http out →
    http.response.bodyout < (c.run http out).1.response.bodyout

/-- The calls that are reported rightly: a header block counts what was in the out buffer before it, and
a chunk that is sent is taken for one that has failed. -/
def ResponseCall.Reported (http : AdHttp) (out : Bytes) : ResponseCall → Prop
  | .sendHeader => http.response.frozenHeader = true ∨ out = []
  | .sendChunk _ _ => 0 ≤ http.response.contentlength
  | _ => True

section

variable (http : AdHttp) (out : Bytes)

theorem appended_eq (c : ResponseCall) :
    c.appended http out = ((c.emits http).flatMap Emission.render).length := by
  rw [ResponseCall.appended, c.run_out, List.length_append, Nat.add_sub_cancel_left]

/-- `ad_http_send_data` returns the difference of two lengths of the out buffer. -/
theorem sendData_sent (data : Option Bytes) (size : ℕ) :
    (adHttpSendData http out data size).1 =
      (adHttpSendData http out data size).2.2.length - out.length := by
  by_cases hfits : Fits http.response.contentlength http.response.bodyout size
  · rw [adHttpSendData, if_neg (not_lt.2 hfits.1), if_neg (not_lt.2 hfits.2)]
  · rw [sendData_refused out data hfits, Nat.sub_self]

theorem sendChunk_sent (data : Option Bytes) (size : ℕ) :
    (adHttpSendChunk http out data size).1 = 0 := by
  unfold adHttpSendChunk
  by_cases h : http.response.contentlength ≥ 0
  · rw [if_pos h]
  · simp [h, chunkStatus_ne_zero]

theorem sendHeader_reports_iff :
    (adHttpSendHeader http out).1 = ResponseCall.sendHeader.appended http out ↔
      http.response.frozenHeader = true ∨ out = [] := by
  cases hf : http.response.frozenHeader with
  | true => simp [adHttpSendHeader, appended_eq, ResponseCall.emits, headerEmits, hf]
  | false =>
    have hblock : headerBlock http.freeze = headerBlock http := rfl
    rw [appended_eq, ResponseCall.emits, headerEmits, hf, adHttpSendHeader, hf]
    simp only [Bool.false_eq_true, if_false, List.flatMap_cons, List.flatMap_nil, List.append_nil,
      Emission.render, hblock, List.length_append, false_or, ← List.length_eq_zero_iff]
    omega

theorem sendChunk_appended_pos {data : Option Bytes} {size : ℕ}
    (hneg : http.response.contentlength < 0) :
    0 < (ResponseCall.sendChunk data size).appended http out := by
  have hne : chunkWire data size ≠ [] := by
    unfold chunkWire
    split_ifs <;> simp [httpCrlf, bytes]
  rw [appended_eq, ResponseCall.emits, chunkEmits, if_pos hneg, List.flatMap_append,
    List.length_append]
  have := List.length_pos_iff.2 hne
  simp only [List.flatMap_cons, List.flatMap_nil, List.append_nil, Emission.render]
  omega

theorem sendChunk_reports_iff (data : Option Bytes) (size : ℕ) :
    Reports http out (.sendChunk data size) ↔ 0 ≤ http.response.contentlength := by
  constructor
  · intro h
    by_contra hneg
    have hpos : 0 < (ResponseCall.sendChunk data size).appended http out :=
      sendChunk_appended_pos http out (not_le.1 hneg)
    have hcount := h.count _ rfl
    rw [sendChunk_sent] at hcount
    omega
  · intro hlen
    have h0 : (ResponseCall.sendChunk data size).appended http out = 0 := by
      rw [appended_eq, ResponseCall.emits, chunkEmits, if_neg (not_lt.2 hlen)]
      rfl
    refine ⟨fun n hn => ?_, fun _ hpos => absurd hpos (by omega)⟩
    cases hn
    rw [sendChunk_sent, h0]

theorem reports_iff_reported (c : ResponseCall) : Reports http out c ↔ c.Reported http out := by
  by_cases hc : c.IsSendChunk
  · rcases hc with ⟨data, size, rfl⟩
    exact sendChunk_reports_iff http out data size
  have hcount : Reports http out c ↔ ∀ n ∈ c.sent http out, n = c.appended http out :=
    ⟨fun h => h.count, fun h => ⟨h, fun hchunk => absurd hchunk hc⟩⟩
  rw [hcount]
  cases c with
  | sendHeader =>
    rw [ResponseCall.Reported, ← sendHeader_reports_iff]
    simp [ResponseCall.sent]
  | sendChunk data size => exact absurd ⟨data, size, rfl⟩ hc
  | sendData data size =>
    refine iff_of_true (fun n hn => ?_) trivial
    cases hn
    exact sendData_sent http out data size
  | response code contenttype data size =>
    refine iff_of_true (fun n hn => ?_) trivial
    cases hn
    unfold ResponseCall.appended ResponseCall.run adHttpResponse
    split_ifs
    · exact (Nat.sub_self _).symm
    · exact sendData_sent _ out data _
  | _ => exact iff_of_true (fun n hn => absurd hn (by simp [ResponseCall.sent])) trivial

end

/-- In every sequence of calls, in whatever state and with whatever out buffer it starts: each call
reports what it appended exactly if no header block is sent by itself behind other bytes, and no
chunk. -/
theorem reports_iff (http : AdHttp) (out : Bytes) (cs : List ResponseCall) :
    Runs.Steps (fun pre c => Reports (runResponse http out pre).1 (runResponse http out pre).2 c) cs ↔
      Runs.Steps (fun pre (c : ResponseCall) =>
        c.Reported (runResponse http out pre).1 (runResponse http out pre).2) cs :=
  forall₄_congr fun _ c _ _ => reports_iff_reported _ _ c

/-- A chunk that is sent is reported as 0 bytes. -/
theorem reports_chunk :
    ¬Runs.Steps (fun pre c => Reports (runResponse freshHttp [] pre).1 (runResponse freshHttp [] pre).2 c)
      [.sendChunk (some (bytes "a")) 1] := by
  intro h
  have hcount := (h [] _ [] rfl).count 0 rfl
  revert hcount
  decide +kernel

end Asyncd
