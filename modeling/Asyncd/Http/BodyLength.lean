import Asyncd.Http.ChunkedBody

/-!
# Where the body ends

The headers decide how the body is read: in chunks, as so many bytes, or not at all.  `LengthSound`
says how they should decide, `LengthFields` what the values of the two headers must be for
`parse_headers` and `parse_body` to decide like that, and `lengthSound_iff` that these values it takes.
-/

open CString ByteLines

namespace Asyncd

/-! ## The values of a header -/

/-- The values of the header lines of a name, in their order. -/
def headerValues (name : Bytes) (ls : List Line) : List Bytes :=
  ls.filterMap fun l =>
    if eqIgnoreCase (headerNameValue l.text).1 name then some (headerNameValue l.text).2 else none

theorem getstr_addHeaders {name : Bytes} {ls : List Line} (hnul : ∀ l ∈ ls, 0 ∉ l.text)
    {http : AdHttp} (hnone : http.request.headers.getstr name = none) :
    (addHeaders http ls).request.headers.getstr name = (headerValues name ls).getLast? := by
  induction ls using List.reverseRecOn with
  | nil => exact hnone
  | append_singleton ls l ih =>
    have hline : cstr l.text = l.text := cstr_of_not_mem (hnul l (by simp))
    have hput : (addHeaders http (ls ++ [l])).request.headers =
        (addHeaders http ls).request.headers.putstr (headerNameValue l.text).1
          (headerNameValue l.text).2 := by
      rw [addHeaders_append, addHeaders, List.foldl_cons, List.foldl_nil, hline]
      rfl
    have hvalues : headerValues name (ls ++ [l]) = headerValues name ls ++ headerValues name [l] :=
      List.filterMap_append
    rw [hput, hvalues]
    cases hn : eqIgnoreCase (headerNameValue l.text).1 name with
    | true =>
      rw [Qlisttbl.getstr_putstr_of_eq _ _ hn]
      simp [headerValues, hn]
    | false =>
      rw [Qlisttbl.getstr_putstr_of_ne _ _ hn, ih fun m hm => hnul m (List.mem_append_left _ hm)]
      simp [headerValues, hn]

namespace RequestHead

variable [UrlDecoder] {h : RequestHead}

theorem getstr_state (hnul : ∀ l ∈ h.headers, 0 ∉ l.text) {name : Bytes}
    (hname : eqIgnoreCase (bytes "Host") name = false) :
    h.state.request.headers.getstr name = (headerValues name h.headers).getLast? :=
  getstr_addHeaders hnul (h.getstr_lineState hname)

theorem contentlength_state (hnul : ∀ l ∈ h.headers, 0 ∉ l.text) :
    h.state.request.contentlength =
      ((headerValues contentLength h.headers).getLast?.map atol).getD (-1) := by
  rw [← getstr_state hnul (by decide)]
  rfl

theorem chunked_iff (hnul : ∀ l ∈ h.headers, 0 ∉ l.text) :
    h.Chunked ↔ (headerValues transferEncoding h.headers).getLast? = some chunked ∧
      ∀ v ∈ (headerValues contentLength h.headers).getLast?, atol v < 0 := by
  unfold Chunked
  rw [getstr_state hnul (by decide), contentlength_state hnul, and_comm]
  apply and_congr_right
  intro _
  cases (headerValues contentLength h.headers).getLast? with
  | none => simp
  | some v => simp

/-! ## Ways to read a body -/

variable (h)

/-- The body is read by the chunk loop, called again for every segment until it ends. -/
def ReadsChunks : Prop :=
  ∀ segs : List Bytes, Push.feedAll httpStep (freshHttp, []) (h.wire :: segs) =
    chunkPhase h.state (segs.foldl resume (.more, [], []))

/-- Exactly `n` bytes are taken as the body, however they arrive. -/
def TakesExactly (n : ℕ) : Prop :=
  ∀ (segs : List Bytes) (b : Bytes), segs.flatten = h.wire ++ b →
    let s := Push.feedAll httpStep (freshHttp, []) segs
    (s.1.request.status = .done ↔ n ≤ b.length) ∧ s.1.request.inbuf = b.take n ∧ s.2 = b.drop n

/-- After some number of bytes at the latest, the request has ended in `AD_HTTP_ERROR`. -/
def EndsInError : Prop :=
  ∃ n, ∀ (segs : List Bytes) (b : Bytes), segs.flatten = h.wire ++ b → n ≤ b.length →
    (Push.feedAll httpStep (freshHttp, []) segs).1.request.status = .error

variable {h}

theorem feedAll_wire (ha : h.Accepted) (hc : ¬h.Chunked) {segs : List Bytes} {b : Bytes}
    (hsegs : segs.flatten = h.wire ++ b) :
    Push.feedAll httpStep (freshHttp, []) segs = bodyPhase h.state b := by
  have hcuts : Push.CutsAlong httpStep freshHttp (h.wire ++ b) :=
    (cutsAlong_httpStep_wire ha b).2 fun h => absurd h hc
  rw [hcuts.feedAll_eq httpStep_nil segs (hsegs ▸ List.prefix_refl _), hsegs, httpStep_wire ha]

/-- Without chunks, a number of bytes is taken: the content length, or none. -/
theorem takesExactly_of_not_chunked (ha : h.Accepted) (hc : ¬h.Chunked) :
    h.TakesExactly h.state.request.contentlength.toNat := by
  intro segs b hsegs s
  have hs : s = bodyPhase h.state b := feedAll_wire ha hc hsegs
  obtain ⟨hinbuf, hbodyin⟩ := state_body ha
  rcases lt_or_ge h.state.request.contentlength 0 with hneg | hpos
  · have hte : h.state.request.headers.getstr transferEncoding ≠ some chunked :=
      fun hte => hc ⟨hneg, hte⟩
    rw [hs, bodyPhase_none h.state_status (Or.inr ⟨hneg, hte⟩), Int.toNat_of_nonpos hneg.le]
    exact ⟨iff_of_true rfl (Nat.zero_le _), hinbuf, rfl⟩
  · rw [hs, bodyPhase_of_length h.state_status (Int.toNat_of_nonneg hpos).symm hbodyin]
    refine ⟨?_, by simp [AdHttp.addBody, hinbuf], rfl⟩
    rw [AdHttp.setStatus_status]
    split_ifs with hle
    · exact iff_of_true rfl hle
    · exact iff_of_false (by decide) hle

theorem TakesExactly.unique {n m : ℕ} (hn : h.TakesExactly n) (hm : h.TakesExactly m) : n = m := by
  have hle : ∀ {n m : ℕ}, h.TakesExactly n → h.TakesExactly m → m ≤ n := by
    intro n m hn hm
    have hdone := (hn [h.wire ++ List.replicate n 0] (List.replicate n 0) (by simp)).1
    have hdone' := (hm [h.wire ++ List.replicate n 0] (List.replicate n 0) (by simp)).1
    rw [List.length_replicate] at hdone hdone'
    exact hdone'.1 (hdone.2 le_rfl)
  exact le_antisymm (hle hm hn) (hle hn hm)

theorem httpStep_chunked_wire (ha : h.Accepted) (hc : h.Chunked) (b : Bytes) :
    httpStep freshHttp (h.wire ++ b) = chunkPhase h.state (readChunks [] b) := by
  rw [← (state_body ha).1, httpStep_wire ha]
  exact bodyPhase_chunked _ rfl hc.1 hc.2 b

theorem not_endsInError (ha : h.Accepted) : ¬h.EndsInError := by
  rintro ⟨n, hn⟩
  by_cases hc : h.Chunked
  · have herr := hn [h.wire ++ (lastChunk ++ List.replicate n 0)] (lastChunk ++ List.replicate n 0)
      (by simp) (by simp)
    rw [Push.feedAll_cons, Push.feedAll_nil, Push.feed, List.nil_append, httpStep_chunked_wire ha hc,
      readChunks_lastChunk] at herr
    cases herr
  · obtain ⟨k, hk⟩ : ∃ k, h.TakesExactly k := ⟨_, takesExactly_of_not_chunked ha hc⟩
    have hlen : k ≤ (List.replicate (max n k) (0 : UInt8)).length := by simp
    have hsegs : [h.wire ++ List.replicate (max n k) 0].flatten =
      h.wire ++ List.replicate (max n k) 0 := by simp
    have hdone := (hk _ _ hsegs).1.2 hlen
    have herr := hn _ _ hsegs (by simp)
    rw [hdone] at herr
    cases herr

theorem feed_httpStep {s : AdHttp × Bytes} (hd : HeadDone s.1) (x : Bytes) :
    Push.feed httpStep s x = Push.feed bodyPhase s x := by
  rw [Push.feed, Push.feed, httpStep_eq, Push.seq, headPhase_stops.idle _ _ hd]

theorem Chunked.readsChunks (ha : h.Accepted) (hc : h.Chunked) : h.ReadsChunks := by
  intro segs
  have hstart : Push.feed httpStep (freshHttp, []) h.wire = chunkPhase h.state (.more, [], []) := by
    have hwait := httpStep_chunked_wire ha hc []
    rwa [readChunks_of_more (takeChunk_of_none rfl), List.append_nil] at hwait
  rw [Push.feedAll_cons, hstart]
  induction segs using List.reverseRecOn with
  | nil => rfl
  | append_singleton segs seg ih =>
    have hdone : ∀ r, HeadDone (chunkPhase h.state r).1 := by
      rintro ⟨e, r⟩
      cases e <;> exact ⟨by simp [chunkPhase, BodyEnd.status], by simp [chunkPhase, BodyEnd.status]⟩
    rw [Push.feedAll_concat, ih, List.foldl_concat, feed_httpStep (hdone _), feed_chunkPhase hc.1 hc.2]

/-- The chunk loop takes no fixed number of bytes: the end of a body has bytes and no data. -/
theorem ReadsChunks.not_takesExactly (hr : h.ReadsChunks) (n : ℕ) : ¬h.TakesExactly n := by
  intro htakes
  obtain ⟨-, hdata, -⟩ := htakes [h.wire, lastChunk] lastChunk (by simp)
  obtain ⟨hdone, -⟩ := htakes [h.wire] [] (by simp)
  have hend := readChunks_lastChunk [] []
  rw [List.append_nil] at hend
  rw [hr [lastChunk], List.foldl_cons, List.foldl_nil, resume, if_pos rfl, List.nil_append, hend]
    at hdata
  rw [hr []] at hdone
  have hpos : n ≠ 0 := by
    rintro rfl
    have hst := hdone.2 le_rfl
    cases hst
  have hnil : ([] : Bytes) = lastChunk.take n := hdata
  rcases List.take_eq_nil_iff.1 hnil.symm with h0 | h0
  · exact hpos h0
  · exact absurd h0 (by decide)

theorem ReadsChunks.chunked (ha : h.Accepted) (hr : h.ReadsChunks) : h.Chunked := by
  by_contra hc
  exact hr.not_takesExactly _ (takesExactly_of_not_chunked ha hc)

theorem takesExactly_iff (ha : h.Accepted) (n : ℕ) :
    h.TakesExactly n ↔ ¬h.Chunked ∧ h.state.request.contentlength.toNat = n := by
  constructor
  · intro hn
    have hc : ¬h.Chunked := fun hc => (hc.readsChunks ha).not_takesExactly n hn
    exact ⟨hc, (takesExactly_of_not_chunked ha hc).unique hn⟩
  · rintro ⟨hc, rfl⟩
    exact takesExactly_of_not_chunked ha hc

/-! ## Which way the headers choose -/

variable (h)

/-- The headers determine the body: a chunked body is read in chunks whatever length is announced;
otherwise an announced length is a decimal number below `2 ^ 63` and so many bytes are taken, or the
request ends in error; and without a length, no body is read exactly if no coding is announced. -/
structure LengthSound : Prop where
  coding : chunked ∈ headerValues transferEncoding h.headers → h.ReadsChunks
  length : chunked ∉ headerValues transferEncoding h.headers →
    headerValues contentLength h.headers ≠ [] →
      (∃ n < 2 ^ 63, (∀ v ∈ headerValues contentLength h.headers, IsNumeral 10 v n) ∧
        h.TakesExactly n) ∨ h.EndsInError
  empty : headerValues contentLength h.headers = [] →
    (h.TakesExactly 0 ↔ headerValues transferEncoding h.headers = [])

/-- What the values of `Transfer-Encoding` and `Content-Length` must be. -/
structure LengthFields : Prop where
  coding : chunked ∈ headerValues transferEncoding h.headers →
    (headerValues transferEncoding h.headers).getLast? = some chunked ∧
      ∀ v ∈ (headerValues contentLength h.headers).getLast?, atol v < 0
  length : chunked ∉ headerValues transferEncoding h.headers →
    headerValues contentLength h.headers ≠ [] →
      ∃ n < 2 ^ 63, ∀ v ∈ headerValues contentLength h.headers, IsNumeral 10 v n
  empty : chunked ∉ headerValues transferEncoding h.headers →
    headerValues contentLength h.headers = [] → headerValues transferEncoding h.headers = []

variable {h}

theorem not_chunked_of_not_mem (hnul : ∀ l ∈ h.headers, 0 ∉ l.text)
    (hte : Asyncd.chunked ∉ headerValues transferEncoding h.headers) : ¬h.Chunked := by
  rw [chunked_iff hnul]
  rintro ⟨hlast, -⟩
  exact hte (List.mem_of_getLast? hlast)

/-- The body ends where the headers say exactly if: where a value of `Transfer-Encoding` is `chunked`, the
last one is, and no last value of `Content-Length` reads as a number from 0 on; elsewhere, all values of
`Content-Length` are numerals of one number below `2 ^ 63`; and without them there is no
`Transfer-Encoding`. -/
theorem lengthSound_iff (ha : h.Accepted) (hnul : ∀ l ∈ h.headers, 0 ∉ l.text) :
    h.LengthSound ↔ h.LengthFields := by
  constructor
  · intro hs
    refine ⟨fun hte => ?_, fun hte hcl => ?_, fun hte hcl => ?_⟩
    · exact (chunked_iff hnul).1 ((hs.coding hte).chunked ha)
    · obtain ⟨n, hn, hnum, -⟩ := (hs.length hte hcl).resolve_right (not_endsInError ha)
      exact ⟨n, hn, hnum⟩
    · apply (hs.empty hcl).1
      rw [takesExactly_iff ha, contentlength_state hnul, hcl]
      exact ⟨not_chunked_of_not_mem hnul hte, rfl⟩
  · intro hf
    refine ⟨fun hte => ?_, fun hte hcl => ?_, fun hcl => ?_⟩
    · exact ((chunked_iff hnul).2 (hf.coding hte)).readsChunks ha
    · obtain ⟨n, hn, hnum⟩ := hf.length hte hcl
      refine Or.inl ⟨n, hn, hnum, ?_⟩
      rw [takesExactly_iff ha, contentlength_state hnul, List.getLast?_eq_getLast_of_ne_nil hcl]
      refine ⟨not_chunked_of_not_mem hnul hte, ?_⟩
      simp [atol_numeral (hnum _ (List.getLast_mem hcl)) hn]
    · rw [takesExactly_iff ha, contentlength_state hnul, hcl]
      by_cases hte : Asyncd.chunked ∈ headerValues transferEncoding h.headers
      · refine iff_of_false (fun hnc => hnc.1 ((chunked_iff hnul).2 (hf.coding hte))) ?_
        exact List.ne_nil_of_mem hte
      · exact iff_of_true ⟨not_chunked_of_not_mem hnul hte, rfl⟩ (hf.empty hte hcl)

end RequestHead

/-- A request whose only header is `Content-Length`. -/
def lengthHead (value : Bytes) (h : 0 ∉ contentLength ++ value ∧ lf ∉ contentLength ++ value) :
    RequestHead :=
  FieldHead.head
    { line := postLine
      fields := [⟨contentLength, value, crlf, by decide, h.1, h.2, isEol_crlf _⟩]
      blank := crlf
      blank_isEol := isEol_blank }

theorem lengthHead_accepted (value : Bytes)
    (h : 0 ∉ contentLength ++ value ∧ lf ∉ contentLength ++ value) :
    @RequestHead.Accepted percentDecoder (lengthHead value h) := by
  have hline : (@parseRequestline percentDecoder freshHttp
      (cstr (bytes "POST / HTTP/1.1"))).1 = .requestlineDone := by decide +kernel
  exact hline

/-- Five bytes are announced and taken. -/
theorem lengthSound_five :
    @RequestHead.LengthSound percentDecoder (lengthHead (bytes "5") (by decide)) := by
  apply (@RequestHead.lengthSound_iff percentDecoder _ (lengthHead_accepted (bytes "5") (by decide))
    (by decide)).2
  refine ⟨fun hte => absurd hte (by decide), fun _ _ => ⟨5, by decide, ?_⟩, fun _ _ => by decide⟩
  intro v hv
  obtain rfl : v = bytes "5" := by
    have hvalues : headerValues contentLength (lengthHead (bytes "5") (by decide)).headers =
        [bytes "5"] := by decide
    rw [hvalues] at hv
    exact List.mem_singleton.1 hv
  exact ⟨by decide, by decide +kernel, by decide +kernel⟩

/-- A value that is no number makes an empty body. -/
theorem length_not_sound :
    let h := lengthHead (bytes "abc") (by decide)
    @RequestHead.Accepted percentDecoder h ∧ (∀ l ∈ h.headers, 0 ∉ l.text) ∧
      ¬@RequestHead.LengthSound percentDecoder h := by
  have hacc := lengthHead_accepted (bytes "abc") (by decide)
  refine ⟨hacc, by decide, fun hs => ?_⟩
  have hlength := @RequestHead.LengthSound.length percentDecoder _ hs (by decide) (by decide)
  obtain ⟨n, -, hnum, -⟩ := hlength.resolve_right (@RequestHead.not_endsInError percentDecoder _ hacc)
  have hdigit := (hnum (bytes "abc") (by decide)).digits 97 (by decide)
  exact absurd hdigit (by decide)

end Asyncd
