import Asyncd.Http.Freeze

/-!
# Header blocks are read as they are written

The loop of `ad_http_send_header` writes a header table line by line, and the loop of `parse_headers`
reads such lines into a table.  `headerBlock_read` says that the second undoes the first, for the tables
that `ad_http_set_response_header` makes of names and values that survive on a line.
-/

open CString ByteLines

namespace Asyncd

/-! ## Names and values that survive on a line -/

/-- Neither CR, LF nor NUL. -/
structure OnLine (s : Bytes) : Prop where
  cr : cr ∉ s
  lf : lf ∉ s
  nul : 0 ∉ s

/-- A name and a value that a header line holds. -/
structure HeaderText (name value : Bytes) : Prop where
  name_ne_nil : name ≠ []
  colon_not_mem : colon ∉ name
  name_onLine : OnLine name
  name_trimmed : Trimmed name
  value_onLine : OnLine value
  value_trimmed : Trimmed value

/-- A header line as a field. -/
def HeaderText.field {name value : Bytes} (h : HeaderText name value) : Field where
  name := name
  value := 32 :: value
  eol := crlf
  colon_not_mem := h.colon_not_mem
  nul_not_mem := by simp [h.name_onLine.nul, h.value_onLine.nul]
  lf_not_mem := by
    have : ByteLines.lf ≠ 32 := by decide
    simp [h.name_onLine.lf, h.value_onLine.lf, this]
  isEol := Or.inl rfl

/-- The lines that `ad_http_send_header` prints are fields with the names and values of the table. -/
theorem exists_fields {entries : List (Bytes × Bytes)} (h : ∀ e ∈ entries, HeaderText e.1 e.2) :
    ∃ fs : List Field, wireLines (fieldLines fs) = entries.flatMap (fun e => headerLine e.1 e.2) ∧
      fs.map (fun f => (qstrtrim f.name, qstrtrim f.value)) = entries := by
  induction entries with
  | nil => exact ⟨[], rfl, rfl⟩
  | cons e entries ih =>
    rw [List.forall_mem_cons] at h
    have htext := h.1
    obtain ⟨fs, hwire, hnames⟩ := ih h.2
    refine ⟨htext.field :: fs, ?_, ?_⟩
    · have hline : htext.field.line.wire = headerLine e.1 e.2 := by
        have hcolon : bytes ": " = [colon, 32] := rfl
        have hcrlf : httpCrlf = crlf := rfl
        simp [Line.wire, Field.line, Field.text, HeaderText.field, headerLine, hcolon, hcrlf]
      rw [List.flatMap_cons, ← hwire, ← hline]
      rfl
    · rw [List.map_cons, hnames]
      apply congrArg (· :: entries)
      exact Prod.ext (qstrtrim_of_trimmed htext.name_trimmed) (qstrtrim_space htext.value_trimmed)

/-! ## The reading loop -/

theorem Qlisttbl.entries_putstr_of_none {t : Qlisttbl} {name : Bytes}
    (h : ∀ e ∈ t.entries, eqIgnoreCase e.1 name = false) (value : Bytes) :
    (t.putstr name value).entries = t.entries ++ [(name, value)] := by
  apply congrArg (· ++ [(name, value)])
  apply List.filter_eq_self.2
  intro e he
  simp [h e he]

/-- Fields whose names are new to the table and to each other are appended in their order. -/
theorem entries_addHeaders {fs : List Field} {http : AdHttp}
    (h : (http.request.headers.entries ++
      fs.map fun f => (qstrtrim f.name, qstrtrim f.value)).Pairwise
        fun a b => eqIgnoreCase a.1 b.1 = false) :
    (addHeaders http (fieldLines fs)).request.headers.entries =
      http.request.headers.entries ++ fs.map fun f => (qstrtrim f.name, qstrtrim f.value) := by
  induction fs generalizing http with
  | nil => simp [addHeaders, fieldLines]
  | cons f fs ih =>
    have hnew : ∀ e ∈ http.request.headers.entries, eqIgnoreCase e.1 (qstrtrim f.name) = false :=
      fun e he => (List.pairwise_append.1 h).2.2 e he _ (List.mem_cons_self ..)
    have hput : (addHeader http (cstr f.line.text)).request.headers.entries =
        http.request.headers.entries ++ [(qstrtrim f.name, qstrtrim f.value)] := by
      rw [addHeader_field, Qlisttbl.entries_putstr_of_none hnew]
    have hrest := @ih (addHeader http (cstr f.line.text)) (by rw [hput]; simpa using h)
    rw [show addHeaders http (fieldLines (f :: fs)) =
      addHeaders (addHeader http (cstr f.line.text)) (fieldLines fs) from rfl, hrest, hput]
    simp

/-! ## The writing side -/

/-- Calls of `ad_http_set_response_header`; no value removes the name. -/
def setResponseHeaders (http : AdHttp) (sets : List (Bytes × Option Bytes)) : AdHttp :=
  sets.foldl (fun http s => (adHttpSetResponseHeader http s.1 s.2).2) http

theorem headerText_setResponseHeader {http : AdHttp}
    (h : ∀ e ∈ http.response.headers.entries, HeaderText e.1 e.2) {name : Bytes}
    {value : Option Bytes} (hset : ∀ v, value = some v → HeaderText name v) :
    ∀ e ∈ (adHttpSetResponseHeader http name value).2.response.headers.entries,
      HeaderText e.1 e.2 := by
  have hremove : ∀ e ∈ (http.response.headers.remove name).entries, HeaderText e.1 e.2 :=
    fun e he => h e (List.mem_filter.1 he).1
  unfold adHttpSetResponseHeader
  split_ifs
  · exact h
  · cases value with
    | none => exact hremove
    | some value =>
      intro e he
      rcases List.mem_append.1 he with he | he
      · exact hremove e he
      · rw [List.mem_singleton.1 he]
        exact hset value rfl

theorem headerText_setResponseHeaders {http : AdHttp}
    (h : ∀ e ∈ http.response.headers.entries, HeaderText e.1 e.2)
    {sets : List (Bytes × Option Bytes)}
    (hsets : ∀ name value, (name, some value) ∈ sets → HeaderText name value) :
    ∀ e ∈ (setResponseHeaders http sets).response.headers.entries, HeaderText e.1 e.2 := by
  induction sets generalizing http with
  | nil => exact h
  | cons s sets ih =>
    have hs : ∀ v, s.2 = some v → HeaderText s.1 v := fun v hv =>
      hsets s.1 v (hv ▸ List.mem_cons_self ..)
    have hfirst := headerText_setResponseHeader h hs
    exact ih hfirst fun name value hs => hsets name value (List.mem_cons_of_mem _ hs)

theorem setResponseHeaders_frozenHeader (http : AdHttp) (sets : List (Bytes × Option Bytes)) :
    (setResponseHeaders http sets).response.frozenHeader = http.response.frozenHeader := by
  induction sets generalizing http with
  | nil => rfl
  | cons s sets ih => exact (ih _).trans (sameBody_setHeader http s.1 s.2).frozen

/-! ## The round trip -/

/-- What `parse_headers` makes of the header lines that have been sent, and of the line that ends them. -/
theorem headerPhase_headerLines {sent dec : AdHttp}
    (htext : ∀ e ∈ sent.response.headers.entries, HeaderText e.1 e.2)
    (hst : dec.request.status = .requestlineDone) (hdec : dec.request.headers = .empty) (b : Bytes) :
    ∃ http, headerPhase dec (headerLines sent ++ b) = (http, b) ∧
      http.request.status = .headerDone ∧ http.request.headers = sent.response.headers ∧
      http.request.contentlength =
        ((sent.response.headers.getstr contentLength).map atol).getD (-1) := by
  obtain ⟨fs, hwire, hnames⟩ := exists_fields htext
  have hlines : headerLines sent = wireLines (fieldLines fs) ++ crlf := by
    rw [hwire]
    rfl
  have hfields : ∀ l ∈ fieldLines fs, cstr l.text ≠ [] := by
    intro l hl
    obtain ⟨f, -, rfl⟩ := List.mem_map.1 hl
    rw [show f.line.text = f.text from rfl, f.cstr_text]
    simp [Field.text]
  let blank : Line := ⟨[], crlf, List.not_mem_nil, Or.inl rfl⟩
  have hblank : cstr blank.text = [] := rfl
  have hparse := parseHeaders_wire hfields hblank dec b
  have hphase : headerPhase dec (headerLines sent ++ b) =
      ((endHeaders (addHeaders dec (fieldLines fs))).setStatus .headerDone, b) := by
    rw [headerPhase, if_pos hst, hlines]
    exact congrArg (fun r => (r.2.1.setStatus r.1, r.2.2)) hparse
  have htable : (addHeaders dec (fieldLines fs)).request.headers = sent.response.headers := by
    have hempty : dec.request.headers.entries = [] := by rw [hdec]; rfl
    have hentries := @entries_addHeaders fs dec
      (by rw [hempty, hnames]; exact sent.response.headers.unique)
    rw [hempty, hnames, List.nil_append] at hentries
    exact Qlisttbl.ext hentries
  refine ⟨_, hphase, rfl, htable, ?_⟩
  rw [← htable]
  rfl

/-- What `ad_http_send_header` writes behind its status line is read back: the same table, the content
length that it declares, and nothing of what follows. -/
theorem headerBlock_read {enc : AdHttp} (hf : enc.response.frozenHeader = false)
    (henc : enc.response.headers = .empty) (out : Bytes) {sets : List (Bytes × Option Bytes)}
    (hsets : ∀ name value, (name, some value) ∈ sets → HeaderText name value) {dec : AdHttp}
    (hst : dec.request.status = .requestlineDone) (hdec : dec.request.headers = .empty) (b : Bytes)
    (segs : List Bytes) :
    let sent := setResponseHeaders enc sets
    let read := Push.feedAll headerPhase (dec, []) segs
    (adHttpSendHeader sent out).2.2 = out ++ statusLine sent ++ headerLines sent ∧
      (segs.flatten = headerLines sent ++ b →
        read.1.request.status = .headerDone ∧
          read.1.request.headers = sent.response.headers ∧
          (∀ v n, sent.response.headers.getstr contentLength = some v → IsNumeral 10 v n →
            n < 2 ^ 63 → read.1.request.contentlength = n) ∧
          (sent.response.headers.getstr contentLength = none →
            read.1.request.contentlength = -1) ∧
          read.2 = b) := by
  intro sent read
  have hsent : (adHttpSendHeader sent out).2.2 = out ++ statusLine sent ++ headerLines sent := by
    have hopen := (setResponseHeaders_frozenHeader enc sets).trans hf
    rw [adHttpSendHeader_eq hopen, headerBlock_eq, ← List.append_assoc]
  refine ⟨hsent, fun hsegs => ?_⟩
  have htext : ∀ e ∈ sent.response.headers.entries, HeaderText e.1 e.2 :=
    headerText_setResponseHeaders (by simp [henc, Qlisttbl.empty]) hsets
  obtain ⟨http, hphase, hdone, htable, hlen⟩ := headerPhase_headerLines htext hst hdec b
  have hread : read = (http, b) := by
    rw [show read = _ from feedAll_headerPhase dec segs, hsegs]
    exact hphase
  rw [hread]
  refine ⟨hdone, htable, ?_, ?_, rfl⟩
  · intro v n hv hnum hn
    rw [hlen, hv]
    exact atol_numeral hnum hn
  · intro hv
    rw [hlen, hv]
    rfl

/-- A name without value, set again in another case with a value that has a colon, and a length. -/
theorem headerBlock_read_two :
    let sets := [(bytes "A", some []), (bytes "a", some (bytes "x:y")),
      (contentLength, some (bytes "12"))]
    let sent := setResponseHeaders freshHttp sets
    let read := Push.feedAll headerPhase (freshHttp.setStatus .requestlineDone, [])
      [headerLines sent, bytes "z"]
    read.1.request.status = .headerDone ∧
      read.1.request.headers.entries = [(bytes "a", bytes "x:y"), (contentLength, bytes "12")] ∧
      read.1.request.contentlength = 12 ∧ read.2 = bytes "z" := by
  intro sets sent read
  have hsets : ∀ name value, (name, some value) ∈ sets → HeaderText name value := by
    intro name value hs
    simp only [sets, List.mem_cons, Prod.mk.injEq, Option.some.injEq, List.not_mem_nil,
      or_false] at hs
    rcases hs with ⟨rfl, rfl⟩ | ⟨rfl, rfl⟩ | ⟨rfl, rfl⟩
    all_goals
      exact ⟨by decide +kernel, by decide +kernel,
        ⟨by decide, by decide +kernel, by decide +kernel⟩,
        ⟨by decide +kernel, by decide +kernel⟩,
        ⟨by decide +kernel, by decide +kernel, by decide +kernel⟩,
        ⟨by decide +kernel, by decide +kernel⟩⟩
  obtain ⟨-, hread⟩ := @headerBlock_read freshHttp rfl rfl [] sets hsets
    (freshHttp.setStatus .requestlineDone) rfl rfl (bytes "z") [headerLines sent, bytes "z"]
  obtain ⟨hst, htable, hlen, -, hleft⟩ := hread rfl
  refine ⟨hst, ?_, ?_, hleft⟩
  · rw [htable]
    rfl
  · exact hlen (bytes "12") 12 rfl
      ⟨by decide, by decide +kernel, by decide +kernel⟩ (by decide)

end Asyncd
