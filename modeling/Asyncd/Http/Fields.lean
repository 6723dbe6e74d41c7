import Asyncd.Http.Head

/-!
# Heads made of header fields

A `Field` is a header line of the form `name: value`, and a `FieldHead` a request head whose header
lines are fields.  `getstr_state_of_single` says what the parser's table holds for a name that one field
has, and `getstr_state_of_none` for a name that none has.
-/

open CString ByteLines

namespace Asyncd

/-! ## Fields -/

/-- The colon. -/
def colon : UInt8 := 58

/-- A header line of the form `name: value`. -/
structure Field where
  name : Bytes
  value : Bytes
  eol : Bytes
  colon_not_mem : colon ∉ name
  nul_not_mem : 0 ∉ name ++ value
  lf_not_mem : lf ∉ name ++ value
  isEol : IsEol (name ++ colon :: value) eol

namespace Field

/-- The text of the line. -/
def text (f : Field) : Bytes := f.name ++ colon :: f.value

/-- The field as a line. -/
def line (f : Field) : Line where
  text := f.text
  eol := f.eol
  lf_not_mem := by
    have := f.lf_not_mem
    simp only [text, List.mem_append, List.mem_cons, not_or] at this ⊢
    exact ⟨this.1, by decide, this.2⟩
  isEol := f.isEol

/-- The field is called `n`, up to the case of letters and white space around the name. -/
def named (n : Bytes) (f : Field) : Bool := eqIgnoreCase (qstrtrim f.name) n

theorem cstr_text (f : Field) : cstr f.text = f.text := by
  apply cstr_of_not_mem
  have := f.nul_not_mem
  simp only [text, List.mem_append, List.mem_cons, not_or] at this ⊢
  exact ⟨this.1, by decide, this.2⟩

end Field

theorem strstr_colon {name : Bytes} (h : colon ∉ name) (v : Bytes) :
    strstr (bytes ":") (name ++ colon :: v) = some (name, colon :: v) := by
  have hb : bytes ":" = [colon] := rfl
  induction name with
  | nil => simp [strstr, hb]
  | cons c name ih =>
    simp only [List.mem_cons, not_or] at h
    have hc : (bytes ":").isPrefixOf (c :: (name ++ colon :: v)) = false := by
      simp [hb, List.isPrefixOf, h.1]
    simp only [List.cons_append, strstr, hc, Bool.false_eq_true, if_false, ih h.2, Option.map_some]

theorem headerNameValue_text (f : Field) :
    headerNameValue f.text = (qstrtrim f.name, qstrtrim f.value) := by
  simp only [headerNameValue, Field.text, strstr_colon f.colon_not_mem, List.tail_cons]

/-! ## The header table -/

/-- The lines of some fields. -/
def fieldLines (fs : List Field) : List Line := fs.map Field.line

theorem addHeaders_append (http : AdHttp) (ls ms : List Line) :
    addHeaders http (ls ++ ms) = addHeaders (addHeaders http ls) ms :=
  List.foldl_append

theorem addHeader_field (http : AdHttp) (f : Field) :
    (addHeader http (cstr f.line.text)).request.headers =
      http.request.headers.putstr (qstrtrim f.name) (qstrtrim f.value) := by
  rw [show f.line.text = f.text from rfl, f.cstr_text, addHeader, headerNameValue_text]
  rfl

theorem getstr_addHeaders_of_none {n : Bytes} {fs : List Field} (h : ∀ f ∈ fs, f.named n = false)
    (http : AdHttp) :
    (addHeaders http (fieldLines fs)).request.headers.getstr n = http.request.headers.getstr n := by
  induction fs generalizing http with
  | nil => rfl
  | cons f fs ih =>
    obtain ⟨hf, hfs⟩ := List.forall_mem_cons.1 h
    rw [show addHeaders http (fieldLines (f :: fs)) =
      addHeaders (addHeader http (cstr f.line.text)) (fieldLines fs) from rfl, ih hfs,
      addHeader_field, Qlisttbl.getstr_putstr_of_ne _ _ hf]

theorem getstr_addHeaders_of_single {n : Bytes} {fs : List Field} {f : Field}
    (h : fs.filter (Field.named n) = [f]) (http : AdHttp) :
    (addHeaders http (fieldLines fs)).request.headers.getstr n = some (qstrtrim f.value) := by
  obtain ⟨pre, post, rfl, -, hf, hpost⟩ := List.filter_eq_cons_iff.1 h
  have hpost' : ∀ g ∈ post, g.named n = false := fun g hg => by
    simpa using List.filter_eq_nil_iff.1 hpost g hg
  rw [show fieldLines (pre ++ f :: post) = fieldLines pre ++ f.line :: fieldLines post from
      List.map_append, addHeaders_append]
  apply (getstr_addHeaders_of_none hpost' _).trans
  rw [addHeader_field, Qlisttbl.getstr_putstr_of_eq _ _ hf]

/-! ## Heads -/

/-- The request line alone puts at most a Host entry into the table. -/
theorem RequestHead.getstr_lineState [UrlDecoder] (h : RequestHead) {n : Bytes}
    (hn : eqIgnoreCase (bytes "Host") n = false) :
    h.lineState.request.headers.getstr n = none := by
  obtain ⟨st, l, hhost, -, hl⟩ := parseRequestline_spec freshHttp (cstr h.line.text)
  have h₀ := hl []
  rw [show freshHttp.setInbuf [] = freshHttp from rfl] at h₀
  have : h.lineState.request.headers = l.headers := by
    rw [RequestHead.lineState, h₀]
    rfl
  rw [this]
  rcases hhost with e | ⟨v, e⟩ <;> rw [e]
  · rfl
  · rw [Qlisttbl.getstr_putstr_of_ne _ _ hn]
    rfl

/-- A request line, fields, and the end of the empty line. -/
structure FieldHead where
  line : Line
  fields : List Field
  blank : Bytes
  blank_isEol : IsEol [] blank

namespace FieldHead

/-- The head as lines. -/
def head (h : FieldHead) : RequestHead where
  line := h.line
  headers := fieldLines h.fields
  blank := ⟨[], h.blank, List.not_mem_nil, h.blank_isEol⟩
  headers_ne := by
    rintro l hl
    obtain ⟨f, -, rfl⟩ := List.mem_map.1 hl
    rw [show f.line.text = f.text from rfl, f.cstr_text]
    simp [Field.text]
  blank_eq := rfl

variable [UrlDecoder] (h : FieldHead)

/-- What the parser's table holds for the name of one field. -/
theorem getstr_state_of_single {n : Bytes} {f : Field}
    (hf : h.fields.filter (Field.named n) = [f]) :
    h.head.state.request.headers.getstr n = some (qstrtrim f.value) :=
  getstr_addHeaders_of_single hf _

theorem getstr_state_of_none {n : Bytes} (hn : eqIgnoreCase (bytes "Host") n = false)
    (hf : ∀ f ∈ h.fields, f.named n = false) : h.head.state.request.headers.getstr n = none :=
  (getstr_addHeaders_of_none hf _).trans (h.head.getstr_lineState hn)

theorem contentlength_state :
    h.head.state.request.contentlength =
      ((h.head.state.request.headers.getstr contentLength).map atol).getD (-1) := rfl

end FieldHead

end Asyncd
