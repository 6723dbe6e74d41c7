import Asyncd.Http.Fields
import Asyncd.Http.Response

/-!
# The lines of a header block

`headerBlock` is a run of bytes.  Its lines are what stands between the line feeds, and whatever a
client finds in it, it finds line by line: a text with a line feed makes more than one line.
`mem_fieldValues_headerBlock` says which values the lines of a header block hold under a name.
-/

open CString ByteLines

namespace Asyncd

/-! ## Texts on a line -/

/-- No white space at either end. -/
structure Trimmed (s : Bytes) : Prop where
  head : ∀ c ∈ s.head?, isSpace c = false
  last : ∀ c ∈ s.getLast?, isSpace c = false

theorem trimmed_iff_all {s : Bytes} :
    Trimmed s ↔ s.head?.all (!isSpace ·) = true ∧ s.getLast?.all (!isSpace ·) = true := by
  simp only [Option.all_eq_true, Bool.not_eq_true']
  exact ⟨fun h => ⟨h.head, h.last⟩, fun h => ⟨h.1, h.2⟩⟩

instance (s : Bytes) : Decidable (Trimmed s) := decidable_of_iff _ trimmed_iff_all.symm

theorem qstrtrim_of_trimmed {s : Bytes} (h : Trimmed s) : qstrtrim s = s := by
  cases s with
  | nil => rfl
  | cons c s =>
    have hdrop : (c :: s).dropWhile isSpace = c :: s :=
      List.dropWhile_cons_of_neg (by simp [h.head c rfl])
    have hlast := h.last _ (List.getLast?_eq_getLast_of_ne_nil (List.cons_ne_nil c s))
    rw [qstrtrim, hdrop, List.rdropWhile_eq_self_iff]
    intro hne
    simp [hlast]

/-- The space that `ad_http_send_header` puts in front of a value is trimmed. -/
theorem qstrtrim_space {value : Bytes} (h : Trimmed value) : qstrtrim (32 :: value) = value := by
  have hspace : isSpace 32 = true := by decide
  calc qstrtrim (32 :: value) = qstrtrim value := by
        rw [qstrtrim, List.dropWhile_cons_of_pos hspace, qstrtrim]
    _ = value := qstrtrim_of_trimmed h

theorem qstrtrim_append_cr (s : Bytes) : qstrtrim (s ++ [cr]) = qstrtrim s := by
  have hcr : isSpace cr = true := by decide
  have hlast : ∀ t : Bytes, (t ++ [cr]).rdropWhile isSpace = t.rdropWhile isSpace := fun t =>
    List.rdropWhile_concat_pos isSpace t cr hcr
  rw [qstrtrim, List.dropWhile_append]
  split_ifs with h
  · rw [List.dropWhile_cons_of_pos hcr, qstrtrim, List.isEmpty_iff.1 h]
    rfl
  · exact hlast _

theorem trimmed_of_digits {s : Bytes} (h : ∀ c ∈ s, isDigit 10 c = true) : Trimmed s := by
  have hspace : ∀ c ∈ s, isSpace c = false := fun c hc =>
    isSpace_of_digit (isDigit_mono (by omega) (h c hc))
  exact ⟨fun c hc => hspace c (List.mem_of_mem_head? hc),
    fun c hc => hspace c (List.mem_of_mem_getLast? hc)⟩

/-! ## The parts of a header block -/

/-- The status line that `ad_http_send_header` prints. -/
def statusLine (http : AdHttp) : Bytes :=
  http.request.httpver.getD (bytes "(null)") ++ bytes " " ++ decimalInt http.response.code ++
    bytes " " ++ http.response.reason.getD (adHttpGetReason http.response.code) ++ httpCrlf

/-- The lines behind the status line, with the empty line. -/
def headerLines (http : AdHttp) : Bytes :=
  http.response.headers.entries.flatMap (fun e => headerLine e.1 e.2) ++ httpCrlf

theorem headerBlock_eq (http : AdHttp) : headerBlock http = statusLine http ++ headerLines http := by
  simp [headerBlock, statusLine, headerLines]

/-! ## Fields -/

/-- The fields of a header block: its lines behind the status line, as `parse_headers` reads a line. -/
def blockFields (block : Bytes) : List (Bytes × Bytes) :=
  (block.splitOn lf).tail.map headerNameValue

/-- The values under `name` in a list of fields. -/
def valuesOf (name : Bytes) (fields : List (Bytes × Bytes)) : List Bytes :=
  (fields.filter fun f => eqIgnoreCase f.1 name).map (·.2)

/-- The values that the lines of a header block hold under `name`. -/
def fieldValues (name block : Bytes) : List Bytes := valuesOf name (blockFields block)

/-- A line of the header as printed, up to its line feed. -/
def entryText (e : Bytes × Bytes) : Bytes := e.1 ++ bytes ": " ++ e.2 ++ [cr]

/-- The status line as printed, up to its line feed. -/
def statusText (http : AdHttp) : Bytes :=
  http.request.httpver.getD (bytes "(null)") ++ bytes " " ++ decimalInt http.response.code ++
    bytes " " ++ http.response.reason.getD (adHttpGetReason http.response.code) ++ [cr]

/-- The values that the lines of a table entry hold under `name`. -/
def entryValues (name : Bytes) (e : Bytes × Bytes) : List Bytes :=
  valuesOf name (((entryText e).splitOn lf).map headerNameValue)

/-- The values that the status line holds under `name` if its texts make more than one line. -/
def statusValues (name : Bytes) (http : AdHttp) : List Bytes :=
  valuesOf name (((statusText http).splitOn lf).tail.map headerNameValue)

theorem valuesOf_append (name : Bytes) (fs gs : List (Bytes × Bytes)) :
    valuesOf name (fs ++ gs) = valuesOf name fs ++ valuesOf name gs := by
  simp [valuesOf]

theorem headerLine_eq (e : Bytes × Bytes) : headerLine e.1 e.2 = entryText e ++ [lf] := by
  simp [headerLine, entryText, httpCrlf, bytes, cr, lf]

theorem statusLine_eq (http : AdHttp) : statusLine http = statusText http ++ [lf] := by
  simp [statusLine, statusText, httpCrlf, bytes, cr, lf]

theorem splitOn_line (s t : Bytes) : (s ++ [lf] ++ t).splitOn lf = s.splitOn lf ++ t.splitOn lf := by
  rw [List.append_assoc]
  exact List.splitOn_append_cons_self s t

theorem splitOn_headerLines (entries : List (Bytes × Bytes)) :
    (entries.flatMap (fun e => headerLine e.1 e.2) ++ httpCrlf).splitOn lf =
      entries.flatMap (fun e => (entryText e).splitOn lf) ++ [[cr], []] := by
  induction entries with
  | nil => exact splitOn_line [cr] []
  | cons e entries ih =>
    rw [List.flatMap_cons, List.append_assoc, headerLine_eq, splitOn_line, ih, List.flatMap_cons,
      List.append_assoc]

theorem valuesOf_entries (name : Bytes) (entries : List (Bytes × Bytes)) :
    valuesOf name ((entries.flatMap fun e => (entryText e).splitOn lf).map headerNameValue) =
      entries.flatMap (entryValues name) := by
  induction entries with
  | nil => rfl
  | cons e entries ih =>
    rw [List.flatMap_cons, List.map_append, valuesOf_append, ih, List.flatMap_cons, entryValues]

/-- The values under a name come from the status line or from the entries of the table. -/
theorem fieldValues_headerBlock {name : Bytes} (hname : name ≠ []) (http : AdHttp) :
    fieldValues name (headerBlock http) =
      statusValues name http ++ http.response.headers.entries.flatMap (entryValues name) := by
  -- the empty line and what is behind it have no name
  have hempty : valuesOf name ([[cr], []].map headerNameValue) = [] := by
    have hnil : eqIgnoreCase [] name = false := by simpa [eqIgnoreCase] using hname
    simp [valuesOf, headerNameValue, strstr, bytes, qstrtrim, cr, isSpace, hnil]
  rw [fieldValues, blockFields, headerBlock_eq, statusLine_eq, splitOn_line,
    List.tail_append_of_ne_nil (List.splitOn_ne_nil _ _), headerLines, splitOn_headerLines,
    List.map_append, List.map_append, valuesOf_append, valuesOf_append, hempty, List.append_nil,
    valuesOf_entries, statusValues]

theorem mem_fieldValues_headerBlock {name : Bytes} (hname : name ≠ []) (http : AdHttp)
    (v : Bytes) :
    v ∈ fieldValues name (headerBlock http) ↔
      v ∈ statusValues name http ∨
        ∃ e ∈ http.response.headers.entries, v ∈ entryValues name e := by
  rw [fieldValues_headerBlock hname, List.mem_append, List.mem_flatMap]

/-! ## Plain texts -/

/-- A name that stands in front of a colon. -/
structure PlainName (name : Bytes) : Prop where
  colon_not_mem : colon ∉ name
  lf_not_mem : lf ∉ name
  trimmed : Trimmed name

/-- A name and a value that make one line, the field of that name. -/
structure PlainEntry (e : Bytes × Bytes) : Prop where
  name : PlainName e.1
  value : lf ∉ e.2

theorem entryValues_of_plain {e : Bytes × Bytes} (h : PlainEntry e) (name : Bytes) :
    entryValues name e = if eqIgnoreCase e.1 name = true then [qstrtrim (32 :: e.2)] else [] := by
  have htext : entryText e = e.1 ++ colon :: (32 :: e.2 ++ [cr]) := by
    simp [entryText, bytes, colon]
  have hlf : lf ∉ entryText e := by
    have hcolon : lf ∉ bytes ": " := by decide
    have hcr : lf ≠ cr := by decide
    simp [entryText, h.name.lf_not_mem, h.value, hcolon, hcr]
  have hfield : headerNameValue (entryText e) = (e.1, qstrtrim (32 :: e.2)) := by
    rw [htext, headerNameValue, strstr_colon h.name.colon_not_mem]
    simp only [List.tail_cons]
    rw [qstrtrim_of_trimmed h.name.trimmed, qstrtrim_append_cr]
  rw [entryValues, List.splitOn_eq_singleton hlf, List.map_singleton, hfield, valuesOf]
  split_ifs with hname <;> simp [hname]

theorem lf_not_mem_reason (code : ℤ) : lf ∉ adHttpGetReason code := by
  unfold adHttpGetReason
  split <;> decide

/-- A status line without line feeds in its texts holds no fields. -/
theorem statusValues_of_plain {http : AdHttp} (hver : ∀ s ∈ http.request.httpver, lf ∉ s)
    (hreason : ∀ s ∈ http.response.reason, lf ∉ s) (name : Bytes) : statusValues name http = [] := by
  have hver' : lf ∉ http.request.httpver.getD (bytes "(null)") := by
    cases h : http.request.httpver with
    | none => decide
    | some s => exact hver s h
  have hreason' : lf ∉ http.response.reason.getD (adHttpGetReason http.response.code) := by
    cases h : http.response.reason with
    | none => exact lf_not_mem_reason _
    | some s => exact hreason s h
  have hcode : lf ∉ decimalInt http.response.code := not_mem_decimalInt (by decide) _
  have hlf : lf ∉ statusText http := by
    have hspace : lf ∉ bytes " " := by decide
    have hcr : lf ≠ cr := by decide
    simp [statusText, hver', hreason', hcode, hspace, hcr]
  rw [statusValues, List.splitOn_eq_singleton hlf]
  rfl

end Asyncd
