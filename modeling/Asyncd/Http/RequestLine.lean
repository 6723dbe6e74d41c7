import Asyncd.Http.State
import Asyncd.Lib.Loop

/-!
# The request line

`parse_requestline` with `isValidPathname` and `correctPathname`.
-/

open CString

namespace Asyncd

/-- `PATH_MAX`. -/
def pathMax : ℕ := 4096

/-- `FILENAME_MAX`. -/
def filenameMax : ℕ := 4096

/-- The characters `strpbrk` looks for in a path. -/
def forbiddenChars : Bytes := bytes "\\:*?\"<>|"

/-- The loop of `isValidPathname` over the path; `n` counts the bytes of the current component. -/
def componentsFit : ℕ → Bytes → Bool
  | _, [] => true
  | n, c :: t =>
    if c = 47 then componentsFit 0 t
    else if n ≥ filenameMax then false
    else componentsFit (n + 1) t

/-- `isValidPathname`. -/
def isValidPathname (path : Bytes) : Bool :=
  let len := intLen path
  if len = 0 ∨ len ≥ pathMax then false
  else if path.head? ≠ some 47 then false
  else if path.any (· ∈ forbiddenChars) then false
  else componentsFit 0 path

/-! ## Collapsing slashes -/

theorem qstrreplaceAux_length_le {tok word : Bytes} (hw : word.length ≤ tok.length)
    (ht : tok ≠ []) (s : Bytes) {k : ℕ} (hk : k ≤ s.length) :
    (qstrreplaceAux tok word k s).length + k ≤ s.length := by
  have hpos := List.length_pos_iff.2 ht
  induction s generalizing k with
  | nil => simpa [qstrreplaceAux] using hk
  | cons c s ih =>
    cases k with
    | succ k =>
      have := ih (k := k) (by simpa using hk)
      simp only [qstrreplaceAux, List.length_cons]
      omega
    | zero =>
      unfold qstrreplaceAux
      split_ifs with h
      · have hl := (List.isPrefixOf_iff_prefix.1 h).length_le
        rw [List.length_cons] at hl
        have := ih (k := tok.length - 1) (by omega)
        simp only [List.length_append, List.length_cons]
        omega
      · have := ih (k := 0) (by omega)
        simp only [List.length_cons]
        omega

/-- Replacing by something shorter shortens a string in which there is something to replace. -/
theorem qstrreplace_length_lt {tok word : Bytes} (hw : word.length < tok.length) {s : Bytes}
    (h : (strstr tok s).isSome) : (qstrreplace s tok word).length < s.length := by
  have ht : tok ≠ [] := by
    rintro rfl
    simp at hw
  unfold qstrreplace
  induction s with
  | nil => simp [strstr, ht] at h
  | cons c s ih =>
    unfold qstrreplaceAux
    split_ifs with hp
    · have hl := (List.isPrefixOf_iff_prefix.1 hp).length_le
      rw [List.length_cons] at hl
      have := qstrreplaceAux_length_le hw.le ht s (k := tok.length - 1) (by omega)
      simp only [List.length_append, List.length_cons]
      omega
    · have := ih (by simpa [strstr, hp] using h)
      simpa using this

/-- One round of the loop of `correctPathname`: while there is a double slash, replace. -/
def collapseStep (path : Bytes) : Bytes ⊕ Bytes :=
  if (strstr (bytes "//") path).isSome then .inl (qstrreplace path (bytes "//") (bytes "/"))
  else .inr path

theorem collapseStep_decreasing : Loop.Decreasing List.length collapseStep := by
  intro s s' h
  unfold collapseStep at h
  split_ifs at h with hs
  cases h
  exact qstrreplace_length_lt (by decide) hs

/-- `correctPathname`. -/
def correctPathname (path : Bytes) : Bytes :=
  let path := Loop.exec collapseStep_decreasing (qstrtrim path)
  let len := intLen path
  if len ≤ 1 then path
  else if path[(len - 1).toNat]? = some 47 then path.take (len - 1).toNat
  else path

/-! ## The parser -/

/-- The four `strtok_r` calls of `parse_requestline`: the three tokens of a line that has exactly
three. -/
def requestTokens (line : Bytes) : Option (Bytes × Bytes × Bytes) :=
  let (method, saveptr) := strtokR 32 line
  let (uri, saveptr) := strtokR 32 saveptr
  let (httpver, saveptr) := strtokR 32 saveptr
  let (tmp, _) := strtokR 32 saveptr
  match method, uri, httpver, tmp with
  | some method, some uri, some httpver, none => some (method, uri, httpver)
  | _, _, _, _ => none

/-- How `parse_requestline` divides the URI token: the value it puts in the header table as Host, if
it does, and the value of `request.uri`. -/
def divideUri (uri : Bytes) : Option (Option Bytes × Bytes) :=
  if uri.head? = some 47 then some (none, uri)
  else
    match strstr (bytes "://") uri with
    | none => none
    | some (_, tmp) =>
      match strstr (bytes "/") (tmp.drop 3) with
      | none => some (some (tmp.drop 3), bytes "/")
      | some (host, path) => some (some host, path)

/-- Path and query, cut at the first `?`. -/
def divideQuery (uri : Bytes) : Bytes × Bytes :=
  match strstr (bytes "?") uri with
  | some (path, tmp) => (path, tmp.tail)
  | none => (uri, [])

section

variable [UrlDecoder]

/-- `parse_requestline`, on a line that is a C string. -/
def parseRequestline (http : AdHttp) (line : Bytes) : ReqStatus × AdHttp :=
  match requestTokens line with
  | none => (.error, http)
  | some (method, uri, httpver) =>
    let http := { http with request.method := some (qstrupper method) }
    let httpver := qstrupper httpver
    let http := { http with request.httpver := some httpver }
    if httpver ≠ httpProtocol09 ∧ httpver ≠ httpProtocol10 ∧ httpver ≠ httpProtocol11 then
      (.error, http)
    else
      match divideUri uri with
      | none => (.error, http)
      | some (host, uri) =>
        let http := match host with
          | some host => http.putHeader (bytes "Host") host
          | none => http
        let http := { http with request.uri := some uri }
        let path := cstr (UrlDecoder.qurlDecode (divideQuery uri).1)
        let http := { http with
          request.path := some path, request.query := some (divideQuery uri).2 }
        if isValidPathname path = false then (.error, http)
        else (.requestlineDone, { http with request.path := some (correctPathname path) })

/-! ## What the parser does to the state -/

/-- The fields a request line may set. -/
structure LineFields where
  method : Option Bytes
  uri : Option Bytes
  httpver : Option Bytes
  path : Option Bytes
  query : Option Bytes
  headers : Qlisttbl

/-- Set the fields of a request line. -/
def AdHttp.setLine (http : AdHttp) (l : LineFields) : AdHttp :=
  { http with
    request :=
      { http.request with
        method := l.method, uri := l.uri, httpver := l.httpver, path := l.path, query := l.query,
        headers := l.headers } }

/-- The header table is as before, but for a Host entry. -/
def HostOnly (h h' : Qlisttbl) : Prop := h' = h ∨ ∃ v, h' = h.putstr (bytes "Host") v

/-- All five strings are set, and the version is one of the three. -/
def LineFields.Complete (l : LineFields) : Prop :=
  l.method.isSome ∧ l.uri.isSome ∧ l.path.isSome ∧ l.query.isSome ∧
    (l.httpver = some httpProtocol09 ∨ l.httpver = some httpProtocol10 ∨
      l.httpver = some httpProtocol11)

/-- The request line parser answers `requestlineDone` or `error`, touches only the fields of the
request line, and does not look at the input buffer of the request. -/
theorem parseRequestline_spec (http : AdHttp) (line : Bytes) :
    ∃ st l, HostOnly http.request.headers l.headers ∧
      (st = .error ∨ st = .requestlineDone ∧ l.Complete) ∧
      ∀ b, parseRequestline (http.setInbuf b) line = (st, (http.setLine l).setInbuf b) := by
  unfold parseRequestline
  cases requestTokens line with
  | none => exact ⟨.error, ⟨_, _, _, _, _, _⟩, Or.inl rfl, Or.inl rfl, fun _ => rfl⟩
  | some t =>
    obtain ⟨method, uri, httpver⟩ := t
    simp only
    split_ifs with hv
    · exact ⟨.error, ⟨_, _, _, _, _, _⟩, Or.inl rfl, Or.inl rfl, fun _ => rfl⟩
    have hver : some (qstrupper httpver) = some httpProtocol09 ∨
        some (qstrupper httpver) = some httpProtocol10 ∨
        some (qstrupper httpver) = some httpProtocol11 := by
      simpa only [not_and_or, ne_eq, not_not, Option.some.injEq] using hv
    rcases divideUri uri with - | ⟨host, uri⟩
    · exact ⟨.error, ⟨_, _, _, _, _, _⟩, Or.inl rfl, Or.inl rfl, fun _ => rfl⟩
    -- the path is valid or not; a Host entry is put or not
    by_cases hp : isValidPathname (cstr (UrlDecoder.qurlDecode (divideQuery uri).1)) = false
    · cases host
      all_goals simp only [hp, if_true]
      · exact ⟨.error, ⟨_, _, _, _, _, _⟩, Or.inl rfl, Or.inl rfl, fun _ => rfl⟩
      · exact ⟨.error, ⟨_, _, _, _, _, _⟩, Or.inr ⟨_, rfl⟩, Or.inl rfl, fun _ => rfl⟩
    · cases host
      all_goals simp only [hp]
      · exact ⟨.requestlineDone, ⟨some _, some _, some _, some _, some _, _⟩, Or.inl rfl,
          Or.inr ⟨rfl, rfl, rfl, rfl, rfl, hver⟩, fun _ => rfl⟩
      · exact ⟨.requestlineDone, ⟨some _, some _, some _, some _, some _, _⟩, Or.inr ⟨_, rfl⟩,
          Or.inr ⟨rfl, rfl, rfl, rfl, rfl, hver⟩, fun _ => rfl⟩

theorem parseRequestline_setInbuf (http : AdHttp) (line b : Bytes) :
    parseRequestline (http.setInbuf b) line =
      ((parseRequestline http line).1, (parseRequestline http line).2.setInbuf b) := by
  obtain ⟨st, l, -, -, h⟩ := parseRequestline_spec http line
  have h₀ := h http.request.inbuf
  rw [AdHttp.setInbuf_self] at h₀
  rw [h b, h₀]
  rfl

end

end Asyncd
