import Asyncd.Http.RequestLine
import Asyncd.Lib.Tokens

/-!
# The grammar of request lines

A request line has three tokens: a method, a target that starts with `/` or has a `://` in it, and one
of three versions; the decoded path of the target has no forbidden character and no overlong component,
and is shorter than `PATH_MAX` (`Grammatical`).  `parseRequestline_target` says what the parser makes of
such a line.  It accepts exactly the lines of the grammar, but for paths so long that their length is
small again as an `int` (`lineLaw_iff`).
-/

open CString

namespace Asyncd

/-! ## Targets -/

/-- One of the supported versions. -/
def VersionKnown (v : Bytes) : Prop :=
  qstrupper v = httpProtocol09 ∨ qstrupper v = httpProtocol10 ∨ qstrupper v = httpProtocol11

theorem not_versionKnown_iff {v : Bytes} :
    ¬VersionKnown v ↔ qstrupper v ≠ httpProtocol09 ∧ qstrupper v ≠ httpProtocol10 ∧
      qstrupper v ≠ httpProtocol11 := by
  simp only [VersionKnown, not_or, ne_eq]

/-- A target starts with `/` or has a scheme. -/
def TargetForm (u : Bytes) : Prop := u.head? = some 47 ∨ bytes "://" <:+: u

/-- What stands behind the first `://`. -/
def afterScheme (u : Bytes) : Bytes := ((u.tails.find? (bytes "://").isPrefixOf).getD []).drop 3

/-- The part of a target that is stored as URI: all of it, or what starts at the first `/` behind the
scheme. -/
def targetUri (u : Bytes) : Bytes :=
  if u.head? = some 47 then u
  else if 47 ∈ afterScheme u then (afterScheme u).dropWhile (· != 47) else [47]

/-- The host that the parser sees in a target. -/
def targetHost (u : Bytes) : Option Bytes :=
  if u.head? = some 47 then none else some ((afterScheme u).takeWhile (· != 47))

/-- A URI up to the first `?`, and what follows it. -/
def rawPath (uri : Bytes) : Bytes := uri.takeWhile (· != 63)
def rawQuery (uri : Bytes) : Bytes := (uri.dropWhile (· != 63)).tail

theorem targetUri_head (u : Bytes) : (targetUri u).head? = some 47 := by
  unfold targetUri
  split_ifs with h h'
  · exact h
  · have hne : (afterScheme u).dropWhile (· != 47) ≠ [] := by
      rw [ne_eq, List.dropWhile_eq_nil_iff]
      exact fun hall => by simpa using hall 47 h'
    rcases List.exists_cons_of_ne_nil hne with ⟨c, t, e⟩
    have hc := List.head?_dropWhile_not (· != 47) (afterScheme u)
    rw [e] at hc ⊢
    simpa using hc
  · rfl

theorem bytes_slash : bytes "/" = [47] := rfl
theorem bytes_question : bytes "?" = [63] := rfl

theorem divideUri_of_form {u : Bytes} (h : TargetForm u) :
    divideUri u = some (targetHost u, targetUri u) := by
  unfold divideUri targetHost targetUri
  split_ifs with hs hm
  · rfl
  all_goals
    have hsome := (strstr_isSome_iff _ _).2 (h.resolve_left hs)
    rcases Option.isSome_iff_exists.1 hsome with ⟨⟨p, t⟩, e⟩
    have hafter : afterScheme u = t.drop 3 := by
      rw [afterScheme, ← strstr_tail, e]
      rfl
    rw [hafter] at hm ⊢
    simp only [e, bytes_slash, strstr_char, hm, if_true, if_false]
  -- without a slash, the whole rest is the host
  have hall : (t.drop 3).takeWhile (· != 47) = t.drop 3 := by
    rw [List.takeWhile_eq_self_iff]
    exact fun c hc => bne_iff_ne.2 fun e => hm (e ▸ hc)
  rw [hall]

theorem divideUri_of_not_form {u : Bytes} (h : ¬TargetForm u) : divideUri u = none := by
  rw [TargetForm, not_or] at h
  have hnone : strstr (bytes "://") u = none := by
    rw [← Option.not_isSome_iff_eq_none, strstr_isSome_iff]
    exact h.2
  rw [divideUri, if_neg h.1, hnone]

theorem divideQuery_eq (uri : Bytes) : divideQuery uri = (rawPath uri, rawQuery uri) := by
  unfold divideQuery rawPath rawQuery
  rw [bytes_question, strstr_char]
  split_ifs with h
  · rfl
  · have hall : ∀ c ∈ uri, (c != 63) = true := fun c hc => bne_iff_ne.2 fun e => h (e ▸ hc)
    simp only [List.takeWhile_eq_self_iff.2 hall, List.dropWhile_eq_nil_iff.2 hall, List.tail_nil]

/-- The four calls of `strtok_r` find the tokens of a line that has three. -/
theorem requestTokens_eq (line : Bytes) :
    requestTokens line =
      match tokens 32 line with
      | [m, u, v] => some (m, u, v)
      | _ => none := by
  have h1 := strtokR_tokens 32 line
  have h2 := strtokR_tokens 32 (strtokR 32 line).2
  have h3 := strtokR_tokens 32 (strtokR 32 (strtokR 32 line).2).2
  have h4 := strtokR_tokens 32 (strtokR 32 (strtokR 32 (strtokR 32 line).2).2).2
  simp only [h1.2] at h2
  simp only [h2.2] at h3
  simp only [h3.2] at h4
  simp only [requestTokens, h1.1, h2.1, h3.1, h4.1]
  rcases tokens 32 line with - | ⟨m, - | ⟨u, - | ⟨v, - | ⟨w, l⟩⟩⟩⟩ <;> rfl

/-! ## Paths -/

/-- The characters and the components of a path are allowed. -/
structure PathAllowed (p : Bytes) : Prop where
  chars : ∀ c ∈ p, c ∉ forbiddenChars
  components : ∀ w ∈ p.splitOn 47, w.length ≤ filenameMax

/-- The counting loop, started inside a component of which `n` bytes have been counted. -/
theorem componentsFit_iff {n : ℕ} (hn : n ≤ filenameMax) {p a : Bytes} {l : List Bytes}
    (e : p.splitOn 47 = a :: l) :
    componentsFit n p = true ↔ n + a.length ≤ filenameMax ∧ ∀ w ∈ l, w.length ≤ filenameMax := by
  induction p generalizing n a l with
  | nil =>
    rw [List.splitOn_nil] at e
    cases e
    simpa [componentsFit] using hn
  | cons c p ih =>
    rcases List.exists_cons_of_ne_nil (List.splitOn_ne_nil 47 p) with ⟨b, l', e'⟩
    rw [List.splitOn_eq_splitOnP, List.splitOnP_cons_eq_if_modifyHead, ← List.splitOn_eq_splitOnP,
      e'] at e
    unfold componentsFit
    by_cases hc : c = 47
    · -- the component ends here, and counting starts anew
      rw [if_pos hc, ih (Nat.zero_le _) e']
      rw [if_pos (beq_iff_eq.2 hc)] at e
      cases e
      simp [hn]
    · rw [if_neg hc]
      rw [if_neg (by simpa using hc)] at e
      cases e
      split_ifs with hge
      · simp only [false_iff, List.length_cons]
        omega
      · rw [ih (by omega) e', List.length_cons, Nat.add_right_comm, Nat.add_assoc]

theorem isValidPathname_iff (p : Bytes) :
    isValidPathname p = true ↔
      intLen p ≠ 0 ∧ intLen p < pathMax ∧ p.head? = some 47 ∧ PathAllowed p := by
  have hchars : p.any (· ∈ forbiddenChars) = true ↔ ¬∀ c ∈ p, c ∉ forbiddenChars := by simp
  have hfit : componentsFit 0 p = true ↔ ∀ w ∈ p.splitOn 47, w.length ≤ filenameMax := by
    rcases List.exists_cons_of_ne_nil (List.splitOn_ne_nil 47 p) with ⟨a, l, e⟩
    rw [componentsFit_iff (Nat.zero_le _) e, e, List.forall_mem_cons, Nat.zero_add]
  simp only [isValidPathname]
  split_ifs with h1 h2 h3
  · simp only [false_iff]
    omega
  · simp [h2]
  · simp only [false_iff]
    exact fun h => (hchars.1 h3) h.2.2.2.chars
  · rw [hfit]
    rw [not_or, ge_iff_le, not_le] at h1
    exact ⟨fun h => ⟨h1.1, h1.2, not_not.1 h2, not_not.1 fun hn => h3 (hchars.2 hn), h⟩,
      fun h => h.2.2.2.components⟩

section

variable [UrlDecoder]

/-- The decoded path of a target. -/
def decodedPath (u : Bytes) : Bytes := cstr (UrlDecoder.qurlDecode (rawPath (targetUri u)))

theorem decodedPath_head (u : Bytes) : (decodedPath u).head? = some 47 := by
  have huri := targetUri_head u
  unfold decodedPath
  generalize targetUri u = uri at huri
  rcases uri with - | ⟨c, t⟩
  · cases huri
  obtain rfl : c = 47 := by simpa using huri
  rcases UrlDecoder.decode_slash (rawPath t) with ⟨s, e⟩
  have hraw : rawPath (47 :: t) = 47 :: rawPath t := by simp [rawPath]
  rw [hraw, e]
  simp [cstr]

/-! ## What the parser makes of a line -/

/-- The state after a line whose target is looked at. -/
def lineStored (http : AdHttp) (m u v : Bytes) : AdHttp :=
  http.setLine
    { method := some (qstrupper m)
      uri := some (targetUri u)
      httpver := some (qstrupper v)
      path := some (if isValidPathname (decodedPath u) then correctPathname (decodedPath u)
        else decodedPath u)
      query := some (rawQuery (targetUri u))
      headers := match targetHost u with
        | some host => http.request.headers.putstr (bytes "Host") host
        | none => http.request.headers }

/-- The state after a line that is refused before its target is stored. -/
def methodStored (http : AdHttp) (m v : Bytes) : AdHttp :=
  { http with
    request := { http.request with method := some (qstrupper m), httpver := some (qstrupper v) } }

variable {line m u v : Bytes}

theorem parseRequestline_of_none (http : AdHttp) (h : ∀ m u v, tokens 32 line ≠ [m, u, v]) :
    parseRequestline http line = (.error, http) := by
  have hnone : requestTokens line = none := by
    rw [requestTokens_eq]
    split
    · exact absurd ‹_› (h _ _ _)
    · rfl
  rw [parseRequestline, hnone]

theorem parseRequestline_unknown (http : AdHttp) (ht : tokens 32 line = [m, u, v])
    (h : ¬(VersionKnown v ∧ TargetForm u)) :
    parseRequestline http line = (.error, methodStored http m v) := by
  have hsome : requestTokens line = some (m, u, v) := by rw [requestTokens_eq, ht]
  simp only [parseRequestline, hsome]
  by_cases hv : VersionKnown v
  · have hu : ¬TargetForm u := fun hu => h ⟨hv, hu⟩
    rw [divideUri_of_not_form hu, ite_self]
    rfl
  · rw [if_pos (not_versionKnown_iff.1 hv)]
    rfl

theorem parseRequestline_target (http : AdHttp) (ht : tokens 32 line = [m, u, v])
    (hv : VersionKnown v) (hu : TargetForm u) :
    parseRequestline http line =
      (if isValidPathname (decodedPath u) then .requestlineDone else .error,
        lineStored http m u v) := by
  have hsome : requestTokens line = some (m, u, v) := by rw [requestTokens_eq, ht]
  have hsupported := fun h => not_versionKnown_iff.2 h hv
  have hpath : cstr (UrlDecoder.qurlDecode (rawPath (targetUri u))) = decodedPath u := rfl
  simp only [parseRequestline, hsome, if_neg hsupported, divideUri_of_form hu, divideQuery_eq, hpath,
    lineStored]
  cases isValidPathname (decodedPath u) <;> cases targetHost u <;>
    simp [AdHttp.putHeader, AdHttp.setLine]

/-- The lines that are accepted. -/
theorem parseRequestline_accepts_iff (http : AdHttp) (line : Bytes) :
    (parseRequestline http line).1 = .requestlineDone ↔
      ∃ m u v, tokens 32 line = [m, u, v] ∧ VersionKnown v ∧ TargetForm u ∧
        isValidPathname (decodedPath u) = true := by
  by_cases h : ∃ m u v, tokens 32 line = [m, u, v]
  swap
  · have hnone : ∀ m u v, tokens 32 line ≠ [m, u, v] := fun m u v e => h ⟨m, u, v, e⟩
    rw [parseRequestline_of_none http hnone]
    exact ⟨(nomatch ·), fun ⟨m, u, v, e, _⟩ => absurd e (hnone m u v)⟩
  rcases h with ⟨m, u, v, ht⟩
  have huniq : (∃ m' u' v', tokens 32 line = [m', u', v'] ∧ VersionKnown v' ∧ TargetForm u' ∧
      isValidPathname (decodedPath u') = true) ↔
        (VersionKnown v ∧ TargetForm u) ∧ isValidPathname (decodedPath u) = true := by
    constructor
    · rintro ⟨m', u', v', ht', hv, hu, hp⟩
      rw [ht] at ht'
      cases ht'
      exact ⟨⟨hv, hu⟩, hp⟩
    · exact fun ⟨⟨hv, hu⟩, hp⟩ => ⟨m, u, v, ht, hv, hu, hp⟩
  rw [huniq]
  by_cases hk : VersionKnown v ∧ TargetForm u
  · rw [parseRequestline_target http ht hk.1 hk.2]
    simp [hk]
  · rw [parseRequestline_unknown http ht hk]
    simp [hk]

/-! ## The grammar -/

/-- The line is a request line, whatever the length of the path. -/
structure LineForm (line m u v : Bytes) : Prop where
  tokens : tokens 32 line = [m, u, v]
  version : VersionKnown v
  target : TargetForm u
  path : PathAllowed (decodedPath u)

/-- The request lines. -/
def Grammatical (line : Bytes) : Prop :=
  ∃ m u v, LineForm line m u v ∧ (decodedPath u).length < pathMax

/-- The path is too long, and its length as an `int` is not. -/
def LengthWraps (p : Bytes) : Prop := pathMax ≤ p.length ∧ intLen p ≠ 0 ∧ intLen p < pathMax

/-- The parser accepts the line exactly if it is one of the grammar, and then stores its method and
its query. -/
structure LineLaw (line : Bytes) : Prop where
  accepts : (parseRequestline freshHttp line).1 = .requestlineDone ↔ Grammatical line
  refuses : ¬Grammatical line → (parseRequestline freshHttp line).1 = .error
  stored : (parseRequestline freshHttp line).1 = .requestlineDone →
    ∀ m u v, tokens 32 line = [m, u, v] →
      (parseRequestline freshHttp line).2.request.method = some (qstrupper m) ∧
      ∃ uri, (parseRequestline freshHttp line).2.request.uri = some uri ∧
        (parseRequestline freshHttp line).2.request.query = some (rawQuery uri)

theorem parseRequestline_stored {http : AdHttp}
    (hacc : (parseRequestline http line).1 = .requestlineDone) (ht : tokens 32 line = [m, u, v]) :
    (parseRequestline http line).2 = lineStored http m u v ∧
      isValidPathname (decodedPath u) = true := by
  rcases (parseRequestline_accepts_iff http line).1 hacc with ⟨m', u', v', ht', hv, hu, hp⟩
  rw [ht] at ht'
  cases ht'
  exact ⟨by rw [parseRequestline_target http ht hv hu], hp⟩

theorem lineForm_accepts (http : AdHttp) (h : LineForm line m u v) :
    (parseRequestline http line).1 = .requestlineDone ↔
      intLen (decodedPath u) ≠ 0 ∧ intLen (decodedPath u) < pathMax := by
  rw [parseRequestline_target http h.tokens h.version h.target]
  have hvalid := isValidPathname_iff (decodedPath u)
  simp only [decodedPath_head u, h.path, and_true] at hvalid
  rw [← hvalid]
  cases isValidPathname (decodedPath u) <;> simp

theorem intLen_of_short (u : Bytes) (h : (decodedPath u).length < pathMax) :
    intLen (decodedPath u) ≠ 0 ∧ intLen (decodedPath u) < pathMax := by
  have hpos : 0 < (decodedPath u).length := by
    rw [List.length_pos_iff]
    intro e
    have := decodedPath_head u
    rw [e] at this
    cases this
  have hlt : (decodedPath u).length < 2 ^ 31 := h.trans (by decide)
  rw [intLen_of_lt hlt]
  omega

theorem LineLaw.not_wraps (h : LineLaw line) (hform : LineForm line m u v) :
    ¬LengthWraps (decodedPath u) := by
  intro hwrap
  rcases h.accepts.1 ((lineForm_accepts _ hform).2 hwrap.2) with ⟨m', u', v', hform', hlt⟩
  have ht := hform.tokens.symm.trans hform'.tokens
  cases ht
  exact absurd hlt (not_lt.2 hwrap.1)

/-- The parser keeps to the grammar exactly where the length of the path does not wrap around. -/
theorem lineLaw_iff (line : Bytes) :
    LineLaw line ↔ ∀ m u v, LineForm line m u v → ¬LengthWraps (decodedPath u) := by
  refine ⟨fun h m u v hform => h.not_wraps hform, ?_⟩
  · intro h
    have hacc : (parseRequestline freshHttp line).1 = .requestlineDone ↔ Grammatical line := by
      constructor
      · intro hdone
        rcases (parseRequestline_accepts_iff _ _).1 hdone with ⟨m, u, v, ht, hv, hu, hp⟩
        have hvalid := (isValidPathname_iff _).1 hp
        have hform : LineForm line m u v := ⟨ht, hv, hu, hvalid.2.2.2⟩
        refine ⟨m, u, v, hform, ?_⟩
        by_contra hge
        exact h m u v hform ⟨not_lt.1 hge, hvalid.1, hvalid.2.1⟩
      · rintro ⟨m, u, v, hform, hlt⟩
        exact (lineForm_accepts _ hform).2 (intLen_of_short u hlt)
    refine ⟨hacc, fun hn => ?_, fun hdone m u v ht => ?_⟩
    · have hst : (parseRequestline freshHttp line).1 ≠ .requestlineDone := fun e => hn (hacc.1 e)
      rcases parseRequestline_spec freshHttp line with ⟨st, l, -, hline, hl⟩
      have h₀ : parseRequestline freshHttp line = (st, freshHttp.setLine l) := hl []
      rw [h₀] at hst ⊢
      exact hline.resolve_right fun e => hst e.1
    · rw [(parseRequestline_stored hdone ht).1]
      exact ⟨rfl, _, rfl, rfl⟩

end

/-! ## A long line -/

/-- A request for a path of `n` slashes. -/
def slashLine (n : ℕ) : Bytes := bytes "GET " ++ List.replicate n 47 ++ bytes " HTTP/1.1"

theorem slashLine_tokens {n : ℕ} (hn : n ≠ 0) :
    tokens 32 (slashLine n) = [bytes "GET", List.replicate n 47, bytes "HTTP/1.1"] := by
  have hline : slashLine n =
      bytes "GET" ++ 32 :: (List.replicate n 47 ++ 32 :: bytes "HTTP/1.1") := by
    simp [slashLine, bytes]
  rw [hline, tokens_append (by decide) (by decide), tokens_append (by simpa using hn) (by simp),
    tokens_single (by decide) (by decide)]

theorem slashes_decoded {n : ℕ} (hn : n ≠ 0) :
    @decodedPath percentDecoder (List.replicate n 47) = List.replicate n 47 := by
  have huri : targetUri (List.replicate n 47) = List.replicate n 47 := by
    simp [targetUri, List.head?_replicate, hn]
  have hraw : rawPath (List.replicate n 47) = List.replicate n 47 := by simp [rawPath]
  have hdecode : percentDecodeAux 0 (List.replicate n 47) = List.replicate n 47 := by
    clear hn huri hraw
    induction n with
    | zero => rfl
    | succ n ih =>
      rw [List.replicate_succ, percentDecodeAux, if_neg (by decide), if_neg (by decide), ih]
  have hpath : @decodedPath percentDecoder (List.replicate n 47) =
      cstr (percentDecodeAux 0 (rawPath (targetUri (List.replicate n 47)))) := rfl
  rw [hpath, huri, hraw, hdecode]
  exact cstr_of_not_mem (by simp)

theorem slashes_allowed (n : ℕ) : PathAllowed (List.replicate n 47) := by
  refine ⟨fun c hc => ?_, fun w hw => ?_⟩
  · rw [List.eq_of_mem_replicate hc]
    decide
  · suffices h : w = [] by simp [h]
    induction n with
    | zero => simpa using hw
    | succ n ih =>
      rw [List.replicate_succ, List.splitOn_eq_splitOnP, List.splitOnP_cons_eq_if_modifyHead,
        if_pos (by decide), List.mem_cons] at hw
      exact hw.elim id fun hw => ih (by rwa [List.splitOn_eq_splitOnP])

theorem slashLine_form {n : ℕ} (hn : n ≠ 0) :
    @LineForm percentDecoder (slashLine n) (bytes "GET") (List.replicate n 47)
      (bytes "HTTP/1.1") := by
  let _ := percentDecoder
  refine ⟨slashLine_tokens hn, Or.inr (Or.inr (by decide)), Or.inl ?_, ?_⟩
  · rw [List.head?_replicate, if_neg hn]
  · rw [slashes_decoded hn]
    exact slashes_allowed n

/-- The length `2 ^ 31` is negative as an `int`. -/
theorem slashLine_accepted : (∀ c ∈ slashLine (2 ^ 31), c ≠ 0 ∧ c ≠ 10) ∧
    ¬@LineLaw percentDecoder (slashLine (2 ^ 31)) := by
  refine ⟨fun c hc => ?_, fun h => ?_⟩
  · rw [slashLine, List.mem_append, List.mem_append, List.mem_replicate] at hc
    rcases hc with (hc | ⟨-, rfl⟩) | hc
    · revert c
      decide +kernel
    · decide
    · revert c
      decide +kernel
  have hn : 2 ^ 31 ≠ 0 := by omega
  have hint : intLen (List.replicate (2 ^ 31) 47) = -2 ^ 31 := by
    unfold intLen
    rw [List.length_replicate]
    rfl
  apply @LineLaw.not_wraps percentDecoder _ _ _ _ h (slashLine_form hn)
  rw [slashes_decoded hn]
  refine ⟨?_, ?_, ?_⟩
  · rw [List.length_replicate]
    decide
  · rw [hint]
    decide
  · rw [hint]
    decide

end Asyncd
