import Asyncd.Http.Grammar

/-!
# Absolute-form targets

A target `scheme://authority` with a path stands for the path, and names the host.  The parser looks for
the end of the authority at the first `/` only: with a query behind the authority and no path, it takes
the query for a part of the host, up to a `/` in it (`absoluteForm_iff`).
-/

open CString

namespace Asyncd

/-- An ASCII letter. -/
def isLetter (c : UInt8) : Bool := (65 ≤ c && c ≤ 90) || (97 ≤ c && c ≤ 122)

/-- The target in origin form for what follows an authority. -/
def originForm (r : Bytes) : Bytes := if r.head? = some 47 then r else 47 :: r

theorem originForm_head (r : Bytes) : (originForm r).head? = some 47 := by
  unfold originForm
  split_ifs with h
  · exact h
  · rfl

theorem targetUri_origin (r : Bytes) : targetUri (originForm r) = originForm r :=
  if_pos (originForm_head r)

theorem afterScheme_append {s : Bytes} (hs : ∀ c ∈ s, isLetter c = true) (x : Bytes) :
    afterScheme (s ++ (bytes "://" ++ x)) = x := by
  have hfind : (s ++ (bytes "://" ++ x)).tails.find? (bytes "://").isPrefixOf =
      some (bytes "://" ++ x) := by
    induction s with
    | nil => simp [bytes, List.isPrefixOf]
    | cons c s ih =>
      obtain ⟨hc, hs⟩ := List.forall_mem_cons.1 hs
      have hne : (bytes "://").isPrefixOf (c :: (s ++ (bytes "://" ++ x))) = false := by
        have hcolon : (58 == c) = false := by
          rw [beq_eq_false_iff_ne]
          rintro rfl
          exact absurd hc (by decide)
        simp [bytes, List.isPrefixOf, hcolon]
      rw [List.cons_append, List.tails, List.find?_cons, hne]
      exact ih hs
  rw [afterScheme, hfind]
  simp [bytes]

theorem absolute_head {s : Bytes} (hs : ∀ c ∈ s, isLetter c = true) (x : Bytes) :
    (s ++ (bytes "://" ++ x)).head? ≠ some 47 := by
  rcases s with - | ⟨c, s⟩
  · simp [bytes]
  · intro e
    obtain rfl : c = 47 := by simpa using e
    exact absurd (hs 47 (by simp)) (by decide)

variable {s a r m v line line' : Bytes}

theorem targetHost_absolute (hs : ∀ c ∈ s, isLetter c = true) (ha : 47 ∉ a) :
    targetHost (s ++ (bytes "://" ++ (a ++ r))) = some (a ++ r.takeWhile (· != 47)) := by
  have hall : ∀ c ∈ a, (c != 47) = true := fun c hc => bne_iff_ne.2 fun e => ha (e ▸ hc)
  rw [targetHost, if_neg (absolute_head hs _), afterScheme_append hs,
    List.takeWhile_append_of_pos hall]

theorem targetUri_absolute (hs : ∀ c ∈ s, isLetter c = true) (ha : 47 ∉ a) :
    targetUri (s ++ (bytes "://" ++ (a ++ r))) =
      if 47 ∈ r then r.dropWhile (· != 47) else [47] := by
  have hall : ∀ c ∈ a, (c != 47) = true := fun c hc => bne_iff_ne.2 fun e => ha (e ▸ hc)
  rw [targetUri, if_neg (absolute_head hs _), afterScheme_append hs,
    List.dropWhile_append_of_pos hall]
  simp only [List.mem_append, ha, false_or]

theorem targetForm_absolute (s x : Bytes) : TargetForm (s ++ (bytes "://" ++ x)) :=
  Or.inr ⟨s, x, by rw [List.append_assoc]⟩

/-- Without a query directly behind the authority, both forms name the same URI. -/
theorem targetUri_absolute_eq (hs : ∀ c ∈ s, isLetter c = true) (ha : 47 ∉ a)
    (hr : r = [] ∨ r.head? = some 47) :
    targetUri (s ++ (bytes "://" ++ (a ++ r))) = originForm r := by
  rw [targetUri_absolute hs ha]
  rcases hr with rfl | hr
  · rfl
  · rcases r with - | ⟨c, r⟩
    · cases hr
    obtain rfl : c = 47 := by simpa using hr
    rfl

section

variable [UrlDecoder]

/-- The two lines are accepted alike, leave the same strings, and the first one leaves the authority as
the Host entry. -/
structure SameTarget (http : AdHttp) (line line' a : Bytes) : Prop where
  accepts : (parseRequestline http line).1 = .requestlineDone ↔
    (parseRequestline http line').1 = .requestlineDone
  method : (parseRequestline http line).2.request.method =
    (parseRequestline http line').2.request.method
  httpver : (parseRequestline http line).2.request.httpver =
    (parseRequestline http line').2.request.httpver
  path : (parseRequestline http line).2.request.path = (parseRequestline http line').2.request.path
  query : (parseRequestline http line).2.request.query =
    (parseRequestline http line').2.request.query
  host : (parseRequestline http line).2.request.headers.getstr (bytes "Host") = some a

theorem parseRequestline_host (http : AdHttp) {x : Bytes}
    (ht : tokens 32 line = [m, s ++ (bytes "://" ++ x), v]) (hv : VersionKnown v)
    (hs : ∀ c ∈ s, isLetter c = true) :
    (parseRequestline http line).2.request.headers.getstr (bytes "Host") =
      targetHost (s ++ (bytes "://" ++ x)) := by
  rw [parseRequestline_target http ht hv (targetForm_absolute s x)]
  simp only [lineStored, AdHttp.setLine, targetHost, if_neg (absolute_head hs x)]
  exact Qlisttbl.getstr_putstr_of_eq _ _ (by decide)

/-- With a version that is not supported, both lines are refused before their targets are looked at: the
Host entry is the one that was there. -/
theorem sameTarget_iff_of_unknown (http : AdHttp) {u u' : Bytes} (hv : ¬VersionKnown v)
    (ht : tokens 32 line = [m, u, v]) (ht' : tokens 32 line' = [m, u', v]) :
    SameTarget http line line' a ↔ http.request.headers.getstr (bytes "Host") = some a := by
  have h := parseRequestline_unknown http ht fun h => hv h.1
  have h' := parseRequestline_unknown http ht' fun h => hv h.1
  have hhost : (parseRequestline http line).2.request.headers = http.request.headers := by
    rw [h]
    rfl
  constructor
  · intro hsame
    rw [← hhost]
    exact hsame.host
  · intro hold
    rw [← hhost] at hold
    constructor <;> first | exact hold | rw [h, h']

theorem sameTarget_of_path (http : AdHttp) (hs : ∀ c ∈ s, isLetter c = true) (ha : 47 ∉ a)
    (hr : r = [] ∨ r.head? = some 47) (hv : VersionKnown v)
    (ht : tokens 32 line = [m, s ++ (bytes "://" ++ (a ++ r)), v])
    (ht' : tokens 32 line' = [m, originForm r, v]) : SameTarget http line line' a := by
  have huri := targetUri_absolute_eq (r := r) hs ha hr
  have hpath : decodedPath (s ++ (bytes "://" ++ (a ++ r))) = decodedPath (originForm r) := by
    rw [decodedPath, decodedPath, huri, targetUri_origin]
  have h := parseRequestline_target http ht hv (targetForm_absolute s (a ++ r))
  have h' := parseRequestline_target http ht' hv (Or.inl (originForm_head r))
  rw [hpath] at h
  refine ⟨by rw [h, h'], ?_, ?_, ?_, ?_, ?_⟩
  · rw [h, h']
    rfl
  · rw [h, h']
    rfl
  · rw [h, h']
    simp only [lineStored, AdHttp.setLine, hpath]
  · rw [h, h']
    simp only [lineStored, AdHttp.setLine, huri, targetUri_origin]
  · rw [parseRequestline_host http ht hv hs, targetHost_absolute hs ha]
    rcases hr with rfl | hr
    · simp
    · rcases r with - | ⟨c, r⟩
      · cases hr
      obtain rfl : c = 47 := by simpa using hr
      simp

/-- Absolute form and origin form are equivalent exactly if the version is supported and no query stands
directly behind the authority.  With a version that is not supported, the Host entry is the authority only
if it was before the line was parsed. -/
theorem absoluteForm_iff (http : AdHttp) (hs : ∀ c ∈ s, isLetter c = true)
    (ha : ∀ c ∈ a, c ≠ 47 ∧ c ≠ 63 ∧ c ≠ 35)
    (hr : r = [] ∨ r.head? = some 47 ∨ r.head? = some 63)
    (ht : tokens 32 line = [m, s ++ (bytes "://" ++ (a ++ r)), v])
    (ht' : tokens 32 line' = [m, originForm r, v]) :
    SameTarget http line line' a ↔
      (VersionKnown v ∧ r.head? ≠ some 63) ∨
        (¬VersionKnown v ∧ http.request.headers.getstr (bytes "Host") = some a) := by
  have hslash : 47 ∉ a := fun h => (ha 47 h).1 rfl
  by_cases hv : VersionKnown v
  swap
  · simp only [hv, false_and, false_or, not_false_eq_true, true_and]
    exact sameTarget_iff_of_unknown http hv ht ht'
  simp only [hv, true_and, not_true_eq_false, false_and, or_false]
  constructor
  · intro h hq
    have hhost := parseRequestline_host http ht hv hs
    rw [targetHost_absolute hs hslash, h.host, Option.some.injEq,
      List.self_eq_append_right] at hhost
    rcases r with - | ⟨c, r⟩
    · cases hq
    obtain rfl : c = 63 := by simpa using hq
    cases hhost
  · intro hq
    have hpath : r = [] ∨ r.head? = some 47 := by
      rcases hr with h | h | h
      · exact Or.inl h
      · exact Or.inr h
      · exact absurd h hq
    exact sameTarget_of_path http hs hslash hpath hv ht ht'

end

/-- A path behind the authority. -/
theorem absoluteForm_path :
    @SameTarget percentDecoder freshHttp (bytes "GET http://a/b HTTP/1.1") (bytes "GET /b HTTP/1.1")
      (bytes "a") := by
  have ht : tokens 32 (bytes "GET http://a/b HTTP/1.1") =
      [bytes "GET", bytes "http" ++ (bytes "://" ++ (bytes "a" ++ bytes "/b")),
        bytes "HTTP/1.1"] := by decide +kernel
  have ht' : tokens 32 (bytes "GET /b HTTP/1.1") =
      [bytes "GET", originForm (bytes "/b"), bytes "HTTP/1.1"] := by decide +kernel
  have hv : VersionKnown (bytes "HTTP/1.1") := Or.inr (Or.inr (by decide +kernel))
  have hpath : (bytes "/b").head? = some 47 := rfl
  exact (@absoluteForm_iff _ _ _ _ _ _ _ percentDecoder freshHttp (by decide +kernel)
    (by decide +kernel) (Or.inr (Or.inl hpath)) ht ht').2
      (Or.inl ⟨hv, by rw [hpath]; decide⟩)

/-- A slash in a query directly behind the authority: the query becomes a part of the host, and what
follows the slash the path. -/
theorem absoluteForm_query :
    tokens 32 (bytes "GET http://a?x=/y HTTP/1.1") =
        [bytes "GET", bytes "http" ++ (bytes "://" ++ (bytes "a" ++ bytes "?x=/y")),
          bytes "HTTP/1.1"] ∧
      tokens 32 (bytes "GET /?x=/y HTTP/1.1") =
        [bytes "GET", originForm (bytes "?x=/y"), bytes "HTTP/1.1"] ∧
      ¬@SameTarget percentDecoder freshHttp (bytes "GET http://a?x=/y HTTP/1.1")
        (bytes "GET /?x=/y HTTP/1.1") (bytes "a") := by
  refine ⟨by decide +kernel, by decide +kernel, fun h => ?_⟩
  have hpath : (@parseRequestline percentDecoder freshHttp
      (bytes "GET http://a?x=/y HTTP/1.1")).2.request.path = some (bytes "/y") := by decide +kernel
  have hpath' : (@parseRequestline percentDecoder freshHttp
      (bytes "GET /?x=/y HTTP/1.1")).2.request.path = some (bytes "/") := by decide +kernel
  have hsame := hpath.symm.trans ((@SameTarget.path percentDecoder _ _ _ _ h).trans hpath')
  exact absurd hsame (by decide)

end Asyncd
