import Asyncd.Lib.Squeeze
import Asyncd.Http.Grammar

/-!
# The stored path

The loop of `correctPathname` leaves one slash of each run (`collapse_eq`), so that what is stored of an
accepted path is its `cleaned` form, without a slash at its end.  Dropping that slash can uncover white
space that was in front of it, and where the length of the path wraps around, the path is cut elsewhere
or not at all: `SlashSafe` says when the stored path is `Canonical`.
-/

open CString

namespace Asyncd

/-! ## Runs of slashes -/

/-- Not two slashes in a row. -/
def notSlashes (a b : UInt8) : Prop := ¬(a = 47 ∧ b = 47)

instance : DecidableRel notSlashes := fun a b => inferInstanceAs (Decidable (¬(a = 47 ∧ b = 47)))

/-- One pass from left to right that drops each slash behind a slash. -/
def squeeze (p : Bytes) : Bytes := p.destutter notSlashes

theorem bytes_slashes : bytes "//" = [47, 47] := rfl

theorem not_slashes_iff (p : Bytes) : ¬bytes "//" <:+: p ↔ p.IsChain notSlashes := by
  rw [bytes_slashes, List.isChain_iff_forall_rel_of_append_cons_cons]
  constructor
  · rintro h a b l₁ l₂ rfl ⟨rfl, rfl⟩
    exact h ⟨l₁, l₂, by simp⟩
  · rintro h ⟨l₁, l₂, e⟩
    have hp : p = l₁ ++ 47 :: 47 :: l₂ := by simp [← e]
    exact h hp ⟨rfl, rfl⟩

theorem squeeze_isChain (p : Bytes) : (squeeze p).IsChain notSlashes := List.isChain_destutter _ _

theorem squeeze_of_isChain {p : Bytes} (h : p.IsChain notSlashes) : squeeze p = p :=
  List.destutter_of_isChain _ _ h

theorem mem_of_mem_squeeze {p : Bytes} {c : UInt8} (h : c ∈ squeeze p) : c ∈ p :=
  (List.destutter_sublist _ p).subset h

theorem squeeze_head (p : Bytes) : (squeeze p).head? = p.head? := by
  cases p with
  | nil => rfl
  | cons c p =>
    induction p with
    | nil => rfl
    | cons d p ih =>
      rw [squeeze, List.destutter_cons_cons]
      split_ifs
      · rfl
      · exact ih

/-- A slash that is dropped stands behind one that is kept. -/
theorem squeeze_getLast (p : Bytes) : (squeeze p).getLast? = p.getLast? := by
  cases p with
  | nil => rfl
  | cons c p =>
    induction p generalizing c with
    | nil => rfl
    | cons d p ih =>
      rw [squeeze, List.destutter_cons_cons, List.getLast?_cons_cons]
      split_ifs with h
      · rw [← ih d, squeeze, List.destutter_cons']
        rcases List.exists_cons_of_ne_nil (List.destutter'_ne_nil p notSlashes (a := d)) with ⟨x, l, e⟩
        rw [e, List.getLast?_cons_cons]
      · rcases not_not.1 h with ⟨rfl, rfl⟩
        exact ih 47

/-! ## The loop -/

theorem qstrreplace_slashes (s : Bytes) :
    qstrreplace (47 :: 47 :: s) (bytes "//") (bytes "/") =
      47 :: qstrreplace s (bytes "//") (bytes "/") := by
  simp [qstrreplace, qstrreplaceAux, bytes, List.isPrefixOf]

theorem qstrreplace_other {c : UInt8} {s : Bytes} (h : ¬(c = 47 ∧ s.head? = some 47)) :
    qstrreplace (c :: s) (bytes "//") (bytes "/") =
      c :: qstrreplace s (bytes "//") (bytes "/") := by
  have hpre : ¬(bytes "//").isPrefixOf (c :: s) = true := by
    intro hp
    rcases List.isPrefixOf_iff_prefix.1 hp with ⟨t, e⟩
    cases e
    exact h ⟨rfl, rfl⟩
  rw [qstrreplace, qstrreplaceAux, if_neg hpre]
  rfl

theorem slashes_cases (s : Bytes) :
    s = [] ∨ (∃ t, s = 47 :: 47 :: t) ∨ ∃ c t, s = c :: t ∧ ¬(c = 47 ∧ t.head? = some 47) := by
  rcases s with - | ⟨c, t⟩
  · exact Or.inl rfl
  by_cases hc : c = 47 ∧ t.head? = some 47
  · rcases t with - | ⟨d, t⟩
    · cases hc.2
    rcases hc with ⟨rfl, hd⟩
    obtain rfl : d = 47 := by simpa using hd
    exact Or.inr (Or.inl ⟨t, rfl⟩)
  · exact Or.inr (Or.inr ⟨c, t, rfl, hc⟩)

/-- Replacing double slashes does not change what is left when the runs are squeezed. -/
theorem destutter'_qstrreplace (a : UInt8) (s : Bytes) :
    (qstrreplace s (bytes "//") (bytes "/")).destutter' notSlashes a = s.destutter' notSlashes a := by
  induction hn : s.length using Nat.strongRecOn generalizing a s with
  | ind n ih =>
    subst hn
    rcases slashes_cases s with rfl | ⟨t, rfl⟩ | ⟨c, t, rfl, hc⟩
    · rfl
    · have ih' := fun a => ih t.length (by simp only [List.length_cons]; omega) a t rfl
      have hpos : ¬notSlashes 47 47 := fun h => h ⟨rfl, rfl⟩
      rw [qstrreplace_slashes, List.destutter'_cons, List.destutter'_cons,
        List.destutter'_cons_neg _ hpos, ih', ih']
      split_ifs with ha
      · rfl
      · rcases not_not.1 ha with ⟨rfl, -⟩
        rw [List.destutter'_cons_neg _ hpos]
    · rw [qstrreplace_other hc, List.destutter'_cons, List.destutter'_cons]
      simp only [ih t.length (by simp) _ t rfl]

theorem squeeze_qstrreplace (s : Bytes) :
    squeeze (qstrreplace s (bytes "//") (bytes "/")) = squeeze s := by
  rcases slashes_cases s with rfl | ⟨t, rfl⟩ | ⟨c, t, rfl, hc⟩
  · rfl
  · rw [qstrreplace_slashes, squeeze, squeeze, List.destutter_cons', List.destutter_cons',
      destutter'_qstrreplace, List.destutter'_cons_neg _ (by simp [notSlashes])]
  · rw [qstrreplace_other hc, squeeze, squeeze, List.destutter_cons', List.destutter_cons',
      destutter'_qstrreplace]

/-- The loop of `correctPathname` is one pass. -/
theorem collapse_eq (p : Bytes) : Loop.exec collapseStep_decreasing p = squeeze p := by
  refine Loop.exec_induct collapseStep_decreasing (R := fun s b => b = squeeze s) ?_ ?_ p
  · intro s b hs
    unfold collapseStep at hs
    split_ifs at hs with h
    cases hs
    rw [strstr_isSome_iff, not_slashes_iff] at h
    exact (squeeze_of_isChain h).symm
  · intro s s' hs ih
    unfold collapseStep at hs
    split_ifs at hs with h
    cases hs
    rw [ih, squeeze_qstrreplace]

theorem onePass_eq_squeeze (p : Bytes) : Squeeze.onePass 47 none p = squeeze p :=
  Squeeze.onePass_none (fun _ _ => Iff.rfl) p

/-- The loop of `correctPathname` ends on every string, with what one pass from left to right leaves
when it drops each slash behind a slash: one slash for each maximal run of them. -/
theorem collapse_onePass (p : Bytes) :
    (∃ n ≤ p.length, Loop.Ends collapseStep n p (Squeeze.onePass 47 none p)) ∧
      Loop.exec collapseStep_decreasing p = Squeeze.onePass 47 none p ∧
      ∃ parts, Squeeze.Runs 47 p parts ∧
        Squeeze.onePass 47 none p = (parts.map (Squeeze.single 47)).flatten := by
  have hloop : Loop.exec collapseStep_decreasing p = Squeeze.onePass 47 none p := by
    rw [collapse_eq, onePass_eq_squeeze]
  obtain ⟨parts, hparts⟩ := Squeeze.exists_runs 47 p
  refine ⟨?_, hloop, parts, hparts, hparts.onePass_eq fun _ _ _ => by simp⟩
  rw [← hloop]
  exact Loop.exec_ends collapseStep_decreasing p

/-! ## Clean paths -/

/-- A path without surrounding white space and with its runs of slashes squeezed. -/
def cleaned (p : Bytes) : Bytes := squeeze (qstrtrim p)

theorem correctPathname_eq (p : Bytes) :
    correctPathname p =
      if intLen (cleaned p) ≤ 1 then cleaned p
      else if (cleaned p)[(intLen (cleaned p) - 1).toNat]? = some 47 then
        (cleaned p).take (intLen (cleaned p) - 1).toNat
      else cleaned p := by
  simp only [correctPathname, collapse_eq, cleaned]
  rfl

/-- What holds of every cleaned path. -/
structure Clean (p : Bytes) : Prop where
  slash : p.head? = some 47
  squeezed : p.IsChain notSlashes
  trail : ∀ c ∈ p.getLast?, isSpace c = false

theorem qstrtrim_of_slash {p : Bytes} (h : p.head? = some 47) :
    qstrtrim p = p.rdropWhile isSpace := by
  rcases p with - | ⟨c, p⟩
  · cases h
  obtain rfl : c = 47 := by simpa using h
  rw [qstrtrim, List.dropWhile_cons_of_neg (by decide)]

theorem clean_cleaned {p : Bytes} (h : p.head? = some 47) : Clean (cleaned p) := by
  have hne : p.rdropWhile isSpace ≠ [] := by
    rw [ne_eq, List.rdropWhile_eq_nil_iff]
    exact fun hall => absurd (hall 47 (List.mem_of_mem_head? h)) (by decide)
  refine ⟨?_, squeeze_isChain _, fun c hc => ?_⟩
  · rw [cleaned, squeeze_head, qstrtrim_of_slash h]
    rcases List.rdropWhile_prefix isSpace (l := p) with ⟨t, e⟩
    rcases List.exists_cons_of_ne_nil hne with ⟨c, l, e'⟩
    rw [e'] at e ⊢
    rw [← e] at h
    simpa using h
  · rw [cleaned, squeeze_getLast, qstrtrim_of_slash h, List.getLast?_eq_some_getLast hne] at hc
    have hlast := List.rdropWhile_last_not isSpace p hne
    cases hc
    simpa using hlast

theorem intLen_eq_length {p : Bytes} (h : p.length < pathMax) : intLen p = p.length :=
  intLen_of_lt (h.trans (by decide))

theorem correctPathname_of_clean {p : Bytes} (h : Clean p) (hlen : p.length < pathMax)
    (htail : p.getLast? = some 47 → p = [47]) : correctPathname p = p := by
  have hne : p ≠ [] := by
    rintro rfl
    cases h.slash
  have htrim : p.rdropWhile isSpace = p := by
    rw [List.rdropWhile_eq_self_iff]
    intro hl
    simpa using h.trail _ (List.getLast?_eq_some_getLast hl)
  have hclean : cleaned p = p := by
    rw [cleaned, qstrtrim_of_slash h.slash, htrim, squeeze_of_isChain h.squeezed]
  rw [correctPathname_eq, hclean, intLen_eq_length hlen]
  split_ifs with h1 h2
  · rfl
  · have hlast : (p.length - 1 : ℤ).toNat = p.length - 1 := by omega
    rw [hlast, ← List.getLast?_eq_getElem?] at h2
    rw [htail h2] at h1
    simp at h1
  · rfl

/-! ## Canonical paths -/

/-- A path in canonical form. -/
structure Canonical (p : Bytes) : Prop where
  slash : p.head? = some 47
  single : ¬bytes "//" <:+: p
  tail : p.getLast? = some 47 → p = bytes "/"
  lead : ∀ c ∈ p.head?, isSpace c = false
  trail : ∀ c ∈ p.getLast?, isSpace c = false
  chars : ∀ c ∈ p, c ∉ forbiddenChars
  short : p.length < pathMax
  stable : correctPathname p = p

theorem canonical_iff_of_clean {p : Bytes} (h : Clean p) (hchars : ∀ c ∈ p, c ∉ forbiddenChars) :
    Canonical p ↔ p.length < pathMax ∧ (p.getLast? = some 47 → p = [47]) := by
  refine ⟨fun hc => ⟨hc.short, hc.tail⟩, fun ⟨hlen, htail⟩ => ?_⟩
  refine ⟨h.slash, (not_slashes_iff p).2 h.squeezed, htail, fun c hc => ?_, h.trail, hchars, hlen,
    correctPathname_of_clean h hlen htail⟩
  rw [h.slash] at hc
  cases hc
  rfl

/-- The slash at the end of a cleaned path can be dropped without uncovering white space, and its
length is small. -/
def SlashSafe (p : Bytes) : Prop :=
  p = [47] ∨ (p.length < pathMax ∧ p.getLast? ≠ some 47) ∨
    (2 ≤ intLen p ∧ intLen p ≤ pathMax ∧ p[(intLen p - 1).toNat]? = some 47 ∧
      ∀ a ∈ p[(intLen p - 2).toNat]?, isSpace a = false)

/-- What is left of a clean path when it is cut at the slash at position `n + 1`. -/
theorem clean_take_iff {p : Bytes} (h : Clean p) {n : ℕ} (hn : p[n + 1]? = some 47) :
    Clean (p.take (n + 1)) ↔ ∀ a ∈ p[n]?, isSpace a = false := by
  rcases List.getElem?_eq_some_iff.1 hn with ⟨hlt, hget⟩
  have hlast : (p.take (n + 1)).getLast? = p[n]? := by
    rw [List.getLast?_take, if_neg (Nat.succ_ne_zero n), Nat.add_sub_cancel,
      List.getElem?_eq_getElem (by omega)]
    rfl
  refine ⟨fun hc a ha => hc.trail a (by rwa [hlast]), fun hs => ⟨?_, h.squeezed.take _, ?_⟩⟩
  · rw [List.head?_take, if_neg (Nat.succ_ne_zero n)]
    exact h.slash
  · rwa [hlast]

theorem take_getLast_ne {p : Bytes} (h : Clean p) {n : ℕ} (hn : p[n + 1]? = some 47) :
    (p.take (n + 1)).getLast? ≠ some 47 := by
  rcases List.getElem?_eq_some_iff.1 hn with ⟨hlt, hget⟩
  rw [List.getLast?_take, if_neg (Nat.succ_ne_zero n), Nat.add_sub_cancel,
    List.getElem?_eq_getElem (by omega)]
  intro e
  have hpair := List.isChain_iff_getElem.1 h.squeezed n (by omega)
  exact hpair ⟨by simpa using e, hget⟩

theorem Clean.length_pos {p : Bytes} (h : Clean p) : 0 < p.length := by
  apply List.length_pos_of_ne_nil
  rintro rfl
  cases h.slash

/-- Nothing is dropped from a path that counts as one character or less: it is a single slash, or its
length wraps around. -/
theorem canonical_iff_of_intLen_le {p : Bytes} (h : Clean p) (hchars : ∀ c ∈ p, c ∉ forbiddenChars)
    (hlen : intLen p ≤ 1) : Canonical p ↔ SlashSafe p := by
  rw [canonical_iff_of_clean h hchars]
  constructor
  · rintro ⟨hlt, -⟩
    have hpos := h.length_pos
    rw [intLen_eq_length hlt] at hlen
    obtain ⟨a, rfl⟩ := List.length_eq_one_iff.1 (show p.length = 1 by omega)
    exact Or.inl (by simpa using h.slash)
  · rintro (rfl | ⟨hlt, hne⟩ | ⟨h2, -⟩)
    · exact ⟨by decide, fun _ => rfl⟩
    · exact ⟨hlt, fun e => absurd e hne⟩
    · omega

theorem canonical_take_iff {p : Bytes} (h : Clean p) (hchars : ∀ c ∈ p, c ∉ forbiddenChars)
    (hlen : ¬intLen p ≤ 1) (hslash : p[(intLen p - 1).toNat]? = some 47) :
    Canonical (p.take (intLen p - 1).toNat) ↔ SlashSafe p := by
  obtain ⟨n, hn⟩ : ∃ n : ℕ, intLen p = n + 2 := ⟨(intLen p - 2).toNat, by omega⟩
  have e1 : (intLen p - 1).toNat = n + 1 := by omega
  have e2 : (intLen p - 2).toNat = n := by omega
  have hle : n + 1 < p.length := by
    have := intLen_le p
    omega
  have hcut : (p.take (n + 1)).length = n + 1 := by
    rw [List.length_take]
    omega
  have hsub : ∀ a ∈ p.take (n + 1), a ∉ forbiddenChars := fun a ha =>
    hchars a (List.mem_of_mem_take ha)
  rw [e1] at hslash ⊢
  have htail := take_getLast_ne h hslash
  unfold SlashSafe
  rw [e1, e2, ← clean_take_iff h hslash]
  constructor
  · intro hc
    refine Or.inr (Or.inr ⟨by omega, ?_, hslash, ?_⟩)
    · have := hc.short
      omega
    · exact ⟨hc.slash, (not_slashes_iff _).1 hc.single, hc.trail⟩
  · rintro (rfl | ⟨hlt, hne⟩ | ⟨-, hshort, -, hclean⟩)
    · simp at hle
    · -- the slash is the last character
      have hint := intLen_eq_length hlt
      have hlast : n + 1 = p.length - 1 := by omega
      rw [hlast, ← List.getLast?_eq_getElem?] at hslash
      exact absurd hslash hne
    · rw [canonical_iff_of_clean hclean hsub, hcut]
      exact ⟨by omega, fun e => absurd e htail⟩

theorem canonical_iff_of_kept {p : Bytes} (h : Clean p) (hchars : ∀ c ∈ p, c ∉ forbiddenChars)
    (hslash : p[(intLen p - 1).toNat]? ≠ some 47) : Canonical p ↔ SlashSafe p := by
  have hlast : p.length < pathMax → p.getLast? ≠ some 47 := by
    intro hlt e
    have hint := intLen_eq_length hlt
    have hend : (intLen p - 1).toNat = p.length - 1 := by omega
    rw [hend, ← List.getLast?_eq_getElem?] at hslash
    exact hslash e
  rw [canonical_iff_of_clean h hchars]
  constructor
  · rintro ⟨hlt, -⟩
    exact Or.inr (Or.inl ⟨hlt, hlast hlt⟩)
  · rintro (rfl | ⟨hlt, hne⟩ | ⟨-, -, h3, -⟩)
    · exact ⟨by decide, fun _ => rfl⟩
    · exact ⟨hlt, fun e => absurd e hne⟩
    · exact absurd h3 hslash

/-- When a cleaned path is stored in canonical form. -/
theorem canonical_correctPathname_iff {p : Bytes} (h : Clean (cleaned p))
    (hchars : ∀ c ∈ cleaned p, c ∉ forbiddenChars) :
    Canonical (correctPathname p) ↔ SlashSafe (cleaned p) := by
  rw [correctPathname_eq]
  split_ifs with hlen hslash
  · exact canonical_iff_of_intLen_le h hchars hlen
  · exact canonical_take_iff h hchars hlen hslash
  · exact canonical_iff_of_kept h hchars hslash

section

variable [UrlDecoder]

/-- The path of an accepted line is stored in canonical form exactly if dropping the slash at its end
is safe. -/
theorem storedPath_canonical_iff {http : AdHttp} {line m u v : Bytes}
    (hacc : (parseRequestline http line).1 = .requestlineDone) (ht : tokens 32 line = [m, u, v]) :
    (∃ p, (parseRequestline http line).2.request.path = some p ∧ Canonical p) ↔
      SlashSafe (cleaned (decodedPath u)) := by
  rcases parseRequestline_stored hacc ht with ⟨hstored, hvalid⟩
  have hpath : (parseRequestline http line).2.request.path =
      some (correctPathname (decodedPath u)) := by
    rw [hstored]
    simp [lineStored, AdHttp.setLine, hvalid]
  have hallowed := ((isValidPathname_iff _).1 hvalid).2.2.2
  have hsub : ∀ c ∈ cleaned (decodedPath u), c ∉ forbiddenChars := by
    intro c hc
    have hmem := mem_of_mem_squeeze hc
    rw [qstrtrim_of_slash (decodedPath_head u)] at hmem
    exact hallowed.chars c ((List.rdropWhile_prefix isSpace _).subset hmem)
  refine Iff.trans ?_ (canonical_correctPathname_iff (clean_cleaned (decodedPath_head u)) hsub)
  simp only [hpath, Option.some.injEq, exists_eq_left']

end

/-- A path without any slash to drop. -/
theorem storedPath_canonical_plain :
    (@parseRequestline percentDecoder freshHttp (bytes "GET /a HTTP/1.1")).1 = .requestlineDone ∧
      ((∃ p, (@parseRequestline percentDecoder freshHttp (bytes "GET /a HTTP/1.1")).2.request.path =
        some p ∧ Canonical p) ↔ SlashSafe (cleaned (@decodedPath percentDecoder (bytes "/a")))) :=
  have hacc : (@parseRequestline percentDecoder freshHttp (bytes "GET /a HTTP/1.1")).1 =
      .requestlineDone := by decide +kernel
  ⟨hacc, @storedPath_canonical_iff percentDecoder _ _ (bytes "GET") _ (bytes "HTTP/1.1") hacc
    (by decide +kernel)⟩

/-- The slash behind an encoded space is dropped, and the space stays. -/
theorem storedPath_space :
    (@parseRequestline percentDecoder freshHttp (bytes "GET /a%20/ HTTP/1.1")).1 =
        .requestlineDone ∧
      (@parseRequestline percentDecoder freshHttp (bytes "GET /a%20/ HTTP/1.1")).2.request.path =
        some (bytes "/a ") ∧
      ¬Canonical (bytes "/a ") := by
  refine ⟨by decide +kernel, by decide +kernel, fun hc => ?_⟩
  exact absurd (hc.trail 32 (by decide)) (by decide)

end Asyncd
