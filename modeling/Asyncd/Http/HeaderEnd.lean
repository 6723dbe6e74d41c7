import Asyncd.Http.Phases

/-!
# Where the header section ends

`parse_headers` takes lines off the raw bytes and looks at each as a C string, so a line that starts with
a NUL byte counts as an empty one.  `endsAtEmptyLine_iff` says that this is the only way in which the end
of the header section differs from the first empty line.
-/

open CString ByteLines

namespace Asyncd

theorem cstr_eq_nil_iff {b : Bytes} : cstr b = [] ↔ b = [] ∨ b.head? = some 0 := by
  cases b with
  | nil => simp [cstr]
  | cons c b =>
    by_cases hc : c = 0
    · simp [cstr, hc]
    · simp [cstr, hc]

/-- The stream has an empty line behind lines that are not, and `rest` follows it. -/
def EmptyLineAt (stream rest : Bytes) : Prop :=
  ∃ (ls : List Line) (blank : Line), (∀ l ∈ ls, l.text ≠ []) ∧ blank.text = [] ∧
    stream = wireLines ls ++ blank.wire ++ rest

/-- In every segmentation, the header section ends exactly if an empty line has arrived, and with the
first such line. -/
def EndsAtEmptyLine (http : AdHttp) (stream : Bytes) : Prop :=
  ∀ segs : List Bytes, segs.flatten = stream →
    let read := Push.feedAll headerPhase (http, []) segs
    (read.1.request.status = .headerDone ↔ ∃ rest, EmptyLineAt stream rest) ∧
      ∀ rest, EmptyLineAt stream rest → read.2 = rest

/-- No line up to the first empty one starts with a NUL byte. -/
def NoNulLine (stream : Bytes) : Prop :=
  ∀ (ls : List Line) (l : Line) (rest : Bytes), stream = wireLines ls ++ l.wire ++ rest →
    (∀ l' ∈ ls, l'.text ≠ []) → l.text.head? ≠ some 0

theorem noNulLine_of_not_mem {stream : Bytes} (h : 0 ∉ stream) : NoNulLine stream := by
  rintro ls l rest rfl - hhead
  apply h
  obtain ⟨t, ht⟩ := List.head?_eq_some_iff.1 hhead
  simp [Line.wire, ht]

section

variable {http : AdHttp} {stream : Bytes}

theorem NoNulLine.cstr_ne_nil (h : NoNulLine stream) {ls : List Line} {rest : Bytes}
    (hs : stream = wireLines ls ++ rest) (hls : ∀ l ∈ ls, l.text ≠ []) :
    ∀ l ∈ ls, cstr l.text ≠ [] := by
  intro l hl hnil
  obtain ⟨pre, post, rfl⟩ := List.mem_iff_append.1 hl
  rcases cstr_eq_nil_iff.1 hnil with htext | hhead
  · exact hls l hl htext
  · apply h pre l (wireLines post ++ rest) _ (fun l' hl' => hls l' (List.mem_append_left _ hl')) hhead
    simp [hs, wireLines_append]

/-- What has been read of the stream when the header section ends. -/
theorem headerPhase_done (hst : http.request.status = .requestlineDone)
    (hd : (headerPhase http stream).1.request.status = .headerDone) :
    ∃ (ls : List Line) (blank : Line), (∀ l ∈ ls, cstr l.text ≠ []) ∧ cstr blank.text = [] ∧
      stream = wireLines ls ++ blank.wire ++ (headerPhase http stream).2 := by
  rw [headerPhase, if_pos hst] at hd ⊢
  exact parseHeaders_lines hst hd

theorem headerPhase_wire (hst : http.request.status = .requestlineDone) {ls : List Line}
    (hls : ∀ l ∈ ls, cstr l.text ≠ []) {blank : Line} (hb : cstr blank.text = []) (rest : Bytes) :
    headerPhase http (wireLines ls ++ blank.wire ++ rest) =
      ((endHeaders (addHeaders http ls)).setStatus .headerDone, rest) := by
  rw [headerPhase, if_pos hst]
  exact congrArg (fun r => (r.2.1.setStatus r.1, r.2.2)) (parseHeaders_wire hls hb http rest)

theorem NoNulLine.endsAtEmptyLine (h : NoNulLine stream)
    (hst : http.request.status = .requestlineDone) : EndsAtEmptyLine http stream := by
  intro segs hsegs read
  have hread : read = headerPhase http stream := by rw [← hsegs]; exact feedAll_headerPhase http segs
  -- an empty line in the stream is where the loop ends
  have hempty : ∀ rest, EmptyLineAt stream rest →
      (headerPhase http stream).1.request.status = .headerDone ∧
        (headerPhase http stream).2 = rest := by
    rintro rest ⟨ls, blank, hls, hb, hs⟩
    have hls' := h.cstr_ne_nil (hs.trans (List.append_assoc _ _ _)) hls
    rw [hs, headerPhase_wire hst hls' (by rw [hb]; rfl)]
    exact ⟨rfl, rfl⟩
  rw [hread]
  refine ⟨⟨fun hd => ?_, fun ⟨rest, hrest⟩ => (hempty rest hrest).1⟩,
    fun rest hrest => (hempty rest hrest).2⟩
  obtain ⟨ls, blank, hls, hb, hs⟩ := headerPhase_done hst hd
  have hls' : ∀ l ∈ ls, l.text ≠ [] := fun l hl htext => hls l hl (by rw [htext]; rfl)
  refine ⟨_, ls, blank, hls', ?_, hs⟩
  rcases cstr_eq_nil_iff.1 hb with htext | hhead
  · exact htext
  · exact absurd hhead (h ls blank _ hs hls')

/-- Of lines that end with one that is empty as a C string, one is the first such. -/
theorem exists_empty_cstr {ls : List Line} {l : Line} (hl : cstr l.text = []) (rest : Bytes) :
    ∃ pre m post, (∀ p ∈ pre, cstr p.text ≠ []) ∧ cstr m.text = [] ∧ m ∈ ls ++ [l] ∧
      wireLines (ls ++ [l]) ++ rest = wireLines pre ++ m.wire ++ (wireLines post ++ rest) := by
  have hsome : ((ls ++ [l]).find? fun m => cstr m.text = []).isSome := by
    rw [List.find?_isSome]
    exact ⟨l, by simp, by simpa using hl⟩
  obtain ⟨m, hm⟩ := Option.isSome_iff_exists.1 hsome
  rw [List.find?_eq_some_iff_append] at hm
  obtain ⟨hmnil, pre, post, hlines, hpre⟩ := hm
  refine ⟨pre, m, post, by simpa using hpre, of_decide_eq_true hmnil, by simp [hlines], ?_⟩
  rw [hlines, wireLines_append, wireLines_cons]
  simp only [List.append_assoc]

theorem EndsAtEmptyLine.noNulLine (h : EndsAtEmptyLine http stream)
    (hst : http.request.status = .requestlineDone) : NoNulLine stream := by
  intro ls l rest hs hls hhead
  -- the first line that is empty as a C string: the parser ends there
  obtain ⟨pre, m, post, hpre, hmnil, hmem, hwire⟩ :=
    @exists_empty_cstr ls l (cstr_eq_nil_iff.2 (Or.inr hhead)) rest
  have hstream : stream = wireLines pre ++ m.wire ++ (wireLines post ++ rest) := by
    rw [hs, ← hwire, wireLines_append]
    simp [wireLines]
  have hmne : m.text ≠ [] := by
    rcases List.mem_append.1 hmem with hmem | hmem
    · exact hls m hmem
    · rw [List.mem_singleton.1 hmem]
      intro htext
      rw [htext] at hhead
      cases hhead
  have hread := headerPhase_wire hst hpre hmnil (wireLines post ++ rest)
  rw [← hstream] at hread
  -- but there is no empty line there
  obtain ⟨hiff, hleft⟩ := h [stream] (by simp)
  rw [feedAll_headerPhase, List.flatten_singleton, hread] at hiff hleft
  obtain ⟨rest', hrest'⟩ := hiff.1 rfl
  have hsame : wireLines post ++ rest = rest' := hleft rest' hrest'
  obtain ⟨ls', blank, -, hblank, hs'⟩ := hrest'
  rw [← hsame, hstream] at hs'
  have hlast : wireLines (pre ++ [m]) = wireLines (ls' ++ [blank]) := by
    rw [wireLines_append, wireLines_append]
    simpa [wireLines] using List.append_cancel_right hs'
  have hmb : m = blank := by
    have := (List.append_inj' (wireLines_injective hlast) rfl).2
    simpa using this
  exact hmne (hmb ▸ hblank)

end

/-- The header section ends with the first empty line, in every segmentation, exactly if no line up to
there starts with a NUL byte. -/
theorem endsAtEmptyLine_iff {http : AdHttp} (hst : http.request.status = .requestlineDone)
    (stream : Bytes) : EndsAtEmptyLine http stream ↔ NoNulLine stream :=
  ⟨fun h => h.noNulLine hst, fun h => h.endsAtEmptyLine hst⟩

/-- A header line and the empty line. -/
theorem endsAtEmptyLine_plain :
    EndsAtEmptyLine (freshHttp.setStatus .requestlineDone) (bytes "A: b\r\n\r\nbody") := by
  apply (endsAtEmptyLine_iff rfl _).2
  exact noNulLine_of_not_mem (by decide)

/-- A line of one NUL byte ends the header section, and there is no empty line. -/
theorem nul_line_ends_headers :
    ¬EndsAtEmptyLine (freshHttp.setStatus .requestlineDone) [0, 10] := by
  intro h
  have hline := h.noNulLine rfl [] ⟨[0], [10], by decide, Or.inr ⟨rfl, by decide⟩⟩ [] rfl
    fun l hl => absurd hl List.not_mem_nil
  exact hline rfl

end Asyncd
