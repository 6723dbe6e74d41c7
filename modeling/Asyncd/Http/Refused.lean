import Asyncd.Http.Message

/-!
# Requests that are refused

The parser refuses a request at its request line, or at the size line of a chunk (`httpStep_verdict`).
Where the chunks in front are well formed, it makes no difference how the bytes were cut (`Refused`).
-/

open CString ByteLines

namespace Asyncd

/-! ## The size line of a chunk -/

theorem Line.lf_notMem_of_short {l : Line} {q t : Bytes} (hq : q <+: l.wire ++ t)
    (hlt : q.length < l.wire.length) : lf ∉ q := by
  intro hmem
  obtain ⟨s, hs⟩ := exists_splitLine hmem
  cases splitLine_prefix (splitLine_line l.lf_not_mem l.isEol t) hq with
  | inl hnone =>
    rw [hs] at hnone
    cases hnone
  | inr hlong =>
    obtain ⟨w, -, rfl⟩ := hlong
    rw [Line.wire, List.length_append, List.length_append] at hlt
    omega

/-- Chunks in front of a line that is no size line. -/
def chunksThen (cs : List Chunk) (l : Line) : Bytes := (cs.map Chunk.wire).flatten ++ l.wire

theorem chunksThen_cons (c : Chunk) (cs : List Chunk) (l : Line) :
    chunksThen (c :: cs) l = c.wire ++ chunksThen cs l := by
  simp [chunksThen]

section

variable {l : Line} (hl : chunkSize l.text < 0)

include hl

theorem readChunks_chunksThen (cs : List Chunk) (acc t : Bytes) :
    (readChunks acc (chunksThen cs l ++ t)).1 = .malformed := by
  induction cs generalizing acc with
  | nil =>
    have htake := takeChunk_malformed (s := ⟨l.text, l.eol, t⟩) l.lf_not_mem l.isEol hl t
    rw [readChunks_eq, show chunksThen [] l ++ t = l.text ++ l.eol ++ t from rfl, htake]
  | cons c cs ih =>
    rw [chunksThen_cons, List.append_assoc, readChunks_wire]
    exact ih _

theorem chunksDelimited_chunksThen (cs : List Chunk) (t : Bytes) :
    ChunksDelimited (chunksThen cs l ++ t) := by
  induction cs with
  | nil => exact .malformed (splitLine_line l.lf_not_mem l.isEol t) hl
  | cons c cs ih =>
    obtain ⟨-, hlf, hnul⟩ := c.sizeText_plain
    have hc := chunksDelimited_crlf _ hlf hnul c.chunkSize_sizeText fun _ => ih
    simpa [chunksThen_cons, Chunk.wire] using hc

omit hl in
theorem readChunks_chunksThen_short (cs : List Chunk) (acc : Bytes) {q : Bytes}
    (hq : q <+: chunksThen cs l) (hlt : q.length < (chunksThen cs l).length) :
    (readChunks acc q).1 = .more := by
  induction cs generalizing acc q with
  | nil =>
    have hlf : lf ∉ q := by
      apply Line.lf_notMem_of_short (t := []) _ hlt
      rwa [List.append_nil]
    rw [readChunks_of_more (takeChunk_of_none (splitLine_of_not_mem hlf))]
  | cons c cs ih =>
    obtain ⟨-, hlf, hnul⟩ := c.sizeText_plain
    rw [chunksThen_cons] at hq hlt
    rcases Nat.lt_or_ge q.length c.wire.length with hshort | hlong
    · rw [readChunks_of_more]
      refine takeChunk_of_short _ (c.data ++ crlf ++ chunksThen cs l) hlf hnul c.chunkSize_sizeText
        ?_ ?_
      · simpa [Chunk.wire] using hq
      · simp only [Chunk.wire, List.length_append, show crlf.length = 2 from rfl] at hshort
        omega
    · obtain ⟨q', rfl⟩ : c.wire <+: q := List.prefix_of_prefix_length_le ⟨_, rfl⟩ hq hlong
      rw [readChunks_wire]
      apply ih _ ((List.prefix_append_right_inj _).1 hq)
      simp only [List.length_append] at hlt
      omega

end

/-! ## The parser -/

section

variable [UrlDecoder]

/-- The parser refuses `w` in front of any stream, in one status until it is complete. -/
structure Refused (w : Bytes) : Prop where
  cuts : ∀ t, Push.CutsAlong httpStep freshHttp (w ++ t)
  short : ∀ {p t}, p <+: w ++ t → p.length < w.length →
    (httpStep freshHttp p).1.request.status ≠ .done ∧
      (httpStep freshHttp p).1.request.status ≠ .error
  whole : ∀ t, (httpStep freshHttp (w ++ t)).1.request.status = .error

theorem refused_line {l : Line}
    (hl : (parseRequestline freshHttp (cstr l.text)).1 ≠ .requestlineDone) : Refused l.wire := by
  have hphase : ∀ t, requestPhase freshHttp (l.wire ++ t) =
      ((parseRequestline freshHttp (cstr l.text)).2.setStatus .error, t) := by
    intro t
    have hline := requestPhase_line freshHttp rfl l.lf_not_mem l.isEol t
    rwa [(parseRequestline_status freshHttp (cstr l.text)).resolve_right hl] at hline
  have hhead : ∀ t, headPhase freshHttp (l.wire ++ t) =
      ((parseRequestline freshHttp (cstr l.text)).2.setStatus .error, t) := by
    intro t
    rw [headPhase, Push.seq, hphase]
    rfl
  refine ⟨fun t => ?_, ?_, fun t => ?_⟩
  · rw [httpStep_eq, headPhase_stops.cutsAlong_seq bodyPhase_follows, hhead,
      bodyPhase_cutsAlong_iff]
    exact fun _ h => by cases h
  · intro p t hp hlt
    have hstep : (httpStep freshHttp p).1 = freshHttp := by
      rw [httpStep_eq, Push.seq, headPhase, Push.seq,
        requestPhase_none (Line.lf_notMem_of_short hp hlt)]
      rfl
    rw [hstep]
    exact ⟨by decide, by decide⟩
  · rw [httpStep_eq, Push.seq, hhead]
    rfl

/-- A line that is no size line, in a chunked request. -/
theorem refused_chunk {h : FieldHead} (ha : h.AnnouncesChunks) (cs : List Chunk) {l : Line}
    (hl : chunkSize l.text < 0) : Refused (h.head.wire ++ chunksThen cs l) := by
  refine ⟨fun t => ?_, ?_, fun t => ?_⟩
  · rw [List.append_assoc, cutsAlong_httpStep_wire ha.accepted]
    exact fun _ => chunksDelimited_chunksThen hl cs t
  · intro p t hp hlt
    rw [List.append_assoc] at hp
    rcases Nat.lt_or_ge p.length h.head.wire.length with hshort | hlong
    · exact status_before_head ha.accepted hp hshort
    · obtain ⟨q, rfl⟩ : h.head.wire <+: p := List.prefix_of_prefix_length_le ⟨_, rfl⟩ hp hlong
      rw [List.length_append, List.length_append, Nat.add_lt_add_iff_left] at hlt
      have hq : q <+: chunksThen cs l :=
        List.prefix_of_prefix_length_le ((List.prefix_append_right_inj _).1 hp) ⟨t, rfl⟩ hlt.le
      rw [httpStep_wire ha.accepted, bodyPhase_chunked _ rfl ha.chunked.1 ha.chunked.2]
      have hmore := readChunks_chunksThen_short cs h.head.state.request.inbuf hq hlt
      simp [chunkPhase, hmore, BodyEnd.status]
  · rw [List.append_assoc, httpStep_wire ha.accepted,
      bodyPhase_chunked _ rfl ha.chunked.1 ha.chunked.2]
    have hmalformed := readChunks_chunksThen hl cs h.head.state.request.inbuf t
    simp [chunkPhase, hmalformed, BodyEnd.status]

/-! ## The verdict -/

/-- The stream starts with a line that is no request line. -/
def StartsWrong (stream : Bytes) : Prop :=
  ∃ (l : Line) (t : Bytes), stream = l.wire ++ t ∧
    (parseRequestline freshHttp (cstr l.text)).1 ≠ .requestlineDone

instance (h : RequestHead) : Decidable h.Chunked := inferInstanceAs (Decidable (_ ∧ _))

theorem status_wire {h : RequestHead} (ha : h.Accepted) (b : Bytes) :
    (httpStep freshHttp (h.wire ++ b)).1.request.status =
      if h.Chunked then (readChunks [] b).1.status
      else if h.state.request.contentlength.toNat ≤ b.length then .done else .headerDone := by
  rw [httpStep_wire ha]
  by_cases hc : h.Chunked
  · rw [if_pos hc, bodyPhase_chunked _ rfl hc.1 hc.2, (RequestHead.state_body ha).1]
    rfl
  rw [if_neg hc]
  rcases lt_or_ge h.state.request.contentlength 0 with hneg | hpos
  · have hte : h.state.request.headers.getstr transferEncoding ≠ some chunked :=
      fun hte => hc ⟨hneg, hte⟩
    rw [bodyPhase_none rfl (Or.inr ⟨hneg, hte⟩), Int.toNat_of_nonpos hneg.le,
      if_pos (Nat.zero_le _)]
    rfl
  · have hlen := (Int.toNat_of_nonneg hpos).symm
    rw [bodyPhase_of_length rfl hlen (RequestHead.state_body ha).2]
    rfl

/-- The head phase refuses nothing but a line. -/
theorem headPhase_cases (stream : Bytes) :
    let st := (headPhase freshHttp stream).1.request.status
    st = .init ∨ st = .requestlineDone ∨ st = .headerDone ∨ st = .error ∧ StartsWrong stream := by
  intro st
  cases hr : evbufferReadln stream with
  | none =>
    left
    change (headPhase freshHttp stream).1.request.status = .init
    rw [headPhase, Push.seq, requestPhase_none (evbufferReadln_eq_none_iff.1 hr)]
    rfl
  | some q =>
    right
    obtain ⟨eol, rfl, ht, he⟩ := evbufferReadln_spec hr
    have hphase : st = (headerPhase ((parseRequestline freshHttp (cstr q.1)).2.setStatus
        (parseRequestline freshHttp (cstr q.1)).1) q.2).1.request.status := by
      have hline := requestPhase_line freshHttp rfl ht he q.2
      change (headPhase freshHttp (q.1 ++ eol ++ q.2)).1.request.status = _
      rw [headPhase, Push.seq, hline]
    cases parseRequestline_status freshHttp (cstr q.1) with
    | inl herror =>
      rw [herror] at hphase
      refine Or.inr (Or.inr ⟨hphase, ⟨q.1, eol, ht, he⟩, q.2, rfl, ?_⟩)
      change (parseRequestline freshHttp (cstr q.1)).1 ≠ .requestlineDone
      rw [herror]
      decide
    | inr hacc =>
      rw [hacc] at hphase
      rw [hphase]
      exact (headerPhase_status _ q.2).symm.imp_right Or.inl

/-- What the parser makes of any bytes.  It refuses them exactly if they start with a line that is no
request line, or the head announces chunks and the chunk loop comes to a line that is no size line; it is
done exactly if the head is complete and accepted, and so is the body that it announces. -/
theorem httpStep_verdict (stream : Bytes) :
    ((httpStep freshHttp stream).1.request.status = .error ↔
      StartsWrong stream ∨ ∃ (h : RequestHead) (b : Bytes), stream = h.wire ++ b ∧ h.Accepted ∧
        h.Chunked ∧ (readChunks [] b).1 = .malformed) ∧
    ((httpStep freshHttp stream).1.request.status = .done ↔
      ∃ (h : RequestHead) (b : Bytes), stream = h.wire ++ b ∧ h.Accepted ∧
        if h.Chunked then (readChunks [] b).1 = .done
        else h.state.request.contentlength.toNat ≤ b.length) := by
  have hhead : ¬(headPhase freshHttp stream).1.request.status = .headerDone →
      (httpStep freshHttp stream).1 = (headPhase freshHttp stream).1 := by
    intro hst
    rw [httpStep_eq, Push.seq, bodyPhase, if_neg hst]
  constructor
  · constructor
    · intro herror
      by_cases hst : (headPhase freshHttp stream).1.request.status = .headerDone
      · obtain ⟨h, ha, hs⟩ := exists_head hst
        rw [hs, status_wire ha] at herror
        refine Or.inr ⟨h, _, hs, ha, ?_⟩
        split_ifs at herror with hc
        exact ⟨hc, BodyEnd.status_injective herror⟩
      · rw [hhead hst] at herror
        rcases headPhase_cases stream with h | h | h | h
        · exact absurd (h.symm.trans herror) (by decide)
        · exact absurd (h.symm.trans herror) (by decide)
        · exact absurd h hst
        · exact Or.inl h.2
    · rintro (⟨l, t, rfl, hl⟩ | ⟨h, b, rfl, ha, hc, hb⟩)
      · exact (refused_line hl).whole t
      · rw [status_wire ha, if_pos hc, hb]
        rfl
  · constructor
    · intro hdone
      by_cases hst : (headPhase freshHttp stream).1.request.status = .headerDone
      · obtain ⟨h, ha, hs⟩ := exists_head hst
        rw [hs, status_wire ha] at hdone
        refine ⟨h, _, hs, ha, ?_⟩
        split_ifs at hdone ⊢ with hc hle
        · exact BodyEnd.status_injective hdone
        · exact hle
      · rw [hhead hst] at hdone
        rcases headPhase_cases stream with h | h | h | h
        · exact absurd (h.symm.trans hdone) (by decide)
        · exact absurd (h.symm.trans hdone) (by decide)
        · exact absurd h hst
        · exact absurd (h.1.symm.trans hdone) (by decide)
    · rintro ⟨h, b, rfl, ha, hb⟩
      rw [status_wire ha]
      split_ifs at hb ⊢ with hc
      · rw [hb]
        rfl
      · rfl

end

end Asyncd
