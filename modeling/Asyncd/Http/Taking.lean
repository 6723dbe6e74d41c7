import Asyncd.Http.Chunks

/-!
# What the chunk loop takes

A round of the chunk loop takes a size line, some data and perhaps a line behind it from the front of
the input buffer, and adds the data to the input buffer of the request (`takeChunk_taken`).  `Taken`
composes, so that the rounds together take a front of the buffer and add a part of it, in order.
-/

open ByteLines

namespace Asyncd

/-- `rest` is what is left of `b`, and `added` came in order out of what was removed. -/
def Taken (b added rest : Bytes) : Prop := ∃ removed, b = removed ++ rest ∧ added.Sublist removed

theorem Taken.refl (b : Bytes) : Taken b [] b := ⟨[], rfl, List.Sublist.refl []⟩

theorem Taken.trans {b added mid added' rest : Bytes} (h : Taken b added mid)
    (h' : Taken mid added' rest) : Taken b (added ++ added') rest := by
  rcases h with ⟨removed, rfl, hadded⟩
  rcases h' with ⟨removed', rfl, hadded'⟩
  exact ⟨removed ++ removed', (List.append_assoc _ _ _).symm, hadded.append hadded'⟩

/-! ## One round -/

theorem dropLine_suffix (b : Bytes) : dropLine b <:+ b := by
  cases h : splitLine b with
  | none => rw [dropLine_of_none h]
  | some s =>
    rw [dropLine_of_some h]
    exact ⟨s.text ++ s.eol, (splitLine_spec h).1.symm⟩

theorem takeChunk_taken {b data rest : Bytes} {n : ℕ} (h : takeChunk b = .chunk n data rest) :
    Taken b data rest := by
  unfold takeChunk at h
  cases hs : splitLine b with
  | none => simp [hs] at h
  | some s =>
    simp only [hs] at h
    split_ifs at h
    injection h with hn hdata hrest
    rw [hn] at hdata hrest
    obtain ⟨back, hback⟩ := dropLine_suffix (s.rest.drop n)
    have hb : b = s.text ++ s.eol ++ s.rest := (splitLine_spec hs).1
    have hsplit : s.rest = data ++ (back ++ rest) := by
      rw [← hdata, ← hrest, hback, List.take_append_drop]
    refine ⟨s.text ++ s.eol ++ (data ++ back), ?_, ?_⟩
    · rw [hb, hsplit]
      simp
    · exact (List.sublist_append_left data back).trans (List.sublist_append_right _ _)

theorem parseChunkedBody_taken (http : AdHttp) (inb : Bytes) :
    ∃ added, (parseChunkedBody http inb).2.1 = http.setInbuf (http.request.inbuf ++ added) ∧
      Taken inb added (parseChunkedBody http inb).2.2 := by
  rw [parseChunkedBody_eq]
  cases h : takeChunk inb with
  | more => exact ⟨[], by simp, Taken.refl inb⟩
  | malformed => exact ⟨[], by simp, Taken.refl inb⟩
  | chunk n data rest => exact ⟨data, rfl, takeChunk_taken h⟩

/-- Whether a round continues or stops, it leaves what `parse_chunked_body` left. -/
theorem chunkStep_left (s : AdHttp × Bytes) :
    Sum.elim id Prod.snd (chunkStep s) = (parseChunkedBody s.1 s.2).2 := by
  rcases s with ⟨http, inb⟩
  simp only [chunkStep]
  split_ifs <;> rfl

theorem chunkStep_taken (s : AdHttp × Bytes) :
    ∃ added, (Sum.elim id Prod.snd (chunkStep s)).1 = s.1.setInbuf (s.1.request.inbuf ++ added) ∧
      Taken s.2 added (Sum.elim id Prod.snd (chunkStep s)).2 := by
  rw [chunkStep_left]
  exact parseChunkedBody_taken s.1 s.2

/-! ## All rounds -/

theorem chunkRounds_taken {n : ℕ} {s : AdHttp × Bytes} {r : ReqStatus × AdHttp × Bytes}
    (h : Loop.Ends chunkStep n s r) :
    ∃ added, r.2.1 = s.1.setInbuf (s.1.request.inbuf ++ added) ∧ Taken s.2 added r.2.2 := by
  induction h with
  | @stop s r hs =>
    have := chunkStep_taken s
    rwa [hs] at this
  | @next n s s' r hs _ ih =>
    have hround := chunkStep_taken s
    rw [hs] at hround
    obtain ⟨added, hhttp, htaken⟩ := hround
    obtain ⟨added', hhttp', htaken'⟩ := ih
    refine ⟨added ++ added', ?_, htaken.trans htaken'⟩
    rw [hhttp', show s'.1 = _ from hhttp]
    simp

/-- The chunk loop ends on every buffer, since a round that continues shortens it.  What it adds to the
input buffer of the request is part of what it takes from the front of the buffer, in order. -/
theorem chunkLoop_taken (http : AdHttp) (inb : Bytes) :
    Loop.Decreasing (fun s : AdHttp × Bytes => s.2.length) chunkStep ∧
      ∃ n ≤ inb.length, ∃ st added removed rest,
        Loop.Ends chunkStep n (http, inb)
          (st, http.setInbuf (http.request.inbuf ++ added), rest) ∧
        inb = removed ++ rest ∧ added.Sublist removed ∧
        (http.request.contentlength < 0 →
          http.request.headers.getstr transferEncoding = some chunked →
          parseBody http inb = (st, http.setInbuf (http.request.inbuf ++ added), rest)) := by
  obtain ⟨n, hn, hends⟩ := Loop.exec_ends chunkStep_decreasing (http, inb)
  rcases hexec : Loop.exec chunkStep_decreasing (http, inb) with ⟨st, http', rest⟩
  rw [hexec] at hends
  obtain ⟨added, hhttp, removed, hinb, hsub⟩ := chunkRounds_taken hends
  obtain rfl : http' = http.setInbuf (http.request.inbuf ++ added) := hhttp
  refine ⟨chunkStep_decreasing, n, hn, st, added, removed, rest, hends, hinb, hsub, ?_⟩
  intro hlen hcoding
  rw [parseBody, if_neg (by omega), if_neg (by omega), if_pos hcoding, hexec]

end Asyncd
