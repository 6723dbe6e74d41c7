import Asyncd.Http.ChunkedBody
import Asyncd.Http.Response

/-!
# Chunks that the library writes and reads

`ad_http_send_chunk` prints the size of a chunk in decimal, `parse_chunked_body` reads it in
hexadecimal.  The two agree on blocks of fewer than ten bytes; a longer block never comes back, and
`roundTrips_iff` says so for every list of blocks.
-/

open CString ByteLines

namespace Asyncd

/-! ## What is written -/

/-- The arguments of the `ad_http_send_chunk` calls that send the blocks `ds`. -/
def chunkArgs (ds : List Bytes) : List (Option Bytes × ℕ) :=
  ds.map (fun d => (some d, d.length)) ++ [(none, 0)]

/-- The calls that send the blocks `ds` in chunks. -/
def encodeCalls (contenttype : Option Bytes) (ds : List Bytes) : List ResponseCall :=
  .setContent contenttype (-1) :: (chunkArgs ds).map fun a => .sendChunk a.1 a.2

/-- The chunks of the blocks `ds` and the last chunk. -/
def encodedBody (ds : List Bytes) : Bytes := (chunkArgs ds).flatMap fun a => chunkWire a.1 a.2

section

variable {http : AdHttp} (hlen : http.response.contentlength < 0)

include hlen

theorem sendChunk_frozen (hf : http.response.frozenHeader = true) (out : Bytes)
    (data : Option Bytes) (size : ℕ) :
    (adHttpSendChunk http out data size).2 = (http, out ++ chunkWire data size) := by
  rw [adHttpSendChunk, if_neg (not_le.2 hlen), hf]
  simp [chunkStatus_ne_zero]

theorem sendChunk_first (hf : http.response.frozenHeader = false) (out : Bytes)
    (data : Option Bytes) (size : ℕ) :
    (adHttpSendChunk http out data size).2 =
      (http.freeze, out ++ headerBlock http ++ chunkWire data size) := by
  rw [adHttpSendChunk, if_neg (not_le.2 hlen), hf, adHttpSendHeader_eq hf]
  simp [chunkStatus_ne_zero]

theorem runResponse_chunks (hf : http.response.frozenHeader = true) (out : Bytes)
    (args : List (Option Bytes × ℕ)) :
    runResponse http out (args.map fun a => .sendChunk a.1 a.2) =
      (http, out ++ args.flatMap fun a => chunkWire a.1 a.2) := by
  induction args generalizing out with
  | nil => simp [runResponse]
  | cons a args ih =>
    have hrun : (ResponseCall.sendChunk a.1 a.2).run http out = (http, out ++ chunkWire a.1 a.2) :=
      sendChunk_frozen hlen hf out a.1 a.2
    rw [List.map_cons, runResponse_cons, hrun, ih, List.flatMap_cons, List.append_assoc]

end

theorem runResponse_encodeCalls {http : AdHttp} (hr : http.response = freshHttp.response)
    (contenttype : Option Bytes) (out : Bytes) (ds : List Bytes) :
    (runResponse http out (encodeCalls contenttype ds)).2 =
      out ++ headerBlock (adHttpSetResponseContent http contenttype (-1)).2 ++ encodedBody ds := by
  set http' := (adHttpSetResponseContent http contenttype (-1)).2 with hhttp'
  have hf : http'.response.frozenHeader = false := by
    simp [hhttp', adHttpSetResponseContent, adHttpSetResponseHeader, hr, freshHttp]
  have hlen : http'.response.contentlength < 0 := by
    simp [hhttp', adHttpSetResponseContent, adHttpSetResponseHeader, hr, freshHttp]
  obtain ⟨a, args, hargs⟩ : ∃ a args, chunkArgs ds = a :: args := by
    cases ds <;> exact ⟨_, _, rfl⟩
  have hfirst : (ResponseCall.sendChunk a.1 a.2).run http' out =
      (http'.freeze, out ++ headerBlock http' ++ chunkWire a.1 a.2) :=
    sendChunk_first hlen hf out a.1 a.2
  have hrest := @runResponse_chunks http'.freeze hlen rfl
    (out ++ headerBlock http' ++ chunkWire a.1 a.2) args
  rw [encodedBody, encodeCalls, hargs, runResponse_cons, List.map_cons, runResponse_cons]
  rw [show (ResponseCall.setContent contenttype (-1)).run http out = (http', out) from rfl, hfirst,
    hrest, List.flatMap_cons, List.append_assoc]

/-! ## Blocks of fewer than ten bytes -/

/-- One digit means the same in decimal and in hexadecimal. -/
theorem isNumeral_of_lt_ten {n : ℕ} (h : n < 10) : IsNumeral 16 (decimal n) n := by
  refine ⟨decimal_ne_nil _, fun c hc => isDigit_mono (by omega) (isDigit_decimal _ c hc), ?_⟩
  rw [decimal_of_lt h]
  simp [numVal, digitVal_digitChar h]

/-- A block of fewer than ten bytes is sent as a well-formed chunk. -/
def smallChunk (d : Bytes) (h0 : d ≠ []) (h : d.length < 10) : Chunk where
  digits := decimal d.length
  ext := []
  data := d
  size := isNumeral_of_lt_ten h
  size_pos := List.length_pos_of_ne_nil h0
  size_lt := by omega
  ext_head := by simp
  ext_plain := by simp

theorem chunkWire_small {d : Bytes} (h0 : d ≠ []) (h : d.length < 10) :
    chunkWire (some d) d.length = (smallChunk d h0 h).wire := by
  have hpos := List.length_pos_of_ne_nil h0
  have hcrlf : httpCrlf = crlf := rfl
  simp [chunkWire, hpos, Chunk.wire, Chunk.sizeText, smallChunk, hcrlf]

theorem readChunks_small {ds : List Bytes} (h0 : ∀ d ∈ ds, d ≠ []) (h : ∀ d ∈ ds, d.length < 10)
    (acc r : Bytes) :
    readChunks acc (ds.flatMap (fun d => chunkWire (some d) d.length) ++ r) =
      readChunks (acc ++ ds.flatten) r := by
  induction ds generalizing acc with
  | nil => simp
  | cons d ds ih =>
    obtain ⟨hd0, h0⟩ := List.forall_mem_cons.1 h0
    obtain ⟨hd, h⟩ := List.forall_mem_cons.1 h
    rw [List.flatMap_cons, List.append_assoc, chunkWire_small hd0 hd, readChunks_wire, ih h0 h]
    simp [smallChunk]

theorem encodedBody_eq (ds : List Bytes) :
    encodedBody ds = ds.flatMap (fun d => chunkWire (some d) d.length) ++ lastChunk := by
  have : chunkWire none 0 = lastChunk := rfl
  simp [encodedBody, chunkArgs, List.flatMap_map, this]

/-! ## Longer blocks -/

/-- A body that is read to its end starts with a size line, and as much follows as that line asks for. -/
theorem readChunks_done_line {b data left : Bytes} (h : readChunks [] b = (.done, data, left)) :
    ∃ s : Split, ∃ n : ℕ, splitLine b = some s ∧
      (if n = 0 then (.done, [], dropLine s.rest)
        else prepend (s.rest.take n) (readChunks [] (dropLine (s.rest.drop n)))) =
          (BodyEnd.done, data, left) := by
  have hmore : takeChunk b ≠ .more := fun hm => by
    rw [readChunks_of_more hm] at h
    cases h
  cases hs : splitLine b with
  | none => exact absurd (takeChunk_of_none hs) hmore
  | some s =>
    obtain ⟨e, ht, he⟩ := splitLine_spec hs
    by_cases hneg : chunkSize s.text < 0
    · rw [readChunks_eq, e, takeChunk_malformed ht he hneg] at h
      cases h
    obtain ⟨n, hn⟩ := Int.eq_ofNat_of_zero_le (not_lt.1 hneg)
    have hw : awaited s n ≤ s.rest.length := by
      by_contra hlt
      apply hmore
      rw [e, takeChunk_line ht he (by omega), hn, Int.toNat_natCast, if_pos (by omega)]
    rw [e, readChunks_line ht he hn hw] at h
    exact ⟨s, n, rfl, h⟩

/-- A run of the chunk loop that ends has passed a line end, and two more if it read some data, besides
those in its data. -/
theorem count_lf_of_done {b data left : Bytes} (h : readChunks [] b = (.done, data, left)) :
    data.count lf + (if data = [] then 1 else 3) ≤ b.count lf := by
  induction hb : b.length using Nat.strong_induction_on generalizing b data with
  | _ k ih =>
    obtain ⟨s, n, hs, hread⟩ := readChunks_done_line h
    have hcount := splitLine_count_lf hs
    split_ifs at hread with h0
    · obtain rfl : [] = data := by
        simp only [Prod.mk.injEq] at hread
        exact hread.2.1
      simp only [List.count_nil, if_true]
      omega
    · -- another chunk follows the line behind the data
      obtain ⟨d, hd, rfl⟩ := prepend_eq_iff.1 hread
      have hnext := ih _ (hb ▸ dropLine_drop_length_lt hs n) hd rfl
      have hmem : lf ∈ s.rest.drop n := by
        by_contra hnot
        rw [dropLine_of_not_mem hnot, List.count_eq_zero_of_not_mem hnot] at hnext
        split_ifs at hnext <;> omega
      have hdrop := dropLine_count_lf hmem
      have hsum : s.rest.count lf = (s.rest.take n).count lf + (s.rest.drop n).count lf := by
        rw [← List.count_append, List.take_append_drop]
      rw [List.count_append]
      split_ifs at hnext ⊢ <;> omega

/-- For each `m`, where the hexadecimal reading of `b` passes `m * 10 ^ 8` above `b`. -/
def passes : List ℕ :=
  [10, 6600000, 10000000, 13000000, 19000000, 20000000, 25481900, 30000000, 31970000, 38000000,
    40000000, 44358780, 50000000, 50844000, 57000000, 60000000, 63230000, 69800000, 70000000,
    76000000, 80000000, 82104640]

theorem passes_spec : ∀ m < 22,
    (0 < m → hexOfDecimal 8 (passes.getD m 0 - 1) + 1 < m * 10 ^ 8 + passes.getD m 0) ∧
      (m < 21 → m * 10 ^ 8 + passes.getD m 0 < hexOfDecimal 8 (passes.getD m 0)) ∧
      0 < passes.getD m 0 ∧ passes.getD m 0 < 10 ^ 8 ∧ (m = 0 → passes.getD m 0 = 10) ∧
      (m = 21 → 2 ^ 31 ≤ m * 10 ^ 8 + passes.getD m 0) := by
  decide

/-- The last eight digits of a printed size, read in base 16, are not the size. -/
theorem hexOfDecimal_ne {m r : ℕ} (hr : r < 10 ^ 8) (h10 : 10 ≤ m * 10 ^ 8 + r)
    (hlt : m * 10 ^ 8 + r < 2 ^ 31) : hexOfDecimal 8 r ≠ m * 10 ^ 8 + r := by
  obtain ⟨hlo, hhi, hpos, hb, h0, h21⟩ := passes_spec m (by omega)
  generalize passes.getD m 0 = b at hlo hhi hpos hb h0 h21
  rcases Nat.lt_or_ge r b with hrb | hrb
  · have hle := hexOfDecimal_sub_le (show r ≤ b - 1 by omega) (show b - 1 < 10 ^ 8 by omega)
    omega
  · have hle := hexOfDecimal_sub_le hrb hr
    omega

theorem chunkSize_decimal_ne {n : ℕ} (h10 : 10 ≤ n) (hn : n < 2 ^ 31) :
    chunkSize (decimal n) ≠ n := by
  have hnul : 0 ∉ decimal n := not_mem_decimal (by decide) n
  have hdig : IsNumeral 16 (decimal n) (hexOfDecimal 10 n) :=
    ⟨decimal_ne_nil n, fun c hc => isDigit_mono (by omega) (isDigit_decimal n c hc),
      numVal_decimal (by omega)⟩
  have hscan := scanHex_numeral hdig (show ∀ c ∈ ([] : Bytes).head?, _ by simp)
  rw [List.append_nil] at hscan
  rw [chunkSize, cstr_of_not_mem hnul, hscan, Option.getD_some]
  have hsplit := hexOfDecimal_add 2 8 n
  have h2 := hexOfDecimal_lt 2 (n / 10 ^ 8)
  have h8 := hexOfDecimal_lt 8 (n % 10 ^ 8)
  have hne := hexOfDecimal_ne (m := n / 10 ^ 8) (r := n % 10 ^ 8) (Nat.mod_lt _ (by omega))
    (by omega) (by omega)
  rw [show 8 + 2 = 10 from rfl] at hsplit
  rw [Int.bmod_def, min_eq_left (by omega)]
  omega

/-- Behind a chunk that ends too early, one line end too few is left for the rest of the data to be a
chunk. -/
theorem readChunks_drained {d : Bytes} (hd : d ≠ []) :
    readChunks [] (dropLine (d ++ (crlf ++ lastChunk))) ≠ (.done, d, []) := by
  intro h
  have hcount : (d ++ (crlf ++ lastChunk)).count lf = d.count lf + 3 := by
    rw [List.count_append, show (crlf ++ lastChunk).count lf = 3 by decide]
  have hline := dropLine_count_lf (List.count_pos_iff.1 (by rw [hcount]; omega))
  have hdone := count_lf_of_done h
  rw [if_neg hd] at hdone
  omega

theorem readChunks_resized {t d : Bytes} {v : ℕ} (hlf : lf ∉ t) (hnul : 0 ∉ t)
    (hv : chunkSize t = v) (hd : d ≠ []) (hne : v ≠ d.length) :
    readChunks [] (t ++ crlf ++ (d ++ (crlf ++ lastChunk))) ≠ (.done, d, []) := by
  intro h
  have hlen : (d ++ (crlf ++ lastChunk)).length = d.length + 7 := by simp [crlf, lastChunk, bytes]
  have hmore : ¬ (d ++ (crlf ++ lastChunk)).length < v + 2 := by
    intro hshort
    have htake := takeChunk_of_short _ (d ++ (crlf ++ lastChunk)) hlf hnul hv (List.prefix_refl _) (by
      simp only [List.length_append, show crlf.length = 2 from rfl] at hshort ⊢
      omega)
    rw [readChunks_of_more htake] at h
    cases h
  have hread := readChunks_line (s := ⟨t, crlf, []⟩) hlf (isEol_crlf _) hv
    (w := d ++ (crlf ++ lastChunk)) (by rw [awaited_crlf hnul]; omega) []
  rw [hread] at h
  split_ifs at h with h0
  · simp only [Prod.mk.injEq] at h
    exact hd h.2.1.symm
  · rw [List.nil_append, prepend_eq_iff] at h
    obtain ⟨d', hr, hdata⟩ := h
    have hsum := congrArg List.length hdata
    rw [List.length_append, List.length_take, hlen] at hsum
    have hvn : v < d.length := by omega
    rw [List.take_append_of_le_length hvn.le] at hdata
    have hd' : d' = d.drop v :=
      List.append_cancel_left (hdata.trans (List.take_append_drop v d).symm)
    rw [List.drop_append_of_le_length hvn.le, hd'] at hr
    have hne' : d.drop v ≠ [] := List.ne_nil_of_length_pos (by rw [List.length_drop]; omega)
    exact readChunks_drained hne' hr

theorem readChunks_long {d : Bytes} (h10 : 10 ≤ d.length) (hlt : d.length < 2 ^ 31) :
    readChunks [] (chunkWire (some d) d.length ++ lastChunk) ≠ (.done, d, []) := by
  have hd0 : d ≠ [] := List.ne_nil_of_length_pos (by omega)
  have hlf : lf ∉ decimal d.length := not_mem_decimal (by decide) _
  have hnul : 0 ∉ decimal d.length := not_mem_decimal (by decide) _
  have hwire : chunkWire (some d) d.length ++ lastChunk =
      decimal d.length ++ crlf ++ (d ++ (crlf ++ lastChunk)) := by
    simp [chunkWire, show 0 < d.length by omega, show httpCrlf = crlf from rfl]
  rw [hwire]
  by_cases hneg : chunkSize (decimal d.length) < 0
  · have := takeChunk_malformed (s := ⟨decimal d.length, crlf, []⟩) hlf (isEol_crlf _) hneg
      (d ++ (crlf ++ lastChunk))
    rw [readChunks_eq, this]
    rintro ⟨⟩
  · obtain ⟨v, hv⟩ := Int.eq_ofNat_of_zero_le (not_lt.1 hneg)
    apply readChunks_resized hlf hnul hv hd0
    intro e
    exact chunkSize_decimal_ne h10 hlt (by rw [hv, e])

/-! ## The round trip -/

/-- What the library writes for the blocks `ds` behind the header block is read back by `parse_body`:
the request is done, its body is the blocks, and nothing is left over. -/
def RoundTrips (enc dec : AdHttp) (contenttype : Option Bytes) (out : Bytes) (ds : List Bytes) :
    Prop :=
  let header := headerBlock (adHttpSetResponseContent enc contenttype (-1)).2
  let sent := (runResponse enc out (encodeCalls contenttype ds)).2
  parseBody dec (sent.drop (out ++ header).length) = (.done, dec.setInbuf ds.flatten, [])

/-- A request whose only framing header is `Transfer-Encoding: chunked`, at the start of its body. -/
structure AwaitsChunks (http : AdHttp) : Prop where
  status : http.request.status = .headerDone
  contentlength : http.request.contentlength < 0
  chunked : http.request.headers.getstr transferEncoding = some chunked
  inbuf : http.request.inbuf = []

theorem roundTrips_iff_readChunks {enc dec : AdHttp} (henc : enc.response = freshHttp.response)
    (hdec : AwaitsChunks dec) (contenttype : Option Bytes) (out : Bytes) (ds : List Bytes) :
    RoundTrips enc dec contenttype out ds ↔
      readChunks [] (encodedBody ds) = (.done, ds.flatten, []) := by
  have hparse : ∀ b, parseBody dec b = ((readChunks [] b).1.status,
      dec.setInbuf (readChunks [] b).2.1, (readChunks [] b).2.2) := fun b => by
    have hneg := hdec.contentlength
    have h := chunkLoop_eq dec b hdec.status
    rw [hdec.inbuf] at h
    rw [parseBody, if_neg hneg.ne, if_neg hneg.not_gt, if_pos hdec.chunked, h]
  unfold RoundTrips
  simp only [runResponse_encodeCalls henc, List.drop_left, hparse]
  refine ⟨fun h => ?_, fun h => by rw [h]; rfl⟩
  generalize readChunks [] (encodedBody ds) = r at h ⊢
  obtain ⟨e, d, left⟩ := r
  simp only [Prod.mk.injEq] at h
  obtain ⟨he, hd, rfl⟩ := h
  rw [BodyEnd.status_injective (he.trans (show .done = BodyEnd.done.status from rfl)),
    show d = ds.flatten from congrArg (fun http : AdHttp => http.request.inbuf) hd]

/-- The round trip of the chunks holds for a list of blocks and all its beginnings exactly when every
block has fewer than ten bytes. -/
theorem roundTrips_iff {enc dec : AdHttp} (henc : enc.response = freshHttp.response)
    (hdec : AwaitsChunks dec) (contenttype : Option Bytes) (out : Bytes) {ds : List Bytes}
    (h0 : ∀ d ∈ ds, d ≠ []) (hlt : ∀ d ∈ ds, d.length < 2 ^ 31) :
    (∀ es, es <+: ds → RoundTrips enc dec contenttype out es) ↔ ∀ d ∈ ds, d.length < 10 := by
  simp only [roundTrips_iff_readChunks henc hdec, encodedBody_eq]
  constructor
  · -- the first long block of the list is the last of a beginning of it
    intro h
    have key : ∀ es, es <+: ds → ∀ d ∈ es, d.length < 10 := by
      intro es
      induction es using List.reverseRecOn with
      | nil => simp
      | append_singleton es d ih =>
        intro hes
        have hes' : es <+: ds := (List.prefix_append _ _).trans hes
        have hsub := hes'.subset
        have hsmall := ih hes'
        have hd : d.length < 10 := by
          by_contra hge
          have hread := h _ hes
          rw [List.flatMap_append, List.append_assoc,
            readChunks_small (fun d hd => h0 d (hsub hd)) hsmall, List.nil_append, readChunks_acc,
            List.flatten_append] at hread
          have hmem : d ∈ ds := hes.subset (by simp)
          apply readChunks_long (not_lt.1 hge) (hlt d hmem) (prepend_injective es.flatten _)
          simpa [prepend] using hread
        intro d' hd'
        rcases List.mem_append.1 hd' with hd' | hd'
        · exact hsmall d' hd'
        · rwa [List.mem_singleton.1 hd']
    exact key ds (List.prefix_refl ds)
  · intro h es hes
    have hsub := hes.subset
    rw [readChunks_small (fun d hd => h0 d (hsub hd)) (fun d hd => h d (hsub hd))]
    have := readChunks_lastChunk es.flatten []
    rwa [List.append_nil] at this

/-- A block of ten bytes is announced as one of sixteen: the request is never done. -/
theorem roundTrip_ten :
    let enc := freshHttp
    let dec := ((freshHttp.putHeader transferEncoding chunked).setStatus .headerDone)
    let ds := [bytes "0123456789"]
    AwaitsChunks dec ∧ ¬ RoundTrips enc dec none [] ds := by
  refine ⟨⟨rfl, by decide, by decide, rfl⟩, ?_⟩
  unfold RoundTrips
  decide +kernel

/-- Two small blocks are read back. -/
theorem roundTrips_iff_small :
    let dec := ((freshHttp.putHeader transferEncoding chunked).setStatus .headerDone)
    RoundTrips freshHttp dec none [] [bytes "a\r\n0", bytes "123456789"] := by
  intro dec
  have hdec : AwaitsChunks dec := ⟨rfl, by decide, by decide, rfl⟩
  have h : ∀ es, es <+: [bytes "a\r\n0", bytes "123456789"] →
      RoundTrips freshHttp dec none [] es :=
    (roundTrips_iff rfl hdec none [] (by decide) (by decide)).2 (by decide)
  exact h _ (List.prefix_refl _)

end Asyncd
