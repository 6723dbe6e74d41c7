import Asyncd.Http.Chunks

/-!
# Where a chunked body may be cut

`parse_chunked_body` takes the second line end of a chunk to be as long as the first, and waits for no
more than that.  `ChunksDelimited` says of a body that no cut makes a difference to the chunk loop, by
recursion over its chunks; `readCuts_iff` proves that it says exactly this.
-/

open CString ByteLines

namespace Asyncd

/-! ## Going on after a cut -/

/-- The chunk loop called again after `x` has arrived: it goes on if it had to wait, and is not called
if it was done. -/
def resume (r : BodyEnd × Bytes × Bytes) (x : Bytes) : BodyEnd × Bytes × Bytes :=
  if r.1 = .more then readChunks r.2.1 (r.2.2 ++ x) else (r.1, r.2.1, r.2.2 ++ x)

/-- Reading `p` and then `x` is reading `p ++ x` at once. -/
def ReadCut (p x : Bytes) : Prop := resume (readChunks [] p) x = readChunks [] (p ++ x)

theorem resume_prepend (a : Bytes) (r : BodyEnd × Bytes × Bytes) (x : Bytes) :
    resume (prepend a r) x = prepend a (resume r x) := by
  unfold resume
  by_cases h : r.1 = .more
  · simp only [prepend, h, if_true]
    rw [readChunks_acc (a ++ r.2.1), readChunks_acc r.2.1]
    simp [prepend]
  · simp [prepend, h]

theorem readChunks_of_more {acc b : Bytes} (h : takeChunk b = .more) :
    readChunks acc b = (.more, acc, b) := by
  rw [readChunks_eq, h]

/-- Where the chunk loop waits, there is no whole chunk. -/
theorem takeChunk_readChunks {acc b : Bytes} (h : (readChunks acc b).1 = .more) :
    takeChunk (readChunks acc b).2.2 = .more := by
  refine Loop.exec_induct readStep_decreasing
    (R := fun _ r => r.1 = BodyEnd.more → takeChunk r.2.2 = .more) ?_ ?_ (acc, b) h
  · rintro ⟨acc, b⟩ r hr
    simp only [readStep] at hr
    split at hr <;> cases hr <;> simp [*]
  · exact fun _ _ _ ih => ih

theorem readCut_of_more {p : Bytes} (h : takeChunk p = .more) (x : Bytes) : ReadCut p x := by
  simp [ReadCut, resume, readChunks_of_more h]

theorem readCut_of_not_mem {p : Bytes} (h : lf ∉ p) (x : Bytes) : ReadCut p x :=
  readCut_of_more (takeChunk_of_none (splitLine_of_not_mem h)) x

theorem readCut_nil (p : Bytes) : ReadCut p [] := by
  unfold ReadCut resume
  split_ifs with h
  · rw [List.append_nil, List.append_nil, readChunks_of_more (takeChunk_readChunks h), ← h]
  · simp

/-! ## Cuts in one chunk -/

section

variable {s : Split} {n : ℕ}

theorem readChunks_line (ht : lf ∉ s.text) (he : IsEol s.text s.eol) (hn : chunkSize s.text = n)
    {w : Bytes} (hw : awaited s n ≤ w.length) (acc : Bytes) :
    readChunks acc (s.text ++ s.eol ++ w) =
      if n = 0 then (.done, acc, dropLine w)
      else prepend (acc ++ w.take n) (readChunks [] (dropLine (w.drop n))) := by
  rw [readChunks_eq, takeChunk_line ht he (by omega) w, hn, Int.toNat_natCast,
    if_neg (by omega)]
  cases n with
  | zero => simp
  | succ n => simp only [Nat.succ_ne_zero, if_false]; exact readChunks_acc _ _

/-- A cut behind the last chunk matters only through the line that is drained. -/
theorem readCut_last (ht : lf ∉ s.text) (he : IsEol s.text s.eol) (hn : chunkSize s.text = (0 : ℕ))
    {w : Bytes} (hw : awaited s 0 ≤ w.length) (x : Bytes) :
    ReadCut (s.text ++ s.eol ++ w) x ↔ dropLine w ++ x = dropLine (w ++ x) := by
  have hwx : awaited s 0 ≤ (w ++ x).length := by rw [List.length_append]; omega
  unfold ReadCut
  rw [List.append_assoc _ w, readChunks_line ht he hn hw, readChunks_line ht he hn hwx]
  simp [resume]

theorem readCut_chunk (ht : lf ∉ s.text) (he : IsEol s.text s.eol) (hn : chunkSize s.text = n)
    (h0 : n ≠ 0) {w : Bytes} (hw : awaited s n ≤ w.length) (hnw : n ≤ w.length) (x : Bytes) :
    ReadCut (s.text ++ s.eol ++ w) x ↔
      resume (readChunks [] (dropLine (w.drop n))) x =
        readChunks [] (dropLine (w.drop n ++ x)) := by
  have hwx : awaited s n ≤ (w ++ x).length := by rw [List.length_append]; omega
  unfold ReadCut
  rw [List.append_assoc _ w, readChunks_line ht he hn hw, readChunks_line ht he hn hwx, if_neg h0,
    if_neg h0, resume_prepend, List.nil_append, List.take_append_of_le_length hnw,
    List.drop_append_of_le_length hnw]
  exact (prepend_injective _).eq_iff

/-- In a body that starts with a size line, only cuts behind the awaited bytes can matter. -/
theorem readCuts_of_line {b : Bytes} (h : splitLine b = some s) (hn : chunkSize s.text = n)
    (H : ∀ w x, w ++ x <+: s.rest → awaited s n ≤ w.length → ReadCut (s.text ++ s.eol ++ w) x)
    {p x : Bytes} (hpx : p ++ x <+: b) : ReadCut p x := by
  obtain ⟨e, ht, he⟩ := splitLine_spec h
  rcases splitLine_prefix h ((List.prefix_append _ _).trans hpx) with hp | ⟨w, -, rfl⟩
  · exact readCut_of_more (takeChunk_of_none hp) x
  · rcases Nat.lt_or_ge w.length (awaited s n) with hw | hw
    · apply readCut_of_more _ x
      rw [takeChunk_line ht he (by omega) w, hn, Int.toNat_natCast, if_pos hw]
    · apply H w x _ hw
      rw [e, List.append_assoc _ w] at hpx
      exact (List.prefix_append_right_inj _).1 hpx

theorem drop_append_isPrefix {b w x : Bytes} (h : w ++ x <+: b) (hnw : n ≤ w.length) :
    w.drop n ++ x <+: b.drop n := by
  rw [← List.drop_append_of_le_length hnw]
  exact h.drop n

theorem readCut_malformed {b : Bytes} (h : splitLine b = some s) (hneg : chunkSize s.text < 0)
    {p x : Bytes} (hpx : p ++ x <+: b) : ReadCut p x := by
  obtain ⟨e, ht, he⟩ := splitLine_spec h
  rcases splitLine_prefix h ((List.prefix_append _ _).trans hpx) with hp | ⟨w, -, rfl⟩
  · exact readCut_of_more (takeChunk_of_none hp) x
  · have hm : ∀ w, readChunks [] (s.text ++ s.eol ++ w) =
        (.malformed, [], s.text ++ s.eol ++ w) := by
      intro w
      rw [readChunks_eq, takeChunk_malformed ht he hneg w]
    unfold ReadCut
    rw [hm w, List.append_assoc _ w, hm (w ++ x)]
    simp [resume]

theorem readCut_waiting {b : Bytes} (h : splitLine b = some s) (hn : chunkSize s.text = n)
    (hw : s.rest.length ≤ awaited s n) {p x : Bytes} (hpx : p ++ x <+: b) : ReadCut p x := by
  apply readCuts_of_line h hn _ hpx
  intro w x hwx ha
  have hlen := hwx.length_le
  rw [List.length_append] at hlen
  rw [List.eq_nil_of_length_eq_zero (show x.length = 0 by omega)]
  exact readCut_nil _

theorem readCut_unended {b : Bytes} (h : splitLine b = some s) (hn : chunkSize s.text = n)
    (hle : n = 0 ∨ n ≤ awaited s n) (hu : lf ∉ s.rest.drop n) {p x : Bytes} (hpx : p ++ x <+: b) :
    ReadCut p x := by
  obtain ⟨e, ht, he⟩ := splitLine_spec h
  apply readCuts_of_line h hn _ hpx
  intro w x hwx ha
  have hnw : n ≤ w.length := by omega
  have hl : lf ∉ w.drop n ++ x := fun hm => hu ((drop_append_isPrefix hwx hnw).subset hm)
  have hl' : lf ∉ w.drop n := fun hm => hl (List.mem_append_left _ hm)
  by_cases h0 : n = 0
  · subst h0
    rw [List.drop_zero] at hl hl'
    rw [readCut_last ht he hn ha, dropLine_of_not_mem hl, dropLine_of_not_mem hl']
  · rw [readCut_chunk ht he hn h0 ha hnw, dropLine_of_not_mem hl, dropLine_of_not_mem hl']
    exact readCut_of_not_mem hl' x

theorem readCut_ended {b : Bytes} (h : splitLine b = some s) (hn : chunkSize s.text = n)
    (hle : n = 0 ∨ n ≤ awaited s n) (hu : lf ∈ (s.rest.drop n).take (awaited s n - n))
    (next : n ≠ 0 → ∀ p x, p ++ x <+: dropLine (s.rest.drop n) → ReadCut p x) {p x : Bytes}
    (hpx : p ++ x <+: b) : ReadCut p x := by
  obtain ⟨e, ht, he⟩ := splitLine_spec h
  apply readCuts_of_line h hn _ hpx
  intro w x hwx ha
  have hnw : n ≤ w.length := by omega
  obtain ⟨y, hy⟩ := drop_append_isPrefix hwx hnw
  have hl : lf ∈ w.drop n := by
    rw [← hy, List.append_assoc,
      List.take_append_of_le_length (by rw [List.length_drop]; omega)] at hu
    exact List.mem_of_mem_take hu
  by_cases h0 : n = 0
  · subst h0
    rw [List.drop_zero] at hl
    rw [readCut_last ht he hn ha, dropLine_append hl]
  · rw [readCut_chunk ht he hn h0 ha hnw, dropLine_append hl]
    apply next h0
    rw [← hy, List.append_assoc, dropLine_append hl, ← List.append_assoc]
    exact List.prefix_append _ _

/-- The line behind the data ends too late, and read as a size line it announces a chunk that is taken
at once. -/
theorem readCut_reread {b : Bytes} {s' : Split} {n' : ℕ} (h : splitLine b = some s)
    (hn : chunkSize s.text = n) (h0 : n ≠ 0) (hle : n ≤ awaited s n)
    (h' : splitLine (s.rest.drop n) = some s') (hr : s'.rest = []) (hn' : chunkSize s'.text = n')
    (h0' : n' ≠ 0) (ha' : awaited s' n' = 0) {p x : Bytes} (hpx : p ++ x <+: b) : ReadCut p x := by
  obtain ⟨e, ht, he⟩ := splitLine_spec h
  obtain ⟨e', ht', he'⟩ := splitLine_spec h'
  apply readCuts_of_line h hn _ hpx
  intro w x hwx ha
  have hnw : n ≤ w.length := by omega
  have hpre := drop_append_isPrefix hwx hnw
  rcases splitLine_prefix h' ((List.prefix_append _ _).trans hpre) with hp | ⟨v, hv, hp⟩
  · have hl' : lf ∉ w.drop n := splitLine_eq_none_iff.1 hp
    rw [readCut_chunk ht he hn h0 ha hnw, dropLine_of_not_mem hl', readCut_of_not_mem hl' x]
    rcases splitLine_prefix h' hpre with hpx' | ⟨v, hv, hpx'⟩
    · rw [dropLine_of_none hpx']
    · -- the late line announces a chunk, which is taken with no data
      have hnil : v = [] := List.prefix_nil.1 (hr ▸ hv)
      subst hnil
      rw [hpx', readChunks_line ht' he' hn' (by omega), if_neg h0',
        dropLine_of_some (splitLine_line ht' he' [])]
      simp
  · have hlen := hpre.length_le
    rw [hp, e', hr] at hlen
    simp only [List.length_append, List.length_nil] at hlen
    rw [List.eq_nil_of_length_eq_zero (show x.length = 0 by omega)]
    exact readCut_nil _

end

/-! ## Bodies without a cut that matters -/

/-- The body is read the same however it is cut.  A chunk of `n` bytes is taken as soon as `awaited`
bytes have arrived behind its size line. -/
inductive ChunksDelimited : Bytes → Prop
  /-- no size line has arrived -/
  | unfinished {b : Bytes} (h : lf ∉ b) : ChunksDelimited b
  /-- the size line is refused -/
  | malformed {b : Bytes} {s : Split} (h : splitLine b = some s) (hneg : chunkSize s.text < 0) :
      ChunksDelimited b
  /-- the awaited bytes have not arrived, or nothing follows them -/
  | waiting {b : Bytes} {s : Split} {n : ℕ} (h : splitLine b = some s)
      (hn : chunkSize s.text = n) (hw : s.rest.length ≤ awaited s n) : ChunksDelimited b
  /-- the line behind the data has not ended -/
  | unended {b : Bytes} {s : Split} {n : ℕ} (h : splitLine b = some s)
      (hn : chunkSize s.text = n) (hle : n = 0 ∨ n ≤ awaited s n) (hu : lf ∉ s.rest.drop n) :
      ChunksDelimited b
  /-- the line behind the data ends within the awaited bytes -/
  | ended {b : Bytes} {s : Split} {n : ℕ} (h : splitLine b = some s)
      (hn : chunkSize s.text = n) (hle : n = 0 ∨ n ≤ awaited s n)
      (hu : lf ∈ (s.rest.drop n).take (awaited s n - n))
      (next : n ≠ 0 → ChunksDelimited (dropLine (s.rest.drop n))) : ChunksDelimited b
  /-- the line behind the data comes too late, nothing follows it, and read as a size line it would
  announce a chunk that is taken at once -/
  | reread {b : Bytes} {s s' : Split} {n n' : ℕ} (h : splitLine b = some s)
      (hn : chunkSize s.text = n) (h0 : n ≠ 0) (hle : n ≤ awaited s n)
      (hu : lf ∉ (s.rest.drop n).take (awaited s n - n))
      (h' : splitLine (s.rest.drop n) = some s') (hr : s'.rest = [])
      (hn' : chunkSize s'.text = n') (h0' : n' ≠ 0) (ha' : awaited s' n' = 0) : ChunksDelimited b

theorem ChunksDelimited.readCut {b : Bytes} (h : ChunksDelimited b) :
    ∀ p x, p ++ x <+: b → ReadCut p x := by
  induction h with
  | unfinished h =>
    intro p x hpx
    exact readCut_of_not_mem (fun hm => h (hpx.subset (List.mem_append_left x hm))) x
  | malformed h hneg => exact fun p x => readCut_malformed h hneg
  | waiting h hn hw => exact fun p x => readCut_waiting h hn hw
  | unended h hn hle hu => exact fun p x => readCut_unended h hn hle hu
  | ended h hn hle hu _ ih => exact fun p x => readCut_ended h hn hle hu ih
  | reread h hn h0 hle _ h' hr hn' h0' ha' =>
    exact fun p x => readCut_reread h hn h0 hle h' hr hn' h0' ha'

/-! ## Every other body has one -/

theorem awaited_le (s : Split) (n : ℕ) : awaited s n ≤ n + s.eol.length := by
  have := cstr_length_le s.text
  unfold awaited datalen
  omega

@[simp] theorem readChunks_nil (acc : Bytes) : readChunks acc [] = (.more, acc, []) :=
  readChunks_of_more rfl

theorem readChunks_singleton (acc : Bytes) (y : UInt8) : (readChunks acc [y]).2 = (acc, [y]) := by
  rw [readChunks_eq]
  by_cases hy : y = lf
  · subst hy
    rw [show takeChunk [lf] = .malformed by decide]
  · rw [takeChunk_of_none (splitLine_of_not_mem (by simpa using Ne.symm hy))]

section

variable {b : Bytes} {s : Split} {n : ℕ} (h : splitLine b = some s) (hn : chunkSize s.text = n)
  (hcut : ∀ p x, p ++ x <+: b → ReadCut p x)

include h hcut in
theorem readCut_behind_line {w x : Bytes} (hwx : w ++ x <+: s.rest) :
    ReadCut (s.text ++ s.eol ++ w) x := by
  apply hcut
  rw [(splitLine_spec h).1, List.append_assoc _ w]
  exact (List.prefix_append_right_inj _).2 hwx

include h hn hcut in
/-- Where no cut makes a difference, the data is not taken before it has arrived. -/
theorem le_awaited_of_readCuts (hlt : awaited s n < s.rest.length) : n = 0 ∨ n ≤ awaited s n := by
  by_contra hnot
  obtain ⟨h0, hle⟩ := not_or.1 hnot
  obtain ⟨-, ht, he⟩ := splitLine_spec h
  set w := s.rest.take (awaited s n) with hwdef
  have hwlen : w.length = awaited s n := by rw [hwdef, List.length_take]; omega
  have hwy : w ++ [s.rest[awaited s n]] <+: s.rest := by
    rw [hwdef, List.take_append_getElem hlt]
    exact List.take_prefix _ _
  -- the data is short at the first call, and the byte behind it is taken for a size line
  have hc := readCut_behind_line h hcut hwy
  unfold ReadCut at hc
  rw [List.append_assoc _ w, readChunks_line ht he hn hwlen.ge,
    readChunks_line ht he hn (by rw [List.length_append]; omega), if_neg h0, if_neg h0,
    List.take_of_length_le (by omega), List.drop_eq_nil_of_le (by omega),
    List.take_of_length_le (by simp; omega), List.drop_eq_nil_of_le (by simp; omega)] at hc
  simp only [dropLine_nil, readChunks_nil, prepend, resume, if_true, List.nil_append,
    List.append_nil] at hc
  have := readChunks_singleton w s.rest[awaited s n]
  rw [hc] at this
  simp at this

include h hn hcut in
theorem not_last_of_readCuts (hlt : awaited s n < s.rest.length) (hu : lf ∈ s.rest.drop n)
    (hu' : lf ∉ (s.rest.drop n).take (awaited s n - n)) : n ≠ 0 := by
  rintro rfl
  obtain ⟨-, ht, he⟩ := splitLine_spec h
  rw [List.drop_zero, Nat.sub_zero] at hu'
  rw [List.drop_zero] at hu
  have hsplit := List.take_append_drop (awaited s 0) s.rest
  have hc := readCut_behind_line h hcut (w := s.rest.take (awaited s 0))
    (x := s.rest.drop (awaited s 0)) (by rw [hsplit])
  rw [readCut_last ht he hn (by rw [List.length_take]; omega), dropLine_of_not_mem hu', hsplit] at hc
  obtain ⟨s', hs'⟩ := exists_splitLine hu
  rw [dropLine_of_some hs'] at hc
  exact absurd (congrArg List.length hc) (splitLine_length_lt hs').ne'

include h hn hcut in
theorem readCuts_dropLine (h0 : n ≠ 0)
    (hu : lf ∈ (s.rest.drop n).take (awaited s n - n)) {p x : Bytes}
    (hpx : p ++ x <+: dropLine (s.rest.drop n)) : ReadCut p x := by
  obtain ⟨-, ht, he⟩ := splitLine_spec h
  obtain ⟨l, hl⟩ := exists_splitLine (List.mem_of_mem_take hu)
  obtain ⟨el, htl, hel⟩ := splitLine_spec hl
  rw [dropLine_of_some hl] at hpx
  have hrest : s.rest.take n ++ (l.text ++ l.eol ++ l.rest) = s.rest := by
    rw [← el, List.take_append_drop]
  have hlen : n < s.rest.length := by
    by_contra hn'
    rw [List.drop_eq_nil_of_le (by omega)] at hu
    simp at hu
  by_cases hp : awaited s n ≤ n + (l.text.length + l.eol.length + p.length)
  · have hlen' : (s.rest.take n ++ (l.text ++ l.eol ++ p)).length =
        n + (l.text.length + l.eol.length + p.length) := by
      simp only [List.length_append, List.length_take]
      omega
    have htake : (s.rest.take n).length = n := by rw [List.length_take]; omega
    have hc := readCut_behind_line h hcut (w := s.rest.take n ++ (l.text ++ l.eol ++ p)) (x := x) (by
      rw [List.append_assoc, List.append_assoc _ p]
      conv_rhs => rw [← hrest]
      exact (List.prefix_append_right_inj _).2 ((List.prefix_append_right_inj _).2 hpx))
    rw [readCut_chunk ht he hn h0 (by omega) (by omega), List.drop_left' htake,
      List.append_assoc _ p, dropLine_of_some (splitLine_line htl hel _),
      dropLine_of_some (splitLine_line htl hel _)] at hc
    exact hc
  · -- fewer bytes than the line end of the size line: nothing of the next chunk is there
    obtain rfl : p = [] := by
      have := awaited_le s n
      have := he.length_le
      have := hel.length_pos
      exact List.eq_nil_of_length_eq_zero (by omega)
    exact readCut_of_more rfl x

include h hn hcut in
/-- A line behind the data that comes too late is read as a size line by a second call, and drained by
a single one. -/
theorem late_line_of_readCuts (h0 : n ≠ 0) (hle : n ≤ awaited s n)
    (hlt : awaited s n < s.rest.length) (hu' : lf ∉ (s.rest.drop n).take (awaited s n - n))
    {s' : Split} (h' : splitLine (s.rest.drop n) = some s') {r : Bytes} (hr : r <+: s'.rest) :
    readChunks [] (s'.text ++ s'.eol ++ r) = readChunks [] r := by
  obtain ⟨-, ht, he⟩ := splitLine_spec h
  obtain ⟨e', ht', he'⟩ := splitLine_spec h'
  set v := (s.rest.drop n).take (awaited s n - n) with hv
  have hwlen : (s.rest.take (awaited s n)).length = awaited s n := by
    rw [List.length_take]
    omega
  have hwv : (s.rest.take (awaited s n)).drop n = v := List.drop_take ..
  have hpre : s'.text ++ s'.eol ++ r <+: s.rest.drop n := by
    rw [e']
    exact (List.prefix_append_right_inj _).2 hr
  obtain ⟨x, hx⟩ : v <+: s'.text ++ s'.eol ++ r := by
    apply (List.prefix_or_prefix_of_prefix (List.take_prefix _ _) hpre).resolve_right
    intro hle
    have : lf ∈ s'.eol := List.count_pos_iff.1 (by rw [he'.count_lf]; omega)
    exact hu' (hle.subset (by simp [this]))
  rw [← hx] at hpre
  have hc := readCut_behind_line h hcut (w := s.rest.take (awaited s n)) (x := x) (by
    rw [← List.take_append_drop n (s.rest.take (awaited s n)), hwv, List.append_assoc,
      List.take_take, Nat.min_eq_left hle]
    conv_rhs => rw [← List.take_append_drop n s.rest]
    exact (List.prefix_append_right_inj _).2 hpre)
  rw [readCut_chunk ht he hn h0 hwlen.ge (by omega), hwv, dropLine_of_not_mem hu',
    readCut_of_not_mem hu' x, hx, dropLine_of_some (splitLine_line ht' he' r)] at hc
  exact hc

/-- A line that the chunk loop reads like one that is drained announces a chunk that is taken at once,
and nothing follows it. -/
theorem reread_of_late_line {s' : Split} (ht' : lf ∉ s'.text) (he' : IsEol s'.text s'.eol)
    (hline : ∀ r, r <+: s'.rest → readChunks [] (s'.text ++ s'.eol ++ r) = readChunks [] r) :
    s'.rest = [] ∧ ∃ n' : ℕ, n' ≠ 0 ∧ chunkSize s'.text = n' ∧ awaited s' n' = 0 := by
  have hnil := hline [] List.nil_prefix
  rw [readChunks_nil] at hnil
  have hneg : ¬ chunkSize s'.text < 0 := by
    intro hneg
    rw [readChunks_eq, takeChunk_malformed ht' he' hneg] at hnil
    simp at hnil
  obtain ⟨n', hn'⟩ := Int.eq_ofNat_of_zero_le (not_lt.1 hneg)
  have ha' : awaited s' n' = 0 := by
    by_contra hpos
    rw [readChunks_of_more (by
      rw [takeChunk_line ht' he' (by omega), hn', Int.toNat_natCast, if_pos (by simp; omega)])] at hnil
    have := he'.length_pos
    simp only [Prod.mk.injEq, true_and, List.append_nil, List.append_eq_nil_iff] at hnil
    simp [hnil.2] at this
  have h0' : n' ≠ 0 := by
    rintro rfl
    rw [readChunks_line ht' he' hn' (by omega), if_pos rfl] at hnil
    simp at hnil
  refine ⟨?_, n', h0', hn', ha'⟩
  by_contra hr
  obtain ⟨y, r, hyr⟩ := List.exists_cons_of_ne_nil hr
  have hy := hline [y] (by rw [hyr]; exact ⟨r, rfl⟩)
  rw [readChunks_line ht' he' hn' (by omega), if_neg h0', List.take_of_length_le (by simp; omega),
    List.drop_eq_nil_of_le (by simp; omega), dropLine_nil, readChunks_nil] at hy
  have := readChunks_singleton [] y
  rw [← hy] at this
  simp [prepend] at this

end

theorem chunksDelimited_of_readCuts (b : Bytes) (hcut : ∀ p x, p ++ x <+: b → ReadCut p x) :
    ChunksDelimited b := by
  induction hb : b.length using Nat.strong_induction_on generalizing b with
  | _ k ih =>
    cases h : splitLine b with
    | none => exact .unfinished (splitLine_eq_none_iff.1 h)
    | some s =>
      by_cases hneg : chunkSize s.text < 0
      · exact .malformed h hneg
      obtain ⟨n, hn⟩ := Int.eq_ofNat_of_zero_le (not_lt.1 hneg)
      rcases Nat.lt_or_ge (awaited s n) s.rest.length with hlt | hw
      swap
      · exact .waiting h hn hw
      have hle := le_awaited_of_readCuts h hn hcut hlt
      by_cases hu : lf ∈ s.rest.drop n
      swap
      · exact .unended h hn hle hu
      by_cases hu' : lf ∈ (s.rest.drop n).take (awaited s n - n)
      · refine .ended h hn hle hu' fun h0 => ?_
        refine ih _ ?_ _ (fun p x => readCuts_dropLine h hn hcut h0 hu') rfl
        rw [← hb]
        exact dropLine_drop_length_lt h n
      · have h0 := not_last_of_readCuts h hn hcut hlt hu hu'
        obtain ⟨s', h'⟩ := exists_splitLine hu
        obtain ⟨-, ht', he'⟩ := splitLine_spec h'
        obtain ⟨hr, n', h0', hn', ha'⟩ := reread_of_late_line ht' he' fun r hr =>
          late_line_of_readCuts h hn hcut h0 (hle.resolve_left h0) hlt hu' h' hr
        exact .reread h hn h0 (hle.resolve_left h0) hu' h' hr hn' h0' ha'

/-- No cut in the body makes a difference exactly when it is delimited. -/
theorem readCuts_iff (b : Bytes) : (∀ p x, p ++ x <+: b → ReadCut p x) ↔ ChunksDelimited b :=
  ⟨chunksDelimited_of_readCuts b, ChunksDelimited.readCut⟩

end Asyncd
