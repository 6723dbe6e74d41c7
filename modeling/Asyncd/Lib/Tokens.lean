import Asyncd.Lib.CString

/-!
# Cutting strings

What repeated calls of `strtok_r` with one delimiter see of a string is its list of `tokens`
(`strtokR_token`, `strtokR_rest`); what `strstr` returns is the first tail of the string that starts with
what is looked for (`strstr_tail`), and for a single character the cut in front of it (`strstr_char`).
-/

namespace CString

/-! ## Tokens -/

/-- The tokens of a string: its pieces between delimiters that are not empty. -/
def tokens (d : UInt8) (s : Bytes) : List Bytes := (s.splitOnP (· == d)).filter (· ≠ [])

@[simp] theorem tokens_nil (d : UInt8) : tokens d [] = [] := by simp [tokens]

@[simp] theorem tokens_delim (d : UInt8) (s : Bytes) : tokens d (d :: s) = tokens d s := by
  simp [tokens, List.splitOnP_cons_eq_if_modifyHead]

/-- A piece without delimiters is a token, up to the next delimiter. -/
theorem tokens_append {d : UInt8} {w : Bytes} (hw : w ≠ []) (hd : d ∉ w) (s : Bytes) :
    tokens d (w ++ d :: s) = w :: tokens d s := by
  have hp : ∀ c ∈ w, (c == d) = false := fun c hc => beq_eq_false_iff_ne.2 fun e => hd (e ▸ hc)
  simp [tokens, List.splitOnP_append_cons_of_forall_mem hp d (by simp), hw]

theorem tokens_single {d : UInt8} {w : Bytes} (hw : w ≠ []) (hd : d ∉ w) : tokens d w = [w] := by
  have hp : ∀ c ∈ w, (c == d) = false := fun c hc => beq_eq_false_iff_ne.2 fun e => hd (e ▸ hc)
  simp [tokens, List.splitOnP_eq_singleton hp, hw]

theorem tokens_dropWhile (d : UInt8) (s : Bytes) :
    tokens d (s.dropWhile (· == d)) = tokens d s := by
  induction s with
  | nil => rfl
  | cons c s ih =>
    by_cases hc : c = d
    · simp [hc, ih]
    · simp [hc]

/-- One call of `strtok_r` returns the first token and leaves the others. -/
theorem strtokR_tokens (d : UInt8) (s : Bytes) :
    (strtokR d s).1 = (tokens d s).head? ∧ tokens d (strtokR d s).2 = (tokens d s).tail := by
  rw [← tokens_dropWhile d s]
  have hhead := List.head?_dropWhile_not (· == d) s
  unfold strtokR
  generalize s.dropWhile (· == d) = s' at hhead ⊢
  simp only
  split_ifs with hs
  · simp [hs]
  have hne : s'.takeWhile (· != d) ≠ [] := by
    rcases List.exists_cons_of_ne_nil hs with ⟨c, t, rfl⟩
    simpa using hhead
  have hd : d ∉ s'.takeWhile (· != d) := fun h => by
    simpa using List.mem_takeWhile_imp h
  -- the token ends at a delimiter or with the string
  have happ : s'.takeWhile (· != d) ++ s'.dropWhile (· != d) = s' := List.takeWhile_append_dropWhile
  have hcut := List.head?_dropWhile_not (· != d) s'
  generalize s'.takeWhile (· != d) = w at hne hd happ ⊢
  generalize s'.dropWhile (· != d) = r at happ hcut ⊢
  cases r with
  | nil =>
    rw [← happ, List.append_nil, tokens_single hne hd]
    simp
  | cons c r =>
    obtain rfl : c = d := by simpa using hcut
    rw [← happ, tokens_append hne hd]
    simp

/-! ## Searching -/

theorem strstr_tail (needle s : Bytes) :
    (strstr needle s).map (·.2) = s.tails.find? needle.isPrefixOf := by
  induction s with
  | nil => cases needle <;> simp [strstr, List.isPrefixOf]
  | cons c s ih =>
    rw [List.tails, List.find?_cons, strstr]
    split_ifs with h
    · simp [h]
    · rw [← ih, Option.map_map]
      simp [h, Function.comp_def]

theorem strstr_isSome_iff (needle s : Bytes) : (strstr needle s).isSome ↔ needle <:+: s := by
  have hmap : (strstr needle s).isSome = (s.tails.find? needle.isPrefixOf).isSome := by
    rw [← strstr_tail, Option.isSome_map]
  rw [hmap, List.find?_isSome, List.infix_iff_prefix_suffix]
  simp only [List.mem_tails, List.isPrefixOf_iff_prefix]
  exact ⟨fun ⟨t, hs, hp⟩ => ⟨t, hp, hs⟩, fun ⟨t, hp, hs⟩ => ⟨t, hs, hp⟩⟩

theorem strstr_char (c : UInt8) (s : Bytes) :
    strstr [c] s = if c ∈ s then some (s.takeWhile (· != c), s.dropWhile (· != c)) else none := by
  induction s with
  | nil => simp [strstr]
  | cons a s ih =>
    unfold strstr
    by_cases ha : c = a
    · simp [ha, List.isPrefixOf]
    · have ha' : a ≠ c := fun e => ha e.symm
      rw [ih]
      by_cases hs : c ∈ s <;> simp [List.isPrefixOf, ha, ha', hs]

end CString
