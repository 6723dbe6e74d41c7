import Mathlib.Data.Nat.Digits.Lemmas
import Mathlib.Data.List.DropRight
import Mathlib.Tactic.IntervalCases
import Mathlib.Tactic.Ring
import Asyncd.Lib.ByteLines

/-!
# C strings

NUL-terminated strings as byte lists, and the functions of the C library that work on them:
`strtok_r`, `strstr`, `strcasecmp`, `atol`, `atoi`, `sscanf("%x")` and decimal printing.  A memory
block read as a string is `cstr` of its bytes.  The lemmas at the end say what the number scanners make
of digit strings, and what becomes of a printed decimal that is read as hexadecimal (`hexOfDecimal`).
-/

namespace CString

/-- The bytes of an ASCII text. -/
def bytes (s : String) : Bytes := s.toList.map fun c => UInt8.ofNat c.toNat

/-- The string that starts a memory block: the bytes before its first NUL. -/
def cstr (b : Bytes) : Bytes := b.takeWhile (· != 0)

/-- `isspace` in the C locale. -/
def isSpace (c : UInt8) : Bool := c == 32 || (9 ≤ c && c ≤ 13)

/-- Value of a digit in bases up to 16; 16 for any other character. -/
def digitVal (c : UInt8) : ℕ :=
  if 48 ≤ c ∧ c ≤ 57 then c.toNat - 48
  else if 97 ≤ c ∧ c ≤ 102 then c.toNat - 87
  else if 65 ≤ c ∧ c ≤ 70 then c.toNat - 55
  else 16

/-- `c` is a digit in base `b`. -/
def isDigit (b : ℕ) (c : UInt8) : Bool := digitVal c < b

/-- Value of a string of digits. -/
def numVal (b : ℕ) (ds : Bytes) : ℕ := ds.foldl (fun v c => v * b + digitVal c) 0

/-- Is there a minus sign in front? -/
def negative (s : Bytes) : Bool := s.head? = some 45

/-- The string without a sign in front. -/
def unsign (s : Bytes) : Bytes :=
  if s.head? = some 45 ∨ s.head? = some 43 then s.tail else s

/-- `atol`: optional white space, optional sign, decimal digits; the result saturates. -/
def atol (s : Bytes) : ℤ :=
  let s := s.dropWhile isSpace
  let v : ℤ := numVal 10 ((unsign s).takeWhile (isDigit 10))
  max (-2 ^ 63) (min (2 ^ 63 - 1) (if negative s then -v else v))

/-- `atoi`: `atol` converted to a 32-bit `int`. -/
def atoi (s : Bytes) : ℤ := Int.bmod (atol s) (2 ^ 32)

/-- Does the string start with `0x` or `0X`? -/
def hexPrefixed (s : Bytes) : Bool := s.head? = some 48 && (s[1]? = some 120 || s[1]? = some 88)

/-- `sscanf(s, "%x", &i)` on an `int` variable: the value stored, or `none` when nothing is converted.
The digits make a 64-bit value that saturates at `2 ^ 64 - 1`; the variable receives its low 32 bits.
A `0x` without a digit behind it is a matching failure, as ISO C says; older versions of glibc convert its
`0`. -/
def scanHex (s : Bytes) : Option ℤ :=
  let s := s.dropWhile isSpace
  let t := unsign s
  let u := if hexPrefixed t then t.drop 2 else t
  let ds := u.takeWhile (isDigit 16)
  if ds = [] then none
  else
    let v : ℤ := min (numVal 16 ds) (2 ^ 64 - 1)
    some (Int.bmod (if negative s ∧ numVal 16 ds < 2 ^ 64 then -v else v) (2 ^ 32))

/-- The character of a decimal digit. -/
def digitChar (d : ℕ) : UInt8 := UInt8.ofNat (48 + d)

/-- `%zu`, and `%d` or `%jd` of a number that is not negative. -/
def decimal (n : ℕ) : Bytes := if n = 0 then [48] else (Nat.digits 10 n).reverse.map digitChar

/-- `%d` and `%jd`. -/
def decimalInt (i : ℤ) : Bytes := if i < 0 then 45 :: decimal i.natAbs else decimal i.natAbs

/-- `int len = strlen(s)`: the length converted to a 32-bit `int`. -/
def intLen (s : Bytes) : ℤ := Int.bmod s.length (2 ^ 32)

/-- One call of `strtok_r` with the single delimiter `d`: the token, if any, and the saved rest. -/
def strtokR (d : UInt8) (s : Bytes) : Option Bytes × Bytes :=
  let s := s.dropWhile (· == d)
  if s = [] then (none, []) else (some (s.takeWhile (· != d)), (s.dropWhile (· != d)).tail)

/-- `strstr`: what stands before the first occurrence of `needle`, and the string from there on. -/
def strstr (needle : Bytes) : Bytes → Option (Bytes × Bytes)
  | [] => if needle = [] then some ([], []) else none
  | c :: s =>
    if needle.isPrefixOf (c :: s) then some ([], c :: s)
    else (strstr needle s).map fun p => (c :: p.1, p.2)

/-- `toupper` in the C locale. -/
def toUpper (c : UInt8) : UInt8 := if 97 ≤ c ∧ c ≤ 122 then c - 32 else c

/-- `tolower` in the C locale. -/
def toLower (c : UInt8) : UInt8 := if 65 ≤ c ∧ c ≤ 90 then c + 32 else c

/-- `strcasecmp(a, b) == 0`. -/
def eqIgnoreCase (a b : Bytes) : Bool := a.map toLower = b.map toLower

/-! ## Strings -/

theorem cstr_of_not_mem {b : Bytes} (h : 0 ∉ b) : cstr b = b := by
  apply List.takeWhile_eq_self_iff.2
  intro a ha
  rw [bne_iff_ne]
  rintro rfl
  exact h ha

theorem cstr_length_le (b : Bytes) : (cstr b).length ≤ b.length :=
  (List.takeWhile_prefix _).length_le

theorem eqIgnoreCase_comm (a b : Bytes) : eqIgnoreCase a b = eqIgnoreCase b a := by
  simp only [eqIgnoreCase, eq_comm]

theorem eqIgnoreCase_trans {a b c : Bytes} (h : eqIgnoreCase a b = true) :
    eqIgnoreCase a c = eqIgnoreCase b c := by
  simp only [eqIgnoreCase, decide_eq_true_eq] at h ⊢
  rw [h]

/-! ## Conversions to `int` -/

theorem bmod_of_lt {n : ℕ} (h : n < 2 ^ 31) : Int.bmod n (2 ^ 32) = n := by
  apply Int.bmod_eq_of_le <;> omega

theorem bmod_le (n : ℕ) : Int.bmod n (2 ^ 32) ≤ n := by
  rcases Nat.lt_or_ge n (2 ^ 31) with h | h
  · exact (bmod_of_lt h).le
  · have := @Int.bmod_lt n (2 ^ 32) (by omega)
    omega

theorem intLen_of_lt {s : Bytes} (h : s.length < 2 ^ 31) : intLen s = s.length := bmod_of_lt h

theorem intLen_le (s : Bytes) : intLen s ≤ s.length := bmod_le _

/-! ## Digits -/

theorem isDigit_mono {b b' : ℕ} (h : b ≤ b') {c : UInt8} (hc : isDigit b c = true) :
    isDigit b' c = true := by
  simp only [isDigit, decide_eq_true_eq] at hc ⊢
  omega

/-- The digits are printable characters, and none is white space, a sign or an `x`. -/
theorem digit_bounds {c : UInt8} (h : isDigit 16 c = true) :
    48 ≤ c.toNat ∧ c.toNat ≤ 102 ∧ c ≠ 120 ∧ c ≠ 88 := by
  simp only [isDigit, digitVal, decide_eq_true_eq, UInt8.le_iff_toNat_le] at h
  refine ⟨?_, ?_, ?_, ?_⟩
  · split_ifs at h with h1 h2 h3 <;> simp at * <;> omega
  · split_ifs at h with h1 h2 h3 <;> simp at * <;> omega
  · rintro rfl
    simp at h
  · rintro rfl
    simp at h

theorem not_digit_of_lt {b : ℕ} {c : UInt8} (h : c.toNat < 48) (hb : b ≤ 16) : isDigit b c = false := by
  by_contra hc
  have := (digit_bounds (isDigit_mono hb (by simpa using hc))).1
  omega

theorem isSpace_of_digit {c : UInt8} (h : isDigit 16 c = true) : isSpace c = false := by
  have := (digit_bounds h).1
  simp only [isSpace, Bool.or_eq_false_iff, beq_eq_false_iff_ne, ne_eq, Bool.and_eq_false_iff,
    decide_eq_false_iff_not, UInt8.le_iff_toNat_le, ← UInt8.toNat_inj]
  simp
  omega

theorem unsign_of_digit {c : UInt8} (h : isDigit 16 c = true) (s : Bytes) :
    unsign (c :: s) = c :: s ∧ negative (c :: s) = false := by
  have h48 := (digit_bounds h).1
  have h1 : c ≠ 45 := by rintro rfl; simp at h48
  have h2 : c ≠ 43 := by rintro rfl; simp at h48
  simp [unsign, negative, h1, h2]

/-- `ds` is a numeral in base `b` with value `n`. -/
structure IsNumeral (b : ℕ) (ds : Bytes) (n : ℕ) : Prop where
  ne_nil : ds ≠ []
  digits : ∀ c ∈ ds, isDigit b c = true
  value : numVal b ds = n

@[simp] theorem numVal_nil (b : ℕ) : numVal b [] = 0 := rfl

theorem numVal_concat (b : ℕ) (ds : Bytes) (c : UInt8) :
    numVal b (ds ++ [c]) = numVal b ds * b + digitVal c := by
  simp [numVal]

/-- `atol` of a string of decimal digits with a value below `2 ^ 63` is that value. -/
theorem atol_numeral {ds : Bytes} {n : ℕ} (h : IsNumeral 10 ds n) (hn : n < 2 ^ 63) :
    atol ds = n := by
  obtain ⟨-, hd, rfl⟩ := h
  have htake : ds.takeWhile (isDigit 10) = ds := List.takeWhile_eq_self_iff.2 hd
  cases ds with
  | nil => simp [atol, unsign, negative]
  | cons c ds =>
    have hc : isDigit 16 c = true := isDigit_mono (by omega) (hd c (by simp))
    obtain ⟨hu, hn⟩ := unsign_of_digit hc ds
    simp only [atol, List.dropWhile_cons, isSpace_of_digit hc, Bool.false_eq_true, if_false, hu, hn,
      htake]
    omega

/-- `sscanf("%x")` of hexadecimal digits that are followed by the end of the string or by something
that is neither a digit nor an `x`. -/
theorem scanHex_numeral {ds ext : Bytes} {n : ℕ} (h : IsNumeral 16 ds n)
    (hext : ∀ c ∈ ext.head?, isDigit 16 c = false ∧ c ≠ 120 ∧ c ≠ 88) :
    scanHex (ds ++ ext) = some (Int.bmod (min n (2 ^ 64 - 1)) (2 ^ 32)) := by
  obtain ⟨hne, hd, rfl⟩ := h
  have htake : (ds ++ ext).takeWhile (isDigit 16) = ds := by
    rw [List.takeWhile_append_of_pos hd]
    cases ext with
    | nil => simp
    | cons e ext => simp [(hext e (by simp)).1]
  have hpre : hexPrefixed (ds ++ ext) = false := by
    have hsnd : ∀ c, (ds ++ ext)[1]? = some c → ds.head? = some 48 → c ≠ 120 ∧ c ≠ 88 := by
      intro c hc _
      match ds, hne with
      | [d], _ =>
        refine (hext c ?_).2
        cases ext <;> simp_all
      | d :: d' :: ds, _ =>
        obtain rfl : d' = c := by simpa using hc
        exact (digit_bounds (hd d' (by simp))).2.2
    by_contra hp
    simp only [hexPrefixed, Bool.not_eq_false, Bool.and_eq_true, Bool.or_eq_true,
      decide_eq_true_eq] at hp
    have hhead : ds.head? = some 48 := by
      cases ds with
      | nil => exact absurd rfl hne
      | cons d ds => simpa using hp.1
    rcases hp.2 with h | h
    · exact (hsnd _ h hhead).1 rfl
    · exact (hsnd _ h hhead).2 rfl
  obtain ⟨c, ds', rfl⟩ := List.exists_cons_of_ne_nil hne
  have hc := hd c (by simp)
  obtain ⟨hu, hn⟩ := unsign_of_digit hc (ds' ++ ext)
  have hdrop : (c :: ds' ++ ext).dropWhile isSpace = c :: ds' ++ ext := by
    simp [isSpace_of_digit hc]
  simp only [scanHex, hdrop]
  rw [List.cons_append] at htake hpre ⊢
  simp [hu, hn, hpre, htake]

theorem bmod_of_small {v : ℕ} (h : v < 2 ^ 31) :
    Int.bmod (min (v : ℤ) (2 ^ 64 - 1)) (2 ^ 32) = v := by
  rw [min_eq_left (by omega), bmod_of_lt h]

/-! ## Printed numbers -/

theorem digitVal_digitChar {d : ℕ} (h : d < 10) : digitVal (digitChar d) = d := by
  have key : ∀ d < 10, digitVal (digitChar d) = d := by decide
  exact key d h

theorem decimal_of_lt {n : ℕ} (h : n < 10) : decimal n = [digitChar n] := by
  by_cases h0 : n = 0
  · subst h0
    rfl
  · simp [decimal, h0, Nat.digits_of_lt 10 n h0 h]

theorem decimal_of_ge {n : ℕ} (h : 10 ≤ n) :
    decimal n = decimal (n / 10) ++ [digitChar (n % 10)] := by
  have h0 : n ≠ 0 := by omega
  have h1 : n / 10 ≠ 0 := by omega
  simp [decimal, h0, h1, Nat.digits_def' (show 1 < 10 by omega) (Nat.pos_of_ne_zero h0)]

theorem decimal_ne_nil (n : ℕ) : decimal n ≠ [] := by
  rcases Nat.lt_or_ge n 10 with h | h
  · simp [decimal_of_lt h]
  · simp [decimal_of_ge h]

theorem isDigit_decimal (n : ℕ) : ∀ c ∈ decimal n, isDigit 10 c = true := by
  have hdig : ∀ d, d < 10 → isDigit 10 (digitChar d) = true := fun d hd => by
    simp [isDigit, digitVal_digitChar hd, hd]
  induction n using Nat.strong_induction_on with
  | _ n ih =>
    rcases Nat.lt_or_ge n 10 with h | h
    · simpa [decimal_of_lt h] using hdig n h
    · rw [decimal_of_ge h]
      intro c hc
      rcases List.mem_append.1 hc with hc | hc
      · exact ih _ (by omega) c hc
      · obtain rfl := List.mem_singleton.1 hc
        exact hdig _ (Nat.mod_lt _ (by omega))

theorem not_mem_decimal {x : UInt8} (hx : x.toNat < 48) (n : ℕ) : x ∉ decimal n := by
  intro hm
  have hdig := isDigit_decimal n x hm
  rw [not_digit_of_lt hx (by omega)] at hdig
  cases hdig

theorem not_mem_decimalInt {x : UInt8} (hx : x.toNat < 45) (i : ℤ) : x ∉ decimalInt i := by
  have hne : x ≠ 45 := by
    rintro rfl
    exact absurd hx (by decide)
  unfold decimalInt
  split_ifs
  · simpa [hne] using not_mem_decimal (by omega) _
  · exact not_mem_decimal (by omega) _

/-- The value of the last `k` decimal digits of `n` read in base 16. -/
def hexOfDecimal : ℕ → ℕ → ℕ
  | 0, _ => 0
  | k + 1, n => hexOfDecimal k (n / 10) * 16 + n % 10

theorem numVal_decimal {k n : ℕ} (h : n < 10 ^ k) : numVal 16 (decimal n) = hexOfDecimal k n := by
  induction k generalizing n with
  | zero =>
    obtain rfl : n = 0 := by simpa using h
    rfl
  | succ k ih =>
    rcases Nat.lt_or_ge n 10 with hn | hn
    · have h0 : hexOfDecimal k 0 = 0 := by
        rw [← ih (Nat.pow_pos (by omega))]
        rfl
      rw [decimal_of_lt hn, hexOfDecimal, Nat.div_eq_of_lt hn, h0, Nat.mod_eq_of_lt hn]
      simp [numVal, digitVal_digitChar hn]
    · rw [decimal_of_ge hn, numVal_concat, digitVal_digitChar (Nat.mod_lt _ (by omega)), hexOfDecimal,
        ih (by rw [Nat.pow_succ] at h; omega)]

theorem hexOfDecimal_lt (k n : ℕ) : hexOfDecimal k n < 16 ^ k := by
  induction k generalizing n with
  | zero => simp [hexOfDecimal]
  | succ k ih =>
    have := ih (n / 10)
    rw [hexOfDecimal, Nat.pow_succ]
    omega

/-- The digits from the `k`-th on, and those before it. -/
theorem hexOfDecimal_add (j k n : ℕ) :
    hexOfDecimal (k + j) n = hexOfDecimal j (n / 10 ^ k) * 16 ^ k + hexOfDecimal k (n % 10 ^ k) := by
  induction k generalizing n with
  | zero => simp [hexOfDecimal]
  | succ k ih =>
    have h1 : n % 10 ^ (k + 1) / 10 = n / 10 % 10 ^ k := by
      rw [Nat.pow_succ, Nat.mul_comm, Nat.mod_mul_right_div_self]
    have h2 : n % 10 ^ (k + 1) % 10 = n % 10 := by
      rw [Nat.pow_succ, Nat.mul_comm, Nat.mod_mul_right_mod]
    have h3 : n / 10 ^ (k + 1) = n / 10 / 10 ^ k := by
      rw [Nat.pow_succ, Nat.mul_comm, Nat.div_div_eq_div_mul]
    rw [Nat.succ_add, hexOfDecimal, ih, hexOfDecimal, h1, h2, h3, Nat.pow_succ]
    ring

/-- Read in base 16, printed numbers keep at least their distances. -/
theorem hexOfDecimal_sub_le {k m n : ℕ} (h : m ≤ n) (hn : n < 10 ^ k) :
    hexOfDecimal k m + (n - m) ≤ hexOfDecimal k n := by
  induction k generalizing m n with
  | zero =>
    obtain rfl : n = 0 := by simpa using hn
    obtain rfl : m = 0 := by omega
    simp
  | succ k ih =>
    have := ih (Nat.div_le_div_right h) (show n / 10 < 10 ^ k by rw [Nat.pow_succ] at hn; omega)
    rw [hexOfDecimal, hexOfDecimal]
    omega

end CString
