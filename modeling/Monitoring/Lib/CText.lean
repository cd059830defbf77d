import Mathlib.Data.List.Induction
import Mathlib.Data.List.TakeWhile
import Mathlib.Tactic.IntervalCases
import Monitoring.Lib.MachineInt

/-!
# `Monitoring.Lib.CText`: text fields as C and C++ print and read them

Both ends of a text protocol written in C++ go through the same few library routines:
`sprintf` with `%d`, `%X` or `%08X` on one side, and a C string read by `atol` or by
`istream >> unsigned` on the other. This module models these routines over lists of bytes
and proves what a reader gets back from a printed field.

* `cstr`: a `char *` names the bytes up to the first NUL.
* `printBase`, `printDec`, `printHex8`: the `printf` conversions.
* `fieldValue`: the number a run of digits denotes, most significant digit first.
* `streamHex`, `streamInt`, `atol`, `atoi`: the readers.
* `splitCompress`: `boost::split` where separators are merged.

`streamHex_printHex8`, `streamHex_padZeros` and `atol_of_digits` are the round trips.

`num_get` accepts more than it prints. It skips blanks, takes one sign, and drops a `0x`
mark; an unsigned result wraps modulo `2 ^ 32` when the field is negative, saturates when
the digits overflow, and is `0` when no digit follows. The round trips need none of this.
It is here because a decoder meets arbitrary bytes.
-/

set_option autoImplicit false

namespace Monitoring.Lib

/-- A `char` of the C++ programs. -/
abbrev Byte := UInt8

/-- The content of a `std::string` or of a run of memory. -/
abbrev Bytes := List Byte

/-- The byte of an ASCII character literal. -/
def ch (c : Char) : Byte := c.toUInt8

/-- The bytes of a string literal. -/
def str (s : String) : Bytes := s.toList.map ch

/-- The string a `char *` denotes: the bytes before the first NUL. -/
def cstr (b : Bytes) : Bytes := b.takeWhile (· ≠ 0)

/-- A string without NUL is its own C string. -/
@[simp] theorem cstr_eq_self {b : Bytes} (h : 0 ∉ b) : cstr b = b := by
  unfold cstr
  rw [List.takeWhile_eq_self_iff]
  intro c hc
  simpa using fun h0 : c = 0 => h (h0 ▸ hc)

/-- A C string holds no NUL. -/
theorem zero_not_mem_cstr (b : Bytes) : 0 ∉ cstr b := by
  intro h
  simpa using List.mem_takeWhile_imp h

/-- Cutting at the first NUL keeps a string only if there is no NUL. -/
theorem cstr_eq_self_iff {b : Bytes} : cstr b = b ↔ 0 ∉ b :=
  ⟨fun h => h ▸ zero_not_mem_cstr b, cstr_eq_self⟩

/-- A C string is never longer than the memory it is read from. -/
theorem length_cstr_le (b : Bytes) : (cstr b).length ≤ b.length :=
  (List.takeWhile_prefix _).length_le

/-- The C string of memory that starts with NUL-free bytes goes through all of them. -/
theorem cstr_append {a : Bytes} (b : Bytes) (h : 0 ∉ a) : cstr (a ++ b) = a ++ cstr b := by
  unfold cstr
  rw [List.takeWhile_append_of_pos]
  intro c hc
  simpa using fun h0 : c = 0 => h (h0 ▸ hc)

/-! ### Digits -/

/-- The value of a digit character in any base up to sixteen; `16` for every other byte. -/
def digitVal (c : Byte) : Nat :=
  if 48 ≤ c ∧ c ≤ 57 then c.toNat - 48
  else if 65 ≤ c ∧ c ≤ 70 then c.toNat - 55
  else if 97 ≤ c ∧ c ≤ 102 then c.toNat - 87
  else 16

/-- `c` is a digit of base `b`. -/
abbrev IsDigit (b : Nat) (c : Byte) : Prop := digitVal c < b

/-- The number a run of digits denotes in base `b`, most significant digit first. -/
def fieldValue (b : Nat) (ds : Bytes) : Nat := ds.foldl (fun v c => v * b + digitVal c) 0

/-- One more digit shifts the value up one place. -/
theorem fieldValue_concat (b : Nat) (ds : Bytes) (c : Byte) :
    fieldValue b (ds ++ [c]) = fieldValue b ds * b + digitVal c := by
  simp [fieldValue]

/-- The fold behind `fieldValue` from any start value: the start carries the weight of all
the digits. -/
theorem foldl_digits_acc (b : Nat) (ds : Bytes) (acc : Nat) :
    ds.foldl (fun v c => v * b + digitVal c) acc = acc * b ^ ds.length + fieldValue b ds := by
  induction ds using List.reverseRecOn with
  | nil => simp [fieldValue]
  | append_singleton ds c ih =>
      rw [List.foldl_append, List.foldl_cons, List.foldl_nil, ih, fieldValue_concat,
        List.length_append, List.length_singleton, Nat.pow_succ, Nat.add_mul, Nat.mul_assoc,
        Nat.add_assoc]

/-- The value of two runs of digits read as one. -/
theorem fieldValue_append (b : Nat) (ds es : Bytes) :
    fieldValue b (ds ++ es) = fieldValue b ds * b ^ es.length + fieldValue b es := by
  rw [fieldValue, List.foldl_append, foldl_digits_acc]
  rfl

/-- Zeros in front do not count. -/
theorem fieldValue_zeros (b k : Nat) (ds : Bytes) :
    fieldValue b (List.replicate k (ch '0') ++ ds) = fieldValue b ds := by
  induction k with
  | zero => rfl
  | succ k ih =>
      rw [List.replicate_succ, List.cons_append, ← List.singleton_append, fieldValue_append, ih]
      have h0 : fieldValue b [ch '0'] = 0 := by simp [fieldValue, ch]; decide
      rw [h0, Nat.zero_mul, Nat.zero_add]

/-- A run of base-`b` digits stays below `b` to its length. -/
theorem fieldValue_lt {b : Nat} {ds : Bytes} (h : ∀ c ∈ ds, IsDigit b c) :
    fieldValue b ds < b ^ ds.length := by
  induction ds using List.reverseRecOn with
  | nil => simp [fieldValue]
  | append_singleton ds c ih =>
      have hlt := ih fun d hd => h d (by simp [hd])
      have hc : digitVal c < b := h c (by simp)
      rw [fieldValue_concat, List.length_append, List.length_singleton, Nat.pow_succ]
      have hmul : (fieldValue b ds + 1) * b ≤ b ^ ds.length * b := Nat.mul_le_mul_right b hlt
      rw [Nat.add_mul, Nat.one_mul] at hmul
      omega

/-! ### `printf` -/

/-- The character `%X` prints for a digit. -/
def printedDigit (c : Char) : Byte := ch c.toUpper

/-- `%u` for base 10 and `%X` for base 16: the digits of `n` without padding. -/
def printBase (b n : Nat) : Bytes := (Nat.toDigits b n).map printedDigit

/-- `%d`. -/
def printDec (i : Int) : Bytes :=
  if i < 0 then ch '-' :: printBase 10 i.natAbs else printBase 10 i.natAbs

/-- The zero flag with a minimal width, as in `%08X`. -/
def padZeros (width : Nat) (ds : Bytes) : Bytes :=
  List.replicate (width - ds.length) (ch '0') ++ ds

/-- `%08X` of an `unsigned int`. -/
def printHex8 (w : UInt32) : Bytes := padZeros 8 (printBase 16 w.toNat)

/-- A printed digit below sixteen reads back as itself. -/
theorem digitVal_printedDigit {d : Nat} (h : d < 16) :
    digitVal (printedDigit (Nat.digitChar d)) = d := by
  interval_cases d <;> decide

/-- Splits off the last printed digit. -/
theorem printBase_step {b n : Nat} (hb : 1 < b) (h : b ≤ n) :
    printBase b n = printBase b (n / b) ++ [printedDigit (Nat.digitChar (n % b))] := by
  unfold printBase
  rw [Nat.toDigits_of_base_le hb h, List.map_append, List.map_singleton]

/-- A number below the base prints as one digit. -/
theorem printBase_of_lt {b n : Nat} (h : n < b) :
    printBase b n = [printedDigit (Nat.digitChar n)] := by
  unfold printBase
  rw [Nat.toDigits_of_lt_base h, List.map_singleton]

/-- A printed number is made of digits of its base. -/
theorem isDigit_of_mem_printBase {b n : Nat} {c : Byte} (hb : 1 < b) (hb16 : b ≤ 16)
    (hc : c ∈ printBase b n) : IsDigit b c := by
  induction n using Nat.strongRecOn with
  | ind n ih =>
      by_cases hn : n < b
      · rw [printBase_of_lt hn, List.mem_singleton] at hc
        subst hc
        show digitVal _ < b
        rw [digitVal_printedDigit (by omega)]
        exact hn
      · rw [printBase_step hb (by omega), List.mem_append, List.mem_singleton] at hc
        have hmod : n % b < b := Nat.mod_lt _ (by omega)
        rcases hc with hc | rfl
        · exact ih _ (Nat.div_lt_self (by omega) hb) hc
        · show digitVal _ < b
          rw [digitVal_printedDigit (by omega)]
          exact hmod

/-- `%d` prints digits only, unless the number is negative. -/
theorem isDigit_of_mem_printDec {i : Int} {c : Byte} (hi : 0 ≤ i) (hc : c ∈ printDec i) :
    IsDigit 10 c := by
  unfold printDec at hc
  rw [if_neg (by omega)] at hc
  exact isDigit_of_mem_printBase (by decide) (by decide) hc

/-- A printed number denotes itself. -/
theorem fieldValue_printBase {b : Nat} (n : Nat) (hb : 1 < b) (hb16 : b ≤ 16) :
    fieldValue b (printBase b n) = n := by
  induction n using Nat.strongRecOn with
  | ind n ih =>
      by_cases hn : n < b
      · rw [printBase_of_lt hn]
        simp [fieldValue, digitVal_printedDigit (show n < 16 by omega)]
      · have hmod : n % b < b := Nat.mod_lt _ (by omega)
        rw [printBase_step hb (by omega), fieldValue_concat,
          ih _ (Nat.div_lt_self (by omega) hb), digitVal_printedDigit (by omega), Nat.mul_comm]
        exact Nat.div_add_mod n b

/-- A printed number is not empty. -/
theorem printBase_ne_nil (b n : Nat) : printBase b n ≠ [] := by
  unfold printBase
  simp [Nat.toDigits_ne_nil]

/-- A number prints in at most `k` digits when it is below `b ^ k`. -/
theorem length_printBase_le {b n k : Nat} (hb : 1 < b) (hk : 0 < k) (h : n < b ^ k) :
    (printBase b n).length ≤ k := by
  unfold printBase
  rw [List.length_map]
  exact (Nat.length_toDigits_le_iff hb hk).mpr h

/-- `%08X` always prints eight characters. -/
@[simp] theorem length_printHex8 (w : UInt32) : (printHex8 w).length = 8 := by
  have hlen : (printBase 16 w.toNat).length ≤ 8 :=
    length_printBase_le (by decide) (by decide) w.toNat_lt
  unfold printHex8 padZeros
  rw [List.length_append, List.length_replicate]
  omega

/-- `%08X` prints hexadecimal digits. -/
theorem isDigit_of_mem_printHex8 {w : UInt32} {c : Byte} (hc : c ∈ printHex8 w) :
    IsDigit 16 c := by
  unfold printHex8 padZeros at hc
  rcases List.mem_append.mp hc with hc | hc
  · rw [(List.mem_replicate.mp hc).2]
    decide
  · exact isDigit_of_mem_printBase (by decide) (by decide) hc

/-- `%08X` of a word denotes the word. -/
theorem fieldValue_printHex8 (w : UInt32) : fieldValue 16 (printHex8 w) = w.toNat := by
  unfold printHex8 padZeros
  rw [fieldValue_zeros, fieldValue_printBase _ (by decide) (by decide)]

/-! ### Readers -/

/-- `isspace` in the C locale. -/
def isSpace (c : Byte) : Bool := c == 32 || (9 ≤ c && c ≤ 13)

/-- One optional sign: whether it is a minus, and the text after it. -/
def takeSign (s : Bytes) : Bool × Bytes :=
  if s.head? = some (ch '-') then (true, s.tail)
  else if s.head? = some (ch '+') then (false, s.tail)
  else (false, s)

/-- Drops the `0x` or `0X` that a hexadecimal field may start with. -/
def dropHexMark (s : Bytes) : Bytes :=
  if s.take 2 = [ch '0', ch 'x'] ∨ s.take 2 = [ch '0', ch 'X'] then s.drop 2 else s

/-- The digits at the front of `s`. -/
def digitsOf (b : Nat) (s : Bytes) : Bytes := s.takeWhile fun c => digitVal c < b

/-- `istream >> unsigned int` on a stream with the `hex` flag. -/
def streamHex (s : Bytes) : Nat :=
  let signed := takeSign (s.dropWhile isSpace)
  let n := fieldValue 16 (digitsOf 16 (dropHexMark signed.2))
  if 2 ^ 32 ≤ n then 2 ^ 32 - 1
  else if signed.1 then (2 ^ 32 - n) % 2 ^ 32
  else n

/-- `atol` on a 64-bit `long`. An out-of-range number saturates, as `strtol` does. -/
def atol (s : Bytes) : Int :=
  let signed := takeSign (s.dropWhile isSpace)
  let n := fieldValue 10 (digitsOf 10 signed.2)
  if signed.1 then max (-2 ^ 63) (-n) else min (2 ^ 63 - 1) n

/-- `atoi`. -/
def atoi (s : Bytes) : Int := i32 (atol s)

/-- `istream >> int`: the number and what is left in the stream, or `none` where the stream
fails. -/
def streamInt (s : Bytes) : Option (Int × Bytes) :=
  let signed := takeSign (s.dropWhile isSpace)
  let digits := digitsOf 10 signed.2
  let n : Int := if signed.1 then -fieldValue 10 digits else fieldValue 10 digits
  if digits = [] ∨ n < -2 ^ 31 ∨ 2 ^ 31 ≤ n then none else some (n, signed.2.drop digits.length)

/-- A blank is no digit. -/
theorem digitVal_of_isSpace {c : Byte} (h : isSpace c = true) : digitVal c = 16 := by
  simp only [isSpace, Bool.or_eq_true, beq_iff_eq, Bool.and_eq_true, decide_eq_true_eq,
    UInt8.le_iff_toNat_le, ← UInt8.toNat_inj] at h
  simp only [digitVal, UInt8.le_iff_toNat_le]
  simp only [UInt8.toNat_ofNat] at h ⊢
  split_ifs <;> omega

/-- A digit is neither a blank nor a sign, so neither reader drops it. -/
theorem takeSign_of_isDigit {b : Nat} {c : Byte} (hb : b ≤ 16) (hc : IsDigit b c) (s : Bytes) :
    takeSign ((c :: s).dropWhile isSpace) = (false, c :: s) := by
  have hlt : digitVal c < 16 := Nat.lt_of_lt_of_le hc hb
  have hspace : isSpace c = false := by
    rw [← Bool.not_eq_true]
    intro h
    rw [digitVal_of_isSpace h] at hlt
    exact absurd hlt (by decide)
  have hminus : c ≠ ch '-' := by rintro rfl; exact absurd hlt (by decide)
  have hplus : c ≠ ch '+' := by rintro rfl; exact absurd hlt (by decide)
  rw [List.dropWhile_cons_of_neg (by simp [hspace])]
  simp [takeSign, hminus, hplus]

/-- A run of digits has no `0x` mark, because `x` is no digit. -/
theorem dropHexMark_of_digits {ds : Bytes} (h : ∀ c ∈ ds, IsDigit 16 c) :
    dropHexMark ds = ds := by
  unfold dropHexMark
  rw [if_neg]
  rintro (h2 | h2)
  · exact absurd (h (ch 'x') (List.mem_of_mem_take (i := 2) (by simp [h2]))) (by decide)
  · exact absurd (h (ch 'X') (List.mem_of_mem_take (i := 2) (by simp [h2]))) (by decide)

/-- All of a run of digits is read. -/
theorem digitsOf_of_digits {b : Nat} {ds : Bytes} (h : ∀ c ∈ ds, IsDigit b c) :
    digitsOf b ds = ds := by
  unfold digitsOf
  rw [List.takeWhile_eq_self_iff]
  intro c hc
  simpa using h c hc

/-- The stream reader on hexadecimal digits that fit an `unsigned int`. -/
theorem streamHex_of_digits {ds : Bytes} (hne : ds ≠ []) (h : ∀ c ∈ ds, IsDigit 16 c)
    (hlt : fieldValue 16 ds < 2 ^ 32) : streamHex ds = fieldValue 16 ds := by
  obtain ⟨c, rest, rfl⟩ := List.exists_cons_of_ne_nil hne
  have hsign := takeSign_of_isDigit (by decide) (h c (by simp)) rest
  simp only [streamHex, hsign, dropHexMark_of_digits h, digitsOf_of_digits h]
  rw [if_neg (by omega)]
  rfl

/-- What `%08X` prints, the stream reader reads back. -/
@[simp] theorem streamHex_printHex8 (w : UInt32) : streamHex (printHex8 w) = w.toNat := by
  rw [streamHex_of_digits, fieldValue_printHex8]
  · intro h
    have hlen := length_printHex8 w
    rw [h] at hlen
    exact absurd hlen (by decide)
  · exact fun c hc => isDigit_of_mem_printHex8 hc
  · rw [fieldValue_printHex8]
    exact w.toNat_lt

/-- What `%X` prints of a number below `2 ^ 32`, the stream reader reads back, with or
without zeros in front. -/
theorem streamHex_padZeros (width : Nat) {n : Nat} (hn : n < 2 ^ 32) :
    streamHex (padZeros width (printBase 16 n)) = n := by
  have hval : fieldValue 16 (padZeros width (printBase 16 n)) = n := by
    unfold padZeros
    rw [fieldValue_zeros, fieldValue_printBase _ (by decide) (by decide)]
  rw [streamHex_of_digits, hval]
  · simp [padZeros, printBase_ne_nil]
  · intro c hc
    rcases List.mem_append.mp hc with hc | hc
    · rw [(List.mem_replicate.mp hc).2]
      decide
    · exact isDigit_of_mem_printBase (by decide) (by decide) hc
  · rw [hval]
    exact hn

/-- One digit. -/
theorem streamHex_digit {c : Byte} (h : IsDigit 16 c) : streamHex [c] = digitVal c := by
  have hval : fieldValue 16 [c] = digitVal c := by simp [fieldValue]
  have hlt : digitVal c < 16 := h
  rw [streamHex_of_digits (by simp) (by simpa using h) (by omega), hval]

/-- The digits at the front of a text denote less than sixteen to its length. -/
theorem fieldValue_hexDigits_lt (s : Bytes) :
    fieldValue 16 (digitsOf 16 (dropHexMark s)) < 16 ^ s.length := by
  have hdigits : ∀ c ∈ digitsOf 16 (dropHexMark s), IsDigit 16 c :=
    fun c hc => by simpa using List.mem_takeWhile_imp hc
  have hmark : (dropHexMark s).length ≤ s.length := by
    unfold dropHexMark
    split
    · rw [List.length_drop]
      omega
    · exact Nat.le_refl _
  have hlen : (digitsOf 16 (dropHexMark s)).length ≤ s.length :=
    (List.takeWhile_prefix _).length_le.trans hmark
  exact Nat.lt_of_lt_of_le (fieldValue_lt hdigits) (Nat.pow_le_pow_right (by decide) hlen)

/-- A minus sign is the first character, and is taken off. -/
theorem takeSign_cases (s : Bytes) :
    (∃ r, takeSign s = (false, r) ∧ r.length ≤ s.length) ∨
      ∃ r, takeSign s = (true, r) ∧ s = ch '-' :: r := by
  cases s with
  | nil => exact Or.inl ⟨[], rfl, Nat.le_refl _⟩
  | cons c r =>
      unfold takeSign
      by_cases hminus : c = ch '-'
      · exact Or.inr ⟨r, by simp [hminus], by rw [hminus]⟩
      · rw [if_neg (by simpa using hminus)]
        split
        · exact Or.inl ⟨r, rfl, Nat.le_succ _⟩
        · exact Or.inl ⟨c :: r, rfl, Nat.le_refl _⟩

/-- What the stream reader makes of at most two characters: a small number, or one that has
wrapped, for a minus sign and a digit. -/
theorem streamHex_short {s : Bytes} (h : s.length ≤ 2) :
    streamHex s < 16 ^ s.length ∨ ∃ c, s = [ch '-', c] ∧ 1 ≤ digitVal c ∧ digitVal c < 16 ∧
      streamHex s = 2 ^ 32 - digitVal c := by
  have hsuffix : s.dropWhile isSpace <:+ s := List.dropWhile_suffix _
  have hpos : 0 < 16 ^ s.length := Nat.pow_pos (by decide)
  have hbound : 16 ^ s.length ≤ 16 ^ 2 := Nat.pow_le_pow_right (by decide) h
  rcases takeSign_cases (s.dropWhile isSpace) with ⟨r, hsign, hr⟩ | ⟨r, hsign, hdrop⟩
  · left
    have hlt : fieldValue 16 (digitsOf 16 (dropHexMark r)) < 16 ^ s.length :=
      Nat.lt_of_lt_of_le (fieldValue_hexDigits_lt r)
        (Nat.pow_le_pow_right (by decide) (hr.trans hsuffix.length_le))
    unfold streamHex
    simp only [hsign]
    rw [if_neg (by omega), if_neg (by decide)]
    exact hlt
  · have hle := hsuffix.length_le
    rw [hdrop, List.length_cons] at hle
    cases r with
    | nil =>
        left
        have hzero : streamHex s = 0 := by
          unfold streamHex
          rw [hsign]
          decide
        rwa [hzero]
    | cons c r =>
        rw [List.length_cons] at hle
        obtain rfl : r = [] := List.length_eq_zero_iff.mp (by omega)
        -- two characters, so no blank was skipped
        have hs : s = [ch '-', c] := by
          rw [← hdrop]
          refine (hsuffix.eq_of_length ?_).symm
          rw [hdrop]
          simp only [List.length_cons, List.length_nil] at hle ⊢
          omega
        have hmark : dropHexMark [c] = [c] := by simp [dropHexMark]
        have hvalue :
            fieldValue 16 (digitsOf 16 [c]) = if digitVal c < 16 then digitVal c else 0 := by
          unfold digitsOf
          split <;> simp_all [fieldValue]
        have hread :
            streamHex s = (2 ^ 32 - if digitVal c < 16 then digitVal c else 0) % 2 ^ 32 := by
          unfold streamHex
          simp only [hsign, hmark, hvalue]
          rw [if_neg (by split <;> omega), if_pos trivial]
        by_cases hc : digitVal c < 16 ∧ 1 ≤ digitVal c
        · rw [if_pos hc.1] at hread
          exact Or.inr ⟨c, hs, hc.2, hc.1, by rw [hread]; omega⟩
        · left
          have hzero : streamHex s = 0 := by
            rw [hread]
            split <;> omega
          rwa [hzero]

/-- `atol` on decimal digits that fit a `long`. -/
theorem atol_of_digits_lt {ds : Bytes} (h : ∀ c ∈ ds, IsDigit 10 c)
    (hlt : fieldValue 10 ds < 2 ^ 63) : atol ds = fieldValue 10 ds := by
  cases ds with
  | nil => rfl
  | cons c rest =>
      have hsign := takeSign_of_isDigit (by decide) (h c (by simp)) rest
      simp only [atol, hsign, digitsOf_of_digits h]
      rw [if_neg (by decide)]
      omega

/-- `atol` on a run of at most eighteen decimal digits. -/
theorem atol_of_digits {ds : Bytes} (h : ∀ c ∈ ds, IsDigit 10 c) (hlen : ds.length ≤ 18) :
    atol ds = fieldValue 10 ds := by
  have hlt : fieldValue 10 ds < 10 ^ 18 :=
    Nat.lt_of_lt_of_le (fieldValue_lt h) (Nat.pow_le_pow_right (by decide) hlen)
  exact atol_of_digits_lt h (by omega)

/-- `atoi` on decimal digits that fit an `int`, with any number of zeros in front. -/
theorem atoi_of_digits {ds : Bytes} (h : ∀ c ∈ ds, IsDigit 10 c)
    (hlt : fieldValue 10 ds < 2 ^ 31) : atoi ds = fieldValue 10 ds := by
  unfold atoi
  rw [atol_of_digits_lt h (by omega)]
  exact i32_of_lt (by omega) (by omega)

/-! ### Splitting -/

/-- A byte of joined texts is the separator, or belongs to one of the texts. -/
theorem mem_intercalate {sep c : Byte} {texts : List Bytes} (h : c ∈ [sep].intercalate texts) :
    c = sep ∨ ∃ text ∈ texts, c ∈ text := by
  induction texts with
  | nil => exact absurd h (by simp)
  | cons text texts ih =>
      cases texts with
      | nil =>
          rw [List.intercalate_singleton] at h
          exact Or.inr ⟨text, List.mem_cons_self, h⟩
      | cons text' texts =>
          rw [List.intercalate_cons_cons, List.append_assoc] at h
          rcases List.mem_append.mp h with h | h
          · exact Or.inr ⟨text, List.mem_cons_self, h⟩
          · rcases List.mem_cons.mp h with rfl | h
            · exact Or.inl rfl
            · exact (ih h).imp id fun ⟨t, ht, hc⟩ => ⟨t, List.mem_cons_of_mem _ ht, hc⟩

/-- The texts in front of the last one end with a separator. -/
theorem intercalate_concat (sep : Byte) (texts : List Bytes) (last : Bytes) :
    [sep].intercalate (texts ++ [last]) = (texts.flatMap fun text => text ++ [sep]) ++ last := by
  induction texts with
  | nil => exact List.intercalate_singleton
  | cons text texts ih =>
      rw [List.cons_append, List.intercalate_cons_of_ne_nil (List.concat_ne_nil last texts), ih,
        List.flatMap_cons]
      simp only [List.append_assoc]

/-- One separator in the place of each run of them. -/
def mergeSeparators (sep : Byte) : Bytes → Bytes
  | [] => []
  | [c] => [c]
  | c :: d :: rest =>
      if c = sep ∧ d = sep then mergeSeparators sep (d :: rest)
      else c :: mergeSeparators sep (d :: rest)

/-- `boost::split` with `token_compress_on`. -/
def splitCompress (sep : Byte) (s : Bytes) : List Bytes := (mergeSeparators sep s).splitOn sep

theorem mergeSeparators_cons_of_ne {sep c : Byte} (h : c ≠ sep) (rest : Bytes) :
    mergeSeparators sep (c :: rest) = c :: mergeSeparators sep rest := by
  cases rest with
  | nil => rfl
  | cons d rest => rw [mergeSeparators, if_neg fun hh => h hh.1]

/-- A text without separators stays as it is. -/
theorem mergeSeparators_append {sep : Byte} {text : Bytes} (h : sep ∉ text) (rest : Bytes) :
    mergeSeparators sep (text ++ rest) = text ++ mergeSeparators sep rest := by
  induction text with
  | nil => rfl
  | cons c text ih =>
      obtain ⟨hc, htext⟩ := List.ne_and_not_mem_of_not_mem_cons h
      rw [List.cons_append, mergeSeparators_cons_of_ne (Ne.symm hc), ih htext, List.cons_append]

/-- Of a run of separators one stays. -/
theorem mergeSeparators_replicate {sep d : Byte} (hd : d ≠ sep) (n : Nat) (rest : Bytes) :
    mergeSeparators sep (List.replicate (n + 1) sep ++ d :: rest)
      = sep :: mergeSeparators sep (d :: rest) := by
  induction n with
  | zero => exact if_neg fun h => hd h.2
  | succ n ih => exact (if_pos ⟨rfl, rfl⟩).trans ih

/-- The first text is in front of the first run of separators. -/
theorem splitCompress_cons {sep d : Byte} {text : Bytes} (h : sep ∉ text) (hd : d ≠ sep) (n : Nat)
    (rest : Bytes) : splitCompress sep (text ++ (List.replicate (n + 1) sep ++ d :: rest))
      = text :: splitCompress sep (d :: rest) := by
  unfold splitCompress
  rw [mergeSeparators_append h, mergeSeparators_replicate hd,
    List.splitOn_append_cons_self_of_not_mem h]

theorem splitCompress_singleton {sep : Byte} {text : Bytes} (h : sep ∉ text) :
    splitCompress sep text = [text] := by
  have hmerge : mergeSeparators sep text = text := by
    simpa [mergeSeparators] using mergeSeparators_append h []
  unfold splitCompress
  rw [hmerge]
  exact List.splitOn_eq_singleton h

/-- Texts that are not empty are split where they were joined. -/
theorem splitCompress_intercalate {sep : Byte} {texts : List Bytes} (hne : texts ≠ [])
    (h : ∀ text ∈ texts, sep ∉ text ∧ text ≠ []) :
    splitCompress sep ([sep].intercalate texts) = texts := by
  induction texts with
  | nil => exact absurd rfl hne
  | cons text texts ih =>
      obtain ⟨htext, -⟩ := h text List.mem_cons_self
      have h := fun t ht => h t (List.mem_cons_of_mem text ht)
      cases texts with
      | nil =>
          rw [List.intercalate_singleton]
          exact splitCompress_singleton htext
      | cons text' texts =>
          have ih := ih (List.cons_ne_nil _ _) h
          obtain ⟨htext', hne'⟩ := h text' List.mem_cons_self
          obtain ⟨d, tail, rfl⟩ := List.exists_cons_of_ne_nil hne'
          -- what follows the separator starts with a character of the next text
          obtain ⟨rest, hrest⟩ : ∃ rest,
              [sep].intercalate ((d :: tail) :: texts) = d :: rest := by
            cases texts with
            | nil => exact ⟨tail, by rw [List.intercalate_singleton]⟩
            | cons t texts => exact ⟨tail ++ [sep] ++ [sep].intercalate (t :: texts), by simp⟩
          have hd : d ≠ sep := fun hd => htext' (hd ▸ List.mem_cons_self)
          rw [hrest] at ih
          rw [List.intercalate_cons_cons, hrest, List.append_assoc]
          exact (splitCompress_cons htext hd 0 rest).trans (congrArg (text :: ·) ih)

end Monitoring.Lib
