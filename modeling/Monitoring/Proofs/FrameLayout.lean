import Monitoring.Client.Frame

/-!
# `Monitoring.Proofs.FrameLayout`: the fields of a well-formed frame

`Frame.bytes_eq` cuts the bytes `buildEvent` packs for a well-formed frame into its fields:

    '2'  block count  pdata  name length  user  timestamp

and the lemmas around it give the length of each field, say that none holds a NUL, and read the
two header numbers back: `streamHex_blockCount` and `streamHex_userLength`. The bounds of
`Frame` are what makes both exact. Nine blocks are the most that one decimal character counts,
and 255 is the longest name that two hexadecimal characters measure.
-/

set_option autoImplicit false

namespace Monitoring.Client

open Monitoring.Lib

/-- The character that counts the blocks of a frame. -/
def blockCountChar (n : Nat) : Byte := printedDigit (Nat.digitChar n)

/-- The program data is eight characters for each block. -/
@[simp] theorem length_printBlocks (words : List UInt32) :
    (printBlocks words).length = 8 * words.length := by
  induction words with
  | nil => rfl
  | cons w ws ih =>
      unfold printBlocks at ih ⊢
      rw [List.flatMap_cons, List.length_append, length_printHex8, ih, List.length_cons]
      omega

/-- `tstamp[0] .. tstamp[9]` of a ten-character timestamp is the timestamp. -/
theorem map_getD_range_ten {stamp : Bytes} (h : stamp.length = 10) :
    (List.range 10).map (fun i => stamp.getD i 0) = stamp := by
  apply List.ext_getElem
  · simp [h]
  · intro i h1 h2
    simp [List.getD_eq_getElem?_getD, List.getElem?_eq_getElem h2]

/-- The length field is the `%X` rendering with zeros up to two characters. -/
theorem packUserLength_eq {user : Bytes} (h : user.length ≤ 255) :
    packUserLength user = padZeros 2 (printBase 16 user.length) := by
  have hu : (u32 user.length).toNat = user.length := by
    rw [u32_of_lt (by omega) (by omega)]
    rfl
  unfold packUserLength padZeros
  rw [hu]
  -- one digit gets a zero in front, two digits are packed as they are
  by_cases hlt : user.length < 16
  · rw [if_pos hlt, printBase_of_lt hlt]
    rfl
  · have hstep := printBase_step (by decide) (show 16 ≤ user.length by omega)
    rw [printBase_of_lt (show user.length / 16 < 16 by omega)] at hstep
    rw [if_neg hlt, hstep]
    rfl

/-- The length field is two characters. -/
theorem length_packUserLength (user : Bytes) : (packUserLength user).length = 2 := by
  unfold packUserLength
  split <;> rfl

/-- The length field denotes the length of the name. -/
theorem streamHex_userLength {user : Bytes} (h : user.length ≤ 255) :
    streamHex (packUserLength user) = user.length := by
  rw [packUserLength_eq h]
  exact streamHex_padZeros 2 (by omega)

/-- The count character denotes the number of blocks. -/
theorem streamHex_blockCount {n : Nat} (h : n ≤ 9) : streamHex [blockCountChar n] = n := by
  interval_cases n <;> decide

/-- The count character is `'0'` for a frame without blocks, and for no other. -/
theorem blockCountChar_eq_zero_iff {n : Nat} (h : n ≤ 9) :
    blockCountChar n = ch '0' ↔ n = 0 := by
  interval_cases n <;> decide

/-- A digit is not NUL. -/
theorem zero_not_mem_of_digits {b : Nat} {ds : Bytes} (hb : b ≤ 16)
    (h : ∀ c ∈ ds, IsDigit b c) : 0 ∉ ds := by
  intro h0
  have hlt : digitVal 0 < b := h 0 h0
  have h16 : digitVal 0 = 16 := by decide
  omega

/-- The program data holds no NUL. -/
theorem zero_not_mem_printBlocks (words : List UInt32) : 0 ∉ printBlocks words := by
  refine zero_not_mem_of_digits (b := 16) (by decide) fun c hc => ?_
  obtain ⟨w, -, hw⟩ := List.mem_flatMap.mp hc
  exact isDigit_of_mem_printHex8 hw

/-- A character of a string without NUL. -/
theorem getD_ne_zero {l : Bytes} {i : Nat} (hi : i < l.length) (h : 0 ∉ l) : l.getD i 0 ≠ 0 := by
  rw [List.getD_eq_getElem?_getD, List.getElem?_eq_getElem hi, Option.getD_some]
  exact fun h0 => h (h0 ▸ List.getElem_mem hi)

theorem zero_not_mem_printBase {b : Nat} (n : Nat) (hb : 1 < b) (hb16 : b ≤ 16) :
    0 ∉ printBase b n :=
  zero_not_mem_of_digits hb16 fun _ hc => isDigit_of_mem_printBase hb hb16 hc

/-- `%d` prints no NUL and at least one character. -/
theorem printDec_getD_zero (i : Int) : (printDec i).getD 0 0 ≠ 0 := by
  have hnul := zero_not_mem_printBase i.natAbs (b := 10) (by decide) (by decide)
  unfold printDec
  split
  · exact (by decide : ch '-' ≠ 0)
  · exact getD_ne_zero (List.length_pos_iff.mpr (printBase_ne_nil _ _)) hnul

/-- The length field of any user name holds no NUL. -/
theorem zero_not_mem_packUserLength {user : Bytes} (h : user.length < 2 ^ 32) :
    0 ∉ packUserLength user := by
  have hu : (u32 user.length).toNat = user.length := by
    rw [u32_of_lt (by omega) (by omega)]
    rfl
  have hnul := zero_not_mem_printBase user.length (b := 16) (by decide) (by decide)
  have hpos : 0 < (printBase 16 user.length).length :=
    List.length_pos_iff.mpr (printBase_ne_nil _ _)
  unfold packUserLength
  rw [hu]
  split
  · have hfirst := getD_ne_zero hpos hnul
    simp only [List.mem_cons, List.not_mem_nil, or_false, not_or]
    exact ⟨by decide, hfirst.symm⟩
  -- sixteen or more: there is a second digit
  · have htwo : 1 < (printBase 16 user.length).length := by
      rw [printBase_step (by decide) (by omega), List.length_append, List.length_singleton]
      have := List.length_pos_iff.mpr (printBase_ne_nil 16 (user.length / 16))
      omega
    have hfirst := getD_ne_zero hpos hnul
    have hsecond := getD_ne_zero htwo hnul
    simp only [List.mem_cons, List.not_mem_nil, or_false, not_or]
    exact ⟨hfirst.symm, hsecond.symm⟩

/-- `build_event` puts no NUL into a frame, whatever the number of blocks. -/
theorem buildEvent_nul {tstamp pdata user : Bytes} (hstamp : 10 ≤ tstamp.length)
    (hstampNul : 0 ∉ tstamp) (hpdata : 0 ∉ pdata) (huser : 0 ∉ user)
    (hlen : user.length < 2 ^ 32) : 0 ∉ buildEvent tstamp pdata user := by
  unfold buildEvent
  simp only [List.mem_append, not_or]
  refine ⟨⟨⟨⟨?_, hpdata⟩, zero_not_mem_packUserLength hlen⟩, huser⟩, ?_⟩
  · simp only [List.mem_cons, List.not_mem_nil, or_false, not_or]
    exact ⟨by decide, (printDec_getD_zero _).symm⟩
  · intro h
    obtain ⟨i, hi, h0⟩ := List.mem_map.mp h
    have hi' := List.mem_range.mp hi
    exact getD_ne_zero (by omega) hstampNul h0

/-- The count that `build_event` packs for at most nine blocks. -/
theorem packedCount_eq {words : List UInt32} (h : words.length ≤ 9) :
    (printDec ((i32 ((printBlocks words).length : Int)).tdiv 8)).getD 0 0
      = blockCountChar words.length := by
  -- at most 72 characters of program data: the `int` does not wrap and the count is one digit
  rw [length_printBlocks, i32_of_lt (by omega) (by omega),
    Int.tdiv_eq_ediv_of_nonneg (by omega),
    show ((8 * words.length : Nat) : Int) / 8 = (words.length : Int) by omega]
  unfold printDec
  rw [if_neg (by omega), Int.natAbs_natCast, printBase_of_lt (by omega)]
  rfl

/-! ### The rounded clock -/

/-- The seconds come off before or after the conversion to `int`. -/
theorem getRoundedTimestamp_eq (clock : Int) :
    getRoundedTimestamp clock = printDec (i32 (clock - tmSec clock)) := by
  have hwrap : i32 (i32 clock - tmSec clock) = i32 (clock - tmSec clock) := by
    unfold i32
    omega
  unfold getRoundedTimestamp
  rw [hwrap]

/-- A minute that fits an `int` is printed as it is. -/
theorem getRoundedTimestamp_of_fits {clock : Int} (h0 : 0 ≤ clock - tmSec clock)
    (h : clock - tmSec clock < 2147483648) :
    getRoundedTimestamp clock = printBase 10 (clock - tmSec clock).toNat := by
  rw [getRoundedTimestamp_eq, i32_of_lt (by omega) h]
  unfold printDec
  rw [if_neg (by omega)]
  congr 1
  omega

/-- The numbers from `10 ^ 9` up to `10 ^ 10` print as ten digits. -/
theorem length_printBase_ten {n : Nat} (hlo : 10 ^ 9 ≤ n) (hhi : n < 10 ^ 10) :
    (printBase 10 n).length = 10 := by
  have hle : (printBase 10 n).length ≤ 10 := length_printBase_le (by decide) (by decide) hhi
  have hge : ¬ (printBase 10 n).length ≤ 9 := by
    unfold printBase
    rw [List.length_map, Nat.length_toDigits_le_iff (by decide) (by decide)]
    omega
  omega

namespace Frame

variable (f : Frame)

/-- The fields of a frame, in order. -/
theorem bytes_eq :
    f.bytes = [ch '2', blockCountChar f.words.length] ++ (printBlocks f.words
      ++ (packUserLength f.user ++ (f.user ++ f.stamp))) := by
  unfold bytes buildEvent
  rw [packedCount_eq f.words_le, map_getD_range_ten f.stamp_length]
  simp only [List.append_assoc]

/-- The length of a frame: 14 characters besides the blocks and the name. -/
theorem length_bytes : f.bytes.length = 14 + 8 * f.words.length + f.user.length := by
  rw [f.bytes_eq]
  simp only [List.length_append, List.length_cons, List.length_nil, length_printBlocks,
    length_packUserLength, f.stamp_length]
  omega

/-- A frame is at most 341 bytes long. -/
theorem length_bytes_le : f.bytes.length ≤ 341 := by
  have hw := f.words_le
  have hu := f.user_le
  rw [f.length_bytes]
  omega

theorem user_length_lt : f.user.length < 2 ^ 32 := by
  have hu := f.user_le
  omega

/-- The ten digits of the timestamp hold no NUL. -/
theorem stamp_nul : 0 ∉ f.stamp := zero_not_mem_of_digits (by decide) f.stamp_digits

/-- A frame holds no NUL, so it survives the C strings on its way. -/
theorem bytes_nul : 0 ∉ f.bytes :=
  buildEvent_nul (Nat.le_of_eq f.stamp_length.symm) f.stamp_nul (zero_not_mem_printBlocks _)
    f.user_nul f.user_length_lt

end Frame

/-- A response holds no NUL. -/
theorem zero_not_mem_concatFrames (fs : List Frame) : 0 ∉ concatFrames fs := by
  intro h
  obtain ⟨f, -, hf⟩ := List.mem_flatMap.mp h
  exact f.bytes_nul hf

theorem concatFrames_cons (f : Frame) (fs : List Frame) :
    concatFrames (f :: fs) = f.bytes ++ concatFrames fs := List.flatMap_cons

/-- The length of a response that repeats one frame. -/
theorem length_concatFrames_replicate (n : Nat) (f : Frame) :
    (concatFrames (List.replicate n f)).length = n * f.bytes.length := by
  unfold concatFrames
  rw [List.length_flatMap, List.map_replicate, List.sum_replicate_nat]

end Monitoring.Client
