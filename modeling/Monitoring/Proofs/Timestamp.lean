import Monitoring.Proofs.FrameLayout

/-!
# `Monitoring.Proofs.Timestamp`: the timestamp is the minute of the clock

`build_event` packs ten characters of what `get_rounded_timestamp` prints, without looking how many
there are. The clock has 64 bits, but the number that is printed is an `int`. So the text is the
minute as long as the minute fits one (`stampsMinute_iff`). From 2038 on the characters are those of
a number that has wrapped: a minus sign and nine digits, or a number that is too small.
-/

set_option autoImplicit false

namespace Monitoring.Client

open Monitoring.Lib

/-- The last ten characters of a frame: what `build_event` packs for the timestamp. -/
def packedStamp (clock : Int) (pdata user : Bytes) : Bytes :=
  (buildEventAt clock pdata user).drop (4 + pdata.length + user.length)

/-- The timestamp of a frame is the text of the minute, and the server reads the minute back. -/
def StampsMinute (clock : Int) (pdata user : Bytes) : Prop :=
  packedStamp clock pdata user = printDec (clock - tmSec clock) ∧
    u64 (atol (cstr (packedStamp clock pdata user))) = clock - tmSec clock

/-- `tstamp[0] .. tstamp[9]`. -/
theorem packedStamp_eq (clock : Int) (pdata user : Bytes) :
    packedStamp clock pdata user
      = (List.range 10).map fun i => (getRoundedTimestamp clock).getD i 0 := by
  unfold packedStamp buildEventAt buildEvent
  refine List.drop_left' ?_
  simp only [List.length_append, List.length_cons, List.length_nil, length_packUserLength]
  omega

/-- A text of at most ten characters is packed with the NULs behind it. -/
theorem map_getD_range_short {text : Bytes} (h : text.length ≤ 10) :
    (List.range 10).map (fun i => text.getD i 0)
      = text ++ List.replicate (10 - text.length) 0 := by
  have hpad : (text ++ List.replicate (10 - text.length) 0).length = 10 := by simp; omega
  rw [← map_getD_range_ten hpad]
  refine List.map_congr_left fun i _ => ?_
  rw [List.getD_eq_getElem?_getD, List.getD_eq_getElem?_getD, List.getElem?_append]
  split
  · rfl
  · rw [List.getElem?_eq_none (by omega), List.getElem?_replicate]
    split <;> rfl

/-- What the server reads of a number that fits an `int` and has no sign. -/
theorem atol_packed {n : Nat} (h : n < 2147483648) :
    u64 (atol (cstr ((List.range 10).map fun i => (printBase 10 n).getD i 0))) = n := by
  have hlen : (printBase 10 n).length ≤ 10 :=
    length_printBase_le (by decide) (by decide) (by omega)
  have hnul := zero_not_mem_printBase n (b := 10) (by decide) (by decide)
  have hpad : cstr (List.replicate (10 - (printBase 10 n).length) 0) = [] := by
    cases 10 - (printBase 10 n).length <;> rfl
  have hdigits : ∀ c ∈ printBase 10 n, IsDigit 10 c :=
    fun _ hc => isDigit_of_mem_printBase (by decide) (by decide) hc
  rw [map_getD_range_short hlen, cstr_append _ hnul, hpad, List.append_nil,
    atol_of_digits hdigits (by omega), fieldValue_printBase n (by decide) (by decide),
    u64_of_lt (by omega) (by omega)]

/-- The minute fits an `int`. -/
theorem stampsMinute_of_fits {clock : Int} {pdata user : Bytes}
    (hlo : 10 ^ 9 ≤ clock - tmSec clock) (hfits : clock - tmSec clock < 2147483648) :
    StampsMinute clock pdata user := by
  have hten := length_printBase_ten (n := (clock - tmSec clock).toNat) (by omega) (by omega)
  have hprint : printDec (clock - tmSec clock) = printBase 10 (clock - tmSec clock).toNat := by
    unfold printDec
    rw [if_neg (by omega)]
    congr 1
    omega
  have hvalue := atol_packed (n := (clock - tmSec clock).toNat) (by omega)
  unfold StampsMinute
  rw [packedStamp_eq, getRoundedTimestamp_of_fits (by omega) hfits, hprint]
  refine ⟨map_getD_range_ten hten, ?_⟩
  rw [hvalue]
  omega

/-- The minute does not fit. Then a sign is packed in front of it, or another number is read. -/
theorem not_stampsMinute {clock : Int} {pdata user : Bytes}
    (hbig : 2147483648 ≤ clock - tmSec clock) : ¬ StampsMinute clock pdata user := by
  rintro ⟨htext, hread⟩
  rw [packedStamp_eq, getRoundedTimestamp_eq] at htext hread
  by_cases hneg : i32 (clock - tmSec clock) < 0
  · have hminus : (ch '-') ∈ printDec (clock - tmSec clock) := by
      rw [← htext]
      refine List.mem_map.mpr ⟨0, by decide, ?_⟩
      unfold printDec
      rw [if_pos hneg]
      rfl
    exact absurd (isDigit_of_mem_printDec (by omega) hminus) (by decide)
  · have hi32 : i32 (clock - tmSec clock) < 2147483648 := by
      unfold i32
      omega
    have hlt : (i32 (clock - tmSec clock)).natAbs < 2147483648 := by omega
    have hvalue := atol_packed hlt
    unfold printDec at hread
    rw [if_neg hneg, hvalue] at hread
    -- a number below `2 ^ 31` is not the minute
    omega

/-- The timestamp of a frame is the minute of the clock exactly if the minute fits an `int`. -/
theorem stampsMinute_iff (clock : Int) (pdata user : Bytes)
    (hlo : 10 ^ 9 ≤ clock - tmSec clock) :
    StampsMinute clock pdata user ↔ clock - tmSec clock < 2147483648 := by
  constructor
  · intro h
    by_contra hbig
    exact not_stampsMinute (by omega) h
  · exact stampsMinute_of_fits hlo

/-- The last minute before the 32 bits are used up. -/
theorem stampsMinute_iff_last : StampsMinute 2147483647 [] (str "ann") :=
  (stampsMinute_iff 2147483647 [] (str "ann") (by decide)).mpr (by decide)

/-- In the minute after that, a minus sign and the first nine digits are packed. -/
theorem stampsMinute_fails :
    packedStamp 2147483700 [] (str "ann") = str "-214748359" ∧
      10 ^ 9 ≤ 2147483700 - tmSec 2147483700 ∧ 2147483700 - tmSec 2147483700 < 10 ^ 10 ∧
      ¬ StampsMinute 2147483700 [] (str "ann") :=
  ⟨by decide, by decide, by decide, not_stampsMinute (by decide)⟩

end Monitoring.Client
