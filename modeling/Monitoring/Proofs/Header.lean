import Monitoring.Proofs.EventStream

/-!
# `Monitoring.Proofs.Header`: the two numbers in the header of a frame

`build_event` prints the number of blocks and the length of the user name, and packs the first
character of the one and the first two of the other. The count is printed in decimal. Nothing
refuses a number that is wider. `header_iff` says which headers the server reads back: those of up
to nine blocks and of names of up to 255 bytes.

What is cut off cannot come back. One decimal digit is at most nine, and two hexadecimal digits are
at most 255, whatever was printed behind them.
-/

set_option autoImplicit false

namespace Monitoring.Server

open Monitoring.Lib
open Monitoring.Client (buildEvent packUserLength printBlocks blockCountChar)

/-- The character that counts the blocks reads as one decimal digit at most, also where the number
has wrapped and starts with a minus sign. -/
theorem streamHex_printDec_first_le (i : Int) : streamHex [(printDec i).getD 0 0] ≤ 9 := by
  unfold printDec
  split
  · exact (by decide : streamHex [ch '-'] ≤ 9)
  · have hne := printBase_ne_nil 10 i.natAbs
    obtain ⟨c, rest, hprint⟩ := List.exists_cons_of_ne_nil hne
    have hdigit : IsDigit 10 c :=
      isDigit_of_mem_printBase (n := i.natAbs) (by decide) (by decide) (by rw [hprint]; simp)
    have hlt : digitVal c < 10 := hdigit
    have hread : streamHex [c] = digitVal c := streamHex_digit (show digitVal c < 16 by omega)
    rw [hprint, List.getD_cons_zero, hread]
    omega

/-- Both characters of the name length are hexadecimal digits, but for a NUL behind the digits of a
length that has wrapped. -/
theorem isDigit_of_mem_packUserLength {user : Bytes} {c : Byte}
    (hc : c ∈ cstr (packUserLength user)) : IsDigit 16 c := by
  have hne : c ≠ 0 := fun h0 => zero_not_mem_cstr _ (h0 ▸ hc)
  have hmem : c ∈ packUserLength user := (List.takeWhile_prefix _).subset hc
  have hdigit : ∀ i, c = (printBase 16 (u32 user.length).toNat).getD i 0 → IsDigit 16 c := by
    rintro i rfl
    rw [List.getD_eq_getElem?_getD] at hne ⊢
    cases hget : (printBase 16 (u32 user.length).toNat)[i]? with
    | none => exact absurd (by rw [hget]; rfl) hne
    | some d => exact isDigit_of_mem_printBase (by decide) (by decide) (List.mem_of_getElem? hget)
  unfold packUserLength at hmem
  split at hmem
  · rcases List.mem_pair.mp hmem with rfl | rfl
    · decide
    · exact hdigit 0 rfl
  · rcases List.mem_pair.mp hmem with rfl | rfl
    · exact hdigit 0 rfl
    · exact hdigit 1 rfl

/-- The length that is read is at most 255. -/
theorem streamHex_packUserLength_le (user : Bytes) :
    streamHex (cstr (packUserLength user)) ≤ 255 := by
  have hlen : (cstr (packUserLength user)).length ≤ 2 :=
    (length_cstr_le _).trans (Client.length_packUserLength user).le
  rcases streamHex_short hlen with hlt | ⟨c, hs, -⟩
  · have hpow : 16 ^ (cstr (packUserLength user)).length ≤ 16 ^ 2 :=
      Nat.pow_le_pow_right (by decide) hlen
    omega
  · -- a minus sign is no digit
    have hminus : ch '-' ∈ cstr (packUserLength user) := by simp [hs]
    exact absurd (isDigit_of_mem_packUserLength hminus) (by decide)

section
variable {m : Memory} {before after tstamp user : Bytes} {words : List UInt32}

/-- The count that is read at a frame. -/
theorem numBlocks_eq
    (htext : m.text = before ++ (buildEvent tstamp (printBlocks words) user ++ after))
    (hloop : (before.length : Int) < m.dlen) :
    m.numBlocks before.length
      = streamHex [(printDec ((i32 ((printBlocks words).length : Int)).tdiv 8)).getD 0 0] := by
  have hindex : i32 ((before.length : Int) + 1) = before.length + 1 := by
    unfold Memory.dlen i32 at hloop
    exact i32_of_lt (by omega) (by omega)
  have hget : m.get (before.length + 1)
      = (printDec ((i32 ((printBlocks words).length : Int)).tdiv 8)).getD 0 0 := by
    refine Memory.get_of_append (a := before ++ [ch '2']) (b := printBlocks words
      ++ packUserLength user ++ user ++ (List.range 10).map (fun i => tstamp.getD i 0) ++ after)
      ?_ (by simp)
    rw [htext]
    unfold buildEvent
    simp only [List.append_assoc, List.cons_append, List.nil_append]
  unfold Memory.numBlocks
  rw [hindex, hget]

/-- The name length that is read at a frame whose blocks have been counted right. -/
theorem ulen_eq (htext : m.text = before ++ (buildEvent tstamp (printBlocks words) user ++ after))
    (hloop : (before.length : Int) < m.dlen) (hcount : m.numBlocks before.length = words.length)
    (hwords : words.length ≤ 9) :
    m.ulen before.length = streamHex (cstr (packUserLength user)) := by
  have hlt : (before.length : Int) + 1 < 2147483648 := by
    unfold Memory.dlen i32 at hloop
    omega
  have hcopy : m.copy (before.length + 2 + 8 * words.length) 2 = packUserLength user := by
    refine Memory.copy_of_append (a := before ++ ([ch '2',
      (printDec ((i32 ((printBlocks words).length : Int)).tdiv 8)).getD 0 0] ++ printBlocks words))
      (c := user ++ (List.range 10).map (fun i => tstamp.getD i 0) ++ after) ?_ ?_
      (Client.length_packUserLength user).symm
    · rw [htext]
      unfold buildEvent
      simp only [List.append_assoc]
    · simp only [List.length_append, List.length_cons, List.length_nil,
        Client.length_printBlocks]
      omega
  have hnext : (before.length : Int) + 2 + 8 * words.length + 1
      = before.length + 3 + 8 * words.length := by omega
  unfold Memory.ulen
  rw [← hcopy, Memory.copy_two, hnext,
    Memory.usize_of_numBlocks hcount (by omega) (by omega)]

/-- The header of a frame is read back exactly if it has at most nine blocks, and a name of at most
255 bytes. The frame may stand anywhere in the response where a pass of the loop can start. -/
theorem header_iff
    (htext : m.text = before ++ (buildEvent tstamp (printBlocks words) user ++ after))
    (hloop : (before.length : Int) < m.dlen) :
    (m.numBlocks before.length = words.length ∧ m.ulen before.length = user.length) ↔
      words.length ≤ 9 ∧ user.length ≤ 255 := by
  have hcount := numBlocks_eq htext hloop
  constructor
  · rintro ⟨hwords, huser⟩
    have hle := streamHex_printDec_first_le ((i32 ((printBlocks words).length : Int)).tdiv 8)
    have hwords9 : words.length ≤ 9 := by omega
    have hulen := ulen_eq htext hloop hwords hwords9
    have hle255 := streamHex_packUserLength_le user
    exact ⟨hwords9, by omega⟩
  · rintro ⟨hwords9, huser⟩
    have hwords : m.numBlocks before.length = words.length := by
      rw [hcount, Client.packedCount_eq hwords9, Client.streamHex_blockCount hwords9]
    have hnul : 0 ∉ packUserLength user := Client.zero_not_mem_packUserLength (by omega)
    refine ⟨hwords, ?_⟩
    rw [ulen_eq htext hloop hwords hwords9, cstr_eq_self hnul, Client.streamHex_userLength huser]

/-- Nine blocks, and a name of sixteen bytes. -/
theorem header_iff_nine :
    (Memory.mk (buildEvent (str "1000000020") (printBlocks (List.replicate 9 1))
        (List.replicate 16 (ch 'n'))) fun _ => 0).numBlocks 0 = 9 ∧
      (Memory.mk (buildEvent (str "1000000020") (printBlocks (List.replicate 9 1))
        (List.replicate 16 (ch 'n'))) fun _ => 0).ulen 0 = 16 :=
  (@header_iff _ [] [] (str "1000000020") (List.replicate 16 (ch 'n')) (List.replicate 9 1)
    (by simp) (by decide)).mpr ⟨by decide, by decide⟩

/-- The response with one frame of ten blocks. -/
def tenBlocks : Memory :=
  ⟨buildEvent (str "1000000020") (printBlocks (List.replicate 10 1)) (str "ann"), fun _ => 0⟩

/-- Ten blocks are counted as one, and then the name is looked for among them. -/
theorem header_iff_fails :
    tenBlocks.numBlocks 0 = 1 ∧
      ¬ (tenBlocks.numBlocks 0 = (List.replicate 10 (1 : UInt32)).length ∧
        tenBlocks.ulen 0 = (str "ann").length) := by
  have hone : tenBlocks.numBlocks 0 = 1 :=
    (@numBlocks_eq tenBlocks [] [] (str "1000000020") (str "ann") (List.replicate 10 1)
      (by simp [tenBlocks]) (by decide)).trans (by decide)
  exact ⟨hone, fun h => absurd (hone.symm.trans h.1) (by decide)⟩

end

end Monitoring.Server
