import Monitoring.Proofs.EventStream

/-!
# `Monitoring.Proofs.DecoderLoop`: when the decoding loop ends

A pass of the loop moves `current_index` behind the frame whose header it has read: by 14, eight for
each block, and the length of the user name. The length is two characters from the response, read
into an `unsigned int`. The reader takes a sign: `-e` is read as `2 ^ 32 - 14`. The sum is computed
in `unsigned int` and assigned to an `int`, so such a length moves `current_index` back. It also
makes `char user[ulen]` an array of 4 GB, which the model lets exist; a real process faults there.

`Advances` says of one position, in terms of the characters that stand there, that the pass moves
on. `decoderEnds_iff` says that the loop runs forward, and ends, exactly if this holds of every
position that it comes to.
-/

set_option autoImplicit false

namespace Monitoring.Server

open Monitoring.Lib

/-- The loop over the response starts a pass in this state. -/
def PassAt (env : ParseEnv) (data : Memory) (machine : Bytes) (st : ParseState)
    (s : LoopState) : Prop :=
  data.get 1 ≠ ch '0' ∧
    LoopAt (fun s : LoopState => decide (s.currentIndex < data.dlen)) (parseFrame env data machine)
      ⟨0, st⟩ s ∧
    s.currentIndex < data.dlen

/-- Every pass leaves `current_index` larger than it found it, and the decoding ends. -/
def DecoderEnds (env : ParseEnv) (data : Memory) (machine : Bytes) (st : ParseState) : Prop :=
  (∀ s, PassAt env data machine st s →
    s.currentIndex < (parseFrame env data machine s).currentIndex) ∧
  ∃ n st', ∀ fuel, n ≤ fuel → parseEventBlock env data machine fuel st = some st'

/-- A frame without blocks does not have the name length -14 or -15, and the frame does not end
beyond the range of `int`. -/
def Advances (data : Memory) (currentIndex : Int) : Prop :=
  (data.numBlocks currentIndex = 0 →
    data.usize currentIndex ∉ [str "-e", str "-E", str "-f", str "-F"]) ∧
  currentIndex + 14 + 8 * data.numBlocks currentIndex + i32 (data.ulen currentIndex) < 2147483648

/-! ### One pass -/

section
variable {env : ParseEnv} {data : Memory} {machine : Bytes} {st : ParseState}

/-- The two largest hexadecimal digits. -/
theorem mem_largest_digits {c : Byte} :
    c ∈ [ch 'e', ch 'E', ch 'f', ch 'F'] ↔ 14 ≤ digitVal c ∧ digitVal c < 16 := by
  have hchars : [ch 'e', ch 'E', ch 'f', ch 'F'] = [101, 69, 102, 70] := by decide
  simp only [hchars, List.mem_cons, List.not_mem_nil, or_false, ← UInt8.toNat_inj, digitVal,
    UInt8.le_iff_toNat_le, UInt8.toNat_ofNat]
  split_ifs <;> omega

/-- One character counts at most fifteen blocks. -/
theorem numBlocks_le (currentIndex : Int) : data.numBlocks currentIndex ≤ 15 := by
  unfold Memory.numBlocks
  rcases streamHex_short (s := [data.get (i32 (currentIndex + 1))]) (by simp) with hlt | ⟨c, hs, -⟩
  · simp only [List.length_cons, List.length_nil] at hlt
    omega
  · exact absurd (congrArg List.length hs) (by simp)

/-- The length of the name is a small number, or one that has wrapped. -/
theorem ulen_cases (currentIndex : Int) :
    (data.ulen currentIndex ≤ 255 ∧
        data.usize currentIndex ∉ [str "-e", str "-E", str "-f", str "-F"]) ∨
      ∃ d, 1 ≤ d ∧ d < 16 ∧ data.ulen currentIndex = 2 ^ 32 - d ∧
        (data.usize currentIndex ∈ [str "-e", str "-E", str "-f", str "-F"] ↔ 14 ≤ d) := by
  have htwo : (data.usize currentIndex).length = 2 := rfl
  have hle : (cstr (data.usize currentIndex)).length ≤ 2 := htwo ▸ length_cstr_le _
  rcases streamHex_short hle with hlt | ⟨c, hs, hd1, hd16, hulen⟩
  · left
    have hsmall : data.ulen currentIndex ≤ 255 := by
      have hpow : 16 ^ (cstr (data.usize currentIndex)).length ≤ 16 ^ 2 :=
        Nat.pow_le_pow_right (by decide) hle
      unfold Memory.ulen
      omega
    refine ⟨hsmall, fun hmem => ?_⟩
    -- each of the four texts is read as a large number
    have hlarge : ∀ t ∈ [str "-e", str "-E", str "-f", str "-F"], 255 < streamHex (cstr t) := by
      decide
    exact absurd hsmall (Nat.not_le.mpr (hlarge _ hmem))
  · right
    have husize : data.usize currentIndex = [ch '-', c] := by
      rw [← hs]
      exact ((List.takeWhile_prefix _).eq_of_length (by
        rw [htwo]
        exact congrArg List.length hs)).symm
    have hmem : data.usize currentIndex ∈ [str "-e", str "-E", str "-f", str "-F"]
        ↔ c ∈ [ch 'e', ch 'E', ch 'f', ch 'F'] := by
      rw [husize]
      simp [str]
    exact ⟨digitVal c, hd1, hd16, hulen, by rw [hmem, mem_largest_digits]; omega⟩

variable (env machine) in
/-- A pass moves on from a position in the response exactly if the characters there allow it. -/
theorem pass_advances_iff {s : LoopState} (h0 : 0 ≤ s.currentIndex)
    (hloop : s.currentIndex < data.dlen) :
    s.currentIndex < (parseFrame env data machine s).currentIndex ↔
      Advances data s.currentIndex := by
  have hlt : s.currentIndex + 1 < 2147483648 := by
    unfold Memory.dlen i32 at hloop
    omega
  have hblocks : data.numBlocks s.currentIndex ≤ 15 := numBlocks_le s.currentIndex
  -- 14 and the two fields, in the arithmetic of `int`
  have hnext : (parseFrame env data machine s).currentIndex = i32 (s.currentIndex + 14
      + 8 * data.numBlocks s.currentIndex + i32 (data.ulen s.currentIndex)) := by
    rw [parseFrame_currentIndex]
    unfold Memory.tstart u32 i32
    omega
  rw [hnext]
  unfold Advances
  rcases @ulen_cases data s.currentIndex with ⟨hulen, husize⟩ | ⟨d, hd1, hd16, hulen, husize⟩
  · have hsmall : i32 (data.ulen s.currentIndex) = data.ulen s.currentIndex :=
      i32_of_lt (by omega) (by omega)
    simp only [husize, not_false_eq_true, implies_true, true_and, hsmall]
    unfold i32
    omega
  · have hneg : i32 (data.ulen s.currentIndex) = -d := by
      rw [hulen]
      unfold i32
      omega
    rw [husize, hneg]
    unfold i32
    omega

/-! ### The whole loop -/

/-- While every pass moves on, `current_index` is not negative. -/
theorem PassAt.nonneg
    (hpass : ∀ s, PassAt env data machine st s → 0 ≤ s.currentIndex →
      s.currentIndex < (parseFrame env data machine s).currentIndex)
    {s : LoopState} (hs : PassAt env data machine st s) : 0 ≤ s.currentIndex := by
  obtain ⟨hbranch, hloop, -⟩ := hs
  induction hloop with
  | start => exact Int.le_refl 0
  | pass hloop hcond ih =>
      exact ih.trans (hpass _ ⟨hbranch, hloop, of_decide_eq_true hcond⟩ ih).le

/-- Where every pass moves on, the decoding ends: `current_index` comes to `dlen`. -/
theorem parseEventBlock_ends
    (hpass : ∀ s, PassAt env data machine st s →
      s.currentIndex < (parseFrame env data machine s).currentIndex) :
    ∃ n st', ∀ fuel, n ≤ fuel → parseEventBlock env data machine fuel st = some st' := by
  by_cases hbranch : data.get 1 = ch '0'
  · refine ⟨0, parseZeroBlock env data machine st, fun fuel _ => ?_⟩
    unfold parseEventBlock
    rw [if_pos hbranch]
  · obtain ⟨n, t, ht⟩ := @LoopAt.ends LoopState
      (fun s => decide (s.currentIndex < data.dlen)) (parseFrame env data machine)
      (fun s => (data.dlen - s.currentIndex).toNat) ⟨0, st⟩ (by
        intro s hs hcond
        have hlt := of_decide_eq_true hcond
        have hnext := hpass s ⟨hbranch, hs, hlt⟩
        omega)
    refine ⟨n, t.st, fun fuel hfuel => ?_⟩
    unfold parseEventBlock
    rw [if_neg hbranch, ht fuel hfuel]
    rfl

variable (env data machine st) in
/-- The decoding loop runs forward, and ends, exactly if no pass comes to a position from which it
cannot move on. -/
theorem decoderEnds_iff : DecoderEnds env data machine st ↔
    ∀ s, PassAt env data machine st s → Advances data s.currentIndex := by
  constructor
  · intro h s hs
    have h0 := hs.nonneg fun s hs _ => h.1 s hs
    exact (pass_advances_iff env machine h0 hs.2.2).mp (h.1 s hs)
  · intro h
    have hpass : ∀ s, PassAt env data machine st s →
        s.currentIndex < (parseFrame env data machine s).currentIndex := by
      intro s hs
      have h0 := hs.nonneg fun s hs h0 => (pass_advances_iff env machine h0 hs.2.2).mpr (h s hs)
      exact (pass_advances_iff env machine h0 hs.2.2).mpr (h s hs)
    exact ⟨hpass, parseEventBlock_ends hpass⟩

/-- A response of four bytes: `g` is no number, and the name has the length -14. -/
def backwards : Memory := ⟨str "2g-e", fun _ => 0⟩

/-- A frame without blocks leaves the queue and the clock alone. -/
theorem parseFrame_st_of_numBlocks {s : LoopState} (h : data.numBlocks s.currentIndex = 0) :
    (parseFrame env data machine s).st = s.st := by
  have hblocks : streamHex [data.get (i32 (s.currentIndex + 1))] = 0 := h
  unfold parseFrame
  dsimp only
  rw [hblocks]
  rfl

/-- The pass leads back to where it has started. -/
theorem parseFrame_backwards :
    parseFrame quietEnv backwards [] ⟨0, emptyState⟩ = ⟨0, emptyState⟩ := by
  have hindex : (parseFrame quietEnv backwards [] ⟨0, emptyState⟩).currentIndex = 0 := by
    rw [parseFrame_currentIndex]
    decide
  have hst : (parseFrame quietEnv backwards [] ⟨0, emptyState⟩).st = emptyState :=
    parseFrame_st_of_numBlocks (by decide)
  calc parseFrame quietEnv backwards [] ⟨0, emptyState⟩
      = ⟨(parseFrame quietEnv backwards [] ⟨0, emptyState⟩).currentIndex,
          (parseFrame quietEnv backwards [] ⟨0, emptyState⟩).st⟩ := rfl
    _ = ⟨0, emptyState⟩ := by rw [hindex, hst]

/-- The loop does not end. -/
theorem decoderEnds_fails :
    (∀ fuel, parseEventBlock quietEnv backwards [] fuel emptyState = none) ∧
      ¬ DecoderEnds quietEnv backwards [] emptyState := by
  have hbranch : ¬ backwards.get 1 = ch '0' := by decide
  have hnone : ∀ fuel, parseEventBlock quietEnv backwards [] fuel emptyState = none := by
    intro fuel
    unfold parseEventBlock
    rw [if_neg hbranch, whileFuel_stuck (by decide) parseFrame_backwards]
    rfl
  refine ⟨hnone, fun h => ?_⟩
  obtain ⟨n, st', hn⟩ := h.2
  exact absurd (hn n (Nat.le_refl n)) (by rw [hnone]; simp)

end

end Monitoring.Server
