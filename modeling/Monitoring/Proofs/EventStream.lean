import Monitoring.Proofs.FrameLayout
import Monitoring.Server.EventBlock

/-!
# `Monitoring.Proofs.EventStream`: the decoder reads the frames of a response

A response is the frames of a client, one after the other. `FrameAt m k f` says that `f` stands at
byte `k` of the memory the decoder reads, and gives every field of `f` at the index the decoder
computes for it. As long as the response is shorter than `2 ^ 31` bytes, none of these indices
wraps.

`parseFrame_eq` is one pass of the loop: it queues the rows of one frame and stops at the byte
behind it. `parseFrames_eq` follows by induction on the frames that are left, and
`parseEventBlock_roundTrip` is the round trip. Above `2 ^ 31` bytes the length of the response is
negative, and the loop does not run (`parseEventBlock_long`).

`Queues` is the statement in which all results about the decoder are put. It asks for an end of
the loop under every large amount of fuel, so a decoder that does not end queues nothing.
-/

set_option autoImplicit false

namespace Monitoring.Server

open Monitoring.Lib
open Monitoring.Client (Frame concatFrames packUserLength printBlocks blockCountChar)

/-! ### Reading fields from memory -/

namespace Memory

variable {m : Memory}

/-- A byte of the text. -/
theorem get_of_append {a b : Bytes} {x : Byte} {i : Int} (h : m.text = a ++ x :: b)
    (hi : i = a.length) : m.get i = x := by
  unfold get
  rw [h, if_neg (by simp only [List.length_append, List.length_cons]; omega), hi]
  simp

/-- A run of bytes of the text, copied with an `int` index. -/
theorem copy_of_append {a b c : Bytes} {start : Int} {n : Nat} (h : m.text = a ++ (b ++ c))
    (hs : start = a.length) (hn : n = b.length) : m.copy start n = b := by
  subst hn
  unfold copy
  apply List.ext_getElem
  · simp
  · intro j h1 h2
    rw [List.getElem_map, List.getElem_range]
    have hsplit : m.text = (a ++ b.take j) ++ b[j] :: (b.drop (j + 1) ++ c) := by
      conv_lhs => rw [h, ← List.take_append_drop j b, List.drop_eq_getElem_cons h2]
      simp only [List.append_assoc, List.cons_append]
    refine get_of_append hsplit ?_
    rw [hs, List.length_append, List.length_take]
    omega

/-- Two bytes, one by one. -/
theorem copy_two (start : Int) : m.copy start 2 = [m.get start, m.get (start + 1)] := by
  simp [copy, List.range_succ]

/-- With an `unsigned int` index, inside the range of the type. -/
theorem copyU_of_append {a b c : Bytes} {start : Int} {n : Nat} (h : m.text = a ++ (b ++ c))
    (hlen : a.length + b.length < 2 ^ 32) (hs : start = a.length) (hn : n = b.length) :
    m.copyU start n = b := by
  rw [← copy_of_append h hs hn]
  unfold copyU copy
  refine List.map_congr_left fun j hj => ?_
  have hj' := List.mem_range.mp hj
  rw [u32_of_lt (by omega) (by omega)]

end Memory

/-- The frame `f` stands in the response, `k` bytes from its start. -/
def FrameAt (m : Memory) (k : Nat) (f : Frame) : Prop :=
  ∃ before after, m.text = before ++ (f.bytes ++ after) ∧ before.length = k

namespace FrameAt

variable {m : Memory} {k : Nat} {f : Frame}

/-- A frame ends inside the text. -/
theorem end_le (h : FrameAt m k f) : k + f.bytes.length ≤ m.text.length := by
  obtain ⟨before, after, htext, rfl⟩ := h
  rw [htext, List.length_append, List.length_append]
  omega

theorem flag (h : FrameAt m k f) : m.get k = ch '2' := by
  obtain ⟨before, after, htext, rfl⟩ := h
  rw [f.bytes_eq] at htext
  exact Memory.get_of_append htext rfl

theorem count (h : FrameAt m k f) : m.get (k + 1) = blockCountChar f.words.length := by
  obtain ⟨before, after, htext, rfl⟩ := h
  rw [f.bytes_eq] at htext
  refine Memory.get_of_append (a := before ++ [ch '2']) (b := printBlocks f.words
    ++ (packUserLength f.user ++ (f.user ++ f.stamp)) ++ after) ?_ (by simp)
  rw [htext]
  simp only [List.append_assoc, List.cons_append, List.nil_append]

theorem userLength (h : FrameAt m k f) :
    [m.get (k + 2 + 8 * f.words.length), m.get (k + 3 + 8 * f.words.length)]
      = packUserLength f.user := by
  obtain ⟨before, after, htext, rfl⟩ := h
  rw [f.bytes_eq] at htext
  have hcopy : m.copy (before.length + 2 + 8 * f.words.length) 2 = packUserLength f.user :=
    Memory.copy_of_append
    (a := before ++ ([ch '2', blockCountChar f.words.length] ++ printBlocks f.words))
    (b := packUserLength f.user) (c := f.user ++ f.stamp ++ after)
    (by rw [htext]; simp only [List.append_assoc])
    (by simp only [List.length_append, List.length_cons, List.length_nil,
          Client.length_printBlocks]; omega)
    (Client.length_packUserLength _).symm
  rw [← hcopy, Memory.copy_two]
  congr 3
  omega

theorem user (h : FrameAt m k f) (hlen : k + f.bytes.length < 2 ^ 32) :
    m.copyU (k + 4 + 8 * f.words.length) f.user.length = f.user := by
  obtain ⟨before, after, htext, rfl⟩ := h
  rw [f.length_bytes] at hlen
  rw [f.bytes_eq] at htext
  refine Memory.copyU_of_append (c := f.stamp ++ after)
    (a := before ++ ([ch '2', blockCountChar f.words.length] ++ (printBlocks f.words
      ++ packUserLength f.user))) ?_ ?_ ?_ rfl
  · rw [htext]
    simp only [List.append_assoc]
  · simp only [List.length_append, List.length_cons, List.length_nil,
      Client.length_printBlocks, Client.length_packUserLength]
    omega
  · simp only [List.length_append, List.length_cons, List.length_nil,
      Client.length_printBlocks, Client.length_packUserLength]
    omega

theorem stamp (h : FrameAt m k f) (hlen : k + f.bytes.length < 2 ^ 32) :
    m.copyU (k + 4 + 8 * f.words.length + f.user.length) 10 = f.stamp := by
  obtain ⟨before, after, htext, rfl⟩ := h
  rw [f.length_bytes] at hlen
  rw [f.bytes_eq] at htext
  refine Memory.copyU_of_append (c := after)
    (a := before ++ ([ch '2', blockCountChar f.words.length] ++ (printBlocks f.words
      ++ (packUserLength f.user ++ f.user)))) ?_ ?_ ?_ f.stamp_length.symm
  · rw [htext]
    simp only [List.append_assoc]
  · simp only [List.length_append, List.length_cons, List.length_nil,
      Client.length_printBlocks, Client.length_packUserLength, f.stamp_length]
    omega
  · simp only [List.length_append, List.length_cons, List.length_nil,
      Client.length_printBlocks, Client.length_packUserLength]
    omega

theorem block (h : FrameAt m k f) {i : Nat} (hi : i < f.words.length) :
    m.copy (k + 2 + 8 * i) 8 = printHex8 f.words[i] := by
  obtain ⟨before, after, htext, rfl⟩ := h
  rw [f.bytes_eq] at htext
  have hwords : printBlocks f.words = printBlocks (f.words.take i)
      ++ (printHex8 f.words[i] ++ printBlocks (f.words.drop (i + 1))) := by
    unfold printBlocks
    rw [← List.flatMap_cons, List.getElem_cons_drop, ← List.flatMap_append,
      List.take_append_drop]
  refine Memory.copy_of_append
    (a := before ++ ([ch '2', blockCountChar f.words.length] ++ printBlocks (f.words.take i)))
    (c := printBlocks (f.words.drop (i + 1)) ++ (packUserLength f.user
      ++ (f.user ++ (f.stamp ++ after)))) ?_ ?_ (length_printHex8 _).symm
  · rw [htext, hwords]
    simp only [List.append_assoc]
  · simp only [List.length_append, List.length_cons, List.length_nil,
      Client.length_printBlocks, List.length_take]
    omega

end FrameAt

/-! ### The rows a frame stands for -/

/-- The row of block `i`: machine, timestamp, user, `block_offset = i + 1` and the word. -/
def frameRow (machine : Bytes) (f : Frame) (i : Nat) : EVENT :=
  ⟨machine, fieldValue 10 f.stamp, f.user, i + 1, (f.words.getD i 0).toNat, guestType f.user⟩

/-- The row of block `i`, unless it is a later block with no program running. -/
def keptRow (machine : Bytes) (f : Frame) (i : Nat) : Option EVENT :=
  if f.words.getD i 0 = 0 ∧ 1 ≤ i then none else some (frameRow machine f i)

/-- The rows of a frame, in block order. -/
def frameRows (machine : Bytes) (f : Frame) : List EVENT :=
  (List.range f.words.length).filterMap (keptRow machine f)

/-- The row of a frame without blocks: nobody was running a monitored program. -/
def zeroRow (machine : Bytes) (f : Frame) : EVENT :=
  ⟨machine, fieldValue 10 f.stamp, f.user, 1, 0, guestType f.user⟩

/-- A timestamp of ten digits is below `10 ^ 10`. -/
theorem fieldValue_stamp_lt (f : Frame) : fieldValue 10 f.stamp < 10 ^ 10 := by
  have h := fieldValue_lt f.stamp_digits
  rwa [f.stamp_length] at h

/-- `atol` of the ten digits, converted to `unsigned long`, is their value. -/
theorem u64_atol_stamp (f : Frame) : u64 (atol (cstr f.stamp)) = fieldValue 10 f.stamp := by
  have hlt := fieldValue_stamp_lt f
  rw [cstr_eq_self f.stamp_nul, atol_of_digits f.stamp_digits (by rw [f.stamp_length]; decide),
    u64_of_lt (by omega) (by omega)]

/-- A frame with blocks has at least one row, because the first block is always kept. -/
theorem frameRows_ne_nil {machine : Bytes} {f : Frame} (h : f.words ≠ []) :
    frameRows machine f ≠ [] := by
  have hpos : 0 < f.words.length := List.length_pos_iff.mpr h
  intro hnil
  have hmem : frameRow machine f 0 ∈ frameRows machine f :=
    List.mem_filterMap.mpr ⟨0, List.mem_range.mpr hpos, by simp [keptRow]⟩
  rw [hnil] at hmem
  exact absurd hmem (List.not_mem_nil)

/-! ### The fields a pass reads -/

section
variable {m : Memory} {k : Nat} {f : Frame}

/-- Where the length of the name stands, behind `n` blocks. -/
theorem Memory.usize_of_numBlocks {n : Nat} (hnum : m.numBlocks k = n) (hn : n ≤ 15)
    (hk : k + 1 < 2 ^ 31) : m.usize k = [m.get (k + 2 + 8 * n), m.get (k + 3 + 8 * n)] := by
  have hindex : i32 ((k : Int) + 1) = k + 1 := i32_of_lt (by omega) (by omega)
  have hfirst : u32 (1 + ((k : Int) + 1) + u32 ((n : Int) * 8)) = k + 2 + 8 * n := by
    unfold u32
    omega
  have hsecond : u32 (2 + ((k : Int) + 1) + u32 ((n : Int) * 8)) = k + 3 + 8 * n := by
    unfold u32
    omega
  unfold Memory.usize
  simp only [hnum, hindex, hfirst, hsecond]

/-- Where the timestamp is looked for, behind `n` blocks. -/
theorem Memory.tstart_of_numBlocks {n : Nat} (hnum : m.numBlocks k = n) (hk : k + 1 < 2 ^ 31) :
    m.tstart k = u32 (k + 4 + 8 * n + m.ulen k) := by
  unfold Memory.tstart
  rw [hnum, i32_of_lt (by omega) (by omega)]
  unfold u32
  omega

theorem FrameAt.numBlocks (h : FrameAt m k f) (hk : k + 1 < 2 ^ 31) :
    m.numBlocks k = f.words.length := by
  unfold Memory.numBlocks
  rw [i32_of_lt (by omega) (by omega), h.count, Client.streamHex_blockCount f.words_le]

theorem FrameAt.usize (h : FrameAt m k f) (hk : k + 1 < 2 ^ 31) :
    m.usize k = packUserLength f.user := by
  have hw := f.words_le
  rw [Memory.usize_of_numBlocks (h.numBlocks hk) (by omega) hk, h.userLength]

theorem FrameAt.ulen (h : FrameAt m k f) (hk : k + 1 < 2 ^ 31) : m.ulen k = f.user.length := by
  unfold Memory.ulen
  rw [h.usize hk, cstr_eq_self (Client.zero_not_mem_packUserLength f.user_length_lt),
    Client.streamHex_userLength f.user_le]

theorem FrameAt.tstart (h : FrameAt m k f) (hk : k + 1 < 2 ^ 31) :
    m.tstart k = k + 4 + 8 * f.words.length + f.user.length := by
  have hw := f.words_le
  have hu := f.user_le
  rw [Memory.tstart_of_numBlocks (h.numBlocks hk) hk, h.ulen hk]
  exact u32_of_lt (by omega) (by omega)

theorem FrameAt.userName (h : FrameAt m k f) (hlen : k + f.bytes.length < 2 ^ 31) :
    m.userName k = f.user := by
  have hbytes := f.length_bytes
  have hk : k + 1 < 2 ^ 31 := by omega
  have hustart : u32 (1 + ((k : Int) + 1) + 2 + u32 ((f.words.length : Int) * 8))
      = k + 4 + 8 * f.words.length := by
    unfold u32
    omega
  unfold Memory.userName
  rw [h.numBlocks hk, h.ulen hk, i32_of_lt (by omega) (by omega), hustart, h.user (by omega),
    cstr_eq_self f.user_nul]

theorem FrameAt.stampValue (h : FrameAt m k f) (hlen : k + f.bytes.length < 2 ^ 31)
    (env : ParseEnv) : m.stampValue env k = fieldValue 10 f.stamp := by
  have hbytes := f.length_bytes
  have hk : k + 1 < 2 ^ 31 := by omega
  -- the loop that copies the timestamp runs, because its end does not wrap
  have hlt : (k : Int) + 4 + 8 * f.words.length + f.user.length
      < u32 (k + 4 + 8 * f.words.length + f.user.length + 10) := by
    rw [u32_of_lt (by omega) (by omega)]
    omega
  unfold Memory.stampValue
  dsimp only
  rw [h.tstart hk, if_pos hlt, h.stamp (by omega), u64_atol_stamp]

end

/-! ### One pass -/

section
variable {env : ParseEnv} {m : Memory} {machine : Bytes}

@[simp] theorem checkTimestamp_queue (l : Int) (st : ParseState) :
    (checkTimestamp env m machine l st).eventsToUpload = st.eventsToUpload := rfl

/-- One block of a frame adds its row, or nothing. -/
theorem parseBlock_queue {k i : Nat} {f : Frame} (h : FrameAt m k f) (hi : i < f.words.length)
    (st : ParseState) :
    (parseBlock env m machine f.user (fieldValue 10 f.stamp) (k + 2) st i).eventsToUpload
      = st.eventsToUpload ++ (keptRow machine f i).toList := by
  have hword : f.words.getD i 0 = f.words[i] := by
    simp [List.getD_eq_getElem?_getD, List.getElem?_eq_getElem hi]
  have hnul : 0 ∉ printHex8 f.words[i] :=
    Client.zero_not_mem_of_digits (b := 16) (by decide) fun c hc => isDigit_of_mem_printHex8 hc
  have hzero : f.words[i].toNat = 0 ↔ f.words[i] = 0 := by
    rw [← UInt32.toNat_inj]
    rfl
  -- the eight digits read back as the word, and the test is on the word
  unfold parseBlock keptRow frameRow
  simp only [h.block hi, cstr_eq_self hnul, streamHex_printHex8, hword, hzero]
  by_cases hskip : f.words[i] = 0 ∧ 1 ≤ i
  · rw [if_pos ⟨hskip.1, by omega⟩, if_pos hskip]
    simp
  · rw [if_neg (fun hh => hskip ⟨hh.1, by omega⟩), if_neg hskip]
    rfl

/-- The blocks of a frame, up to block `n`. -/
theorem parseBlocks_queue {k : Nat} {f : Frame} (h : FrameAt m k f) (st : ParseState) (n : Nat)
    (hn : n ≤ f.words.length) :
    ((List.range n).foldl (parseBlock env m machine f.user (fieldValue 10 f.stamp) (k + 2))
        st).eventsToUpload
      = st.eventsToUpload ++ (List.range n).filterMap (keptRow machine f) := by
  induction n with
  | zero => simp
  | succ n ih =>
      rw [List.range_succ, List.foldl_append, List.foldl_cons, List.foldl_nil,
        parseBlock_queue h (by omega), ih (by omega), List.filterMap_append, List.append_assoc]
      cases hrow : keptRow machine f n <;> simp [hrow]

variable (env machine) in
/-- One pass of the loop, started at a frame: it queues the frame's rows and moves to the byte
after the frame. -/
theorem parseFrame_eq {k : Nat} {f : Frame} (h : FrameAt m k f) (hlen : k + f.bytes.length < 2 ^ 31)
    (st : ParseState) :
    (parseFrame env m machine ⟨k, st⟩).currentIndex = k + f.bytes.length ∧
    (parseFrame env m machine ⟨k, st⟩).st.eventsToUpload
      = st.eventsToUpload ++ frameRows machine f := by
  have hbytes := f.length_bytes
  have hk : k + 1 < 2 ^ 31 := by omega
  have hstart : i32 (i32 ((k : Int) + 1) + 1) = k + 2 := by
    unfold i32
    omega
  have hend : i32 (u32 ((k : Int) + 4 + 8 * f.words.length + f.user.length + 10))
      = k + f.bytes.length := by
    unfold u32 i32
    omega
  rw [parseFrame_fields]
  dsimp only
  rw [h.numBlocks hk, h.tstart hk, h.userName hlen, h.stampValue hlen, hstart]
  exact ⟨hend, parseBlocks_queue h st _ (Nat.le_refl _)⟩

/-! ### The whole response -/

variable (env machine) in
/-- The loop over the frames from byte `k` to the end of the response: one pass for each frame.
Induction on the frames that are left; the invariant is that `current_index` stands at a frame
boundary. -/
theorem parseFrames_eq (fs : List Frame) {k : Nat} (before : Bytes) (st : ParseState)
    (htext : m.text = before ++ concatFrames fs) (hk : before.length = k)
    (hnul : 0 ∉ m.text) (hlen : m.text.length < 2 ^ 31) :
    ∃ t, (∀ fuel, fs.length ≤ fuel →
        whileFuel (fun s : LoopState => decide (s.currentIndex < m.dlen))
          (parseFrame env m machine) fuel ⟨k, st⟩ = some t) ∧
      t.st.eventsToUpload = st.eventsToUpload ++ fs.flatMap (frameRows machine) := by
  -- no NUL in the text and less than `2 ^ 31` bytes: `dlen` is the length
  have hdlen : m.dlen = m.text.length := by
    unfold Memory.dlen
    rw [cstr_eq_self hnul, i32_of_lt (by omega) (by omega)]
  induction fs generalizing k before st with
  | nil =>
      refine ⟨⟨k, st⟩, fun fuel _ => whileFuel_stop _ ?_, by simp⟩
      simp only [htext, concatFrames, List.flatMap_nil, List.append_nil] at hdlen
      simp only [hdlen, hk]
      simp
  | cons f fs ih =>
      rw [Client.concatFrames_cons] at htext
      have hat : FrameAt m k f := ⟨before, concatFrames fs, htext, hk⟩
      obtain ⟨hindex, hqueue⟩ := parseFrame_eq env machine hat (hat.end_le.trans_lt hlen) st
      obtain ⟨t, hrun, hrows⟩ := ih (before ++ f.bytes)
        (parseFrame env m machine ⟨k, st⟩).st (by rw [htext, List.append_assoc])
        (by rw [List.length_append, hk])
      refine ⟨t, fun fuel hfuel => ?_, ?_⟩
      -- a frame is left, so `current_index` is below `dlen` and there is a pass
      · obtain ⟨n, rfl⟩ : ∃ n, fuel = n + 1 := ⟨fuel - 1, by simp at hfuel; omega⟩
        have hin : (k : Int) < m.dlen := by
          have hend := hat.end_le
          have hpos := f.length_bytes
          omega
        rw [whileFuel_pass _ (by simpa using hin)]
        have hstate : parseFrame env m machine ⟨k, st⟩
            = ⟨((k + f.bytes.length : Nat) : Int), (parseFrame env m machine ⟨k, st⟩).st⟩ := by
          rw [Nat.cast_add, ← hindex]
        rw [hstate]
        exact hrun n (by simp at hfuel; omega)
      · rw [hrows, hqueue, List.append_assoc, List.flatMap_cons]

end

/-! ### The round trip -/

/-- The decoding ends, however much fuel there is beyond some amount, and it has put `rows`
behind the rows that were queued before. -/
def Queues (decode : Nat → Option ParseState) (st : ParseState) (rows : List EVENT) : Prop :=
  ∃ n st', (∀ fuel, n ≤ fuel → decode fuel = some st') ∧
    st'.eventsToUpload = st.eventsToUpload ++ rows

/-- A decoding queues one list of rows. -/
theorem Queues.unique {decode : Nat → Option ParseState} {st : ParseState}
    {rows rows' : List EVENT} (h : Queues decode st rows) (h' : Queues decode st rows') :
    rows = rows' := by
  obtain ⟨n, s, hs, hrows⟩ := h
  obtain ⟨n', s', hs', hrows'⟩ := h'
  -- with enough fuel for both, the two runs are the same
  have heq : s = s' := by
    have h1 := hs (max n n') (Nat.le_max_left n n')
    rw [hs' (max n n') (Nat.le_max_right n n')] at h1
    exact (Option.some.inj h1).symm
  rw [heq, hrows'] at hrows
  exact (List.append_cancel_left hrows).symm

section
variable (env : ParseEnv) (outside : Int → Byte) (machine : Bytes)

/-- The response takes the looping branch when its first frame has blocks. -/
theorem get_one_concatFrames (f : Frame) (fs : List Frame) :
    (Memory.mk (concatFrames (f :: fs)) outside).get 1 = blockCountChar f.words.length := by
  have hat : FrameAt ⟨concatFrames (f :: fs), outside⟩ 0 f :=
    ⟨[], concatFrames fs, Client.concatFrames_cons f fs, rfl⟩
  simpa using hat.count

/-- The looping branch on a response whose first frame has blocks: every frame gives its rows,
later frames without blocks give none. -/
theorem parseEventBlock_cons {f : Frame} {fs : List Frame} (hf : f.words ≠ [])
    (hlen : (concatFrames (f :: fs)).length < 2 ^ 31) (st : ParseState) :
    Queues (fun fuel => parseEventBlock env ⟨concatFrames (f :: fs), outside⟩ machine fuel st) st
      ((f :: fs).flatMap (frameRows machine)) := by
  have hbranch : ¬ (Memory.mk (concatFrames (f :: fs)) outside).get 1 = ch '0' := by
    rw [get_one_concatFrames, Client.blockCountChar_eq_zero_iff f.words_le]
    exact fun h0 => hf (List.length_eq_zero_iff.mp h0)
  obtain ⟨t, hrun, hrows⟩ := parseFrames_eq env machine
    (m := ⟨concatFrames (f :: fs), outside⟩) (f :: fs) [] st rfl (k := 0) rfl
    (Client.zero_not_mem_concatFrames _) hlen
  refine ⟨(f :: fs).length, t.st, fun fuel hfuel => ?_, hrows⟩
  have hloop : whileFuel _ _ fuel (LoopState.mk 0 st) = some t := hrun fuel hfuel
  simp only [parseEventBlock]
  rw [if_neg hbranch, hloop]
  rfl

/-- A response from `2 ^ 31` up to `2 ^ 32` bytes has a negative `dlen`, so the loop does not
run. -/
theorem parseEventBlock_long {f : Frame} {fs : List Frame} (hf : f.words ≠ [])
    (hlo : 2 ^ 31 ≤ (concatFrames (f :: fs)).length)
    (hhi : (concatFrames (f :: fs)).length < 2 ^ 32) (st : ParseState) :
    Queues (fun fuel => parseEventBlock env ⟨concatFrames (f :: fs), outside⟩ machine fuel st)
      st [] := by
  have hbranch : ¬ (Memory.mk (concatFrames (f :: fs)) outside).get 1 = ch '0' := by
    rw [get_one_concatFrames, Client.blockCountChar_eq_zero_iff f.words_le]
    exact fun h0 => hf (List.length_eq_zero_iff.mp h0)
  -- `strlen` is at least `2 ^ 31`, and the `int` it is stored in is negative
  have hdlen : (Memory.mk (concatFrames (f :: fs)) outside).dlen < 0 := by
    unfold Memory.dlen i32
    simp only [cstr_eq_self (Client.zero_not_mem_concatFrames (f :: fs))]
    omega
  have hstop : ¬ ((0 : Int) < (Memory.mk (concatFrames (f :: fs)) outside).dlen) := by omega
  refine ⟨0, st, fun fuel _ => ?_, by simp⟩
  have hloop : whileFuel (fun s : LoopState => decide (s.currentIndex
        < (Memory.mk (concatFrames (f :: fs)) outside).dlen))
      (parseFrame env ⟨concatFrames (f :: fs), outside⟩ machine) fuel ⟨0, st⟩
        = some ⟨0, st⟩ := whileFuel_stop _ (decide_eq_false hstop)
  simp only [parseEventBlock]
  rw [if_neg hbranch, hloop]
  rfl

/-- The shortest frame that has a block: 22 bytes. -/
def oneBlockFrame : Frame where
  words := [1]
  user := []
  stamp := printDec 1000000020
  words_le := by decide
  user_le := by decide
  user_nul := by decide
  stamp_length := by decide
  stamp_digits := fun _ => isDigit_of_mem_printDec (by decide)

/-- A frame of a guest in which the second of three blocks has no program running. -/
def guestFrame : Frame where
  words := [5, 0, 0x80000000]
  user := [ch 'g', ch 'p', ch '1']
  stamp := printDec 1000000080
  words_le := by decide
  user_le := by decide
  user_nul := by decide
  stamp_length := by decide
  stamp_digits := fun _ => isDigit_of_mem_printDec (by decide)

/-- Surroundings of the decoder in which nothing is left over. -/
def quietEnv : ParseEnv := ⟨fun _ => 0, [], [], []⟩

/-- Empty tables. -/
def emptyState : ParseState := ⟨[], ∅, 0⟩

/-- The round trip of the wire format. The response is the concatenation of frames with one to
nine blocks, and its length fits the decoder's `int`. Then the decoder queues exactly the rows
of the frames, in frame order and then block order, and nothing else. -/
theorem parseEventBlock_roundTrip (fs : List Frame) (hne : fs ≠ [])
    (hblocks : ∀ f ∈ fs, f.words ≠ []) (hlen : (concatFrames fs).length < 2 ^ 31)
    (st : ParseState) :
    Queues (fun fuel => parseEventBlock env ⟨concatFrames fs, outside⟩ machine fuel st) st
      (fs.flatMap (frameRows machine)) := by
  obtain ⟨f, rest, rfl⟩ := List.exists_cons_of_ne_nil hne
  exact parseEventBlock_cons env outside machine (hblocks f (by simp)) hlen st

/-- The round trip on two frames: the empty second block of the first leaves a gap in the
offsets. -/
theorem parseEventBlock_roundTrip_two :
    Queues (fun fuel => parseEventBlock quietEnv
        ⟨concatFrames [guestFrame, oneBlockFrame], fun _ => 0⟩ [ch 'm'] fuel emptyState) emptyState
      [⟨[ch 'm'], 1000000080, [ch 'g', ch 'p', ch '1'], 1, 5, 2⟩,
       ⟨[ch 'm'], 1000000080, [ch 'g', ch 'p', ch '1'], 3, 0x80000000, 2⟩,
       ⟨[ch 'm'], 1000000020, [], 1, 1, 0⟩] :=
  parseEventBlock_roundTrip quietEnv (fun _ => 0) [ch 'm'] [guestFrame, oneBlockFrame]
    (by decide) (by decide) (by decide) emptyState

/-- A response of `10 ^ 8` frames of 22 bytes, which an `int` cannot measure. -/
def longResponse : List Frame := oneBlockFrame :: List.replicate 99999999 oneBlockFrame

theorem length_longResponse : (concatFrames longResponse).length = 2200000000 := by
  have hone : oneBlockFrame.bytes.length = 22 := by decide
  unfold longResponse
  rw [Client.concatFrames_cons, List.length_append, Client.length_concatFrames_replicate, hone]

/-- Without the bound on the length the round trip fails: nothing of `longResponse` is queued. -/
theorem parseEventBlock_roundTrip_fails_long :
    longResponse ≠ [] ∧ (∀ f ∈ longResponse, f.words ≠ []) ∧
    ¬ Queues (fun fuel => parseEventBlock quietEnv ⟨concatFrames longResponse, fun _ => 0⟩ []
        fuel emptyState) emptyState (longResponse.flatMap (frameRows [])) := by
  have hlen := length_longResponse
  have hblocks : ∀ f ∈ longResponse, f.words ≠ [] := by
    intro f hf
    rcases List.mem_cons.mp hf with rfl | hf
    · decide
    · rw [List.eq_of_mem_replicate hf]
      decide
  refine ⟨List.cons_ne_nil _ _, hblocks, fun hrows => ?_⟩
  have hlo : 2 ^ 31 ≤ (concatFrames longResponse).length := by rw [hlen]; decide
  have hhi : (concatFrames longResponse).length < 2 ^ 32 := by rw [hlen]; decide
  have hnone := parseEventBlock_long quietEnv (fun _ => 0) [] (by decide) hlo hhi emptyState
  have heq := hrows.unique hnone
  unfold longResponse at heq
  rw [List.flatMap_cons] at heq
  exact frameRows_ne_nil (by decide) (List.append_eq_nil_iff.mp heq).1

end

end Monitoring.Server
