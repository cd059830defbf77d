import Monitoring.Proofs.EventStream

/-!
# `Monitoring.Proofs.ZeroBlock`: frames without blocks

A client that has no program list yet sends frames without blocks, and keeps them in EVENTS
beside later ones. `parse_event_block` picks its branch from the first frame alone:

* a response that starts with a zero-block frame gives one row and the rest is not read;
* in the loop a zero-block frame gives no row at all.

`DecodesFramewise` says that the rows of a response are the rows of its frames, each sent alone,
and `decodesFramewise_iff` says when: every frame has a block, or the response is a single frame.
In the second case the special branch also has to read its two unterminated arrays back
(`ReadsBack`).
-/

set_option autoImplicit false

namespace Monitoring.Server

open Monitoring.Lib
open Monitoring.Client (Frame concatFrames packUserLength)

/-! ### The special branch -/

/-- The special branch reads the length and the timestamp of `f` back, although neither `tmp` nor
`ts` is terminated. -/
def ReadsBack (env : ParseEnv) (f : Frame) : Prop :=
  streamHex (packUserLength f.user ++ env.afterTmp) = f.user.length ∧
  u64 (atol (f.stamp ++ env.afterTs)) = fieldValue 10 f.stamp

section
variable {m : Memory} {f : Frame}

/-- What follows the four header bytes of a zero-block frame. -/
theorem FrameAt.after_header (h : FrameAt m 0 f) (hw : f.words = []) :
    ∃ head after, m.text = head ++ (f.user ++ (f.stamp ++ after)) ∧ head.length = 4 := by
  obtain ⟨before, after, htext, hk⟩ := h
  rw [List.length_eq_zero_iff.mp hk, f.bytes_eq, hw] at htext
  refine ⟨[ch '2', Client.blockCountChar 0] ++ packUserLength f.user, after, ?_, ?_⟩
  · rw [htext]
    simp only [Client.printBlocks, List.flatMap_nil, List.length_nil, List.nil_append,
      List.append_assoc]
  · simp [Client.length_packUserLength]

/-- More characters than the user name has: the first one behind it is a digit. -/
theorem copyU_long (h : FrameAt m 0 f) (hw : f.words = []) {n : Nat} (hn : f.user.length < n) :
    ∃ d more, m.copyU 4 n = (f.user ++ [d]) ++ more ∧ 0 ∉ f.user ++ [d] := by
  obtain ⟨head, after, htext, hhead⟩ := h.after_header hw
  obtain ⟨d, rest, hstamp⟩ : ∃ d rest, f.stamp = d :: rest :=
    List.exists_cons_of_length_pos (by rw [f.stamp_length]; decide)
  have hcopy : m.copyU 4 (f.user.length + 1) = f.user ++ [d] := by
    refine Memory.copyU_of_append (a := head) (c := rest ++ after) ?_ ?_ (by rw [hhead]; rfl)
      (by simp)
    · rw [htext, hstamp]
      simp only [List.append_assoc, List.cons_append, List.nil_append]
    · have huser := f.user_le
      rw [hhead, List.length_append, List.length_singleton]
      omega
  obtain ⟨k, rfl⟩ := Nat.exists_eq_add_of_lt hn
  refine ⟨d, (List.range k).map fun (j : Nat) =>
    m.get (u32 (4 + ((f.user.length + 1 + j : Nat) : Int))), ?_, ?_⟩
  · rw [← hcopy]
    unfold Memory.copyU
    rw [show f.user.length + k + 1 = f.user.length + 1 + k by omega, List.range_add,
      List.map_append, List.map_map]
    rfl
  · have hnul := f.stamp_nul
    rw [hstamp] at hnul
    simp only [List.mem_append, List.mem_singleton, not_or]
    exact ⟨f.user_nul, fun h0 => hnul (by simp [← h0])⟩

/-- The user name the special branch takes is the frame's exactly if its length is. -/
theorem cstr_copyU_eq_user_iff (h : FrameAt m 0 f) (hw : f.words = []) (n : Nat) :
    cstr (m.copyU 4 n) = f.user ↔ n = f.user.length := by
  constructor
  · intro huser
    rcases Nat.lt_trichotomy n f.user.length with hlt | heq | hgt
    · have hshort := length_cstr_le (m.copyU 4 n)
      rw [huser, Memory.copyU, List.length_map, List.length_range] at hshort
      omega
    · exact heq
    -- too long: the name takes in a digit of the timestamp
    · obtain ⟨d, more, hcopy, hnul⟩ := copyU_long h hw hgt
      rw [hcopy, cstr_append more hnul] at huser
      have hl := congrArg List.length huser
      simp only [List.length_append, List.length_singleton] at hl
      omega
  · rintro rfl
    have huser := h.user (by have hle := f.length_bytes_le; omega)
    rw [hw] at huser
    exact (congrArg cstr huser).trans (cstr_eq_self f.user_nul)

/-- The special branch queues one row, which is the frame's exactly if the arrays read back. -/
theorem parseZeroBlock_queue (h : FrameAt m 0 f) (hw : f.words = []) (env : ParseEnv)
    (machine : Bytes) (st : ParseState) :
    ∃ row, (parseZeroBlock env m machine st).eventsToUpload = st.eventsToUpload ++ [row] ∧
      (row = zeroRow machine f ↔ ReadsBack env f) := by
  have hlength : [m.get 2, m.get 3] = packUserLength f.user := by
    have hul := h.userLength
    rw [hw] at hul
    exact hul
  have hnul := Client.zero_not_mem_packUserLength f.user_length_lt
  generalize hn : streamHex (packUserLength f.user ++ env.afterTmp) = n
  have huser : ((List.range n).map fun (i : Nat) => m.get (u32 (i + 4))) = m.copyU 4 n := by
    simp only [Memory.copyU, Int.add_comm]
  have hstamp : n = f.user.length → m.copyU (4 + n) 10 = f.stamp := by
    rintro rfl
    have hst := h.stamp (by have hle := f.length_bytes_le; omega)
    rw [hw] at hst
    exact hst
  refine ⟨⟨machine, u64 (atol (cstr (m.copyU (4 + n) 10) ++
    (if 0 ∈ m.copyU (4 + n) 10 then [] else env.afterTs))), cstr (m.copyU 4 n), 1, 0,
    guestType (cstr (m.copyU 4 n))⟩, ?_, ?_⟩
  · simp only [parseZeroBlock, hlength, if_neg hnul, cstr_eq_self hnul, hn, huser]
    rfl
  · unfold zeroRow ReadsBack
    rw [hn]
    constructor
    · intro hrow
      have hname := (EVENT.mk.inj hrow).2.2.1
      have htime := (EVENT.mk.inj hrow).2.1
      have hlen' := (cstr_copyU_eq_user_iff h hw n).mp hname
      rw [hstamp hlen', if_neg f.stamp_nul, cstr_eq_self f.stamp_nul] at htime
      exact ⟨hlen', htime⟩
    · rintro ⟨hlen', htime⟩
      rw [(cstr_copyU_eq_user_iff h hw n).mpr hlen', hstamp hlen', if_neg f.stamp_nul,
        cstr_eq_self f.stamp_nul, htime]

end

/-! ### A response and its frames -/

section
variable (env : ParseEnv) (outside : Int → Byte) (machine : Bytes) (st : ParseState)

/-- What `handle_gather` decodes of a response. -/
def decodeFrames (fs : List Frame) (fuel : Nat) : Option ParseState :=
  decodeResponse env outside (concatFrames fs) machine fuel st

/-- The rows of a response are the rows of its frames, each sent alone, and a zero-block frame
has its one row. -/
def DecodesFramewise (fs : List Frame) : Prop :=
  ∃ rowsOf : Frame → List EVENT,
    (∀ f ∈ fs, Queues (decodeFrames env outside machine st [f]) st (rowsOf f)) ∧
    Queues (decodeFrames env outside machine st fs) st (fs.flatMap rowsOf) ∧
    ∀ f ∈ fs, f.words = [] → rowsOf f = [zeroRow machine f]

/-- The kinds of responses that are decoded frame by frame. -/
def Framewise (fs : List Frame) : Prop :=
  (concatFrames fs).length < 2 ^ 31 ∧
    ((∀ f ∈ fs, f.words ≠ []) ∨ ∃ f, fs = [f] ∧ f.words = [] ∧ ReadsBack env f)

variable {env outside machine st}

/-- An empty response is not decoded. -/
theorem decodeFrames_nil : Queues (decodeFrames env outside machine st []) st [] :=
  ⟨0, st, fun _ _ => rfl, by simp⟩

/-- A response that is not empty starts with a '2'. -/
theorem decodeFrames_cons (f : Frame) (fs : List Frame) :
    decodeFrames env outside machine st (f :: fs)
      = fun fuel => parseEventBlock env ⟨concatFrames (f :: fs), outside⟩ machine fuel st := by
  funext fuel
  unfold decodeFrames decodeResponse
  rw [if_pos (by rw [Client.concatFrames_cons, f.bytes_eq]; rfl)]

variable (env outside machine st) in
/-- A response whose first frame has blocks. -/
theorem decodeFrames_blocks {f : Frame} {fs : List Frame} (hf : f.words ≠ [])
    (hlen : (concatFrames (f :: fs)).length < 2 ^ 31) :
    Queues (decodeFrames env outside machine st (f :: fs)) st
      ((f :: fs).flatMap (frameRows machine)) := by
  rw [decodeFrames_cons]
  exact parseEventBlock_cons env outside machine hf hlen st

variable (env outside machine st) in
/-- A response whose first frame has none gives one row, whatever follows. -/
theorem decodeFrames_zero {f : Frame} (hf : f.words = []) (fs : List Frame) :
    ∃ row, Queues (decodeFrames env outside machine st (f :: fs)) st [row] ∧
      (row = zeroRow machine f ↔ ReadsBack env f) := by
  have hat : FrameAt ⟨concatFrames (f :: fs), outside⟩ 0 f :=
    ⟨[], concatFrames fs, Client.concatFrames_cons f fs, rfl⟩
  obtain ⟨row, hqueue, hrow⟩ := parseZeroBlock_queue hat hf env machine st
  refine ⟨row, ⟨0, _, fun fuel _ => ?_, hqueue⟩, hrow⟩
  have hbranch : (Memory.mk (concatFrames (f :: fs)) outside).get 1 = ch '0' := by
    rw [get_one_concatFrames, hf]
    rfl
  rw [decodeFrames_cons]
  exact if_pos hbranch

/-- A frame that is sent alone is short enough. -/
theorem length_concatFrames_one (f : Frame) : (concatFrames [f]).length < 2 ^ 31 := by
  have hle := f.length_bytes_le
  rw [Client.concatFrames_cons, List.length_append]
  simp only [concatFrames, List.flatMap_nil, List.length_nil]
  omega

/-- A response of one of these kinds is decoded frame by frame. -/
theorem Framewise.decodes {fs : List Frame} (h : Framewise env fs) :
    DecodesFramewise env outside machine st fs := by
  obtain ⟨hlen, hblocks | ⟨f, rfl, hf, hreads⟩⟩ := h
  · refine ⟨frameRows machine, fun f hf => ?_, ?_, fun f hf h0 => absurd h0 (hblocks f hf)⟩
    -- a frame with blocks goes the same way alone and among others
    · have hone := decodeFrames_blocks env outside machine st (hblocks f hf)
         (length_concatFrames_one f)
      simpa using hone
    · cases fs with
      | nil => exact decodeFrames_nil
      | cons f fs => exact decodeFrames_blocks env outside machine st (hblocks f (by simp)) hlen
  · obtain ⟨row, hqueue, hrow⟩ := decodeFrames_zero env outside machine st hf []
    rw [hrow.mpr hreads] at hqueue
    refine ⟨fun _ => [zeroRow machine f], ?_, ?_, ?_⟩
    · simpa using hqueue
    · simpa using hqueue
    · simp

/-- Frame by frame, every frame gives at least one row. -/
theorem length_le_flatMap_rows {fs : List Frame} {rowsOf : Frame → List EVENT}
    (h : ∀ f ∈ fs, rowsOf f ≠ []) : fs.length ≤ (fs.flatMap rowsOf).length := by
  induction fs with
  | nil => simp
  | cons f fs ih =>
      have hpos : 0 < (rowsOf f).length := List.length_pos_iff.mpr (h f (by simp))
      have hrest := ih fun g hg => h g (List.mem_cons_of_mem _ hg)
      rw [List.flatMap_cons, List.length_append, List.length_cons]
      omega

/-- What the loop loses: one row for each zero-block frame. -/
theorem length_flatMap_rows {fs : List Frame} {rowsOf : Frame → List EVENT}
    (hblocks : ∀ f ∈ fs, f.words ≠ [] → rowsOf f = frameRows machine f)
    (hzero : ∀ f ∈ fs, f.words = [] → rowsOf f = [zeroRow machine f]) :
    (fs.flatMap rowsOf).length
      = (fs.flatMap (frameRows machine)).length + fs.countP (fun f => f.words.isEmpty) := by
  induction fs with
  | nil => rfl
  | cons f fs ih =>
      have hrest := ih (fun g hg => hblocks g (List.mem_cons_of_mem _ hg))
        (fun g hg => hzero g (List.mem_cons_of_mem _ hg))
      simp only [List.flatMap_cons, List.length_append, List.countP_cons, hrest]
      by_cases hf : f.words = []
      · have hnone : frameRows machine f = [] := by simp [frameRows, hf]
        simp [hzero f (by simp) hf, hnone, hf]
        omega
      · simp [hblocks f (by simp) hf, hf]
        omega

/-- A response of less than `2 ^ 32` bytes that is decoded frame by frame is of one of the two
kinds. The count of the rows decides it. -/
theorem DecodesFramewise.framewise {fs : List Frame} (hlen : (concatFrames fs).length < 2 ^ 32)
    (h : DecodesFramewise env outside machine st fs) : Framewise env fs := by
  obtain ⟨rowsOf, halone, hall, hzero⟩ := h
  have hblocks : ∀ f ∈ fs, f.words ≠ [] → rowsOf f = frameRows machine f := by
    intro f hf hw
    have hone := decodeFrames_blocks env outside machine st hw (length_concatFrames_one f)
    rw [(halone f hf).unique hone]
    simp
  have hrows : ∀ f ∈ fs, rowsOf f ≠ [] := by
    intro f hf
    by_cases hw : f.words = []
    · rw [hzero f hf hw]
      exact List.cons_ne_nil _ _
    · rw [hblocks f hf hw]
      exact frameRows_ne_nil hw
  cases fs with
  | nil => exact ⟨by simp [concatFrames], Or.inl (by simp)⟩
  | cons f fs =>
      by_cases hw : f.words = []
      · -- one row in all, so there is one frame
        obtain ⟨row, hqueue, hrow⟩ := decodeFrames_zero env outside machine st hw fs
        have hone := hall.unique hqueue
        have hcount := length_le_flatMap_rows hrows
        rw [hone] at hcount
        obtain rfl : fs = [] := List.length_eq_zero_iff.mp (by simpa using hcount)
        refine ⟨length_concatFrames_one f, Or.inr ⟨f, rfl, hw, hrow.mp ?_⟩⟩
        rw [List.flatMap_cons, List.flatMap_nil, List.append_nil, hzero f (by simp) hw] at hone
        exact (List.head_eq_of_cons_eq hone).symm
      · by_cases hshort : (concatFrames (f :: fs)).length < 2 ^ 31
        · -- as many rows as the frames give alone, so none of them has no blocks
          have hqueue := decodeFrames_blocks env outside machine st hw hshort
          have hcount := length_flatMap_rows hblocks hzero
          rw [hall.unique hqueue] at hcount
          have hnone : (f :: fs).countP (fun f => f.words.isEmpty) = 0 := by omega
          rw [List.countP_eq_zero] at hnone
          exact ⟨hshort, Or.inl fun g hg => by simpa using hnone g hg⟩
        · -- the loop does not run, but the first frame has a row
          have hqueue := parseEventBlock_long env outside machine hw (by omega) hlen st
          rw [← decodeFrames_cons] at hqueue
          have hnone := hall.unique hqueue
          rw [List.flatMap_cons] at hnone
          exact absurd (List.append_eq_nil_iff.mp hnone).1 (hrows f (by simp))

end

/-- When a zero-block frame counts wherever it stands: the responses of the two kinds are decoded
frame by frame, and up to `2 ^ 32` bytes no others are. (From there on `dlen` and the offsets
wrap, and the loop may read memory that is not the response.) -/
theorem decodesFramewise_iff (env : ParseEnv) (outside : Int → Byte) (machine : Bytes)
    (st : ParseState) (fs : List Frame) :
    (Framewise env fs → DecodesFramewise env outside machine st fs) ∧
    ((concatFrames fs).length < 2 ^ 32 →
      (DecodesFramewise env outside machine st fs ↔ Framewise env fs)) :=
  ⟨Framewise.decodes, fun hlen => ⟨DecodesFramewise.framewise hlen, Framewise.decodes⟩⟩

/-- What a client without a program list sends for a local user `a`. -/
def zeroFrame : Frame where
  words := []
  user := [ch 'a']
  stamp := printDec 1000000140
  words_le := by decide
  user_le := by decide
  user_nul := by decide
  stamp_length := by decide
  stamp_digits := fun _ => isDigit_of_mem_printDec (by decide)

/-- A zero-block frame that is sent alone is read back. -/
theorem decodesFramewise_iff_alone :
    DecodesFramewise quietEnv (fun _ => 0) [ch 'm'] emptyState [zeroFrame] :=
  ((decodesFramewise_iff quietEnv (fun _ => 0) [ch 'm'] emptyState [zeroFrame]).2
    (by decide)).mpr ⟨by decide, Or.inr ⟨zeroFrame, rfl, rfl, by decide, by decide⟩⟩

/-- A zero-block frame in front hides the frame behind it. -/
theorem decodesFramewise_fails_in_front :
    ¬ DecodesFramewise quietEnv (fun _ => 0) [ch 'm'] emptyState [zeroFrame, oneBlockFrame] := by
  intro h
  obtain ⟨-, hblocks | ⟨f, hone, -⟩⟩ := h.framewise (by decide)
  · exact hblocks zeroFrame (by simp) rfl
  · simp at hone

end Monitoring.Server
