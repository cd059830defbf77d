import Monitoring.Proofs.DecoderLoop

/-!
# `Monitoring.Proofs.CutResponse`: a response that is cut off

`handle_gather` decodes whatever has arrived when the connection ends. The decoder looks at the
length of the response before a frame, and not again inside it. `frameReads` are the elements that
one pass reads (`parseFrame_congr`: it depends on no others).

`harmless_iff` says what that means for a response which is cut off. If the cut falls between two
frames, the rows of the frames before it are queued, and nothing outside is read. If it falls inside
a frame, the pass over this frame reads behind the terminator, or, where only the last digit of the
timestamp is missing, it queues a row with a tenth of the timestamp.
-/

set_option autoImplicit false

namespace Monitoring.Server

open Monitoring.Lib
open Monitoring.Client (Frame concatFrames packUserLength printBlocks blockCountChar)

/-! ### What a pass reads -/

section
variable {env : ParseEnv} {m m' : Memory} {machine : Bytes}

/-- The reads one by one. -/
theorem mem_frameReads {i cur : Int} : i ∈ m.frameReads cur ↔
    i = i32 (cur + 1) ∨
    i = u32 (1 + i32 (cur + 1) + u32 (m.numBlocks cur * 8)) ∨
    i = u32 (2 + i32 (cur + 1) + u32 (m.numBlocks cur * 8)) ∨
    (∃ x < m.ulen cur, u32 (u32 (1 + i32 (cur + 1) + 2 + u32 (m.numBlocks cur * 8)) + x) = i) ∨
    (m.tstart cur < u32 (m.tstart cur + 10) ∧ ∃ y < 10, u32 (m.tstart cur + (y : Nat)) = i) ∨
    ∃ b < m.numBlocks cur, i = 0 ∨ ∃ j < 8, i32 (i32 (cur + 1) + 1) + 8 * b + (j : Nat) = i := by
  simp [Memory.frameReads]

/-- A pass depends on the elements it reads, and on no others. -/
theorem parseFrame_congr {s : LoopState}
    (h : ∀ i ∈ m.frameReads s.currentIndex, m'.get i = m.get i) :
    parseFrame env m' machine s = parseFrame env m machine s := by
  have hblocks : m'.numBlocks s.currentIndex = m.numBlocks s.currentIndex := by
    unfold Memory.numBlocks
    rw [h _ (mem_frameReads.mpr (Or.inl rfl))]
  have hulen : m'.ulen s.currentIndex = m.ulen s.currentIndex := by
    unfold Memory.ulen Memory.usize
    dsimp only
    rw [hblocks, h _ (mem_frameReads.mpr (Or.inr (Or.inl rfl))),
      h _ (mem_frameReads.mpr (Or.inr (Or.inr (Or.inl rfl))))]
  have htstart : m'.tstart s.currentIndex = m.tstart s.currentIndex := by
    unfold Memory.tstart
    rw [hblocks, hulen]
  have huser : m'.userName s.currentIndex = m.userName s.currentIndex := by
    unfold Memory.userName Memory.copyU
    rw [hblocks, hulen]
    refine congrArg cstr (List.map_congr_left fun x hx => h _ (mem_frameReads.mpr ?_))
    exact Or.inr (Or.inr (Or.inr (Or.inl ⟨x, List.mem_range.mp hx, rfl⟩)))
  have hstamp : m'.stampValue env s.currentIndex = m.stampValue env s.currentIndex := by
    unfold Memory.stampValue
    rw [htstart]
    by_cases hlt : m.tstart s.currentIndex < u32 (m.tstart s.currentIndex + 10)
    · simp only [if_pos hlt]
      refine congrArg (fun text => u64 (atol (cstr text)))
        (List.map_congr_left fun y hy => h _ (mem_frameReads.mpr ?_))
      exact Or.inr (Or.inr (Or.inr (Or.inr (Or.inl ⟨hlt, y, List.mem_range.mp hy, rfl⟩))))
    · simp only [if_neg hlt]
  have hblock : ∀ st, ∀ b ∈ List.range (m.numBlocks s.currentIndex),
      parseBlock env m' machine (m.userName s.currentIndex) (m.stampValue env s.currentIndex)
          (i32 (i32 (s.currentIndex + 1) + 1)) st b
        = parseBlock env m machine (m.userName s.currentIndex) (m.stampValue env s.currentIndex)
          (i32 (i32 (s.currentIndex + 1) + 1)) st b := by
    intro st b hb
    have hb' := List.mem_range.mp hb
    have htype : m'.get 0 = m.get 0 := h _ (mem_frameReads.mpr
      (Or.inr (Or.inr (Or.inr (Or.inr (Or.inr ⟨b, hb', Or.inl rfl⟩))))))
    have hcopy : m'.copy (i32 (i32 (s.currentIndex + 1) + 1) + 8 * b) 8
        = m.copy (i32 (i32 (s.currentIndex + 1) + 1) + 8 * b) 8 := by
      refine List.map_congr_left fun j hj => h _ (mem_frameReads.mpr ?_)
      exact Or.inr (Or.inr (Or.inr (Or.inr (Or.inr
        ⟨b, hb', Or.inr ⟨j, List.mem_range.mp hj, rfl⟩⟩))))
    unfold parseBlock checkTimestamp
    rw [htype, hcopy]
  rw [parseFrame_fields, parseFrame_fields, hblocks, htstart, huser, hstamp,
    List.foldl_ext _ _ _ hblock]

section
variable {k : Nat} {f : Frame}

/-- A pass over a whole frame reads nothing but the frame, and the type of the response. -/
theorem FrameAt.reads_le (h : FrameAt m k f) (hlen : k + f.bytes.length < 2 ^ 31) {i : Int}
    (hi : i ∈ m.frameReads k) : 0 ≤ i ∧ i < k + f.bytes.length := by
  have hw := f.words_le
  have hu := f.user_le
  have hbytes := f.length_bytes
  have hk : k + 1 < 2 ^ 31 := by omega
  have hindex : i32 ((k : Int) + 1) = k + 1 := i32_of_lt (by omega) (by omega)
  rw [mem_frameReads, h.numBlocks hk, h.ulen hk, h.tstart hk, hindex] at hi
  rcases hi with rfl | rfl | rfl | ⟨x, hx, rfl⟩ | ⟨-, y, hy, rfl⟩ | ⟨b, hb, rfl | ⟨j, hj, rfl⟩⟩
  · omega
  · unfold u32
    omega
  · unfold u32
    omega
  · unfold u32
    omega
  · unfold u32
    omega
  · omega
  · unfold i32
    omega

end

/-! ### The rows of a pass -/

/-- A block takes no rows out of the queue. -/
theorem parseBlock_length (user : Bytes) (l start : Int) (st : ParseState) (b : Nat) :
    st.eventsToUpload.length
      ≤ (parseBlock env m machine user l start st b).eventsToUpload.length := by
  unfold parseBlock
  dsimp only
  split
  · exact Nat.le_refl _
  · simp [ParseState.push]

/-- A pass takes no rows out of the queue. -/
theorem parseBlocks_length (user : Bytes) (l start : Int) (blocks : List Nat) (st : ParseState) :
    st.eventsToUpload.length
      ≤ (blocks.foldl (parseBlock env m machine user l start) st).eventsToUpload.length := by
  induction blocks generalizing st with
  | nil => exact Nat.le_refl _
  | cons b blocks ih =>
      rw [List.foldl_cons]
      exact (parseBlock_length user l start st b).trans (ih _)

theorem parseFrame_length (s : LoopState) : s.st.eventsToUpload.length
    ≤ (parseFrame env m machine s).st.eventsToUpload.length := by
  rw [parseFrame_fields]
  exact parseBlocks_length _ _ _ _ _

/-- The first block of a frame is always queued. -/
theorem parseFrame_length_lt {s : LoopState} (h : 0 < m.numBlocks s.currentIndex) :
    s.st.eventsToUpload.length < (parseFrame env m machine s).st.eventsToUpload.length := by
  obtain ⟨n, hn⟩ : ∃ n, m.numBlocks s.currentIndex = n + 1 :=
    ⟨m.numBlocks s.currentIndex - 1, by omega⟩
  rw [parseFrame_fields, hn, List.range_succ_eq_map, List.foldl_cons]
  refine Nat.lt_of_lt_of_le ?_ (parseBlocks_length _ _ _ _ _)
  unfold parseBlock
  dsimp only
  rw [if_neg (by omega)]
  simp [ParseState.push]

/-! ### A frame that is cut off -/

/-- The response ends inside the frame `f`, which stands at byte `k`. -/
structure CutAt (m : Memory) (k : Nat) (f : Frame) : Prop where
  text : ∃ before cut, m.text = before ++ cut ∧ before.length = k ∧ cut <+: f.bytes
  start_lt : k < m.text.length
  lt_end : m.text.length < k + f.bytes.length

section
variable {k : Nat} {f : Frame}

/-- The terminator. -/
theorem get_terminator : m.get m.text.length = 0 := by
  unfold Memory.get
  rw [if_neg (by omega)]
  simp [List.getD_eq_getElem?_getD]

/-- What is there of the frame is as in a response with the whole frame. -/
theorem CutAt.whole (h : CutAt m k f) :
    ∃ m', FrameAt m' k f ∧ ∀ i : Int, 0 ≤ i → i < m.text.length → m.get i = m'.get i := by
  obtain ⟨before, cut, htext, hk, rest, hcut⟩ := h.text
  refine ⟨⟨before ++ f.bytes, m.outside⟩, ⟨before, [], by simp, hk⟩, fun i h0 hi => ?_⟩
  have hle : m.text.length ≤ (before ++ f.bytes).length := by
    rw [htext, ← hcut]
    simp
  unfold Memory.get
  rw [if_neg (by omega), if_neg (by dsimp only; omega)]
  rw [List.getD_eq_getElem?_getD, List.getD_eq_getElem?_getD, ← hcut, ← List.append_assoc,
    ← htext, List.getElem?_append_left (by omega)]

/-- A pass that does not read behind the terminator finds the count, and the first character of the
name length at least. -/
theorem CutAt.numBlocks (h : CutAt m k f) (hlen : m.text.length < 2 ^ 31)
    (hreads : ∀ i ∈ m.frameReads k, i ≤ m.text.length) :
    m.numBlocks k = f.words.length ∧ k + 3 + 8 * f.words.length ≤ m.text.length := by
  have hw := f.words_le
  have hstart := h.start_lt
  obtain ⟨m', hwhole, hget⟩ := h.whole
  have hindex : i32 ((k : Int) + 1) = k + 1 := i32_of_lt (by omega) (by omega)
  have hlast := hreads _ (mem_frameReads.mpr (Or.inr (Or.inr (Or.inl rfl))))
  rw [hindex] at hlast
  have hcount : k + 1 < m.text.length := by
    by_contra hle
    have hone : m.text.length = k + 1 := by omega
    have hzero : m.numBlocks k = 0 := by
      unfold Memory.numBlocks
      rw [hindex, show (k : Int) + 1 = m.text.length by omega, get_terminator]
      decide
    rw [hzero] at hlast
    unfold u32 at hlast
    omega
  have hnum : m.numBlocks k = f.words.length := by
    rw [← hwhole.numBlocks (by omega)]
    unfold Memory.numBlocks
    rw [hindex, hget _ (by omega) (by omega)]
  refine ⟨hnum, ?_⟩
  rw [hnum] at hlast
  unfold u32 at hlast
  omega

/-- Where the terminator is in the place of the second character, the length is a small number. -/
theorem CutAt.ulen_le (h : CutAt m k f) (hlen : m.text.length < 2 ^ 31)
    (hnum : m.numBlocks k = f.words.length)
    (hone : m.text.length = k + 3 + 8 * f.words.length) : m.ulen k ≤ 255 := by
  have hw := f.words_le
  have hstart := h.start_lt
  have hshort : (cstr (m.usize k)).length ≤ 1 := by
    rw [Memory.usize_of_numBlocks hnum (by omega) (by omega),
      show (k : Int) + 3 + 8 * f.words.length = m.text.length by omega, get_terminator]
    unfold cstr
    simp only [List.takeWhile_cons]
    split <;> simp
  unfold Memory.ulen
  rcases streamHex_short (hshort.trans (by decide)) with hlt | ⟨c, hs, -⟩
  · have hpow : 16 ^ (cstr (m.usize k)).length ≤ 16 ^ 1 :=
      Nat.pow_le_pow_right (by decide) hshort
    omega
  · rw [hs] at hshort
    exact absurd hshort (by simp)

/-- The pass over a frame that is cut off reads behind the terminator, unless only the last byte of
the frame is missing. -/
theorem CutAt.lt_end_one (h : CutAt m k f) (hlen : m.text.length < 2 ^ 31)
    (hreads : ∀ i ∈ m.frameReads k, i ≤ m.text.length) :
    m.text.length + 1 = k + f.bytes.length ∧ m.numBlocks k = f.words.length := by
  have hw := f.words_le
  have hu := f.user_le
  have hbytes := f.length_bytes
  have hstart := h.start_lt
  have hend := h.lt_end
  obtain ⟨m', hwhole, hget⟩ := h.whole
  obtain ⟨hnum, hlength⟩ := h.numBlocks hlen hreads
  have htstart := Memory.tstart_of_numBlocks hnum (by omega)
  -- where the timestamp is looked for, if the length of the name is small
  have hstamp : m.ulen k ≤ 255 → k + 13 + 8 * f.words.length + m.ulen k ≤ m.text.length := by
    intro hsmall
    have hread := hreads (u32 (m.tstart k + (9 : Nat))) (mem_frameReads.mpr
      (Or.inr (Or.inr (Or.inr (Or.inr (Or.inl ⟨?_, 9, by decide, rfl⟩))))))
    · rw [htstart] at hread
      unfold u32 at hread
      omega
    · rw [htstart]
      unfold u32
      omega
  refine ⟨?_, hnum⟩
  by_cases hboth : k + 3 + 8 * f.words.length < m.text.length
  · have hulen : m.ulen k = f.user.length := by
      rw [← hwhole.ulen (by omega)]
      unfold Memory.ulen
      rw [Memory.usize_of_numBlocks hnum (by omega) (by omega), hwhole.usize (by omega),
        ← hwhole.userLength, hget _ (by omega) (by omega), hget _ (by omega) (by omega)]
    have hle := hstamp (by omega)
    omega
  · have hle := hstamp (h.ulen_le hlen hnum (by omega))
    omega

end

/-! ### The whole frames of a prefix -/

/-- The frames that are wholly contained in the first `n` bytes of the response. -/
def wholeFrames : List Frame → Nat → List Frame
  | [], _ => []
  | f :: fs, n => if f.bytes.length ≤ n then f :: wholeFrames fs (n - f.bytes.length) else []

/-- A prefix of a response is its whole frames, and a part of the next one. -/
theorem exists_cut {fs : List Frame} {text : Bytes} (h : text <+: concatFrames fs) :
    ∃ rest cut, fs = wholeFrames fs text.length ++ rest ∧
      text = concatFrames (wholeFrames fs text.length) ++ cut ∧
      (cut = [] ∨ ∃ f rest', rest = f :: rest' ∧ cut <+: f.bytes ∧
        cut.length < f.bytes.length) := by
  induction fs generalizing text with
  | nil =>
      obtain rfl : text = [] := List.prefix_nil.mp h
      exact ⟨[], [], rfl, rfl, Or.inl rfl⟩
  | cons f fs ih =>
      rw [Client.concatFrames_cons] at h
      unfold wholeFrames
      by_cases hle : f.bytes.length ≤ text.length
      · obtain ⟨tail, rfl⟩ := List.prefix_of_prefix_length_le (List.prefix_append _ _) h hle
        have htail : tail <+: concatFrames fs := (List.prefix_append_right_inj _).mp h
        obtain ⟨rest, cut, hfs, htext, hcut⟩ := ih htail
        rw [if_pos hle, List.length_append, Nat.add_sub_cancel_left]
        refine ⟨rest, cut, by rw [List.cons_append, ← hfs], ?_, hcut⟩
        rw [Client.concatFrames_cons, List.append_assoc, ← htext]
      · rw [if_neg hle]
        have htext : text <+: f.bytes :=
          List.prefix_of_prefix_length_le h (List.prefix_append _ _) (by omega)
        exact ⟨f :: fs, text, rfl, rfl, Or.inr ⟨f, fs, rfl, htext, by omega⟩⟩

/-- The frame that goes over byte `d` of a response. -/
theorem exists_frame_over {fs : List Frame} {d : Nat} (h : d < (concatFrames fs).length) :
    ∃ done f todo, fs = done ++ f :: todo ∧ (concatFrames done).length ≤ d ∧
      d < (concatFrames done).length + f.bytes.length := by
  induction fs generalizing d with
  | nil => exact absurd h (Nat.not_lt_zero d)
  | cons f fs ih =>
      rw [Client.concatFrames_cons, List.length_append] at h
      by_cases hlt : d < f.bytes.length
      · exact ⟨[], f, fs, rfl, Nat.zero_le d, by simpa [concatFrames] using hlt⟩
      · obtain ⟨done, g, todo, rfl, hle, hover⟩ := ih (d := d - f.bytes.length) (by omega)
        refine ⟨f :: done, g, todo, rfl, ?_, ?_⟩
        · rw [Client.concatFrames_cons, List.length_append]
          omega
        · rw [Client.concatFrames_cons, List.length_append]
          omega

/-! ### The loop over the frames -/

theorem concatFrames_append (fs gs : List Frame) :
    concatFrames (fs ++ gs) = concatFrames fs ++ concatFrames gs := List.flatMap_append

/-- A frame of a response, after those before it. -/
theorem frameAt_of_append {done todo : List Frame} {f : Frame} {cut : Bytes}
    (htext : m.text = concatFrames (done ++ f :: todo) ++ cut) :
    FrameAt m (concatFrames done).length f := by
  refine ⟨concatFrames done, concatFrames todo ++ cut, ?_, rfl⟩
  rw [htext, concatFrames_append, Client.concatFrames_cons]
  simp only [List.append_assoc]

variable (env machine) in
/-- The loop comes to the end of the frames `done` with their rows in the queue, if the last of them
starts inside the response. -/
theorem loopAt_frames (st : ParseState) {done todo : List Frame} {cut : Bytes}
    (htext : m.text = concatFrames (done ++ todo) ++ cut)
    (hstart : ∀ init last, done = init ++ [last] → ((concatFrames init).length : Int) < m.dlen)
    (hend : (concatFrames done).length < 2 ^ 31) :
    ∃ s, LoopAt (fun s : LoopState => decide (s.currentIndex < m.dlen)) (parseFrame env m machine)
        ⟨0, st⟩ s ∧ s.currentIndex = (concatFrames done).length ∧
      s.st.eventsToUpload = st.eventsToUpload ++ done.flatMap (frameRows machine) := by
  induction done using List.reverseRecOn generalizing todo with
  | nil => exact ⟨⟨0, st⟩, .start, rfl, by simp⟩
  | append_singleton done f ih =>
      have hlast := hstart done f rfl
      have hsum : (concatFrames (done ++ [f])).length
          = (concatFrames done).length + f.bytes.length := by
        rw [concatFrames_append, List.length_append]
        simp [concatFrames]
      rw [hsum] at hend ⊢
      have htext' : m.text = concatFrames (done ++ f :: todo) ++ cut := by
        rw [htext, List.append_assoc, List.singleton_append]
      obtain ⟨⟨cur, st'⟩, hloop, hcur, hqueue⟩ := ih htext' (fun init last hinit => by
        refine Int.lt_of_le_of_lt ?_ hlast
        rw [hinit, concatFrames_append, List.length_append]
        omega) (by omega)
      obtain rfl : cur = (concatFrames done).length := hcur
      obtain ⟨hindex, hrows⟩ := parseFrame_eq env machine (frameAt_of_append htext') hend st'
      refine ⟨_, hloop.pass (decide_eq_true hlast), by rw [hindex, Nat.cast_add], ?_⟩
      rw [hrows, hqueue, List.flatMap_append, List.append_assoc]
      simp

end

/-! ### What harm a cut does -/

section
variable {env : ParseEnv} {m : Memory} {machine : Bytes} {st : ParseState}

/-- The branch test and the passes read no element of `data` in front of it, or behind its
terminator. -/
def ReadsInside (env : ParseEnv) (m : Memory) (machine : Bytes) (st : ParseState) : Prop :=
  1 ≤ m.text.length ∧ ∀ s, PassAt env m machine st s →
    ∀ i ∈ m.frameReads s.currentIndex, 0 ≤ i ∧ i ≤ m.text.length

/-- The rows of the whole frames are queued, and nothing outside is read. -/
def Harmless (env : ParseEnv) (m : Memory) (machine : Bytes) (st : ParseState)
    (fs : List Frame) : Prop :=
  Queues (fun fuel => parseEventBlock env m machine fuel st) st
    ((wholeFrames fs m.text.length).flatMap (frameRows machine)) ∧
  ReadsInside env m machine st

/-- If the decoding queues rows, its loop ends behind every state it comes to, and the rows there
are among them. -/
theorem Queues.loop {rows : List EVENT} (hbranch : m.get 1 ≠ ch '0')
    (h : Queues (fun fuel => parseEventBlock env m machine fuel st) st rows) {s : LoopState}
    (hloop : LoopAt (fun s : LoopState => decide (s.currentIndex < m.dlen))
      (parseFrame env m machine) ⟨0, st⟩ s) :
    s.st.eventsToUpload.length ≤ (st.eventsToUpload ++ rows).length ∧
      (m.dlen ≤ s.currentIndex → s.st.eventsToUpload = st.eventsToUpload ++ rows) := by
  obtain ⟨n, st', hrun, hrows⟩ := h
  obtain ⟨k, hk⟩ := hloop.rest
  obtain ⟨t, ht, hst⟩ : ∃ t, whileFuel (fun s : LoopState => decide (s.currentIndex < m.dlen))
      (parseFrame env m machine) n s = some t ∧ t.st = st' := by
    have hsome := hrun (k + n) (Nat.le_add_left n k)
    simp only [parseEventBlock, if_neg hbranch] at hsome
    rw [hk] at hsome
    exact Option.map_eq_some_iff.mp hsome
  rw [← hrows, ← hst]
  constructor
  · have hkept : ∀ u : LoopState, s.st.eventsToUpload.length ≤ u.st.eventsToUpload.length →
        s.st.eventsToUpload.length
          ≤ (parseFrame env m machine u).st.eventsToUpload.length :=
      fun u hu => hu.trans (parseFrame_length u)
    exact whileFuel_invariant hkept (Nat.le_refl _) ht
  · intro hstop
    have hs : whileFuel (fun s : LoopState => decide (s.currentIndex < m.dlen))
        (parseFrame env m machine) n s = some s := whileFuel_stop n (decide_eq_false (by omega))
    rw [Option.some.inj (hs.symm.trans ht)]

/-- A response of frames with blocks takes the looping branch, also if it is cut off. -/
theorem get_one_of_prefix {fs : List Frame} (hblocks : ∀ f ∈ fs, f.words ≠ [])
    (hne : m.text ≠ []) (hpart : m.text <+: concatFrames fs) : m.get 1 ≠ ch '0' := by
  cases fs with
  | nil => exact absurd (List.prefix_nil.mp hpart) hne
  | cons f fs =>
      by_cases hone : m.text.length = 1
      · rw [show (1 : Int) = m.text.length by omega, get_terminator]
        decide
      · have hlen := List.length_pos_iff.mpr hne
        obtain ⟨rest, hrest⟩ := hpart
        have hget : m.get 1 = (Memory.mk (concatFrames (f :: fs)) m.outside).get 1 := by
          unfold Memory.get
          rw [if_neg (by omega), if_neg (by rw [← hrest, List.length_append]; omega),
            List.getD_eq_getElem?_getD, List.getD_eq_getElem?_getD, ← hrest,
            List.getElem?_append_left (by simp; omega)]
        rw [hget, get_one_concatFrames]
        intro hzero
        rw [Client.blockCountChar_eq_zero_iff f.words_le] at hzero
        exact hblocks f List.mem_cons_self (List.length_eq_zero_iff.mp hzero)

/-- `dlen` of a response without NUL. -/
theorem dlen_eq (hnul : 0 ∉ m.text) : m.dlen = i32 m.text.length := by
  unfold Memory.dlen
  rw [cstr_eq_self hnul]

/-- In front of the end of a response of whole frames there is a frame. -/
theorem exists_frameAt {done todo : List Frame} (htext : m.text = concatFrames (done ++ todo))
    (hlt : ((concatFrames done).length : Int) < m.text.length) :
    ∃ f todo', todo = f :: todo' ∧ FrameAt m (concatFrames done).length f := by
  cases todo with
  | nil =>
      rw [htext, List.append_nil] at hlt
      exact absurd hlt (Int.lt_irrefl _)
  | cons f todo =>
      rw [← List.append_nil (concatFrames _)] at htext
      exact ⟨f, todo, rfl, frameAt_of_append htext⟩

/-- A response that ends behind a frame is read to its end, and not beyond. -/
theorem readsInside_of_whole {whole : List Frame} (htext : m.text = concatFrames whole)
    (hne : m.text ≠ []) (hlen : m.text.length < 2 ^ 31) : ReadsInside env m machine st := by
  have hdlen : m.dlen = m.text.length := by
    rw [dlen_eq (htext ▸ Client.zero_not_mem_concatFrames whole)]
    exact i32_of_lt (by omega) (by omega)
  refine ⟨List.length_pos_iff.mpr hne, fun s ⟨hbranch, hloop, hlt⟩ => ?_⟩
  -- every pass starts at a frame
  have hat : ∃ done todo, whole = done ++ todo ∧
      s.currentIndex = (concatFrames done).length := by
    refine @LoopAt.invariant LoopState _ _ (fun s => ∃ done todo, whole = done ++ todo ∧
      s.currentIndex = ((concatFrames done).length : Nat)) ?_ _ _ ⟨[], whole, rfl, rfl⟩ hloop
    rintro ⟨cur, st'⟩ ⟨done, todo, hsplit, hcur⟩ hcond
    obtain rfl : cur = (concatFrames done).length := hcur
    have hlt := of_decide_eq_true hcond
    rw [hdlen] at hlt
    obtain ⟨f, todo, rfl, hat⟩ := exists_frameAt (htext.trans (by rw [hsplit])) hlt
    refine ⟨done ++ [f], todo, by rw [hsplit]; simp, ?_⟩
    rw [(parseFrame_eq env machine hat (hat.end_le.trans_lt hlen) st').1, concatFrames_append,
      List.length_append]
    simp [concatFrames]
  obtain ⟨done, todo, hsplit, hcur⟩ := hat
  rw [hcur, hdlen] at hlt
  obtain ⟨f, todo, rfl, hat⟩ := exists_frameAt (htext.trans (by rw [hsplit])) hlt
  intro i hi
  rw [hcur] at hi
  obtain ⟨h0, hend⟩ := hat.reads_le (hat.end_le.trans_lt hlen) hi
  have hle := hat.end_le
  exact ⟨h0, by omega⟩

/-- A response that ends inside a frame is read beyond its end, or gives a row too many. -/
theorem not_readsInside_of_cut {whole : List Frame} {f : Frame} {cut : Bytes} (hf : f.words ≠ [])
    (htext : m.text = concatFrames whole ++ cut) (hnul : 0 ∉ m.text)
    (hbranch : m.get 1 ≠ ch '0') (hcut : cut <+: f.bytes) (hpos : cut ≠ [])
    (hlt : cut.length < f.bytes.length) (hlen : m.text.length < 2 ^ 31)
    (hqueues : Queues (fun fuel => parseEventBlock env m machine fuel st) st
      (whole.flatMap (frameRows machine))) : ¬ ReadsInside env m machine st := by
  rintro ⟨-, hinside⟩
  have hdlen : m.dlen = m.text.length := by
    rw [dlen_eq hnul]
    exact i32_of_lt (by omega) (by omega)
  have hsum := congrArg List.length htext
  rw [List.length_append] at hsum
  have hcutpos := List.length_pos_iff.mpr hpos
  -- the loop comes to the frame that is cut off
  have htodo : m.text = concatFrames (whole ++ []) ++ cut := by rw [List.append_nil]; exact htext
  obtain ⟨⟨cur, st'⟩, hloop, hcur, hqueue⟩ := loopAt_frames env machine st htodo
    (fun init last hinit => by
      have hinit' : (concatFrames whole).length
          = (concatFrames init).length + (concatFrames [last]).length := by
        rw [hinit, concatFrames_append, List.length_append]
      omega) (by omega)
  obtain rfl : cur = (concatFrames whole).length := hcur
  have hcond : ((concatFrames whole).length : Int) < m.dlen := by omega
  have hcutAt : CutAt m (concatFrames whole).length f :=
    ⟨⟨_, cut, htext, rfl, hcut⟩, by omega, by omega⟩
  obtain ⟨-, hnum⟩ := hcutAt.lt_end_one hlen
    fun i hi => (hinside _ ⟨hbranch, hloop, hcond⟩ i hi).2
  -- so its first block is queued
  have hwords : 0 < f.words.length := List.length_pos_iff.mpr hf
  have hblocks : 0 < m.numBlocks (LoopState.mk (concatFrames whole).length st').currentIndex :=
    hnum ▸ hwords
  have hmore := @parseFrame_length_lt env m machine _ hblocks
  have hrows := (hqueues.loop hbranch (hloop.pass (decide_eq_true hcond))).1
  rw [hqueue] at hmore
  exact absurd (hmore.trans_le hrows) (Nat.lt_irrefl _)

/-- The loop stops at the first frame that goes over `dlen`. The rows of the frames that follow are
missing, or `current_index` has become negative, and the next pass reads there. -/
theorem not_readsInside_of_over {done todo : List Frame} {f : Frame} {cut : Bytes}
    (htext : m.text = concatFrames (done ++ f :: todo) ++ cut)
    (hlast : ((concatFrames done).length : Int) < m.dlen)
    (hover : m.dlen ≤ (concatFrames done).length + f.bytes.length) (hbranch : m.get 1 ≠ ch '0')
    (hmore : (concatFrames done).length + f.bytes.length < 2 ^ 31 →
      todo.flatMap (frameRows machine) ≠ [])
    (hqueues : Queues (fun fuel => parseEventBlock env m machine fuel st) st
      ((done ++ f :: todo).flatMap (frameRows machine))) : ¬ ReadsInside env m machine st := by
  rintro ⟨-, hinside⟩
  have hdlen : m.dlen < 2147483648 := by
    unfold Memory.dlen i32
    omega
  have hat : FrameAt m (concatFrames done).length f := frameAt_of_append htext
  obtain ⟨⟨cur, st'⟩, hloop, hcur, hqueue⟩ := loopAt_frames env machine st htext
    (fun init last hinit => by
      have hinit' : (concatFrames done).length
          = (concatFrames init).length + (concatFrames [last]).length := by
        rw [hinit, concatFrames_append, List.length_append]
      omega) (by omega)
  obtain rfl : cur = (concatFrames done).length := hcur
  have hpass := hloop.pass (decide_eq_true hlast)
  by_cases hend : (concatFrames done).length + f.bytes.length < 2 ^ 31
  · obtain ⟨hindex, hframe⟩ := parseFrame_eq env machine hat hend st'
    have hall := (hqueues.loop hbranch hpass).2 (hindex ▸ hover)
    rw [hframe, hqueue, List.append_assoc] at hall
    have hrows := List.append_cancel_left hall
    rw [List.flatMap_append, List.flatMap_cons] at hrows
    have hnone := List.append_right_eq_self.mp (List.append_cancel_left hrows).symm
    exact hmore hend hnone
  · have hle := f.length_bytes_le
    have hindex : (parseFrame env m machine ⟨(concatFrames done).length, st'⟩).currentIndex
        = (concatFrames done).length + f.bytes.length - 4294967296 := by
      have hbytes := f.length_bytes
      rw [parseFrame_currentIndex, hat.tstart (by omega)]
      unfold u32 i32
      omega
    have hback : (parseFrame env m machine ⟨(concatFrames done).length, st'⟩).currentIndex
        < m.dlen := by
      rw [hindex]
      omega
    have hread := (hinside _ ⟨hbranch, hpass, hback⟩ _ (mem_frameReads.mpr (Or.inl rfl))).1
    rw [hindex] at hread
    unfold i32 at hread
    omega

/-- A response that an `int` does not measure is not decoded to its end, or is read in front of its
start. -/
theorem not_readsInside_of_long {whole : List Frame} {cut : Bytes}
    (hblocks : ∀ f ∈ whole, f.words ≠ []) (htext : m.text = concatFrames whole ++ cut)
    (hnul : 0 ∉ m.text) (hbranch : m.get 1 ≠ ch '0') (hcut : cut.length ≤ 341)
    (hlen : 2 ^ 31 ≤ m.text.length)
    (hqueues : Queues (fun fuel => parseEventBlock env m machine fuel st) st
      (whole.flatMap (frameRows machine))) : ¬ ReadsInside env m machine st := by
  have hdlen := dlen_eq hnul
  have hsum := congrArg List.length htext
  rw [List.length_append] at hsum
  have hrows : ∀ fs : List Frame, fs ≠ [] → (∀ f ∈ fs, f ∈ whole) →
      fs.flatMap (frameRows machine) ≠ [] := by
    intro fs hfs hmem hnil
    obtain ⟨f, rest, rfl⟩ := List.exists_cons_of_ne_nil hfs
    rw [List.flatMap_cons] at hnil
    exact frameRows_ne_nil (hblocks f (hmem f List.mem_cons_self))
      (List.append_eq_nil_iff.mp hnil).1
  by_cases hneg : m.dlen ≤ 0
  · -- the loop does not run
    have hnone := (hqueues.loop hbranch .start).2 hneg
    refine absurd (List.append_right_eq_self.mp hnone.symm) (hrows whole ?_ fun f hf => hf)
    rintro rfl
    simp only [concatFrames, List.flatMap_nil, List.length_nil] at hsum
    omega
  · have hinside : (m.dlen - 1).toNat < (concatFrames whole).length := by
      unfold i32 at hdlen
      omega
    obtain ⟨done, f, todo, rfl, hle, hover⟩ := exists_frame_over hinside
    refine not_readsInside_of_over htext (by omega) (by omega) hbranch (fun hend => ?_) hqueues
    refine hrows todo ?_ fun g hg => by simp [hg]
    rintro rfl
    rw [concatFrames_append, List.length_append, Client.concatFrames_cons, List.length_append]
      at hsum
    have hnil : (concatFrames []).length = 0 := rfl
    unfold i32 at hdlen
    omega

variable (env machine st) in
/-- A response that is cut off does no harm exactly if the cut falls between two frames, and what is
left of it has less than `2 ^ 31` bytes. -/
theorem harmless_iff (fs : List Frame) (hblocks : ∀ f ∈ fs, f.words ≠ []) {text : Bytes}
    (outside : Int → Byte) (hne : text ≠ []) (hpart : text <+: concatFrames fs) :
    Harmless env ⟨text, outside⟩ machine st fs ↔
      concatFrames (wholeFrames fs text.length) = text ∧ text.length < 2 ^ 31 := by
  obtain ⟨rest, cut, hfs, htext, hcut⟩ := exists_cut hpart
  have hnul : 0 ∉ text := fun h => Client.zero_not_mem_concatFrames fs (hpart.subset h)
  have hbranch := get_one_of_prefix (m := ⟨text, outside⟩) hblocks hne hpart
  have hwhole : ∀ f ∈ wholeFrames fs text.length, f.words ≠ [] :=
    fun f hf => hblocks f (by rw [hfs]; exact List.mem_append_left _ hf)
  unfold Harmless
  constructor
  · rintro ⟨hqueues, hinside⟩
    by_cases hlen : text.length < 2 ^ 31
    · refine ⟨?_, hlen⟩
      rcases hcut with rfl | ⟨f, rest', rfl, hcut, hlt⟩
      · rw [← List.append_nil (concatFrames _)]
        exact htext.symm
      · by_contra hpos
        refine not_readsInside_of_cut (m := ⟨text, outside⟩) ?_ htext hnul hbranch hcut ?_ hlt hlen
          hqueues hinside
        · exact hblocks f (by rw [hfs]; simp)
        · rintro rfl
          rw [List.append_nil] at htext
          exact hpos htext.symm
    · have hshort : cut.length ≤ 341 := by
        rcases hcut with rfl | ⟨f, rest', -, -, hlt⟩
        · exact Nat.zero_le _
        · exact (hlt.le).trans f.length_bytes_le
      exact absurd hinside (not_readsInside_of_long (m := ⟨text, outside⟩) hwhole htext hnul hbranch
        hshort (Nat.le_of_not_lt hlen) hqueues)
  · rintro ⟨heq, hlen⟩
    refine ⟨?_, readsInside_of_whole (m := ⟨text, outside⟩) heq.symm hne hlen⟩
    obtain ⟨f, todo, hcons⟩ : ∃ f todo, wholeFrames fs text.length = f :: todo := by
      refine List.exists_cons_of_ne_nil fun hnil => hne ?_
      rw [← heq, hnil]
      rfl
    dsimp only
    rw [hcons] at heq hwhole ⊢
    subst heq
    exact parseEventBlock_cons env outside machine (hwhole f List.mem_cons_self) hlen st

end

/-- A response of two frames, of which only the first has arrived. -/
theorem harmless_iff_first :
    Harmless quietEnv ⟨concatFrames [guestFrame], fun _ => 0⟩ [ch 'm'] emptyState
      [guestFrame, oneBlockFrame] :=
  (@harmless_iff quietEnv [ch 'm'] emptyState [guestFrame, oneBlockFrame] (by decide)
    (concatFrames [guestFrame]) (fun _ => 0) (by decide) (by decide)).mpr ⟨by decide, by decide⟩

/-- A frame without its last byte. -/
def cutByte : Memory := ⟨oneBlockFrame.bytes.take 21, fun _ => 0⟩

/-- The frame is not whole, but gives a row, of the year 1973. -/
theorem queues_cutByte : Queues (fun fuel => parseEventBlock quietEnv cutByte [] fuel emptyState)
    emptyState [⟨[], 100000002, [], 1, 1, 0⟩] := by
  have hbranch : ¬ cutByte.get 1 = ch '0' := by decide
  have hindex : (parseFrame quietEnv cutByte [] ⟨0, emptyState⟩).currentIndex = 22 := by
    rw [parseFrame_currentIndex]
    decide
  refine ⟨1, (parseFrame quietEnv cutByte [] ⟨0, emptyState⟩).st, fun fuel hfuel => ?_, by decide⟩
  obtain ⟨n, rfl⟩ : ∃ n, fuel = n + 1 := ⟨fuel - 1, by omega⟩
  have hstop : ¬ (parseFrame quietEnv cutByte [] ⟨0, emptyState⟩).currentIndex < cutByte.dlen := by
    rw [hindex]
    decide
  have hloop : whileFuel (fun s : LoopState => decide (s.currentIndex < cutByte.dlen))
      (parseFrame quietEnv cutByte []) (n + 1) ⟨0, emptyState⟩
        = some (parseFrame quietEnv cutByte [] ⟨0, emptyState⟩) :=
    (whileFuel_pass n (by decide)).trans (whileFuel_stop n (decide_eq_false hstop))
  dsimp only [parseEventBlock]
  rw [if_neg hbranch, hloop]
  rfl

theorem harmless_fails :
    cutByte.text ≠ [] ∧ cutByte.text <+: concatFrames [oneBlockFrame] ∧
      ¬ Harmless quietEnv cutByte [] emptyState [oneBlockFrame] :=
  ⟨by decide, by decide, fun h => absurd (h.1.unique queues_cutByte) (by decide)⟩

end Monitoring.Server
