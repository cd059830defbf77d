import Monitoring.Client.CallHome
import Monitoring.Client.RunningProc
import Monitoring.Server.Receive

/-!
# `Monitoring.Proofs.Readers`: the buffers of the readers

Three of the readers ask for as many bytes as their buffer has, and then store a NUL behind what
they got: it is out of bounds if they got all of it. The fourth asks for 7 bytes, whatever the size
of its buffer is; with a user name of at least one byte, the buffer has 8. `chunkedReaders_iff`
says for which streams and cuts no store is out of bounds and nothing is lost.
-/

set_option autoImplicit false

namespace Monitoring.Server

open Monitoring.Lib
open Client (callHomeOutput fileSize linuxGetRunningProc linuxGetRunningProc_text psCommand
  commandSize commandRoom)

/-- The four readers, by the name of the buffer. -/
inductive StreamReader
  | response
  | data
  | file
  | command (currentUser : Bytes)
deriving DecidableEq, Repr

/-- How many bytes a read asks for. -/
def StreamReader.asks : StreamReader → Nat
  | .response => responseSize
  | .data => dataSize
  | .file => fileSize
  | .command _ => commandRoom

/-- The length of the buffer. -/
def StreamReader.bufferSize : StreamReader → Nat
  | .response => responseSize
  | .data => dataSize
  | .file => fileSize
  | .command currentUser => commandSize currentUser

/-- The source delivers the stream in these chunks. The chunks of `fgets` are cut by `fgets`. -/
def StreamReader.Delivers (reader : StreamReader) (stream : Bytes) (chunks : List Bytes) : Prop :=
  chunks.flatten = stream ∧ (∀ chunk ∈ chunks, chunk ≠ [] ∧ chunk.length ≤ reader.asks) ∧
    match reader with
    | .response | .data | .file => True
    | .command _ => chunks = fgetsPieces commandRoom stream

/-- The reader, when the stream comes in these chunks. -/
def StreamReader.read (reader : StreamReader) (memory : Bytes) (chunks : List Bytes) : Reader :=
  match reader with
  | .response => gatherResponse memory chunks
  | .data => listenData memory chunks
  | .file => callHomeOutput memory chunks
  | .command currentUser => linuxGetRunningProc memory currentUser chunks.flatten

/-- No chunk fills the buffer. That of `command` is filled by a line of 7 bytes, the newline
included, if there is no user name. -/
def StreamReader.Fits (stream : Bytes) (chunks : List Bytes) : StreamReader → Prop
  | .response => ∀ chunk ∈ chunks, chunk.length < responseSize
  | .data => ∀ chunk ∈ chunks.head?, chunk.length < dataSize
  | .file => ∀ chunk ∈ chunks, chunk.length < fileSize
  | .command currentUser => currentUser ≠ [] ∨ ∀ line ∈ rawLines stream, line.length < commandRoom

/-- `handle_listen` reads no more than one chunk. -/
def StreamReader.ReadsAll (chunks : List Bytes) : StreamReader → Prop
  | .data => chunks.length ≤ 1
  | .response | .file | .command _ => True

section
variable {reader : StreamReader} {stream memory : Bytes} {chunks : List Bytes}

/-- The size of `command`, for a user name of this length. -/
theorem commandSize_eq (currentUser : Bytes) :
    commandSize currentUser = currentUser.length + 7 := by
  show (str "ps -u " ++ currentUser).length + 1 = _
  rw [List.length_append, show (str "ps -u ").length = 6 by decide]
  omega

/-- The pieces of `fgets` fit into `command`, unless there is no user name and one of them is
full. -/
theorem commandPieces_fit_iff (currentUser output : Bytes) :
    (∀ piece ∈ fgetsPieces commandRoom output, piece.length < commandSize currentUser) ↔
      currentUser ≠ [] ∨ ∀ line ∈ rawLines output, line.length < commandRoom := by
  rw [commandSize_eq]
  cases currentUser with
  | nil =>
      rw [← length_fgetsPieces_lt_iff (show 1 ≤ commandRoom by decide)]
      exact (or_iff_right fun h => h rfl).symm
  | cons c cs =>
      refine iff_of_true (fun piece hpiece => ?_) (Or.inl (List.cons_ne_nil c cs))
      have hle : piece.length ≤ 7 := length_le_of_mem_fgetsPieces (by decide) hpiece
      rw [List.length_cons]
      omega

/-- Which stores are in bounds. -/
theorem read_inBounds_iff (h : reader.Delivers stream chunks) :
    (reader.read memory chunks).InBounds reader.bufferSize ↔ reader.Fits stream chunks := by
  obtain ⟨hstream, hchunks, hcut⟩ := h
  have hne : ∀ chunk ∈ chunks, chunk ≠ [] := fun chunk hc => (hchunks chunk hc).1
  have hstart : ∀ size, (Reader.start memory).InBounds size := fun _ _ hi =>
    absurd hi List.not_mem_nil
  cases reader with
  | response => exact (readAll_inBounds_iff hne).trans (and_iff_right (hstart _))
  | file => exact (readAll_inBounds_iff hne).trans (and_iff_right (hstart _))
  | data =>
      cases chunks with
      | nil => exact iff_of_true (hstart _) (by simp [StreamReader.Fits])
      | cons chunk chunks =>
          refine (store_inBounds_iff.trans (and_iff_right (hstart _))).trans ?_
          simp [StreamReader.Fits, StreamReader.bufferSize]
  | command currentUser =>
      show (linuxGetRunningProc memory currentUser chunks.flatten).InBounds _ ↔ _
      have hpieces : ∀ piece ∈ fgetsPieces commandRoom chunks.flatten, piece ≠ [] :=
        fun _ hp => ne_nil_of_mem_fgetsFrom hp
      have hcopy : ((Reader.start memory).store (psCommand currentUser)).InBounds
          (commandSize currentUser) :=
        store_inBounds_iff.mpr ⟨hstart _, Nat.lt_succ_self _⟩
      refine (readAll_inBounds_iff hpieces).trans ((and_iff_right hcopy).trans ?_)
      refine (commandPieces_fit_iff currentUser _).trans ?_
      rw [hstream]
      rfl

/-- Which streams are read to their end. -/
theorem read_text_iff (hnul : 0 ∉ stream) (h : reader.Delivers stream chunks) :
    (reader.read memory chunks).text = stream ↔ reader.ReadsAll chunks := by
  obtain ⟨hstream, hchunks, -⟩ := h
  have hne : ∀ chunk ∈ chunks, chunk ≠ [] := fun chunk hc => (hchunks chunk hc).1
  have hzero : ∀ chunk ∈ chunks, 0 ∉ chunk := fun chunk hc h0 =>
    hnul (hstream ▸ List.mem_flatten_of_mem hc h0)
  cases reader with
  | response => exact iff_of_true ((readAll_text hne hzero).trans hstream) trivial
  | file => exact iff_of_true ((readAll_text hne hzero).trans hstream) trivial
  | data =>
      cases chunks with
      | nil => exact iff_of_true hstream (Nat.zero_le 1)
      | cons chunk chunks =>
          have htext : (StreamReader.data.read memory (chunk :: chunks)).text = chunk :=
            readChunk_text (hzero chunk List.mem_cons_self)
          rw [htext, ← hstream, List.flatten_cons, List.self_eq_append_right]
          show chunks.flatten = [] ↔ chunks.length + 1 ≤ 1
          rw [List.flatten_eq_nil_iff]
          constructor
          · intro hnil
            cases chunks with
            | nil => exact Nat.le_refl 1
            | cons next chunks =>
                have hnext : next ∈ chunk :: next :: chunks := by simp
                exact absurd (hnil next List.mem_cons_self) (hne next hnext)
          · intro hlen
            rw [List.length_eq_zero_iff.mp (Nat.le_zero.mp (Nat.le_of_succ_le_succ hlen))]
            exact fun _ hc => absurd hc List.not_mem_nil
  | command currentUser =>
      refine iff_of_true ?_ trivial
      show (linuxGetRunningProc memory currentUser chunks.flatten).text = stream
      rw [hstream]
      exact linuxGetRunningProc_text hnul

/-- For every stream without NUL, however it is cut: no store of a reader is out of bounds and its
text is the stream, exactly if the chunks fit and the reader reads all of them. -/
theorem chunkedReaders_iff (hnul : 0 ∉ stream) (h : reader.Delivers stream chunks) :
    ((reader.read memory chunks).InBounds reader.bufferSize ∧
        (reader.read memory chunks).text = stream) ↔
      reader.Fits stream chunks ∧ reader.ReadsAll chunks :=
  and_congr (read_inBounds_iff h) (read_text_iff hnul h)

end

/-- A list that arrives in two chunks, the first of which leaves room for the NUL. -/
theorem chunkedReaders_iff_two :
    let chunks := [List.replicate 11 (ch 'a'), [ch 'b']]
    (StreamReader.file.read [] chunks).InBounds fileSize ∧
      (StreamReader.file.read [] chunks).text = chunks.flatten :=
  (@chunkedReaders_iff .file _ [] [List.replicate 11 (ch 'a'), [ch 'b']] (by decide)
    ⟨rfl, by decide, trivial⟩).mpr ⟨by unfold StreamReader.Fits; decide, trivial⟩

/-- A list that arrives in a chunk of 12 bytes, and a line of 7 bytes for no user: the NUL is stored
behind the buffer. -/
theorem chunkedReaders_fails :
    let chunk := List.replicate 12 (ch 'a')
    let line := List.replicate 6 (ch 'a') ++ [ch '\n']
    (StreamReader.file.Delivers chunk [chunk] ∧
        ¬ (StreamReader.file.read [] [chunk]).InBounds StreamReader.file.bufferSize) ∧
      (StreamReader.command []).Delivers line [line] ∧
        ¬ ((StreamReader.command []).read [] [line]).InBounds
            (StreamReader.command []).bufferSize :=
  ⟨⟨⟨rfl, by decide, trivial⟩, by decide⟩, ⟨rfl, by decide, rfl⟩, by decide +kernel⟩

end Monitoring.Server
