import Monitoring.Lib.CText

/-!
# `Monitoring.Lib.ChunkedRead`: reading a stream through a buffer

A C++ program reads a stream in chunks: a call stores the next bytes at the start of a buffer, the
program stores a NUL behind them and appends the buffer, as a C string, to what it has. How the
stream is cut is up to the source.

`Reader` is the memory from the start of the buffer on, the indices of all stores so far, and the
text. The stores may go beyond the buffer: a chunk that fills it has its NUL behind it. A reader
takes that as harmless, as only its own `memory` changes. `readAll_text` says what is read, and
`readAll_inBounds_iff` for which chunks no store is out of bounds.
-/

set_option autoImplicit false

namespace Monitoring.Lib

/-- A reader with its buffer. -/
structure Reader where
  memory : Bytes
  stores : List Nat
  text : Bytes
deriving DecidableEq, Repr

/-- Nothing has been read. -/
def Reader.start (memory : Bytes) : Reader := ⟨memory, [], []⟩

/-- Stores a C string: its bytes, and a NUL behind them. -/
def Reader.store (r : Reader) (bytes : Bytes) : Reader :=
  { r with
    memory := bytes ++ 0 :: r.memory.drop (bytes.length + 1)
    stores := r.stores ++ List.range (bytes.length + 1) }

/-- `text += buffer`. -/
def Reader.append (r : Reader) : Reader := { r with text := r.text ++ cstr r.memory }

/-- Reads one chunk. -/
def Reader.readChunk (r : Reader) (chunk : Bytes) : Reader := (r.store chunk).append

/-- Reads until a read returns nothing. -/
def Reader.readAll : Reader → List Bytes → Reader
  | r, [] => r
  | r, chunk :: chunks => if chunk = [] then r else (r.readChunk chunk).readAll chunks

/-- No store is outside of a buffer of this size. -/
def Reader.InBounds (r : Reader) (size : Nat) : Prop := ∀ i ∈ r.stores, i < size

instance (r : Reader) (size : Nat) : Decidable (r.InBounds size) :=
  inferInstanceAs (Decidable (∀ i ∈ r.stores, i < size))

section
variable {r : Reader} {chunk : Bytes} {chunks : List Bytes} {size : Nat}

/-- A chunk without NUL is appended as it is. -/
theorem readChunk_text (h : 0 ∉ chunk) : (r.readChunk chunk).text = r.text ++ chunk := by
  show r.text ++ cstr (chunk ++ 0 :: _) = r.text ++ chunk
  rw [cstr_append _ h]
  exact congrArg (r.text ++ ·) (List.append_nil chunk)

theorem store_inBounds_iff {bytes : Bytes} :
    (r.store bytes).InBounds size ↔ r.InBounds size ∧ bytes.length < size := by
  unfold Reader.InBounds Reader.store
  simp only [List.mem_append, List.mem_range]
  constructor
  · exact fun h => ⟨fun i hi => h i (Or.inl hi), h _ (Or.inr (Nat.lt_succ_self _))⟩
  · rintro ⟨h, hlen⟩ i (hi | hi)
    · exact h i hi
    · omega

/-- The text is what was delivered. -/
theorem readAll_text (hne : ∀ chunk ∈ chunks, chunk ≠ []) (h : ∀ chunk ∈ chunks, 0 ∉ chunk) :
    (r.readAll chunks).text = r.text ++ chunks.flatten := by
  induction chunks generalizing r with
  | nil => exact (List.append_nil _).symm
  | cons chunk chunks ih =>
      obtain ⟨hchunk, hchunks⟩ := List.forall_mem_cons.mp h
      obtain ⟨hne, hnes⟩ := List.forall_mem_cons.mp hne
      rw [Reader.readAll, if_neg hne, ih hnes hchunks, readChunk_text hchunk, List.flatten_cons,
        List.append_assoc]

/-- The terminator of every chunk has to fit. -/
theorem readAll_inBounds_iff (hne : ∀ chunk ∈ chunks, chunk ≠ []) :
    (r.readAll chunks).InBounds size ↔
      r.InBounds size ∧ ∀ chunk ∈ chunks, chunk.length < size := by
  induction chunks generalizing r with
  | nil => exact ⟨fun h => ⟨h, by simp⟩, fun h => h.1⟩
  | cons chunk chunks ih =>
      obtain ⟨hne, hnes⟩ := List.forall_mem_cons.mp hne
      rw [Reader.readAll, if_neg hne, ih hnes, List.forall_mem_cons, ← and_assoc]
      exact and_congr_left fun _ => store_inBounds_iff

end

end Monitoring.Lib
