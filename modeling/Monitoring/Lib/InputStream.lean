import Monitoring.Lib.CText
import Monitoring.Lib.While

/-!
# `Monitoring.Lib.InputStream`: `while (in) { getline(in, line); ... }`

A loop of this form does not only see the lines of the text. The stream tests as true until a
`getline` has failed, so there is one more pass. Behind a text that ends with a newline it has an
empty string. Behind any other text the stream is at its end already, `getline` does not touch the
string, and the pass has the last line once more.

`passLines` are the strings of the passes, and `lineLoop_eq` says that the loop goes over them and
ends, where a pass may also raise.
-/

set_option autoImplicit false

namespace Monitoring.Lib

/-- An `istream` over a text: what has not been read yet, and the state bits. -/
structure InputStream where
  rest : Bytes
  eofbit : Bool
  failbit : Bool
deriving DecidableEq, Repr

/-- A stream that has just been opened. -/
def InputStream.opened (text : Bytes) : InputStream := ⟨text, false, false⟩

/-- `getline(in, line)`: the stream and the string behind it. -/
def InputStream.getline (s : InputStream) (line : Bytes) : InputStream × Bytes :=
  -- the sentry is not good, so the string is not even erased
  if s.eofbit || s.failbit then ({ s with failbit := true }, line)
  else
    let read := s.rest.takeWhile (· ≠ ch '\n')
    match s.rest.drop read.length with
    | [] => (⟨[], true, read = []⟩, read)
    | _ :: rest => (⟨rest, false, false⟩, read)

variable {ε α : Type}

/-- The stream, the string, and what the passes have made so far. -/
structure LineLoop (ε α : Type) where
  stream : InputStream
  line : Bytes
  result : Except ε α

/-- The loop goes on while the stream tests as true and nothing has been raised. -/
def LineLoop.goesOn (s : LineLoop ε α) : Bool := !s.stream.failbit && s.result.isOk

/-- One pass. -/
def LineLoop.pass (body : α → Bytes → Except ε α) (s : LineLoop ε α) : LineLoop ε α where
  stream := (s.stream.getline s.line).1
  line := (s.stream.getline s.line).2
  result := s.result.bind fun a => body a (s.stream.getline s.line).2

/-- In front of the loop. -/
def LineLoop.start (text line : Bytes) (a : α) : LineLoop ε α := ⟨.opened text, line, .ok a⟩

/-- The loop over a text, for at most `fuel` passes. -/
def lineLoop (body : α → Bytes → Except ε α) (text : Bytes) (fuel : Nat) (a : α) :
    Option (Except ε α) :=
  (whileFuel LineLoop.goesOn (LineLoop.pass body) fuel (.start text [] a)).map LineLoop.result

/-- The strings that the passes see. -/
def passLines (text : Bytes) : List Bytes :=
  let lines := text.splitOn (ch '\n')
  lines ++ lines.getLast?.toList.filter (· ≠ [])

/-! ### The passes -/

section
variable {text line : Bytes}

/-- `getline` stops at the first newline. -/
theorem getline_line (h : ch '\n' ∉ line) (rest old : Bytes) :
    (InputStream.opened (line ++ ch '\n' :: rest)).getline old = (.opened rest, line) := by
  have hline : ∀ c ∈ line, decide (c ≠ ch '\n') = true := fun c hc =>
    decide_eq_true fun heq => h (heq ▸ hc)
  have hread : (line ++ ch '\n' :: rest).takeWhile (· ≠ ch '\n') = line := by
    rw [List.takeWhile_append_of_pos hline, List.takeWhile_cons_of_neg (by simp), List.append_nil]
  unfold InputStream.getline InputStream.opened
  simp only [Bool.or_self, Bool.false_eq_true, if_false, hread, List.drop_left]

/-- A text without a newline is read to its end, and an empty one is a failure. -/
theorem getline_last (h : ch '\n' ∉ text) (old : Bytes) :
    (InputStream.opened text).getline old = (⟨[], true, text = []⟩, text) := by
  have hread : text.takeWhile (· ≠ ch '\n') = text :=
    List.takeWhile_eq_self_iff.mpr fun c hc => decide_eq_true fun heq => h (heq ▸ hc)
  unfold InputStream.getline InputStream.opened
  simp only [Bool.or_self, Bool.false_eq_true, if_false, hread, List.drop_length]

theorem passLines_line (h : ch '\n' ∉ line) (rest : Bytes) :
    passLines (line ++ ch '\n' :: rest) = line :: passLines rest := by
  unfold passLines
  rw [List.splitOn_append_cons_self_of_not_mem h]
  obtain ⟨first, lines, hlines⟩ := List.exists_cons_of_ne_nil (List.splitOn_ne_nil (ch '\n') rest)
  rw [hlines]
  rfl

theorem passLines_last (h : ch '\n' ∉ text) :
    passLines text = text :: if text = [] then [] else [text] := by
  unfold passLines
  rw [List.splitOn_eq_singleton h]
  by_cases htext : text = []
  · rw [htext]
    rfl
  · simp [htext]

/-- The strings are those of the lines, and the last one may come twice. -/
theorem passLines_eq (text : Bytes) : ∃ front last,
    text.splitOn (ch '\n') = front ++ [last] ∧
      passLines text = front ++ [last] ++ if last = [] then [] else [last] := by
  obtain ⟨front, last, hlines⟩ :=
    (List.eq_nil_or_concat _).resolve_left (List.splitOn_ne_nil (ch '\n') text)
  rw [List.concat_eq_append] at hlines
  refine ⟨front, last, hlines, ?_⟩
  unfold passLines
  rw [hlines]
  by_cases hlast : last = [] <;> simp [hlast]

theorem mem_passLines : line ∈ passLines text ↔ line ∈ text.splitOn (ch '\n') := by
  obtain ⟨front, last, hlines, hpasses⟩ := passLines_eq text
  rw [hlines, hpasses]
  by_cases hlast : last = [] <;> simp [hlast]

/-- What is looked for from the end is found in the lines. -/
theorem findSome?_passLines {β : Type} (f : Bytes → Option β) (text : Bytes) :
    (passLines text).reverse.findSome? f = (text.splitOn (ch '\n')).reverse.findSome? f := by
  obtain ⟨front, last, hlines, hpasses⟩ := passLines_eq text
  rw [hlines, hpasses, List.reverse_append, List.findSome?_append]
  by_cases hlast : last = []
  · simp [hlast]
  · cases hfound : f last <;> simp [hlast, hfound]

end

/-! ### The loop -/

section
variable {body : α → Bytes → Except ε α} {text line : Bytes} {a : α}

/-- A failed `getline` ends the loop. -/
theorem goesOn_failed (stream : InputStream) (h : stream.failbit = true) (line : Bytes)
    (result : Except ε α) : (⟨stream, line, result⟩ : LineLoop ε α).goesOn = false := by
  unfold LineLoop.goesOn
  rw [h]
  rfl

/-- So does a raise. -/
theorem goesOn_error (stream : InputStream) (line : Bytes) (e : ε) :
    (⟨stream, line, .error e⟩ : LineLoop ε α).goesOn = false := Bool.and_false _

/-- The loop goes over the strings of the passes, and ends. -/
theorem lineLoop_eq {fuel : Nat} (hfuel : text.length + 2 ≤ fuel) :
    lineLoop body text fuel a = some ((passLines text).foldlM body a) := by
  unfold lineLoop
  generalize ([] : Bytes) = line
  induction hlen : text.length using Nat.strongRecOn generalizing text line a fuel with
  | ind n ih =>
      obtain ⟨fuel, rfl⟩ : ∃ k, fuel = k + 2 := ⟨fuel - 2, by omega⟩
      rw [whileFuel_pass _ rfl]
      by_cases hnl : ch '\n' ∈ text
      · obtain ⟨first, rest, rfl, hfirst⟩ := List.eq_append_cons_of_mem hnl
        rw [List.length_append, List.length_cons] at hfuel hlen
        have hpass : (LineLoop.start (first ++ ch '\n' :: rest) line a).pass body
            = ⟨.opened rest, first, body a first⟩ := by
          unfold LineLoop.pass LineLoop.start
          rw [getline_line hfirst]
          rfl
        rw [hpass, passLines_line hfirst, List.foldlM_cons]
        cases hbody : body a first with
        | error e =>
            rw [whileFuel_stop _ (goesOn_error _ _ e)]
            rfl
        | ok a' => exact ih rest.length (by omega) (by omega) first rfl
      · have hpass : (LineLoop.start text line a).pass body
            = ⟨⟨[], true, text = []⟩, text, body a text⟩ := by
          unfold LineLoop.pass LineLoop.start
          rw [getline_last hnl]
          rfl
        rw [hpass, passLines_last hnl, List.foldlM_cons]
        cases hbody : body a text with
        | error e =>
            rw [whileFuel_stop _ (goesOn_error _ _ e)]
            rfl
        | ok a' =>
            by_cases htext : text = []
            · rw [whileFuel_stop _ (goesOn_failed _ (decide_eq_true htext) _ _), if_pos htext]
              rfl
            · -- the stream is at its end, and the next pass has the same string
              rw [whileFuel_pass _ (by simp [LineLoop.goesOn, htext, Except.isOk, Except.toBool]),
                whileFuel_stop _ (goesOn_failed _ rfl _ _), if_neg htext]
              change some (body a' text) = some ([text].foldlM body a')
              simp

end

end Monitoring.Lib
