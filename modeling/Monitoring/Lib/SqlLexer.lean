import Monitoring.Lib.CText

/-!
# `Monitoring.Lib.SqlLexer`: the string literals of a SQL text

MySQL takes text between double or single quotes for a string. Two quotes side by side stand for
one, and a backslash gives the next byte another meaning, except that `\%` and `\_` stand for
themselves. `lexSql` is an automaton that reads a text byte by byte. It puts the strings together
and passes on all other bytes; comments are not told apart from the rest.

`lexSql_quoted_iff` says which names can be put between two quotes as they are.
-/

set_option autoImplicit false

namespace Monitoring.Lib

/-- What a text is made of. -/
inductive SqlToken
  | byte (c : Byte)
  | literal (value : Bytes)
  | unterminated
deriving DecidableEq, Repr

/-- Where the automaton is: outside of a string, inside of one with this value so far, behind a
backslash in it, or behind a quote that may end it. -/
inductive SqlMode
  | text
  | inside (quote : Byte) (value : Bytes)
  | escape (quote : Byte) (value : Bytes)
  | closing (quote : Byte) (value : Bytes)
deriving DecidableEq, Repr

/-- A byte that opens a string. -/
def isQuote (c : Byte) : Bool := c == 34 || c == 39

/-- What `\c` stands for in a string. -/
def unescape (c : Byte) : Bytes :=
  if c = ch 'n' then [10]
  else if c = ch 't' then [9]
  else if c = ch 'r' then [13]
  else if c = ch 'b' then [8]
  else if c = ch '0' then [0]
  else if c = ch 'Z' then [26]
  else if c = ch '%' ∨ c = ch '_' then [92, c]
  else [c]

/-- The next byte outside of a string. -/
def textByte (c : Byte) : List SqlToken × SqlMode :=
  if isQuote c then ([], .inside c []) else ([.byte c], .text)

/-- The next byte: the tokens that are complete, and the mode behind it. -/
def SqlMode.next : SqlMode → Byte → List SqlToken × SqlMode
  | .text, c => textByte c
  | .inside quote value, c =>
      if c = 92 then ([], .escape quote value)
      else if c = quote then ([], .closing quote value)
      else ([], .inside quote (value ++ [c]))
  | .escape quote value, c => ([], .inside quote (value ++ unescape c))
  | .closing quote value, c =>
      if c = quote then ([], .inside quote (value ++ [quote]))
      else (.literal value :: (textByte c).1, (textByte c).2)

/-- The end of the text. -/
def SqlMode.finish : SqlMode → List SqlToken
  | .text => []
  | .inside _ _ => [.unterminated]
  | .escape _ _ => [.unterminated]
  | .closing _ value => [.literal value]

/-- The tokens of a text, from a mode on. -/
def lexFrom : SqlMode → Bytes → List SqlToken
  | m, [] => m.finish
  | m, c :: cs => (m.next c).1 ++ lexFrom (m.next c).2 cs

/-- The tokens of a text. -/
def lexSql (text : Bytes) : List SqlToken := lexFrom .text text

/-- The text between two quotes is read as it is: it does not contain the quote, and a backslash
stands in front of `%` or `_` only. -/
def Verbatim (quote : Byte) : Bytes → Prop
  | [] => True
  | [c] => c ≠ 92 ∧ c ≠ quote
  | c :: d :: cs =>
      if c = 92 then (d = ch '%' ∨ d = ch '_') ∧ Verbatim quote cs
      else c ≠ quote ∧ Verbatim quote (d :: cs)

/-- It can be checked byte by byte. -/
instance decidableVerbatim (quote : Byte) : (name : Bytes) → Decidable (Verbatim quote name)
  | [] => isTrue trivial
  | [c] => inferInstanceAs (Decidable (c ≠ 92 ∧ c ≠ quote))
  | c :: d :: cs =>
      have : Decidable (Verbatim quote cs) := decidableVerbatim quote cs
      have : Decidable (Verbatim quote (d :: cs)) := decidableVerbatim quote (d :: cs)
      inferInstanceAs (Decidable (if c = 92 then _ else _))

section
variable {quote c : Byte} {value name after rest : Bytes}

/-! ### Outside of strings -/

theorem lexFrom_text_byte (h : isQuote c = false) (rest : Bytes) :
    lexFrom .text (c :: rest) = .byte c :: lexFrom .text rest := by
  rw [lexFrom, SqlMode.next, textByte, if_neg (by simp [h])]
  rfl

/-- A quote opens a string. -/
theorem lexFrom_quote (h : isQuote quote = true) (rest : Bytes) :
    lexFrom .text (quote :: rest) = lexFrom (.inside quote []) rest := by
  rw [lexFrom, SqlMode.next, textByte, if_pos h]
  rfl

/-- Text without quotes. -/
theorem lexFrom_text {text : Bytes} (h : ∀ c ∈ text, isQuote c = false) (rest : Bytes) :
    lexFrom .text (text ++ rest) = text.map .byte ++ lexFrom .text rest := by
  induction text with
  | nil => rfl
  | cons c text ih =>
      obtain ⟨hc, htext⟩ := List.forall_mem_cons.mp h
      rw [List.cons_append, lexFrom_text_byte hc, ih htext]
      rfl

/-! ### Inside of a string -/

theorem lexFrom_backslash (rest : Bytes) :
    lexFrom (.inside quote value) (92 :: c :: rest)
      = lexFrom (.inside quote (value ++ unescape c)) rest := rfl

theorem lexFrom_inside (hesc : c ≠ 92) (hquote : c ≠ quote) (rest : Bytes) :
    lexFrom (.inside quote value) (c :: rest) = lexFrom (.inside quote (value ++ [c])) rest := by
  rw [lexFrom, SqlMode.next, if_neg hesc, if_neg hquote]
  rfl

theorem lexFrom_inside_quote (h : quote ≠ 92) (rest : Bytes) :
    lexFrom (.inside quote value) (quote :: rest) = lexFrom (.closing quote value) rest := by
  rw [lexFrom, SqlMode.next, if_neg h, if_pos rfl]
  rfl

theorem lexFrom_closing_quote (rest : Bytes) :
    lexFrom (.closing quote value) (quote :: rest)
      = lexFrom (.inside quote (value ++ [quote])) rest := by
  rw [lexFrom, SqlMode.next, if_pos rfl]
  rfl

/-- Behind a quote, any other byte shows that the string has ended. -/
theorem lexFrom_closing (h : c ≠ quote) (rest : Bytes) :
    lexFrom (.closing quote value) (c :: rest) = .literal value :: lexFrom .text (c :: rest) := by
  rw [lexFrom, SqlMode.next, if_neg h, lexFrom, SqlMode.next]
  rfl

/-- So does a rest without the quote. -/
theorem lexFrom_closing_of_not_mem (h : quote ∉ rest) :
    lexFrom (.closing quote value) rest = .literal value :: lexFrom .text rest := by
  cases rest with
  | nil => rfl
  | cons c rest =>
      exact lexFrom_closing (Ne.symm (List.ne_and_not_mem_of_not_mem_cons h).1) rest

/-- Without a further quote the string does not end. -/
theorem lexFrom_unterminated (hrest : quote ∉ rest) (value : Bytes) :
    lexFrom (.inside quote value) rest = [.unterminated] ∧
      lexFrom (.escape quote value) rest = [.unterminated] := by
  induction rest generalizing value with
  | nil => exact ⟨rfl, rfl⟩
  | cons c rest ih =>
      obtain ⟨hc, hrest⟩ := List.ne_and_not_mem_of_not_mem_cons hrest
      refine ⟨?_, (ih hrest _).1⟩
      by_cases hesc : c = 92
      · rw [hesc]
        exact (ih hrest _).2
      · rw [lexFrom_inside hesc (Ne.symm hc)]
        exact (ih hrest _).1

/-! ### A name between two quotes -/

/-- `\%` and `\_` stand for themselves. -/
theorem unescape_wildcard (h : c = ch '%' ∨ c = ch '_') : unescape c = [92, c] := by
  rcases h with rfl | rfl <;> decide

/-- Every other pair stands for one byte. -/
theorem length_unescape (h : ¬ (c = ch '%' ∨ c = ch '_')) : (unescape c).length = 1 := by
  unfold unescape
  rw [if_neg h]
  split_ifs <;> rfl

/-- A name that is read as it is becomes the value. -/
theorem lexFrom_verbatim (h : Verbatim quote name) (value rest : Bytes) :
    lexFrom (.inside quote value) (name ++ rest)
      = lexFrom (.inside quote (value ++ name)) rest := by
  induction name using Verbatim.induct generalizing value with
  | case1 => rw [List.nil_append, List.append_nil]
  | case2 c => exact lexFrom_inside h.1 h.2 rest
  | case3 d cs ih =>
      rw [Verbatim, if_pos rfl] at h
      rw [List.cons_append, List.cons_append, lexFrom_backslash, unescape_wildcard h.1, ih h.2]
      simp
  | case4 c d cs hc ih =>
      rw [Verbatim, if_neg hc] at h
      rw [List.cons_append, lexFrom_inside hc h.1, ih h.2]
      simp

/-- If the text behind a name opens no other string, the string that begins with the name is no
longer than it, and is as long only if the name is read as it is. -/
theorem length_value_le (hquote : quote ≠ 92) (hafter : quote ∉ after) {found : Bytes}
    {tail : List SqlToken}
    (h : lexFrom (.inside quote value) (name ++ quote :: after) = .literal found :: tail) :
    found.length ≤ value.length + name.length ∧
      (found.length = value.length + name.length → Verbatim quote name) := by
  induction name using List.twoStepInduction generalizing value with
  | nil =>
      rw [List.nil_append, lexFrom_inside_quote hquote, lexFrom_closing_of_not_mem hafter] at h
      cases h
      exact ⟨Nat.le_refl _, fun _ => trivial⟩
  | singleton c =>
      rw [List.singleton_append] at h
      by_cases hesc : c = 92
      · -- the backslash takes the quote
        rw [hesc, lexFrom_backslash, (lexFrom_unterminated hafter _).1] at h
        cases h
      · by_cases hc : c = quote
        · rw [hc, lexFrom_inside_quote hquote, lexFrom_closing_quote,
            (lexFrom_unterminated hafter _).1] at h
          cases h
        · rw [lexFrom_inside hesc hc, lexFrom_inside_quote hquote,
            lexFrom_closing_of_not_mem hafter] at h
          cases h
          rw [List.length_append]
          exact ⟨Nat.le_refl _, fun _ => ⟨hesc, hc⟩⟩
  | cons_cons c d cs ih ih' =>
      rw [List.cons_append, List.cons_append] at h
      rw [List.length_cons, List.length_cons]
      by_cases hesc : c = 92
      · subst hesc
        rw [lexFrom_backslash] at h
        obtain ⟨hle, heq⟩ := ih h
        rw [List.length_append] at hle heq
        by_cases hd : d = ch '%' ∨ d = ch '_'
        · rw [unescape_wildcard hd, List.length_cons, List.length_singleton] at hle heq
          refine ⟨by omega, fun hfound => ?_⟩
          rw [Verbatim, if_pos rfl]
          exact ⟨hd, heq (by omega)⟩
        · -- two bytes of the name, one of the value
          rw [length_unescape hd] at hle
          exact ⟨by omega, fun hfound => by omega⟩
      · by_cases hc : c = quote
        · subst hc
          rw [lexFrom_inside_quote hquote] at h
          by_cases hd : d = c
          · subst hd
            rw [lexFrom_closing_quote] at h
            have hle := (ih h).1
            rw [List.length_append, List.length_singleton] at hle
            exact ⟨by omega, fun hfound => by omega⟩
          · -- the string ends inside of the name
            rw [lexFrom_closing hd] at h
            cases h
            exact ⟨by omega, fun hfound => by omega⟩
        · rw [lexFrom_inside hesc hc] at h
          obtain ⟨hle, heq⟩ := ih' d h
          rw [List.length_append, List.length_singleton, List.length_cons] at hle heq
          refine ⟨by omega, fun hfound => ?_⟩
          rw [Verbatim, if_neg hesc]
          exact ⟨hc, heq (by omega)⟩

/-- A name between two quotes, in a text that has no others: it is read as one string with this
value, and the rest of the text as it is, exactly if the name is read as it is. -/
theorem lexSql_quoted_iff {before : Bytes} (hquote : isQuote quote = true)
    (hbefore : ∀ c ∈ before, isQuote c = false) (hafter : ∀ c ∈ after, isQuote c = false) :
    lexSql (before ++ quote :: name ++ quote :: after)
        = before.map .byte ++ .literal name :: after.map .byte ↔ Verbatim quote name := by
  have hesc : quote ≠ 92 := by rintro rfl; exact absurd hquote (by decide)
  have hmem : quote ∉ after := fun h => by rw [hafter quote h] at hquote; cases hquote
  have hrest : lexFrom .text after = after.map .byte := by
    have htext := lexFrom_text hafter []
    rwa [List.append_nil, show lexFrom .text [] = [] from rfl, List.append_nil] at htext
  unfold lexSql
  rw [List.append_assoc, List.cons_append, lexFrom_text hbefore, lexFrom_quote hquote,
    List.append_cancel_left_eq]
  constructor
  · intro h
    exact (length_value_le hesc hmem h).2 (by simp)
  · intro h
    rw [lexFrom_verbatim h, List.nil_append, lexFrom_inside_quote hesc,
      lexFrom_closing_of_not_mem hmem, hrest]

end

end Monitoring.Lib
