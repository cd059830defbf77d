import Monitoring.Lib.CText

/-!
# `Monitoring.Lib.LineSearch`: `regex_search` of `^word`, ignoring case

Boost's Perl matcher takes `^` as the start of a line: the start of the text, or a position
after a line separator that does not cut `\r\n`. `searchLine word s` is `regex_search` with
`^word` and the `icase` flag, for a word of letters.
-/

set_option autoImplicit false

namespace Monitoring.Lib

/-- `tolower` in the C locale. -/
def lower (c : Byte) : Byte := if 65 ≤ c ∧ c ≤ 90 then c + 32 else c

/-- `is_separator<char>`: line feed, carriage return, form feed. -/
def isSeparator (c : Byte) : Bool := c == 10 || c == 13 || c == 12

/-- `s` starts with `word`, letters compared without case. -/
def startsWith (word s : Bytes) : Bool := (s.take word.length).map lower == word.map lower

/-- Searches on from a position; `bol` says whether `^` matches there. -/
def searchLineFrom (word : Bytes) : Bool → Bytes → Bool
  | bol, [] => bol && startsWith word []
  | bol, c :: t =>
      (bol && startsWith word (c :: t)) ||
        searchLineFrom word (isSeparator c && !(c == 13 && t.head? == some 10)) t

/-- `boost::regex_search(s, results, regex("^word", perl | icase))`. -/
def searchLine (word s : Bytes) : Bool := searchLineFrom word true s

end Monitoring.Lib
