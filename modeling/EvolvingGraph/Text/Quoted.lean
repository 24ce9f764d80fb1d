/-
  EvolvingGraph.Text.Quoted
  ─────────────────────────
  **TEXT BETWEEN QUOTES.**

  Inside a message an id that is text stands between quotes: single ones,
  unless it holds a single quote and no double quote.  A backslash and the
  quote in use are marked by a backslash; newline, return and tab have a letter
  of their own, and the other characters that leave no mark are written by
  their code point in two, four or eight hexadecimal digits.

  Main statement: `quoteMark_eq_double_iff` — when double quotes are used.
-/
import EvolvingGraph.Text.Character

namespace EvolvingGraph.Text

/-- The quote that is put around a text. -/
def quoteMark (cs : List Char) : Char :=
  if cs.contains '\'' && !cs.contains '"' then '"' else '\''

theorem quoteMark_eq_double_iff (cs : List Char) :
    quoteMark cs = '"' ↔ '\'' ∈ cs ∧ '"' ∉ cs := by
  unfold quoteMark
  by_cases h1 : '\'' ∈ cs <;> by_cases h2 : '"' ∈ cs <;> simp [h1, h2]

/-- A code point in at least `width` lower-case hexadecimal digits. -/
def hexadecimal (width n : Nat) : List Char :=
  let digits := Nat.toDigits 16 n
  List.replicate (width - digits.length) '0' ++ digits

/-- The escape of a character by its code point. -/
def codePointEscape (c : Char) : List Char :=
  let n := c.toNat
  if n < 0x100 then '\\' :: 'x' :: hexadecimal 2 n
  else if n < 0x10000 then '\\' :: 'u' :: hexadecimal 4 n
  else '\\' :: 'U' :: hexadecimal 8 n

/-- How one character is written between the given quotes. -/
def quoteChar (mark c : Char) : List Char :=
  if c = mark || c = '\\' then ['\\', c]
  else if c = '\n' then ['\\', 'n']
  else if c = '\r' then ['\\', 'r']
  else if c = '\t' then ['\\', 't']
  else if isUnprintable c then codePointEscape c
  else [c]

/-- A text between quotes. -/
def quoted (s : String) : String :=
  let mark := quoteMark s.toList
  String.ofList (mark :: s.toList.flatMap (quoteChar mark) ++ [mark])

end EvolvingGraph.Text
