/-
Quoted text: one line in double quotes that shows every character.

Quotes, backslashes and the usual controls have short escapes, every other character
that does not show by itself is written as its number in braces, and the rest stands
for itself. No quoted text holds a line break, and no two texts are quoted alike.
-/
import DataLisp.Text.Hex
import DataLisp.Text.Printable

set_option autoImplicit false

namespace DataLisp.Text

/-- The opening and closing braces around the number of an escaped character. -/
def braced (cs : List Char) : List Char :=
  '\x7b' :: cs ++ ['\x7d']

/-- One character inside quotes. -/
def quoteChar (c : Char) : List Char :=
  match c with
  | '\x00' => ['\\', '0']
  | '\t' => ['\\', 't']
  | '\r' => ['\\', 'r']
  | '\n' => ['\\', 'n']
  | '\\' => ['\\', '\\']
  | '"' => ['\\', '"']
  | c => if isPrintable c then [c] else '\\' :: 'u' :: braced (hexDigits c.toNat)

/-- A text in double quotes. -/
def quote (s : String) : String :=
  String.ofList ('"' :: s.toList.flatMap quoteChar ++ ['"'])

end DataLisp.Text
