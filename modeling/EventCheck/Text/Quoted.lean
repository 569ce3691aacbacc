import EventCheck.Text.Printable

/-!
Text in double quotes, with escapes for what would end it or could not be seen in it.
-/

namespace EventCheck.Text

/-- A number in lower-case hexadecimal digits without leading zeros. -/
def hexadecimal (n : Nat) : String := String.ofList (Nat.toDigits 16 n)

/-- How a character stands inside quotes: `"` and the backslash are escaped, tab, newline,
carriage return and NUL have short escapes, and other characters without a glyph are written by
their code point. -/
def quotedChar (c : Char) : String :=
  match c with
  | '\x00' => "\\0"
  | '\t' => "\\t"
  | '\n' => "\\n"
  | '\r' => "\\r"
  | '"' => "\\\""
  | '\\' => "\\\\"
  | c => if isPrintable c then c.toString else "\\u\x7b" ++ hexadecimal c.toNat ++ "\x7d"

/-- The text in double quotes. -/
def quoted (text : String) : String :=
  "\"" ++ String.join (text.toList.map quotedChar) ++ "\""

end EventCheck.Text
