import Trampoline.Text.Hidden

/-!
Quoted text: between double quotes, with an escape for the quote, the backslash, and every
character that would not show.
-/

namespace Trampoline.Text

/-- A character as it stands between quotes. -/
def escaped (c : Char) : String :=
  match c with
  | '"' => "\\\""
  | '\\' => "\\\\"
  | '\n' => "\\n"
  | '\r' => "\\r"
  | '\t' => "\\t"
  | '\x00' => "\\0"
  | c =>
    if hidden c then "\\u\x7b" ++ String.ofList (Nat.toDigits 16 c.toNat) ++ "\x7d"
    else c.toString

def quoted (s : String) : String := "\"" ++ String.join (s.toList.map escaped) ++ "\""

end Trampoline.Text
