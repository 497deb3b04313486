import KernelLoops.Text.Printable

set_option autoImplicit false

/-! # Quoted text

A text between double quotes, with quotes, backslashes and whatever cannot be printed written as
escapes. -/

namespace KernelLoops.Text

/-- The last `width` hexadecimal digits of a number, in lower case. -/
def hexDigits : Nat → Nat → String
  | 0, _ => ""
  | width + 1, n => hexDigits width (n / 16) ++ String.singleton (Nat.digitChar (n % 16))

/-- A character as it stands between quotes. -/
def escape (c : Char) : String :=
  match c with
  | '"' => "\\\""
  | '\\' => "\\\\"
  | '\n' => "\\n"
  | '\r' => "\\r"
  | '\t' => "\\t"
  | _ =>
    let n := c.toNat
    if n = 7 then "\\a"
    else if n = 8 then "\\b"
    else if n = 11 then "\\v"
    else if n = 12 then "\\f"
    else if isPrintable c then String.singleton c
    else if n < 0x80 then "\\x" ++ hexDigits 2 n
    else if n < 0x10000 then "\\u" ++ hexDigits 4 n
    else "\\U" ++ hexDigits 8 n

/-- A text between double quotes. -/
def quote (s : String) : String := "\"" ++ String.join (s.toList.map escape) ++ "\""

end KernelLoops.Text
