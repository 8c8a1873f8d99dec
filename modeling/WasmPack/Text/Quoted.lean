/-
  WasmPack.Text.Quoted

  Text between quotation marks for messages: whatever it holds, the quoted form
  stays on one line and shows every character, some of them by hexadecimal
  numerals.
-/
import WasmPack.Text.Unprintable

namespace WasmPack.Text

/-- `n` in hexadecimal with at least `width` digits: lower case, padded with zeros on the left. -/
def hex (width n : Nat) : String :=
  let digits := Nat.toDigits 16 n
  String.ofList (List.replicate (width - digits.length) '0' ++ digits)

/-- A character inside quotation marks. -/
def quotedChar (c : Char) : String :=
  if c = '\x00' then "\\0"
  else if c = '\t' then "\\t"
  else if c = '\n' then "\\n"
  else if c = '\r' then "\\r"
  else if c = '\x22' then "\\\""
  else if c = '\\' then "\\\\"
  else if isUnprintable c then "\\u\x7b" ++ hex 1 c.toNat ++ "\x7d"
  else String.singleton c

/-- The quoted form of a text. -/
def quoted (s : String) : String := "\"" ++ String.join (s.toList.map quotedChar) ++ "\""

end WasmPack.Text
