import SsaBlocks.Text.Class

/-!
# Quoted text

A text in double quotes. Printable characters stand for themselves, except that the quote and the
backslash are marked by a backslash; all others are written as escapes with a letter or with the
hexadecimal digits of the code point. So are bytes that do not encode a character.
-/

namespace SsaBlocks.Text

def hex (digits n : Nat) : String :=
  let text := String.ofList (Nat.toDigits 16 n)
  String.ofList (List.replicate (digits - text.length) '0') ++ text

def quoteChar (c : Char) : String :=
  if c = '"' then "\\\""
  else if c = '\\' then "\\\\"
  else if isPrintable c then c.toString
  else
    match c.toNat with
    | 7 => "\\a"
    | 8 => "\\b"
    | 9 => "\\t"
    | 10 => "\\n"
    | 11 => "\\v"
    | 12 => "\\f"
    | 13 => "\\r"
    | n =>
      if n < 128 then "\\x" ++ hex 2 n
      else if n < 65536 then "\\u" ++ hex 4 n
      else "\\U" ++ hex 8 n

def quote (s : String) : String :=
  "\"" ++ String.join (s.toList.map quoteChar) ++ "\""

/-! ## Bytes -/

/-- The number of bytes that the encoding of a character has, by the first of them. -/
def encodedLength (first : UInt8) : Nat :=
  if first < 0x80 then 1
  else if first < 0xE0 then 2
  else if first < 0xF0 then 3
  else 4

/-- The character that some bytes encode, if they are the encoding of exactly one. -/
def decodeChar? (bytes : List UInt8) : Option Char := do
  let text ← String.fromUTF8? ⟨bytes.toArray⟩
  match text.toList with
  | [c] => some c
  | _ => none

def quoteBytesFrom : Nat → List UInt8 → List String
  | _, [] => []
  | n + 1, _ :: rest => quoteBytesFrom n rest
  | 0, first :: rest =>
    let length := encodedLength first
    match decodeChar? ((first :: rest).take length) with
    | some c => quoteChar c :: quoteBytesFrom (length - 1) rest
    | none => ("\\x" ++ hex 2 first.toNat) :: quoteBytesFrom 0 rest

def quoteBytes (bytes : List UInt8) : String :=
  "\"" ++ String.join (quoteBytesFrom 0 bytes) ++ "\""

end SsaBlocks.Text
