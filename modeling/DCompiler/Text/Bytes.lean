

/-!
# Bytes of a text

Source text is a `String`, and every place in it is a byte offset of its UTF-8 form.

String contents are written in messages with printable ASCII as it is, the short escapes for tab,
carriage return, newline, both quotes and the backslash, and every other character by its code point
in hexadecimal.
-/

namespace DCompiler.Text

def bytes (s : String) : List UInt8 :=
  s.toList.flatMap String.utf8EncodeChar

/-- The characters whose first byte lies at an offset from `start` up to `stop`, where the head
of the list stands at `offset`. -/
def sliceFrom (start stop : Nat) : Nat → List Char → List Char
  | _, [] => []
  | offset, c :: cs =>
    let rest := sliceFrom start stop (offset + c.utf8Size) cs
    if start ≤ offset ∧ offset < stop then c :: rest else rest

def slice (s : String) (start stop : Nat) : String :=
  String.ofList (sliceFrom start stop 0 s.toList)

def hex (n : Nat) : String :=
  String.ofList (Nat.toDigits 16 n)

def padLeft (width : Nat) (fill : Char) (s : String) : String :=
  String.ofList (List.replicate (width - s.length) fill) ++ s

def hexByte (b : UInt8) : String :=
  padLeft 2 '0' (hex b.toNat)

def hexBytes (bs : List UInt8) : String :=
  String.join (bs.map hexByte)

def hexDigitValue (c : Char) : Nat :=
  if c.isDigit then c.toNat - '0'.toNat else c.toNat - 'a'.toNat + 10

def ofHexDigits : List Char → List UInt8
  | high :: low :: rest => (hexDigitValue high * 16 + hexDigitValue low).toUInt8 :: ofHexDigits rest
  | _ => []

def ofHex (text : String) : List UInt8 := ofHexDigits text.toList

def littleEndian (width : Nat) (value : UInt64) : List UInt8 :=
  (List.range width).map fun i => (value.toNat / 256 ^ i).toUInt8

def ofLittleEndian : List UInt8 → Nat
  | [] => 0
  | b :: bs => b.toNat + 256 * ofLittleEndian bs

def ofLines (lines : List String) : String :=
  String.join (lines.map (· ++ "\n"))

def escapeChar (c : Char) : String :=
  match c with
  | '\t' => "\\t"
  | '\r' => "\\r"
  | '\n' => "\\n"
  | '\'' => "\\'"
  | '"' => "\\\""
  | '\\' => "\\\\"
  | c =>
    if 0x20 ≤ c.toNat ∧ c.toNat < 0x7f then c.toString
    else "\\u\x7b" ++ hex c.toNat ++ "\x7d"

def escape (s : String) : String :=
  String.join (s.toList.map escapeChar)

/-- The character an escape letter stands for; a letter without a meaning stands for itself. -/
def escapedChar (c : Char) : Char :=
  match c with
  | 'n' => '\n'
  | 't' => '\t'
  | 'r' => '\r'
  | '0' => '\x00'
  | c => c

/-- The characters a literal's text stands for. A lone backslash at the end stands for itself. -/
def unescapeChars : List Char → List Char
  | [] => []
  | ['\\'] => ['\\']
  | '\\' :: c :: cs => escapedChar c :: unescapeChars cs
  | c :: cs => c :: unescapeChars cs

def unescape (s : String) : String :=
  String.ofList (unescapeChars s.toList)

end DCompiler.Text
