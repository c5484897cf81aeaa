import DCompiler.Source

/-!
# Scanning

Scanning looks at the bytes from the current place and finds one *lexeme*: something to skip, a
token, or a fault. A lexeme always takes its first byte and some number of further bytes, so that
the rest is shorter and the scan ends. Nothing else is remembered between lexemes.
-/

namespace DCompiler

inductive TokenKind where
  | eof
  | ident | intLiteral | floatLiteral | stringLiteral | charLiteral
  | lParen | rParen | lBrace | rBrace | lBracket | rBracket
  | comma | semi | colon | dot | dotDot | dotDotDot | question | dollar | at
  | plus | minus | star | slash | percent | amp | pipe | caret | caretCaret | tilde | bang
  | ampAmp | pipePipe | shl | shr | assign | eqEq | notEq | lt | le | gt | ge
  | plusAssign | minusAssign | starAssign | slashAssign | percentAssign | ampAssign | pipeAssign
  | caretAssign | caretCaretAssign | shlAssign | shrAssign
  | kwModule | kwImport | kwStruct | kwClass | kwEnum | kwExtern | kwStatic | kwConst | kwRef
  | kwOut | kwLazy | kwAbstract | kwOverride | kwAuto | kwReturn | kwIf | kwElse | kwWhile | kwFor
  | kwForeach | kwBreak | kwContinue | kwCast | kwNull | kwTrue | kwFalse | kwThis | kwSuper | kwIn
  | kwBody | kwTraits | kwTypeid
  deriving Repr, DecidableEq, Inhabited

namespace TokenKind

/-- The reserved words. Two pairs of spellings share a kind. -/
def keywords : List (String × TokenKind) :=
  [("module", kwModule), ("import", kwImport), ("struct", kwStruct), ("class", kwClass),
   ("enum", kwEnum), ("extern", kwExtern), ("static", kwStatic), ("const", kwConst),
   ("immutable", kwConst), ("ref", kwRef), ("out", kwOut), ("lazy", kwLazy),
   ("abstract", kwAbstract), ("override", kwOverride), ("auto", kwAuto), ("return", kwReturn),
   ("if", kwIf), ("else", kwElse), ("while", kwWhile), ("for", kwFor), ("foreach", kwForeach),
   ("break", kwBreak), ("continue", kwContinue), ("cast", kwCast), ("null", kwNull),
   ("true", kwTrue), ("false", kwFalse), ("this", kwThis), ("super", kwSuper), ("in", kwIn),
   ("body", kwBody), ("do", kwBody), ("__traits", kwTraits), ("typeid", kwTypeid)]

def ofWord (word : String) : TokenKind :=
  (keywords.lookup word).getD ident

end TokenKind

/-- A token with the span it takes up and the span of its text. The two differ for string and
character literals, whose text excludes the quotes. -/
structure Token where
  kind : TokenKind
  span : Span
  text : Span
  deriving Repr, DecidableEq, Inhabited

inductive LexFault where
  | unexpectedCharacter
  | unterminatedString
  | unterminatedCharacter
  | unterminatedComment
  deriving Repr, DecidableEq, Inhabited

namespace LexFault

def message : LexFault → String
  | unexpectedCharacter => "unexpected character"
  | unterminatedString => "unterminated string literal"
  | unterminatedCharacter => "unterminated character constant"
  | unterminatedComment => "unterminated /* */ comment"

def code : LexFault → String
  | unexpectedCharacter => "E0001"
  | unterminatedString => "E0002"
  | unterminatedCharacter => "E0002"
  | unterminatedComment => "E0003"

end LexFault

end DCompiler

namespace DCompiler.Token

/-! ## Classes of bytes -/

def byte (c : Char) : UInt8 := c.toNat.toUInt8

def isBlank (b : UInt8) : Bool :=
  b == 32 || b == 9 || b == 10 || b == 13

def isDigit (b : UInt8) : Bool := 48 ≤ b && b ≤ 57

def isLetter (b : UInt8) : Bool :=
  (65 ≤ b && b ≤ 90) || (97 ≤ b && b ≤ 122)

def isHexDigit (b : UInt8) : Bool :=
  isDigit b || (65 ≤ b && b ≤ 70) || (97 ≤ b && b ≤ 102)

def isIdentStart (b : UInt8) : Bool := isLetter b || b == byte '_'

def isIdentContinue (b : UInt8) : Bool := isIdentStart b || isDigit b

def isFloatSuffix (b : UInt8) : Bool :=
  b == byte 'f' || b == byte 'F' || b == byte 'i'

def isNumberSuffix (b : UInt8) : Bool :=
  isFloatSuffix b || b == byte 'L' || b == byte 'u' || b == byte 'U'

/-! ## Lexemes -/

inductive Lexeme where
  | skipped
  | token (kind : TokenKind)
  | quoted (kind : TokenKind)
  | fault (cause : LexFault)
  deriving Repr, DecidableEq, Inhabited

def commentLength : List UInt8 → Option Nat
  | [] => none
  | b :: rest =>
    if b == byte '*' && rest.head? == some (byte '/') then some 2
    else (commentLength rest).map (· + 1)

/-- Bytes up to and including the closing quote of a string. A backslash takes the byte after it
along, whatever that is. -/
def stringLength : List UInt8 → Option Nat
  | [] => none
  | [b] => if b == byte '"' then some 1 else none
  | b :: c :: rest =>
    if b == byte '"' then some 1
    else if b == byte '\\' then (stringLength rest).map (· + 2)
    else (stringLength (c :: rest)).map (· + 1)

def digitsLength (bs : List UInt8) : Nat :=
  (bs.takeWhile fun b => isDigit b || b == byte '_').length

/-- Length of the fraction that follows the whole part of a number, point included. A point does
not start a fraction before a second point or before a name. -/
def fractionLength : List UInt8 → Nat
  | [] => 0
  | b :: rest =>
    let named := rest.head?.any fun c => c == byte '.' || isIdentStart c
    if b == byte '.' && !named then 1 + digitsLength rest else 0

def exponentLength : List UInt8 → Nat
  | [] => 0
  | b :: rest =>
    if b == byte 'e' || b == byte 'E' then
      let sign := if rest.head?.any fun c => c == byte '+' || c == byte '-' then 1 else 0
      1 + sign + digitsLength (rest.drop sign)
    else 0

/-- Length of a decimal number without its suffix, and whether it is written as a float. -/
def decimalLength (bs : List UInt8) : Nat × Bool :=
  let whole := digitsLength bs
  let fraction := fractionLength (bs.drop whole)
  let exponent := exponentLength (bs.drop (whole + fraction))
  (whole + fraction + exponent, decide (fraction ≠ 0 ∨ exponent ≠ 0))

/-- Length of a number without its suffix, and whether it is written as a float. -/
def unsuffixedLength (bs : List UInt8) : Nat × Bool :=
  match bs with
  | zero :: x :: rest =>
    if zero == byte '0' && (x == byte 'x' || x == byte 'X') then
      (2 + (rest.takeWhile fun b => isHexDigit b || b == byte '_').length, false)
    else decimalLength bs
  | _ => decimalLength bs

def numberLength (bs : List UInt8) : Nat × TokenKind :=
  let (length, float) := unsuffixedLength bs
  let suffix := (bs.drop length).takeWhile isNumberSuffix
  let kind := if float || suffix.any isFloatSuffix then .floatLiteral else .intLiteral
  (length + suffix.length, kind)

def number (b : UInt8) (rest : List UInt8) : Lexeme × Nat :=
  let (length, kind) := numberLength (b :: rest)
  (.token kind, length - 1)

/-- An operator that may be followed by `=`, after `taken` further bytes. -/
def withAssign (plain assigning : TokenKind) (taken : Nat) (rest : List UInt8) : Lexeme × Nat :=
  if (rest.drop taken).head? == some (byte '=') then (.token assigning, taken + 1)
  else (.token plain, taken)

/-- A character constant: one byte between quotes, or two when the first is a backslash. -/
def character (rest : List UInt8) : Lexeme × Nat :=
  let escape := if rest.head? == some (byte '\\') then 1 else 0
  let body := escape + min 1 (rest.length - escape)
  if (rest.drop body).head? == some (byte '\'') then (.quoted .charLiteral, body + 1)
  else (.fault .unterminatedCharacter, body)

def word (b : UInt8) (rest : List UInt8) : Lexeme × Nat :=
  let tail := rest.takeWhile isIdentContinue
  let text := String.ofList ((b :: tail).map fun c => Char.ofNat c.toNat)
  (.token (TokenKind.ofWord text), tail.length)

/-- The lexeme that starts with byte `b`, and how many of the further bytes it takes. -/
def lexeme (b : UInt8) (rest : List UInt8) : Lexeme × Nat :=
  let next := rest.head?
  if isBlank b then (.skipped, 0)
  else if b == byte '/' && next == some (byte '/') then
    (.skipped, (rest.takeWhile (· != 10)).length)
  else if b == byte '/' && next == some (byte '*') then
    match commentLength rest.tail with
    | some length => (.skipped, length + 1)
    | none => (.fault .unterminatedComment, rest.length)
  else match Char.ofNat b.toNat with
    | '(' => (.token .lParen, 0)
    | ')' => (.token .rParen, 0)
    | '{' => (.token .lBrace, 0)
    | '}' => (.token .rBrace, 0)
    | '[' => (.token .lBracket, 0)
    | ']' => (.token .rBracket, 0)
    | ',' => (.token .comma, 0)
    | ';' => (.token .semi, 0)
    | ':' => (.token .colon, 0)
    | '?' => (.token .question, 0)
    | '$' => (.token .dollar, 0)
    | '@' => (.token .at, 0)
    | '~' => (.token .tilde, 0)
    | '.' =>
      if next.any isDigit then number b rest
      else if next == some (byte '.') then
        if rest.tail.head? == some (byte '.') then (.token .dotDotDot, 2)
        else (.token .dotDot, 1)
      else (.token .dot, 0)
    | '+' => withAssign .plus .plusAssign 0 rest
    | '-' => withAssign .minus .minusAssign 0 rest
    | '*' => withAssign .star .starAssign 0 rest
    | '/' => withAssign .slash .slashAssign 0 rest
    | '%' => withAssign .percent .percentAssign 0 rest
    | '=' => withAssign .assign .eqEq 0 rest
    | '!' => withAssign .bang .notEq 0 rest
    | '&' =>
      if next == some (byte '&') then (.token .ampAmp, 1) else withAssign .amp .ampAssign 0 rest
    | '|' =>
      if next == some (byte '|') then (.token .pipePipe, 1) else withAssign .pipe .pipeAssign 0 rest
    | '^' =>
      if next == some (byte '^') then withAssign .caretCaret .caretCaretAssign 1 rest
      else withAssign .caret .caretAssign 0 rest
    | '<' =>
      if next == some (byte '<') then withAssign .shl .shlAssign 1 rest
      else withAssign .lt .le 0 rest
    | '>' =>
      if next == some (byte '>') then withAssign .shr .shrAssign 1 rest
      else withAssign .gt .ge 0 rest
    | '"' =>
      match stringLength rest with
      | some length => (.quoted .stringLiteral, length)
      | none => (.fault .unterminatedString, rest.length)
    | '\'' => character rest
    | _ =>
      if isDigit b then number b rest
      else if isIdentStart b then word b rest
      else (.fault .unexpectedCharacter, 0)

/-! ## The whole text -/

structure Lexed where
  tokens : List Token
  faults : List (LexFault × Span)
  deriving Repr, Inhabited

def lexFrom (offset : Nat) : List UInt8 → Lexed
  | [] => ⟨[⟨.eof, ⟨offset, offset⟩, ⟨offset, offset⟩⟩], []⟩
  | b :: rest =>
    let found := lexeme b rest
    let stop := offset + 1 + found.2
    let others := lexFrom stop (rest.drop found.2)
    let span : Span := ⟨offset, stop⟩
    match found.1 with
    | .skipped => others
    | .token kind => { others with tokens := ⟨kind, span, span⟩ :: others.tokens }
    | .quoted kind =>
      { others with tokens := ⟨kind, span, ⟨offset + 1, stop - 1⟩⟩ :: others.tokens }
    | .fault cause => { others with faults := (cause, span) :: others.faults }
termination_by bs => bs.length
decreasing_by simp only [List.length_drop, List.length_cons]; omega

/-- The tokens and faults of a source text. The last token is always the end of the text. -/
def lex (source : String) : Lexed :=
  lexFrom 0 (Text.bytes source)

end DCompiler.Token
