import DynExpr.Double.Decimal

/-!
# Tokens

A token is a lexeme together with the position of its first byte and whether a blank stands
just before it. The blank matters: it decides whether an operator stands before, between or
after operands.

* `Lexeme.text` is the text of a lexeme: the bytes it covers, except that a string literal
  keeps its quotes and has its escapes replaced.
-/

namespace DynExpr

/-- What a token is. -/
inductive Lexeme
  | number (text : Text) (value : Double)
  | identifier (text : Text)
  | operator (text : Text)
  | leftParen
  | rightParen
  | leftBracket
  | rightBracket
  | comma
  | finish
deriving DecidableEq

namespace Lexeme

/-- The text of a lexeme. -/
def text : Lexeme → Text
  | number text _ => text
  | identifier text => text
  | operator text => text
  | leftParen => utf8 "("
  | rightParen => utf8 ")"
  | leftBracket => utf8 "["
  | rightBracket => utf8 "]"
  | comma => utf8 ","
  | finish => []

/-- The value of a number, and zero for all else. -/
def value : Lexeme → Double
  | number _ value => value
  | _ => Double.zero

end Lexeme

/-- A lexeme in its place. -/
structure Token where
  lexeme : Lexeme
  position : Nat
  spaceBefore : Bool
deriving DecidableEq

/-- A text that is no expression: the token at which reading stopped, empty if there was
nothing to read. -/
structure SyntaxFault where
  token : Text
deriving DecidableEq

/-!
## Cutting a line into tokens

Blanks separate tokens and are otherwise skipped. Every lexeme is a longest possible one of
its kind, with three points at which the next bytes decide:

* a point belongs to a number only before a digit, and to a name only before the beginning of
  a name;
* an exponent letter belongs to a number only before digits, with or without a sign;
* an operator is a longest run of operator bytes, but a point before a digit begins a number
  unless another point precedes it, and a last `-`, `+` or `!` that stands directly before an
  operand is left to be an operator of its own.

Main definitions:

* `scanLexeme` reads one lexeme and says how many bytes it covers.
* `tokenize` is the list of all tokens of a text, ended by a `Lexeme.finish`.
-/

open Text

/-! ### Classes of bytes -/

/-- A byte that may begin a name: a letter, one of `_ $ # @`, or any byte beyond ASCII. -/
def isNameStart (b : UInt8) : Bool :=
  isLetter b || b == 95 || b == 36 || b == 35 || b == 64 || 128 ≤ b

/-- The bytes that operators are made of. -/
def operatorBytes : Text := utf8 "+-*/=%<>!&|^~?:."

/-- A byte that operators are made of. -/
def isOperatorByte (b : UInt8) : Bool := operatorBytes.contains b

/-- The text begins with a digit. -/
def startsWithDigit (s : Text) : Bool := s.head?.any isDigit

/-- The text begins with an operand: a number, a name, a string or an opening bracket. -/
def startsWithOperand : Text → Bool
  | [] => false
  | b :: rest =>
    -- after digits and names: `(`, `[`, a quote, or a point before a digit
    isDigit b || isNameStart b || b == 40 || b == 91 || b == 39 || b == 34 ||
      (b == 46 && startsWithDigit rest)

/-! ### Numbers -/

/-- The digits after a point that stands at the beginning. -/
def fractionDigits : Text → Text
  | 46 :: rest => rest.takeWhile isDigit
  | _ => []

/-- The exponent at the beginning: its letter, an optional sign and digits; empty if there are
no digits. -/
def exponentPart : Text → Text
  | letter :: rest =>
    -- `e` or `E`, then `+` or `-`
    if letter == 101 || letter == 69 then
      match rest with
      | sign :: digits =>
        if sign == 43 || sign == 45 then
          if startsWithDigit digits then letter :: sign :: digits.takeWhile isDigit else []
        else if isDigit sign then letter :: rest.takeWhile isDigit
        else []
      | [] => []
    else []
  | [] => []

/-- The number that an exponent part denotes. -/
def exponentValue (part : Text) : Int :=
  let (negative, digits) := Double.takeSign (part.drop 1)
  let value : Int := digitsValue 10 digits
  if negative then -value else value

/-- The decimal number at the beginning. -/
def scanDecimal (s : Text) : Lexeme :=
  let whole := s.takeWhile isDigit
  let afterWhole := s.dropWhile isDigit
  let fraction := fractionDigits afterWhole
  let point : Text := if fraction.isEmpty then [] else 46 :: fraction
  let exponent := exponentPart (afterWhole.drop point.length)
  .number (whole ++ point ++ exponent)
    (Double.ofDigits false whole fraction (exponentValue exponent))

/-- The value of a hexadecimal literal: that of its digits, at most `2 ^ 64 - 1`, rounded. -/
def hexValue (digits : Text) : Double :=
  Double.ofNat (min (digitsValue 16 digits) 0xFFFFFFFFFFFFFFFF)

/-- The number at the beginning, decimal or hexadecimal. -/
def scanNumber (s : Text) : Lexeme :=
  match s with
  | zero :: x :: digits =>
    -- `0x` or `0X` before a hexadecimal digit; without one, the zero stands alone
    if zero == 48 && (x == 120 || x == 88) && digits.head?.any isHexDigit then
      let digits := digits.takeWhile isHexDigit
      .number (zero :: x :: digits) (hexValue digits)
    else scanDecimal s
  | _ => scanDecimal s

/-! ### Names, strings and operators -/

/-- The name at the beginning. -/
def nameLeading : Text → Text
  | [] => []
  | b :: rest =>
    if isNameStart b || isDigit b then b :: nameLeading rest
    else if b == 46 && rest.head?.any isNameStart then b :: nameLeading rest
    else []

/-- The contents of a string after its opening quote, with escapes replaced, and the number of
bytes up to and including the closing quote; nothing if there is none. -/
def scanString (quote : UInt8) : Text → Option (Text × Nat)
  | [] => none
  | b :: rest =>
    if b == quote then some ([], 1)
    else if b == 92 then
      match rest with
      | [] => none
      | c :: rest =>
        match scanString quote rest with
        | none => none
        | some (contents, covered) => some (unescape c :: contents, covered + 2)
    else
      match scanString quote rest with
      | none => none
      | some (contents, covered) => some (b :: contents, covered + 1)

/-- The run of operator bytes at the beginning, given the operator byte before it, if any. -/
def operatorRun (previous : Option UInt8) : Text → Text
  | [] => []
  | b :: rest =>
    if !isOperatorByte b then []
    -- a point that begins a number ends the run, unless a point precedes it as in a range
    else if b == 46 && startsWithDigit rest && previous.any (· != 46) then []
    else b :: operatorRun (some b) rest

/-- The operator at the beginning. -/
def scanOperator (s : Text) : Text :=
  let run := operatorRun none s
  -- a last `-`, `+` or `!` belongs to the operand
  if 1 < run.length && run.getLast?.any (fun b => b == 45 || b == 43 || b == 33) &&
      startsWithOperand (s.drop run.length) then run.dropLast
  else run

/-! ### Tokens -/

/-- The lexeme at the beginning of the text `b :: rest`, and the number of bytes it covers. -/
def scanLexeme (b : UInt8) (rest : Text) : Except SyntaxFault (Lexeme × Nat) :=
  -- single bytes first: `(`, `)`, `[`, `]` and the comma
  if b == 40 then .ok (.leftParen, 1)
  else if b == 41 then .ok (.rightParen, 1)
  else if b == 91 then .ok (.leftBracket, 1)
  else if b == 93 then .ok (.rightBracket, 1)
  else if b == 44 then .ok (.comma, 1)
  else if b == 39 || b == 34 then
    match scanString b rest with
    | some (contents, covered) => .ok (.identifier (b :: (contents ++ [b])), covered + 1)
    | none => .error ⟨b :: rest⟩
  else if isDigit b || (b == 46 && startsWithDigit rest) then
    let lexeme := scanNumber (b :: rest)
    .ok (lexeme, lexeme.text.length)
  else if isNameStart b then
    let name := nameLeading (b :: rest)
    .ok (.identifier name, name.length)
  else if isOperatorByte b then
    let operator := scanOperator (b :: rest)
    .ok (.operator operator, operator.length)
  else .error ⟨[b]⟩

/-- The tokens of a text that begins at the given position of a line. -/
def tokensFrom (position : Nat) (s : Text) : Except SyntaxFault (List Token) :=
  let blanks := s.takeWhile isBlank
  let start := position + blanks.length
  let spaced := !blanks.isEmpty
  match _h : s.dropWhile isBlank with
  | [] => .ok [⟨.finish, start, spaced⟩]
  | b :: rest =>
    match scanLexeme b rest with
    | .error fault => .error fault
    | .ok (lexeme, covered) =>
      match tokensFrom (start + covered) (rest.drop (covered - 1)) with
      | .error fault => .error fault
      | .ok tokens => .ok (⟨lexeme, start, spaced⟩ :: tokens)
termination_by s.length
decreasing_by
  have shorter := (List.dropWhile_sublist isBlank (l := s)).length_le
  simp only [_h, List.length_cons, List.length_drop] at shorter ⊢
  omega

/-- The tokens of a line. -/
def tokenize (line : Text) : Except SyntaxFault (List Token) := tokensFrom 0 line

end DynExpr
