import DeviceTree.Text.Rune
import DeviceTree.Expr.Basic
import DeviceTree.Expr.Decimal

namespace DeviceTree

inductive Operator where
  | unary (op : UnaryOp)
  | binary (op : BinaryOp)
  | sign (one : UnaryOp) (two : BinaryOp)
  deriving DecidableEq, Repr

namespace Operator

def unary? : Operator → Option UnaryOp
  | .unary op => some op
  | .sign op _ => some op
  | .binary _ => none

def binary? : Operator → Option BinaryOp
  | .binary op => some op
  | .sign _ op => some op
  | .unary _ => none

-- The operator at the front of a text and the number of bytes after its first. The longer
-- of two spellings wins.
def read? (first : UInt8) (rest : Bytes) : Option (Operator × Nat) :=
  let follows (c : Char) := rest.head? == some c.toUInt8
  match Char.ofUInt8 first with
  | '<' =>
    if follows '<' then some (.binary .shiftLeft, 1)
    else if follows '=' then some (.binary .le, 1)
    else some (.binary .lt, 0)
  | '>' =>
    if follows '>' then some (.binary .shiftRight, 1)
    else if follows '=' then some (.binary .ge, 1)
    else some (.binary .gt, 0)
  | '&' => if follows '&' then some (.binary .and, 1) else some (.binary .bitAnd, 0)
  | '|' => if follows '|' then some (.binary .or, 1) else some (.binary .bitOr, 0)
  | '=' => if follows '=' then some (.binary .eq, 1) else none
  | '!' => if follows '=' then some (.binary .ne, 1) else some (.unary .not, 0)
  | '~' => some (.unary .complement, 0)
  | '^' => some (.binary .bitXor, 0)
  | '+' => some (.sign .plus .add, 0)
  | '-' => some (.sign .neg .sub, 0)
  | '*' => some (.binary .mul, 0)
  | '/' => some (.binary .div, 0)
  | '%' => some (.binary .rem, 0)
  | _ => none

end Operator

namespace Expr

inductive Token where
  | number (value : Int64)
  | operator (op : Operator)
  | lparen
  | rparen
  deriving DecidableEq, Repr

def numeralLength (pointed : Bool) : Bytes → Nat
  | [] => 0
  | b :: rest =>
    if Bytes.isDigit b then 1 + numeralLength pointed rest
    else if b = 0x2e then 1 + numeralLength true rest
    else if Decimal.isExponentMark b && pointed then
      match rest with
      | s :: more =>
        if Decimal.isSign s then 2 + numeralLength pointed more
        else 1 + numeralLength pointed (s :: more)
      | [] => 1
    else 0

-- A leading zero makes a whole numeral octal.
def numeralValue (numeral : Bytes) : Option Int64 :=
  if numeral.contains 0x2e then (Decimal.read numeral).bind Decimal.toInt64
  else
    let base := if numeral.length > 1 && numeral.head? == some 0x30 then 8 else 10
    (Bytes.readUInt64 base numeral).map UInt64.toInt64

def isNameStart (b : UInt8) : Bool := Bytes.isLetter b || b == 0x5f

def plainNumeral (text : Bytes) : Option (Int64 × Nat) :=
  let n := numeralLength false text
  if ((text.drop n).head?.map isNameStart).getD false then none
  else (numeralValue (text.take n)).map (·, n)

def numeral (text : Bytes) : Option (Int64 × Nat) :=
  match text with
  | 0x30 :: mark :: rest =>
    if mark = 0x78 || mark = 0x58 then
      let digits := rest.takeWhile Bytes.isHexDigit
      (Bytes.readUInt64 16 digits).map fun v => (v.toInt64, 2 + digits.length)
    else plainNumeral text
  | _ => plainNumeral text

def escapedChar (letter : UInt8) : Option Int64 :=
  match Char.ofUInt8 letter with
  | 'n' => some 10
  | 't' => some 9
  | 'r' => some 13
  | '0' => some 0
  | '\\' => some 92
  | '\'' => some 39
  | '"' => some 34
  | _ => none

-- What follows the opening quote of a character: its code and the length with the closing
-- quote. Exactly one character stands between the quotes.
def character : Bytes → Option (Int64 × Nat)
  | 0x5c :: letter :: 0x27 :: _ => (escapedChar letter).map (·, 3)
  | 0x5c :: _ => none
  | text =>
    match Bytes.cut 0x27 text with
    | some (body, _) =>
      match Text.decode body with
      | [rune] => some (Int64.ofNat rune.code, body.length + 1)
      | _ => none
    | none => none

def isBlank (b : UInt8) : Bool := b == 0x20 || b == 0x09 || b == 0x0a || b == 0x0d

def Token.read? (first : UInt8) (rest : Bytes) : Option (Token × Nat) :=
  if first = 0x28 then some (.lparen, 0)
  else if first = 0x29 then some (.rparen, 0)
  else if first = 0x27 then (character rest).map fun (v, n) => (.number v, n)
  else if Bytes.isDigit first || first = 0x2e then
    (numeral (first :: rest)).map fun (v, n) => (.number v, n - 1)
  else (Operator.read? first rest).map fun (op, n) => (.operator op, n)

def tokens? : Bytes → Option (List Token)
  | [] => some []
  | b :: rest =>
    if isBlank b then tokens? rest
    else match Token.read? b rest with
      | some (token, n) => (tokens? (rest.drop n)).map (token :: ·)
      | none => none
termination_by text => text.length
decreasing_by all_goals (simp only [List.length_drop, List.length_cons]; omega)

end Expr
end DeviceTree
