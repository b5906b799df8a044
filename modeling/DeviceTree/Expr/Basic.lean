
namespace DeviceTree

inductive UnaryOp where
  | neg | plus | complement | not
  deriving DecidableEq, Repr

inductive BinaryOp where
  | mul | div | rem
  | add | sub
  | shiftLeft | shiftRight
  | lt | gt | le | ge
  | eq | ne
  | bitAnd
  | bitXor
  | bitOr
  | and
  | or
  deriving DecidableEq, Repr

def BinaryOp.level : BinaryOp → Nat
  | .mul | .div | .rem => 10
  | .add | .sub => 9
  | .shiftLeft | .shiftRight => 8
  | .lt | .gt | .le | .ge => 7
  | .eq | .ne => 6
  | .bitAnd => 5
  | .bitXor => 4
  | .bitOr => 3
  | .and => 2
  | .or => 1

inductive Expr where
  | number (value : Int64)
  | unary (op : UnaryOp) (operand : Expr)
  | binary (op : BinaryOp) (left right : Expr)
  deriving DecidableEq, Repr

def truth (p : Bool) : Int64 := if p then 1 else 0

def UnaryOp.apply : UnaryOp → Int64 → Int64
  | .neg, v => -v
  | .plus, v => v
  | .complement, v => ~~~v
  | .not, v => truth (v == 0)

def BinaryOp.apply : BinaryOp → Int64 → Int64 → Option Int64
  | .mul, a, b => some (a * b)
  | .div, a, b => if b = 0 then none else some (a / b)
  | .rem, a, b => if b = 0 then none else some (a % b)
  | .add, a, b => some (a + b)
  | .sub, a, b => some (a - b)
  | .shiftLeft, a, b => if b < 0 || b > 63 then none else some (a <<< b)
  | .shiftRight, a, b => if b < 0 || b > 63 then none else some (a >>> b)
  | .lt, a, b => some (truth (a < b))
  | .gt, a, b => some (truth (a > b))
  | .le, a, b => some (truth (a ≤ b))
  | .ge, a, b => some (truth (a ≥ b))
  | .eq, a, b => some (truth (a == b))
  | .ne, a, b => some (truth (a != b))
  | .bitAnd, a, b => some (a &&& b)
  | .bitXor, a, b => some (a ^^^ b)
  | .bitOr, a, b => some (a ||| b)
  | .and, a, b => some (truth (a != 0 && b != 0))
  | .or, a, b => some (truth (a != 0 || b != 0))

def Expr.eval : Expr → Option Int64
  | .number value => some value
  | .unary op operand => operand.eval.map op.apply
  | .binary op left right =>
    match left.eval, right.eval with
    | some a, some b => op.apply a b
    | _, _ => none

end DeviceTree
