import DeviceTree.Expr.Suffix
import DeviceTree.Expr.Token

namespace DeviceTree.Expr

mutual

def operand : Nat → List Token → Option (Expr × List Token)
  | 0, _ => none
  | fuel + 1, tokens =>
    match tokens with
    | .number v :: rest => some (.number v, rest)
    | .lparen :: rest =>
      match above fuel 0 rest with
      | some (e, .rparen :: rest) => some (e, rest)
      | _ => none
    | .operator op :: rest =>
      match op.unary?, operand fuel rest with
      | some u, some (e, rest) => some (.unary u e, rest)
      | _, _ => none
    | _ => none

def above : Nat → Nat → List Token → Option (Expr × List Token)
  | 0, _, _ => none
  | fuel + 1, level, tokens =>
    match operand fuel tokens with
    | some (left, rest) => extend fuel level left rest
    | none => none

def extend : Nat → Nat → Expr → List Token → Option (Expr × List Token)
  | 0, _, _, _ => none
  | fuel + 1, level, left, tokens =>
    match tokens with
    | .operator op :: rest =>
      match op.binary? with
      | some b =>
        if b.level ≤ level then some (left, tokens)
        else match above fuel b.level rest with
          | some (right, rest) => extend fuel level (.binary b left right) rest
          | none => none
      | none => some (left, tokens)
    | _ => some (left, tokens)

end

def ofTokens? (tokens : List Token) : Option Expr :=
  match above (2 * tokens.length + 2) 0 tokens with
  | some (e, []) => some e
  | _ => none

def parse? (text : Bytes) : Option Expr :=
  (tokens? (Suffix.strip (Text.trimSpace text))).bind ofTokens?

def value? (text : Bytes) : Option Int64 := (parse? text).bind Expr.eval

end DeviceTree.Expr
