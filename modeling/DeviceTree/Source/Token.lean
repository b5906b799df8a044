import DeviceTree.Position

namespace DeviceTree

inductive TokenKind where
  | error | eof
  | name | label | string | char | ref | pathRef | directive | preproc
  | lbrace | rbrace | semicolon | equal | langle | rangle | lbracket | rbracket
  | lparen | rparen | comma | slash
  | other
  deriving DecidableEq, Repr

structure Token where
  kind : TokenKind
  lexeme : Bytes
  start : Position
  deriving DecidableEq, Repr

namespace Token

def text (t : Token) : Bytes :=
  match t.kind with
  | .label => t.lexeme.dropLast
  | _ => t.lexeme

def stop (t : Token) : Position := t.start.after t.lexeme

def range (t : Token) : Range := ⟨t.start, t.stop⟩

end Token
end DeviceTree
