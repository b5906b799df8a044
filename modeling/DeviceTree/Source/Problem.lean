import DeviceTree.Position
import DeviceTree.Text.Quoted

namespace DeviceTree

inductive Problem where
  | preprocessorLine (line : Bytes)
  | expectedNode (found : Bytes)
  | unmatchedBrace
  | unexpectedToken (found : Bytes)
  | expectedFileName
  | unknownDirective (name : Bytes)
  | unexpectedDirective (name : Bytes)
  | missingSemicolon
  | propertyDeletedByReference
  | expectedNameAfter (directive : Bytes)
  | expectedBrace
  | unclosedNode
  | labelWithoutName
  | incompleteDeclaration
  | nestedReferenceNode
  | expectedValue
  | badEscape
  | badWidth
  | widthWithoutArray
  | unterminatedLiteral
  | unbalancedGroup
  | unterminatedArray
  | badByteElement (text : Bytes)
  | unterminatedBytes
  deriving DecidableEq, Repr

namespace Problem

def message : Problem → Bytes
  | .preprocessorLine line => utf8 "preprocessor directive ignored: " ++ line
  | .expectedNode found => utf8 "expected node, got " ++ Text.quote found
  | .unmatchedBrace => utf8 "unmatched '\x7d'"
  | .unexpectedToken found => utf8 "unexpected token " ++ Text.quote found
  | .expectedFileName => utf8 "expected file name after /include/"
  | .unknownDirective name => utf8 "unknown directive " ++ name
  | .unexpectedDirective name => utf8 "unexpected directive " ++ name
  | .missingSemicolon => utf8 "missing ';'"
  | .propertyDeletedByReference => utf8 "/delete-property/ takes a property name"
  | .expectedNameAfter directive => utf8 "expected name after " ++ directive
  | .expectedBrace => utf8 "expected \x7b"
  | .unclosedNode => utf8 "unexpected EOF, expected \x7d"
  | .labelWithoutName => utf8 "expected property or node name after label"
  | .incompleteDeclaration => utf8 "expected '=', ';' or '\x7b'"
  | .nestedReferenceNode => utf8 "reference nodes are only allowed at the top level"
  | .expectedValue => utf8 "expected property value"
  | .badEscape => utf8 "invalid string escape"
  | .badWidth => utf8 "/bits/ must be 8, 16, 32 or 64"
  | .widthWithoutArray => utf8 "expected '<' after /bits/"
  | .unterminatedLiteral => utf8 "unterminated literal"
  | .unbalancedGroup => utf8 "unbalanced parentheses in expression"
  | .unterminatedArray => utf8 "unterminated cell array, expected '>'"
  | .badByteElement text => utf8 "invalid byte string element " ++ Text.quote text
  | .unterminatedBytes => utf8 "unterminated byte string, expected ']'"

-- A construct that is passed over on purpose is no mistake of the author.
def ignored : Problem → Bool
  | .preprocessorLine _ => true
  | _ => false

end Problem

structure SyntaxError where
  range : Range
  problem : Problem
  deriving DecidableEq, Repr

def SyntaxError.text (e : SyntaxError) : Bytes :=
  Bytes.decimal e.range.start.line ++ utf8 ":" ++ Bytes.decimal e.range.start.column ++
    utf8 ": " ++ e.problem.message

end DeviceTree
