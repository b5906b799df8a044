import DeviceTree.Source.Problem

namespace DeviceTree

inductive Level where
  | error | warning | info
  deriving DecidableEq, Repr

def Level.name : Level → Bytes
  | .error => utf8 "ERROR"
  | .warning => utf8 "WARNING"
  | .info => utf8 "INFO"

structure Extent where
  first : UInt64
  last : UInt64
  deriving DecidableEq, Repr

inductive Finding where
  | malformed (problem : Problem)
  | includeNotFound (path : Bytes)
  | includeCycle (chain : List Bytes)
  | rootNotLoaded (path : Bytes)
  | notLoaded (path : Bytes)
  | labelMoved (label node file : Bytes) (line : Nat)
  | undefinedNode (reference : Bytes)
  | deletedByName
  | deletedMissing (name : Bytes)
  | deletedRoot
  | unresolved (reference node property : Bytes)
  | unknownBlocks (node : Bytes)
  | overlap (node : Bytes) (extent : Extent) (other : Bytes) (otherExtent : Extent)
  | binding (reason : Bytes)
  deriving DecidableEq, Repr

namespace Finding

def level : Finding → Level
  | .malformed p => if p.ignored then .info else .error
  | .labelMoved .. | .deletedMissing _ | .unknownBlocks _ | .overlap .. => .warning
  | _ => .error

def code : Finding → Bytes
  | .malformed p => utf8 (if p.ignored then "preprocessor" else "syntax")
  | .includeNotFound _ => utf8 "include-not-found"
  | .includeCycle _ => utf8 "include-cycle"
  | .rootNotLoaded _ | .notLoaded _ => utf8 "read"
  | .labelMoved .. => utf8 "duplicate-label"
  | .undefinedNode _ | .deletedMissing _ => utf8 "unresolved-node-reference"
  | .deletedByName | .deletedRoot => utf8 "syntax"
  | .unresolved .. => utf8 "unresolved-reference"
  | .unknownBlocks _ => utf8 "unknown-width"
  | .overlap .. => utf8 "reg-overlap"
  | .binding _ => utf8 "schema"

def extentText (e : Extent) : Bytes :=
  utf8 "0x" ++ Bytes.hex e.first.toNat ++ utf8 "-0x" ++ Bytes.hex e.last.toNat

def message : Finding → Bytes
  | .malformed p => p.message
  | .includeNotFound path => utf8 "include " ++ Text.quote path ++ utf8 " not found"
  | .includeCycle chain => utf8 "include cycle: " ++ Bytes.join (utf8 " -> ") chain
  | .rootNotLoaded path => utf8 "file " ++ path ++ utf8 " is not loaded"
  | .notLoaded path => path ++ utf8 " is not loaded"
  | .labelMoved label node file line =>
    utf8 "label " ++ Text.quote label ++ utf8 " is redefined on " ++ node ++ utf8 " at " ++
      file ++ utf8 ":" ++ Bytes.decimal line
  | .undefinedNode reference => utf8 "reference to undefined node " ++ reference
  | .deletedByName => utf8 "/delete-node/ at top level needs a reference"
  | .deletedMissing name => utf8 "cannot delete " ++ name ++ utf8 ": no such node"
  | .deletedRoot => utf8 "cannot delete the root node"
  | .unresolved reference node property =>
    utf8 "unresolved reference " ++ reference ++ utf8 " in " ++ node ++ property
  | .unknownBlocks node => utf8 "cannot determine register blocks of " ++ node
  | .overlap node extent other otherExtent =>
    utf8 "register range " ++ extentText extent ++ utf8 " of " ++ node ++ utf8 " overlaps " ++
      other ++ utf8 " (" ++ extentText otherExtent ++ utf8 ")"
  | .binding reason => reason

end Finding

structure Diagnostic where
  file : Bytes
  range : Range
  finding : Finding
  deriving DecidableEq, Repr

namespace Diagnostic

def level (d : Diagnostic) : Level := d.finding.level
def code (d : Diagnostic) : Bytes := d.finding.code
def message (d : Diagnostic) : Bytes := d.finding.message

def text (d : Diagnostic) : Bytes :=
  d.file ++ utf8 ":" ++ Bytes.decimal d.range.start.line ++ utf8 ":" ++
    Bytes.decimal d.range.start.column ++ utf8 ": " ++ d.level.name ++ utf8 ": " ++ d.message

def ofSyntax (file : Bytes) (e : SyntaxError) : Diagnostic := ⟨file, e.range, .malformed e.problem⟩

end Diagnostic
end DeviceTree
