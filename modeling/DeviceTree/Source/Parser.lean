import DeviceTree.Expr.Parser
import DeviceTree.Source.Document
import DeviceTree.Source.Lexer
import DeviceTree.Source.Problem

namespace DeviceTree
namespace Parser

structure State where
  cursor : Cursor
  last : Position
  errors : List SyntaxError

namespace State

def start (source : Bytes) : State := ⟨.ofSource source, .first, []⟩

def peek (s : State) : Token := s.cursor.next.1

def take (s : State) : State :=
  let (token, after) := s.cursor.next
  { s with cursor := after, last := if token.kind = .eof then s.last else token.stop }

def report (s : State) (range : Range) (problem : Problem) : State :=
  { s with errors := ⟨range, problem⟩ :: s.errors }

-- Enough rounds for any loop that takes a token in each.
def rounds (s : State) : Nat := s.cursor.rest.length + 1

end State

def semicolon (stop : Position) (s : State) : Position × State :=
  if s.peek.kind = .semicolon then (s.peek.stop, s.take)
  else (stop, s.report (.point stop) .missingSemicolon)

-- Takes everything up to and with the next semicolon, but no closing brace.
def skipStatement : Nat → State → State
  | 0, s => s
  | fuel + 1, s =>
    match s.peek.kind with
    | .eof | .rbrace => s
    | .semicolon => s.take
    | _ => skipStatement fuel s.take

def skip (s : State) : State := skipStatement s.rounds s

def labels : Nat → State → List Label × State
  | 0, s => ([], s)
  | fuel + 1, s =>
    let t := s.peek
    if t.kind = .label then
      let (more, after) := labels fuel s.take
      (⟨t.text, t.range⟩ :: more, after)
    else ([], s)

-- The reference that a token spells. Empty braces name nothing, as an empty label does.
def refOfToken (t : Token) : Ref :=
  let target := match t.kind with
    | .pathRef =>
      match Bytes.trimTail (utf8 "\x7d") (Bytes.trimLead (utf8 "&\x7b") t.lexeme) with
      | [] => .label []
      | path => .path path
    | _ => .label (Bytes.trimLead (utf8 "&") t.lexeme)
  ⟨t.range, target⟩

def cellOfToken (t : Token) : Cell := .int t.range t.text (Expr.value? t.text)

-- The text of a string literal, and whether its escapes are good. A line end after a
-- backslash is read as the letter n, and a literal with a bad escape as it stands.
def literal (raw : Bytes) : Bytes × Bool :=
  let body := (raw.drop 1).dropLast
  if raw.length < 2 then ([], false)
  else if body.elem 0x5c then
    match Text.unescape (Bytes.replaceByte 0x0a (utf8 "\\n") body) with
    | some text => (text, true)
    | none => (body, false)
  else (body, true)

def hexPairs : Bytes → Bytes × Bool
  | [] => ([], true)
  | [_] => ([], false)
  | a :: b :: rest =>
    match Bytes.readDigits 16 [a, b] with
    | some v => let (more, good) := hexPairs rest; (v.toUInt8 :: more, good)
    | none => ([], false)

def byteElement (text : Bytes) : Bytes × Bool :=
  if text.length % 2 = 0 then hexPairs text else ([], false)

def cells : Nat → State → List Cell × Position × State
  | 0, s => ([], s.last, s)
  | fuel + 1, s =>
    let t := s.peek
    match t.kind with
    | .rangle => ([], t.stop, s.take)
    | .name | .char =>
      let (more, rest) := cells fuel s.take
      (cellOfToken t :: more, rest)
    | .ref | .pathRef =>
      let (more, rest) := cells fuel s.take
      (.ref (refOfToken t) :: more, rest)
    | .lparen =>
      let opened := s.take
      let group := Group.scan 1 opened.cursor.rest
      let text := 0x28 :: group.text
      let range : Range := ⟨t.start, t.start.after text⟩
      let after := { opened with cursor := opened.cursor.advance group.text.length }
      if group.closed then
        let (more, rest) := cells fuel after
        (.int range text (Expr.value? text) :: more, rest)
      else
        let (more, rest) := cells fuel (after.report range .unbalancedGroup)
        (.int range text none :: more, rest)
    | _ => ([], s.last, s.report t.range .unterminatedArray)

def array (t : Token) (width : Width) (s : State) : CellArray × State :=
  let (found, stop, after) := cells s.rounds s
  (⟨⟨t.start, stop⟩, width, found⟩, after)

def byteElements : Nat → State → Bytes × Position × State
  | 0, s => ([], s.last, s)
  | fuel + 1, s =>
    let t := s.peek
    match t.kind with
    | .rbracket => ([], t.stop, s.take)
    | .name =>
      let (found, good) := byteElement t.text
      let s := if good then s.take else s.take.report t.range (.badByteElement t.text)
      let (more, rest) := byteElements fuel s
      (found ++ more, rest)
    | _ => ([], s.last, s.report t.range .unterminatedBytes)

-- The width after `/bits/`: a decimal number that may carry a plus sign.
def width? (text : Bytes) : Option Width :=
  (Bytes.readDigits 10 (Bytes.trimLead (utf8 "+") text)).bind Width.ofBits?

def wideArray (t : Token) (s : State) : Option Value × State :=
  let size := s.peek
  let (width, s) :=
    if size.kind = .name then
      match width? size.text with
      | some width => (width, s.take)
      | none => (Width.w32, s.take.report size.range .badWidth)
    else (Width.w32, s)
  if s.peek.kind = .langle then
    let (a, s) := array s.peek width s.take
    (some (.array { a with range := ⟨t.start, a.range.stop⟩ }), s)
  else (none, s.report size.range .widthWithoutArray)

def value (s : State) : Option Value × State :=
  let t := s.peek
  match t.kind with
  | .string =>
    let (text, good) := literal t.text
    (some (.string t.range text), if good then s.take else s.take.report t.range .badEscape)
  | .langle =>
    let (a, s) := array t .w32 s.take
    (some (.array a), s)
  | .lbracket =>
    let (found, stop, s) := byteElements s.take.rounds s.take
    (some (.bytes ⟨t.start, stop⟩ found), s)
  | .ref | .pathRef => (some (.ref (refOfToken t)), s.take)
  | .directive => if t.text = utf8 "/bits/" then wideArray t s.take else (none, s)
  | .error =>
    let s := s.take.report t.range .unterminatedLiteral
    if t.text.head? = some 0x22 then
      (some (.string t.range (literal (t.text ++ [0x22])).1), s)
    else (none, s)
  | _ => (none, s)

def values : Nat → Position → State → List Value × Position × State
  | 0, stop, s => ([], stop, s)
  | fuel + 1, stop, s =>
    match value s with
    | (none, s) => ([], stop, s.report s.peek.range .expectedValue)
    | (some v, s) =>
      if s.peek.kind = .comma then
        let (more, rest) := values fuel s.peek.stop s.take
        (v :: more, rest)
      else ([v], v.range.stop, s)

-- After a missing semicolon only the rest of the line is passed over: the next one probably
-- begins a new declaration.
def skipLine : Nat → Position → State → Position × State
  | 0, stop, s => (stop, s)
  | fuel + 1, stop, s =>
    let t := s.peek
    if t.kind = .eof || t.kind = .rbrace || t.start.line != stop.line then (stop, s)
    else if t.kind = .semicolon then (t.stop, s.take)
    else skipLine fuel stop s.take

-- Declarations begin at their first label.
def declStart (found : List Label) (name : Token) : Position :=
  match found with
  | label :: _ => label.range.start
  | [] => name.start

def propertyDecl (found : List Label) (name : Token) (stop : Position) (vs : List Value) :
    PropertyDecl :=
  ⟨⟨declStart found name, stop⟩, name.range, found, name.text, vs⟩

def property (found : List Label) (name : Token) (s : State) : PropertyDecl × State :=
  let (vs, stop, s) := values s.rounds name.stop s
  let (stop, s) :=
    if s.peek.kind = .semicolon then (s.peek.stop, s.take)
    else
      let s := s.report (.point stop) .missingSemicolon
      skipLine s.rounds stop s
  (propertyDecl found name stop vs, s)

-- A name that nothing follows is kept as a property, so that it shows while it is typed.
def bareProperty (found : List Label) (name : Token) (s : State) : PropertyDecl × State :=
  let s := s.report name.range .incompleteDeclaration
  let t := s.peek
  let sameLine := t.kind != .rbrace && t.kind != .eof && t.start.line == name.start.line
  (propertyDecl found name name.stop [], if sameLine then skip s else s)

def delete (t : Token) (s : State) : Option Delete × State :=
  let ofNode := t.text = utf8 "/delete-node/"
  let name := s.peek
  let finish (victim : Victim) : Option Delete × State :=
    let (stop, s) := semicolon name.stop s.take
    (some ⟨⟨t.start, stop⟩, name.range, victim⟩, s)
  match name.kind with
  | .name => finish (if ofNode then .node name.text else .property name.text)
  | .ref | .pathRef =>
    if ofNode then finish (.target (refOfToken name))
    else (none, skip (s.take.report name.range .propertyDeletedByReference))
  | _ => (none, skip (s.report name.range (.expectedNameAfter t.text)))

def firstLine (text : Bytes) : Bytes := Text.trimSpace (Bytes.before 0x0a text)

def preprocessor (t : Token) (s : State) : State :=
  s.take.report t.range (.preprocessorLine (firstLine t.text))

def headingOf (t : Token) : Heading :=
  match t.kind with
  | .slash => .name (utf8 "/")
  | .ref | .pathRef => .ref (refOfToken t)
  | _ => .name t.text

mutual

def node : Nat → List Label → Token → State → NodeDecl × State
  | 0, found, name, s =>
    (⟨⟨⟨declStart found name, name.stop⟩, name.range, found, headingOf name, false⟩, []⟩, s)
  | fuel + 1, found, name, s =>
    let head (stop : Position) (closed : Bool) : NodeHead :=
      ⟨⟨declStart found name, stop⟩, name.range, found, headingOf name, closed⟩
    if s.peek.kind = .lbrace then
      let (stmts, stop, closed, s) := body fuel s.take
      (⟨head stop closed, stmts⟩, s)
    else (⟨head name.stop false, []⟩, skip (s.report name.range .expectedBrace))

def body : Nat → State → List Statement × Position × Bool × State
  | 0, s => ([], s.last, false, s)
  | fuel + 1, s =>
    let t := s.peek
    match t.kind with
    | .rbrace =>
      let (stop, s) := semicolon t.stop s.take
      ([], stop, true, s)
    | .eof => ([], t.stop, false, s.report t.range .unclosedNode)
    | _ =>
      let (found, s) := statement fuel s
      let (more, rest) := body fuel s
      (found.toList ++ more, rest)

def statement : Nat → State → Option Statement × State
  | 0, s => (none, s)
  | fuel + 1, s =>
    let t := s.peek
    match t.kind with
    | .directive =>
      let s := s.take
      if t.text = utf8 "/delete-node/" || t.text = utf8 "/delete-property/" then
        let (d, s) := delete t s
        (d.map .delete, s)
      else if t.text = utf8 "/omit-if-no-ref/" then statement fuel s
      else (none, skip (s.report t.range (.unexpectedDirective t.text)))
    | .preproc => (none, preprocessor t s)
    | .label | .name =>
      let (found, s) := labels s.rounds s
      let name := s.peek
      if name.kind = .name then
        let s := s.take
        match s.peek.kind with
        | .lbrace =>
          let (n, s) := node fuel found name s
          (some (.node n.head n.body), s)
        | .equal =>
          let (p, s) := property found name s.take
          (some (.property p), s)
        | .semicolon => (some (.property (propertyDecl found name s.peek.stop [])), s.take)
        | _ =>
          let (p, s) := bareProperty found name s
          (some (.property p), s)
      else (none, skip (s.report name.range .labelWithoutName))
    | .ref | .pathRef => (none, skip (s.take.report t.range .nestedReferenceNode))
    | _ => (none, s.take.report t.range (.unexpectedToken t.text))

end

def State.fuel (s : State) : Nat := 2 * s.cursor.rest.length + 4

-- At most two address and size arguments.
def reservation : Nat → State → List Value × State
  | 0, s => ([], s)
  | count + 1, s =>
    let t := s.peek
    match t.kind with
    | .name =>
      let (more, s) := reservation count s.take
      (.array ⟨t.range, .w64, [cellOfToken t]⟩ :: more, s)
    | .langle =>
      let (a, s) := array t .w32 s.take
      let (more, s) := reservation count s
      (.array a :: more, s)
    | _ => ([], s)

def includeLine (t : Token) : Option Include :=
  let text := t.lexeme
  match Bytes.dropLead? (utf8 "include") (Bytes.trimLeft Bytes.isSpaceOrTab (text.drop 1)) with
  | none => none
  | some rest =>
    let trimmed := Bytes.trimLeft Bytes.isSpaceOrTab rest
    let start := t.start.after (text.take (text.length - trimmed.length))
    let found (closer : UInt8) (rest : Bytes) (system : Bool) : Option Include :=
      match Bytes.cut closer rest with
      | some (path, _) =>
        some ⟨t.range, ⟨start, start.after (trimmed.take (path.length + 2))⟩, path, system⟩
      | none => none
    match trimmed with
    | 0x22 :: rest => found 0x22 rest false
    | 0x3c :: rest => found 0x3e rest true
    | _ => none

def includeDirective (t : Token) (s : State) : Option Item × State :=
  let name := s.peek
  if name.kind = .string then
    (some (.include ⟨⟨t.start, name.stop⟩, name.range, (literal name.text).1, false⟩), s.take)
  else (none, s.report t.range .expectedFileName)

-- A top-level construct. `/omit-if-no-ref/` may stand before any of them.
def item : Nat → State → Option Item × State
  | 0, s => (none, s)
  | fuel + 1, s =>
    let t := s.peek
    match t.kind with
    | .preproc =>
      (match includeLine t with
      | some i => (some (.include i), s.take)
      | none => (none, preprocessor t s))
    | .directive =>
      let s := s.take
      if t.text = utf8 "/dts-v1/" || t.text = utf8 "/plugin/" then
        let (stop, s) := semicolon t.stop s
        (some (.directive ⟨⟨t.start, stop⟩, t.text, []⟩), s)
      else if t.text = utf8 "/memreserve/" then
        let (vs, s) := reservation 2 s
        let (stop, s) := semicolon s.last s
        (some (.directive ⟨⟨t.start, stop⟩, t.text, vs⟩), s)
      else if t.text = utf8 "/include/" then includeDirective t s
      else if t.text = utf8 "/delete-node/" then
        let (d, s) := delete t s
        (d.map .delete, s)
      else if t.text = utf8 "/omit-if-no-ref/" then item fuel s
      else (none, skip (s.report t.range (.unknownDirective t.text)))
    | .label | .name | .slash | .ref | .pathRef =>
      let (found, s) := labels s.rounds s
      let name := s.peek
      (match name.kind with
      | .slash | .name | .ref | .pathRef =>
        let (n, s) := node s.fuel found name s.take
        (some (.node n), s)
      | _ => (none, s.report name.range (.expectedNode name.text)))
    | .rbrace => (none, s.take.report t.range .unmatchedBrace)
    | _ => (none, s.take.report t.range (.unexpectedToken t.text))

def items : Nat → State → List Item × State
  | 0, s => ([], s)
  | fuel + 1, s =>
    if s.peek.kind = .eof then ([], s)
    else
      let (found, s) := item s.rounds s
      let (more, s) := items fuel s
      (found.toList ++ more, s)

end Parser

structure Document where
  items : List Item
  errors : List SyntaxError

namespace Document

def parse (source : Bytes) : Document :=
  let s := Parser.State.start source
  let (items, s) := Parser.items s.rounds s
  ⟨items, s.errors.reverse⟩

def firstError? (d : Document) : Option SyntaxError := d.errors.find? (!·.problem.ignored)

end Document
end DeviceTree
