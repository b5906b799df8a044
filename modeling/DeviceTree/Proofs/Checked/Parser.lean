import DeviceTree.Proofs.Checked.Scanner

namespace DeviceTree
namespace Checked

structure Machine where
  source : Bytes
  offset : Nat
  buffer : List Token
  last : Position
  errors : List SyntaxError

abbrev Run (α : Type) := StateT Machine (Except Fault) α

namespace Machine

def start (source : Bytes) : Machine := ⟨source, 0, [], .first, []⟩

def unread (m : Machine) : Nat := (m.buffer.map (·.lexeme.length)).sum + (m.source.length - m.offset)

end Machine

def peek : Run Token := fun m =>
  match m.buffer with
  | t :: _ => .ok (t, m)
  | [] => do
    let (t, stop) ← nextToken m.source m.offset
    return (t, { m with offset := stop, buffer := [t] })

-- The end of the source is taken without being the last token.
def took (t : Token) (m : Machine) : Token × Machine := (t, if t.kind = .eof then m else { m with last := t.stop })

def take : Run Token := fun m =>
  match m.buffer with
  | t :: rest => .ok (took t { m with buffer := rest })
  | [] => do
    let (t, stop) ← nextToken m.source m.offset
    return took t { m with offset := stop }

def report (range : Range) (problem : Problem) : Run Unit := fun m =>
  .ok ((), { m with errors := ⟨range, problem⟩ :: m.errors })

def lastStop : Run Position := fun m => .ok (m.last, m)

def lookup {α : Type} (find : Bytes → Except Fault α) : Run α := fun m => do
  let found ← find m.source
  return (found, m)

def scanGroup : Run (Bytes × Range × Bool) := fun m =>
  match m.buffer, m.offset with
  | [], start + 1 => do
    let b ← byteAt m.source start
    if b = 0x28 then
      let (stop, closed) ← group m.source 1 (start + 1)
      let text ← slice m.source start stop
      let first ← positionAt m.source start
      let last ← positionAt m.source stop
      return ((text, ⟨first, last⟩, closed), { m with offset := stop })
    else throw .unready
  | _, _ => throw .unready

section Progress

variable {α β : Type}

-- The rounds of a loop. Each begins with the next token in sight, so that what was skipped before it does not count.
def rounds (round : α → Run (α ⊕ β)) (a : α) (m : Machine) : Except Fault (β × Machine) := do
  match ← round a m with
  | (.inr b, after) => return (b, after)
  | (.inl next, after) =>
    let (_, ahead) ← peek after
    if ahead.unread < m.unread then rounds round next ahead else throw .idle
termination_by m.unread

def loop (round : α → Run (α ⊕ β)) (a : α) : Run β := do
  let _ ← peek
  rounds round a

def calls (production : Run α → Run α) (m : Machine) : Except Fault (α × Machine) :=
  production (fun inner => do
    let (_, ahead) ← peek inner
    if ahead.unread < m.unread then calls production ahead else throw .idle) m
termination_by m.unread

def descend (production : Run α → Run α) : Run α := do
  let _ ← peek
  calls production

end Progress

def literal (raw : Bytes) : Except Fault (Bytes × Bool) :=
  if raw.length < 2 then return ([], false)
  else do
    let body ← slice raw 1 (raw.length - 1)
    return if body.elem 0x5c then
      match Text.unescape (Bytes.replaceByte 0x0a (utf8 "\\n") body) with
      | some text => (text, true)
      | none => (body, false)
    else (body, true)

def hexPairs (text : Bytes) (offset : Nat) : Except Fault (Bytes × Bool) :=
  if offset < text.length then do
    let pair ← slice text offset (offset + 2)
    match Bytes.readDigits 16 pair with
    | some v =>
      let (more, good) ← hexPairs text (offset + 2)
      return (v.toUInt8 :: more, good)
    | none => return ([], false)
  else return ([], true)
termination_by text.length - offset

def byteElement (text : Bytes) : Except Fault (Bytes × Bool) :=
  if text.length % 2 = 0 then hexPairs text 0 else return ([], false)

open DeviceTree.Parser (refOfToken cellOfToken width? declStart propertyDecl firstLine headingOf)

def semicolon (stop : Position) : Run Position := do
  let t ← peek
  if t.kind = .semicolon then
    let t ← take
    return t.stop
  else
    report (.point stop) .missingSemicolon
    return stop

def skip : Run Unit := loop (fun () => do
  let t ← peek
  match t.kind with
  | .eof | .rbrace => return .inr ()
  | .semicolon =>
    let _ ← take
    return .inr ()
  | _ =>
    let _ ← take
    return .inl ()) ()

def labels : List Label → Run (List Label) := loop fun found => do
  let t ← peek
  if t.kind = .label then
    let t ← take
    return .inl (found ++ [⟨t.text, t.range⟩])
  else return .inr found

def cells : List Cell → Run (List Cell × Position) := loop fun found => do
  let t ← peek
  match t.kind with
  | .rangle =>
    let _ ← take
    return .inr (found, t.stop)
  | .name | .char =>
    let _ ← take
    return .inl (found ++ [cellOfToken t])
  | .ref | .pathRef =>
    let _ ← take
    return .inl (found ++ [.ref (refOfToken t)])
  | .lparen =>
    let _ ← take
    let (text, range, closed) ← scanGroup
    if closed then return .inl (found ++ [.int range text (Expr.value? text)])
    else
      report range .unbalancedGroup
      return .inl (found ++ [.int range text none])
  | _ =>
    report t.range .unterminatedArray
    let stop ← lastStop
    return .inr (found, stop)

def array (t : Token) (width : Width) : Run CellArray := do
  let (found, stop) ← cells []
  return ⟨⟨t.start, stop⟩, width, found⟩

def byteElements : Bytes → Run (Bytes × Position) := loop fun found => do
  let t ← peek
  match t.kind with
  | .rbracket =>
    let _ ← take
    return .inr (found, t.stop)
  | .name =>
    let _ ← take
    let (bytes, good) ← byteElement t.text
    if good then return .inl (found ++ bytes)
    else
      report t.range (.badByteElement t.text)
      return .inl (found ++ bytes)
  | _ =>
    report t.range .unterminatedBytes
    let stop ← lastStop
    return .inr (found, stop)

def chosenWidth : Run Width := do
  let size ← peek
  if size.kind = .name then
    let _ ← take
    match width? size.text with
    | some width => return width
    | none =>
      report size.range .badWidth
      return .w32
  else return .w32

def wideArray (t : Token) : Run (Option Value) := do
  let size ← peek
  let width ← chosenWidth
  let next ← peek
  if next.kind = .langle then
    let opening ← take
    let a ← array opening width
    return some (.array { a with range := ⟨t.start, a.range.stop⟩ })
  else
    report size.range .widthWithoutArray
    return none

def value : Run (Option Value) := do
  let t ← peek
  match t.kind with
  | .string =>
    let _ ← take
    let (text, good) ← literal t.text
    if good then return some (.string t.range text)
    else
      report t.range .badEscape
      return some (.string t.range text)
  | .langle =>
    let _ ← take
    let a ← array t .w32
    return some (.array a)
  | .lbracket =>
    let _ ← take
    let (found, stop) ← byteElements []
    return some (.bytes ⟨t.start, stop⟩ found)
  | .ref | .pathRef =>
    let _ ← take
    return some (.ref (refOfToken t))
  | .directive =>
    if t.text = utf8 "/bits/" then
      let _ ← take
      wideArray t
    else return none
  | .error =>
    let _ ← take
    report t.range .unterminatedLiteral
    if t.text.head? = some 0x22 then
      let (text, _) ← literal (t.text ++ [0x22])
      return some (.string t.range text)
    else return none
  | _ => return none

def values : List Value × Position → Run (List Value × Position) := loop fun (found, stop) => do
  match ← value with
  | none =>
    let t ← peek
    report t.range .expectedValue
    return .inr (found, stop)
  | some v =>
    let t ← peek
    if t.kind = .comma then
      let t ← take
      return .inl (found ++ [v], t.stop)
    else return .inr (found ++ [v], v.range.stop)

def skipLine (stop : Position) : Run Position := loop (fun () => do
  let t ← peek
  if t.kind = .eof || t.kind = .rbrace || t.start.line != stop.line then return .inr stop
  else
    let _ ← take
    return if t.kind = .semicolon then .inr t.stop else .inl ()) ()

def property (found : List Label) (name : Token) : Run PropertyDecl := do
  let (vs, stop) ← values ([], name.stop)
  let t ← peek
  if t.kind = .semicolon then
    let _ ← take
    return propertyDecl found name t.stop vs
  else
    report (.point stop) .missingSemicolon
    let stop ← skipLine stop
    return propertyDecl found name stop vs

def bareProperty (found : List Label) (name : Token) : Run PropertyDecl := do
  report name.range .incompleteDeclaration
  let t ← peek
  if t.kind != .rbrace && t.kind != .eof && t.start.line == name.start.line then
    skip
    return propertyDecl found name name.stop []
  else return propertyDecl found name name.stop []

def delete (t : Token) : Run (Option Delete) := do
  let ofNode := t.text = utf8 "/delete-node/"
  let name ← peek
  match name.kind with
  | .name =>
    let _ ← take
    let stop ← semicolon name.stop
    return some ⟨⟨t.start, stop⟩, name.range, if ofNode then .node name.text else .property name.text⟩
  | .ref | .pathRef =>
    let _ ← take
    if ofNode then
      let stop ← semicolon name.stop
      return some ⟨⟨t.start, stop⟩, name.range, .target (refOfToken name)⟩
    else
      report name.range .propertyDeletedByReference
      skip
      return none
  | _ =>
    report name.range (.expectedNameAfter t.text)
    skip
    return none

-- What a production has found is kept. A token that it has left where it was is passed over.
def settle {α : Type} (t : Token) (found : List α) : Option α → Run (List α)
  | some a => return found ++ [a]
  | none => do
    let ahead ← peek
    if ahead = t then
      let _ ← take
      return found
    else return found

def body (statement : Run (Option Statement)) : List Statement → Run (List Statement × Position × Bool) := loop fun found => do
  let t ← peek
  match t.kind with
  | .rbrace =>
    let _ ← take
    let stop ← semicolon t.stop
    return .inr (found, stop, true)
  | .eof =>
    report t.range .unclosedNode
    return .inr (found, t.stop, false)
  | _ =>
    let stmt ← statement
    let found ← settle t found stmt
    return .inl found

def node (statement : Run (Option Statement)) (found : List Label) (name : Token) : Run NodeDecl := do
  let head (stop : Position) (closed : Bool) : NodeHead :=
    ⟨⟨declStart found name, stop⟩, name.range, found, headingOf name, closed⟩
  let t ← peek
  if t.kind = .lbrace then
    let _ ← take
    let (stmts, stop, closed) ← body statement []
    return ⟨head stop closed, stmts⟩
  else
    report name.range .expectedBrace
    skip
    return ⟨head name.stop false, []⟩

def declared (self : Run (Option Statement)) (found : List Label) (name : Token) : Run (Option Statement) := do
  let t ← peek
  match t.kind with
  | .lbrace =>
    let n ← node self found name
    return some (.node n.head n.body)
  | .equal =>
    let _ ← take
    let p ← property found name
    return some (.property p)
  | .semicolon =>
    let t ← take
    return some (.property (propertyDecl found name t.stop []))
  | _ =>
    let p ← bareProperty found name
    return some (.property p)

def declaration (self : Run (Option Statement)) (found : List Label) : Run (Option Statement) := do
  let name ← peek
  if name.kind = .name then
    let _ ← take
    declared self found name
  else
    report name.range .labelWithoutName
    skip
    return none

def statementBy (self : Run (Option Statement)) : Run (Option Statement) := do
  let t ← peek
  match t.kind with
  | .directive =>
    let _ ← take
    if t.text = utf8 "/delete-node/" || t.text = utf8 "/delete-property/" then
      let d ← delete t
      return d.map .delete
    else if t.text = utf8 "/omit-if-no-ref/" then self
    else
      report t.range (.unexpectedDirective t.text)
      skip
      return none
  | .preproc =>
    let _ ← take
    report t.range (.preprocessorLine (firstLine t.text))
    return none
  | .label | .name =>
    let found ← labels []
    declaration self found
  | .ref | .pathRef =>
    let _ ← take
    report t.range .nestedReferenceNode
    skip
    return none
  | _ =>
    let _ ← take
    report t.range (.unexpectedToken t.text)
    return none

def statement : Run (Option Statement) := descend statementBy

def reservation : Nat × List Value → Run (List Value) := loop fun (count, found) => do
  match count with
  | 0 => return .inr found
  | count + 1 =>
    let t ← peek
    match t.kind with
    | .name =>
      let _ ← take
      return .inl (count, found ++ [.array ⟨t.range, .w64, [cellOfToken t]⟩])
    | .langle =>
      let _ ← take
      let a ← array t .w32
      return .inl (count, found ++ [.array a])
    | _ => return .inr found

def pathRange (source : Bytes) (t : Token) (lead : Nat) (path : Bytes) : Except Fault Range := do
  let start ← offsetOf source t.start
  let first ← positionAt source (start + lead)
  let last ← positionAt source (start + lead + path.length + 2)
  return ⟨first, last⟩

def includeLine (t : Token) (source : Bytes) : Except Fault (Option Include) := do
  let text := t.lexeme
  let line ← slice text 1 text.length
  match Bytes.dropLead? (utf8 "include") (Bytes.trimLeft Bytes.isSpaceOrTab line) with
  | none => return none
  | some rest =>
    let trimmed := Bytes.trimLeft Bytes.isSpaceOrTab rest
    let found (closer : UInt8) (rest : Bytes) (system : Bool) : Except Fault (Option Include) :=
      match Bytes.cut closer rest with
      | some (path, _) => do
        let range ← pathRange source t (text.length - trimmed.length) path
        return some ⟨t.range, range, path, system⟩
      | none => return none
    match trimmed with
    | 0x22 :: rest => found 0x22 rest false
    | 0x3c :: rest => found 0x3e rest true
    | _ => return none

def headed (found : List Label) : Run (Option Item) := do
  let name ← peek
  match name.kind with
  | .slash | .name | .ref | .pathRef =>
    let _ ← take
    let n ← node statement found name
    return some (.node n)
  | _ =>
    report name.range (.expectedNode name.text)
    return none

def itemBy (self : Run (Option Item)) : Run (Option Item) := do
  let t ← peek
  match t.kind with
  | .preproc =>
    let _ ← take
    match ← lookup (includeLine t) with
    | some i => return some (.include i)
    | none =>
      report t.range (.preprocessorLine (firstLine t.text))
      return none
  | .directive =>
    let _ ← take
    if t.text = utf8 "/dts-v1/" || t.text = utf8 "/plugin/" then
      let stop ← semicolon t.stop
      return some (.directive ⟨⟨t.start, stop⟩, t.text, []⟩)
    else if t.text = utf8 "/memreserve/" then
      let vs ← reservation (2, [])
      let last ← lastStop
      let stop ← semicolon last
      return some (.directive ⟨⟨t.start, stop⟩, t.text, vs⟩)
    else if t.text = utf8 "/include/" then
      let name ← peek
      if name.kind = .string then
        let _ ← take
        let (path, _) ← literal name.text
        return some (.include ⟨⟨t.start, name.stop⟩, name.range, path, false⟩)
      else
        report t.range .expectedFileName
        return none
    else if t.text = utf8 "/delete-node/" then
      let d ← delete t
      return d.map .delete
    else if t.text = utf8 "/omit-if-no-ref/" then self
    else
      report t.range (.unknownDirective t.text)
      skip
      return none
  | .label | .name | .slash | .ref | .pathRef =>
    let found ← labels []
    headed found
  | .rbrace =>
    let _ ← take
    report t.range .unmatchedBrace
    return none
  | _ =>
    let _ ← take
    report t.range (.unexpectedToken t.text)
    return none

def item : Run (Option Item) := descend itemBy

def items : List Item → Run (List Item) := loop fun found => do
  let t ← peek
  if t.kind = .eof then return .inr found
  else
    let i ← item
    let found ← settle t found i
    return .inl found

def parse (source : Bytes) : Except Fault Document := do
  let (items, m) ← items [] (.start source)
  return ⟨items, m.errors.reverse⟩

end Checked
end DeviceTree
