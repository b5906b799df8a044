import DeviceTree.Source.Token

namespace DeviceTree
namespace Lexer

def isNameByte (b : UInt8) : Bool :=
  Bytes.isLetter b || Bytes.isDigit b || (utf8 ",._+*#?@-").elem b

def isLabelName : Bytes → Bool
  | [] => false
  | b :: rest => !Bytes.isDigit b && (b :: rest).all Bytes.isWord

def isDirectiveByte (b : UInt8) : Bool := Bytes.isLower b || Bytes.isDigit b || b == 0x2d

def isBlank (b : UInt8) : Bool := b == 0x20 || b == 0x09 || b == 0x0d || b == 0x0a

def lineLength (text : Bytes) : Nat := (text.takeWhile (· != 0x0a)).length

def commentLength : Bytes → Option Nat
  | 0x2a :: 0x2f :: _ => some 2
  | _ :: rest => (commentLength rest).map (· + 1)
  | [] => none

def gapPiece (first : UInt8) (rest : Bytes) : Option Nat :=
  if isBlank first then some 0
  else if first = 0x2f then
    match rest with
    | 0x2f :: _ => some (lineLength rest)
    | 0x2a :: body => (commentLength body).map (· + 1)
    | _ => none
  else none

def gapLength : (inside : Nat) → Bytes → Nat
  | _, [] => 0
  | inside + 1, _ :: rest => gapLength inside rest + 1
  | 0, b :: rest =>
    match gapPiece b rest with
    | some more => gapLength more rest + 1
    | none => 0

-- What follows the opening quote: the length with the closing quote, and whether there is
-- one. A backslash takes the next byte with it, and the literal ends before a line end.
def quotedLength (quote : UInt8) : Bytes → Nat × Bool
  | [] => (0, false)
  | [b] => if b = quote then (1, true) else if b = 0x0a then (0, false) else (1, false)
  | b :: c :: rest =>
    if b = 0x5c then
      let (n, closed) := quotedLength quote rest
      (n + 2, closed)
    else if b = quote then (1, true)
    else if b = 0x0a then (0, false)
    else
      let (n, closed) := quotedLength quote (c :: rest)
      (n + 1, closed)

def pathLength : Bytes → Nat × Bool
  | [] => (0, false)
  | b :: rest =>
    if b = 0x7d then (1, true)
    else if b = 0x0a then (0, false)
    else
      let (n, closed) := pathLength rest
      (n + 1, closed)

def preprocLength : Bytes → Nat
  | [] => 0
  | [b] => if b = 0x0a then 0 else 1
  | b :: c :: rest =>
    if b = 0x5c && c = 0x0a then preprocLength rest + 2
    else if b = 0x0a then 0
    else preprocLength (c :: rest) + 1

def preprocWords : List Bytes :=
  ["include", "define", "undef", "ifdef", "ifndef", "if", "elif", "else", "endif",
    "error", "warning", "pragma", "line"].map utf8

def isPreproc (rest : Bytes) : Bool :=
  let rest := Bytes.trimLeft Bytes.isSpaceOrTab rest
  preprocWords.any fun word =>
    match Bytes.dropLead? word rest with
    | some (b :: _) => !isNameByte b
    | some [] => true
    | none => false

def quoted (kind : TokenKind) (quote : UInt8) (rest : Bytes) : TokenKind × Nat :=
  let (n, closed) := quotedLength quote rest
  (if closed then kind else .error, n)

def name (first : UInt8) (rest : Bytes) : TokenKind × Nat :=
  let tail := rest.takeWhile isNameByte
  if (rest.drop tail.length).head? == some 0x3a && isLabelName (first :: tail) then
    (.label, tail.length + 1)
  else (.name, tail.length)

def slash (rest : Bytes) : TokenKind × Nat :=
  if rest.head? == some 0x2a then (.error, rest.length)
  else
    let word := rest.takeWhile isDirectiveByte
    if !word.isEmpty && (rest.drop word.length).head? == some 0x2f then
      (.directive, word.length + 1)
    else (.slash, 0)

def reference (rest : Bytes) : TokenKind × Nat :=
  match rest with
  | 0x7b :: body =>
    let (n, closed) := pathLength body
    (if closed then .pathRef else .error, n + 1)
  | _ =>
    let label := rest.takeWhile isNameByte
    if label.isEmpty then (.other, 0) else (.ref, label.length)

-- The kind of the lexeme at the front and the number of bytes after its first. `fresh` says
-- that nothing but blanks stands before it on its line.
def lexeme (fresh : Bool) (first : UInt8) (rest : Bytes) : TokenKind × Nat :=
  match Char.ofUInt8 first with
  | '/' => slash rest
  | '#' => if fresh && isPreproc rest then (.preproc, preprocLength rest) else name first rest
  | '"' => quoted .string first rest
  | '\'' => quoted .char first rest
  | '&' => reference rest
  | '{' => (.lbrace, 0)
  | '}' => (.rbrace, 0)
  | ';' => (.semicolon, 0)
  | '=' => (.equal, 0)
  | '<' => (.langle, 0)
  | '>' => (.rangle, 0)
  | '[' => (.lbracket, 0)
  | ']' => (.rbracket, 0)
  | '(' => (.lparen, 0)
  | ')' => (.rparen, 0)
  | ',' => (.comma, 0)
  | _ => if isNameByte first then name first rest else (.other, 0)

end Lexer

structure Cursor where
  rest : Bytes
  position : Position
  fresh : Bool
  deriving DecidableEq, Repr

namespace Cursor

def ofSource (source : Bytes) : Cursor := ⟨source, .first, true⟩

def advance : Nat → Cursor → Cursor
  | 0, c => c
  | n + 1, c =>
    match c.rest with
    | [] => c
    | b :: rest =>
      let fresh := if b = 0x0a then true else c.fresh && Bytes.isSpaceOrTab b
      advance n ⟨rest, c.position.step b, fresh⟩

def skipGap (c : Cursor) : Cursor := c.advance (Lexer.gapLength 0 c.rest)

def next (c : Cursor) : Token × Cursor :=
  let c := c.skipGap
  match c.rest with
  | [] => (⟨.eof, [], c.position⟩, c)
  | b :: rest =>
    let (kind, more) := Lexer.lexeme c.fresh b rest
    (⟨kind, b :: rest.take more, c.position⟩, c.advance (more + 1))

end Cursor

-- Cuts off the first `fuel` tokens; one for each byte and one for the end is all of them.
def Lexer.tokens : (fuel : Nat) → Cursor → List Token
  | 0, _ => []
  | fuel + 1, c =>
    let (token, after) := c.next
    if token.kind = .eof then [token] else token :: tokens fuel after

def tokens (source : Bytes) : List Token := Lexer.tokens (source.length + 1) (.ofSource source)

structure Group where
  text : Bytes
  closed : Bool
  deriving DecidableEq, Repr

-- Reads on from inside `depth` open parentheses to the one that closes the outermost. A
-- semicolon, a brace and the end of the source stop it before that.
def Group.scan : (depth : Nat) → Bytes → Group
  | _, [] => ⟨[], false⟩
  | depth, b :: rest =>
    match Char.ofUInt8 b with
    | '(' => let g := scan (depth + 1) rest; ⟨b :: g.text, g.closed⟩
    | ')' =>
      if depth ≤ 1 then ⟨[b], true⟩
      else let g := scan (depth - 1) rest; ⟨b :: g.text, g.closed⟩
    | ';' | '{' | '}' => ⟨[], false⟩
    | _ => let g := scan depth rest; ⟨b :: g.text, g.closed⟩

end DeviceTree
