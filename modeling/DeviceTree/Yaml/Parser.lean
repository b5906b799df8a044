import DeviceTree.Yaml.Scalar

namespace DeviceTree.Yaml

inductive Node where
  | plain (text : Bytes)
  | text (text : Bytes)
  | seq (items : List Node)
  | map (entries : List (Bytes × Node))
  deriving Repr

def indentOf (line : Bytes) : Nat := (line.takeWhile (· == 0x20)).length

def isBlankLine (line : Bytes) : Bool := line.all isBlankByte

def isEmptyText (text : Bytes) : Bool :=
  match text.dropWhile isBlankByte with
  | [] => true
  | b :: _ => b == 0x23

def skipEmpty (lines : List Bytes) : List Bytes := lines.dropWhile isEmptyText

def endsLine (text : Bytes) : Bool :=
  match text with
  | [] => true
  | b :: _ => isBlankByte b && isEmptyText text

def beforeComment : Bytes → Bytes × Bool
  | [] => ([], false)
  | [b] => ([b], false)
  | a :: b :: rest =>
    if isBlankByte a && b == 0x23 then ([], true)
    else
      let (kept, found) := beforeComment (b :: rest)
      (a :: kept, found)

def isFlowMark (b : UInt8) : Bool := (utf8 ",[]\x7b\x7d").elem b

def plainStart (inFlow : Bool) (text : Bytes) : Bool :=
  match text with
  | [] => false
  | b :: rest =>
    if (utf8 "-?:").elem b then
      match rest with
      | [] => false
      | c :: _ => !isBlankByte c && c != 0x0a && !(inFlow && isFlowMark c)
    else !(utf8 ",[]\x7b\x7d#&*!|>'\"%@\x60").elem b

def cutKey : Bytes → Option (Bytes × Bytes)
  | [] => none
  | [b] => if b = 0x3a then some ([], []) else none
  | a :: b :: rest =>
    if a = 0x3a && isBlankByte b then some ([], b :: rest)
    else if isBlankByte a && b = 0x23 then none
    else match cutKey (b :: rest) with
      | some (key, value) => some (a :: key, value)
      | none => none

def keyOf (text : Bytes) : Option (Bytes × Bytes) :=
  match text with
  | 0x22 :: _ | 0x27 :: _ =>
    (match quoted text with
    | some (key, rest) =>
      (match rest.dropWhile isBlankByte with
      | 0x3a :: value =>
        (match value with
        | [] => some (key, value)
        | b :: _ => if isBlankByte b then some (key, value) else none)
      | _ => none)
    | none => none)
  | _ =>
    if plainStart false text then
      (cutKey text).map fun (key, value) => (Bytes.trimRight isBlankByte key, value)
    else none

def isItem (text : Bytes) : Bool :=
  match text with
  | [0x2d] => true
  | 0x2d :: b :: _ => isBlankByte b
  | _ => false

def isIndented (line : Bytes) : Bool := (line.head?.map isBlankByte).getD false

def foldLines : (previous : Option Bytes) → (breaks : Nat) → List Bytes → Bytes
  | _, _, [] => []
  | previous, breaks, line :: rest =>
    if line.isEmpty then foldLines previous (breaks + 1) rest
    else
      let gap := match previous with
        | none => List.replicate breaks 0x0a
        | some p =>
          if isIndented p || isIndented line then List.replicate (breaks + 1) 0x0a
          else if breaks = 0 then utf8 " "
          else List.replicate breaks 0x0a
      gap ++ line ++ foldLines (some line) 0 rest

structure BlockHeader where
  folded : Bool
  keep : Bool
  strip : Bool
  indent : Option Nat

def readHeader (h : BlockHeader) : Bytes → Option BlockHeader
  | [] => some h
  | b :: rest =>
    if b = 0x2d then readHeader { h with strip := true } rest
    else if b = 0x2b then readHeader { h with keep := true } rest
    else if Bytes.isDigit b && b != 0x30 then
      readHeader { h with indent := some (b.toNat - 0x30) } rest
    else if endsLine (b :: rest) then some h
    else none

-- The lines of a block scalar, which are deeper than `parent`, and the lines after it. The last
-- line of a document ends without a break.
def blockScalar (h : BlockHeader) (parent : Int) (lines : List Bytes) : Bytes × List Bytes :=
  let indent : Nat := match h.indent with
    | some n => (max parent 0).toNat + n
    | none =>
      match lines.dropWhile isBlankLine with
      | line :: _ => if (indentOf line : Int) > parent then indentOf line else (parent + 1).toNat
      | [] => (parent + 1).toNat
  let belongs (line : Bytes) : Bool := isBlankLine line || indentOf line ≥ indent
  let body := (lines.takeWhile belongs).map (·.drop indent)
  let rest := lines.dropWhile belongs
  let final := (body.reverse.takeWhile List.isEmpty).length
  let content := body.take (body.length - final)
  let text := if h.folded then foldLines none 0 content else Bytes.joinLines content
  let inner := if content.isEmpty then 0 else content.length - 1
  let breaks := (if rest.isEmpty then body.length - 1 else body.length) - inner
  let tail : Bytes :=
    if h.strip then []
    else if h.keep then List.replicate breaks 0x0a
    else if content.isEmpty || breaks = 0 then [] else [0x0a]
  (text ++ tail, rest)

def plainLines (parent : Int) : (breaks : Nat) → List Bytes → Option (Bytes × List Bytes)
  | _, [] => some ([], [])
  | breaks, line :: rest =>
    if isBlankLine line then
      match plainLines parent (breaks + 1) rest with
      | some ([], _) => some ([], line :: rest)
      | found => found
    else
      let text := (line.drop (indentOf line)).dropWhile isBlankByte
      if (indentOf line : Int) ≤ parent || text.head? = some 0x23 then some ([], line :: rest)
      else if (cutKey text).isSome then none
      else
        let gap := if breaks = 0 then utf8 " " else List.replicate breaks 0x0a
        let (kept, comment) := beforeComment text
        let kept := Bytes.trimRight isBlankByte kept
        if comment then some (gap ++ kept, rest)
        else (plainLines parent 0 rest).map fun (more, rest) => (gap ++ kept ++ more, rest)

def skipFlowFrom : (comment blank : Bool) → Bytes → Bytes
  | _, _, [] => []
  | true, _, b :: rest => skipFlowFrom (b != 0x0a) true rest
  | false, blank, b :: rest =>
    if isBlankByte b || b = 0x0a then skipFlowFrom false true rest
    else if b = 0x23 && blank then skipFlowFrom true true rest
    else b :: rest

def skipFlow (text : Bytes) : Bytes := skipFlowFrom false false text

def flowPlain : Bytes → Bytes × Bytes
  | [] => ([], [])
  | [b] => if isFlowMark b || b = 0x3a then ([], [b]) else ([b], [])
  | a :: b :: rest =>
    if isFlowMark a then ([], a :: b :: rest)
    else if a = 0x3a && (isBlankByte b || b = 0x0a || isFlowMark b) then ([], a :: b :: rest)
    else if (isBlankByte a || a = 0x0a) && b = 0x23 then ([], a :: b :: rest)
    else
      let (kept, after) := flowPlain (b :: rest)
      ((if a = 0x0a then 0x20 else a) :: kept, after)

def squeeze (text : Bytes) : Bytes := Bytes.join (utf8 " ") ((Bytes.split 0x20 text).filter (· != []))

mutual

def flow : (fuel : Nat) → Bytes → Option (Node × Bytes)
  | 0, _ => none
  | fuel + 1, text =>
    match skipFlow text with
    | 0x5b :: rest => (flowItems fuel rest).map fun (items, rest) => (.seq items, rest)
    | 0x7b :: rest => (flowEntries fuel rest).map fun (entries, rest) => (.map entries, rest)
    | 0x22 :: rest => (quoted (0x22 :: rest)).map fun (s, rest) => (.text s, rest)
    | 0x27 :: rest => (quoted (0x27 :: rest)).map fun (s, rest) => (.text s, rest)
    | text =>
      if plainStart true text then
        let (kept, rest) := flowPlain text
        let kept := if kept.elem 0x0a || text.elem 0x0a then squeeze kept else kept
        some (.plain (Bytes.trim isBlankByte kept), rest)
      else none

def flowItems : (fuel : Nat) → Bytes → Option (List Node × Bytes)
  | 0, _ => none
  | fuel + 1, text =>
    match skipFlow text with
    | 0x5d :: rest => some ([], rest)
    | text =>
      match flow fuel text with
      | none => none
      | some (item, rest) =>
        let pair : Option (Node × Bytes) :=
          match skipFlow rest, item with
          | 0x3a :: value, .plain key | 0x3a :: value, .text key =>
            (flowValue fuel value).map fun (v, rest) => (.map [(key, v)], rest)
          | rest, item => some (item, rest)
        match pair with
        | none => none
        | some (item, rest) =>
          match skipFlow rest with
          | 0x2c :: rest => (flowItems fuel rest).map fun (items, rest) => (item :: items, rest)
          | 0x5d :: rest => some ([item], rest)
          | _ => none

def flowValue : (fuel : Nat) → Bytes → Option (Node × Bytes)
  | 0, _ => none
  | fuel + 1, text =>
    match skipFlow text with
    | 0x2c :: rest => some (.plain [], 0x2c :: rest)
    | 0x5d :: rest => some (.plain [], 0x5d :: rest)
    | 0x7d :: rest => some (.plain [], 0x7d :: rest)
    | text => flow fuel text

def flowEntries : (fuel : Nat) → Bytes → Option (List (Bytes × Node) × Bytes)
  | 0, _ => none
  | fuel + 1, text =>
    match skipFlow text with
    | 0x7d :: rest => some ([], rest)
    | text =>
      match flow fuel text with
      | some (.plain key, rest) | some (.text key, rest) =>
        let value : Option (Node × Bytes) :=
          match skipFlow rest with
          | 0x3a :: value => flowValue fuel value
          | rest => some (.plain [], rest)
        (match value with
        | none => none
        | some (v, rest) =>
          match skipFlow rest with
          | 0x2c :: rest =>
            (flowEntries fuel rest).map fun (more, rest) => ((key, v) :: more, rest)
          | 0x7d :: rest => some ([(key, v)], rest)
          | _ => none)
      | _ => none

end

def spanning (text : Bytes) (lines : List Bytes) : Option (Node × List Bytes) :=
  let whole := Bytes.joinLines (text :: lines)
  match flow (3 * whole.length + 3) whole with
  | some (node, rest) =>
    match Bytes.split 0x0a rest with
    | [] => some (node, [])
    | tail :: lines => if endsLine tail then some (node, lines) else none
  | none => none

def inline (parent : Int) (text : Bytes) (lines : List Bytes) : Option (Node × List Bytes) :=
  match text with
  | [] => none
  | b :: rest =>
    if b = 0x7c || b = 0x3e then
      (readHeader ⟨b = 0x3e, false, false, none⟩ rest).map fun h =>
        let (s, lines) := blockScalar h parent lines
        (.text s, lines)
    else if b = 0x5b || b = 0x7b || b = 0x22 || b = 0x27 then spanning text lines
    else if plainStart false text && (cutKey text).isNone then
      let (kept, comment) := beforeComment text
      let kept := Bytes.trimRight isBlankByte kept
      if comment then some (.plain kept, lines)
      else (plainLines parent 0 lines).map fun (more, lines) => (.plain (kept ++ more), lines)
    else none

mutual

def block : (fuel : Nat) → (parent : Int) → List Bytes → Option (Node × List Bytes)
  | 0, _, _ => none
  | fuel + 1, parent, lines =>
    match skipEmpty lines with
    | [] => some (.plain [], [])
    | line :: rest =>
      let n := indentOf line
      let text := line.drop n
      if (n : Int) ≤ parent then some (.plain [], line :: rest)
      else if text.head? = some 0x09 then none
      else if isItem text then
        (sequence fuel n (line :: rest)).map fun (items, rest) => (.seq items, rest)
      else if (keyOf text).isSome then
        (mapping fuel n (line :: rest)).map fun (entries, rest) => (.map entries, rest)
      else inline parent text rest

def sequence : (fuel : Nat) → (n : Nat) → List Bytes → Option (List Node × List Bytes)
  | 0, _, _ => none
  | fuel + 1, n, lines =>
    match skipEmpty lines with
    | [] => some ([], [])
    | line :: rest =>
      let text := line.drop (indentOf line)
      if indentOf line > n then none
      else if indentOf line < n || !isItem text then some ([], line :: rest)
      else
        match block fuel n ((List.replicate (n + 1) 0x20 ++ text.drop 1) :: rest) with
        | some (item, rest) => (sequence fuel n rest).map fun (more, rest) => (item :: more, rest)
        | none => none

def mapping : (fuel : Nat) → (n : Nat) → List Bytes → Option (List (Bytes × Node) × List Bytes)
  | 0, _, _ => none
  | fuel + 1, n, lines =>
    match skipEmpty lines with
    | [] => some ([], [])
    | line :: rest =>
      if indentOf line < n then some ([], line :: rest)
      else if indentOf line > n then none
      else
        match keyOf (line.drop n) with
        | none => none
        | some (key, text) =>
          let text := text.dropWhile isBlankByte
          let value : Option (Node × List Bytes) :=
            if isEmptyText text then
              match skipEmpty rest with
              | [] => some (.plain [], [])
              | next :: _ =>
                if indentOf next = n && isItem (next.drop n) then
                  (sequence fuel n rest).map fun (items, rest) => (.seq items, rest)
                else block fuel n rest
            else inline n text rest
          match value with
          | some (v, rest) =>
            (mapping fuel n rest).map fun (more, rest) => ((key, v) :: more, rest)
          | none => none

end

def isMarker (mark line : Bytes) : Bool :=
  match Bytes.dropLead? mark line with
  | some [] => true
  | some (b :: _) => isBlankByte b
  | none => false

def linesOf (text : Bytes) : List Bytes :=
  (Bytes.split 0x0a text).map fun line =>
    match line.getLast? with
    | some 0x0d => line.dropLast
    | _ => line

def isForbidden (b : UInt8) : Bool :=
  (b < 0x20 && b != 0x09 && b != 0x0a && b != 0x0d) || b == 0x7f

-- The lines of the first document, and whether another one follows it. A marker stands on a
-- line of its own, so the line before it has a break.
def firstDocument (lines : List Bytes) : List Bytes × Bool :=
  let mark := utf8 "---"
  let lines := skipEmpty lines
  let lines := match lines with
    | line :: rest => if isMarker mark line then (utf8 "   " ++ line.drop 3) :: rest else lines
    | [] => []
  let stops (line : Bytes) := isMarker mark line || isMarker (utf8 "...") line
  let own := lines.takeWhile (!stops ·)
  let rest := lines.dropWhile (!stops ·)
  (if rest.isEmpty then own else own ++ [[]],
    !(rest.drop 1).all isEmptyText || rest.any (isMarker mark))

inductive Outcome where
  | absent
  | malformed
  | document (node : Node) (more : Bool)

def byteOrderMark : Bytes := [0xef, 0xbb, 0xbf]

def parse (text : Bytes) : Outcome :=
  let text := Bytes.trimLead byteOrderMark text
  if text.any isForbidden || !Text.isWellFormed text then .malformed
  else
    let lines := linesOf text
    if (skipEmpty lines).isEmpty then .absent
    else
      let (lines, more) := firstDocument lines
      match block (4 * text.length + 8) (-1) lines with
      | some (node, rest) => if (skipEmpty rest).isEmpty then .document node more else .malformed
      | none => .malformed

def hasRepeat : List Bytes → Bool
  | [] => false
  | key :: rest => rest.elem key || hasRepeat rest

mutual

def Node.repeats : Node → Bool
  | .plain _ | .text _ => false
  | .seq items => anyRepeats items
  | .map entries => hasRepeat (entries.map Prod.fst) || anyEntryRepeats entries

def anyRepeats : List Node → Bool
  | [] => false
  | n :: rest => n.repeats || anyRepeats rest

def anyEntryRepeats : List (Bytes × Node) → Bool
  | [] => false
  | (_, n) :: rest => n.repeats || anyEntryRepeats rest

end

mutual

def Node.value : Node → Yaml
  | .plain text => ofPlain text
  | .text text => .string text
  | .seq items => .seq (valuesOf items)
  | .map entries => .map (entriesOf entries)

def valuesOf : List Node → List Yaml
  | [] => []
  | n :: rest => n.value :: valuesOf rest

def entriesOf : List (Bytes × Node) → List (Bytes × Yaml)
  | [] => []
  | (key, n) :: rest => (key, n.value) :: entriesOf rest

end

end DeviceTree.Yaml
