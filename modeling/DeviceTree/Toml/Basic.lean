import DeviceTree.Text.Rune

namespace DeviceTree.Toml

inductive Value where
  | string (value : Bytes)
  | integer (value : Int)
  | bool (value : Bool)
  | other
  | array (items : List Value)
  | inline (entries : List (List Bytes × Value))
  deriving Repr

inductive Expression where
  | table (path : List Bytes)
  | element (path : List Bytes)
  | pair (path : List Bytes) (value : Value)
  deriving Repr

def isBlank (b : UInt8) : Bool := b == 0x20 || b == 0x09

def isBareKey (b : UInt8) : Bool := Bytes.isLetter b || Bytes.isDigit b || b == 0x5f || b == 0x2d

def isControl (b : UInt8) : Bool := (b < 0x20 && b != 0x09) || b == 0x7f

def skipBlanks (text : Bytes) : Bytes := text.dropWhile isBlank

def skipComment (text : Bytes) : Option Bytes :=
  match text with
  | 0x23 :: rest =>
    let body := rest.takeWhile fun b => b != 0x0a
    let body := match body.getLast? with
      | some 0x0d => body.dropLast
      | _ => body
    if body.any isControl then none else some (rest.dropWhile (· != 0x0a))
  | _ => some text

def dropNewline? : Bytes → Option Bytes
  | 0x0a :: rest => some rest
  | 0x0d :: 0x0a :: rest => some rest
  | _ => none

def skipSpace : (fuel : Nat) → Bytes → Option Bytes
  | 0, _ => none
  | fuel + 1, text =>
    match skipComment (skipBlanks text) with
    | none => none
    | some text =>
      match dropNewline? text with
      | some rest => skipSpace fuel rest
      | none => some text

def escape (letter : UInt8) : Option (Bytes ⊕ Nat) :=
  match Char.ofUInt8 letter with
  | 'b' => some (.inl [0x08])
  | 't' => some (.inl [0x09])
  | 'n' => some (.inl [0x0a])
  | 'f' => some (.inl [0x0c])
  | 'r' => some (.inl [0x0d])
  | 'e' => some (.inl [0x1b])
  | '"' => some (.inl [0x22])
  | '\\' => some (.inl [0x5c])
  | 'u' => some (.inr 4)
  | 'U' => some (.inr 8)
  | _ => none

def isCodePoint (code : Nat) : Bool := code < 0xd800 || (0xe000 ≤ code && code < 0x110000)

def readEscape (letter : UInt8) (rest : Bytes) : Option (Bytes × Bytes) :=
  match escape letter with
  | some (.inl bytes) => some (bytes, rest)
  | some (.inr count) =>
    let digits := rest.take count
    if digits.length < count then none
    else (Bytes.readDigits 16 digits).bind fun code =>
      if isCodePoint code then some (Text.encodeCode code, rest.drop count) else none
  | none => none

def basicString : (fuel : Nat) → Bytes → Option (Bytes × Bytes)
  | 0, _ => none
  | fuel + 1, text =>
    match text with
    | [] => none
    | 0x22 :: rest => some ([], rest)
    | 0x5c :: letter :: rest =>
      (match readEscape letter rest with
      | some (bytes, rest) => (basicString fuel rest).map fun (more, rest) => (bytes ++ more, rest)
      | none => none)
    | b :: rest =>
      if isControl b then none
      else (basicString fuel rest).map fun (more, rest) => (b :: more, rest)

def literalString : Bytes → Option (Bytes × Bytes)
  | [] => none
  | b :: rest =>
    if b = 0x27 then some ([], rest)
    else if isControl b then none
    else (literalString rest).map fun (more, rest) => (b :: more, rest)

-- Up to two quotes before the closing three belong to the text.
def closeMultiline (quote : UInt8) (text : Bytes) : Option (Bytes × Bytes) :=
  let run := (text.takeWhile (· == quote)).length
  if run < 3 then none
  else if run > 5 then none
  else some (List.replicate (run - 3) quote, text.drop run)

def basicLines : (fuel : Nat) → Bytes → Option (Bytes × Bytes)
  | 0, _ => none
  | fuel + 1, text =>
    match closeMultiline 0x22 text with
    | some done => some done
    | none =>
      match text with
      | [] => none
      | 0x5c :: rest =>
        (match dropNewline? (skipBlanks rest) with
        | some rest =>
          basicLines fuel (rest.dropWhile fun b => isBlank b || b == 0x0a || b == 0x0d)
        | none =>
          match rest with
          | letter :: rest =>
            (match readEscape letter rest with
            | some (bytes, rest) =>
              (basicLines fuel rest).map fun (more, rest) => (bytes ++ more, rest)
            | none => none)
          | [] => none)
      | b :: rest =>
        if isControl b && b != 0x0a && b != 0x0d then none
        else (basicLines fuel rest).map fun (more, rest) => (b :: more, rest)

def literalLines : (fuel : Nat) → Bytes → Option (Bytes × Bytes)
  | 0, _ => none
  | fuel + 1, text =>
    match closeMultiline 0x27 text with
    | some done => some done
    | none =>
      match text with
      | [] => none
      | b :: rest =>
        if isControl b && b != 0x0a && b != 0x0d then none
        else (literalLines fuel rest).map fun (more, rest) => (b :: more, rest)

def trimNewline (text : Bytes) : Bytes := (dropNewline? text).getD text

def readString (text : Bytes) : Option (Bytes × Bytes) :=
  let fuel := text.length + 1
  match text with
  | 0x22 :: 0x22 :: 0x22 :: rest => basicLines fuel (trimNewline rest)
  | 0x27 :: 0x27 :: 0x27 :: rest => literalLines fuel (trimNewline rest)
  | 0x22 :: rest => basicString fuel rest
  | 0x27 :: rest => literalString rest
  | _ => none

def plainDigits (isDigit : UInt8 → Bool) : (afterDigit : Bool) → Bytes → Option Bytes
  | afterDigit, [] => if afterDigit then some [] else none
  | afterDigit, b :: rest =>
    if isDigit b then (plainDigits isDigit true rest).map (b :: ·)
    else if b = 0x5f && afterDigit then plainDigits isDigit false rest
    else none

def readBase (base : Nat) (text : Bytes) : Option Nat :=
  (plainDigits Bytes.isHexDigit false text).bind (Bytes.readDigits base)

def isOctalLike (text : Bytes) : Bool := text.length > 1 && text.head? == some 0x30

def readDecimal (text : Bytes) : Option Nat :=
  (plainDigits Bytes.isDigit false text).bind fun digits =>
    if isOctalLike digits then none else Bytes.readDigits 10 digits

def fitsWord (n : Int) : Bool := Int64.minValue.toInt ≤ n && n ≤ Int64.maxValue.toInt

def readInteger (text : Bytes) : Option Int :=
  let n : Option Int := match text with
    | 0x30 :: 0x78 :: digits => (readBase 16 digits).map Int.ofNat
    | 0x30 :: 0x6f :: digits => (readBase 8 digits).map Int.ofNat
    | 0x30 :: 0x62 :: digits => (readBase 2 digits).map Int.ofNat
    | 0x2b :: digits => (readDecimal digits).map Int.ofNat
    | 0x2d :: digits => (readDecimal digits).map fun n => -(n : Int)
    | _ => (readDecimal text).map Int.ofNat
  n.filter fitsWord

def isBaseDigit (mark b : UInt8) : Bool :=
  b == 0x5f ||
    match Char.ofUInt8 mark with
    | 'x' => Bytes.isHexDigit b
    | 'o' => 0x30 ≤ b && b ≤ 0x37
    | _ => b == 0x30 || b == 0x31

def isBaseMark (b : UInt8) : Bool := (utf8 "xob").elem b

def isFractionMark (b : UInt8) : Bool := (utf8 ".eE").elem b

def isNumberByte (b : UInt8) : Bool :=
  Bytes.isDigit b || isFractionMark b || b == 0x5f || b == 0x2b || b == 0x2d

def wholeNumber (literal : Bytes) : Value := ((readInteger literal).map .integer).getD .other

-- A number by its extent: a leading zero stands alone unless a fraction or a base follows.
def readNumber (text : Bytes) : Option (Value × Bytes) :=
  match text with
  | 0x30 :: mark :: rest =>
    if isBaseMark mark then
      let digits := rest.takeWhile (isBaseDigit mark)
      some (wholeNumber (0x30 :: mark :: digits), rest.drop digits.length)
    else if isFractionMark mark then plain
    else some (.integer 0, mark :: rest)
  | _ => plain
where
  plain : Option (Value × Bytes) :=
    let literal := text.takeWhile isNumberByte
    let rest := text.drop literal.length
    match Bytes.dropLead? (utf8 "inf") rest, Bytes.dropLead? (utf8 "nan") rest with
    | some rest, _ | _, some rest => some (.other, rest)
    | none, none =>
      if literal.isEmpty then none
      else if literal.any isFractionMark then some (.other, rest)
      else some (wholeNumber literal, rest)

def isDateByte (b : UInt8) : Bool := Bytes.isDigit b || (utf8 "-+.:TtZz").elem b

def isDateTime (text : Bytes) : Bool :=
  let digits := (text.takeWhile Bytes.isDigit).length
  let mark := (text.drop digits).head?
  (digits = 2 && mark == some 0x3a) || (digits = 4 && mark == some 0x2d)

def dropDateTime (text : Bytes) : Bytes :=
  match text.dropWhile isDateByte with
  | 0x20 :: b :: rest =>
    if Bytes.isDigit b then (rest.drop 1).dropWhile isDateByte else 0x20 :: b :: rest
  | rest => rest

def readWord (text : Bytes) : Option (Value × Bytes) :=
  match Bytes.dropLead? (utf8 "true") text, Bytes.dropLead? (utf8 "false") text with
  | some rest, _ => some (.bool true, rest)
  | _, some rest => some (.bool false, rest)
  | none, none => if isDateTime text then some (.other, dropDateTime text) else readNumber text

def readKeyPart (text : Bytes) : Option (Bytes × Bytes) :=
  match text with
  | 0x22 :: rest => basicString (rest.length + 1) rest
  | 0x27 :: rest => literalString rest
  | _ =>
    let key := text.takeWhile isBareKey
    if key.isEmpty then none else some (key, text.drop key.length)

def readKey : (fuel : Nat) → Bytes → Option (List Bytes × Bytes)
  | 0, _ => none
  | fuel + 1, text =>
    match readKeyPart (skipBlanks text) with
    | none => none
    | some (part, rest) =>
      match skipBlanks rest with
      | 0x2e :: rest => (readKey fuel rest).map fun (parts, rest) => (part :: parts, rest)
      | rest => some ([part], rest)

mutual

def readValue : (fuel : Nat) → Bytes → Option (Value × Bytes)
  | 0, _ => none
  | fuel + 1, text =>
    match text with
    | 0x5b :: rest => (readItems fuel rest).map fun (items, rest) => (.array items, rest)
    | 0x7b :: rest => (readEntries fuel true rest).map fun (es, rest) => (.inline es, rest)
    | 0x22 :: _ | 0x27 :: _ => (readString text).map fun (s, rest) => (.string s, rest)
    | _ => readWord text

def readItems : (fuel : Nat) → Bytes → Option (List Value × Bytes)
  | 0, _ => none
  | fuel + 1, text =>
    match skipSpace (text.length + 1) text with
    | some (0x5d :: rest) => some ([], rest)
    | some text =>
      (match readValue fuel text with
      | none => none
      | some (v, rest) =>
        match skipSpace (rest.length + 1) rest with
        | some (0x2c :: rest) => (readItems fuel rest).map fun (vs, rest) => (v :: vs, rest)
        | some (0x5d :: rest) => some ([v], rest)
        | _ => none)
    | none => none

-- The entries of an inline table up to its closing brace, all on one line. Only an empty
-- table may close at once.
def readEntries : (fuel : Nat) → (first : Bool) → Bytes → Option (List (List Bytes × Value) × Bytes)
  | 0, _, _ => none
  | fuel + 1, first, text =>
    match skipBlanks text, first with
    | 0x7d :: rest, true => some ([], rest)
    | text, _ =>
      match readKey (text.length + 1) text with
      | some (key, 0x3d :: rest) =>
        (match readValue fuel (skipBlanks rest) with
        | none => none
        | some (v, rest) =>
          match skipBlanks rest with
          | 0x2c :: rest =>
            (readEntries fuel false rest).map fun (es, rest) => ((key, v) :: es, rest)
          | 0x7d :: rest => some ([(key, v)], rest)
          | _ => none)
      | _ => none

end

def readExpression (text : Bytes) : Option (Option Expression × Bytes) :=
  let fuel := text.length + 1
  match text with
  | 0x5b :: 0x5b :: rest =>
    match readKey fuel rest with
    | some (path, 0x5d :: 0x5d :: rest) => some (some (.element path), rest)
    | _ => none
  | 0x5b :: rest =>
    match readKey fuel rest with
    | some (path, 0x5d :: rest) => some (some (.table path), rest)
    | _ => none
  | [] => some (none, [])
  | b :: _ =>
    if b = 0x23 || b = 0x0a || b = 0x0d then some (none, text)
    else
      match readKey fuel text with
      | some (path, 0x3d :: rest) =>
        (readValue (2 * fuel) (skipBlanks rest)).map fun (v, rest) => (some (.pair path v), rest)
      | _ => none

def expressions : (fuel : Nat) → Bytes → Option (List Expression)
  | 0, _ => none
  | fuel + 1, text =>
    match readExpression (skipBlanks text) with
    | none => none
    | some (found, rest) =>
      match skipComment (skipBlanks rest) with
      | none => none
      | some [] => some found.toList
      | some rest =>
        match dropNewline? rest with
        | some rest => (expressions fuel rest).map (found.toList ++ ·)
        | none => none

end DeviceTree.Toml
