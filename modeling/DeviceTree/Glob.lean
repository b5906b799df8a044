import DeviceTree.Disk

namespace DeviceTree.Glob

inductive Piece where
  | star
  | one
  | char (code : Nat)
  | range (negated : Bool) (ranges : List (Nat × Nat))
  deriving DecidableEq, Repr

def rangeChar : List Text.Rune → Option (Nat × List Text.Rune)
  | .scalar 0x5c :: .scalar c :: rest => if rest.isEmpty then none else some (c, rest)
  | .scalar c :: rest =>
    if c = 0x5c || c = 0x2d || c = 0x5d || rest.isEmpty then none else some (c, rest)
  | _ => none

def readRanges : (fuel : Nat) → (first : Bool) → List Text.Rune →
    Option (List (Nat × Nat) × List Text.Rune)
  | 0, _, _ => none
  | fuel + 1, first, runes =>
    match runes with
    | .scalar 0x5d :: rest => if first then none else some ([], rest)
    | _ =>
      match rangeChar runes with
      | none => none
      | some (low, .scalar 0x2d :: rest) =>
        (match rangeChar rest with
        | none => none
        | some (high, rest) =>
          (readRanges fuel false rest).map fun (more, rest) => ((low, high) :: more, rest))
      | some (low, rest) =>
        (readRanges fuel false rest).map fun (more, rest) => ((low, low) :: more, rest)

def pieces : (fuel : Nat) → List Text.Rune → Option (List Piece)
  | 0, _ => none
  | fuel + 1, runes =>
    match runes with
    | [] => some []
    | .scalar 0x2a :: rest => (pieces fuel rest).map (.star :: ·)
    | .scalar 0x3f :: rest => (pieces fuel rest).map (.one :: ·)
    | .scalar 0x5c :: r :: rest => (pieces fuel rest).map (.char r.code :: ·)
    | [.scalar 0x5c] => none
    | .scalar 0x5b :: rest =>
      let (negated, rest) := match rest with
        | .scalar 0x5e :: rest => (true, rest)
        | rest => (false, rest)
      (match readRanges fuel true rest with
      | some (ranges, rest) => (pieces fuel rest).map (.range negated ranges :: ·)
      | none => none)
    | r :: rest => (pieces fuel rest).map (.char r.code :: ·)

def parse (pattern : Bytes) : Option (List Piece) :=
  let runes := Text.decode pattern
  pieces (runes.length + 1) runes

def slash : Nat := 0x2f

def matchesPieces : List Piece → List Nat → Bool
  | [], [] => true
  | [], _ :: _ => false
  | .star :: rest, name => starMatches (matchesPieces rest) name
  | .one :: rest, c :: name => c != slash && matchesPieces rest name
  | .char p :: rest, c :: name => p == c && matchesPieces rest name
  | .range negated ranges :: rest, c :: name =>
    (ranges.any fun (low, high) => low ≤ c && c ≤ high) != negated && matchesPieces rest name
  | _ :: _, [] => false
where
  starMatches (after : List Nat → Bool) : List Nat → Bool
    | [] => after []
    | c :: name => after (c :: name) || (c != slash && starMatches after name)

def nameMatches (pattern : List Piece) (name : Bytes) : Bool :=
  matchesPieces pattern ((Text.decode name).map (·.code))

def hasMeta (path : Bytes) : Bool := path.any (utf8 "*?[\\").elem

def inDirectory (d : Disk) (dir : Bytes) (pattern : Bytes) : List Bytes :=
  if d.isDirectory dir && !d.isFile dir then
    match parse pattern with
    | some ps => ((d.list dir).filter (nameMatches ps)).map fun name => Path.join [dir, name]
    | none => []
  else []

def directoryOf (pattern : Bytes) : Bytes :=
  match Path.directoryPart pattern with
  | [] => utf8 "."
  | dir => if dir = utf8 "/" then dir else dir.dropLast

def expand (d : Disk) : (fuel : Nat) → Bytes → List Bytes
  | 0, _ => []
  | fuel + 1, pattern =>
    if !hasMeta pattern then if d.exists? pattern then [pattern] else []
    else
      let dir := directoryOf pattern
      let name := pattern.drop (Path.directoryPart pattern).length
      let dirs := if hasMeta dir then expand d fuel dir else [dir]
      dirs.flatMap fun dir => inDirectory d dir name

def glob (d : Disk) (pattern : Bytes) : Option (List Bytes) :=
  (parse pattern).map fun _ => expand d (pattern.length + 1) pattern

end DeviceTree.Glob
