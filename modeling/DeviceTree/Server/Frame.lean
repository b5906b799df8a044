import DeviceTree.Text.Quoted

namespace DeviceTree.Frame

def write (body : Bytes) : Bytes :=
  utf8 "Content-Length: " ++ Bytes.decimal body.length ++ utf8 "\r\n\r\n" ++ body

inductive LengthProblem where
  | noInteger
  | outOfRange (token : Bytes)
  deriving DecidableEq, Repr

def LengthProblem.message : LengthProblem → Bytes
  | .noInteger => utf8 "expected integer"
  | .outOfRange token =>
    utf8 "strconv.ParseInt: parsing " ++ Text.quote token ++ utf8 ": value out of range"

inductive Problem where
  | badLength (value : Bytes) (cause : LengthProblem)
  | noLength
  | truncated
  deriving DecidableEq, Repr

def Problem.message : Problem → Bytes
  | .badLength value cause =>
    utf8 "bad Content-Length " ++ Text.quote value ++ utf8 ": " ++ cause.message
  | .noLength => utf8 "missing Content-Length header"
  | .truncated => utf8 "unexpected EOF"

inductive Reading where
  | message (body rest : Bytes)
  | done
  | failed (problem : Problem)
  deriving DecidableEq, Repr

def isSign (b : UInt8) : Bool := b == 0x2b || b == 0x2d

-- The number that a header value begins with; none if the value ends before any digit.
def readLength (value : Bytes) : Except LengthProblem (Option Int) :=
  let text := Text.trimSpace value
  let sign := (text.take 1).takeWhile isSign
  let body := text.drop sign.length
  let digits := body.takeWhile Bytes.isDigit
  if body.isEmpty then .ok none
  else
    match Bytes.readDigits 10 digits with
    | none => .error .noInteger
    | some n =>
      let n : Int := if sign = [0x2d] then -(n : Int) else n
      if Int64.minValue.toInt ≤ n && n ≤ Int64.maxValue.toInt then .ok (some n) else .error (.outOfRange (sign ++ digits))

def lengthValue? (line : Bytes) : Option Bytes :=
  match Bytes.cut 0x3a line with
  | some (name, value) =>
    if Bytes.toLower (Text.trimSpace name) = utf8 "content-length" then some value else none
  | none => none

def readBody (length : Option Int) (input : Bytes) : Reading :=
  match length with
  | some (.ofNat n) =>
    if n ≤ input.length then .message (input.take n) (input.drop n)
    else if input.isEmpty then .done
    else .failed .truncated
  | _ => .failed .noLength

def isLineEnd (b : UInt8) : Bool := b == 0x0d || b == 0x0a

theorem length_cut {sep : UInt8} {text before after : Bytes}
    (found : Bytes.cut sep text = some (before, after)) : after.length < text.length := by
  induction text generalizing before after with
  | nil => simp [Bytes.cut] at found
  | cons b rest ih =>
    unfold Bytes.cut at found
    split at found
    · cases found; simp
    · split at found
      · rename_i inner
        cases found
        exact Nat.lt_succ_of_lt (ih inner)
      · cases found

-- Reads header lines up to an empty one. A later length takes the place of an earlier one.
def readHeader (length : Option Int) (input : Bytes) : Reading :=
  match _found : Bytes.cut 0x0a input with
  | none => .done
  | some (line, rest) =>
    let line := Bytes.trimRight isLineEnd line
    if line.isEmpty then readBody length rest
    else
      match lengthValue? line with
      | none => readHeader length rest
      | some value =>
        match readLength value with
        | .error cause => .failed (.badLength value cause)
        | .ok none => .done
        | .ok (some n) => readHeader (some n) rest
termination_by input.length
decreasing_by all_goals exact length_cut _found

def read (input : Bytes) : Reading := readHeader none input

end DeviceTree.Frame
