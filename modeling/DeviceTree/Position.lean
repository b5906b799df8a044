import DeviceTree.Bytes

namespace DeviceTree

structure Position where
  line : Nat
  column : Nat
  deriving DecidableEq, Repr, Inhabited

namespace Position

def first : Position := ⟨1, 1⟩

def before (p q : Position) : Bool :=
  p.line < q.line || (p.line == q.line && p.column < q.column)

def step (p : Position) (b : UInt8) : Position :=
  if b = 0x0a then ⟨p.line + 1, 1⟩ else ⟨p.line, p.column + 1⟩

def after (p : Position) (text : Bytes) : Position := text.foldl step p

def ofOffset (source : Bytes) (offset : Nat) : Position := first.after (source.take offset)

def lineStarts (source : Bytes) : List Nat :=
  go 0 source
where
  go (offset : Nat) : Bytes → List Nat
    | [] => [offset]
    | b :: rest =>
      if b = 0x0a then offset :: go (offset + 1) rest
      else match go (offset + 1) rest with
        | _ :: later => offset :: later
        | [] => [offset]

def toOffset (source : Bytes) (p : Position) : Option Nat :=
  (lineStarts source)[p.line - 1]?.map (· + p.column - 1)

end Position

structure Range where
  start : Position
  stop : Position
  deriving DecidableEq, Repr, Inhabited

namespace Range

def zero : Range := ⟨⟨0, 0⟩, ⟨0, 0⟩⟩

def isZero (r : Range) : Bool := r.start.line == 0

def contains (r : Range) (p : Position) : Bool := !p.before r.start && p.before r.stop

def point (p : Position) : Range := ⟨p, p⟩

end Range
end DeviceTree
