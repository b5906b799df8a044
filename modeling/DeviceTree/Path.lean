import DeviceTree.Bytes

namespace DeviceTree.Path

def isAbsolute (path : Bytes) : Bool := path.head? == some 0x2f

-- One more element of a clean path, whose elements are held last first. `..` takes an
-- element back; above the root there is nothing to take.
def push (rooted : Bool) (elements : List Bytes) (element : Bytes) : List Bytes :=
  if element = [] || element = utf8 "." then elements
  else if element = utf8 ".." then
    match elements with
    | [] => if rooted then [] else [element]
    | last :: rest => if last = utf8 ".." then element :: elements else rest
  else element :: elements

def clean (path : Bytes) : Bytes :=
  let rooted := isAbsolute path
  let body := Bytes.join (utf8 "/") ((Bytes.split 0x2f path).foldl (push rooted) []).reverse
  if rooted then 0x2f :: body
  else if body = [] then utf8 "." else body

def join (parts : List Bytes) : Bytes :=
  match parts.filter (· != []) with
  | [] => []
  | parts => clean (Bytes.join (utf8 "/") parts)

def directoryPart (path : Bytes) : Bytes := (path.reverse.dropWhile (· != 0x2f)).reverse

def directory (path : Bytes) : Bytes := clean (directoryPart path)

def base (path : Bytes) : Bytes :=
  if path = [] then utf8 "."
  else
    match (path.reverse.dropWhile (· == 0x2f)) with
    | [] => utf8 "/"
    | name => (name.takeWhile (· != 0x2f)).reverse

def absolute (cwd path : Bytes) : Bytes := if isAbsolute path then clean path else join [cwd, path]

end DeviceTree.Path
