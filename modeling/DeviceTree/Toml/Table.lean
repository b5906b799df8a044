import DeviceTree.Toml.Basic

namespace DeviceTree.Toml

inductive Origin where
  | implied
  | dotted
  | header
  | inline
  deriving DecidableEq, Repr

inductive Item where
  | value (value : Value)
  | table (origin : Origin) (entries : List (Bytes × Item))
  | tables (tables : List (List (Bytes × Item)))
  deriving Repr

abbrev Table := List (Bytes × Item)

def setEntry (t : Table) (key : Bytes) (item : Item) : Table :=
  if (t.lookup key).isSome then t.map fun (k, v) => if k = key then (k, item) else (k, v)
  else t ++ [(key, item)]

def define : List Bytes → Table → Option Table
  | [], _ => none
  | [key], t =>
    match t.lookup key with
    | none => some (setEntry t key (.table .header []))
    | some (.table .implied entries) => some (setEntry t key (.table .header entries))
    | some _ => none
  | key :: rest, t =>
    match t.lookup key with
    | none => (define rest []).map fun inner => setEntry t key (.table .implied inner)
    | some (.table .inline _) => none
    | some (.table origin entries) =>
      (define rest entries).map fun inner => setEntry t key (.table origin inner)
    | some (.tables ts) =>
      (match ts.getLast? with
      | some last => (define rest last).map fun inner =>
        setEntry t key (.tables (ts.dropLast ++ [inner]))
      | none => none)
    | some (.value _) => none

def appendTable : List Bytes → Table → Option Table
  | [], _ => none
  | [key], t =>
    match t.lookup key with
    | none => some (setEntry t key (.tables [[]]))
    | some (.tables ts) => some (setEntry t key (.tables (ts ++ [[]])))
    | some _ => none
  | key :: rest, t =>
    match t.lookup key with
    | none => (appendTable rest []).map fun inner => setEntry t key (.table .implied inner)
    | some (.table .inline _) => none
    | some (.table origin entries) =>
      (appendTable rest entries).map fun inner => setEntry t key (.table origin inner)
    | some (.tables ts) =>
      (match ts.getLast? with
      | some last => (appendTable rest last).map fun inner =>
        setEntry t key (.tables (ts.dropLast ++ [inner]))
      | none => none)
    | some (.value _) => none

-- Gives a value to a dotted key. It may not reach into a table with a header of its own.
def assign (item : Item) : List Bytes → Table → Option Table
  | [], _ => none
  | [key], t => if (t.lookup key).isSome then none else some (setEntry t key item)
  | key :: rest, t =>
    match t.lookup key with
    | none => (assign item rest []).map fun inner => setEntry t key (.table .dotted inner)
    | some (.table origin entries) =>
      if origin = .implied || origin = .dotted then
        (assign item rest entries).map fun inner => setEntry t key (.table origin inner)
      else none
    | some _ => none

def within (f : Table → Option Table) : List Bytes → Table → Option Table
  | [], t => f t
  | key :: rest, t =>
    match t.lookup key with
    | some (.table origin entries) =>
      (within f rest entries).map fun inner => setEntry t key (.table origin inner)
    | some (.tables ts) =>
      (match ts.getLast? with
      | some last => (within f rest last).map fun inner =>
        setEntry t key (.tables (ts.dropLast ++ [inner]))
      | none => none)
    | _ => none

mutual

def itemOf : (fuel : Nat) → Value → Option Item
  | 0, _ => none
  | fuel + 1, .inline entries =>
    (tableOf fuel entries []).map fun t => .table .inline t
  | fuel + 1, .array items =>
    if checkItems fuel items then some (.value (.array items)) else none
  | _, v => some (.value v)

def tableOf : (fuel : Nat) → List (List Bytes × Value) → Table → Option Table
  | 0, _, _ => none
  | _, [], t => some t
  | fuel + 1, (key, v) :: rest, t =>
    match itemOf fuel v with
    | some item => (assign item key t).bind (tableOf fuel rest)
    | none => none

def checkItems : (fuel : Nat) → List Value → Bool
  | 0, _ => false
  | _, [] => true
  | fuel + 1, v :: rest => (itemOf fuel v).isSome && checkItems fuel rest

end

def build (fuel : Nat) : (header : List Bytes) → Table → List Expression → Option Table
  | _, t, [] => some t
  | _, t, .table path :: rest => (define path t).bind fun t => build fuel path t rest
  | _, t, .element path :: rest => (appendTable path t).bind fun t => build fuel path t rest
  | header, t, .pair key v :: rest =>
    match itemOf fuel v with
    | some item => (within (assign item key) header t).bind fun t => build fuel header t rest
    | none => none

def parse (text : Bytes) : Option Table :=
  if !Text.isWellFormed text then none
  else
    let fuel := 2 * text.length + 2
    (expressions fuel text).bind (build fuel [] [])

end DeviceTree.Toml
