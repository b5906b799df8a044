import DeviceTree.Json.Basic
import DeviceTree.Session.State
import DeviceTree.Uri

namespace DeviceTree.Server

structure Report where
  file : Bytes
  diagnostics : List Diagnostic

def diagnosticsIn (s : Session.Snapshot) (file : Bytes) : List Diagnostic :=
  s.diagnostics.filter (·.file = file)

-- The files that a publication tells about, sorted: those of the tree, those with
-- diagnostics, and those that were told about before.
def toldFiles (s : Session.Snapshot) (published : List Bytes) : List Bytes :=
  let named := (s.diagnostics.map (·.file)).filter (· != [])
  Bytes.sort (s.tree.files ++ named ++ published).eraseDups

def publish (s : Session.Snapshot) (published : List Bytes) : List Report × List Bytes :=
  let reports := (toldFiles s published).map fun file =>
    Report.mk file (if file = [] then [] else diagnosticsIn s file)
  (reports, (reports.filter (!·.diagnostics.isEmpty)).map (·.file))

def positionJson (p : Position) : Json :=
  let (line, character) := if p.line = 0 then (0, 0) else (p.line - 1, p.column - 1)
  .ofMembers [("line", .nat line), ("character", .nat character)]

def rangeJson (r : Range) : Json :=
  .ofMembers [("start", positionJson r.start), ("end", positionJson r.stop)]

def severity : Level → Nat
  | .error => 1
  | .warning => 2
  | .info => 3

def diagnosticJson (d : Diagnostic) : Json :=
  .ofMembers [("range", rangeJson d.range), ("severity", .nat (severity d.level)),
    ("code", .string d.code), ("source", .string (utf8 "dtt")), ("message", .string d.message)]

def reportJson (r : Report) : Json :=
  .ofMembers [("uri", .string (Uri.ofPath r.file)),
    ("diagnostics", .array (r.diagnostics.map diagnosticJson))]

end DeviceTree.Server
