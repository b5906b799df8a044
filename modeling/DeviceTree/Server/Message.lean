import DeviceTree.Json.Decode
import DeviceTree.Position
import DeviceTree.Uri

namespace DeviceTree.Server

structure Message where
  method : Bytes
  params : Option Json
  id : Json

namespace Message

def blank : Message := ⟨[], none, .null⟩

def errorField (_ : Unit) (name : Bytes) (v : Json) : Option Unit :=
  if name = utf8 "code" then (v.decodeInt 0).map fun _ => ()
  else if name = utf8 "message" then (v.decodeText []).map fun _ => ()
  else some ()

def field (m : Message) (name : Bytes) (v : Json) : Option Message :=
  if name = utf8 "jsonrpc" then (v.decodeText []).map fun _ => m
  else if name = utf8 "method" then (v.decodeText m.method).map fun method => { m with method }
  else if name = utf8 "params" then some { m with params := some v }
  else if name = utf8 "id" then v.decodeAny.map fun id => { m with id }
  else if name = utf8 "result" then v.decodeAny.map fun _ => m
  else if name = utf8 "error" then (v.decodeObject errorField ()).map fun _ => m
  else some m

def ofJson? (v : Json) : Option Message := v.decodeObject field blank

end Message

structure Place where
  uri : Bytes
  line : Int
  character : Int

namespace Place

def blank : Place := ⟨[], 0, 0⟩

def path (p : Place) : Bytes := Uri.toPath p.uri

def position (p : Place) : Position :=
  ⟨(Int64.ofInt p.line + 1).toNatClampNeg, (Int64.ofInt p.character + 1).toNatClampNeg⟩

end Place

inductive Request where
  | connect (root : Bytes)
  | initialized
  | shutdown
  | exit
  | didOpen (uri text : Bytes)
  | didChange (uri : Bytes) (texts : List Bytes)
  | didClose (uri : Bytes)
  | hover (place : Place)
  | definition (place : Place)
  | references (place : Place) (withDeclarations : Bool)
  | documentLink (uri : Bytes)
  | unknown (method : Bytes)
  | malformed
  | ignored

namespace Request

def uriField (uri name : Bytes) (v : Json) : Option Bytes :=
  if name = utf8 "uri" then v.decodeText uri else some uri

def documentUri (uri name : Bytes) (v : Json) : Option Bytes :=
  if name = utf8 "textdocument" then v.decodeObject uriField uri else some uri

def positionField (p : Place) (name : Bytes) (v : Json) : Option Place :=
  if name = utf8 "line" then (v.decodeInt p.line).map fun line => { p with line }
  else if name = utf8 "character" then
    (v.decodeInt p.character).map fun character => { p with character }
  else some p

def placeField (p : Place) (name : Bytes) (v : Json) : Option Place :=
  if name = utf8 "position" then v.decodeObject positionField p
  else (documentUri p.uri name v).map fun uri => { p with uri }

def contextField (flag : Bool) (name : Bytes) (v : Json) : Option Bool :=
  if name = utf8 "includedeclaration" then v.decodeBool flag else some flag

def referencesField (q : Place × Bool) (name : Bytes) (v : Json) : Option (Place × Bool) :=
  if name = utf8 "context" then (v.decodeObject contextField q.2).map fun flag => (q.1, flag)
  else (placeField q.1 name v).map fun p => (p, q.2)

structure Item where
  uri : Bytes
  text : Bytes

-- The language and the version are checked and not kept.
def itemField (i : Item) (name : Bytes) (v : Json) : Option Item :=
  if name = utf8 "uri" then (v.decodeText i.uri).map fun uri => { i with uri }
  else if name = utf8 "languageid" then (v.decodeText []).map fun _ => i
  else if name = utf8 "version" then (v.decodeInt 0).map fun _ => i
  else if name = utf8 "text" then (v.decodeText i.text).map fun text => { i with text }
  else some i

def openField (i : Item) (name : Bytes) (v : Json) : Option Item :=
  if name = utf8 "textdocument" then v.decodeObject itemField i else some i

def versionedField (uri name : Bytes) (v : Json) : Option Bytes :=
  if name = utf8 "version" then (v.decodeInt 0).map fun _ => uri else uriField uri name v

def textField (text name : Bytes) (v : Json) : Option Bytes :=
  if name = utf8 "text" then v.decodeText text else some text

def changeField (c : Bytes × List Bytes) (name : Bytes) (v : Json) : Option (Bytes × List Bytes) :=
  if name = utf8 "textdocument" then
    (v.decodeObject versionedField c.1).map fun uri => (uri, c.2)
  else if name = utf8 "contentchanges" then
    (v.decodeList (Json.decodeObject textField) [] c.2).map fun texts => (c.1, texts)
  else some c

structure Root where
  path : Bytes
  uri : Bytes

def rootField (r : Root) (name : Bytes) (v : Json) : Option Root :=
  if name = utf8 "rootpath" then (v.decodeText r.path).map fun path => { r with path }
  else if name = utf8 "rooturi" then (v.decodeText r.uri).map fun uri => { r with uri }
  else some r

def Root.directory (r : Root) : Bytes :=
  if r.path != [] || r.uri = [] then r.path else Uri.toPath r.uri

def decode (params : Option Json) (field : α → Bytes → Json → Option α) (blank : α) : Option α :=
  params.bind fun v => v.decodeObject field blank

def ofConnect (params : Option Json) : Request :=
  match (params.getD .null).decodeObject rootField ⟨[], []⟩ with
  | some r => .connect r.directory
  | none => .malformed

def ofMessage (m : Message) : Request :=
  let is (method : String) : Bool := m.method == utf8 method
  if is "initialize" then ofConnect m.params
  else if is "initialized" then .initialized
  else if is "shutdown" then .shutdown
  else if is "exit" then .exit
  else if is "textDocument/didOpen" then
    ((decode m.params openField ⟨[], []⟩).map fun i => .didOpen i.uri i.text).getD .ignored
  else if is "textDocument/didChange" then
    ((decode m.params changeField ([], [])).map fun c => .didChange c.1 c.2).getD .ignored
  else if is "textDocument/didClose" then
    ((decode m.params documentUri []).map .didClose).getD .ignored
  else if is "textDocument/hover" then
    ((decode m.params placeField .blank).map .hover).getD .malformed
  else if is "textDocument/definition" then
    ((decode m.params placeField .blank).map .definition).getD .malformed
  else if is "textDocument/references" then
    ((decode m.params referencesField (.blank, false)).map fun q => .references q.1 q.2).getD
      .malformed
  else if is "textDocument/documentLink" then
    ((decode m.params documentUri []).map .documentLink).getD .malformed
  else .unknown m.method

end Request
end DeviceTree.Server
