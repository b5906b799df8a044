import DeviceTree.Command.Flags
import DeviceTree.Server.Handle

namespace DeviceTree.Command

structure World where
  disk : Disk
  home : Bytes
  input : Bytes
  begun : Session.ContextId → List Bytes
  patience : Nat

structure Screen where
  logger : Log.Logger
  stdout : Bytes
  stderr : Bytes

namespace Screen

def blank : Screen := ⟨⟨.info, .text⟩, [], []⟩

def print (s : Screen) (text : Bytes) : Screen := { s with stdout := s.stdout ++ text }
def printError (s : Screen) (text : Bytes) : Screen := { s with stderr := s.stderr ++ text }
def log (s : Screen) (r : Log.Record) : Screen := s.printError (s.logger.write r)
def logAll (s : Screen) (rs : List Log.Record) : Screen := rs.foldl log s

end Screen

inductive AddressProblem where
  | missingPort | tooManyColons | missingBracket | openBracket | closeBracket
  deriving DecidableEq, Repr

def AddressProblem.message : AddressProblem → Bytes
  | .missingPort => utf8 "missing port in address"
  | .tooManyColons => utf8 "too many colons in address"
  | .missingBracket => utf8 "missing ']' in address"
  | .openBracket => utf8 "unexpected '[' in address"
  | .closeBracket => utf8 "unexpected ']' in address"

-- The first thing that is wrong with `host:port`, where a host in brackets may hold colons.
def addressProblem? (address : Bytes) : Option AddressProblem :=
  let brackets (opening closing : Bytes) : Option AddressProblem :=
    if opening.elem 0x5b then some .openBracket
    else if closing.elem 0x5d then some .closeBracket
    else none
  match Uri.splitLast 0x3a address, address with
  | none, _ => some .missingPort
  | some (host, _), 0x5b :: inner =>
    (match Bytes.cut 0x5d inner with
    | none => some .missingBracket
    | some (name, after) =>
      if after.isEmpty then some .missingPort
      else if host.length = name.length + 2 then brackets inner after
      else if after.head? = some 0x3a then some .tooManyColons
      else some .missingPort)
  | some (host, _), _ => if host.elem 0x3a then some .tooManyColons else brackets address address

inductive Failure where
  | config (problem : Config.Problem)
  | noContext (name : Bytes) (sources : List Bytes)
  | noInput
  | bindings (problem : Config.BadDirectory)
  | load (problem : Session.LoadError)
  | output (problem : Disk.CreateError)
  | noNode (spec : Bytes)
  | listen (address : Bytes) (problem : AddressProblem)
  | stream (problem : Frame.Problem)
  | issues
  | crash (panic : Panic)
  deriving DecidableEq, Repr

def Failure.message : Failure → Bytes
  | .config p => p.message
  | .noContext name sources =>
    utf8 "no context " ++ Text.quote name ++ utf8 " in [" ++ Bytes.join (utf8 " ") sources ++
      utf8 "]"
  | .noInput => utf8 "no input files"
  | .bindings p => p.message
  | .load p => p.message
  | .output p => utf8 "creating output file: " ++ p.message
  | .noNode spec => utf8 "no node " ++ Text.quote spec
  | .listen address p =>
    utf8 "visualizer: listen tcp: address " ++ address ++ utf8 ": " ++ p.message
  | .stream p => Server.problemMessage p
  | .issues => utf8 "configuration has errors"
  | .crash p => utf8 "panic: " ++ p.message

structure Outcome where
  exitCode : Nat
  stdout : Bytes
  stderr : Bytes
  disk : Disk

structure Ending where
  screen : Screen
  disk : Disk
  failure : Option Failure

def Ending.outcome (e : Ending) (command : Bytes) : Outcome :=
  match e.failure with
  | none => ⟨0, e.screen.stdout, e.screen.stderr, e.disk⟩
  | some .issues => ⟨1, e.screen.stdout, e.screen.stderr, e.disk⟩
  | some (.crash p) =>
    ⟨2, e.screen.stdout, (e.screen.printError (Failure.message (.crash p) ++ utf8 "\n")).stderr, e.disk⟩
  | some f =>
    let s := e.screen.log ⟨.error, command ++ utf8 ": " ++ f.message, []⟩
    ⟨1, s.stdout, s.stderr, e.disk⟩

end DeviceTree.Command
