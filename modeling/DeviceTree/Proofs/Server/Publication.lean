import DeviceTree.Proofs.Numerals
import DeviceTree.Proofs.Server.Responses

namespace DeviceTree

namespace Uri

theorem digitValue_upperHex : ∀ d < 16, Bytes.digitValue (upperHex d) = some d := by decide

theorem unescape_plain {b : UInt8} (plain : b ≠ 0x25) (rest : Bytes) :
    unescape (b :: rest) = (unescape rest).map (b :: ·) := by
  rw [unescape.eq_def]
  split
  · rename_i empty
    cases empty
  · rename_i same
    cases same
    exact absurd rfl plain
  · rename_i same
    cases same
    exact if_neg plain

theorem unescape_escapeByte (b : UInt8) (rest : Bytes) :
    unescape (escapeByte b ++ rest) = (unescape rest).map (b :: ·) := by
  unfold escapeByte
  split
  · rename_i path
    refine unescape_plain ?_ rest
    rintro rfl
    revert path
    decide
  · have bound := b.toNat_lt
    have whole : (b.toNat / 16 * 16 + b.toNat % 16).toUInt8 = b := by
      rw [Nat.div_add_mod']
      exact UInt8.ofNat_toNat
    simp only [List.cons_append, List.nil_append, unescape, digitValue_upperHex (b.toNat / 16) (by omega),
      digitValue_upperHex (b.toNat % 16) (by omega), whole]

theorem unescape_escape (path : Bytes) : unescape (path.flatMap escapeByte) = some path := by
  induction path with
  | nil => rfl
  | cons b rest ih => rw [List.flatMap_cons, unescape_escapeByte, ih, Option.map_some]

-- A star is escaped in every path but the one that is nothing else.
theorem escape_ne_star (path : Bytes) : path.flatMap escapeByte ≠ utf8 "*" := by
  intro star
  have back := unescape_escape path
  rw [star] at back
  cases Option.some.inj back
  revert star
  decide

def spelled (path : Bytes) : Bytes := if path = utf8 "*" then utf8 "*" else path.flatMap escapeByte

theorem spelled_injective : Function.Injective spelled := by
  intro one two same
  unfold spelled at same
  by_cases first : one = utf8 "*" <;> by_cases second : two = utf8 "*"
  · rw [first, second]
  · rw [if_pos first, if_neg second] at same
    exact absurd same.symm (escape_ne_star two)
  · rw [if_neg first, if_pos second] at same
    exact absurd same (escape_ne_star one)
  · rw [if_neg first, if_neg second] at same
    have back := congrArg unescape same
    rw [unescape_escape, unescape_escape] at back
    exact Option.some.inj back

theorem ofPath_eq (path : Bytes) : ofPath path = if path = [] then utf8 "file:" else utf8 "file://" ++ spelled path := by
  unfold ofPath spelled
  by_cases star : path = utf8 "*"
  · rw [star]
    decide
  · rw [if_neg star, if_neg star]

theorem ofPath_injective : Function.Injective ofPath := by
  have longer : ∀ rest : Bytes, utf8 "file:" ≠ utf8 "file://" ++ rest := by
    intro rest same
    have length := congrArg List.length same
    rw [List.length_append, show (utf8 "file:").length = 5 by decide, show (utf8 "file://").length = 7 by decide] at length
    omega
  intro one two same
  rw [ofPath_eq, ofPath_eq] at same
  by_cases first : one = [] <;> by_cases second : two = []
  · rw [first, second]
  · rw [if_pos first, if_neg second] at same
    exact absurd same (longer _)
  · rw [if_neg first, if_pos second] at same
    exact absurd same.symm (longer _)
  · rw [if_neg first, if_neg second] at same
    exact spelled_injective (List.append_cancel_left same)

end Uri

namespace Server

def published? (uri : Bytes) (message : Json) : Option (List Json) :=
  match member? "method" message, (member? "params" message).bind (member? "uri"),
    (member? "params" message).bind (member? "diagnostics") with
  | some (.string method), some (.string named), some (.array list) =>
    if method = utf8 "textDocument/publishDiagnostics" ∧ named = uri then some list else none
  | _, _, _ => none

def shown (messages : List Json) (uri : Bytes) : List Json := (messages.reverse.findSome? (published? uri)).getD []

def messages (out : List Output) : List Json := out.filterMap Output.message?

theorem messages_append (out more : List Output) : messages (out ++ more) = messages out ++ messages more :=
  List.filterMap_append

theorem shown_append (before after : List Json) (uri : Bytes) :
    shown (before ++ after) uri = (after.reverse.findSome? (published? uri)).getD (shown before uri) := by
  rw [shown, List.reverse_append, List.findSome?_append]
  cases after.reverse.findSome? (published? uri) <;> rfl

theorem published_report (uri : Bytes) (r : Report) : ∀ message ∈ (Output.report r).message?,
    published? uri message = if Uri.ofPath r.file = uri then some (r.diagnostics.map diagnosticJson) else none := by
  intro message written
  cases written
  have method : member? "method" (envelope [("method", .string (utf8 "textDocument/publishDiagnostics")),
      ("params", reportJson r)]) = some (.string (utf8 "textDocument/publishDiagnostics")) := rfl
  have params : member? "params" (envelope [("method", .string (utf8 "textDocument/publishDiagnostics")),
      ("params", reportJson r)]) = some (reportJson r) := rfl
  have named : member? "uri" (reportJson r) = some (.string (Uri.ofPath r.file)) := rfl
  have list : member? "diagnostics" (reportJson r) = some (.array (r.diagnostics.map diagnosticJson)) := rfl
  simp only [published?, method, params, Option.bind_some, named, list, true_and]

theorem published_reports (files : List Bytes) (list : Bytes → List Diagnostic) (file : Bytes) :
    (messages (files.map fun f => .report ⟨f, list f⟩)).reverse.findSome? (published? (Uri.ofPath file)) =
      if file ∈ files then some ((list file).map diagnosticJson) else none := by
  induction files with
  | nil => rfl
  | cons first rest ih =>
    have own := published_report (Uri.ofPath file) ⟨first, list first⟩ _ rfl
    rw [List.map_cons, messages, List.filterMap_cons]
    change List.findSome? _ (List.reverse (_ :: messages _)) = _
    rw [List.reverse_cons, List.findSome?_append, ih, List.findSome?_singleton, own]
    by_cases later : file ∈ rest
    · rw [if_pos later, if_pos (List.mem_cons_of_mem _ later)]
      rfl
    · rw [if_neg later, Option.none_or]
      by_cases same : first = file
      · rw [same, if_pos rfl, if_pos List.mem_cons_self]
      · rw [if_neg (Uri.ofPath_injective.ne same), if_neg]
        exact mt List.mem_cons.mp (not_or.mpr ⟨Ne.symm same, later⟩)

theorem mem_toldFiles {shot : Session.Snapshot} {published : List Bytes} {file : Bytes} :
    file ∈ toldFiles shot published ↔
      file ∈ shot.tree.files ∨ (file ≠ [] ∧ diagnosticsIn shot file ≠ []) ∨ file ∈ published := by
  have named : file ∈ (shot.diagnostics.map (·.file)).filter (· != []) ↔ file ≠ [] ∧ diagnosticsIn shot file ≠ [] := by
    rw [List.mem_filter, bne_iff_ne, and_comm, diagnosticsIn, ne_eq (List.filter _ _), List.filter_eq_nil_iff, List.mem_map]
    simp
  unfold toldFiles
  rw [Bytes.sort, List.mem_mergeSort, List.mem_eraseDups, List.mem_append, List.mem_append, named, or_assoc]

-- What a snapshot has a client show for a file. Nothing is told about what has no file.
def listFor (shot : Session.Snapshot) (file : Bytes) : List Diagnostic :=
  if file = [] then [] else diagnosticsIn shot file

theorem listFor_untold {shot : Session.Snapshot} {published : List Bytes} {file : Bytes}
    (untold : file ∉ toldFiles shot published) : listFor shot file = [] := by
  unfold listFor
  split
  · rfl
  · rename_i named
    by_contra some
    exact untold (mem_toldFiles.mpr (.inr (.inl ⟨named, some⟩)))

def Remembers (sv : Server) (out : List Output) : Prop :=
  ∀ file, shown (messages out) (Uri.ofPath file) ≠ [] → file ∈ sv.published

variable {sv : Server} {out : List Output} {id : Session.ContextId} {shot : Session.Snapshot}

theorem present_shown (remembers : Remembers sv out) (found : sv.snapshot? id = some shot) (file : Bytes) :
    shown (messages (out ++ (sv.present id).1)) (Uri.ofPath file) = (listFor shot file).map diagnosticJson := by
  have written : (sv.present id).1 = (toldFiles shot sv.published).map fun f => .report ⟨f, listFor shot f⟩ := by
    unfold present
    rw [found]
    exact List.map_map
  rw [messages_append, shown_append, written, published_reports]
  split
  · rfl
  · rename_i untold
    rw [Option.getD_none, listFor_untold untold, List.map_nil]
    by_contra stale
    exact untold (mem_toldFiles.mpr (.inr (.inr (remembers file stale))))

theorem present_remembers (remembers : Remembers sv out) : Remembers (sv.present id).2 (out ++ (sv.present id).1) := by
  cases found : sv.snapshot? id with
  | none =>
    unfold present
    rw [found, List.append_nil]
    exact remembers
  | some shot =>
    intro file some
    rw [present_shown remembers found] at some
    have listed : listFor shot file ≠ [] := mt (congrArg (List.map diagnosticJson)) some
    have told : file ∈ toldFiles shot sv.published := by
      by_contra untold
      exact listed (listFor_untold untold)
    unfold present
    rw [found]
    refine List.mem_map.mpr ⟨⟨file, listFor shot file⟩, List.mem_filter.mpr ⟨List.mem_map.mpr ⟨file, told, rfl⟩, ?_⟩, rfl⟩
    simpa using listed

def Output.isReport : Output → Bool
  | .report _ => true
  | _ => false

theorem published_other (uri : Bytes) {o : Output} (other : o.isReport = false) :
    ∀ message ∈ o.message?, published? uri message = none := by
  intro message written
  cases o with
  | report r => cases other
  | log r => cases written
  | response id answer =>
    cases written
    have method : member? "method" (envelope (idMember id ++ answerMember answer)) = none := by
      cases id <;> cases answer <;> rfl
    simp only [published?, method]

-- Contexts are presented one after the other. Between that the session may change, and all else but the memory of the
-- server, and answers and logs may be written.
inductive Presents : Server → List Output → Prop where
  | start (config : Option Config) (inspector : Option Inspector) : Presents (Server.start config inspector) []
  | present {sv : Server} {out : List Output} (id : Session.ContextId) (before : Presents sv out) :
      Presents (sv.present id).2 (out ++ (sv.present id).1)
  | meanwhile {sv other : Server} {out more : List Output} (before : Presents sv out)
      (kept : other.published = sv.published) (silent : ∀ o ∈ more, o.isReport = false) : Presents other (out ++ more)

theorem Presents.remembers (presents : Presents sv out) : Remembers sv out := by
  induction presents with
  | start config inspector => exact fun file some => absurd rfl some
  | present id before ih => exact present_remembers ih
  | @meanwhile sv other out more before kept silent ih =>
    intro file some
    have nothing : (messages more).reverse.findSome? (published? (Uri.ofPath file)) = none := by
      refine List.findSome?_eq_none_iff.mpr fun message written => ?_
      obtain ⟨o, member, made⟩ := List.mem_filterMap.mp (List.mem_reverse.mp written)
      exact published_other _ (silent o member) message made
    rw [messages_append, shown_append, nothing] at some
    rw [kept]
    exact ih file some

-- After a context has been presented, the client shows what its snapshot says about each file, in its order; so a file of
-- which it says nothing has been cleared, whether it belongs to the context or not.
theorem presented_shown (presents : Presents sv out) (found : sv.snapshot? id = some shot) {file : Bytes} (named : file ≠ []) :
    shown (messages (out ++ (sv.present id).1)) (Uri.ofPath file) = (diagnosticsIn shot file).map diagnosticJson := by
  rw [present_shown presents.remembers found, listFor, if_neg named]

def deskWith (path text : Bytes) : Session :=
  Session.settle ⟨.ofTable [(path, text)], [], fun _ => []⟩ 20 (Session.empty.openContext [] path []).2

-- A mistake in one file is shown until another context is presented, to which the file does not belong.
theorem mistake_cleared : ∃ sv out shot, Presents sv out ∧ sv.snapshot? 0 = some shot ∧
    (shown (messages out) (Uri.ofPath (utf8 "/a.dts"))).length = 1 ∧ utf8 "/a.dts" ∉ shot.tree.files ∧
    shown (messages (out ++ (sv.present 0).1)) (Uri.ofPath (utf8 "/a.dts")) = [] := by
  let mistaken : Server := { Server.start none none with session := some (deskWith (utf8 "/a.dts") (utf8 ";")) }
  let other : Server := { (mistaken.present 0).2 with session := some (deskWith (utf8 "/b.dts") []) }
  have begun : Presents mistaken [] := by
    have nothing : Presents mistaken ([] ++ []) := .meanwhile (.start none none) rfl nofun
    exact nothing
  have presented : Presents other ([] ++ (mistaken.present 0).1) := by
    have before := Presents.present 0 begun
    rw [← List.append_nil ([] ++ (mistaken.present 0).1)]
    exact .meanwhile before rfl nofun
  have first : ((mistaken.snapshot? 0).map fun shot => (diagnosticsIn shot (utf8 "/a.dts")).length) = some 1 := by
    decide +kernel
  have second : ((other.snapshot? 0).map fun shot =>
      (decide (utf8 "/a.dts" ∈ shot.tree.files), (diagnosticsIn shot (utf8 "/a.dts")).length)) = some (false, 0) := by
    decide +kernel
  obtain ⟨old, shows, one⟩ := Option.map_eq_some_iff.mp first
  obtain ⟨shot, found, none⟩ := Option.map_eq_some_iff.mp second
  obtain ⟨apart, none⟩ := Prod.mk.inj none
  have named : utf8 "/a.dts" ≠ [] := by decide
  refine ⟨other, _, shot, presented, found, ?_, of_decide_eq_false apart, ?_⟩
  · rw [presented_shown begun shows named, List.length_map, one]
  · rw [presented_shown presented found named, List.length_eq_zero_iff.mp none, List.map_nil]

end Server
end DeviceTree
