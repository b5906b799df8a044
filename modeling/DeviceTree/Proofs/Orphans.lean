import DeviceTree.Proofs.Merging
import DeviceTree.Proofs.Queries

namespace DeviceTree.Merge

inductive Deed where
  | block (decl : NodeDecl)
  | delete (inside : Option NodeId) (d : Delete)

def perform (m : Merge) (file : Bytes) : Deed → Merge
  | .block decl => m.topNode file decl
  | .delete none d => m.topDelete file d
  | .delete (some id) d => m.deleteIn file (some id) d

def Deed.blocks : Deed → List NodeDecl
  | .block decl => (Item.node decl).blocks
  | .delete .. => []

inductive Fails (m : Merge) : Deed → Range → Finding → Prop where
  | undefined {decl : NodeDecl} {r : Ref} (heading : decl.head.heading = .ref r) (missing : m.lookup r.target = none) :
      Fails m (.block decl) r.range (.undefinedNode r.text)
  | byName {d : Delete} (named : ∀ r, d.victim ≠ .target r) : Fails m (.delete none d) d.nameRange .deletedByName
  | childless {id : NodeId} {d : Delete} {name : Bytes} (victim : d.victim = .node name)
      (missing : m.store.childNamed? id name = none) : Fails m (.delete (some id) d) d.nameRange (.deletedMissing d.name)
  | missing {inside : Option NodeId} {d : Delete} {r : Ref} (victim : d.victim = .target r)
      (missing : m.lookup r.target = none) : Fails m (.delete inside d) d.nameRange (.deletedMissing d.name)
  | root {inside : Option NodeId} {d : Delete} {r : Ref} (victim : d.victim = .target r)
      (found : m.lookup r.target = some Store.rootId) : Fails m (.delete inside d) d.nameRange .deletedRoot

def orphan (file : Bytes) (decl : NodeDecl) : Fragment := ⟨file, decl, none, false⟩

def record (m : Merge) (file : Bytes) (blocks : List NodeDecl) : Merge :=
  { m with fragments := m.fragments ++ (blocks.map (orphan file)).toArray }

theorem record_nil (m : Merge) (file : Bytes) : m.record file [] = m := by
  simp [record]

theorem record_record (m : Merge) (file : Bytes) (front back : List NodeDecl) :
    (m.record file front).record file back = m.record file (front ++ back) := by
  simp [record]

theorem openBlock_none (m : Merge) (file : Bytes) (decl : NodeDecl) :
    m.openBlock file decl none = (m.fragments.size, m.record file [decl]) := by
  simp [openBlock, record, orphan]

-- Nothing that stands in a block without a node has an effect, however deep it stands, but the blocks are recorded.
theorem statements_orphan (file : Bytes) (fragment : FragmentId) (stmts : List Statement) (m : Merge) :
    statements file none fragment stmts m = m.record file (nodesIn stmts) := by
  induction stmts using nodesIn.induct generalizing fragment m with
  | case1 => rw [statements_nil, nodesIn, record_nil]
  | case2 head body rest ihBody ihRest =>
    rw [statements_node, childOf]
    dsimp only
    rw [openBlock_none]
    dsimp only
    rw [ihBody, ihRest, record_record, record_record, nodesIn]
    rfl
  | case3 decl rest ih =>
    rw [statements_property, setProperty, nodesIn]
    exact ih fragment m
  | case4 d rest ih =>
    rw [statements_delete, deleteIn, nodesIn]
    exact ih fragment m

theorem topNode_undefined {m : Merge} (file : Bytes) {decl : NodeDecl} {r : Ref} (heading : decl.head.heading = .ref r)
    (missing : m.lookup r.target = none) :
    m.topNode file decl = (m.report file r.range (.undefinedNode r.text)).record file (Item.node decl).blocks := by
  unfold topNode
  rw [heading]
  dsimp only
  rw [missing]
  dsimp only
  rw [openBlock_none, statements_orphan, record_record]
  rfl

-- In a tree that a merge has come to, the root is the one node on which a deletion stops.
theorem deleteNode_root {m : Merge} (shaped : m.store.Shaped) (file : Bytes) (d : Delete) :
    m.deleteNode file d (some Store.rootId) = m.report file d.nameRange .deletedRoot := by
  rw [deleteNode, shaped.orphan]

theorem deleteNode_missing (m : Merge) (file : Bytes) (d : Delete) :
    m.deleteNode file d none = m.report file d.nameRange (.deletedMissing d.name) := rfl

theorem perform_target {m : Merge} {d : Delete} {r : Ref} (victim : d.victim = .target r) (file : Bytes)
    (inside : Option NodeId) : m.perform file (.delete inside d) = m.deleteNode file d (m.lookup r.target) := by
  cases inside with
  | none => rw [perform, topDelete, victim]
  | some id => rw [perform, deleteIn, victim]

-- In every state that a merge can come to, a declaration that fails adds its finding and its blocks, without a node,
-- and leaves the nodes with all that they hold, the labels, the files and the blocks before it as they are.
theorem failed_untouched {m : Merge} (reached : Moves .unrestricted .empty m) (file : Bytes) {deed : Deed} {range : Range}
    {finding : Finding} (fails : m.Fails deed range finding) : m.perform file deed =
      { m with
        fragments := m.fragments ++ (deed.blocks.map (orphan file)).toArray
        diagnostics := m.diagnostics ++ [⟨file, range, finding⟩] } := by
  change m.perform file deed = (m.report file range finding).record file deed.blocks
  cases fails with
  | undefined heading missing => exact topNode_undefined file heading missing
  | byName named =>
    rw [Deed.blocks, record_nil, perform, topDelete]
    split
    · rename_i r victim
      exact absurd victim (named r)
    · rfl
  | childless victim missing =>
    rw [Deed.blocks, record_nil, perform, deleteIn, victim]
    dsimp only
    rw [missing, deleteNode_missing]
  | missing victim missing => rw [Deed.blocks, record_nil, perform_target victim, missing, deleteNode_missing]
  | root victim found =>
    have shaped := (Moves.valid reached empty_valid).shaped
    rw [Deed.blocks, record_nil, perform_target victim, found, deleteNode_root shaped]

def soundNode : Item :=
  .node ⟨⟨.zero, .zero, [], .name (utf8 "/"), true⟩,
    [.node ⟨.zero, .zero, [⟨utf8 "codec", .zero⟩], .name (utf8 "sound"), true⟩ []]⟩

def soundFile : File := ⟨utf8 "/sound.dtsi", [], ⟨[soundNode], []⟩, [], []⟩

def amplifierRef : Ref := ⟨.zero, .label (utf8 "amplifier")⟩

def gainNode : NodeDecl :=
  ⟨⟨.zero, .zero, [⟨utf8 "codec", .zero⟩], .name (utf8 "gain"), true⟩,
    [.property ⟨.zero, .zero, [], utf8 "status", []⟩, .delete ⟨.zero, .zero, .node (utf8 "gone")⟩]⟩

def amplifierBlock : NodeDecl :=
  ⟨⟨.zero, .zero, [⟨utf8 "codec", .zero⟩], .ref amplifierRef, true⟩,
    [.node gainNode.head gainNode.body, .delete ⟨.zero, .zero, .target ⟨.zero, .label (utf8 "codec")⟩⟩]⟩

def soundMerge : Merge := Merge.empty.addRoot [soundFile] soundFile.path

theorem amplifier_untouched : Moves .unrestricted .empty soundMerge ∧
    soundMerge.Fails (.block amplifierBlock) .zero (.undefinedNode (utf8 "&amplifier")) ∧
    soundMerge.lookup (.label (utf8 "codec")) = some 1 ∧
    soundMerge.topNode (utf8 "/board.dts") amplifierBlock =
      { soundMerge with
        fragments := soundMerge.fragments ++ #[orphan (utf8 "/board.dts") amplifierBlock, orphan (utf8 "/board.dts") gainNode]
        diagnostics := [⟨utf8 "/board.dts", .zero, .undefinedNode (utf8 "&amplifier")⟩] } := by
  have reached : Moves .unrestricted .empty soundMerge :=
    roots_moves (fun _ _ i _ => Vocabulary.coversItem_unrestricted i) [soundFile.path]
  have missing : soundMerge.lookup amplifierRef.target = none := by
    rw [soundMerge, addRoot]
    cbv
  have fails : soundMerge.Fails (.block amplifierBlock) amplifierRef.range (.undefinedNode amplifierRef.text) :=
    .undefined rfl missing
  have quiet : soundMerge.diagnostics = [] := by cbv
  have blocks : (Deed.block amplifierBlock).blocks = [amplifierBlock, gainNode] := by cbv
  have whole := failed_untouched reached (utf8 "/board.dts") fails
  rw [quiet, blocks] at whole
  exact ⟨reached, fails, by cbv, whole⟩

end DeviceTree.Merge
