import DeviceTree.Tree.Merge

namespace DeviceTree.Merge

section Equations

variable (file : Bytes) (node : Option NodeId) (fragment : FragmentId) (rest : List Statement) (m : Merge)

theorem statements_nil : statements file node fragment [] m = m := by
  rw [statements]

theorem statements_property (decl : PropertyDecl) : statements file node fragment (.property decl :: rest) m =
    statements file node fragment rest (m.setProperty node ⟨decl, fragment⟩) := by
  rw [statements, statement]

theorem statements_node (head : NodeHead) (body : List Statement) :
    statements file node fragment (.node head body :: rest) m =
      let (child, grown) := m.childOf node head.heading.nodeName
      let (inner, opened) := grown.openBlock file ⟨head, body⟩ child
      statements file node fragment rest (statements file child inner body opened) := by
  rw [statements, statement]

theorem statements_delete (d : Delete) : statements file node fragment (.delete d :: rest) m =
    statements file node fragment rest (m.deleteIn file node d) := by
  rw [statements, statement]

end Equations

-- The recursion as it goes: a nested block is carried out before what stands behind it.
@[elab_as_elim]
theorem statements_induct (file : Bytes) {motive : Option NodeId → FragmentId → List Statement → Merge → Prop}
    (nil : ∀ node fragment m, motive node fragment [] m)
    (property : ∀ node fragment decl rest m, motive node fragment rest (m.setProperty node ⟨decl, fragment⟩) →
      motive node fragment (.property decl :: rest) m)
    (block : ∀ node fragment head body rest m child grown inner opened,
      m.childOf node head.heading.nodeName = (child, grown) → grown.openBlock file ⟨head, body⟩ child = (inner, opened) →
      motive child inner body opened → motive node fragment rest (statements file child inner body opened) →
      motive node fragment (.node head body :: rest) m)
    (delete : ∀ node fragment d rest m, motive node fragment rest (m.deleteIn file node d) →
      motive node fragment (.delete d :: rest) m) :
    ∀ node fragment stmts m, motive node fragment stmts m
  | node, fragment, [], m => nil node fragment m
  | node, fragment, .property decl :: rest, m =>
    property node fragment decl rest m (statements_induct file nil property block delete node fragment rest _)
  | node, fragment, .node head body :: rest, m =>
    block node fragment head body rest m _ _ _ _ rfl rfl (statements_induct file nil property block delete _ _ body _)
      (statements_induct file nil property block delete node fragment rest _)
  | node, fragment, .delete d :: rest, m =>
    delete node fragment d rest m (statements_induct file nil property block delete node fragment rest _)

end DeviceTree.Merge
