import DeviceTree.Inspector.Graph
import DeviceTree.Proofs.Paths

namespace DeviceTree
open Lexer

-- Only these bytes of a path are seen in the name of a box.
def Bytes.isPlain (b : UInt8) : Bool := isLetter b || isDigit b

def Bytes.Blurred (p q : Bytes) : Prop :=
  List.Forall₂ (fun b c => b = c ∨ isPlain b = false ∧ isPlain c = false) p q

namespace Tree

structure Link where
  other : NodeId
  outgoing : Bool
  property : Option Bytes
  deriving DecidableEq, Repr

def linkOf? (t : Tree) (focus : NodeId) (u : Use) : Option Link :=
  match t.nodeOf? u.property, t.resolve u.ref.target with
  | some source, some target =>
    if source = focus then some ⟨target, true, some u.property.name⟩
    else if target = focus then some ⟨source, false, some u.property.name⟩
    else none
  | _, _ => none

def links (t : Tree) (focus : NodeId) : List Link :=
  (t.node focus).parent.toList.map (⟨·, false, none⟩) ++ (t.node focus).children.map (⟨·, true, none⟩) ++
    t.references.filterMap (t.linkOf? focus)

def Link.arrow (l : Link) : List Bytes :=
  match l.property with
  | some name => [utf8 "-.", name, utf8 ".->"]
  | none => [utf8 "-->"]

-- The label of a box is written with the node that is not in focus.
def linkText (t : Tree) (focus : NodeId) (l : Link) : Bytes :=
  graphLine (if l.outgoing then [t.boxId focus] ++ l.arrow ++ [t.box l.other] else [t.box l.other] ++ l.arrow ++ [t.boxId focus]) ++
    if l.property.isSome then graphLine [utf8 "class", t.boxId l.other, utf8 "ref"] else []

def drawing (t : Tree) (focus : NodeId) (links : List Link) : Bytes :=
  utf8 "graph LR\n" ++ graphLine [t.box focus] ++ graphLine [utf8 "class", t.boxId focus, utf8 "focus"] ++
    links.flatMap (t.linkText focus) ++
    graphLine [utf8 "classDef focus fill:#ffe9a8,stroke:#333,stroke-width:2px;"] ++
    graphLine [utf8 "classDef ref fill:#dde8f5,stroke:#333,stroke-width:1px;"]

theorem referenceLines_link (t : Tree) (focus : NodeId) (u : Use) :
    t.referenceLines focus u = (t.linkOf? focus u).toList.flatMap (t.linkText focus) := by
  unfold referenceLines linkOf?
  cases t.nodeOf? u.property with
  | none => rfl
  | some source =>
    cases t.resolve u.ref.target with
    | none => rfl
    | some target =>
      by_cases out : source = focus
      · simp [out, linkText, Link.arrow]
      · by_cases into : target = focus
        · simp [out, into, linkText, Link.arrow]
        · simp [out, into]

theorem graph_links (t : Tree) (focus : NodeId) : t.graph focus = t.drawing focus (t.links focus) := by
  have above (parent : Option NodeId) : (parent.toList.map (Link.mk · false none)).flatMap (t.linkText focus) =
      parent.elim [] fun parent => graphLine [t.box parent, utf8 "-->", t.boxId focus] := by
    cases parent with
    | none => rfl
    | some parent => simp [linkText, Link.arrow]
  have below : (t.node focus).children.flatMap (fun c => graphLine [t.boxId focus, utf8 "-->", t.box c]) =
      ((t.node focus).children.map (Link.mk · true none)).flatMap (t.linkText focus) := by
    rw [List.flatMap_map]
    refine List.flatMap_congr fun c _ => ?_
    simp [linkText, Link.arrow]
  have across : t.references.flatMap (t.referenceLines focus) =
      (t.references.filterMap (t.linkOf? focus)).flatMap (t.linkText focus) := by
    rw [List.filterMap_eq_flatMap_toList, List.flatMap_assoc]
    exact List.flatMap_congr fun u _ => t.referenceLines_link focus u
  simp only [graph, drawing, links, List.flatMap_append, above, ← below, ← across, ← List.append_assoc]
  cases (t.node focus).parent with
  | none => rfl
  | some parent => rfl

def shown (t : Tree) (focus : NodeId) : List NodeId :=
  (focus :: (t.links focus).map Link.other).filter (· ∈ t.nodes)

-- Each box stands for one node, so every line of the drawing joins the nodes that it is about.
def Apart (t : Tree) (focus : NodeId) : Prop :=
  ∀ a ∈ t.shown focus, ∀ b ∈ t.shown focus, t.boxId a = t.boxId b → a = b

end Tree

def Bytes.boxByte (b : UInt8) : UInt8 := if isPlain b then b else 0x5f

theorem Bytes.boxByte_eq_iff (b c : UInt8) : boxByte b = boxByte c ↔ b = c ∨ isPlain b = false ∧ isPlain c = false := by
  have mark : isPlain 0x5f = false := by decide
  unfold boxByte
  by_cases one : isPlain b = true
  · by_cases two : isPlain c = true
    · simp [one, two]
    · have apart : b ≠ 0x5f := fun same => by rw [same, mark] at one; cases one
      have other : b ≠ c := fun same => two (same ▸ one)
      simp [one, two, apart, other]
  · by_cases two : isPlain c = true
    · have apart : 0x5f ≠ c := fun same => by rw [← same, mark] at two; cases two
      have other : b ≠ c := fun same => one (same ▸ two)
      simp [one, two, apart, other]
    · simp [one, two]

theorem Bytes.blurred_iff (p q : Bytes) : p.map boxByte = q.map boxByte ↔ Blurred p q := by
  unfold Blurred
  induction p generalizing q with
  | nil => cases q <;> simp
  | cons b p ih =>
    cases q with
    | nil => simp
    | cons c q => rw [List.map_cons, List.map_cons, List.cons.injEq, ih, boxByte_eq_iff, List.forall₂_cons]

instance (p q : Bytes) : Decidable (Bytes.Blurred p q) := decidable_of_iff _ (Bytes.blurred_iff p q)

theorem name_ascii : ∀ b : UInt8, isNameByte b = true → b < 0x80 := forall_byte (by decide +kernel)

theorem Store.Addressed.path_ascii {s : Store} (addressed : s.Addressed) {id : Nat} (reached : s.Reachable id) :
    ∀ b ∈ (s.node id).path, b < 0x80 := by
  induction reached with
  | refl =>
    rw [addressed.root]
    decide
  | @tail p c _ edge ih =>
    rw [addressed.pathed p c edge]
    intro b member
    rcases List.mem_append.mp member with front | slash
    · rcases List.mem_append.mp front with above | name
      · exact ih b above
      · exact name_ascii b ((addressed.named p c edge).2.2 b name)
    · exact (by decide : ∀ b ∈ utf8 "/", b < 0x80) b slash

theorem Tree.boxId_ascii {t : Tree} {id : NodeId} (ascii : ∀ b ∈ t.pathOf id, b < 0x80) :
    t.boxId id = utf8 "n" ++ (t.pathOf id).map Bytes.boxByte := by
  have each : ∀ b : UInt8, b < 0x80 → boxRune (.scalar b.toNat) = Bytes.boxByte b := forall_byte (by decide +kernel)
  rw [boxId, Text.decode_ascii ascii, List.map_map]
  exact congrArg _ (List.map_congr_left fun b member => each b (ascii b member))

namespace Tree

theorem boxId_eq_iff {t : Tree} (addressed : t.store.Addressed) {a b : NodeId} (one : a ∈ t.nodes) (two : b ∈ t.nodes) :
    t.boxId a = t.boxId b ↔ Bytes.Blurred (t.pathOf a) (t.pathOf b) := by
  have ascii : ∀ id ∈ t.nodes, ∀ b ∈ t.pathOf id, b < 0x80 :=
    fun id member => addressed.path_ascii ((addressed.shaped.mem_walk id).mp member)
  rw [boxId_ascii (ascii a one), boxId_ascii (ascii b two), List.append_cancel_left_eq, Bytes.blurred_iff]

-- A drawing is made of the links of its focus. Its boxes stand for one node each exactly if no two nodes that are shown
-- have paths that differ in punctuation alone.
theorem merge_boxes_apart_iff (name : Bytes) (roots : List Bytes) {files : List File} (bindings : Option Catalog)
    (parsed : ∀ f ∈ files, f.document = Document.parse f.text) (focus : NodeId) :
    (merge name roots files bindings).graph focus =
        (merge name roots files bindings).drawing focus ((merge name roots files bindings).links focus) ∧
      ((merge name roots files bindings).Apart focus ↔
        ∀ a ∈ (merge name roots files bindings).shown focus, ∀ b ∈ (merge name roots files bindings).shown focus,
          Bytes.Blurred ((merge name roots files bindings).pathOf a) ((merge name roots files bindings).pathOf b) →
            (merge name roots files bindings).pathOf a = (merge name roots files bindings).pathOf b) := by
  have addressed := merge_addressed name roots bindings parsed
  have walked : ∀ id ∈ (merge name roots files bindings).shown focus, id ∈ (merge name roots files bindings).nodes :=
    fun id member => of_decide_eq_true (List.mem_filter.mp member).2
  refine ⟨graph_links _ focus, fun apart a one b two blurred => ?_, fun told a one b two same => ?_⟩
  · have same := (boxId_eq_iff addressed (walked a one) (walked b two)).mpr blurred
    rw [apart a one b two same]
  · have blurred := (boxId_eq_iff addressed (walked a one) (walked b two)).mp same
    have reached := fun id member => (addressed.shaped.mem_walk id).mp (walked id member)
    exact addressed.path_inj (reached a one) (reached b two) (told a one b two blurred)

def signsText : Bytes := utf8 "/ \x7b u: a-bc \x7b \x7d; ab-c \x7b p = <&u>; \x7d; \x7d;"

def signsFile : File := .ofText (.ofTable []) [] (utf8 "/a.dts") signsText

def signsTree : Tree := merge [] [signsFile.path] [signsFile] none

theorem signs_apart : (signsTree.shown 1).map signsTree.pathOf = [utf8 "/a-bc/", utf8 "/", utf8 "/ab-c/"] ∧
    signsTree.Apart 1 := by
  have paths : (signsTree.shown 1).map signsTree.pathOf = [utf8 "/a-bc/", utf8 "/", utf8 "/ab-c/"] := by cbv
  have told : ∀ p ∈ (signsTree.shown 1).map signsTree.pathOf, ∀ q ∈ (signsTree.shown 1).map signsTree.pathOf,
      Bytes.Blurred p q → p = q := by
    rw [paths]
    decide
  refine ⟨paths, (merge_boxes_apart_iff [] [signsFile.path] none (List.forall_mem_singleton.mpr rfl) 1).2.mpr ?_⟩
  exact fun a one b two => told _ (List.mem_map_of_mem one) _ (List.mem_map_of_mem two)

def twinsText : Bytes := utf8 "/ \x7b a-b \x7b \x7d; a_b \x7b \x7d; \x7d;"

def twinsFile : File := .ofText (.ofTable []) [] (utf8 "/a.dts") twinsText

def twinsTree : Tree := merge [] [twinsFile.path] [twinsFile] none

theorem twins_drawn_as_one : twinsTree.shown Store.rootId = [0, 1, 2] ∧
    [0, 1, 2].map twinsTree.pathOf = [utf8 "/", utf8 "/a-b/", utf8 "/a_b/"] ∧
    [0, 1, 2].map twinsTree.boxId = [utf8 "n_", utf8 "n_a_b_", utf8 "n_a_b_"] ∧ ¬ twinsTree.Apart Store.rootId := by
  obtain ⟨shown, paths, names⟩ : twinsTree.shown Store.rootId = [0, 1, 2] ∧
      [0, 1, 2].map twinsTree.pathOf = [utf8 "/", utf8 "/a-b/", utf8 "/a_b/"] ∧
      [0, 1, 2].map twinsTree.boxId = [utf8 "n_", utf8 "n_a_b_", utf8 "n_a_b_"] := by cbv
  refine ⟨shown, paths, names, fun apart => ?_⟩
  have same : twinsTree.boxId 1 = twinsTree.boxId 2 := by
    have ends := List.cons.inj (List.cons.inj names).2
    exact ends.1.trans (List.cons.inj ends.2).1.symm
  exact absurd (apart 1 (by rw [shown]; decide) 2 (by rw [shown]; decide) same) (by decide)

end Tree
end DeviceTree
