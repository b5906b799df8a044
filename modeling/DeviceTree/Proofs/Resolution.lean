import DeviceTree.Proofs.Paths
import DeviceTree.Proofs.References

namespace DeviceTree
open Lexer

namespace Bytes

theorem split_ne_nil (sep : UInt8) (text : Bytes) : split sep text ≠ [] := by
  induction text with
  | nil => simp [split]
  | cons b rest ih =>
    rw [split]
    split
    · simp
    · split
      · simp
      · simp

theorem split_append (sep : UInt8) (front back : Bytes) :
    split sep (front ++ sep :: back) = split sep front ++ split sep back := by
  induction front with
  | nil => simp [split]
  | cons b rest ih =>
    rw [List.cons_append, split, split, ih]
    by_cases same : b = sep
    · simp [same]
    · simp only [same, if_false]
      cases pieces : split sep rest with
      | nil => exact absurd pieces (split_ne_nil sep rest)
      | cons piece more => rfl

theorem split_plain {sep : UInt8} {text : Bytes} (plain : sep ∉ text) : split sep text = [text] := by
  induction text with
  | nil => rfl
  | cons b rest ih =>
    rw [List.mem_cons, not_or] at plain
    rw [split, if_neg (Ne.symm plain.1), ih plain.2]

end Bytes

namespace Store

-- The names on a path. Slashes that stand together count as one.
def segments (path : Bytes) : List Bytes := (Bytes.split 0x2f path).filter (· != [])

theorem segments_append (front back : Bytes) : segments (front ++ 0x2f :: back) = segments front ++ segments back := by
  rw [segments, Bytes.split_append, List.filter_append]
  rfl

theorem segments_name {name : Bytes} (proper : IsName name) : segments name = [name] := by
  rw [segments, Bytes.split_plain (not_slash_of_name proper)]
  simp [proper.1]

theorem segments_slash (path : Bytes) : segments (path ++ utf8 "/") = segments path := by
  have empty : segments [] = [] := by decide
  have more := segments_append path []
  rw [empty, List.append_nil] at more
  exact more

variable {s : Store}

theorem find_absolute {path : Bytes} (absolute : Path.isAbsolute path = true) :
    s.find? path = (segments path).foldlM s.step? rootId := by
  rw [find?, if_pos absolute]
  rfl

theorem find_with_slash {path : Bytes} (filled : path ≠ []) : s.find? (path ++ utf8 "/") = s.find? path := by
  have same : Path.isAbsolute (path ++ utf8 "/") = Path.isAbsolute path := by
    rw [Path.isAbsolute, Path.isAbsolute, List.head?_append_of_ne_nil _ filled]
  by_cases absolute : Path.isAbsolute path = true
  · rw [find_absolute (same.trans absolute), find_absolute absolute, segments_slash]
  · rw [find?, find?, same, if_neg absolute, if_neg absolute]

theorem Addressed.segments_path (addressed : s.Addressed) {id : Nat} (reached : s.Reachable id) :
    (segments (s.node id).path).foldlM s.step? rootId = some id := by
  induction reached with
  | refl =>
    rw [addressed.root]
    rfl
  | @tail p c above edge ih =>
    obtain ⟨front, path⟩ := addressed.path_slash above
    have named := addressed.named p c edge
    have longer : segments (s.node c).path = segments (s.node p).path ++ [(s.node c).name] := by
      rw [addressed.pathed p c edge, segments_slash, path, List.append_assoc, List.singleton_append, segments_append,
        segments_name named, ← segments_slash front]
      rfl
    have step : s.step? p (s.node c).name = some c := by
      rw [step?, addressed.shaped.childNamed_of_edge edge]
    rw [longer, List.foldlM_append, ih]
    simp [step]

theorem Addressed.find_path (addressed : s.Addressed) {id : Nat} (reached : s.Reachable id) :
    s.find? (s.node id).path = some id := by
  obtain ⟨rest, absolute⟩ := addressed.path_absolute reached
  rw [find_absolute (by rw [absolute]; rfl)]
  exact addressed.segments_path reached

end Store

namespace Tree

theorem atPath_eq_find {t : Tree} (addressed : t.store.Addressed) (tabled : t.Tabled) {path : Bytes} (filled : path ≠ []) :
    t.atPath? path = t.store.find? path := by
  have whole : t.store.find? (if Bytes.endsWith path (utf8 "/") then path else path ++ utf8 "/") = t.store.find? path := by
    split
    · rfl
    · exact Store.find_with_slash filled
  rw [← whole]
  unfold atPath?
  dsimp only
  split
  · rename_i id listed
    obtain ⟨member, same⟩ := (exactly_iff addressed tabled _ id).mp listed
    rw [← same]
    exact (addressed.find_path ((addressed.shaped.mem_walk id).mp member)).symm
  · rfl

-- A label has no brace in front, so it is not taken for a path.
theorem find_label (t : Tree) {label : Bytes} (proper : label = [] ∨ IsLabelRef label) :
    t.find? (0x26 :: label) = t.label? label := by
  have other : Bytes.dropLead? (utf8 "&\x7b") (0x26 :: label) = none := by
    rcases proper with rfl | ⟨-, named⟩
    · rfl
    · cases label with
      | nil => rfl
      | cons b rest =>
        have apart : 0x7b ≠ b := by
          rintro rfl
          exact absurd (named 0x7b List.mem_cons_self) (by decide)
        change (if (0x7b : UInt8) = b then some rest else none) = none
        rw [if_neg apart]
  unfold find?
  rw [other]
  rfl

theorem find_text {t : Tree} {target : Target} (spelled : target.Spelled) : t.find? target.text = t.resolve target := by
  cases target with
  | label l => exact find_label t spelled
  | path p => exact find_braces t p

theorem resolve_eq_lookup {t : Tree} {m : Merge} (tabled : t.Tabled) (store : t.store = m.store)
    (labels : t.labels = m.labels) (addressed : m.store.Addressed) {target : Target} (spelled : target.Spelled) :
    t.resolve target = m.lookup target := by
  cases target with
  | label l =>
    change (t.labels.find? (·.name = l)).map (·.node) = (m.labels.find? (·.name = l)).map (·.node)
    rw [labels]
  | path p =>
    change t.atPath? p = m.store.find? p
    rw [← store] at addressed ⊢
    exact atPath_eq_find addressed tabled spelled.1

-- Of the tree that a merge has built, the merge itself, the tree and the text of a reference say the same.
theorem merge_resolves (name : Bytes) (roots : List Bytes) {files : List File} (bindings : Option Catalog)
    (parsed : ∀ f ∈ files, f.document = Document.parse f.text) {source : Bytes} {r : Ref}
    (mentioned : r ∈ (Document.parse source).refs) :
    (merge name roots files bindings).resolve r.target = (roots.foldl (Merge.addRoot files) .empty).lookup r.target ∧
      (merge name roots files bindings).find? r.text = (merge name roots files bindings).resolve r.target := by
  have spelled := Document.parse_named_refs source r mentioned
  have tabled : (merge name roots files bindings).Tabled := rfl
  exact ⟨resolve_eq_lookup tabled rfl rfl (merge_addressed name roots bindings parsed) spelled, find_text spelled⟩

-- Slashes too many and no unit address, while another child has the name without one.

def elidedText : Bytes :=
  utf8 "/ \x7b uart \x7b \x7d; soc \x7b uart@0 \x7b \x7d; \x7d; /delete-node/ uart; p = &\x7b//soc/uart\x7d; \x7d;"

def elidedFile : File := .ofText (.ofTable []) [] (utf8 "/a.dts") elidedText

def elidedTree : Tree := merge [] [elidedFile.path] [elidedFile] none

theorem elided_resolves : ∃ r ∈ (Document.parse elidedText).refs, r.text = utf8 "&\x7b//soc/uart\x7d" ∧
    elidedTree.resolve r.target = some 3 ∧
    elidedTree.resolve r.target = ([elidedFile.path].foldl (Merge.addRoot [elidedFile]) .empty).lookup r.target ∧
    elidedTree.find? r.text = elidedTree.resolve r.target := by
  -- Both in one evaluation, as both begin with the parse of the text.
  obtain ⟨only, found⟩ : (Document.parse elidedText).refs.map Ref.target = [.path (utf8 "//soc/uart")] ∧
      elidedTree.resolve (.path (utf8 "//soc/uart")) = some 3 := by cbv
  obtain ⟨r, member, target⟩ := List.mem_map.mp (only ▸ List.mem_singleton_self (Target.path (utf8 "//soc/uart")))
  exact ⟨r, member, by rw [Ref.text, target]; rfl, target ▸ found,
    merge_resolves [] [elidedFile.path] none (List.forall_mem_singleton.mpr rfl) member⟩

end Tree
end DeviceTree
