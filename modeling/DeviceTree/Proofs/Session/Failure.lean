import DeviceTree.Proofs.Session.Convergence
import DeviceTree.Proofs.Session.Shadows

namespace DeviceTree.Session

variable {env : Environment} {s t u v : Session}

section Opening

variable {name base : Bytes} {overlays : List Bytes}

end Opening

section Telling

variable {n : ContextId} {p : Bytes} {f : File}

theorem Mirrors.opening {c c' : Context} (mirrors : Mirrors n u v) (size : t.contexts.size = s.contexts.size + 1)
    (past : n ≤ s.contexts.size) (member : s.contexts.size ∈ u.enrolled) (shown : u.context? s.contexts.size = some c)
    (shown' : v.context? t.contexts.size = some c') : c' = c := by
  have same := mirrors.contexts _ member
  rw [renumber_past past, ← size, shown', shown] at same
  exact Option.some.inj same

end Telling

def discards (ids : List ContextId) : List Move := ids.map fun id => .call (.remove id)

theorem discards_renumber (n : ContextId) (ids : List ContextId) :
    (discards ids).map (Move.renumber n) = discards (ids.map (renumber n)) := by
  rw [discards, discards, List.map_map, List.map_map]
  rfl

-- What stays when contexts are discarded.
structure Discarded (s t : Session) : Prop where
  rest : AtRest t
  texts : t.openText? = s.openText?
  fewer : ∀ p, s.fileAt? p = none → t.fileAt? p = none
  kept : ∀ p, s.isUsed p = false → t.isUsed p = false ∧ t.fileAt? p = s.fileAt? p
  size : t.contexts.size = s.contexts.size

theorem follows_discards {ids : List ContextId} (rest : AtRest s) (follows : Follows env s (discards ids) t) :
    Discarded s t ∧ ∀ id ∈ t.enrolled, id ∈ s.enrolled ∧ id ∉ ids := by
  induction ids generalizing t with
  | nil =>
    cases follows
    exact ⟨⟨rest, rfl, fun _ => id, fun _ unused => ⟨unused, rfl⟩, rfl⟩, fun id member => ⟨member, List.not_mem_nil⟩⟩
  | cons id ids ih =>
    cases follows with
    | @call _ m _ _ before settles =>
      obtain ⟨discarded, listed⟩ := ih before
      obtain ⟨outcome, rested⟩ := settles_outcome discarded.rest settles
      cases outcome with
      | kept absent same =>
        rw [same]
        refine ⟨discarded, fun j member => ⟨(listed j member).1, ?_⟩⟩
        rw [List.mem_cons, not_or]
        exact ⟨fun mine => absent (mine ▸ member), (listed j member).2⟩
      | @removed _ c member found gains enrolled contexts =>
        have fewer : ∀ j ∈ t.enrolled, j ∈ m.enrolled ∧ id ≠ j := by
          intro j there
          rw [enrolled, List.mem_filter, bne_iff_ne] at there
          exact ⟨there.1, there.2.symm⟩
        have used : ∀ p, t.isUsed p = true → m.isUsed p = true := by
          refine fun p => isUsed_kept fun j there => ?_
          rw [contexts, if_neg (fewer j there).2]
          exact ⟨(fewer j there).1, rfl⟩
        refine ⟨⟨rested, ?_, fun p absent => ?_, fun p unused => ?_, ?_⟩, fun j there => ?_⟩
        · rw [funext gains.texts, discarded.texts]
        · rw [gains.files, gained_none, discarded.fewer p absent, ite_self]
        · obtain ⟨unused, same⟩ := discarded.kept p unused
          refine ⟨?_, ?_⟩
          · rw [← Bool.not_eq_true] at unused ⊢
            exact fun there => unused (used p there)
          · rw [gains.files, gained_none, if_neg, same]
            rintro ⟨inside, -⟩
            rw [isUsed_iff.mpr ⟨id, member, c, found, inside⟩] at unused
            cases unused
        · rw [size_of_marking found contexts, discarded.size]
        · obtain ⟨there, other⟩ := fewer j there
          obtain ⟨old, rest⟩ := listed j there
          rw [List.mem_cons, not_or]
          exact ⟨old, other.symm, rest⟩

structure Emptied (q : Bytes) (s t : Session) : Prop where
  rest : AtRest t
  texts : ∀ p, p = q ∨ s.openText? p = none → t.openText? p = none
  fewer : ∀ p, p = q ∨ s.fileAt? p = none → t.fileAt? p = none
  kept : ∀ p, p ≠ q → s.isUsed p = false → t.fileAt? p = s.fileAt? p
  size : t.contexts.size = s.contexts.size

theorem follows_emptied {q : Bytes} (rest : AtRest s) (follows : Follows env s (.call (.close q) :: discards s.enrolled) t) :
    Emptied q s t := by
  cases follows with
  | @call _ m _ _ before settles =>
    obtain ⟨discarded, listed⟩ := follows_discards rest before
    have nobody : m.enrolled = [] := List.eq_nil_iff_forall_not_mem.mpr fun id member => (listed id member).2 (listed id member).1
    obtain ⟨outcome, rested⟩ := settles_outcome discarded.rest settles
    cases outcome with
    | reread used =>
      rw [isUsed, nobody] at used
      cases used
    | dropped _ gains revises =>
      refine ⟨rested, fun p => ?_, fun p => ?_, fun p other unused => ?_, revises.size.trans discarded.size⟩
      · rintro (rfl | closed)
        · rw [gains.texts, Function.update_self]
        · rw [gains.texts, Function.update_apply, discarded.texts, closed, ite_self]
      · rintro (rfl | absent)
        · rw [gains.files, gained_none, Function.update_self]
        · rw [gains.files, gained_none, Function.update_apply, discarded.fewer p absent, ite_self]
      · rw [gains.files, gained_none, Function.update_of_ne other, (discarded.kept p unused).2]

theorem Gains.onDisk {names done : Bytes → Prop} {p : Bytes} {f : File} (rest : AtRest s)
    (gains : Gains env s.openText? s.fileAt? names done t) (absent : s.fileAt? p = none) (there : t.fileAt? p = some f) :
    Session.onDisk env p = some f :=
  (freshOf_closed (unopened rest.typed absent)).symm.trans (gains.added absent there).2

-- Without contexts the other files go, and a file that nobody uses is there still.
theorem Mirrors.emptied {q : Bytes} {m m' : Session} (mirrors : Mirrors s.contexts.size s t) (rest : AtRest s)
    (rest' : AtRest t) (follows : Follows env s (.call (.close q) :: discards s.enrolled) m)
    (follows' : Follows (env.renumber s.contexts.size) t
      ((.call (.close q) :: discards s.enrolled).map (Move.renumber s.contexts.size)) m') :
    Emptied q s m ∧ Emptied q t m' := by
  rw [List.map_cons, discards_renumber, ← mirrors.enrolled] at follows'
  exact ⟨follows_emptied rest follows, follows_emptied rest' follows'⟩

end DeviceTree.Session
