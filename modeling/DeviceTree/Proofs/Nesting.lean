import DeviceTree.Proofs.Declarations

namespace DeviceTree

structure BracesBalanced (word : List TokenKind) : Prop where
  sane : ∀ front, front <+: word → front.count .rbrace ≤ front.count .lbrace
  settled : word.count .lbrace = word.count .rbrace

theorem balanced_inits {word : List TokenKind} :
    (∀ front ∈ word.inits, front.count .rbrace ≤ front.count .lbrace) ∧ word.count .lbrace = word.count .rbrace ↔
      BracesBalanced word := by
  simp only [List.mem_inits]
  exact ⟨fun both => ⟨both.1, both.2⟩, fun balanced => ⟨balanced.sane, balanced.settled⟩⟩

instance (word : List TokenKind) : Decidable (BracesBalanced word) := decidable_of_iff _ balanced_inits

def nest : Nat → TokenKind → Option Nat
  | d, .lbrace => some (d + 1)
  | 0, .rbrace => none
  | d + 1, .rbrace => some d
  | d, _ => some d

def depth (d : Nat) (word : List TokenKind) : Option Nat := word.foldlM nest d

theorem depth_append (d : Nat) (front back : List TokenKind) :
    depth d (front ++ back) = (depth d front).bind fun e => depth e back := List.foldlM_append

theorem depth_cons (d : Nat) (k : TokenKind) (rest : List TokenKind) :
    depth d (k :: rest) = (nest d k).bind fun e => depth e rest := List.foldlM_cons

theorem depth_eq_some {d e : Nat} {word : List TokenKind} : depth d word = some e ↔
    (∀ front, front <+: word → front.count .rbrace ≤ d + front.count .lbrace) ∧
      e + word.count .rbrace = d + word.count .lbrace := by
  induction word generalizing d with
  | nil => simp [depth, eq_comm]
  | cons k rest ih =>
    have prefixes : (∀ front, front <+: k :: rest → front.count .rbrace ≤ d + front.count .lbrace) ↔
        ∀ front, front <+: rest → (k :: front).count .rbrace ≤ d + (k :: front).count .lbrace :=
      forall_prefix_cons_iff (Nat.zero_le _)
    rw [depth_cons, prefixes]
    by_cases opens : k = .lbrace
    · subst opens
      simp only [nest, Option.bind_some, ih, List.count_cons]
      grind
    by_cases closes : k = .rbrace
    · subst closes
      cases d with
      | zero =>
        constructor
        · intro none
          cases none
        · rintro ⟨all, -⟩
          exact absurd (all [] List.nil_prefix) (by decide)
      | succ d =>
        simp only [nest, Option.bind_some, ih, List.count_cons]
        grind
    · have same : nest d k = some d := by cases k <;> simp_all [nest]
      simp only [same, Option.bind_some, ih, List.count_cons]
      grind

theorem balanced_iff {word : List TokenKind} : BracesBalanced word ↔ depth 0 word = some 0 := by
  rw [depth_eq_some]
  simp only [Nat.zero_add]
  exact ⟨fun balanced => ⟨balanced.sane, balanced.settled.symm⟩, fun both => ⟨both.1, both.2.symm⟩⟩

theorem BracesBalanced.depth {word : List TokenKind} (balanced : BracesBalanced word) (d : Nat) : depth d word = some d := by
  rw [depth_eq_some]
  exact ⟨fun front before => (balanced.sane front before).trans (Nat.le_add_left _ _), by rw [balanced.settled]⟩

theorem BracesBalanced.block {word : List TokenKind} (balanced : BracesBalanced word) (d : Nat) (rest : List TokenKind) :
    DeviceTree.depth d (.lbrace :: (word ++ .rbrace :: rest)) = DeviceTree.depth d rest := by
  rw [depth_cons, nest, Option.bind_some, depth_append, balanced.depth, Option.bind_some, depth_cons, nest,
    Option.bind_some]

structure Token.Is (t : Token) (kind : TokenKind) : Prop where
  kind : t.kind = kind
  proper : t.start < t.stop

def Token.isBrace (t : Token) : Bool := t.kind = .lbrace || t.kind = .rbrace

structure Shell (low : Position) (n : NodeDecl) (opening closing : Token) : Prop where
  shut : n.head.closed = true
  order : low ≤ n.head.nameRange.stop
  behind : n.head.nameRange.stop ≤ opening.start
  opens : opening.Is .lbrace
  closes : closing.Is .rbrace
  before : closing.stop ≤ n.head.range.stop

namespace Shell

variable {low lower : Position} {n : NodeDecl} {opening closing : Token}

theorem from_lower (order : lower ≤ low) (shell : Shell low n opening closing) : Shell lower n opening closing :=
  { shell with order := order.trans shell.order }

theorem low_le (shell : Shell low n opening closing) : low ≤ opening.start := shell.order.trans shell.behind

theorem low_le_stop (shell : Shell low n opening closing) : low ≤ opening.stop := shell.low_le.trans shell.opens.proper.le

theorem le_end (shell : Shell low n opening closing) : closing.start ≤ n.head.range.stop :=
  shell.closes.proper.le.trans shell.before

end Shell

-- How the braces between two positions go with some nodes, in the order of the source. What is between the two braces
-- of a closed node goes with its children, which are closed too. The opening brace of any other node is a stray. Below a
-- node a closing brace is one only if it is excused.
inductive Weave (excused : Token → Prop) : (top : Bool) → Position → List NodeDecl → List Token → Position → Prop where
  | done {top : Bool} {low high : Position} (order : low ≤ high) : Weave excused top low [] [] high
  | stray {top : Bool} {low high : Position} {nodes : List NodeDecl} {t : Token} {ts : List Token}
      (order : low ≤ t.start) (proper : t.start < t.stop) (kind : t.kind = .rbrace → top = true ∨ excused t)
      (rest : Weave excused top t.stop nodes ts high) : Weave excused top low nodes (t :: ts) high
  | closed {top : Bool} {low high : Position} {n : NodeDecl} {nodes : List NodeDecl} {opening closing : Token}
      {inner ts : List Token} (shell : Shell low n opening closing)
      (inside : Weave excused false opening.stop n.children inner closing.start)
      (shut : ∀ m ∈ n.children, m.head.closed = true) (rest : Weave excused top n.head.range.stop nodes ts high) :
      Weave excused top low (n :: nodes) (opening :: (inner ++ closing :: ts)) high
  | unclosed {top : Bool} {low mid high : Position} {n : NodeDecl} {nodes : List NodeDecl} {inner ts : List Token}
      (left : n.head.closed = false) (inside : Weave excused false low n.children inner mid)
      (rest : Weave excused top mid nodes ts high) : Weave excused top low (n :: nodes) (inner ++ ts) high

namespace Weave

variable {excused : Token → Prop} {top : Bool} {low mid high : Position} {nodes more : List NodeDecl} {ts us : List Token}

theorem imp {allowed : Token → Prop} (all : ∀ t, excused t → allowed t) (weave : Weave excused top low nodes ts high) :
    Weave allowed top low nodes ts high := by
  induction weave with
  | done order => exact .done order
  | stray order proper kind _ ih => exact .stray order proper (fun close => (kind close).imp_right (all _)) ih
  | closed shell _ shut _ inside ih => exact .closed shell inside shut ih
  | unclosed left _ _ inside ih => exact .unclosed left inside ih

theorem from_lower {lower : Position} (order : lower ≤ low) (weave : Weave excused top low nodes ts high) :
    Weave excused top lower nodes ts high := by
  induction weave generalizing lower with
  | done inOrder => exact .done (order.trans inOrder)
  | stray inOrder proper kind rest _ => exact .stray (order.trans inOrder) proper kind rest
  | closed shell inside shut rest _ _ => exact .closed (shell.from_lower order) inside shut rest
  | unclosed left _ rest ih _ => exact .unclosed left (ih order) rest

theorem append (one : Weave excused top low nodes ts mid) (two : Weave excused top mid more us high) :
    Weave excused top low (nodes ++ more) (ts ++ us) high := by
  induction one with
  | done order => exact two.from_lower order
  | stray order proper kind _ ih => exact .stray order proper kind (ih two)
  | closed shell inside shut _ _ ih =>
    rw [List.cons_append, List.cons_append, List.append_assoc, List.cons_append]
    exact .closed shell inside shut (ih two)
  | unclosed left inside _ _ ih =>
    rw [List.cons_append, List.append_assoc]
    exact .unclosed left inside (ih two)

theorem le (weave : Weave excused top low nodes ts high) : low ≤ high := by
  induction weave with
  | done order => exact order
  | stray order proper _ _ ih => exact order.trans (proper.le.trans ih)
  | closed shell _ _ _ inside ih => exact shell.low_le_stop.trans (inside.trans (shell.le_end.trans ih))
  | unclosed _ _ _ inside ih => exact inside.trans ih

theorem within (weave : Weave excused top low nodes ts high) :
    ∀ t ∈ ts, low ≤ t.start ∧ t.start < t.stop ∧ t.stop ≤ high := by
  induction weave with
  | done => exact List.forall_mem_nil _
  | stray order proper _ rest ih =>
    refine List.forall_mem_cons.mpr ⟨⟨order, proper, rest.le⟩, fun u member => ?_⟩
    exact ⟨order.trans (proper.le.trans (ih u member).1), (ih u member).2⟩
  | closed shell inside _ rest here ih =>
    have upper := shell.le_end.trans rest.le
    intro u member
    simp only [List.mem_cons, List.mem_append] at member
    rcases member with rfl | between | rfl | later
    · exact ⟨shell.low_le, shell.opens.proper, inside.le.trans upper⟩
    · exact ⟨shell.low_le_stop.trans (here u between).1, (here u between).2.1, (here u between).2.2.trans upper⟩
    · exact ⟨shell.low_le_stop.trans inside.le, shell.closes.proper, shell.before.trans rest.le⟩
    · exact ⟨shell.low_le_stop.trans (inside.le.trans (shell.le_end.trans (ih u later).1)), (ih u later).2⟩
  | unclosed _ inside rest here ih =>
    intro u member
    rcases List.mem_append.mp member with between | later
    · exact ⟨(here u between).1, (here u between).2.1, (here u between).2.2.trans rest.le⟩
    · exact ⟨inside.le.trans (ih u later).1, (ih u later).2⟩

theorem le_name (weave : Weave excused top low nodes ts high) {n : NodeDecl} (member : n ∈ nodes)
    (shut : n.head.closed = true) : low ≤ n.head.nameRange.stop := by
  induction weave with
  | done => cases member
  | stray order proper _ _ ih => exact order.trans (proper.le.trans (ih member))
  | closed shell inside _ _ _ ih =>
    rcases List.mem_cons.mp member with rfl | later
    · exact shell.order
    · exact shell.low_le_stop.trans (inside.le.trans (shell.le_end.trans (ih later)))
  | unclosed left inside _ _ ih =>
    rcases List.mem_cons.mp member with rfl | later
    · exact absurd (shut.symm.trans left) (by decide)
    · exact inside.le.trans (ih later)

end Weave

def NodeHead.Holds (head : NodeHead) (t : Token) : Prop := head.nameRange.stop ≤ t.start ∧ t.stop ≤ head.range.stop

instance (head : NodeHead) (t : Token) : Decidable (head.Holds t) :=
  inferInstanceAs (Decidable (head.nameRange.stop ≤ t.start ∧ t.stop ≤ head.range.stop))

def heldBy (all : List Token) (n : NodeDecl) : List Token := all.filter fun t => n.head.Holds t

def between (all : List Token) (n : NodeDecl) : List Token := (heldBy all n).tail.dropLast

-- The braces of a node that no node below it holds.
def straysOf (nodes : List NodeDecl) (ts : List Token) : List Token := ts.filter fun t => ∀ m ∈ nodes, ¬ m.head.Holds t

theorem straysOf_cons {n : NodeDecl} {nodes : List NodeDecl} {ts us : List Token} (held : ∀ t ∈ ts, n.head.Holds t)
    (free : ∀ t ∈ us, ¬ n.head.Holds t) : straysOf (n :: nodes) (ts ++ us) = straysOf nodes us := by
  have none : straysOf (n :: nodes) ts = [] := by
    simp only [straysOf, List.filter_eq_nil_iff, decide_eq_true_eq]
    exact fun t member outside => outside n List.mem_cons_self (held t member)
  have same : straysOf (n :: nodes) us = straysOf nodes us := by
    refine List.filter_congr fun t member => ?_
    simp [free t member]
  rw [straysOf, List.filter_append, ← straysOf, ← straysOf, none, same, List.nil_append]

def word (ts : List Token) : List TokenKind := ts.map Token.kind

structure Sits (all : List Token) (low : Position) (ts : List Token) (high : Position) : Prop where
  whole : ∃ front back, all = front ++ (ts ++ back) ∧ (∀ t ∈ front, t.start < t.stop ∧ t.stop ≤ low) ∧
    ∀ t ∈ back, high ≤ t.start ∧ t.start < t.stop

theorem Sits.part {all : List Token} (front ts back : List Token) {low lower upper high : Position}
    (sits : Sits all low (front ++ (ts ++ back)) high) (first : low ≤ lower) (last : upper ≤ high)
    (early : ∀ t ∈ front, t.start < t.stop ∧ t.stop ≤ lower) (late : ∀ t ∈ back, upper ≤ t.start ∧ t.start < t.stop) :
    Sits all lower ts upper := by
  obtain ⟨before, behind, rfl, earlier, later⟩ := sits.whole
  refine ⟨before ++ front, back ++ behind, by simp only [List.append_assoc], fun t member => ?_, fun t member => ?_⟩
  · rcases List.mem_append.mp member with outside | inside
    · exact ⟨(earlier t outside).1, (earlier t outside).2.trans first⟩
    · exact early t inside
  · rcases List.mem_append.mp member with inside | outside
    · exact late t inside
    · exact ⟨last.trans (later t outside).1, (later t outside).2⟩

theorem Sits.front {all ts us : List Token} {low mid high : Position} (sits : Sits all low (ts ++ us) high)
    (upper : mid ≤ high) (late : ∀ t ∈ us, mid ≤ t.start ∧ t.start < t.stop) : Sits all low ts mid :=
  .part [] ts us sits le_rfl upper (List.forall_mem_nil _) late

theorem Sits.back {all ts us : List Token} {low mid high : Position} (sits : Sits all low (ts ++ us) high)
    (lower : low ≤ mid) (early : ∀ t ∈ ts, t.start < t.stop ∧ t.stop ≤ mid) : Sits all mid us high :=
  .part ts us [] (by rwa [List.append_nil]) lower le_rfl early (List.forall_mem_nil _)

theorem Sits.tail {all ts : List Token} {t : Token} {low high : Position} (sits : Sits all low (t :: ts) high)
    (order : low ≤ t.start) (proper : t.start < t.stop) : Sits all t.stop ts high := by
  have split : Sits all low ([t] ++ ts) high := sits
  exact split.back (order.trans proper.le) (by simpa using proper)

theorem Sits.held {all ts : List Token} {n : NodeDecl} (sits : Sits all n.head.nameRange.stop ts n.head.range.stop)
    (inside : ∀ t ∈ ts, n.head.Holds t) : heldBy all n = ts := by
  obtain ⟨front, back, rfl, early, late⟩ := sits.whole
  have none : front.filter (fun t => n.head.Holds t) = [] := by
    simp only [List.filter_eq_nil_iff, decide_eq_true_eq]
    intro t member holds
    exact absurd (holds.1.trans_lt (early t member).1) (not_lt.mpr (early t member).2)
  have nothing : back.filter (fun t => n.head.Holds t) = [] := by
    simp only [List.filter_eq_nil_iff, decide_eq_true_eq]
    intro t member holds
    exact absurd ((late t member).2.trans_le holds.2) (not_lt.mpr (late t member).1)
  have everything : ts.filter (fun t => n.head.Holds t) = ts := by
    simpa only [List.filter_eq_self, decide_eq_true_eq] using inside
  rw [heldBy, List.filter_append, List.filter_append, none, nothing, everything, List.nil_append, List.append_nil]

namespace Shell

variable {excused : Token → Prop} {top : Bool} {low high : Position} {n : NodeDecl} {nodes : List NodeDecl}
  {all inner ts : List Token} {opening closing : Token}

theorem holds (shell : Shell low n opening closing)
    (inside : Weave excused false opening.stop n.children inner closing.start) :
    ∀ t ∈ opening :: (inner ++ [closing]), t.start < t.stop ∧ n.head.Holds t := by
  intro t member
  simp only [List.mem_cons, List.mem_append, List.not_mem_nil, or_false] at member
  rcases member with rfl | middle | rfl
  · exact ⟨shell.opens.proper, shell.behind, inside.le.trans shell.le_end⟩
  · obtain ⟨low, proper, high⟩ := inside.within t middle
    exact ⟨proper, shell.behind.trans (shell.opens.proper.le.trans low), high.trans shell.le_end⟩
  · exact ⟨shell.closes.proper, shell.behind.trans (shell.opens.proper.le.trans inside.le), shell.before⟩

theorem split (opening closing : Token) (inner ts : List Token) :
    opening :: (inner ++ closing :: ts) = opening :: (inner ++ [closing]) ++ ts := by simp

theorem strays (shell : Shell low n opening closing)
    (inside : Weave excused false opening.stop n.children inner closing.start)
    (rest : Weave excused top n.head.range.stop nodes ts high) :
    straysOf (n :: nodes) (opening :: (inner ++ closing :: ts)) = straysOf nodes ts := by
  rw [split]
  refine straysOf_cons (fun t member => (shell.holds inside t member).2) fun t member held => ?_
  obtain ⟨first, proper, -⟩ := rest.within t member
  exact absurd (proper.trans_le held.2) (not_lt.mpr first)

end Shell

structure Encloses (excused : Token → Prop) (all : List Token) (n : NodeDecl) (opening : Token) (inner : List Token)
    (closing : Token) : Prop where
  opens : opening.Is .lbrace
  closes : closing.Is .rbrace
  held : heldBy all n = opening :: (inner ++ [closing])
  sits : Sits all opening.stop inner closing.start
  inside : Weave excused false opening.stop n.children inner closing.start
  shut : ∀ m ∈ n.children, m.head.closed = true

theorem Encloses.between_eq {excused : Token → Prop} {all inner : List Token} {n : NodeDecl} {opening closing : Token}
    (encloses : Encloses excused all n opening inner closing) : between all n = inner := by
  rw [between, encloses.held, List.tail_cons, List.dropLast_concat]

theorem Shell.encloses {excused : Token → Prop} {top : Bool} {all inner ts : List Token} {low high : Position}
    {n : NodeDecl} {nodes : List NodeDecl} {opening closing : Token} (shell : Shell low n opening closing)
    (inside : Weave excused false opening.stop n.children inner closing.start)
    (shut : ∀ m ∈ n.children, m.head.closed = true) (rest : Weave excused top n.head.range.stop nodes ts high)
    (sits : Sits all low (opening :: (inner ++ closing :: ts)) high) :
    Encloses excused all n opening inner closing ∧ Sits all n.head.range.stop ts high := by
  have later : ∀ t ∈ ts, n.head.range.stop ≤ t.start ∧ t.start < t.stop :=
    fun t member => ⟨(rest.within t member).1, (rest.within t member).2.1⟩
  have held := shell.holds inside
  rw [Shell.split] at sits
  have whole : Sits all n.head.nameRange.stop (opening :: (inner ++ [closing])) n.head.range.stop :=
    .part [] _ ts sits shell.order rest.le (List.forall_mem_nil _) later
  have center : Sits all opening.stop inner closing.start := by
    refine .part [opening] inner [closing] whole (shell.behind.trans shell.opens.proper.le) shell.le_end ?_ ?_
    · simpa using shell.opens.proper
    · simpa using shell.closes.proper
  refine ⟨⟨shell.opens, shell.closes, whole.held fun t member => (held t member).2, center, inside, shut⟩, ?_⟩
  exact sits.back (shell.low_le_stop.trans (inside.le.trans shell.le_end))
    fun t member => ⟨(held t member).1, (held t member).2.2⟩

def subtree (nodes : List NodeDecl) : List NodeDecl := nodes.flatMap fun n => n :: nodesIn n.body

theorem nodesIn_children (n : NodeDecl) : nodesIn n.body = subtree n.children := by
  obtain ⟨head, stmts⟩ := n
  unfold NodeDecl.children
  dsimp only
  induction stmts with
  | nil => simp [nodesIn, subtree]
  | cons stmt rest ih => cases stmt <;> simp [nodesIn, subtree, ih]

theorem subtree_cons (n : NodeDecl) (nodes : List NodeDecl) :
    subtree (n :: nodes) = n :: (subtree n.children ++ subtree nodes) := by
  rw [subtree, List.flatMap_cons, nodesIn_children]
  rfl

namespace Weave

variable {excused : Token → Prop} {top : Bool} {low high : Position} {n : NodeDecl} {nodes : List NodeDecl}
  {all ts : List Token}

theorem encloses (weave : Weave excused top low nodes ts high) (sits : Sits all low ts high) (member : n ∈ subtree nodes)
    (shut : n.head.closed = true) : ∃ opening inner closing, Encloses excused all n opening inner closing := by
  induction weave with
  | done => cases member
  | stray order proper _ _ ih => exact ih (sits.tail order proper) member
  | closed shell inside every rest here later =>
    obtain ⟨encloses, behind⟩ := shell.encloses inside every rest sits
    rw [subtree_cons] at member
    rcases List.mem_cons.mp member with rfl | deeper
    · exact ⟨_, _, _, encloses⟩
    · rcases List.mem_append.mp deeper with child | sibling
      · exact here encloses.sits child
      · exact later behind sibling
  | unclosed left inside rest here later =>
    rw [subtree_cons] at member
    rcases List.mem_cons.mp member with rfl | deeper
    · exact absurd (shut.symm.trans left) (by decide)
    rcases List.mem_append.mp deeper with child | sibling
    · exact here (sits.front rest.le fun t present => ⟨(rest.within t present).1, (rest.within t present).2.1⟩) child
    · exact later (sits.back inside.le fun t present => (inside.within t present).2) sibling

theorem strays_excused (weave : Weave excused top low nodes ts high) (shut : ∀ n ∈ nodes, n.head.closed = true) :
    ∀ t ∈ straysOf nodes ts, t.kind = .rbrace → top = true ∨ excused t := by
  induction weave with
  | done => exact List.forall_mem_nil _
  | stray order proper kind _ ih =>
    intro u member close
    rcases List.mem_cons.mp (List.mem_of_mem_filter member) with rfl | later
    · exact kind close
    · exact ih shut u (List.mem_filter.mpr ⟨later, (List.mem_filter.mp member).2⟩) close
  | closed shell inside _ rest _ ih =>
    rw [shell.strays inside rest]
    exact ih fun m member => shut m (List.mem_cons_of_mem _ member)
  | unclosed left => exact absurd ((shut _ List.mem_cons_self).symm.trans left) (by decide)

-- If closed nodes are balanced, the braces go up and down as the strays among them do.
theorem depth_strays (weave : Weave excused top low nodes ts high) (sits : Sits all low ts high)
    (shut : ∀ n ∈ nodes, n.head.closed = true) (balanced : ∀ n ∈ nodes, BracesBalanced (word (between all n))) (d : Nat) :
    depth d (word ts) = depth d (word (straysOf nodes ts)) := by
  induction weave generalizing d with
  | done => rfl
  | @stray top low high nodes t ts order proper _ rest ih =>
    have free : ∀ m ∈ nodes, ¬ m.head.Holds t := fun m member holds =>
      absurd (proper.trans_le (rest.le_name member (shut m member))) (not_lt.mpr holds.1)
    rw [straysOf, List.filter_cons_of_pos (by simpa using free), ← straysOf, word, word, List.map_cons, List.map_cons,
      depth_cons, depth_cons]
    exact Option.bind_congr fun e _ => ih (sits.tail order proper) shut balanced e
  | @closed top low high n nodes opening closing inner ts shell inside every rest here later =>
    obtain ⟨encloses, behind⟩ := shell.encloses inside every rest sits
    have block : word (opening :: (inner ++ closing :: ts)) = .lbrace :: (word inner ++ .rbrace :: word ts) := by
      simp [word, shell.opens.kind, shell.closes.kind]
    have own : BracesBalanced (word inner) := by
      have own := balanced n List.mem_cons_self
      rwa [encloses.between_eq] at own
    rw [block, own.block, shell.strays inside rest]
    exact later behind (fun m member => shut m (List.mem_cons_of_mem _ member))
      (fun m member => balanced m (List.mem_cons_of_mem _ member)) d
  | unclosed left => exact absurd ((shut _ List.mem_cons_self).symm.trans left) (by decide)

end Weave

def strayIn (all : List Token) (n : NodeDecl) : List Token := straysOf n.children (between all n)

theorem mem_subtree {n : NodeDecl} {nodes : List NodeDecl} (member : n ∈ nodes) : n ∈ subtree nodes :=
  List.mem_flatMap.mpr ⟨n, member, List.mem_cons_self⟩

theorem Encloses.balanced {excused : Token → Prop} {all inner : List Token} {n : NodeDecl} {opening closing : Token}
    (encloses : Encloses excused all n opening inner closing)
    (children : ∀ m ∈ n.children, BracesBalanced (word (between all m))) :
    BracesBalanced (word (between all n)) ↔ BracesBalanced (word (strayIn all n)) := by
  rw [balanced_iff, balanced_iff, strayIn, encloses.between_eq,
    encloses.inside.depth_strays encloses.sits encloses.shut children]

theorem Encloses.subtree {excused : Token → Prop} {all inner : List Token} {n : NodeDecl} {opening closing : Token}
    (encloses : Encloses excused all n opening inner closing)
    (deeper : (∀ m ∈ subtree n.children, BracesBalanced (word (between all m))) ↔
      ∀ m ∈ subtree n.children, BracesBalanced (word (strayIn all m))) :
    (∀ m ∈ n :: subtree n.children, BracesBalanced (word (between all m))) ↔
      ∀ m ∈ n :: subtree n.children, BracesBalanced (word (strayIn all m)) := by
  rw [List.forall_mem_cons, List.forall_mem_cons, ← deeper]
  exact and_congr_left fun below => encloses.balanced fun m member => below m (mem_subtree member)

-- All blocks are balanced exactly if the strays of each of them are.
theorem Weave.balanced {excused : Token → Prop} {top : Bool} {low high : Position} {nodes : List NodeDecl}
    {all ts : List Token} (weave : Weave excused top low nodes ts high) (sits : Sits all low ts high)
    (shut : ∀ n ∈ nodes, n.head.closed = true) :
    (∀ m ∈ subtree nodes, BracesBalanced (word (between all m))) ↔ ∀ m ∈ subtree nodes, BracesBalanced (word (strayIn all m)) := by
  induction weave with
  | done => simp [DeviceTree.subtree]
  | stray order proper _ _ ih => exact ih (sits.tail order proper) shut
  | closed shell inside every rest here later =>
    obtain ⟨encloses, behind⟩ := shell.encloses inside every rest sits
    have own := encloses.subtree (here encloses.sits every)
    have others := later behind fun m member => shut m (List.mem_cons_of_mem _ member)
    rw [subtree_cons, ← List.cons_append, List.forall_mem_append, List.forall_mem_append, own, others]
  | unclosed left => exact absurd ((shut _ List.mem_cons_self).symm.trans left) (by decide)

end DeviceTree
