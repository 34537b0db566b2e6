import BranchWeight.Graph.Link
import BranchWeight.Proofs.Construction
import BranchWeight.Proofs.WellSpanned
import Mathlib.Data.List.Forall2
import Mathlib.Tactic

/-! Successors without spans. In a numbered tree every statement carries its id, so the first statement of a branch can be
read off the branch itself. In a well-spanned tree the targets found by looking spans up are the ones read off that
way. -/

namespace BranchWeight

variable {α : Type}

/-- What stands right after the first `else` among the children, or that `else` itself where nothing does. -/
def Node.elseBranch? (n : Node α) : Option (Node α) :=
  ((n.children.dropWhile fun c => c.kind ≠ "else").take 2).getLast?

/-- The branches of a node by its construct: the third child and the `else` branch of a conditional, the cases of a
selection at any depth in document order, the last child of a loop. -/
def Node.branches (n : Node α) : List (Node α) :=
  match Construct.ofKind n.kind with
  | .conditional => n.children[2]?.toList ++ n.elseBranch?.toList
  | .selection => (forestPreorder n.children).filter fun c => c.kind = "case_clause"
  | .loop => n.children.getLast?.toList
  | .sequential => []

/-- Whether control can go on to the next vertex without entering a branch. -/
def Node.fallsThrough (n : Node α) : Bool :=
  match Construct.ofKind n.kind with
  | .conditional => n.children.all fun c => c.kind ≠ "else"
  | .selection => false
  | .loop => true
  | .sequential => true

/-- The successors of a node: what is first in each branch that holds anything, and the next vertex where control
falls through. -/
def Node.successorsBy (first? : Node α → Option Nat) (next : List Nat) (n : Node α) : List Nat :=
  n.branches.flatMap (fun b => (first? b).toList) ++ if n.fallsThrough then next else []

theorem Node.elsePart_eq_elseBranch (n : Node α) : n.elsePart? = n.elseBranch? := by
  rw [Node.elsePart?, Node.elseBranch?]
  induction n.children with
  | nil => rfl
  | cons c rest ih =>
    by_cases hc : c.kind = "else"
    · cases rest <;> simp [Node.afterElse?, hc]
    · simp [Node.afterElse?, hc, ih]

theorem Node.isNone_elsePart (n : Node α) : n.elsePart?.isNone = n.children.all fun c => c.kind ≠ "else" := by
  rw [Node.elsePart?]
  induction n.children with
  | nil => rfl
  | cons c rest ih =>
    by_cases hc : c.kind = "else"
    · simp [Node.afterElse?, hc]
    · simp [Node.afterElse?, hc, ih]

theorem targets_eq_successorsBy (spans : Array Span) (v : Vertex) (hk : v.kind = v.node.kind) :
    targets spans v =
      v.node.successorsBy (fun b => firstInside? spans b.span) (following spans.size v.id) := by
  unfold targets Node.successorsBy Node.branches Node.fallsThrough
  rw [hk, ← Node.elsePart_eq_elseBranch, ← Node.isNone_elsePart]
  cases Construct.ofKind v.node.kind with
  | conditional =>
    cases hc : v.node.children[2]? <;> cases he : v.node.elsePart? <;> simp [branchTarget]
  | selection => simp [branchTarget, descendants_eq, caseKind]
  | loop => cases v.node.children.getLast? <;> simp [branchTarget]
  | sequential => simp

/-! ## Numbered trees -/

mutual

/-- The kinds and the nesting of a tree, and at each node the number of statements before it; at a statement that is
its id. Spans and texts are left out. -/
def Node.numbered (first : Nat) : Node α → Node Nat
  | ⟨kind, _, _, children⟩ =>
    ⟨kind, ⟨0, 0⟩, first, forestNumbered (first + if isStatementKind kind then 1 else 0) children⟩

def forestNumbered (first : Nat) : List (Node α) → List (Node Nat)
  | [] => []
  | n :: rest => n.numbered first :: forestNumbered (first + statementCount n.preorder) rest

end

/-- The id of the first statement of a numbered tree. -/
def Node.firstId? (m : Node Nat) : Option Nat := (statements (some m)).head?.map Node.label

/-- The successors of a numbered node in a graph of `count` vertices, by the rules of its construct alone. -/
def Node.ruleTargets (count : Nat) (m : Node Nat) : List Nat :=
  m.successorsBy Node.firstId? (following count m.label)

@[simp] theorem Node.kind_numbered (first : Nat) (n : Node α) : (n.numbered first).kind = n.kind := by
  obtain ⟨kind, span, label, children⟩ := n
  rw [Node.numbered]

@[simp] theorem Node.label_numbered (first : Nat) (n : Node α) : (n.numbered first).label = first := by
  obtain ⟨kind, span, label, children⟩ := n
  rw [Node.numbered]

theorem Node.children_numbered (first : Nat) (n : Node α) :
    (n.numbered first).children = forestNumbered (first + statementCount [n]) n.children := by
  obtain ⟨kind, span, label, children⟩ := n
  rw [Node.numbered, statementCount_cons]
  rfl

/-- What holds of every node at its place, with the number that its place gives it, holds of a forest and its numbered
form node by node. -/
theorem forest_numbered_relates {R : Node α → Node Nat → Prop} (forest : List (Node α)) (first : Nat)
    (h : ∀ b before after, Occurs b forest before after → R b (b.numbered (first + statementCount before))) :
    List.Forall₂ R (forestPreorder forest) (forestPreorder (forestNumbered first forest)) ∧
      List.Forall₂ R forest (forestNumbered first forest) := by
  induction forest using forest_induction generalizing first with
  | nil => exact ⟨.nil, .nil⟩
  | cons n rest ihc ihr =>
    have hn : R n (n.numbered first) := h n [] _ (.first rest)
    obtain ⟨hcp, -⟩ := ihc (first + statementCount [n]) (by
      intro b before after ho
      have hb := h b _ _ (.under n rest before after ho)
      rwa [← List.singleton_append, statementCount_append, ← Nat.add_assoc] at hb)
    obtain ⟨hrp, hr⟩ := ihr (first + statementCount n.preorder) (by
      intro b before after ho
      have hb := h b _ _ (.later n rest before after ho)
      rwa [statementCount_append, ← Nat.add_assoc] at hb)
    rw [forestNumbered, forestPreorder_cons, forestPreorder_cons, Node.children_numbered]
    exact ⟨.cons hn (List.rel_append hcp hrp), .cons hn hr⟩

theorem labels_forestNumbered (forest : List (Node α)) (first : Nat) :
    ((forestPreorder (forestNumbered first forest)).filter fun m => isStatementKind m.kind).map Node.label =
      List.range' first (statementCount (forestPreorder forest)) := by
  induction forest using forest_induction generalizing first with
  | nil => rfl
  | cons n rest ihc ihr =>
    -- The node, what lies below it and the rest of the forest each go on where the one before has stopped.
    have hn : ([n.numbered first].filter fun m => isStatementKind m.kind).map Node.label =
        List.range' first (statementCount [n]) := by
      by_cases hk : isStatementKind n.kind = true <;> simp [statementCount, hk]
    have hcount : statementCount n.preorder = statementCount [n] + statementCount (forestPreorder n.children) := by
      rw [Node.preorder_eq, ← List.singleton_append, statementCount_append]
    calc
      _ = List.range' first (statementCount [n]) ++
          (List.range' (first + statementCount [n]) (statementCount (forestPreorder n.children)) ++
            List.range' (first + statementCount n.preorder) (statementCount (forestPreorder rest))) := by
        rw [← hn, ← ihc, ← ihr, forestNumbered, forestPreorder_cons, Node.children_numbered,
          ← List.singleton_append, List.filter_append, List.filter_append, List.map_append, List.map_append]
      _ = List.range' first (statementCount n.preorder + statementCount (forestPreorder rest)) := by
        rw [← List.append_assoc, List.range'_append_1, ← hcount, List.range'_append_1]
      _ = _ := by rw [← statementCount_append, forestPreorder]

theorem firstId_numbered (n : Node α) (first : Nat) :
    (n.numbered first).firstId? = if statements (some n) = [] then none else some first := by
  have hlabels := labels_forestNumbered [n] first
  simp only [forestNumbered, forestPreorder_singleton, ← statements_some] at hlabels
  have hcount : statementCount n.preorder = (statements (some n)).length := by
    rw [statements_some, statementCount, List.countP_eq_length_filter]
  rw [Node.firstId?, ← List.head?_map, hlabels, hcount]
  cases statements (some n) with
  | nil => rfl
  | cons s rest => rfl

/-! ## The same branches on both sides -/

section Relate

variable {β : Type} {R : Node α → Node β → Prop}

theorem relates_head? {xs : List (Node α)} {ys : List (Node β)} (h : List.Forall₂ R xs ys) :
    List.Forall₂ R xs.head?.toList ys.head?.toList := by
  cases h with
  | nil => exact .nil
  | cons hr _ => exact .cons hr .nil

theorem relates_afterElse (hkind : ∀ b m, R b m → m.kind = b.kind) {xs : List (Node α)}
    {ys : List (Node β)} (h : List.Forall₂ R xs ys) :
    List.Forall₂ R (Node.afterElse? xs).toList (Node.afterElse? ys).toList := by
  induction h with
  | nil => exact .nil
  | cons hr hrest ih =>
    rw [Node.afterElse?, Node.afterElse?, hkind _ _ hr]
    split
    · cases hrest with
      | nil => exact .cons hr .nil
      | cons hr' _ => exact .cons hr' .nil
    · exact ih

theorem relates_branches (hkind : ∀ b m, R b m → m.kind = b.kind) {n : Node α} {m : Node β}
    (hk : m.kind = n.kind) (hc : List.Forall₂ R n.children m.children)
    (hp : List.Forall₂ R (forestPreorder n.children) (forestPreorder m.children)) :
    List.Forall₂ R n.branches m.branches := by
  unfold Node.branches
  rw [hk]
  cases Construct.ofKind n.kind with
  | conditional =>
    apply List.rel_append
    · rw [← List.head?_drop, ← List.head?_drop]
      exact relates_head? (List.forall₂_drop 2 hc)
    · rw [← Node.elsePart_eq_elseBranch, ← Node.elsePart_eq_elseBranch]
      exact relates_afterElse hkind hc
  | selection =>
    apply List.rel_filter _ hp
    intro b c hr
    simp only [hkind b c hr]
  | loop =>
    simp only [← List.head?_reverse]
    exact relates_head? (List.rel_reverse hc)
  | sequential => exact .nil

theorem fallsThrough_eq (hkind : ∀ b m, R b m → m.kind = b.kind) {n : Node α} {m : Node β}
    (hk : m.kind = n.kind) (hc : List.Forall₂ R n.children m.children) :
    m.fallsThrough = n.fallsThrough := by
  have hlen := (relates_afterElse hkind hc).length_eq
  unfold Node.fallsThrough
  rw [hk, ← Node.isNone_elsePart, ← Node.isNone_elsePart, Node.elsePart?, Node.elsePart?]
  cases Construct.ofKind n.kind with
  | conditional =>
    cases hn : Node.afterElse? n.children <;> cases hm : Node.afterElse? m.children <;> simp_all
  | selection => rfl
  | loop => rfl
  | sequential => rfl

end Relate

theorem flatMap_toList_congr {β : Type} {first? : Node α → Option Nat} {first?' : Node β → Option Nat}
    {xs : List (Node α)} {ys : List (Node β)} (h : List.Forall₂ (fun b c => first? b = first?' c) xs ys) :
    xs.flatMap (fun b => (first? b).toList) = ys.flatMap fun c => (first?' c).toList := by
  induction h with
  | nil => rfl
  | cons hr _ ih => rw [List.flatMap_cons, List.flatMap_cons, hr, ih]

theorem successorsBy_congr {β : Type} {first? : Node α → Option Nat} {first?' : Node β → Option Nat} {n : Node α}
    {m : Node β} (next : List Nat)
    (hb : List.Forall₂ (fun b c => first? b = first?' c) n.branches m.branches)
    (hf : m.fallsThrough = n.fallsThrough) : n.successorsBy first? next = m.successorsBy first?' next := by
  unfold Node.successorsBy
  rw [hf, flatMap_toList_congr hb]

theorem Node.mem_of_elseBranch {n b : Node α} (h : n.elseBranch? = some b) : b ∈ n.children :=
  (List.dropWhile_sublist _).mem (List.mem_of_mem_take (List.mem_of_getLast? h))

theorem branches_below (n : Node α) : ∀ b ∈ n.branches, b ∈ forestPreorder n.children := by
  intro b hb
  unfold Node.branches at hb
  split at hb
  · rcases List.mem_append.mp hb with hb | hb
    · exact mem_forestPreorder_self (List.mem_of_getElem? (Option.mem_toList.mp hb))
    · exact mem_forestPreorder_self (Node.mem_of_elseBranch (Option.mem_toList.mp hb))
  · exact (List.mem_filter.mp hb).1
  · exact mem_forestPreorder_self (List.mem_of_getLast? (Option.mem_toList.mp hb))
  · simp at hb

/-! ## Looking up and reading off -/

section LookUp

variable {root : Node α}

theorem firstInside_eq_firstId {b : Node α} {before after : List (Node α)} (hw : root.WellSpanned)
    (ho : Occurs b [root] before after) :
    firstInside? (statementSpans root) b.span = (b.numbered (statementCount before)).firstId? := by
  rw [firstInside_at hw ho, firstId_numbered]

theorem successorsBy_eq_ruleTargets {n : Node α} {before after : List (Node α)} (hw : root.WellSpanned)
    (ho : Occurs n [root] before after) (count : Nat) :
    n.successorsBy (fun b => firstInside? (statementSpans root) b.span) (following count (statementCount before)) =
      (n.numbered (statementCount before)).ruleTargets count := by
  -- `R` pairs the nodes below `n` with their numbered forms; it holds at every place, so also at the branches.
  let R (b : Node α) (m : Node Nat) : Prop :=
    m.kind = b.kind ∧ firstInside? (statementSpans root) b.span = m.firstId?
  have hrel := forest_numbered_relates (R := R) n.children (statementCount before + statementCount [n]) (by
    intro b before' after' hb
    refine ⟨Node.kind_numbered _ b, ?_⟩
    have hplace := firstInside_eq_firstId hw (ho.trans hb)
    rwa [← List.singleton_append, statementCount_append, statementCount_append, ← Nat.add_assoc] at hplace)
  rw [← Node.children_numbered] at hrel
  have hkind : ∀ b m, R b m → m.kind = b.kind := fun b m h => h.1
  have hbranches := relates_branches hkind (Node.kind_numbered (statementCount before) n) hrel.2 hrel.1
  rw [Node.ruleTargets, Node.label_numbered]
  exact successorsBy_congr _ (hbranches.imp fun b m h => h.2)
    (fallsThrough_eq hkind (Node.kind_numbered _ n) hrel.2)

/-- The statements of a numbered tree are the numbered statements, each with its position. -/
theorem statements_numbered (root : Node α) (i : Nat) :
    (statements (some (root.numbered 0)))[i]? = (statements (some root))[i]?.map fun n => n.numbered i := by
  let R (b : Node α) (m : Node Nat) : Prop := m = b.numbered m.label
  have hrel := (forest_numbered_relates (R := R) [root] 0 (by
    intro b before after _
    simp only [R, Node.label_numbered])).1
  have hfilter : List.Forall₂ R (statements (some root)) (statements (some (root.numbered 0))) := by
    rw [statements_some, statements_some, ← forestPreorder_singleton, ← forestPreorder_singleton]
    apply List.rel_filter _ hrel
    intro b m hr
    have hk : m.kind = b.kind := by rw [hr, Node.kind_numbered]
    simp only [hk]
  -- Labels are consecutive from zero, so the one at position `i` is `i`.
  have hlabels := labels_forestNumbered [root] 0
  simp only [forestNumbered, forestPreorder_singleton, ← statements_some] at hlabels
  obtain ⟨hlen, hget⟩ := List.forall₂_iff_get.mp hfilter
  by_cases hi : i < (statements (some root)).length
  · have hi' : i < (statements (some (root.numbered 0))).length := hlen ▸ hi
    have hlabel : (statements (some (root.numbered 0)))[i].label = i := by
      have hl := congrArg (fun l => l[i]?) hlabels
      rw [List.getElem?_map, List.getElem?_eq_getElem hi'] at hl
      obtain ⟨_, hl⟩ := List.getElem?_eq_some_iff.mp hl.symm
      rw [← hl, List.getElem_range', Nat.zero_add, Nat.one_mul]
    have hr := hget i hi hi'
    simp only [R, List.get_eq_getElem, hlabel] at hr
    rw [List.getElem?_eq_getElem hi', List.getElem?_eq_getElem hi, hr, Option.map_some]
  · rw [List.getElem?_eq_none (by omega), List.getElem?_eq_none (by omega), Option.map_none]

/-- A look-up finds a statement exactly if it is the first one of the branch. -/
theorem firstInside_some_iff {b : Node α} (hw : root.WellSpanned) (hb : b ∈ root.preorder) (j : Nat) :
    firstInside? (statementSpans root) b.span = some j ↔
      ∃ s, (statements (some b)).head? = some s ∧ (statements (some root))[j]? = some s := by
  rw [← forestPreorder_singleton] at hb
  obtain ⟨before, after, ho⟩ := occurs_of_mem hb
  rw [firstInside_at hw ho]
  cases hs : statements (some b) with
  | nil => simp
  | cons s rest =>
    have hat : (statements (some root))[statementCount before]? = some s := by
      rw [statements_at ho, hs, statementCount, List.countP_eq_length_filter]
      simp
    simp only [reduceCtorEq, if_false, Option.some.injEq, List.head?_cons, exists_eq_left']
    constructor
    · rintro rfl
      exact hat
    · -- The statement stands nowhere else, since no two statements are alike.
      intro hj
      exact (List.getElem?_inj (List.getElem?_eq_some_iff.mp hat).1 (statements_nodup hw)).mp (hat.trans hj.symm)

theorem firstInside_none_iff {b : Node α} (hw : root.WellSpanned) (hb : b ∈ root.preorder) :
    firstInside? (statementSpans root) b.span = none ↔ statements (some b) = [] := by
  rw [← forestPreorder_singleton] at hb
  obtain ⟨before, after, ho⟩ := occurs_of_mem hb
  rw [firstInside_at hw ho]
  split <;> simp_all

end LookUp

section Vertices

variable {root : Node Content} {vs : List Vertex} {i : Nat} {v : Vertex}

theorem BuiltFrom.spansOf_eq (h : BuiltFrom (some root) vs) : spansOf vs = statementSpans root := by
  rw [statementSpans, ← h.nodes_eq, List.map_map]
  rfl

theorem BuiltFrom.node_at (h : BuiltFrom (some root) vs) (hv : vs[i]? = some v) :
    (statements (some root))[i]? = some v.node := by
  rw [← h.nodes_eq, List.getElem?_map, hv, Option.map_some]

theorem BuiltFrom.successors_rule (h : BuiltFrom (some root) vs) (hw : root.WellSpanned) (hv : vs[i]? = some v) :
    v.successors = (v.node.numbered i).ruleTargets vs.length := by
  obtain ⟨before, after, ho, rfl⟩ := occurs_of_statement (h.node_at hv)
  have hf := h.finished _ v hv
  rw [hf.successors_eq, targets_eq_successorsBy _ _ hf.kind_eq, size_spansOf, h.spansOf_eq, hf.id_eq]
  exact successorsBy_eq_ruleTargets hw ho vs.length

theorem BuiltFrom.branch_mem_root (h : BuiltFrom (some root) vs) (hv : vs[i]? = some v)
    {b : Node Content} (hb : b ∈ v.node.branches) : b ∈ root.preorder := by
  obtain ⟨before, after, ho, -⟩ := occurs_of_statement (h.node_at hv)
  apply ho.mem_root
  rw [Node.preorder_eq]
  exact .inr (.inl (List.mem_cons_of_mem _ (branches_below _ b hb)))

end Vertices

/-- A look-up finds the first statement of its branch and nothing else, so the successors of a vertex are those that its
construct gives it in the numbered tree. -/
theorem successors_structural (root : Node Content) (hw : root.WellSpanned) (vs : List Vertex)
    (hg : graphOf (some root) = .ok vs) (i : Nat) (v : Vertex) (hv : vs[i]? = some v) :
    (∀ b ∈ v.node.branches,
      (∀ j, firstInside? (spansOf vs) b.span = some j ↔
        ∃ u, vs[j]? = some u ∧ (statements (some b)).head? = some u.node) ∧
      (firstInside? (spansOf vs) b.span = none ↔ statements (some b) = [])) ∧
    (statements (some (root.numbered 0)))[i]? = some (v.node.numbered i) ∧
    v.successors = (v.node.numbered i).ruleTargets vs.length := by
  have hbuilt := graphOf_ok hg
  refine ⟨?_, ?_, hbuilt.successors_rule hw hv⟩
  · intro b hb
    have hbr := hbuilt.branch_mem_root hv hb
    rw [hbuilt.spansOf_eq]
    refine ⟨?_, firstInside_none_iff hw hbr⟩
    intro j
    rw [firstInside_some_iff hw hbr, ← hbuilt.nodes_eq, List.getElem?_map]
    constructor
    · rintro ⟨s, hs, hj⟩
      obtain ⟨u, hu, rfl⟩ := Option.map_eq_some_iff.mp hj
      exact ⟨u, hu, hs⟩
    · rintro ⟨u, hu, hs⟩
      exact ⟨u.node, hs, by rw [hu, Option.map_some]⟩
  · rw [statements_numbered, hbuilt.node_at hv, Option.map_some]

/-- A conditional with two branches before a selection whose second case is empty. -/
def twoChoices : Node Content :=
  ⟨"compilation_unit", ⟨0, 40⟩, .absent,
    [⟨"if_expression", ⟨0, 20⟩, .text "if", [⟨"if", ⟨0, 2⟩, .absent, []⟩, ⟨"identifier", ⟨3, 6⟩, .absent, []⟩,
        ⟨"call_expression", ⟨7, 10⟩, .text "f()", []⟩, ⟨"else", ⟨10, 14⟩, .absent, []⟩,
        ⟨"block", ⟨14, 20⟩, .absent, [⟨"call_expression", ⟨15, 20⟩, .text "g(x)", []⟩]⟩]⟩,
      ⟨"match_expression", ⟨20, 40⟩, .text "match", [⟨"case_block", ⟨27, 40⟩, .absent,
        [⟨"case_clause", ⟨28, 34⟩, .absent, [⟨"call_expression", ⟨30, 34⟩, .text "h()", []⟩]⟩,
          ⟨"case_clause", ⟨34, 34⟩, .absent, []⟩]⟩]⟩]⟩

theorem twoChoices_wellSpanned : twoChoices.WellSpanned := by decide +kernel

theorem twoChoices_readable :
    (statements (some twoChoices)).findSome? (fun n => n.label.decodeError?) = none := by decide +kernel

theorem successors_structural_twoChoices : twoChoices.WellSpanned ∧ ∃ vs, graphOf (some twoChoices) = .ok vs ∧
    ∀ i ∈ [0, 3], ∃ v, vs[i]? = some v ∧
      (∀ b ∈ v.node.branches,
        (∀ j, firstInside? (spansOf vs) b.span = some j ↔
          ∃ u, vs[j]? = some u ∧ (statements (some b)).head? = some u.node) ∧
        (firstInside? (spansOf vs) b.span = none ↔ statements (some b) = [])) ∧
      (statements (some (twoChoices.numbered 0)))[i]? = some (v.node.numbered i) ∧
      v.successors = (v.node.numbered i).ruleTargets vs.length := by
  obtain ⟨vs, hg, hbuilt⟩ := graphOf_of_readable twoChoices_readable
  have hlen : (statements (some twoChoices)).length = 5 := by decide +kernel
  rw [← hbuilt.nodes_eq, List.length_map] at hlen
  refine ⟨twoChoices_wellSpanned, vs, hg, ?_⟩
  intro i hi
  have hlt : i < vs.length := by
    simp only [List.mem_cons, List.not_mem_nil, or_false] at hi
    omega
  have hv : vs[i]? = some vs[i] := List.getElem?_eq_getElem hlt
  exact ⟨vs[i], hv, successors_structural twoChoices twoChoices_wellSpanned vs hg i vs[i] hv⟩

example : (graphOf (some twoChoices)).map (fun vs => vs.map Vertex.successors) =
    .ok [[1, 2], [2], [3], [4], []] := by decide +kernel

example : (statements (some (twoChoices.numbered 0))).map (Node.ruleTargets 5) =
    [[1, 2], [2], [3], [4], []] := by decide +kernel

end BranchWeight
