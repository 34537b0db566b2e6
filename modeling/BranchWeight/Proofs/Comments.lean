import BranchWeight.Proofs.Branches
import BranchWeight.Proofs.Reformatting
import Mathlib.Data.List.Forall2
import Mathlib.Tactic

/-! Comments among the children of nodes. A conditional and a loop find their branches by counting children, and a comment
counts as a child, so a comment in front of a branch can hide it. The gaps in which a comment hides nothing are told
from the kinds on either side; comments in such gaps leave the whole graph as it is. -/

namespace BranchWeight

variable {α : Type}

def commentKind : String := "comment"

/-- A gap between the children of a node: the kind of the node, and the kinds of the children on either side. -/
structure Gap where
  owner : String
  left : List String
  right : List String
deriving DecidableEq, Repr

/-- Whether the last of some kinds is their first `else`. -/
def endsAtElse (kinds : List String) : Bool := kinds.getLast? = some "else" && !kinds.dropLast.contains "else"

/-- Whether the branches of a node stay where they are looked for when a comment is put into a gap: behind the third
child of a conditional and not right after its `else`, and in front of the last child of a loop. A node without the
child in question may have a comment in its place. -/
def Gap.neutral (g : Gap) : Bool :=
  match Construct.ofKind g.owner with
  | .conditional => (3 ≤ g.left.length || g.right.isEmpty) && !endsAtElse g.left
  | .selection => true
  | .loop => !g.right.isEmpty || g.left.isEmpty
  | .sequential => true

/-- `Commented allowed owner left ns ms`: the children `ns` of a node, of which those on the `left` have been passed, become
`ms` by childless comments in allowed gaps, at every depth. Everything else keeps its kind and its label; where the
spans are is left to the two trees. -/
inductive Commented (allowed : Gap → Prop) : String → List String → List (Node α) → List (Node α) → Prop where
  | done (owner : String) (left : List String) : Commented allowed owner left [] []
  | comment (owner : String) (left : List String) (c : Node α) (ns ms : List (Node α)) (kind_eq : c.kind = commentKind)
      (bare : c.children = []) (fits : allowed ⟨owner, left, ns.map Node.kind⟩)
      (rest : Commented allowed owner left ns ms) : Commented allowed owner left ns (c :: ms)
  | keep (owner : String) (left : List String) (n m : Node α) (ns ms : List (Node α)) (kind_eq : m.kind = n.kind)
      (label_eq : m.label = n.label) (children : Commented allowed n.kind [] n.children m.children)
      (rest : Commented allowed owner (left ++ [n.kind]) ns ms) : Commented allowed owner left (n :: ns) (m :: ms)

structure Node.Commented (allowed : Gap → Prop) (n m : Node α) : Prop where
  kind_eq : m.kind = n.kind
  label_eq : m.label = n.label
  children : BranchWeight.Commented allowed n.kind [] n.children m.children

/-! ## What a comment leaves alone -/

theorem comment_no_statements {c : Node α} (hk : c.kind = commentKind) (hb : c.children = []) :
    statementCount c.preorder = 0 := by
  have hnot : isStatementKind commentKind = false := by decide
  simp [Node.preorder_eq, hb, hk, hnot, forestPreorder, statementCount]

theorem statements_eq_nil_iff (n : Node α) : statements (some n) = [] ↔ statementCount n.preorder = 0 := by
  rw [statements_some, statementCount, List.countP_eq_length_filter, List.length_eq_zero_iff]

theorem firstId_comment {c : Node α} (hk : c.kind = commentKind) (hb : c.children = []) (first : Nat) :
    (c.numbered first).firstId? = none := by
  rw [firstId_numbered, if_pos ((statements_eq_nil_iff c).mpr (comment_no_statements hk hb))]

variable {allowed : Gap → Prop} {owner : String} {left : List String} {ns ms : List (Node α)}

theorem Commented.statementCount_eq (h : Commented allowed owner left ns ms) :
    statementCount (forestPreorder ms) = statementCount (forestPreorder ns) := by
  induction h with
  | done owner left => rfl
  | comment owner left c ns ms hk hb _ _ ih =>
    rw [forestPreorder, statementCount_append, comment_no_statements hk hb, ih, Nat.zero_add]
  | keep owner left n m ns ms hk _ _ _ ihc ihr =>
    rw [forestPreorder_cons, forestPreorder_cons, statementCount_cons, statementCount_cons, statementCount_append,
      statementCount_append, hk, ihc, ihr]

theorem Node.Commented.statementCount_eq {n m : Node α} (h : n.Commented allowed m) :
    statementCount m.preorder = statementCount n.preorder := by
  rw [Node.preorder_eq, Node.preorder_eq, statementCount_cons, statementCount_cons, h.kind_eq,
    h.children.statementCount_eq]

theorem Node.Commented.firstId_eq {n m : Node α} (h : n.Commented allowed m) (first : Nat) :
    (m.numbered first).firstId? = (n.numbered first).firstId? := by
  simp only [firstId_numbered, statements_eq_nil_iff, h.statementCount_eq]

theorem Commented.relates_filter (h : Commented allowed owner left ns ms) (wanted : String → Bool)
    (hw : wanted commentKind = false) :
    List.Forall₂ (Node.Commented allowed) ((forestPreorder ns).filter fun n => wanted n.kind)
      ((forestPreorder ms).filter fun m => wanted m.kind) := by
  induction h with
  | done owner left => exact .nil
  | comment owner left c ns ms hk hb _ _ ih =>
    -- A comment is not of a wanted kind and has nothing below it.
    rw [forestPreorder_cons, hb, List.filter_cons_of_neg (by simp [hk, hw])]
    exact ih
  | keep owner left n m ns ms hk hl hc hr ihc ihr =>
    rw [forestPreorder_cons, forestPreorder_cons, List.filter_cons, List.filter_cons, List.filter_append,
      List.filter_append, hk]
    have htail := List.rel_append ihc ihr
    split
    · exact .cons ⟨hk, hl, hc⟩ htail
    · exact htail

theorem Commented.relates_firstId (h : Commented allowed owner left ns ms) (wanted : String → Bool)
    (hw : wanted commentKind = false) (first : Nat) :
    List.Forall₂ (fun b c => Node.firstId? b = Node.firstId? c)
      ((forestPreorder (forestNumbered first ms)).filter fun m => wanted m.kind)
      ((forestPreorder (forestNumbered first ns)).filter fun n => wanted n.kind) := by
  induction h generalizing first with
  | done owner left => exact .nil
  | comment owner left c ns ms hk hb _ _ ih =>
    have hnone : (forestPreorder (c.numbered first).children) = [] := by
      rw [Node.children_numbered, hb]
      rfl
    rw [forestNumbered, forestPreorder_cons, hnone, comment_no_statements hk hb,
      List.filter_cons_of_neg (by simp [hk, hw])]
    exact ih first
  | keep owner left n m ns ms hk hl hc hr ihc ihr =>
    have hnm : n.Commented allowed m := ⟨hk, hl, hc⟩
    have hone : statementCount [m] = statementCount [n] := by simp only [statementCount_cons, hk]
    -- Comments take no numbers, so the children and the nodes behind are numbered from the same ones in both trees.
    rw [forestNumbered, forestNumbered, forestPreorder_cons, forestPreorder_cons, Node.children_numbered,
      Node.children_numbered, hnm.statementCount_eq, hone, List.filter_cons, List.filter_cons, List.filter_append,
      List.filter_append, Node.kind_numbered, Node.kind_numbered, hk]
    have htail := List.rel_append (ihc (first + statementCount [n])) (ihr (first + statementCount n.preorder))
    split
    · exact .cons (hnm.firstId_eq first) htail
    · exact htail

/-! ## Branches by position -/

theorem Commented.eq_nil (h : Commented allowed owner left ns []) : ns = [] := by
  cases h
  rfl

theorem Commented.firstId_behind (h : Commented allowed owner left [] ms) (first k : Nat) :
    (forestNumbered first ms)[k]?.bind Node.firstId? = none := by
  induction ms generalizing first k with
  | nil => simp [forestNumbered]
  | cons c ms ih =>
    -- Behind the last child only comments can follow.
    cases h with
    | comment _ _ _ _ _ hk hb _ hr =>
      cases k with
      | zero => simp [forestNumbered, firstId_comment hk hb]
      | succ k => simpa [forestNumbered] using ih hr _ k

section Conditional

variable (hcond : Construct.ofKind owner = .conditional) (hn : ∀ g, allowed g → g.owner = owner → g.neutral = true)
include hcond hn

/-- The third child, as far as its first statement goes. `left` has been passed already, so it is `k` children away. -/
theorem Commented.third_eq (h : Commented allowed owner left ns ms) (first k : Nat) (hk : left.length + k = 2) :
    (forestNumbered first ms)[k]?.bind Node.firstId? = (forestNumbered first ns)[k]?.bind Node.firstId? := by
  induction h generalizing first k with
  | done owner left => rfl
  | comment owner left c ns ms hkind hbare hfits hr ih =>
    have hg := hn _ hfits rfl
    simp only [Gap.neutral, hcond, Bool.and_eq_true, Bool.or_eq_true, decide_eq_true_eq, List.isEmpty_iff,
      List.map_eq_nil_iff] at hg
    -- The third child is still to come, so nothing but comments is left.
    obtain rfl : ns = [] := by
      rcases hg.1 with hlen | hnil
      · omega
      · exact hnil
    rw [(Commented.comment owner left c [] ms hkind hbare hfits hr).firstId_behind first k]
    simp [forestNumbered]
  | keep owner left n m ns ms hkind hlabel hc hr _ ih =>
    have hnm : n.Commented allowed m := ⟨hkind, hlabel, hc⟩
    cases k with
    | zero => simpa [forestNumbered] using hnm.firstId_eq first
    | succ k =>
      have hpassed : (left ++ [n.kind]).length + k = 2 := by
        simp only [List.length_append, List.length_singleton]
        omega
      have htail := ih hcond hn (first + statementCount n.preorder) k hpassed
      simpa [forestNumbered, hnm.statementCount_eq] using htail

/-- The `else` branch, as far as it is there and its first statement goes. -/
theorem Commented.elsePart_eq (h : Commented allowed owner left ns ms) (first : Nat) (hleft : "else" ∉ left) :
    (Node.afterElse? (forestNumbered first ms)).isNone = (Node.afterElse? (forestNumbered first ns)).isNone ∧
      (Node.afterElse? (forestNumbered first ms)).bind Node.firstId? =
        (Node.afterElse? (forestNumbered first ns)).bind Node.firstId? := by
  induction h generalizing first with
  | done owner left => exact ⟨rfl, rfl⟩
  | comment owner left c ns ms hkind hbare hfits hr ih =>
    have hne : (c.numbered first).kind ≠ "else" := by
      rw [Node.kind_numbered, hkind]
      decide
    rw [forestNumbered, Node.afterElse?, if_neg hne, comment_no_statements hkind hbare]
    exact ih hcond hn first hleft
  | keep owner left n m ns ms hkind hlabel hc hr _ ih =>
    have hnm : n.Commented allowed m := ⟨hkind, hlabel, hc⟩
    rw [forestNumbered, forestNumbered, Node.afterElse?, Node.afterElse?, Node.kind_numbered, Node.kind_numbered, hkind,
      hnm.statementCount_eq]
    by_cases helse : n.kind = "else"
    · rw [if_pos helse, if_pos helse]
      refine ⟨rfl, ?_⟩
      cases hr with
      | done => exact hnm.firstId_eq first
      | comment _ _ c _ ms _ _ hfits _ =>
        -- Right after the first `else` no comment is allowed.
        have hg := hn _ hfits rfl
        simp [Gap.neutral, hcond, endsAtElse, helse, hleft] at hg
      | keep _ _ n' m' ns ms hkind' hlabel' hc' _ =>
        have hnm' : n'.Commented allowed m' := ⟨hkind', hlabel', hc'⟩
        exact hnm'.firstId_eq _
    · rw [if_neg helse, if_neg helse]
      refine ih hcond hn _ ?_
      simp only [List.mem_append, List.mem_singleton, not_or]
      exact ⟨hleft, fun he => helse he.symm⟩

end Conditional

section Loop

variable (hloop : Construct.ofKind owner = .loop) (hn : ∀ g, allowed g → g.owner = owner → g.neutral = true)
include hloop hn

/-- Behind the last child of a loop there is no room for a comment. -/
theorem Commented.nothing_behind (h : Commented allowed owner left [] ms) (hleft : left ≠ []) : ms = [] := by
  cases h with
  | done => rfl
  | comment _ _ c _ ms _ _ hfits _ =>
    have hg := hn _ hfits rfl
    simp [Gap.neutral, hloop, hleft] at hg

/-- The last child, as far as its first statement goes. -/
theorem Commented.last_eq (h : Commented allowed owner left ns ms) (first : Nat) (hne : ns ≠ [] ∨ left = []) :
    (forestNumbered first ms).getLast?.bind Node.firstId? =
      (forestNumbered first ns).getLast?.bind Node.firstId? := by
  induction h generalizing first with
  | done owner left => rfl
  | comment owner left c ns ms hkind hbare hfits hr ih =>
    have htail := ih hloop hn first hne
    rw [forestNumbered, comment_no_statements hkind hbare, Nat.add_zero]
    cases ms with
    | nil =>
      -- A comment that ends up last stands in a loop without children, which has no body to hide.
      obtain rfl := hr.eq_nil
      simp [forestNumbered, firstId_comment hkind hbare]
    | cons m ms =>
      rw [forestNumbered, List.getLast?_cons_cons, ← forestNumbered]
      exact htail
  | keep owner left n m ns ms hkind hlabel hc hr _ ih =>
    have hnm : n.Commented allowed m := ⟨hkind, hlabel, hc⟩
    rw [forestNumbered, forestNumbered, hnm.statementCount_eq]
    cases ns with
    | nil =>
      obtain rfl := hr.nothing_behind hloop hn (by simp)
      simpa [forestNumbered] using hnm.firstId_eq first
    | cons n' ns =>
      cases ms with
      | nil => exact absurd hr.eq_nil (by simp)
      | cons m' ms =>
        have htail := ih hloop hn (first + statementCount n.preorder) (.inl (by simp))
        rw [forestNumbered, forestNumbered, List.getLast?_cons_cons, List.getLast?_cons_cons, ← forestNumbered,
          ← forestNumbered]
        exact htail

end Loop

/-! ## The graph with comments -/

theorem flatMap_toList_option {β : Type} (o : Option (Node β)) (first? : Node β → Option Nat) :
    o.toList.flatMap (fun b => (first? b).toList) = (o.bind first?).toList := by
  cases o <;> simp

/-- A vertex keeps its successors if the comments among its own children are in neutral gaps. -/
theorem Node.Commented.ruleTargets_eq {n m : Node α} (h : n.Commented allowed m)
    (hn : ∀ g, allowed g → g.owner = n.kind → g.neutral = true) (count first : Nat) :
    (m.numbered first).ruleTargets count = (n.numbered first).ruleTargets count := by
  have hone : statementCount [m] = statementCount [n] := by simp only [statementCount_cons, h.kind_eq]
  have hm : (m.numbered first).children = forestNumbered (first + statementCount [n]) m.children := by
    rw [Node.children_numbered, hone]
  unfold Node.ruleTargets Node.successorsBy Node.branches Node.fallsThrough
  simp only [← Node.elsePart_eq_elseBranch, ← Node.isNone_elsePart, Node.elsePart?]
  rw [Node.kind_numbered, Node.kind_numbered, h.kind_eq, Node.label_numbered, Node.label_numbered, hm,
    Node.children_numbered]
  cases hk : Construct.ofKind n.kind with
  | conditional =>
    have hthird := h.children.third_eq hk hn (first + statementCount [n]) 2 rfl
    obtain ⟨hnone, helse⟩ := h.children.elsePart_eq hk hn (first + statementCount [n]) (by simp)
    simp only [List.flatMap_append, flatMap_toList_option, hthird, hnone, helse]
  | selection =>
    dsimp only
    rw [flatMap_toList_congr (h.children.relates_firstId (fun kind => kind = "case_clause") (by decide) _)]
  | loop =>
    have hlast := h.children.last_eq hk hn (first + statementCount [n]) (.inr rfl)
    simp only [flatMap_toList_option, hlast]
  | sequential => rfl

theorem Node.Commented.statements_relate {t u : Node α} (h : t.Commented allowed u) :
    List.Forall₂ (Node.Commented allowed) (statements (some t)) (statements (some u)) := by
  have hf : BranchWeight.Commented allowed "" [] [t] [u] :=
    .keep "" [] t u [] [] h.kind_eq h.label_eq h.children (.done _ _)
  have hrel := hf.relates_filter isStatementKind (by decide)
  rwa [forestPreorder_singleton, forestPreorder_singleton, ← statements_some, ← statements_some] at hrel

/-- Two graphs related vertex by vertex, or one and the same fault. -/
def GraphsAgree (R : Vertex → Vertex → Prop) : Except Fault (List Vertex) → Except Fault (List Vertex) → Prop
  | .ok vs, .ok ws => List.Forall₂ R vs ws
  | .error e, .error f => e = f
  | _, _ => False

section Graphs

variable {t u : Node Content} {vs ws : List Vertex}

theorem Node.Commented.nodes_relate (h : t.Commented allowed u) (hv : BuiltFrom (some t) vs)
    (hw : BuiltFrom (some u) ws) : List.Forall₂ (fun v w => v.node.Commented allowed w.node) vs ws := by
  have hrel := h.statements_relate
  rw [← hv.nodes_eq, ← hw.nodes_eq, List.forall₂_map_left_iff, List.forall₂_map_right_iff] at hrel
  exact hrel

theorem Node.Commented.edges_eq (h : t.Commented allowed u) (ht : t.WellSpanned) (hu : u.WellSpanned)
    (hv : BuiltFrom (some t) vs) (hw : BuiltFrom (some u) ws) :
    List.Forall₂ (fun v w => v.kind = w.kind ∧
      ((∀ g, allowed g → g.owner = v.kind → g.neutral = true) → v.successors = w.successors)) vs ws := by
  obtain ⟨hlen, hget⟩ := List.forall₂_iff_get.mp (h.nodes_relate hv hw)
  refine List.forall₂_iff_get.mpr ⟨hlen, ?_⟩
  intro i hi hi'
  have hnode := hget i hi hi'
  simp only [List.get_eq_getElem] at hnode ⊢
  -- Both graphs have as many vertices, and the two vertices here have the same number.
  have hiv : vs[i]? = some vs[i] := List.getElem?_eq_getElem hi
  have hiw : ws[i]? = some ws[i] := List.getElem?_eq_getElem hi'
  have hkv := (hv.finished i _ hiv).kind_eq
  have hkw := (hw.finished i _ hiw).kind_eq
  refine ⟨by rw [hkv, hkw, hnode.kind_eq], ?_⟩
  intro hn
  rw [hv.successors_rule ht hiv, hw.successors_rule hu hiw, ← hlen]
  exact (hnode.ruleTargets_eq (hkv ▸ hn) _ i).symm

theorem Node.Commented.decodeError_eq (h : t.Commented allowed u) :
    (statements (some u)).findSome? (fun n => n.label.decodeError?) =
      (statements (some t)).findSome? fun n => n.label.decodeError? := by
  -- The statements have the same texts in the same order, so the first one that cannot be read is the same.
  have hlabels : (statements (some u)).map Node.label = (statements (some t)).map Node.label := by
    rw [← List.forall₂_eq_eq_eq, List.forall₂_map_left_iff, List.forall₂_map_right_iff]
    exact h.statements_relate.flip.imp fun _ _ hnm => hnm.label_eq
  have hmap := congrArg (List.findSome? Content.decodeError?) hlabels
  rwa [List.findSome?_map, List.findSome?_map] at hmap

theorem Node.Commented.graphs (h : t.Commented allowed u) :
    (∃ fault, graphOf (some t) = .error fault ∧ graphOf (some u) = .error fault) ∨
      ∃ vs ws, graphOf (some t) = .ok vs ∧ graphOf (some u) = .ok ws ∧ BuiltFrom (some t) vs ∧
        BuiltFrom (some u) ws := by
  cases hf : (statements (some t)).findSome? (fun n => n.label.decodeError?) with
  | some e => exact .inl ⟨_, graphOf_error hf, graphOf_error (h.decodeError_eq.trans hf)⟩
  | none =>
    obtain ⟨vs, hgt, hv⟩ := graphOf_of_readable hf
    obtain ⟨ws, hgu, hw⟩ := graphOf_of_readable (h.decodeError_eq.trans hf)
    exact .inr ⟨vs, ws, hgt, hgu, hv, hw⟩

end Graphs

/-- Comments never touch the statements and which of them are choices; in neutral gaps they change nothing at all. -/
theorem measure_neutral_comments (t u : Node Content) (ht : t.WellSpanned) (hu : u.WellSpanned)
    (allowed : Gap → Prop) (hc : t.Commented allowed u) :
    GraphsAgree (fun v w => v.id = w.id ∧ v.kind = w.kind ∧ v.isChoice = w.isChoice) (graphOf (some t))
      (graphOf (some u)) ∧
    ((∀ g, allowed g → g.neutral = true) →
      GraphsAgree SameVertex (graphOf (some t)) (graphOf (some u)) ∧ measure (some t) = measure (some u)) := by
  rcases hc.graphs with ⟨fault, hgt, hgu⟩ | ⟨vs, ws, hgt, hgu, hv, hw⟩
  · simp only [measure, hgt, hgu, GraphsAgree, bind, Except.bind, and_self, implies_true]
  · have hedges := hc.edges_eq ht hu hv hw
    rw [hgt, hgu, measure_of_graph hgt, measure_of_graph hgu]
    refine ⟨?_, ?_⟩
    · -- Number, kind and choice of a vertex are settled by its node alone, whatever the comments do to the edges.
      obtain ⟨hlen, hget⟩ := List.forall₂_iff_get.mp hedges
      refine List.forall₂_iff_get.mpr ⟨hlen, ?_⟩
      intro i hi hi'
      obtain ⟨hkind, -⟩ := hget i hi hi'
      have hfv := hv.finished i vs[i] (List.getElem?_eq_getElem hi)
      have hfw := hw.finished i ws[i] (List.getElem?_eq_getElem hi')
      simp only [List.get_eq_getElem] at hkind ⊢
      exact ⟨hfv.id_eq.trans hfw.id_eq.symm, hkind,
        by rw [hfv.isChoice_eq, hfw.isChoice_eq, ← hfv.kind_eq, ← hfw.kind_eq, hkind]⟩
    · intro hn
      have hsame : List.Forall₂ SameVertex vs ws := by
        apply hv.sameVertex_of_edges hw
        exact hedges.imp fun v w h => ⟨h.1, h.2 fun g hg _ => hn g hg⟩
      exact ⟨hsame, measuresOf_congr hsame⟩

def note (start stop : Int) : Node Content := ⟨commentKind, ⟨start, stop⟩, .absent, []⟩

/-- The tree of `twoChoices` with room for comments: in front of the first branch of its conditional, in the block that is
the second one, and between the two statements. -/
def twoChoicesWith (beforeThen inBlock between : List (Node Content)) : Node Content :=
  ⟨"compilation_unit", ⟨0, 40⟩, .absent,
    [⟨"if_expression", ⟨0, 20⟩, .text "if", [⟨"if", ⟨0, 2⟩, .absent, []⟩, ⟨"identifier", ⟨3, 6⟩, .absent, []⟩] ++
        beforeThen ++ [⟨"call_expression", ⟨7, 10⟩, .text "f()", []⟩, ⟨"else", ⟨10, 14⟩, .absent, []⟩,
        ⟨"block", ⟨14, 20⟩, .absent, inBlock ++ [⟨"call_expression", ⟨15, 20⟩, .text "g(x)", []⟩]⟩]⟩] ++ between ++
      [⟨"match_expression", ⟨20, 40⟩, .text "match", [⟨"case_block", ⟨27, 40⟩, .absent,
        [⟨"case_clause", ⟨28, 34⟩, .absent, [⟨"call_expression", ⟨30, 34⟩, .text "h()", []⟩]⟩,
          ⟨"case_clause", ⟨34, 34⟩, .absent, []⟩]⟩]⟩]⟩

theorem measure_twoChoices_noted :
    twoChoices.WellSpanned ∧ (twoChoicesWith [] [note 14 15] [note 20 20]).WellSpanned ∧
      twoChoices.Commented (fun g => g.neutral = true) (twoChoicesWith [] [note 14 15] [note 20 20]) ∧
      measure (some twoChoices) = measure (some (twoChoicesWith [] [note 14 15] [note 20 20])) := by
  have hspans : (twoChoicesWith [] [note 14 15] [note 20 20]).WellSpanned := by decide +kernel
  have hc : twoChoices.Commented (fun g => g.neutral = true) (twoChoicesWith [] [note 14 15] [note 20 20]) := by
    refine ⟨rfl, rfl, ?_⟩
    repeat' first
      | exact .done _ _
      | refine .keep _ _ _ _ _ _ rfl rfl ?_ ?_
      | refine .comment _ _ _ _ _ rfl rfl (by decide) ?_
  have hm := measure_neutral_comments twoChoices (twoChoicesWith [] [note 14 15] [note 20 20])
    twoChoices_wellSpanned hspans _ hc
  exact ⟨twoChoices_wellSpanned, hspans, hc, (hm.2 fun _ hg => hg).2⟩

/-- A comment in front of the first branch takes its place: the edge to that branch is lost, and with it the measures
change. -/
theorem measure_twoChoices_comment_first :
    twoChoices.WellSpanned ∧ (twoChoicesWith [note 6 7] [] []).WellSpanned ∧
      twoChoices.Commented (fun _ => True) (twoChoicesWith [note 6 7] [] []) ∧
      (graphOf (some twoChoices)).map (fun vs => vs.map fun v => (v.successors, v.weight)) =
        .ok [([1, 2], 4), ([2], 1), ([3], 1), ([4], 1), ([], 0)] ∧
      (graphOf (some (twoChoicesWith [note 6 7] [] []))).map (fun vs => vs.map fun v => (v.successors, v.weight)) =
        .ok [([2], 3), ([2], 1), ([3], 1), ([4], 1), ([], 0)] ∧
      measure (some twoChoices) ≠ measure (some (twoChoicesWith [note 6 7] [] [])) := by
  refine ⟨twoChoices_wellSpanned, by decide +kernel, ⟨rfl, rfl, ?_⟩, by decide +kernel, by decide +kernel,
    by decide +kernel⟩
  repeat' first
    | exact .done _ _
    | refine .keep _ _ _ _ _ _ rfl rfl ?_ ?_
    | refine .comment _ _ _ _ _ rfl rfl trivial ?_

end BranchWeight
