import Packrat.Proofs.Grammar.Growth
import Packrat.Proofs.Grammar.Reach
import Packrat.Proofs.Walk.Ends

/-!
# Recursion goes through placeholders

In an arena that requests made, the index of a node falls along every reference that no
placeholder makes. So there is no way around in circles but through a placeholder. And
where no placeholder can be reached, each node that is tried has a smaller index than the
one that it is tried for: however long the input is, a walk is never nested deeper than
there are nodes.

The depth is therefore counted against the index. With more levels allowed than the index
says, a node leaves more than its index for each of its children, and the limit is not
come to.
-/

namespace Packrat

namespace Grammar

/-- The id leads to a placeholder. -/
def IsPlaceholder (g : Grammar) (id : NodeId) : Prop :=
  ∃ target, g.node? id = some (.indirect target)

/-- Only placeholders refer to nodes that are not in front of them. -/
def Descends (g : Grammar) : Prop :=
  ∀ id child, g.Child id child → ¬ g.IsPlaceholder id → child.index < id.index

/-- No recursion without placeholders: neither in the references, nor in a parse. -/
structure Layered (g : Grammar) : Prop where
  cycles : ∀ (id : NodeId) (path : List NodeId), List.IsChain g.Child (id :: (path ++ [id])) →
    ∃ x ∈ id :: path, g.IsPlaceholder x
  depth : ∀ (config : Config) (start : NodeId) (input : List UInt8),
    (∀ id, g.Reaches start id → ¬ g.IsPlaceholder id) → g.size ≤ config.maxDepth →
    ¬ (Parser.runFrom ⟨g, config⟩ start input).ReachesLimit

variable {g : Grammar}

theorem descends_of_build {b : Builder} {root : NodeId} (hb : b.Descending)
    (h : b.build root = .ok g) : g.Descends := by
  have hg := Builder.wellFormed_of_build h
  obtain ⟨_, _, rfl⟩ := Builder.build_ok h
  intro id child hchild hplain
  obtain ⟨node, hnode, hmem⟩ := hchild.exists_node
  have hat : b.nodes[id.index]? = some node := by
    rw [node?, if_pos (contains_of_node?_eq_some hnode)] at hnode
    exact hnode
  have harena : child.arena = b.arena := (Builder.owns_iff.mp (hchild.contains hg)).1
  refine hb id.index node hat ?_ child hmem harena
  cases node with
  | indirect target => exact (hplain ⟨target, hnode⟩).elim
  | _ => rfl

/-- Along references that no placeholder makes the index falls. -/
theorem Descends.lt_of_chain (h : g.Descends) {last : NodeId} :
    ∀ {path : List NodeId} {id : NodeId}, List.IsChain g.Child (id :: (path ++ [last])) →
      (∀ x ∈ id :: path, ¬ g.IsPlaceholder x) → last.index < id.index := by
  intro path
  induction path with
  | nil =>
      intro id hchain hplain
      have hchild : g.Child id last := (List.isChain_cons_cons.mp hchain).1
      exact h id last hchild (hplain id List.mem_cons_self)
  | cons next path ih =>
      intro id hchain hplain
      obtain ⟨hchild, hrest⟩ := List.isChain_cons_cons.mp hchain
      have hstep : next.index < id.index := h id next hchild (hplain id List.mem_cons_self)
      have hfall : last.index < next.index :=
        ih hrest fun x hx => hplain x (List.mem_cons_of_mem id hx)
      omega

theorem Descends.cycle (h : g.Descends) {id : NodeId} {path : List NodeId}
    (hchain : List.IsChain g.Child (id :: (path ++ [id]))) :
    ∃ x ∈ id :: path, g.IsPlaceholder x := by
  by_contra hnone
  have hplain : ∀ x ∈ id :: path, ¬ g.IsPlaceholder x := fun x hx hp => hnone ⟨x, hx, hp⟩
  exact Nat.lt_irrefl _ (h.lt_of_chain hchain hplain)

end Grammar

/-! ## Depth -/

namespace Walk

/-- Giving up, but not at the limit. -/
def belowLimit : Effect where
  answers _ _ := True
  aborts e _ _ := ∀ limit, e.kind ≠ .recursionLimit limit

theorem belowLimit_composes (size : Nat) : belowLimit.Composes size where
  refl _ := trivial
  trans _ _ := trivial
  absorb _ h := h
  offer _ _ := trivial
  invalidLength _ := nofun

theorem visit_belowLimit {I : Memory → Prop} {config : Config} {id : NodeId} {pos depth : Nat}
    {Q : Step → Prop} {work : Walk Step} {s : Progress} {r : EStateM.Result Error Progress Step}
    (hwork : Has I belowLimit Q work) (hs : I s.memo) (h : Visited config id pos depth work s r) :
    belowLimit.Covers s r := by
  cases h with
  | plainAborts _ hrun | foundAborts _ _ hrun =>
      have hbelow := hwork.aborts hrun hs
      exact hbelow
  | _ => exact trivial

/-- What is known of a node that is tried with an allowance: the allowance is more than
its index, and no placeholder is ahead. -/
def Shallow (g : Grammar) (allowance : Nat) (id : NodeId) : Prop :=
  id.index < allowance ∧ ∀ other, g.Reaches id other → ¬ g.IsPlaceholder other

theorem Shallow.child {g : Grammar} (hg : g.Descends) {allowance : Nat} {id child : NodeId}
    (h : Shallow g (allowance + 1) id) (hchild : g.Child id child) : Shallow g allowance child := by
  obtain ⟨hlt, hplain⟩ := h
  have hfall : child.index < id.index := hg id child hchild (hplain id .refl)
  exact ⟨by omega, Grammar.forall_reaches_child hplain hchild⟩

theorem invoke_belowLimit {g : Grammar} {input : Array UInt8} {config : Config}
    (hg : g.WellFormed) (hdescends : g.Descends) {allowance : Nat} (depth : Nat) {id : NodeId}
    {pos : Nat} (h : Shallow g allowance id) (hid : g.contains id = true)
    (hpos : pos ≤ input.size) :
    Has (Semantics.Yielded g input) belowLimit (Step.Within pos input.size)
      (invoke ⟨g, input, config⟩ allowance depth id pos) :=
  Semantics.invoke_has_where hg (E := fun _ _ => belowLimit) (Shallow g)
    (fun _ _ _ h hchild => h.child hdescends hchild) (fun _ _ => belowLimit_composes _)
    (fun _ _ _ _ h _ => absurd h.1 (Nat.not_lt_zero _))
    (fun _ _ _ _ _ _ _ _ hwork hs h => visit_belowLimit hwork hs h) depth h hid hpos

end Walk

theorem Outcome.ReachesLimit.exists_error {outcome : Outcome} (h : outcome.ReachesLimit) :
    ∃ e limit, outcome = .error e ∧ e.kind = .recursionLimit limit := by
  unfold ReachesLimit at h
  split at h
  · exact ⟨_, _, rfl, rfl⟩
  · exact h.elim

theorem Parser.not_reachesLimit {g : Grammar} (hg : g.WellFormed) (hdescends : g.Descends)
    {config : Config} {start : NodeId} {input : List UInt8}
    (hplain : ∀ id, g.Reaches start id → ¬ g.IsPlaceholder id) (hdepth : g.size ≤ config.maxDepth) :
    ¬ (Parser.runFrom ⟨g, config⟩ start input).ReachesLimit := by
  intro hlimit
  obtain ⟨e, limit, hrun, hkind⟩ := hlimit.exists_error
  by_cases hstart : g.contains start = true
  · rw [runFrom_of_contains hstart] at hrun
    cases hwalk : Parser.walk ⟨g, config⟩ start input with
    | error e' s =>
        rw [hwalk] at hrun
        cases hrun
        have hlt : start.index < g.size := by
          simp only [Grammar.contains, Bool.and_eq_true, decide_eq_true_eq] at hstart
          exact hstart.2
        have hshallow : Walk.Shallow g config.maxDepth start := ⟨by omega, hplain⟩
        have hbelow := (Walk.invoke_belowLimit hg hdescends 1 hshallow hstart
          (Nat.zero_le _)).aborts hwalk Semantics.yielded_empty
        exact hbelow limit hkind
    | ok step s =>
        rw [hwalk] at hrun
        have hordinary : e.isFatal = false := ordinary_of_walk hg hstart hwalk hrun
        rw [Error.isFatal, hkind] at hordinary
        cases hordinary
  · rw [runFrom_of_not_contains hstart] at hrun
    cases hrun
    cases hkind

/-! ## Arenas made by requests -/

namespace Builder

/-- What is said of an arena that requests have made: what each of them has done, that
a node which is no empty placeholder stays what it is, that no placeholder is bound
twice, and how nodes refer to nodes. -/
structure OnlyGrows (arena : Nat) (requests : List Request) : Prop where
  served : ∀ before r after, requests = before ++ r :: after →
    (built arena before).Served r (built arena (before ++ [r]))
  keeps : ∀ before after, requests = before ++ after →
    (built arena before).Keeps (built arena requests)
  once : ∀ before placeholder definition between definition' after,
    requests = before ++ .call (.define placeholder definition) ::
      (between ++ .call (.define placeholder definition') :: after) →
    (define placeholder definition (built arena before)).1 = .ok () →
    ∃ e, (define placeholder definition'
      (built arena (before ++ .call (.define placeholder definition) :: between))).1 = .error e
  descending : (built arena requests).Descending

theorem onlyGrows {arena : Nat} {requests : List Request}
    (h : (Workshop.opened arena).Honest requests) : OnlyGrows arena requests where
  served := by
    rintro before r after rfl
    obtain ⟨hbefore, hgrants, _⟩ := h.append
    rw [built, built, Workshop.serveAll_append]
    exact ((Workshop.sound_opened arena).serveAll hbefore).served hgrants
  keeps := by
    rintro before after rfl
    obtain ⟨hbefore, hafter⟩ := h.append
    rw [built, built, Workshop.serveAll_append]
    exact ((Workshop.sound_opened arena).serveAll hbefore).keeps hafter
  once := by
    rintro before placeholder definition between definition' after rfl hok
    obtain ⟨hbefore, hgrants, hrest⟩ := h.append
    obtain ⟨hbetween, _⟩ := hrest.append
    rw [built, Workshop.serveAll_append]
    exact ((Workshop.sound_opened arena).serveAll hbefore).define_refused ⟨hgrants, hbetween⟩ hok
  descending := ((Workshop.sound_opened arena).serveAll h).descending

end Builder

/-- An arena only grows, apart from placeholders that are bound once, and recursion goes
through placeholders. -/
theorem arena_grows_in_layers {arena : Nat} {requests : List Builder.Request}
    (h : (Builder.Workshop.opened arena).Honest requests) :
    Builder.OnlyGrows arena requests ∧
      ∀ root g, (Builder.built arena requests).build root = .ok g → g.Layered := by
  have hgrows := Builder.onlyGrows h
  refine ⟨hgrows, fun root g hbuild => ?_⟩
  have hdescends := Grammar.descends_of_build hgrows.descending hbuild
  have hg := Builder.wellFormed_of_build hbuild
  exact {
    cycles := fun id path => hdescends.cycle
    depth := fun config start input => Parser.not_reachesLimit hg hdescends }

/-- Numbers behind any number of brackets, with two definitions that are refused: one of
another arena, and a second one. -/
def bracketed : List Builder.Request :=
  [.call (.literal 0x5b), .call .indirect, .uint, .call (.name ⟨7, 4⟩ "item"),
    .call (.sequence [⟨7, 0⟩, ⟨7, 1⟩]), .call (.choice [⟨7, 4⟩, ⟨7, 5⟩]),
    .call (.define ⟨7, 1⟩ ⟨9, 0⟩), .call (.define ⟨7, 1⟩ ⟨7, 6⟩), .call (.define ⟨7, 1⟩ ⟨7, 4⟩)]

def bracketedGrammar : Grammar where
  arena := 7
  nodes := #[.literal 0x5b, .indirect (some ⟨7, 6⟩), .range 0x30 0x39, .repeated ⟨7, 2⟩ 1 none,
    .action ⟨7, 3⟩ ⟨"decimal-uint", Decimal.uintOfDigits⟩, .sequence [⟨7, 0⟩, ⟨7, 1⟩],
    .choice [⟨7, 4⟩, ⟨7, 5⟩]]
  names := [(4, "item"), (4, "unsigned decimal"), (3, "digits")]
  root := ⟨7, 6⟩

/-- The numbers, and what they are made of. -/
def bracketedNumbers : List NodeId := [⟨7, 4⟩, ⟨7, 3⟩, ⟨7, 2⟩]

/-- There is a way around from the root, through the placeholder, and there is none from
the numbers. -/
theorem arena_grows_in_layers_bracketed :
    (Builder.Workshop.opened 7).Honest bracketed ∧ Builder.OnlyGrows 7 bracketed ∧
    (Builder.built 7 bracketed).build ⟨7, 6⟩ = .ok bracketedGrammar ∧
    List.IsChain bracketedGrammar.Child [⟨7, 6⟩, ⟨7, 5⟩, ⟨7, 1⟩, ⟨7, 6⟩] ∧
    bracketedGrammar.Layered ∧
    ∀ input, ¬ (Parser.runFrom ⟨bracketedGrammar, ⟨true, 7, false⟩⟩ ⟨7, 4⟩ input).ReachesLimit := by
  have hhonest : (Builder.Workshop.opened 7).Honest bracketed := by decide
  have hbuild : (Builder.built 7 bracketed).build ⟨7, 6⟩ = .ok bracketedGrammar := rfl
  obtain ⟨hgrows, hlayered⟩ := arena_grows_in_layers hhonest
  have hlayers : bracketedGrammar.Layered := hlayered ⟨7, 6⟩ bracketedGrammar hbuild
  have hclosed : ∀ id ∈ bracketedNumbers, ∀ child ∈ bracketedGrammar.childrenOf id,
      child ∈ bracketedNumbers := by decide
  have hplain : ∀ id ∈ bracketedNumbers,
      (bracketedGrammar.node? id).any Node.isIndirect = false := by decide
  refine ⟨hhonest, hgrows, hbuild, by decide, hlayers, fun input => ?_⟩
  refine hlayers.depth _ _ input (fun id hid => ?_) (Nat.le_refl 7)
  have hmem : id ∈ bracketedNumbers := by
    induction hid with
    | refl => decide
    | tail _ hchild ih => exact hclosed _ ih _ hchild
  rintro ⟨target, hnode⟩
  have hany := hplain id hmem
  rw [hnode] at hany
  cases hany

end Packrat
