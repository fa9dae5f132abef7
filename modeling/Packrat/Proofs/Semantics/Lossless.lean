import Packrat.Proofs.Grammar.Reach
import Packrat.Proofs.Semantics.Reads
import Packrat.Proofs.Semantics.Soundness
import Packrat.Proofs.Walk.Outcome

/-!
# Tokens that lose nothing

Some nodes drop what they match: kept members, separators, blanks, counts. Others
replace it, by a number or by whatever an action makes of it. The rest keep every byte
that they match, in its place, and if a parse comes upon no others, the bytes of its
token are the bytes that it consumed.

There is nothing in this about backtracking. What a node yields is said without a walk,
and in the rules for it an alternative that was given up, a round that failed and a
lookahead occur as premises only: the token is made of the matches that stay. So one
lemma a rule is enough, and memory does not come into it at all.
-/

namespace Packrat

mutual

/-- The bytes in a token, in order. A number has none. -/
def Token.flatten : Token → List UInt8
  | .none | .uint _ | .sint _ => []
  | .byte b => [b]
  | .bytes payload => payload
  | .seq items => Token.flattenAll items

def Token.flattenAll : List Token → List UInt8
  | [] => []
  | token :: rest => token.flatten ++ Token.flattenAll rest

end

/-- Whether a node's token has all bytes that the node consumed, if those of its children
do. -/
def Node.keepsBytes : Node → Bool
  | .literal _ | .range _ _ | .set _ | .bytes _ | .anyByte | .sequence _ | .choice _
  | .optional _ | .repeated _ _ _ | .lookahead _ _ | .endOfInput | .epsilon | .nothing
  | .indirect _ => true
  | _ => false

namespace Semantics

section Rules

variable {input : Array UInt8} {R : Judgement} {pos stop : Nat} {token : Token}

theorem reads_of_agrees : ∀ {expected : List UInt8} {pos : Nat},
    Agrees input expected pos expected.length →
      Reads input pos expected (pos + expected.length) := by
  intro expected
  induction expected with
  | nil => intro pos _; exact .nil
  | cons first rest ih =>
      intro pos h
      have hfirst : input[pos]? = some first := h 0 (by simp)
      have hrest : Agrees input rest (pos + 1) rest.length := by
        intro i hi
        have hnext := h (i + 1) (by simp [hi])
        rw [List.getElem?_cons_succ] at hnext
        rw [← hnext]
        congr 1
        omega
      have hreads := ih hrest
      rw [Reads.cons_iff, List.length_cons, Nat.add_comm rest.length 1, ← Nat.add_assoc]
      exact ⟨hfirst, hreads⟩

theorem Leaf.reads {node : Node} (hkeeps : node.keepsBytes = true)
    (h : Leaf input node pos (.matched token stop)) : Reads input pos token.flatten stop := by
  cases h with
  | literal hb | range hb | set hb | anyByte hb => exact Reads.byte_iff.mpr ⟨hb, rfl⟩
  | bytes hagrees => exact reads_of_agrees hagrees
  | unsigned | signed => cases hkeeps
  | endOfInput | epsilon => exact .nil

/-- What the node at `id` matches, its token has. -/
def Keeps (input : Array UInt8) (R : Judgement) (id : NodeId) : Prop :=
  ∀ p token stop, R id p (.matched token stop) → Reads input p token.flatten stop

theorem Members.reads {ids : List NodeId} {tokens : List Token}
    (h : Members R ids pos tokens stop) (hR : ∀ id ∈ ids, Keeps input R id) :
    Reads input pos (Token.flattenAll tokens) stop := by
  induction h with
  | nil => exact .nil
  | cons hstep _ ih =>
      have hrest := ih fun id hid => hR id (List.mem_cons_of_mem _ hid)
      rw [Token.flattenAll]
      exact (hR _ List.mem_cons_self _ _ _ hstep).append hrest

theorem Rounds.reads {id : NodeId} {min : Nat} {max : Option Nat} {count : Nat}
    {tokens : List Token} (h : Rounds R id min max count pos tokens stop)
    (hR : Keeps input R id) : Reads input pos (Token.flattenAll tokens) stop := by
  induction h with
  | full | fails => exact .nil
  | stalls _ hstep =>
      rw [Token.flattenAll, Token.flattenAll, List.append_nil]
      exact hR _ _ _ hstep
  | round _ hstep _ _ ih =>
      rw [Token.flattenAll]
      exact (hR _ _ _ hstep).append ih

/-- A node that keeps bytes over children that do. -/
theorem Rule.reads {node : Node} (hkeeps : node.keepsBytes = true)
    (hR : ∀ child ∈ node.children, Keeps input R child)
    (h : Rule input R node pos (.matched token stop)) : Reads input pos token.flatten stop := by
  cases h with
  | leaf hleaf => exact hleaf.reads hkeeps
  | sequence hmembers => exact hmembers.reads hR
  | choice hfirst =>
      obtain ⟨id, hid, hstep⟩ := hfirst.exists_mem
      exact hR id hid _ _ _ hstep
  | optional hstep | indirect hstep => exact hR _ List.mem_cons_self _ _ _ hstep
  | repeated hrounds => exact hrounds.reads (hR _ List.mem_cons_self)
  | optional_none | followed | notFollowed => exact .nil
  | pick | sepBy | sepBy_none | action | length_bytes | length_nodes | whitespace => cases hkeeps

end Rules

/-- All that a node reaches keeps bytes. -/
def KeepsAll (g : Grammar) (id : NodeId) : Prop :=
  ∀ other, g.Reaches id other → ∀ node, g.node? other = some node → node.keepsBytes = true

theorem Yields.reads {g : Grammar} {input : Array UInt8} {id : NodeId} {pos : Nat} {step : Step}
    (h : Yields g input id pos step) : KeepsAll g id → ∀ token stop,
      step = .matched token stop → Reads input pos token.flatten stop := by
  induction h with
  | @node premises id node pos step _ hnode hrule ih =>
      intro hkeeps token stop hstep
      subst hstep
      refine hrule.reads (hkeeps id .refl node hnode) fun child hchild p token' stop' hpremise => ?_
      have hbelow : KeepsAll g child :=
        Grammar.forall_reaches_child hkeeps (Grammar.child_of_node? hnode hchild)
      exact ih child p _ hpremise hbelow token' stop' rfl

end Semantics

/-! ## Parses -/

/-- If all nodes that the start node reaches keep bytes, the bytes in the token of a parse
are those that the parse consumed. -/
theorem parse_lossless {b : Builder} {root : NodeId} {g : Grammar}
    (hbuild : b.build root = .ok g) (config : Config) (start : NodeId)
    (hkeeps : Semantics.KeepsAll g start) (input : List UInt8) {parsed : Parsed}
    (hrun : Parser.runFrom ⟨g, config⟩ start input = .ok parsed) :
    parsed.consumed ≤ input.length ∧
      parsed.token.flatten = input.take parsed.consumed := by
  have hg := Builder.wellFormed_of_build hbuild
  obtain ⟨hstart, s, hwalk⟩ := Parser.walk_of_runFrom_ok hrun
  obtain ⟨hyields, _⟩ := Semantics.invoke_yields hg hstart (Nat.zero_le _)
    Semantics.yielded_empty hwalk
  have hreads := hyields.reads hkeeps _ _ rfl
  have hlength : parsed.consumed = parsed.token.flatten.length := by
    have hstop := hreads.stop_eq
    omega
  have hinput : input = parsed.token.flatten ++ input.drop parsed.consumed := by
    have hrest := hreads.rest
    simpa using hrest
  refine ⟨?_, ?_⟩
  · have hle := hreads.stop_le (Nat.zero_le _)
    simpa using hle
  · rw [hlength] at hinput ⊢
    rw [hinput]
    simp

/-- Items in parentheses, any number inside of each. What closes one is tried two ways. -/
def braced : NodeId × Builder :=
  Id.run <| StateT.run (do
    let inner ← Builder.indirect
    let opening ← Builder.bytes [0x28]
    let closing ← Builder.bytes [0x29, 0x21]
    let emphatic ← Builder.sequence [opening, inner, closing]
    let stop ← Builder.literal 0x29
    let plain ← Builder.sequence [opening, inner, stop]
    let item ← Builder.choice [emphatic, plain]
    let items ← Builder.many item
    let _ ← Builder.define inner items
    return items) (Builder.new 0)

def bracedGrammar : Grammar := ⟨braced.2.arena, braced.2.nodes, braced.2.names, braced.1⟩

def bracedToken : Token :=
  .seq [.seq [.bytes [0x28], .seq [.seq [.bytes [0x28], .seq [], .bytes [0x29, 0x21]]],
    .byte 0x29]]

/-- What is inside the outer pair is read for the exclamation mark that is not there, and
given again from memory. -/
theorem parse_lossless_braced :
    braced.2.build braced.1 = .ok bracedGrammar ∧
    Semantics.KeepsAll bracedGrammar braced.1 ∧
    Parser.runFrom ⟨bracedGrammar, true, 16, true⟩ braced.1 [0x28, 0x28, 0x29, 0x21, 0x29] =
      .ok ⟨bracedToken, 5⟩ ∧
    bracedToken.flatten = [0x28, 0x28, 0x29, 0x21, 0x29] := by
  have hbuild : braced.2.build braced.1 = .ok bracedGrammar := rfl
  have hall : ∀ node ∈ bracedGrammar.nodes.toList, node.keepsBytes = true := by decide
  have hkeeps : Semantics.KeepsAll bracedGrammar braced.1 :=
    fun _ _ node hnode => hall node
      (Array.mem_toList_iff.mpr (Grammar.mem_of_node?_eq_some hnode))
  have hrun : Parser.runFrom ⟨bracedGrammar, true, 16, true⟩ braced.1
      [0x28, 0x28, 0x29, 0x21, 0x29] = .ok ⟨bracedToken, 5⟩ := by
    have hplain : Parser.runFrom ⟨bracedGrammar, true, 16, false⟩ braced.1
        [0x28, 0x28, 0x29, 0x21, 0x29] = .ok ⟨bracedToken, 5⟩ := by decide +kernel
    have hfree : ¬ (Parser.runFrom ⟨bracedGrammar, true, 16, false⟩ braced.1
        [0x28, 0x28, 0x29, 0x21, 0x29]).ReachesLimit := by
      rw [hplain]
      exact id
    rw [Parser.runFrom_remembering (Builder.wellFormed_of_build hbuild) hfree, hplain]
  obtain ⟨_, hflatten⟩ := parse_lossless hbuild ⟨true, 16, true⟩ braced.1 hkeeps
    [0x28, 0x28, 0x29, 0x21, 0x29] hrun
  exact ⟨hbuild, hkeeps, hrun, hflatten⟩

end Packrat
