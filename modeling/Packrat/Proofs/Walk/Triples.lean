import Packrat.Proofs.Walk.Answers

/-!
# What a walk leaves behind

`Ensures` says what holds of the progress when a walk has answered, given what
held before. A walk that gives up ensures anything.

The programs of the nodes share one habit: a failure is the last thing that
happens to them. Either it is made on the spot, or it is the failure of the node
tried last, handed on. So there are two states that a walk can be in. Between
nodes it is quiet. When a node has found its answer and has not left yet, and the
answer is a failure, that failure is due: it is noted, and no event has told of it.
`answer_ensures` is the walk through the programs of all nodes that shows the
habit, for whatever the two states are taken to mean.
-/

namespace Packrat.Walk

/-! ## Triples -/

/-- Where `pre` holds and the walk answers, `post` holds afterwards. -/
def Ensures {α : Type} (pre : Progress → Prop) (x : Walk α) (post : α → Progress → Prop) :
    Prop :=
  ∀ s, pre s → ∀ a s', x s = .ok a s' → post a s'

namespace Ensures

variable {α β : Type} {pre : Progress → Prop}

theorem pure {post : α → Progress → Prop} {a : α} (h : ∀ s, pre s → post a s) :
    Ensures pre (Pure.pure a) post := by
  intro s hs b s' hrun
  cases hrun
  exact h s hs

theorem throw {post : α → Progress → Prop} {e : Error} : Ensures pre (throw e : Walk α) post := by
  intro s _ b s' hrun
  cases hrun

theorem bind {x : Walk α} {f : α → Walk β} {mid : α → Progress → Prop}
    {post : β → Progress → Prop} (hx : Ensures pre x mid)
    (hf : ∀ a, Ensures (mid a) (f a) post) : Ensures pre (x >>= f) post := by
  intro s hs b s' hrun
  cases hfirst : x s with
  | error e s₁ =>
      rw [bind_of_error hfirst] at hrun
      cases hrun
  | ok a s₁ =>
      rw [bind_of_ok hfirst] at hrun
      exact hf a s₁ (hx s hs a s₁ hfirst) b s' hrun

/-- What else held before may be forgotten. -/
theorem left {x : Walk α} {other : Progress → Prop} {post : α → Progress → Prop}
    (hx : Ensures pre x post) : Ensures (fun s => pre s ∧ other s) x post :=
  fun s hs => hx s hs.1

theorem weaken {x : Walk α} {post post' : α → Progress → Prop} (hx : Ensures pre x post)
    (hpost : ∀ a s, post a s → post' a s) : Ensures pre x post' :=
  fun s hs a s' hrun => hpost a s' (hx s hs a s' hrun)

theorem ite {c : Prop} [Decidable c] {x y : Walk α} {post : α → Progress → Prop}
    (hx : Ensures pre x post) (hy : Ensures pre y post) :
    Ensures pre (if c then x else y) post := by
  by_cases hc : c
  · rw [if_pos hc]; exact hx
  · rw [if_neg hc]; exact hy

end Ensures

/-! ## Quiet and due -/

section Telling

variable (Quiet : Progress → Prop) (Due : Failure → Progress → Prop)

/-- After an answer, before the node is left: quiet, or the failure is due. -/
def Answered : Step → Progress → Prop
  | .matched _ _, s => Quiet s
  | .failed failure, s => Due failure s

/-- After a node was tried: quiet, and its failure might as well be due. -/
def Tried (step : Step) (s : Progress) : Prop := Quiet s ∧ Answered Quiet Due step s

/-- The same for what tries several nodes in a row. -/
def RunAnswered : Except Failure (Array Token × Nat) → Progress → Prop
  | .ok _, s => Quiet s
  | .error failure, s => Due failure s

/-- A failure is due once it is noted. -/
def Notes : Prop :=
  ∀ s failure, Quiet s → Due failure { s with furthest := further s.furthest failure }

end Telling

/-! ## The programs of the nodes -/

section Programs

variable {Quiet : Progress → Prop} {Due : Failure → Progress → Prop} {input : Array UInt8}
  {call : NodeId → Nat → Walk Step}

/-- Nodes are tried in quiet and leave quiet behind. -/
def Calls (Quiet : Progress → Prop) (Due : Failure → Progress → Prop)
    (call : NodeId → Nat → Walk Step) : Prop :=
  ∀ id pos, Ensures Quiet (call id pos) (Tried Quiet Due)

theorem matched_ensures {token : Token} {stop : Nat} :
    Ensures Quiet (pure (.matched token stop)) (Answered Quiet Due) :=
  Ensures.pure fun _ hs => hs

theorem fail_ensures (hnotes : Notes Quiet Due) {kind : Error.Kind} {pos : Nat} :
    Ensures Quiet (fail kind pos) (Answered Quiet Due) := by
  intro s hs step s' hrun
  cases hrun
  exact hnotes s ⟨kind, pos⟩ hs

/-- Going on after a node was tried. Its failure may be handed on. -/
theorem tried_ensures {α : Type} {x : Walk Step} {f : Step → Walk α}
    {post : α → Progress → Prop} (hx : Ensures Quiet x (Tried Quiet Due))
    (hmatched : ∀ token stop, Ensures Quiet (f (.matched token stop)) post)
    (hfailed : ∀ failure, Ensures (fun s => Quiet s ∧ Due failure s) (f (.failed failure)) post) :
    Ensures Quiet (x >>= f) post := by
  refine Ensures.bind hx ?_
  intro step
  cases step with
  | matched token stop => exact (hmatched token stop).left
  | failed failure => exact hfailed failure

theorem handed_on_ensures {failure : Failure} :
    Ensures (fun s => Quiet s ∧ Due failure s) (pure (.failed failure)) (Answered Quiet Due) :=
  Ensures.pure fun _ hs => hs.2

theorem oneByte_ensures (hnotes : Notes Quiet Due) {check : UInt8 → Option Error.Kind}
    {pos : Nat} : Ensures Quiet (oneByte input check pos) (Answered Quiet Due) := by
  unfold oneByte
  split
  · exact fail_ensures hnotes
  · split
    · exact matched_ensures
    · exact fail_ensures hnotes

theorem byteString_ensures (hnotes : Notes Quiet Due) {expected : List UInt8} {pos : Nat} :
    Ensures Quiet (byteString input expected pos) (Answered Quiet Due) := by
  unfold byteString
  split
  · exact matched_ensures
  · exact fail_ensures hnotes

theorem integer_ensures (hnotes : Notes Quiet Due) {width pos : Nat} {isSigned : Bool} :
    Ensures Quiet (integer input width isSigned pos) (Answered Quiet Due) := by
  unfold integer
  exact Ensures.ite matched_ensures (fail_ensures hnotes)

theorem members_ensures (hcall : Calls Quiet Due call) :
    ∀ {nodes : List NodeId} {tokens : Array Token} {cursor : Nat},
      Ensures Quiet (members call nodes tokens cursor) (RunAnswered Quiet Due) := by
  intro nodes
  induction nodes with
  | nil => intro tokens cursor; exact Ensures.pure fun _ hs => hs
  | cons first rest ih =>
      intro tokens cursor
      rw [members]
      exact tried_ensures (hcall first cursor) (fun _ _ => ih)
        fun _ => Ensures.pure fun _ hs => hs.2

theorem counted_ensures (hcall : Calls Quiet Due call) {node : NodeId} :
    ∀ {count : Nat} {tokens : Array Token} {cursor : Nat},
      Ensures Quiet (counted call node count tokens cursor) (RunAnswered Quiet Due) := by
  intro count
  induction count with
  | zero => intro tokens cursor; exact Ensures.pure fun _ hs => hs
  | succ count ih =>
      intro tokens cursor
      rw [counted]
      exact tried_ensures (hcall node cursor) (fun _ _ => ih)
        fun _ => Ensures.pure fun _ hs => hs.2

theorem firstOf_ensures (hnotes : Notes Quiet Due) (hcall : Calls Quiet Due call) {pos : Nat} :
    ∀ {alternatives : List NodeId},
      Ensures Quiet (firstOf call pos alternatives) (Answered Quiet Due) := by
  intro alternatives
  induction alternatives with
  | nil => exact fail_ensures hnotes
  | cons first rest ih =>
      rw [firstOf]
      exact tried_ensures (hcall first pos) (fun _ _ => matched_ensures)
        fun _ => ih.left

theorem repetition_ensures (hcall : Calls Quiet Due call) {node : NodeId} {min : Nat}
    {max : Option Nat} :
    ∀ {budget : Nat} {tokens : Array Token} {cursor : Nat},
      Ensures Quiet (repetition call node min max budget tokens cursor) fun _ => Quiet := by
  intro budget
  induction budget with
  | zero => intro tokens cursor; exact Ensures.pure fun _ hs => hs
  | succ budget ih =>
      intro tokens cursor
      rw [repetition]
      refine Ensures.ite (Ensures.pure fun _ hs => hs) ?_
      refine tried_ensures (hcall node cursor) (fun token stop => ?_)
        fun _ => Ensures.pure fun _ hs => hs.1
      exact Ensures.ite (Ensures.pure fun _ hs => hs) ih

theorem separated_ensures (hcall : Calls Quiet Due call) {node separator : NodeId} :
    ∀ {budget : Nat} {tokens : Array Token} {cursor : Nat},
      Ensures Quiet (separated call node separator budget tokens cursor) fun _ => Quiet := by
  intro budget
  induction budget with
  | zero => intro tokens cursor; exact Ensures.pure fun _ hs => hs
  | succ budget ih =>
      intro tokens cursor
      rw [separated]
      refine tried_ensures (hcall separator cursor) (fun _ behind => ?_)
        fun _ => Ensures.pure fun _ hs => hs.1
      refine tried_ensures (hcall node behind) (fun token stop => ?_)
        fun _ => Ensures.pure fun _ hs => hs.1
      exact Ensures.ite (Ensures.pure fun _ hs => hs) ih

theorem repeated_ensures (hnotes : Notes Quiet Due) (hcall : Calls Quiet Due call)
    {node : NodeId} {min : Nat} {max : Option Nat} {pos : Nat} :
    Ensures Quiet (repeated call input node min max pos) (Answered Quiet Due) := by
  unfold repeated
  refine Ensures.bind (repetition_ensures hcall) fun run => ?_
  exact Ensures.ite (fail_ensures hnotes) matched_ensures

theorem sepBy_ensures (hnotes : Notes Quiet Due) (hcall : Calls Quiet Due call)
    {node separator : NodeId} {min pos : Nat} :
    Ensures Quiet (sepBy call input node separator min pos) (Answered Quiet Due) := by
  unfold sepBy
  refine tried_ensures (hcall node pos) (fun token stop => ?_) fun failure => ?_
  · exact Ensures.bind (separated_ensures hcall) fun _ => matched_ensures
  · exact Ensures.ite matched_ensures.left (fail_ensures hnotes).left

theorem lengthValue_ensures (hnotes : Notes Quiet Due) (hcall : Calls Quiet Due call)
    {length : NodeId} {element : Element} {pos : Nat} :
    Ensures Quiet (lengthValue call input length element pos) (Answered Quiet Due) := by
  unfold lengthValue
  refine tried_ensures (hcall length pos) (fun countToken start => ?_) fun _ => handed_on_ensures
  simp only []
  split
  · exact Ensures.throw
  · cases element with
    | byte => exact Ensures.ite matched_ensures (fail_ensures hnotes)
    | node node =>
        refine Ensures.bind (counted_ensures hcall) fun run => ?_
        cases run with
        | ok found => exact matched_ensures
        | error failure => exact Ensures.pure fun _ hs => hs

/-- The answer of a node is found in quiet, and its failure is due. -/
theorem answer_ensures (hnotes : Notes Quiet Due) (hcall : Calls Quiet Due call) {task : Task}
    {id : NodeId} {pos : Nat} :
    Ensures Quiet (answer task call id pos) (Answered Quiet Due) := by
  unfold answer
  simp only []
  cases task.grammar.node? id with
  | none => exact Ensures.throw
  | some node =>
      cases node with
      | literal | range | set | anyByte => exact oneByte_ensures hnotes
      | bytes expected => exact byteString_ensures hnotes
      | unsigned width => exact integer_ensures hnotes
      | signed width => exact integer_ensures hnotes
      | sequence nodes | pick nodes keep =>
          refine Ensures.bind (members_ensures hcall) fun run => ?_
          cases run with
          | ok found => exact matched_ensures
          | error failure => exact Ensures.pure fun _ hs => hs
      | choice alternatives => exact firstOf_ensures hnotes hcall
      | optional inner =>
          exact tried_ensures (hcall inner pos) (fun _ _ => matched_ensures)
            fun _ => Ensures.pure fun _ hs => hs.1
      | repeated inner min max => exact repeated_ensures hnotes hcall
      | sepBy inner separator min => exact sepBy_ensures hnotes hcall
      | action inner action =>
          refine tried_ensures (hcall inner pos) (fun token stop => ?_)
            fun _ => handed_on_ensures
          simp only []
          split
          · exact matched_ensures
          · exact fail_ensures hnotes
      | lengthValue length element => exact lengthValue_ensures hnotes hcall
      | lookahead inner positive =>
          refine Ensures.bind (hcall inner pos) fun step => ?_
          exact Ensures.ite matched_ensures.left (fail_ensures hnotes).left
      | whitespace inner => exact (hcall inner _).weaken fun _ _ h => h.2
      | endOfInput => exact Ensures.ite matched_ensures (fail_ensures hnotes)
      | epsilon => exact matched_ensures
      | nothing => exact fail_ensures hnotes
      | indirect target =>
          cases target with
          | none => exact Ensures.throw
          | some target => exact (hcall target pos).weaken fun _ _ h => h.2

end Programs

end Packrat.Walk
