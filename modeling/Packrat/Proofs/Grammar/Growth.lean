import Packrat.Grammar.Decimal
import Packrat.Proofs.Grammar.Chains

/-!
# How an arena grows

An arena is built by requests, each given ids that earlier ones answered. Most add nodes
behind those that are there. One kind goes back to an old node: a definition turns an
empty placeholder into a bound one, and nothing turns it back, so a placeholder is bound
once at most. Everything else about an old node is settled when it is added.

That includes its children. An id of this arena was answered before the node was added,
so it stands further in front. Only a placeholder can refer to what comes after it, and
this is the order that recursion through a grammar goes by.
-/

namespace Packrat.Builder

/-! ## Requests -/

/-- The ids that a call is given. -/
def Call.ids : Call → List NodeId
  | .sequence nodes | .choice nodes => nodes
  | .optional node | .many node | .many1 node | .times node _ | .action node _ _
  | .followedBy node | .notFollowedBy node | .whitespace node | .name node _ => [node]
  | .sepBy node separator | .sepBy1 node separator => [node, separator]
  | .left keep skip => [keep, skip]
  | .right skip keep => [skip, keep]
  | .middle opening keep closing => [opening, keep, closing]
  | .lengthValue length .byte => [length]
  | .lengthValue length (.node node) => [length, node]
  | .define placeholder definition => [placeholder, definition]
  | _ => []

/-- A call as a construction step. Installing a definition answers no id. -/
def Call.run : Call → Build (Option NodeId)
  | .literal byte => some <$> Builder.literal byte
  | .range low high => some <$> Builder.range low high
  | .inSet members => some <$> Builder.inSet members
  | .notInSet others => some <$> Builder.notInSet others
  | .bytes expected => some <$> Builder.bytes expected
  | .anyByte => some <$> Builder.anyByte
  | .unsigned width => some <$> Builder.unsigned width
  | .signed width => some <$> Builder.signed width
  | .endOfInput => some <$> Builder.endOfInput
  | .epsilon => some <$> Builder.epsilon
  | .nothing => some <$> Builder.nothing
  | .sequence nodes => some <$> Builder.sequence nodes
  | .choice nodes => some <$> Builder.choice nodes
  | .optional node => some <$> Builder.optional node
  | .many node => some <$> Builder.many node
  | .many1 node => some <$> Builder.many1 node
  | .times node count => some <$> Builder.times node count
  | .sepBy node separator => some <$> Builder.sepBy node separator
  | .sepBy1 node separator => some <$> Builder.sepBy1 node separator
  | .left keep skip => some <$> Builder.left keep skip
  | .right skip keep => some <$> Builder.right skip keep
  | .middle opening keep closing => some <$> Builder.middle opening keep closing
  | .action node label apply => some <$> Builder.action node label apply
  | .lengthValue length element => some <$> Builder.lengthValue length element
  | .followedBy node => some <$> Builder.followedBy node
  | .notFollowedBy node => some <$> Builder.notFollowedBy node
  | .whitespace node => some <$> Builder.whitespace node
  | .indirect => some <$> Builder.indirect
  | .name node label => some <$> Builder.name node label
  | .define placeholder definition => (fun _ => none) <$> Builder.define placeholder definition

/-- What can be asked of an arena: a call, or one of the decimal numbers, which take
several calls each. -/
inductive Request where
  | call (c : Call)
  | digits
  | uint
  | sint

def Request.ids : Request → List NodeId
  | .call c => c.ids
  | .digits | .uint | .sint => []

def Request.run : Request → Build (Option NodeId)
  | .call c => c.run
  | .digits => some <$> Decimal.digits
  | .uint => some <$> Decimal.uint
  | .sint => some <$> Decimal.sint

/-- An arena under construction, and the ids that it has answered. -/
structure Workshop where
  builder : Builder
  issued : List NodeId

namespace Workshop

def opened (arena : Nat) : Workshop := ⟨new arena, []⟩

def serve (w : Workshop) (r : Request) : Workshop :=
  ⟨(r.run w.builder).2, (r.run w.builder).1.toList ++ w.issued⟩

def serveAll (w : Workshop) (requests : List Request) : Workshop := requests.foldl serve w

/-- The ids of this arena that a request is given were answered before. Those of other
arenas are their affair. -/
def Grants (w : Workshop) (r : Request) : Prop :=
  ∀ id ∈ r.ids, id.arena = w.builder.arena → id ∈ w.issued

/-- No request is given an id of this arena that it does not have yet. -/
def Honest (w : Workshop) : List Request → Prop
  | [] => True
  | r :: rest => w.Grants r ∧ (w.serve r).Honest rest

instance (w : Workshop) (r : Request) : Decidable (w.Grants r) :=
  inferInstanceAs (Decidable (∀ id ∈ r.ids, id.arena = w.builder.arena → id ∈ w.issued))

instance decidableHonest (w : Workshop) : (requests : List Request) → Decidable (w.Honest requests)
  | [] => inferInstanceAs (Decidable True)
  | r :: rest =>
    have := decidableHonest (w.serve r) rest
    inferInstanceAs (Decidable (w.Grants r ∧ (w.serve r).Honest rest))

end Workshop

/-- The arena that requests make of an empty one. -/
def built (arena : Nat) (requests : List Request) : Builder :=
  ((Workshop.opened arena).serveAll requests).builder

/-! ## Steps that only add -/

/-- An id of this arena leads to a node. -/
def Knows (b : Builder) (id : NodeId) : Prop := id.arena = b.arena → id.index < b.nodes.size

/-- Of its own arena a node refers to nodes in front of it, unless it is a placeholder. -/
def Descending (b : Builder) : Prop :=
  ∀ (i : Nat) (node : Node), b.nodes[i]? = some node → node.isIndirect = false →
    ∀ child ∈ node.children, child.arena = b.arena → child.index < i

/-- From `b` the step adds nodes or none, keeps the order, and answers an id that can be
used next. -/
structure Grows (b : Builder) (x : Build NodeId) : Prop where
  arena : (x b).2.arena = b.arena
  nodes : ∃ added, (x b).2.nodes = b.nodes ++ added
  descending : b.Descending → (x b).2.Descending
  knows : (x b).2.Knows (x b).1

section Growing

variable {b : Builder} {x : Build NodeId}

theorem Knows.mono {b' : Builder} {id : NodeId} (h : b.Knows id) (harena : b'.arena = b.arena)
    (hsize : b.nodes.size ≤ b'.nodes.size) : b'.Knows id :=
  fun hid => Nat.lt_of_lt_of_le (h (hid.trans harena)) hsize

theorem Grows.size_le (h : Grows b x) : b.nodes.size ≤ (x b).2.nodes.size := by
  obtain ⟨added, hadded⟩ := h.nodes
  rw [hadded, Array.size_append]
  omega

theorem Grows.keeps_knowing (h : Grows b x) {id : NodeId} (hid : b.Knows id) :
    (x b).2.Knows id :=
  hid.mono h.arena h.size_le

theorem Grows.add {node : Node} (h : ∀ child ∈ node.children, b.Knows child) :
    Grows b (add node) where
  arena := rfl
  nodes := ⟨#[node], rfl⟩
  knows := by
    intro _
    show b.nodes.size < (b.nodes.push node).size
    simp
  descending := by
    intro hb i other hother hplain child hchild harena
    have hpush : (b.nodes.push node)[i]? = some other := hother
    rw [Array.getElem?_push] at hpush
    split at hpush
    · next hi =>
        cases hpush
        rw [hi]
        exact h child hchild harena
    · exact hb i other hpush hplain child hchild harena

/-- A name changes nothing that is looked at here. -/
theorem name_keeps (node : NodeId) (label : String) (b : Builder) :
    (name node label b).1 = node ∧ (name node label b).2.arena = b.arena ∧
      (name node label b).2.nodes = b.nodes := by
  unfold Builder.name
  split
  · exact ⟨rfl, rfl, rfl⟩
  · exact ⟨rfl, rfl, rfl⟩

theorem Grows.name {node : NodeId} (h : b.Knows node) (label : String) :
    Grows b (name node label) := by
  obtain ⟨hanswer, harena, hnodes⟩ := name_keeps node label b
  exact {
    arena := harena
    nodes := ⟨#[], by rw [hnodes, Array.append_empty]⟩
    descending := by rw [Descending, Descending, hnodes, harena]; exact id
    knows := by rw [Knows, hanswer, harena, hnodes]; exact h }

theorem Grows.bind {f : NodeId → Build NodeId} (hx : Grows b x)
    (hf : Grows (x b).2 (f (x b).1)) : Grows b (x >>= f) where
  arena := hf.arena.trans hx.arena
  nodes := by
    obtain ⟨first, hfirst⟩ := hx.nodes
    obtain ⟨second, hsecond⟩ := hf.nodes
    refine ⟨first ++ second, ?_⟩
    show (f (x b).1 (x b).2).2.nodes = b.nodes ++ (first ++ second)
    rw [hsecond, hfirst, Array.append_assoc]
  descending h := hf.descending (hx.descending h)
  knows := hf.knows

/-- A node that refers to no other. -/
theorem Grows.leaf {node : Node} (h : node.children = []) : Grows b (Builder.add node) :=
  .add (by simp [h])

/-- A step that answers an id, and a node that refers to that. -/
theorem Grows.wrap {f : NodeId → Node} (hx : Grows b x)
    (hf : ∀ id, (f id).children = [id]) : Grows b (x >>= fun id => Builder.add (f id)) := by
  refine hx.bind (.add ?_)
  rw [hf]
  exact fun child hchild => List.mem_singleton.mp hchild ▸ hx.knows

/-- A step that answers an id, and a name for it. -/
theorem Grows.named (hx : Grows b x) (label : String) :
    Grows b (x >>= fun id => Builder.name id label) :=
  hx.bind (.name hx.knows label)

theorem digits_grows (b : Builder) : Grows b Decimal.digits := by
  have hrun : Grows b (Builder.range 0x30 0x39 >>= Builder.many1) :=
    (Grows.leaf rfl).wrap fun _ => rfl
  exact hrun.named "digits"

theorem uint_grows (b : Builder) : Grows b Decimal.uint := by
  have hnumber : Grows b (Decimal.digits >>= fun run =>
      Builder.action run "decimal-uint" Decimal.uintOfDigits) :=
    (digits_grows b).wrap fun _ => rfl
  exact hnumber.named "unsigned decimal"

theorem sint_grows (b : Builder) : Grows b Decimal.sint := by
  have hsign : Grows b (Builder.literal 0x2d >>= Builder.optional) :=
    (Grows.leaf rfl).wrap fun _ => rfl
  have hparts : Grows b (do
      let sign ← Builder.literal 0x2d >>= Builder.optional
      let run ← Decimal.digits
      Builder.sequence [sign, run]) := by
    refine hsign.bind ((digits_grows _).bind (.add ?_))
    intro child hchild
    rcases List.mem_cons.mp hchild with rfl | hchild
    · exact (digits_grows _).keeps_knowing hsign.knows
    · exact List.mem_singleton.mp hchild ▸ (digits_grows _).knows
  have hnumber := hparts.wrap
    (f := fun parts => .action parts ⟨"decimal-sint", Decimal.sintOfParts⟩) fun _ => rfl
  exact hnumber.named "signed decimal"

/-! ## What a request does -/

theorem Call.grows (c : Call) (h : ∀ id ∈ c.ids, b.Knows id) :
    (∃ x, c.run = some <$> x ∧ Grows b x) ∨
      ∃ placeholder definition, c = .define placeholder definition := by
  cases c with
  | define placeholder definition => exact .inr ⟨placeholder, definition, rfl⟩
  | name node label => exact .inl ⟨_, rfl, .name (h node List.mem_cons_self) label⟩
  | lengthValue length element =>
      cases element with
      | byte => exact .inl ⟨_, rfl, .add h⟩
      | node node => exact .inl ⟨_, rfl, .add h⟩
  | _ => exact .inl ⟨_, rfl, .add h⟩

/-- A request is a step that only adds, or it is a definition. -/
theorem Request.grows (r : Request) (h : ∀ id ∈ r.ids, b.Knows id) :
    (∃ x, r.run = some <$> x ∧ Grows b x) ∨
      ∃ placeholder definition, r = .call (.define placeholder definition) := by
  cases r with
  | call c =>
      refine (c.grows h).imp_right ?_
      rintro ⟨placeholder, definition, rfl⟩
      exact ⟨placeholder, definition, rfl⟩
  | digits => exact .inl ⟨_, rfl, digits_grows b⟩
  | uint => exact .inl ⟨_, rfl, uint_grows b⟩
  | sint => exact .inl ⟨_, rfl, sint_grows b⟩

theorem checkOwned_cases (b : Builder) (id : NodeId) :
    (b.checkOwned id = .ok () ∧ b.owns id = true) ∨ ∃ e, b.checkOwned id = .error e := by
  unfold checkOwned
  split
  · next howns => exact .inl ⟨rfl, howns⟩
  · exact .inr ⟨_, rfl⟩

/-- A definition that is installed goes into an empty placeholder of the arena. One that
is not leaves the arena alone. -/
theorem define_cases (placeholder definition : NodeId) (b : Builder) :
    ((define placeholder definition b).1 = .ok () ∧ b.owns placeholder = true ∧
      b.nodes[placeholder.index]? = some (.indirect none) ∧
      (define placeholder definition b).2 = { b with
        nodes := b.nodes.setIfInBounds placeholder.index (.indirect (some definition)) }) ∨
    ((∃ e, (define placeholder definition b).1 = .error e) ∧
      (define placeholder definition b).2 = b) := by
  unfold define defined
  rcases checkOwned_cases b placeholder with ⟨hplaceholder, howns⟩ | ⟨e, hplaceholder⟩
  · rcases checkOwned_cases b definition with ⟨hdefinition, _⟩ | ⟨e, hdefinition⟩
    · rw [hplaceholder, hdefinition]
      cases hnode : b.nodes[placeholder.index]? with
      | none => exact .inr ⟨⟨_, rfl⟩, rfl⟩
      | some node =>
          cases node with
          | indirect target =>
              cases target with
              | none => exact .inl ⟨rfl, howns, rfl, rfl⟩
              | some target => exact .inr ⟨⟨_, rfl⟩, rfl⟩
          | _ => exact .inr ⟨⟨_, rfl⟩, rfl⟩
    · rw [hplaceholder, hdefinition]
      exact .inr ⟨⟨e, rfl⟩, rfl⟩
  · rw [hplaceholder]
    exact .inr ⟨⟨e, rfl⟩, rfl⟩

theorem Descending.bind (h : b.Descending) (i : Nat) (definition : NodeId) :
    Descending { b with nodes := b.nodes.setIfInBounds i (.indirect (some definition)) } := by
  intro j node hnode hplain child hchild harena
  have hset : (b.nodes.setIfInBounds i (.indirect (some definition)))[j]? = some node := hnode
  rw [Array.getElem?_setIfInBounds] at hset
  split at hset
  · split at hset
    · cases hset
      cases hplain
    · cases hset
  · exact h j node hset hplain child hchild harena

end Growing

/-! ## Runs -/

/-- What a request has done to the nodes: given a name to one, which leaves them alone;
put a definition in an empty placeholder, unless it was refused; or added to them. -/
def Served (b : Builder) : Request → Builder → Prop
  | .call (.name _ _), b' => b'.nodes = b.nodes
  | .call (.define placeholder definition), b' =>
      ((define placeholder definition b).1 = .ok () ∧ b.owns placeholder = true ∧
        b.nodes[placeholder.index]? = some (.indirect none) ∧
        b'.nodes = b.nodes.setIfInBounds placeholder.index (.indirect (some definition))) ∨
      ((∃ e, (define placeholder definition b).1 = .error e) ∧ b'.nodes = b.nodes)
  | _, b' => ∃ added, b'.nodes = b.nodes ++ added

/-- No node but an empty placeholder has changed. -/
def Keeps (b b' : Builder) : Prop :=
  ∀ (i : Nat) (node : Node), b.nodes[i]? = some node → node ≠ .indirect none →
    b'.nodes[i]? = some node

theorem keeps_append {b b' : Builder} {added : Array Node} (h : b'.nodes = b.nodes ++ added) :
    b.Keeps b' := by
  intro i node hnode _
  have hlt : i < b.nodes.size := (Array.getElem?_eq_some_iff.mp hnode).1
  rw [h, Array.getElem?_append_left hlt]
  exact hnode

theorem keeps_set {b b' : Builder} {k : Nat} {node : Node}
    (hempty : b.nodes[k]? = some (.indirect none)) (h : b'.nodes = b.nodes.setIfInBounds k node) :
    b.Keeps b' := by
  intro i other hother hfull
  have hne : k ≠ i := by
    rintro rfl
    rw [hempty] at hother
    cases hother
    exact hfull rfl
  rw [h, Array.getElem?_setIfInBounds_ne hne]
  exact hother

theorem Served.keeps {b b' : Builder} {r : Request} (h : b.Served r b') : b.Keeps b' := by
  have hsame : b'.nodes = b.nodes → b.Keeps b' := fun h' _ _ hnode _ => h' ▸ hnode
  unfold Served at h
  split at h
  · exact hsame h
  · rcases h with ⟨_, _, hempty, hset⟩ | ⟨_, hnodes⟩
    · exact keeps_set hempty hset
    · exact hsame hnodes
  · obtain ⟨added, hadded⟩ := h
    exact keeps_append hadded

namespace Workshop

/-- What holds of an arena whose requests were honest. -/
structure Sound (w : Workshop) : Prop where
  descending : w.builder.Descending
  knows : ∀ id ∈ w.issued, w.builder.Knows id

variable {w : Workshop} {r : Request} {arena : Nat}

theorem sound_opened (arena : Nat) : (opened arena).Sound where
  descending := by
    intro i node hnode
    simp [opened, new] at hnode
  knows := nofun

theorem Sound.knows_of_grants (h : w.Sound) (hr : w.Grants r) :
    ∀ id ∈ r.ids, w.builder.Knows id :=
  fun id hid harena => h.knows id (hr id hid harena) harena

theorem Sound.serve (h : w.Sound) (hr : w.Grants r) : (w.serve r).Sound := by
  rcases r.grows (h.knows_of_grants hr) with ⟨x, hrun, hgrows⟩ | ⟨placeholder, definition, rfl⟩
  · have hserve : w.serve r = ⟨(x w.builder).2, (x w.builder).1 :: w.issued⟩ := by
      rw [Workshop.serve, hrun]
      rfl
    rw [hserve]
    refine ⟨hgrows.descending h.descending, ?_⟩
    intro id hid
    rcases List.mem_cons.mp hid with rfl | hold
    · exact hgrows.knows
    · exact hgrows.keeps_knowing (h.knows id hold)
  · have hserve : w.serve (.call (.define placeholder definition)) =
        ⟨(define placeholder definition w.builder).2, w.issued⟩ := rfl
    rw [hserve]
    rcases define_cases placeholder definition w.builder with ⟨_, _, _, hset⟩ | ⟨_, hsame⟩
    · rw [hset]
      refine ⟨h.descending.bind _ _, fun id hid => (h.knows id hid).mono rfl ?_⟩
      exact Nat.le_of_eq Array.size_setIfInBounds.symm
    · rw [hsame]
      exact ⟨h.descending, h.knows⟩

theorem Sound.served (h : w.Sound) (hr : w.Grants r) :
    w.builder.Served r (w.serve r).builder := by
  unfold Served
  split
  · exact (name_keeps _ _ _).2.2
  · next placeholder definition =>
      rcases define_cases placeholder definition w.builder with
        ⟨hok, howns, hempty, hset⟩ | ⟨hrefused, hsame⟩
      · exact .inl ⟨hok, howns, hempty, congrArg Builder.nodes hset⟩
      · exact .inr ⟨hrefused, congrArg Builder.nodes hsame⟩
  · next r _ _ _ hdefine =>
      rcases r.grows (h.knows_of_grants hr) with ⟨x, hrun, hgrows⟩ | ⟨p, d, heq⟩
      · rw [Workshop.serve, hrun]
        exact hgrows.nodes
      · exact (hdefine p d heq).elim

/-! ### Many requests -/

theorem serveAll_append (w : Workshop) (before after : List Request) :
    w.serveAll (before ++ after) = (w.serveAll before).serveAll after :=
  List.foldl_append

theorem Honest.append {before after : List Request} :
    ∀ {w : Workshop}, w.Honest (before ++ after) →
      w.Honest before ∧ (w.serveAll before).Honest after := by
  induction before with
  | nil => intro w h; exact ⟨trivial, h⟩
  | cons r rest ih =>
      intro w h
      obtain ⟨hrest, hafter⟩ := ih h.2
      exact ⟨⟨h.1, hrest⟩, hafter⟩

theorem Sound.serveAll {requests : List Request} :
    ∀ {w : Workshop}, w.Sound → w.Honest requests → (w.serveAll requests).Sound := by
  induction requests with
  | nil => intro w h _; exact h
  | cons r rest ih => intro w h hhonest; exact ih (h.serve hhonest.1) hhonest.2

theorem Sound.keeps {requests : List Request} :
    ∀ {w : Workshop}, w.Sound → w.Honest requests →
      w.builder.Keeps (w.serveAll requests).builder := by
  induction requests with
  | nil => intro w _ _ i node hnode _; exact hnode
  | cons r rest ih =>
      intro w h hhonest i node hnode hfull
      have hnode' := (h.served hhonest.1).keeps i node hnode hfull
      exact ih (h.serve hhonest.1) hhonest.2 i node hnode' hfull

/-- A placeholder that was bound is not bound again. -/
theorem Sound.define_refused {placeholder definition definition' : NodeId}
    {between : List Request} (h : w.Sound)
    (hhonest : w.Honest (.call (.define placeholder definition) :: between))
    (hok : (define placeholder definition w.builder).1 = .ok ()) :
    ∃ e, (define placeholder definition'
      (w.serveAll (.call (.define placeholder definition) :: between)).builder).1 = .error e := by
  have hnode : (w.serve (.call (.define placeholder definition))).builder.nodes[
      placeholder.index]? = some (.indirect (some definition)) := by
    rcases define_cases placeholder definition w.builder with ⟨_, _, hempty, hset⟩ | ⟨⟨e, he⟩, _⟩
    · have hlt : placeholder.index < w.builder.nodes.size :=
        (Array.getElem?_eq_some_iff.mp hempty).1
      show (define placeholder definition w.builder).2.nodes[placeholder.index]? = _
      rw [hset]
      exact Array.getElem?_setIfInBounds_self_of_lt hlt
    · rw [hok] at he
      cases he
  have hkept : (w.serveAll (.call (.define placeholder definition) :: between)).builder.nodes[
      placeholder.index]? = some (.indirect (some definition)) :=
    (h.serve hhonest.1).keeps hhonest.2 _ _ hnode nofun
  rcases define_cases placeholder definition' (w.serveAll
    (.call (.define placeholder definition) :: between)).builder with ⟨_, _, hempty, _⟩ | ⟨he, _⟩
  · rw [hkept] at hempty
    cases hempty
  · exact he

end Workshop

end Packrat.Builder
