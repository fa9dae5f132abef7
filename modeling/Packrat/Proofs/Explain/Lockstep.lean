import Packrat.Proofs.Explain.Abreast
import Packrat.Proofs.Walk.Limit

/-!
# A plain walk and one that remembers, side by side

Here the two walks are taken together. As long as neither of them comes to its limit, they
answer the same, meet the same furthest failure, and stay abreast in what is expected at a
position. If one gives up over a length, the other does too, at the same place.

The comparison is one sided as before. The plain walk does not look at what went before,
so all of it is said by the word that it recites. The walk that remembers is compared from
any progress that is abreast of a plain one and whose memory recalls nothing that was not
told.
-/

namespace Packrat

/-! ## The memory -/

/-- The plain walk answers so at the node, and tells of it in this word. -/
def Recited (g : Grammar) (input : Array UInt8) (id : NodeId) (pos : Nat) (step : Step)
    (found : Option Failure) (word : List Event) : Prop :=
  ∃ config allowance depth, config.memoize = false ∧
    Walk.Recites (Walk.invoke ⟨g, input, config⟩ allowance depth id pos) step found word ∧
    Visits false depth word

/-- Every answer in the memory is one of the plain walk, and what is told for it has been
told. Hearing it again changes nothing, or it was found beneath a name. -/
def Recalls (g : Grammar) (input : Array UInt8) (position : Nat) (told : List Refusal)
    (more : List String) (events : List Event) (memory : Memory) : Prop :=
  ∀ id pos step found, g.contains id = true → memory[(id.index, pos)]? = some (step, found) →
    ∃ word, Recited g input id pos step found word ∧ (∀ r ∈ refusals word, r ∈ told) ∧
      (heard g position more word = more ∨ FoundBeneath g position id pos events)

section Memory

variable {g : Grammar} {input : Array UInt8} {position : Nat} {told rs : List Refusal}
  {more later : List String} {events : List Event} {memory memory' : Memory}

/-- An entry is the one that was put in, or an old one. -/
theorem eq_or_of_insert {id id' : NodeId} {pos pos' : Nat} {entry entry' : Step × Option Failure}
    (hid : g.contains id = true) (hid' : g.contains id' = true)
    (hentry : (memory.insert (id.index, pos) entry)[(id'.index, pos')]? = some entry') :
    (id' = id ∧ pos' = pos ∧ entry' = entry) ∨ memory[(id'.index, pos')]? = some entry' := by
  rw [Std.HashMap.getElem?_insert] at hentry
  split at hentry
  · next hkey =>
      obtain ⟨hindex, hpos⟩ := Prod.mk.inj (beq_iff_eq.mp hkey)
      have heq : id' = id := by
        rw [Grammar.eq_of_contains hid, Grammar.eq_of_contains hid', hindex]
      exact .inl ⟨heq, hpos.symm, (Option.some.inj hentry).symm⟩
  · exact .inr hentry

theorem recalls_empty : Recalls g input position told more events ∅ := by
  intro id pos step found _ hentry
  rw [Std.HashMap.getElem?_empty] at hentry
  cases hentry

theorem Recited.expects {id : NodeId} {pos : Nat} {step : Step} {found : Option Failure}
    {word : List Event} (h : Recited g input id pos step found word) :
    Expects g position (refusals word) (heard g position · word) := by
  obtain ⟨_, _, _, _, _, hvisits⟩ := h
  exact hvisits.expects g position

/-- A node is always told of in the same words. -/
theorem Recited.alike (hg : g.WellFormed) {id : NodeId} {pos : Nat} (hid : g.contains id = true)
    (hpos : pos ≤ input.size) {step step' : Step} {found found' : Option Failure}
    {word word' : List Event} (h : Recited g input id pos step found word)
    (h' : Recited g input id pos step' found' word') :
    step = step' ∧ found = found' ∧ Alike word word' := by
  obtain ⟨_, _, _, hplain, hword, _⟩ := h
  obtain ⟨_, _, _, hplain', hword', _⟩ := h'
  exact hword.alike hg hplain hplain' hid hpos hword'

/-- What would change nothing changes nothing when more is expected. -/
theorem Expects.still_settled {f : List String → List String} (h : Expects g position rs f)
    (hsettled : f more = more) (hsub : more ⊆ later) : f later = later :=
  h.settled more later (hsettled.symm ▸ hsub)

theorem Recalls.mono (h : Recalls g input position told more events memory)
    (rs : List Refusal) (hsub : more ⊆ later) (after : List Event) :
    Recalls g input position (told ++ rs) later (events ++ after) memory := by
  intro id pos step found hid hentry
  obtain ⟨word, hword, htold, hheard⟩ := h id pos step found hid hentry
  refine ⟨word, hword, fun r hr => List.mem_append_left _ (htold r hr), ?_⟩
  exact hheard.imp (fun hsettled => hword.expects.still_settled hsettled hsub)
    fun hfound => hfound.append after

theorem Recalls.insert (h : Recalls g input position told more events memory) {id : NodeId}
    {pos : Nat} {step : Step} {found : Option Failure} {word : List Event}
    (hid : g.contains id = true) (hword : Recited g input id pos step found word)
    (htold : ∀ r ∈ refusals word, r ∈ told) (hheard : heard g position more word = more) :
    Recalls g input position told more events (memory.insert (id.index, pos) (step, found)) := by
  intro id' pos' step' found' hid' hentry
  rcases eq_or_of_insert hid hid' hentry with ⟨rfl, rfl, heq⟩ | hold
  · cases heq
    exact ⟨word, hword, htold, .inl hheard⟩
  · exact h id' pos' step' found' hid' hold

/-- The entries are old ones, or were found on the way. -/
def Gains (g : Grammar) (memory memory' : Memory) (word : List Event) : Prop :=
  ∀ id pos entry, g.contains id = true → memory'[(id.index, pos)]? = some entry →
    memory[(id.index, pos)]? = some entry ∨ Evaluated id pos word

variable {id : NodeId} {pos depth : Nat} {step : Step} {word word' : List Event}

theorem Gains.trans {memory'' : Memory} (h : Gains g memory memory' word)
    (h' : Gains g memory' memory'' word') : Gains g memory memory'' (word ++ word') := by
  intro id pos entry hid hentry
  rcases h' id pos entry hid hentry with hentry | hfound
  · exact (h id pos entry hid hentry).imp_right fun hfound => hfound.append_right _
  · exact .inr (hfound.append_left _)

/-- The entry of a node that was evaluated. -/
theorem Gains.insert (h : Gains g memory memory' word') (hword' : Visits true (depth + 1) word')
    (hid : g.contains id = true) (entry : Step × Option Failure) :
    Gains g memory (memory'.insert (id.index, pos) entry)
      (.enter id pos depth :: (word' ++ [Walk.leaving id pos depth step])) := by
  intro id' pos' entry' hid' hentry
  rcases eq_or_of_insert hid hid' hentry with ⟨rfl, rfl, _⟩ | hold
  · exact .inr ⟨[], depth, word', _, [], rfl, hword', Walk.closes_leaving id' pos' depth step⟩
  · refine (h id' pos' entry' hid' hold).imp_right fun hfound => ?_
    exact (hfound.append_right _).append_left [.enter id pos depth]

/-- A node that takes away what its inside brought. -/
theorem hides_leaving {r : Refusal} (hwithin : step.Within pos input.size)
    (htold : (Walk.leaving id pos depth step).refusal? = some r) (hhere : r.position = position)
    (hname : (g.name? r.node).isSome) (hstuck : position ≤ r.start) :
    pos = position ∧ (g.name? id).isSome ∧
      ∃ kind, Walk.leaving id pos depth step = .failed id pos kind pos depth := by
  cases step with
  | matched token stop => cases htold
  | failed failure =>
      cases htold
      have hhere' : failure.position = position := hhere
      have hstuck' : position ≤ pos := hstuck
      have hle := hwithin.1
      have heq : failure.position = pos := by omega
      exact ⟨by omega, hname, failure.kind, by rw [Walk.leaving, heq]⟩

/-- After a node is left, what was found inside has been heard of, or the node's name has
taken its place. -/
theorem Recalls.leave (h : Recalls g input position told more events memory)
    (hword : Visits false (depth + 1) word) (hword' : Visits true (depth + 1) word')
    (hwithin : step.Within pos input.size)
    (hinner : Recalls g input position (told ++ refusals word) (heard g position more word)
      (events ++ .enter id pos depth :: word') memory')
    (hgains : Gains g memory memory' word') :
    Recalls g input position
      (told ++ refusals (.enter id pos depth :: (word ++ [Walk.leaving id pos depth step])))
      (heard g position more (.enter id pos depth :: (word ++ [Walk.leaving id pos depth step])))
      (events ++ .enter id pos depth :: (word' ++ [Walk.leaving id pos depth step])) memory' := by
  have hexit := Walk.closes_leaving id pos depth step
  have hgrows := ((hword.expects g position).around (Walk.leaving id pos depth step)).grows more
  rw [refusals_around, heard_around (.inl hword) hexit, ← List.append_assoc told]
  have hevents : events ++ .enter id pos depth :: (word' ++ [Walk.leaving id pos depth step]) =
      (events ++ .enter id pos depth :: word') ++ [Walk.leaving id pos depth step] := by simp
  rcases left_keeps_or_hides g position (Walk.leaving id pos depth step) with
    hkeeps | ⟨r, htold, hhere, hname, hstuck⟩
  · rw [hevents]
    exact hinner.mono _ (hkeeps _ _) _
  · obtain ⟨rfl, hnamed, kind, hfailed⟩ := hides_leaving hwithin htold hhere hname hstuck
    intro id' pos' step' found' hid' hentry
    rcases hgains id' pos' _ hid' hentry with hold | hnew
    · -- what was known before the node is still settled, as nothing from before was taken away
      obtain ⟨word₀, hword₀, htold₀, hheard₀⟩ :=
        h.mono (refusals word ++ (Walk.leaving id pos depth step).refusal?.toList) hgrows.subset
          (.enter id pos depth :: (word' ++ [Walk.leaving id pos depth step]))
          id' pos' step' found' hid' hold
      rw [← List.append_assoc] at htold₀
      exact ⟨word₀, hword₀, htold₀, hheard₀⟩
    · obtain ⟨word₁, hword₁, htold₁, _⟩ := hinner id' pos' step' found' hid' hentry
      refine ⟨word₁, hword₁, fun r hr => List.mem_append_left _ (htold₁ r hr), .inr ?_⟩
      exact ⟨events, id, depth, word', kind, [], by rw [hfailed], hword', hnamed, hnew⟩

end Memory

namespace Walk

/-! ## Side by side -/

/-- The progress of a walk that remembers, abreast of a plain one. -/
structure Level (g : Grammar) (input : Array UInt8) (position : Nat) (told : List Refusal)
    (more : List String) (t : Progress) (fewer : List String) : Prop where
  abreast : Abreast g position told more t.events.toList fewer
  recalls : Recalls g input position told more t.events.toList t.memo

/-- The walk answers `a` and meets `found`, and it stays abreast of a plain one that
recites `word`. -/
def KeepsUp (g : Grammar) (input : Array UInt8) (position limit depth : Nat) {α : Type}
    (y : Walk α) (a : α) (found : Option Failure) (word : List Event) : Prop :=
  ∀ t told more fewer, Level g input position told more t fewer →
    CutShort limit (y t) ∨ ∃ t' word', y t = .ok a t' ∧ Visits true depth word' ∧
      t'.furthest = join t.furthest found ∧ t'.events.toList = t.events.toList ++ word' ∧
      Gains g t.memo t'.memo word' ∧
      Level g input position (told ++ refusals word) (heard g position more word) t'
        (heard g position fewer word')

/-- The walk gives up with `e`, abreast of a plain one that was cut off after `word`. -/
def StopsWith (g : Grammar) (input : Array UInt8) (position limit depth : Nat) {α : Type}
    (y : Walk α) (e : Error) (word : List Event) : Prop :=
  ∀ t told more fewer, Level g input position told more t fewer →
    CutShort limit (y t) ∨ ∃ t' word', y t = .error e t' ∧ Unfinished true depth word' ∧
      t'.events.toList = t.events.toList ++ word' ∧
      Abreast g position (told ++ refusals word) (heard g position more word)
        (t.events.toList ++ word') (heard g position fewer word')

/-- A plain walk that gives up after `word`. -/
def CutOff {α : Type} (x : Walk α) (e : Error) (word : List Event) : Prop :=
  ∀ s, ∃ s', x s = .error e s' ∧ s'.events.toList = s.events.toList ++ word

/-- The plain walk `x` answers, or gives up over a length or at its limit. Unless it is a
limit, `y` does the same and stays abreast. -/
inductive Alongside (g : Grammar) (input : Array UInt8) (position limit limit' depth : Nat)
    {α : Type} (Q : α → Prop) (x y : Walk α) : Prop where
  | answers (a : α) (found : Option Failure) (word : List Event) (post : Q a)
      (visits : Visits false depth word) (left : Recites x a found word)
      (right : KeepsUp g input position limit' depth y a found word)
  | misuse (shape : Token.Shape) (pos : Nat) (word : List Event)
      (unfinished : Unfinished false depth word)
      (left : CutOff x (.located (.invalidLength shape) pos) word)
      (right : StopsWith g input position limit' depth y (.located (.invalidLength shape) pos)
        word)
  | limit (pos : Nat) (left : Aborts Unread x (.located (.recursionLimit limit) pos))

section Alongside

variable {g : Grammar} {input : Array UInt8} {position limit limit' depth : Nat}
  {α β : Type} {a : α} {found found' : Option Failure} {word word' : List Event}
  {y : Walk α} {e : Error}

theorem KeepsUp.pure (a : α) :
    KeepsUp g input position limit depth (Pure.pure a) a none [] := by
  intro t told more fewer hlevel
  refine .inr ⟨t, [], rfl, .nil, rfl, (List.append_nil _).symm, fun _ _ _ _ h => .inl h, ?_⟩
  rw [refusals_nil, List.append_nil]
  exact hlevel

theorem KeepsUp.offer (failure : Failure) :
    KeepsUp g input position limit depth (Walk.offer failure) () (some failure) [] := by
  intro t told more fewer hlevel
  refine .inr ⟨_, [], rfl, .nil, rfl, (List.append_nil _).symm, fun _ _ _ _ h => .inl h, ?_⟩
  rw [refusals_nil, List.append_nil]
  exact ⟨hlevel.abreast, hlevel.recalls⟩

theorem KeepsUp.bind {f : α → Walk β} {b : β} (hword : Visits false depth word)
    (hy : KeepsUp g input position limit depth y a found word)
    (hf : KeepsUp g input position limit depth (f a) b found' word') :
    KeepsUp g input position limit depth (y >>= f) b (join found found') (word ++ word') := by
  intro t told more fewer hlevel
  rcases hy t told more fewer hlevel with
    hcut | ⟨t₁, w, hrun, hw, hfurthest, hevents, hgains, hlevel₁⟩
  · exact .inl (hcut.bind f)
  · rw [bind_of_ok hrun]
    refine (hf t₁ _ _ _ hlevel₁).imp_right ?_
    rintro ⟨t₂, w', hrun', hw', hfurthest', hevents', hgains', hlevel₂⟩
    refine ⟨t₂, w ++ w', hrun', hw.append hw', ?_, ?_, hgains.trans hgains', ?_⟩
    · rw [hfurthest', hfurthest, join_assoc]
    · rw [hevents', hevents, List.append_assoc]
    · rw [refusals_append, ← List.append_assoc, heard_append hword, heard_append hw]
      exact hlevel₂

theorem KeepsUp.bind_stops {f : α → Walk β} (hword : Visits false depth word)
    (hy : KeepsUp g input position limit depth y a found word)
    (hf : StopsWith g input position limit depth (f a) e word') :
    StopsWith g input position limit depth (y >>= f) e (word ++ word') := by
  intro t told more fewer hlevel
  rcases hy t told more fewer hlevel with
    hcut | ⟨t₁, w, hrun, hw, _, hevents, _, hlevel₁⟩
  · exact .inl (hcut.bind f)
  · rw [bind_of_ok hrun]
    refine (hf t₁ _ _ _ hlevel₁).imp_right ?_
    rintro ⟨t₂, w', hrun', hw', hevents', habreast⟩
    rw [hevents] at hevents' habreast
    refine ⟨t₂, w ++ w', hrun', hw.append_unfinished hw', ?_, ?_⟩
    · rw [hevents', List.append_assoc]
    · rw [refusals_append, ← List.append_assoc, ← List.append_assoc, heard_append hword,
        heard_append hw]
      exact habreast

theorem StopsWith.throw (e : Error) :
    StopsWith g input position limit depth (throw e : Walk α) e [] := by
  intro t told more fewer hlevel
  refine .inr ⟨t, [], rfl, .between .nil, (List.append_nil _).symm, ?_⟩
  rw [refusals_nil, List.append_nil, List.append_nil]
  exact hlevel.abreast

theorem StopsWith.bind {f : α → Walk β}
    (hy : StopsWith g input position limit depth y e word) :
    StopsWith g input position limit depth (y >>= f) e word := by
  intro t told more fewer hlevel
  rcases hy t told more fewer hlevel with hcut | ⟨t', w, hrun, hrest⟩
  · exact .inl (hcut.bind f)
  · exact .inr ⟨t', w, bind_of_error hrun, hrest⟩

theorem CutOff.throw (e : Error) : CutOff (throw e : Walk α) e [] :=
  fun s => ⟨s, rfl, (List.append_nil _).symm⟩

theorem CutOff.bind {x : Walk α} {f : α → Walk β} (hx : CutOff x e word) :
    CutOff (x >>= f) e word := by
  intro s
  obtain ⟨s', hrun, hevents⟩ := hx s
  exact ⟨s', bind_of_error hrun, hevents⟩

theorem CutOff.aborts {x : Walk α} (hx : CutOff x e word) : Aborts Unread x e :=
  fun s _ => (hx s).imp fun _ h => h.1

theorem Recites.bind_cutOff {x : Walk α} {f : α → Walk β} (hx : Recites x a found word)
    (hf : CutOff (f a) e word') : CutOff (x >>= f) e (word ++ word') := by
  intro s
  obtain ⟨s', hrun, hevents⟩ := hf (s.after found word)
  exact ⟨s', by rw [bind_of_ok (hx s), hrun], by rw [hevents]; simp [Progress.after]⟩

theorem alongside_congruence (g : Grammar) (input : Array UInt8)
    (position limit limit' depth size : Nat) :
    Congruence size (Alongside g input position limit limit' depth) where
  pure hQ := .answers _ none [] hQ .nil (Recites.pure _) (KeepsUp.pure _)
  offer _ _ := .answers () _ [] trivial .nil (Recites.offer _) (KeepsUp.offer _)
  invalidLength _ := .misuse _ _ [] (.between .nil) (CutOff.throw _) (StopsWith.throw _)
  bind := by
    intro α β P Q x y f k hxy hfk
    cases hxy with
    | limit pos left => exact .limit pos left.bind
    | misuse shape pos word unfinished left right =>
        exact .misuse shape pos word unfinished left.bind right.bind
    | answers a found word post visits left right =>
        cases hfk a post with
        | limit pos left' => exact .limit pos (left.answers.bind_aborts left')
        | misuse shape pos word' unfinished left' right' =>
            exact .misuse shape pos _ (visits.append_unfinished unfinished)
              (left.bind_cutOff left') (right.bind_stops visits right')
        | answers b found' word' post' visits' left' right' =>
            exact .answers b _ _ post' (visits.append visits') (left.bind left')
              (right.bind visits right')

/-! ## Around a node -/

section Node

variable {config : Config} {allowance : Nat} {id : NodeId} {pos : Nat} {step : Step}
  {work : Walk Step}

/-- The progress from which the work on a node is run. -/
theorem Level.enter {told : List Refusal} {more fewer : List String} {t : Progress}
    (h : Level g input position told more t fewer) (id : NodeId) (pos depth : Nat) :
    Level g input position told more
      { t with furthest := none, events := t.events.push (.enter id pos depth) } fewer where
  abreast := by
    show Abreast g position told more (t.events.push (.enter id pos depth)).toList fewer
    rw [Array.toList_push]
    exact h.abreast.enter id pos depth
  recalls := by
    show Recalls g input position told more (t.events.push (.enter id pos depth)).toList t.memo
    have hmono := h.recalls.mono [] (List.Subset.refl more) [.enter id pos depth]
    rwa [List.append_nil, ← Array.toList_push] at hmono

/-- A walk that remembers visits a node of which the plain one recites the work. -/
theorem KeepsUp.visit (hg : g.WellFormed) (hid : g.contains id = true)
    (hpos : pos ≤ input.size) (hmemo : config.memoize = true)
    (hwithin : step.Within pos input.size) (hword : Visits false (depth + 1) word)
    (hplain : Recited g input id pos step found
      (.enter id pos depth :: (word ++ [leaving id pos depth step])))
    (hwork : KeepsUp g input position limit (depth + 1) work step found word) :
    KeepsUp g input position limit depth (visit config id pos depth work) step found
      (.enter id pos depth :: (word ++ [leaving id pos depth step])) := by
  intro t told more fewer hlevel
  have hexit := closes_leaving id pos depth step
  generalize hrun : Walk.visit config id pos depth work t = r
  cases visited hrun with
  | plain off | plainAborts off => rw [hmemo] at off; cases off
  | foundAborts on unknown run =>
      rcases hwork _ _ _ _ (hlevel.enter id pos depth) with hcut | ⟨t', w, hok, _⟩
      · rw [run] at hcut
        exact .inl hcut
      · rw [run] at hok
        cases hok
  | @found step₁ s₁ on unknown run =>
      rcases hwork _ _ _ _ (hlevel.enter id pos depth) with
        hcut | ⟨t₁, w, hok, hw, hfurthest, hevents, hgains, hlevel₁⟩
      · rw [run] at hcut
        exact hcut.elim
      · rw [run] at hok
        cases hok
        rw [Array.toList_push, List.append_assoc] at hevents
        have habreast := hlevel₁.abreast
        have hrecalls := hlevel₁.recalls
        rw [hevents] at habreast hrecalls
        have hwhole : (s₁.events.push (leaving id pos depth step)).toList = t.events.toList ++
            .enter id pos depth :: (w ++ [leaving id pos depth step]) := by
          rw [Array.toList_push, hevents]
          simp
        refine .inr ⟨_, _, rfl, .one (.evaluated hw hexit), ?_, hwhole, hgains.insert hw hid _, ?_⟩
        · rw [hfurthest, none_join]
        · constructor
          · rw [hwhole]
            exact hlevel.abreast.leave hword hw hexit habreast
          · rw [hwhole, hfurthest, none_join]
            refine (hlevel.recalls.leave hword hw hwithin hrecalls hgains).insert hid hplain
              (fun r hr => List.mem_append_right _ hr) ?_
            exact hplain.expects.settled more _ (List.Subset.refl _)
  | @told step₀ found₀ on known =>
      obtain ⟨word₀, hword₀, htold₀, hheard₀⟩ := hlevel.recalls id pos step₀ found₀ hid known
      obtain ⟨rfl, rfl, halike⟩ := hword₀.alike hg hid hpos hplain
      rw [halike.refusals_eq] at htold₀
      rw [halike.heard_eq] at hheard₀
      have hwhole : (((t.events.push (.enter id pos depth)).push (.memoHit id pos depth)).push
          (leaving id pos depth step₀)).toList = t.events.toList ++
            [.enter id pos depth, .memoHit id pos depth, leaving id pos depth step₀] := by simp
      refine .inr ⟨_, _, rfl, .one (.told rfl hexit), rfl, hwhole, fun _ _ _ _ h => .inl h, ?_⟩
      constructor
      · rw [hwhole]
        exact hlevel.abreast.again hword hexit htold₀ hheard₀
      · rw [hwhole]
        exact hlevel.recalls.mono _ (hplain.expects.grows more).subset _

/-- It visits a node on which the plain one gives up. -/
theorem StopsWith.visit (hg : g.WellFormed) (hid : g.contains id = true)
    (hpos : pos ≤ input.size) (hmemo : config.memoize = true) {plain : Config}
    (hplain : plain.memoize = false) {shape : Token.Shape} {p : Nat}
    (haborts : Aborts Unread (invoke ⟨g, input, plain⟩ allowance depth id pos)
      (.located (.invalidLength shape) p))
    (hword : Unfinished false (depth + 1) word)
    (hwork : StopsWith g input position limit (depth + 1) work
      (.located (.invalidLength shape) p) word) :
    StopsWith g input position limit depth (visit config id pos depth work)
      (.located (.invalidLength shape) p) (.enter id pos depth :: word) := by
  intro t told more fewer hlevel
  generalize hrun : Walk.visit config id pos depth work t = r
  cases visited hrun with
  | plain off | plainAborts off => rw [hmemo] at off; cases off
  | @told step found on known =>
      obtain ⟨_, ⟨_, m, _, hplain', hrecites, _⟩, _⟩ := hlevel.recalls id pos step found hid known
      have hanswers := hrecites.answers.mono hg hplain' hplain 0 (Nat.le_max_left m allowance)
        hid hpos
      have haborts' := haborts.mono hg hplain hplain 0 (Nat.le_max_right m allowance) hid hpos
      exact absurd haborts' hanswers.not_aborts
  | found on unknown run =>
      rcases hwork _ _ _ _ (hlevel.enter id pos depth) with hcut | ⟨t', w, hfails, _⟩
      · rw [run] at hcut
        exact hcut.elim
      · rw [run] at hfails
        cases hfails
  | foundAborts on unknown run =>
      rcases hwork _ _ _ _ (hlevel.enter id pos depth) with
        hcut | ⟨t', w, hfails, hw, hevents, habreast⟩
      · rw [run] at hcut
        exact .inl hcut
      · rw [run] at hfails
        cases hfails
        rw [Array.toList_push, List.append_assoc] at hevents habreast
        refine .inr ⟨_, .enter id pos depth :: w, rfl, .inside .nil hw, hevents, ?_⟩
        rw [hword.heard_enter, hw.heard_enter]
        exact habreast

end Node

end Alongside

/-! ## Whole walks -/

section Whole

variable {g : Grammar} {input : Array UInt8} {plain memoizing : Config}

theorem invoke_alongside (hg : g.WellFormed) (position : Nat) (hplain : plain.memoize = false)
    (hmemo : memoizing.memoize = true) :
    ∀ {allowance allowance' : Nat} (depth : Nat) {id : NodeId} {pos : Nat},
      g.contains id = true → pos ≤ input.size →
      Alongside g input position plain.maxDepth memoizing.maxDepth depth
        (Step.Within pos input.size) (invoke ⟨g, input, plain⟩ allowance depth id pos)
        (invoke ⟨g, input, memoizing⟩ allowance' depth id pos) := by
  intro allowance
  induction allowance with
  | zero => intro allowance' depth id pos _ _; exact .limit pos (Aborts.throw _)
  | succ allowance ih =>
      intro allowance' depth id pos hid hpos
      obtain ⟨node, hnode⟩ := Grammar.exists_node_of_contains hid
      have hmem := Grammar.mem_of_node?_eq_some hnode
      have hwork : ∀ m, Alongside g input position plain.maxDepth memoizing.maxDepth (depth + 1)
          (Step.Within pos input.size)
          (answer ⟨g, input, plain⟩ (invoke ⟨g, input, plain⟩ allowance (depth + 1)) id pos)
          (answer ⟨g, input, memoizing⟩ (invoke ⟨g, input, memoizing⟩ m (depth + 1)) id pos) :=
        fun m => (alongside_congruence ..).answer hnode (fun heq => hg.bound (heq ▸ hmem)) hpos
          fun child hchild p _ hp => ih _ (hg.children_mem node hmem child hchild) hp
      -- with no level allowed the other walk is at its limit at once
      cases hwork (allowance' - 1) with
      | limit p left =>
          refine .limit p ?_
          simp only [invoke, hplain, Bool.false_eq_true, if_false]
          exact left.around _ _
      | misuse shape p word unfinished left right =>
          have hleft : CutOff (invoke ⟨g, input, plain⟩ (allowance + 1) depth id pos)
              (.located (.invalidLength shape) p) (.enter id pos depth :: word) := by
            simp only [invoke, hplain, Bool.false_eq_true, if_false]
            exact (Recites.emit _).bind_cutOff left.bind
          refine .misuse shape p _ (.inside .nil unfinished) hleft ?_
          cases allowance' with
          | zero => exact fun t _ _ _ _ => .inl ⟨pos, rfl⟩
          | succ m =>
              rw [invoke_eq_visit]
              exact right.visit hg hid hpos hmemo hplain hleft.aborts unfinished
      | answers step found word post visits left right =>
          have hleft := recites_invoke hplain left
          have hexit := closes_leaving id pos depth step
          refine .answers step found _ post (.one (.evaluated visits hexit)) hleft ?_
          cases allowance' with
          | zero => exact fun t _ _ _ _ => .inl ⟨pos, rfl⟩
          | succ m =>
              rw [invoke_eq_visit]
              exact right.visit hg hid hpos hmemo post visits
                ⟨plain, _, depth, hplain, hleft, .one (.evaluated visits hexit)⟩

end Whole

end Walk

/-! ## Whole parses -/

namespace Parser

/-- The ends of a plain walk and of one that remembers, from the front of the input. -/
inductive EndAbreast (g : Grammar) (position limit limit' : Nat) :
    EStateM.Result Error Progress Step → EStateM.Result Error Progress Step → Prop where
  | answered {step : Step} {s t : Progress} (same : s.furthest = t.furthest)
      (plain : Visits false 1 s.events.toList) (memoizing : Visits true 1 t.events.toList)
      (abreast : Abreast g position (refusals s.events.toList)
        (heard g position [] s.events.toList) t.events.toList
        (heard g position [] t.events.toList)) :
      EndAbreast g position limit limit' (.ok step s) (.ok step t)
  | gaveUp {e : Error} {s t : Progress} (fatal : e.isFatal = true) (located : e.position.isSome)
      (plain : Unfinished false 1 s.events.toList) (memoizing : Unfinished true 1 t.events.toList)
      (abreast : Abreast g position (refusals s.events.toList)
        (heard g position [] s.events.toList) t.events.toList
        (heard g position [] t.events.toList)) :
      EndAbreast g position limit limit' (.error e s) (.error e t)
  | limited {r r' : EStateM.Result Error Progress Step} (cut : Walk.CutShort limit r) :
      EndAbreast g position limit limit' r r'
  | limited' {r r' : EStateM.Result Error Progress Step} (cut : Walk.CutShort limit' r') :
      EndAbreast g position limit limit' r r'

variable {g : Grammar} {start : NodeId} {plain memoizing : Config}

theorem walks_endAbreast (hg : g.WellFormed) (hplain : plain.memoize = false)
    (hmemo : memoizing.memoize = true) (hstart : g.contains start = true) (input : List UInt8)
    (position : Nat) :
    EndAbreast g position plain.maxDepth memoizing.maxDepth (walk ⟨g, plain⟩ start input)
      (walk ⟨g, memoizing⟩ start input) := by
  have hlevel : Walk.Level g input.toArray position [] [] ⟨none, ∅, #[]⟩ [] :=
    ⟨abreast_start, recalls_empty⟩
  have hwalks : Walk.Alongside g input.toArray position plain.maxDepth memoizing.maxDepth 1
      (Step.Within 0 input.toArray.size)
      (Walk.invoke ⟨g, input.toArray, plain⟩ plain.maxDepth 1 start 0)
      (Walk.invoke ⟨g, input.toArray, memoizing⟩ memoizing.maxDepth 1 start 0) :=
    Walk.invoke_alongside hg position hplain hmemo 1 hstart (Nat.zero_le _)
  cases hwalks with
  | limit pos left =>
      obtain ⟨s, hrun⟩ := left ⟨none, ∅, #[]⟩ trivial
      refine .limited ?_
      rw [walk, hrun]
      exact ⟨pos, rfl⟩
  | answers step found word _ visits left right =>
      rcases right _ _ _ _ hlevel with hcut | ⟨t, word', hrun, hword', hfurthest, hevents, _, ht⟩
      · exact .limited' hcut
      · rw [walk, walk, left, hrun]
        have habreast := ht.abreast
        rw [show t.events.toList = word' from hevents] at habreast
        refine .answered ?_ visits ?_ ?_
        · rw [hfurthest]
          rfl
        · rw [hevents]
          exact hword'
        · rw [hevents]
          exact habreast
  | misuse shape pos word unfinished left right =>
      obtain ⟨s, hrun, hevents⟩ := left ⟨none, ∅, #[]⟩
      rcases right _ _ _ _ hlevel with hcut | ⟨t, word', hrun', hword', hevents', habreast⟩
      · exact .limited' hcut
      · rw [walk, walk, hrun, hrun']
        refine .gaveUp rfl rfl ?_ ?_ ?_
        · rw [hevents]
          exact unfinished
        · rw [hevents']
          exact hword'
        · rw [hevents, hevents']
          exact habreast

/-- What a walk answers that remembers, a plain one answers with levels enough. -/
theorem exists_plain_of_memoizing (hg : g.WellFormed) (hmemo : memoizing.memoize = true)
    (hstart : g.contains start = true) {input : List UInt8} {step : Step} {t : Progress}
    (hwalk : walk ⟨g, memoizing⟩ start input = .ok step t) :
    ∃ limit s, walk ⟨g, memoizing.fullConsumption, limit, false⟩ start input = .ok step s ∧
      s.furthest = t.furthest ∧
      ∀ r, r ∈ refusals t.events.toList ↔ r ∈ refusals s.events.toList := by
  obtain ⟨hyields, _⟩ := Semantics.invoke_yields hg hstart (Nat.zero_le _)
    Semantics.yielded_empty hwalk
  obtain ⟨limit, hwithin⟩ := Semantics.yields_iff_yieldsWithin.mp hyields
  have hdecides : Semantics.Decides (Walk.invoke ⟨g, input.toArray,
      memoizing.fullConsumption, limit, false⟩ limit 1 start 0)
      (Semantics.YieldsWithin g input.toArray limit start 0) :=
    Semantics.decides_invoke hg rfl 1 hstart (Nat.zero_le _)
  obtain ⟨found, hanswers⟩ := hdecides.answers_iff.mpr hwithin
  obtain ⟨s, hrun, _, _⟩ := hanswers ⟨none, ∅, #[]⟩ trivial
  have hplain : walk ⟨g, memoizing.fullConsumption, limit, false⟩ start input = .ok step s := hrun
  have hends := @walks_endAbreast g start ⟨memoizing.fullConsumption, limit, false⟩ memoizing hg
    rfl hmemo hstart input 0
  rw [hplain, hwalk] at hends
  cases hends with
  | answered same _ _ abreast => exact ⟨limit, s, hplain, same, abreast.same⟩
  | limited cut | limited' cut => exact cut.elim

end Parser

end Packrat
