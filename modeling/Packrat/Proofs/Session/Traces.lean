import Packrat.Proofs.Bencode.Grammar
import Packrat.Proofs.Trace.Session
import Packrat.Session.Screen

/-!
# Traces on the screen

Whether a line is a command is asked twice, of two texts. To evaluate a line the blanks
around it are dropped, and it is a command if what is left begins with a colon. To show a
trace behind it the line is looked at as it was typed.

No document begins with a colon either way, so with tracing on every document has a trace
shown. It is the trace of its own parse: the tracer shows the newest parse it followed, and
that is the one that evaluating the line has just run.

The two answers differ for a command with blanks before its colon. It runs no parse, so if
tracing is on after it, then the trace that is shown is an old one: that of the newest
document that was read with tracing on, once more.
-/

namespace Packrat

open Trace

/-! ## The newest parse -/

namespace Trace.Tracer

variable {settings : Settings} {t : Tracer}

/-- What is shown of a parse that was followed to its end is what is kept of it. -/
theorem Follows.formatLastParse_noted (h : Follows settings t) (hfilter : settings.filter = [])
    (hplain : t.settings.json = false) (g : Grammar) (events : List Event) :
    ((t.opened g).noted events).formatLastParse = Human.plain.lines g
      ((recordsOf (t.parseCount + 1) t.clock t.buffer.nextId events).rtake settings.capacity) := by
  have hopened : (t.opened g).settings.filter = [] := h.filter.trans hfilter
  have holder : ∀ r ∈ t.buffer.toList, r.parse ≠ t.parseCount + 1 :=
    fun r hr => Nat.ne_of_lt (Nat.lt_succ_of_le (h.numbered r hr))
  have hnewest : ((t.opened g).noted events).buffer.ofParse (t.parseCount + 1) =
      (recordsOf (t.parseCount + 1) t.clock t.buffer.nextId events).rtake settings.capacity := by
    rw [Tracer.noted, kept_of_no_filter hopened, Buffer.ofParse, Buffer.toList_pushAll,
      ← h.capacity]
    exact filter_rtake_append _ holder fun r hr => parse_of_mem_recordsOf hr
  show formatRecords _ g (((t.opened g).noted events).buffer.ofParse (t.parseCount + 1)) = _
  rw [hnewest, formatRecords]
  show (if t.settings.json = true then _ else _) = _
  rw [hplain, if_neg Bool.false_ne_true]

/-- Switching a tracer on or off changes nothing of what it shows. -/
theorem formatLastParse_setEnabled (t : Tracer) (enabled : Bool) :
    (t.setEnabled enabled).formatLastParse = t.formatLastParse := rfl

end Trace.Tracer

namespace Session

/-! ## Lines -/

/-- Whether a line is evaluated as a document. -/
def isDocument (text : String) : Bool :=
  !(Text.trim text).isEmpty && !isCommand (Text.trim text)

theorem trimEndChars_cons {c : Char} (hc : Text.isBlank c = false) (chars : List Char) :
    Text.trimEndChars (c :: chars) = c :: Text.trimEndChars chars := by
  have hlast : [c].dropWhile Text.isBlank = [c] := List.dropWhile_cons_of_neg (by simp [hc])
  rw [Text.trimEndChars, List.reverse_cons, List.dropWhile_append, hlast]
  split
  · next hempty => simp [Text.trimEndChars, List.isEmpty_iff.mp hempty]
  · simp [Text.trimEndChars]

/-- A line that begins with a colon begins with it also without the blanks around it. -/
theorem isCommand_trim {text : String} (h : isCommand text = true) :
    isCommand (Text.trim text) = true := by
  obtain ⟨rest, hrest⟩ : ∃ rest, text.toList = ':' :: rest :=
    List.head?_eq_some_iff.mp (by simpa [isCommand] using h)
  have hblank : Text.isBlank ':' = false := by decide
  have hfront : text.toList.dropWhile Text.isBlank = ':' :: rest := by
    rw [hrest]
    exact List.dropWhile_cons_of_neg (by simp [hblank])
  rw [isCommand, Text.trim, hfront, trimEndChars_cons hblank, String.toList_ofList]
  rfl

variable {s : Session} {text : String}

theorem turn_line (h : (Text.trim text).isEmpty = false) :
    s.turn (.line text) = s.turnOfLine text := by
  rw [turn, h, if_neg Bool.false_ne_true]

theorem session_turnOfLine (s : Session) (text : String) :
    (s.turnOfLine text).session = (s.eval text).1 := by
  rw [turnOfLine]

theorem reply_turnOfLine (s : Session) (text : String) :
    (s.turnOfLine text).reply = some (s.eval text).2 := by
  rw [turnOfLine]

theorem trace_turnOfLine (s : Session) (text : String) : (s.turnOfLine text).trace =
    if (s.eval text).1.showsTrace text then some (s.eval text).1.tracer.formatLastParse
    else none := by
  rw [turnOfLine]

theorem eval_document (h : isDocument text = true) :
    s.eval text = s.parseDocument (Text.toUtf8 text) := by
  simp only [isDocument, Bool.and_eq_true, Bool.not_eq_true'] at h
  rw [eval, h.1, if_neg Bool.false_ne_true, h.2, if_neg Bool.false_ne_true]

/-- All that a command can do to the tracer is to switch it. -/
theorem command_tracer (s : Session) (name : String) (argument : Option String) :
    ∃ on, (s.command name argument).1.tracer = s.tracer.setEnabled on := by
  have hsame : s.tracer = s.tracer.setEnabled s.tracer.settings.enabled := rfl
  simp only [command]
  split_ifs
  · exact ⟨_, hsame⟩
  · exact ⟨_, hsame⟩
  · cases switch name argument with
    | ok on => exact ⟨on, rfl⟩
    | error e => exact ⟨_, hsame⟩
  · cases switch name argument <;> exact ⟨_, hsame⟩
  · cases switch name argument <;> exact ⟨_, hsame⟩
  · cases argument.bind Text.readWord? <;> exact ⟨_, hsame⟩
  · exact ⟨_, hsame⟩

theorem eval_tracer_command (h : (Text.trim text).isEmpty = false)
    (hcommand : isCommand (Text.trim text) = true) :
    ∃ on, (s.eval text).1.tracer = s.tracer.setEnabled on := by
  have heval : s.eval text = s.command ((Text.words (Text.trim text))[0]?.getD "")
      (Text.words (Text.trim text))[1]? := by
    rw [eval, h, if_neg Bool.false_ne_true, if_pos hcommand]
  rw [heval]
  exact command_tracer s _ _

/-! ## Documents -/

/-- The events of the parse of a line as a document. -/
def eventsOf (s : Session) (text : String) : List Event :=
  ((⟨Bencode.grammar, if s.strict then .strict else .standard⟩ : Parser).watch
    Bencode.grammar.root (Text.toUtf8 text)).2

/-- The records of that parse that are kept, as they are shown. -/
def traceOf (s : Session) (text : String) : String :=
  Human.plain.lines Bencode.grammar
    ((recordsOf (s.tracer.parseCount + 1) s.tracer.clock s.tracer.buffer.nextId
      (s.eventsOf text)).rtake Buffer.standardCapacity)

theorem parseDocument_tracer (s : Session) (text : String) :
    (s.parseDocument (Text.toUtf8 text)).1.tracer =
      (s.tracer.watch Bencode.grammar (s.eventsOf text)).1 := by
  simp only [parseDocument, eventsOf]
  split
  · rfl
  · split
    · rfl
    · split <;> rfl

/-- A document is followed if tracing is on, and the tracer is not touched if not. -/
theorem eval_tracer_document (h : isDocument text = true) :
    (s.eval text).1.tracer =
      if s.tracer.settings.enabled then (s.tracer.opened Bencode.grammar).noted (s.eventsOf text)
      else s.tracer := by
  rw [eval_document h, parseDocument_tracer]
  split
  · next hon =>
      have hroot : Bencode.grammar.contains Bencode.grammar.root = true := rfl
      obtain ⟨inner, hevents, hinner⟩ := Parser.watch_events Bencode.grammar_wellFormed hroot
        (p := ⟨Bencode.grammar, if s.strict then .strict else .standard⟩) (Text.toUtf8 text)
      rw [eventsOf, hevents]
      exact Tracer.watch_parse hon
        (List.forall_mem_append.mpr ⟨hinner, List.forall_mem_singleton.mpr rfl⟩)
  · next hoff => exact Tracer.watch_of_disabled (Bool.eq_false_iff.mpr hoff) _

/-! ## Sessions -/

/-- A session before its first line. -/
def start (trace json : Bool) : Session :=
  { new with json := json, tracer := new.tracer.setEnabled trace }

/-- The readings up to the one that ends the session, each with the session that it finds. -/
def taken (s : Session) : List Reading → List (Session × Reading)
  | [] => []
  | reading :: rest =>
    (s, reading) ::
      match (s.turn reading).ended with
      | some _ => []
      | none => (s.turn reading).session.taken rest

/-- The trace of a document that is read with tracing on. -/
def traced? : Session × Reading → Option String
  | (s, .line text) =>
    if isDocument text && s.tracer.settings.enabled then some (s.traceOf text) else none
  | _ => none

/-- The trace of the newest document that was read with tracing on; nothing before the first. -/
def newestTrace (past : List (Session × Reading)) : String :=
  (past.filterMap traced?).getLast?.getD ""

theorem traced?_document (hdocument : isDocument text = true)
    (hon : s.tracer.settings.enabled = true) :
    traced? (s, .line text) = some (s.traceOf text) := by
  simp [traced?, hdocument, hon]

theorem newestTrace_append (past : List (Session × Reading)) (taking : Session × Reading) :
    newestTrace (past ++ [taking]) = (traced? taking).getD (newestTrace past) := by
  rw [newestTrace, List.filterMap_append, List.getLast?_append]
  cases h : traced? taking <;> simp [h, newestTrace]

/-- The session comes after these readings: its tracer shows the newest trace of them. -/
structure After (past : List (Session × Reading)) (s : Session) : Prop where
  follows : Tracer.Follows Settings.standard s.tracer
  plain : s.tracer.settings.json = false
  shows : s.tracer.formatLastParse = newestTrace past

theorem after_start (trace json : Bool) : After [] (start trace json) where
  follows := (Tracer.follows_new Settings.standard).obey (.setEnabled trace)
  plain := rfl
  shows := rfl

variable {past : List (Session × Reading)}

theorem After.traceOf_eq (h : After past s) (text : String) :
    ((s.tracer.opened Bencode.grammar).noted (s.eventsOf text)).formatLastParse =
      s.traceOf text :=
  h.follows.formatLastParse_noted rfl h.plain _ _

/-- A reading that runs no parse to be followed leaves the newest trace as it is. -/
theorem After.quiet (h : After past s) {reading : Reading} (hnone : traced? (s, reading) = none)
    {s' : Session} {on : Bool} (hswitched : s'.tracer = s.tracer.setEnabled on) :
    After (past ++ [(s, reading)]) s' where
  follows := hswitched ▸ h.follows.obey (.setEnabled on)
  plain := hswitched ▸ h.plain
  shows := by
    rw [hswitched, Tracer.formatLastParse_setEnabled, h.shows, newestTrace_append, hnone]
    rfl

theorem After.document (h : After past s) (hdocument : isDocument text = true) :
    After (past ++ [(s, .line text)]) (s.eval text).1 := by
  have htracer := eval_tracer_document (s := s) hdocument
  cases hon : s.tracer.settings.enabled with
  | false =>
      rw [hon, if_neg Bool.false_ne_true] at htracer
      exact h.quiet (by simp [traced?, hon]) htracer
  | true =>
      rw [hon, if_pos rfl] at htracer
      refine ⟨?_, ?_, ?_⟩
      · rw [htracer]
        exact (h.follows.opened _).noted _
      · rw [htracer]
        exact h.plain
      · rw [htracer, h.traceOf_eq, newestTrace_append, traced?_document hdocument hon,
          Option.getD_some]

theorem After.turn (h : After past s) (reading : Reading) :
    After (past ++ [(s, reading)]) (s.turn reading).session := by
  cases reading with
  | interrupted | endOfInput | failed reason => exact h.quiet rfl rfl
  | line text =>
      cases hblank : (Text.trim text).isEmpty with
      | true =>
          have hsame : (s.turn (.line text)).session = s := by rw [Session.turn, hblank, if_pos rfl]
          rw [hsame]
          exact h.quiet (by simp [traced?, isDocument, hblank]) rfl
      | false =>
          rw [turn_line hblank, session_turnOfLine]
          cases hcommand : isCommand (Text.trim text) with
          | true =>
              obtain ⟨on, hswitched⟩ := eval_tracer_command (s := s) hblank hcommand
              exact h.quiet (by simp [traced?, isDocument, hcommand]) hswitched
          | false => exact h.document (by simp [isDocument, hblank, hcommand])

/-- Whatever is read comes after what was read before it. -/
theorem After.taken {readings : List Reading} :
    ∀ {past : List (Session × Reading)} {s : Session}, After past s →
      ∀ {front : List (Session × Reading)} {s' : Session} {reading : Reading}
        {rest : List (Session × Reading)},
        s.taken readings = front ++ (s', reading) :: rest → After (past ++ front) s' := by
  induction readings with
  | nil =>
      intro past s _ front s' reading rest htaken
      exact absurd htaken.symm (by simp [Session.taken])
  | cons first readings ih =>
      intro past s h front s' reading rest htaken
      rw [Session.taken] at htaken
      cases front with
      | nil =>
          obtain ⟨hfirst, -⟩ := List.cons.inj htaken
          cases hfirst
          rw [List.append_nil]
          exact h
      | cons taking front =>
          obtain ⟨rfl, hlater⟩ := List.cons.inj htaken
          split at hlater
          · exact absurd hlater.symm (by simp)
          · rw [List.append_cons]
            exact ih (h.turn first) hlater

/-! ## What is written -/

theorem turns_err (readings : List Reading) : ∀ s : Session, (s.turns readings).output.err =
    String.join ((s.taken readings).map fun (s, reading) => (s.turn reading).output.err) := by
  induction readings with
  | nil => intro s; rfl
  | cons reading rest ih =>
      intro s
      rw [turns, taken, List.map_cons, String.join_cons]
      cases (s.turn reading).ended with
      | some result => exact String.append_empty.symm
      | none => exact congrArg ((s.turn reading).output.err ++ ·) (ih _)

theorem run_err (s : Session) (showBanner : Bool) (readings : List Reading) :
    (s.run showBanner readings).output.err = (s.turns readings).output.err := by
  have hopening : (if showBanner then (⟨banner, ""⟩ : Output) else Output.none).err = "" := by
    cases showBanner <;> rfl
  simp only [run, Output.append, hopening, String.empty_append]
  cases (s.turns readings).result <;> exact String.append_empty

theorem Turn.err_output {t : Turn} {reply : Except Error Reply} (h : t.reply = some reply) :
    t.output.err = (t.trace.map (· ++ "\n")).getD "" ++ (shown reply).err := by
  rw [Turn.output, h]
  cases t.trace <;> rfl

/-- What a line that is not blank has written to the channel of failures and traces. -/
structure ShowsTrace (past : List (Session × Reading)) (s : Session) (text : String) : Prop where
  /-- A trace comes on lines of its own, before the reply. -/
  written : (s.turn (.line text)).output.err =
    ((s.turn (.line text)).trace.map (· ++ "\n")).getD "" ++ (shown (s.eval text).2).err
  /-- With tracing on, a document has the trace of its own parse shown. -/
  document : isDocument text = true → (s.turn (.line text)).trace =
    if s.tracer.settings.enabled then some (s.traceOf text) else none
  command : isCommand text = true → (s.turn (.line text)).trace = none
  /-- A command with blanks before its colon has an old trace shown if tracing is on after it. -/
  indented : isCommand (Text.trim text) = true → isCommand text = false →
    (s.turn (.line text)).trace =
      if (s.eval text).1.tracer.settings.enabled then some (newestTrace past) else none

theorem After.showsTrace (h : After past s) (hblank : (Text.trim text).isEmpty = false) :
    ShowsTrace past s text := by
  refine ⟨?_, fun hdocument => ?_, fun hcommand => ?_, fun hcommand hindented => ?_⟩ <;>
    rw [turn_line hblank]
  · exact Turn.err_output (reply_turnOfLine s text)
  · have hplain : isCommand text = false := by
      cases hcommand : isCommand text with
      | false => rfl
      | true => simp [isDocument, isCommand_trim hcommand] at hdocument
    rw [trace_turnOfLine, Session.showsTrace, hplain, eval_tracer_document hdocument]
    cases hon : s.tracer.settings.enabled with
    | false =>
        rw [if_neg Bool.false_ne_true, hon, Bool.false_and, if_neg Bool.false_ne_true,
          if_neg Bool.false_ne_true]
    | true =>
        have hstill : ((s.tracer.opened Bencode.grammar).noted
            (s.eventsOf text)).settings.enabled = true := hon
        rw [if_pos rfl, hstill, h.traceOf_eq, Bool.not_false, Bool.and_true]
  · rw [trace_turnOfLine, Session.showsTrace, hcommand, Bool.not_true, Bool.and_false,
      if_neg Bool.false_ne_true]
  · obtain ⟨on, hswitched⟩ := eval_tracer_command (s := s) hblank hcommand
    rw [trace_turnOfLine, Session.showsTrace, hindented, Bool.not_false, Bool.and_true, ← h.shows,
      hswitched, Tracer.formatLastParse_setEnabled]

/-- A session writes to the channel of failures and traces what its readings do, one after
another. With tracing on, every document has the trace of its own parse shown, and a line
that begins with a colon has none. A command with blanks before its colon has the trace of
the newest document shown again that was read with tracing on. -/
theorem run_showsTraces (trace json showBanner : Bool) (readings : List Reading) :
    ((start trace json).run showBanner readings).output.err = String.join
      (((start trace json).taken readings).map fun (s, reading) => (s.turn reading).output.err) ∧
    ∀ past s text rest, (start trace json).taken readings = past ++ (s, .line text) :: rest →
      (Text.trim text).isEmpty = false → ShowsTrace past s text := by
  refine ⟨(run_err _ _ _).trans (turns_err _ _), fun past s text rest htaken hblank => ?_⟩
  exact ((after_start trace json).taken htaken).showsTrace hblank

/-- The command is taken behind the document, which does not end the session. -/
theorem taken_indented : (start true false).taken [.line "0:", .line " :json on"] =
    [(start true false, .line "0:"),
      (((start true false).turn (.line "0:")).session, .line " :json on")] := by
  have hopen : ((start true false).turn (.line "0:")).ended = none :=
    Option.isNone_iff_eq_none.mp (by decide +kernel)
  rw [taken, hopen, taken]
  cases (((start true false).turn (.line "0:")).session.turn (.line " :json on")).ended <;> rfl

/-- A document, and a command behind a blank. The trace of the document is shown twice. -/
theorem run_showsTraces_indented :
    ((start true false).turn (.line "0:")).trace = some ((start true false).traceOf "0:") ∧
    (((start true false).turn (.line "0:")).session.turn (.line " :json on")).trace =
      some ((start true false).traceOf "0:") ∧
    (start true false).traceOf "0:" ≠ "" := by
  have h := (run_showsTraces true false false [.line "0:", .line " :json on"]).2
  have hdocument : isDocument "0:" = true := by decide +kernel
  have hfirst := (h [] _ "0:" _ taken_indented (by decide +kernel)).document hdocument
  have hsecond := (h [(start true false, .line "0:")] _ " :json on" [] taken_indented
    (by decide +kernel)).indented (by decide +kernel) (by decide +kernel)
  have hnewest : newestTrace [(start true false, .line "0:")] =
      (start true false).traceOf "0:" := by
    rw [← List.nil_append [_], newestTrace_append, traced?_document hdocument rfl,
      Option.getD_some]
  have hon : ((((start true false).turn (.line "0:")).session.eval
      " :json on").1.tracer.settings.enabled) = true := by decide +kernel
  rw [if_pos hon, hnewest] at hsecond
  exact ⟨hfirst.trans (if_pos rfl), hsecond, by decide +kernel⟩

/-- That command has a trace shown, and it is no document. -/
theorem not_only_documents_traced :
    ¬ ∀ (trace json : Bool) (readings : List Reading) (past : List (Session × Reading))
        (s : Session) (text : String) (rest : List (Session × Reading)),
      (start trace json).taken readings = past ++ (s, .line text) :: rest →
      (Text.trim text).isEmpty = false →
        ((s.turn (.line text)).trace.isSome = true ↔
          (s.eval text).1.tracer.settings.enabled = true ∧ isDocument text = true) := by
  intro h
  have htraced := h true false [.line "0:", .line " :json on"] [(start true false, .line "0:")]
    _ " :json on" [] taken_indented (by decide +kernel)
  have hdocument := (htraced.mp (by decide +kernel)).2
  have hcommand : isDocument " :json on" = false := by decide +kernel
  exact Bool.false_ne_true (hcommand.symm.trans hdocument)

end Session

end Packrat
