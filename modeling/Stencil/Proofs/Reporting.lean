import Stencil.Proofs.Delivery
import Stencil.Proofs.Telling

/-!
# Showing every step

An evaluation tells of all of its steps, and its session says whether they are to be shown. A session that
shows them and one that does not evaluate a template in the same way, but for what they say of its steps
(`Session.render_debug`): so to say of every step that it is shown, or that it is not (`Action.showing`), is
kept by whatever actions are put together with (`Action.showing_bind`, `Action.showing_foldlM`), and follows
the levels that are left. On the command line, `-d` in front of the other words asks for every step and
changes nothing else of what the words say (`Options.read_debug`), and a run with it comes to the same
(`Program.runWith_asking`). The main statement is `Program.debug_changes_no_result`.
-/

namespace Stencil

/-! ## Steps that are shown and steps that are not -/

namespace Event

/-- The same event; if it is a step, one that is shown or one that is not. -/
def showing (shown : Bool) : Event → Event
  | step _ s => step shown s
  | event => event

theorem showing_of_not_isStep {event : Event} (h : event.isStep = false) (shown : Bool) :
    event.showing shown = event := by
  cases event <;> first | rfl | cases h

/-- Of an evaluation that does not show its steps the same is reported to who asks for them as of any other
to who does not. -/
theorem report?_showing_false (event : Event) (shown : Bool) :
    (event.showing false).report? true = (event.showing shown).report? false := by
  cases event <;> rfl

theorem isCall_showing (event : Event) (shown : Bool) : (event.showing shown).isCall = event.isCall := by
  cases event <;> rfl

theorem filter_isCall_showing (shown : Bool) (events : List Event) :
    (events.map (showing shown)).filter isCall = events.filter isCall := by
  induction events with
  | nil => rfl
  | cons event rest ih =>
    rw [List.map_cons, List.filter_cons, List.filter_cons, ih, isCall_showing]
    cases hcall : event.isCall with
    | false => rfl
    | true =>
      have hstep : event.isStep = false := by cases event <;> first | rfl | cases hcall
      rw [showing_of_not_isStep hstep]

theorem reports_showing_false (shown : Bool) (events : List Event) :
    reports true (events.map (showing false)) = reports false (events.map (showing shown)) := by
  rw [reports, reports, List.filterMap_map, List.filterMap_map]
  exact congrArg List.flatten (List.filterMap_congr fun event _ => event.report?_showing_false shown)

end Event

namespace Action

variable {σ α β : Type} (shown : Bool)

/-- The same action, where every step it tells of is shown, or none is. -/
def showing (x : Action σ α) : Action σ α := fun w =>
  { x w with events := (x w).events.map (Event.showing shown) }

theorem showing_pure (a : α) : showing shown (pure a : Action σ α) = pure a := rfl

theorem showing_ofExcept (x : Except Failure α) : showing shown (ofExcept x : Action σ α) = ofExcept x := by
  cases x <;> rfl

theorem showing_of_tellsNoStep {x : Action σ α} (h : x.TellsNoStep) : showing shown x = x := by
  funext w
  have hevents : (x w).events.map (Event.showing shown) = (x w).events := by
    rw [List.map_congr_left fun event hevent => Event.showing_of_not_isStep (h w event hevent) shown]
    exact List.map_id' _
  rw [showing, hevents]

theorem showing_bind (x : Action σ α) (f : α → Action σ β) :
    showing shown (x >>= f) = showing shown x >>= fun a => showing shown (f a) := by
  funext w
  show showing shown (Action.bind x f) w = Action.bind (showing shown x) (fun a => showing shown (f a)) w
  rw [showing, Action.bind, Action.bind, showing]
  rcases x w with ⟨_ | a, w', events⟩
  · rfl
  · simp [showing]

theorem showing_foldlM (f : β → α → Action σ β) (l : List α) (b : β) :
    showing shown (l.foldlM f b) = l.foldlM (fun b a => showing shown (f b a)) b := by
  induction l generalizing b with
  | nil => rfl
  | cons a l ih =>
    rw [List.foldlM_cons, List.foldlM_cons, showing_bind]
    exact congrArg _ (funext ih)

end Action

/-! ## Sessions that differ in what they show -/

namespace Session

open Stencil.Action (showing)

variable {σ : Type} (s : Session σ) (debug : Bool)

theorem showing_note (step : Event.Step) :
    showing debug (s.note step) = note { s with debug } step := rfl

theorem call_debug (arguments : List Value) (f : Function σ) :
    f.call { s with debug } arguments = f.call s arguments := by
  cases f <;> rfl

theorem showing_callNamed (name : Bytes) (arguments : List Value) :
    showing debug (s.callNamed name arguments) = callNamed { s with debug } name arguments := by
  rw [Action.showing_of_tellsNoStep debug (s.tells_callNamed name arguments)]
  unfold callNamed
  simp only [call_debug]

theorem showing_checkNames (depth : Int) (env : Environment) :
    showing debug (s.checkNames depth env) = checkNames { s with debug } depth env := by
  show _ = s.checkNames depth env
  unfold checkNames
  split <;> rfl

variable {expand expand' : Expander σ}
  (hexpand : ∀ env template, showing debug (expand env template) = expand' env template)

section
include hexpand

theorem showing_valueOf (env : Environment) (slot : Slot) (v : Variable) :
    showing debug (s.valueOf expand env slot v) = valueOf { s with debug } expand' env slot v := by
  unfold valueOf
  cases v.kind with
  | number => rfl
  | unknown => rfl
  | function => exact s.showing_callNamed debug _ _
  | text =>
    dsimp only
    split
    · rfl
    · simp only [Action.showing_bind, Action.showing_ofExcept, Action.showing_pure, hexpand]

theorem showing_resolveSlot (env : Environment) (slot : Slot) :
    showing debug (s.resolveSlot expand env slot) = resolveSlot { s with debug } expand' env slot := by
  unfold resolveSlot
  have hreferent : referent? { s with debug } env slot = s.referent? env slot := rfl
  rw [hreferent]
  cases s.referent? env slot with
  | none => rfl
  | some v =>
    simp only [Action.showing_bind, showing_note, s.showing_valueOf debug hexpand, Action.showing_pure]

theorem showing_fillSlot (env : Environment) (text : Bytes) (slot : Span × Slot) :
    showing debug (s.fillSlot expand env text slot) = fillSlot { s with debug } expand' env text slot := by
  unfold fillSlot
  rw [Action.showing_bind, s.showing_resolveSlot debug hexpand]
  refine congrArg _ (funext fun value? => ?_)
  cases value? with
  | none => rfl
  | some value =>
    dsimp only
    rw [Action.showing_bind, Action.showing_ofExcept]
    refine congrArg _ (funext fun computed => ?_)
    split
    · rfl
    · cases Bytes.splice? text computed.write slot.1.start slot.1.stop with
      | some text => rfl
      | none => rfl

theorem showing_renderDocumentWith (depth : Int) (env : Environment) (d : Document) :
    showing debug (s.renderDocumentWith expand depth env d) =
      renderDocumentWith { s with debug } expand' depth env d := by
  unfold renderDocumentWith
  have hbind : showing debug (s.bind env d) = bind { s with debug } env d :=
    Action.showing_ofExcept debug _
  simp only [Action.showing_bind, hbind, showing_note, Action.showing_foldlM,
    s.showing_fillSlot debug hexpand, Action.showing_pure]

end

/-- Induction on the levels that are left. -/
theorem showing_renderNested (levels : Nat) (depth : Int) (env : Environment) (template : Bytes) :
    showing debug (s.renderNested levels depth env template) =
      renderNested { s with debug } levels depth env template := by
  induction levels generalizing depth env template with
  | zero =>
    rw [renderNested, renderNested, Action.showing_bind, showing_checkNames]
    refine congrArg _ (funext fun _ => ?_)
    split
    · rfl
    · rw [Action.showing_bind, showing_note, Action.showing_pure]
  | succ levels ih =>
    rw [renderNested, renderNested, Action.showing_bind, showing_checkNames]
    refine congrArg _ (funext fun _ => ?_)
    split
    · rfl
    · simp only [Action.showing_bind, showing_note, Action.showing_ofExcept,
        s.showing_renderDocumentWith debug (ih (depth + 1))]

/-- Whether steps are shown is all that is told differently. -/
theorem render_debug (depth : Int) (env : Environment) (template : Bytes) :
    render { s with debug } depth env template = showing debug (s.render depth env template) :=
  (s.showing_renderNested debug _ depth env template).symm

end Session

/-! ## Asking for every step on the command line -/

namespace Options

/-- The same options, with every step asked for. -/
def asking (o : Options) : Options := { o with debug := true }

def Progress.asking (p : Progress) : Progress := { p with options := p.options.asking }

theorem Progress.set_asking (p : Progress) (operand : Bytes) (setting : Setting) :
    p.asking.set operand setting = (p.set operand setting).asking := by
  cases setting <;> rfl

theorem Progress.word?_asking (p : Progress) (word : Bytes) :
    p.asking.word? word = (p.word? word).map Progress.asking := by
  unfold word?
  cases Flag.ofWord? word with
  | some flag => cases flag <;> rfl
  | none =>
    show (if p.valueExpected then _ else if p.options.input?.isNone then _ else _) = _
    split
    · rfl
    · split <;> rfl

/-- Asking for every step changes nothing else of what words say. -/
theorem readWords_asking (p : Progress) (words : List Bytes) :
    readWords p.asking words =
      ((readWords p words).1, (readWords p words).2.map Progress.asking) := by
  fun_induction readWords p words with
  | case1 p => rfl
  | case2 p word q hword => simp only [readWords, p.word?_asking, hword, Option.map_some]
  | case3 p word hword => simp only [readWords, p.word?_asking, hword, Option.map_none]
  | case4 p word operand rest setting hsetting notices result hrest ih =>
    rw [hrest] at ih
    simp only [readWords, hsetting, p.set_asking, ih]
  | case5 p word operand rest hsetting q hword ih =>
    simp only [readWords, hsetting, p.word?_asking, hword, Option.map_some, ih]
  | case6 p word operand rest hsetting hword =>
    simp only [readWords, hsetting, p.word?_asking, hword, Option.map_none]

theorem readWords_debug (p : Progress) (hvalue : p.valueExpected = false) (words : List Bytes) :
    readWords p (Bytes.ofString "-d" :: words) = readWords p.asking words := by
  have hword : p.word? (Bytes.ofString "-d") = some p.asking := by
    have hflag : Flag.ofWord? (Bytes.ofString "-d") = some .debug := by decide
    rw [Progress.word?, hflag, Progress.asking, hvalue]
    rfl
  exact readWords_word (by decide) hword words

/-- So does `-d` in front of the other words. -/
theorem read_debug {words : List Bytes} {notices : List Notice} {o : Options}
    (h : read words = (notices, some o)) :
    read (Bytes.ofString "-d" :: words) = (notices, some o.asking) := by
  have hdebug : readWords {} ((Bytes.ofString "-d" :: words).map Bytes.untilNul) =
      readWords (Progress.asking {}) (words.map Bytes.untilNul) := by
    have hnul : Bytes.untilNul (Bytes.ofString "-d") = Bytes.ofString "-d" := by decide
    rw [List.map_cons, hnul, readWords_debug {} rfl]
  rw [read, hdebug, readWords_asking]
  rw [read] at h
  rcases hread : readWords {} (words.map Bytes.untilNul) with ⟨found, _ | p⟩
  · simp [hread] at h
  · rw [hread] at h
    dsimp only at h ⊢
    split at h
    · cases h
    · rename_i hsources
      split at h
      · cases h
      · rename_i hinput
        cases h
        exact (if_neg hsources).trans (if_neg hinput)

end Options

/-! ## Runs -/

namespace Options

/-- Reading a document tells of no step. -/
theorem tells_jsonVariables (o : Options) (json : JsonReader) :
    Action.TellsNoStep (o.jsonVariables json) := by
  unfold jsonVariables
  split
  · refine Action.Tells.world.bind fun w => ?_
    split
    · exact .ofExcept _
    · rename_i event hread
      exact .tell_bind (Event.isStep_of_isOfFiles (Disk.isOfFiles_of_read hread)) (.fail _)
  · split
    · exact .ofExcept _
    · exact .pure _

theorem showing_forM (members : List (Bytes × Variable)) (debug : Bool) :
    Action.showing true (members.forM fun (name, v) => Action.tell (.step debug (.given name v))) =
      members.forM fun (name, v) => (Action.tell (.step true (.given name v)) : Action Unit Unit) := by
  induction members with
  | nil => rfl
  | cons member rest ih =>
    show Action.showing true (Action.tell _ >>= fun _ => rest.forM _) = _
    rw [Action.showing_bind]
    exact congrArg _ (funext fun _ => ih)

/-- The variables of a command line are the same. -/
theorem showing_allVariables (o : Options) (json : JsonReader) :
    Action.showing true (o.allVariables json) = o.asking.allVariables json := by
  rw [allVariables, Action.showing_bind, Action.showing_of_tellsNoStep true (o.tells_jsonVariables json)]
  simp only [Action.showing_bind, showing_forM, Action.showing_pure]
  rfl

end Options

namespace Program

variable (conditions : Conditions) (o : Options)

theorem rendered_asking (json : JsonReader) (text : Bytes) :
    rendered o.asking json text = Action.showing true (rendered o json text) := by
  unfold rendered
  rw [Action.showing_bind, o.showing_allVariables]
  refine congrArg _ (funext fun env => ?_)
  exact o.session.render_debug true 0 env text

/-- How the output is delivered, reports aside, does not depend on what is asked for. -/
theorem deliver_asking (answers : Channel.Answers) (text : Bytes) (disk : Disk) :
    let full := deliver o.asking answers text disk
    let quiet := deliver o answers text disk
    full.status = quiet.status ∧ full.disk = quiet.disk ∧ full.output = quiet.output := by
  intro full quiet
  have hfile : o.asking.outputFile = o.outputFile := rfl
  unfold full quiet deliver
  rw [hfile]
  split
  · exact ⟨rfl, rfl, rfl⟩
  · unfold writeFile
    rw [hfile]
    dsimp only
    split
    · exact ⟨rfl, rfl, rfl⟩
    · exact ⟨rfl, rfl, rfl⟩

theorem runWith_asking (disk : Disk) :
    let full := runWith o.asking disk conditions
    let quiet := runWith o disk conditions
    full.status = quiet.status ∧ full.disk = quiet.disk ∧ full.output = quiet.output := by
  intro full quiet
  have htemplate : template o.asking disk = template o disk := rfl
  have hsections : o.asking.printSections = o.printSections := rfl
  unfold full quiet runWith
  rw [htemplate]
  cases template o disk with
  | error event => exact ⟨rfl, rfl, rfl⟩
  | ok text =>
    dsimp only
    rw [hsections, rendered_asking, Action.showing]
    split
    · exact ⟨rfl, rfl, rfl⟩
    · dsimp only
      cases (rendered o conditions.json text { disk, host := (), draws := conditions.draws }).result with
      | error failure => exact ⟨rfl, rfl, rfl⟩
      | ok out => exact deliver_asking o conditions.answers out _

/-- What is printed ends with the text that the template becomes, and a newline, if standard output takes it. -/
theorem printed_of_runs {disk : Disk} {exit : Exit} (h : Runs conditions o disk exit)
    (hfile : o.outputFile = []) (hsections : o.printSections = false) (hstatus : exit.status = 0)
    (hwilling : ∀ calls given, 0 < given → 0 < conditions.answers calls given) :
    ∃ text out, template o disk = .ok text ∧ result conditions o text disk = .ok out ∧
      out ++ [Ascii.newline] <:+ exit.printed := by
  cases h with
  | unread _ hfails => cases hstatus.symm.trans hfails
  | listed _ hlist => cases hsections.symm.trans hlist
  | failed _ _ _ hfails => cases hstatus.symm.trans hfails
  | @rendered text out before asked htemplate _ hresult hexit =>
    refine ⟨text, out, htemplate, hresult, ?_⟩
    rw [hexit, deliver, if_pos (List.isEmpty_iff.mpr hfile)]
    rcases writeOut_delivers hfile out before asked with hdelivered | hlost
    · cases hdelivered with
      | @printed before _ _ _ hprinted _ => exact ⟨before, by rw [hprinted, List.append_assoc]⟩
      | written hne => exact absurd hfile hne
    · cases hlost with
      | printed _ _ _ hfails =>
        obtain ⟨calls, given, hgiven, hroom⟩ := hfails
        have hanswer := hwilling calls given hgiven
        simp only [Channel.room, standardOutput] at hroom
        grind
      | written hne => exact absurd hfile hne

theorem run_debug {words : List Bytes} {notices : List Options.Notice}
    (hread : Options.read words = (notices, some o)) (program : Bytes) (disk : Disk) :
    let full := run program (Bytes.ofString "-d" :: words) disk conditions
    let quiet := run program words disk conditions
    full.status = quiet.status ∧ full.disk = quiet.disk ∧ full.output = quiet.output := by
  intro full quiet
  unfold full quiet
  rw [run, run, Options.read_debug hread, hread]
  exact runWith_asking conditions o disk

/-- Showing every step changes no result. Whether a session shows the steps of an evaluation or not, it comes
to the same: the same text or failure, the same world after it, cache and numbers drawn included, and the same
calls; and where steps are not shown, the same is reported as to who does not ask for them. Functions of the
host are not told whether steps are shown. So on the command line, whatever the conditions: with `-d` in front of
words that can be read, a run ends with the same status and the same disk, and standard output takes the same of
the text. Where the run succeeds and standard output takes bytes, what is printed still ends with the text that
the template becomes. -/
theorem debug_changes_no_result :
    (∀ (σ : Type) (s : Session σ) (depth : Int) (env : Environment) (template : Bytes) (w : World σ),
      let quiet := Session.render { s with debug := false } depth env template w
      let full := Session.render { s with debug := true } depth env template w
      full.result = quiet.result ∧ full.world = quiet.world ∧
        full.events.filter Event.isCall = quiet.events.filter Event.isCall ∧
        Event.reports true quiet.events = Event.reports false full.events) ∧
    ∀ (conditions : Conditions) (program : Bytes) (words : List Bytes) (disk : Disk)
      (notices : List Options.Notice) (o : Options), Options.read words = (notices, some o) →
        let quiet := run program words disk conditions
        let full := run program (Bytes.ofString "-d" :: words) disk conditions
        full.status = quiet.status ∧ full.disk = quiet.disk ∧ full.output = quiet.output ∧
          (o.outputFile = [] → o.printSections = false → quiet.status = 0 →
            (∀ calls given, 0 < given → 0 < conditions.answers calls given) →
            ∃ text out, template o disk = .ok text ∧ result conditions o text disk = .ok out ∧
              out ++ [Ascii.newline] <:+ quiet.printed ∧ out ++ [Ascii.newline] <:+ full.printed) := by
  refine ⟨fun σ s depth env template w => ?_, fun conditions program words disk notices o hread => ?_⟩
  · intro quiet full
    have hquiet : quiet = Action.showing false (s.render depth env template) w :=
      congrFun (s.render_debug false depth env template) w
    have hfull : full = Action.showing true (s.render depth env template) w :=
      congrFun (s.render_debug true depth env template) w
    rw [hquiet, hfull]
    refine ⟨rfl, rfl, ?_, Event.reports_showing_false true _⟩
    exact (Event.filter_isCall_showing true _).trans (Event.filter_isCall_showing false _).symm
  · obtain ⟨hstatus, hdisk, houtput⟩ := run_debug conditions o hread program disk
    refine ⟨hstatus, hdisk, houtput, fun hfile hsections hzero hwilling => ?_⟩
    obtain ⟨text, out, htemplate, hresult, hprinted⟩ :=
      printed_of_runs conditions o (runs_run conditions hread program disk) hfile hsections hzero hwilling
    obtain ⟨text', out', htemplate', hresult', hprinted'⟩ :=
      printed_of_runs conditions o.asking (runs_run conditions (Options.read_debug hread) program disk) hfile
        hsections (hstatus.trans hzero) hwilling
    obtain rfl : text' = text := Except.ok.inj (htemplate'.symm.trans htemplate)
    have hsame : result conditions o.asking text' disk = result conditions o text' disk := by
      rw [result, rendering, rendered_asking]
      rfl
    obtain rfl : out' = out := Except.ok.inj (hresult'.symm.trans (hsame.trans hresult))
    exact ⟨text', out', htemplate, hresult, hprinted, hprinted'⟩

/-- A variable of the command line and a slot with an operation; the steps are printed in front of what
the template becomes. -/
theorem debug_changes_no_result_of_slot :
    let words := [Bytes.ofString "-s", Bytes.ofString "\x7b\x7bn + 1\x7d\x7d", Bytes.ofString "-v",
      Bytes.ofString "n", Bytes.ofString "2"]
    let o : Options :=
      { input? := some (Bytes.ofString "\x7b\x7bn + 1\x7d\x7d"), isString := true,
        definitions := [(Bytes.ofString "n", Bytes.ofString "2")] }
    let quiet := run (Bytes.ofString "stencil") words .empty
    let full := run (Bytes.ofString "stencil") (Bytes.ofString "-d" :: words) .empty
    Options.read words = ([], some o) ∧ quiet.status = 0 ∧ quiet.printed = Bytes.ofString "3\n" ∧
      full.printed ≠ quiet.printed ∧ full.status = quiet.status ∧ full.disk = quiet.disk ∧
        full.output = quiet.output ∧
        ∃ text out, template o .empty = .ok text ∧ result {} o text .empty = .ok out ∧
          out ++ [Ascii.newline] <:+ quiet.printed ∧ out ++ [Ascii.newline] <:+ full.printed := by
  intro words o quiet full
  have hread : Options.read words = ([], some o) := by decide
  have hruns : quiet.status = 0 ∧ quiet.printed = Bytes.ofString "3\n" ∧ full.printed ≠ quiet.printed := by
    decide +kernel
  obtain ⟨hzero, hprinted, hne⟩ := hruns
  obtain ⟨hstatus, hdisk, houtput, hends⟩ :=
    debug_changes_no_result.2 {} (Bytes.ofString "stencil") words .empty [] o hread
  exact ⟨hread, hzero, hprinted, hne, hstatus, hdisk, houtput,
    hends rfl rfl hzero fun _ _ hgiven => hgiven⟩

end Program

end Stencil
