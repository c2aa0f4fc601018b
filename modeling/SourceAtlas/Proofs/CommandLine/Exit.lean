import SourceAtlas.CommandLine.Run
import SourceAtlas.Proofs.Analysis.Parity
import SourceAtlas.Proofs.Analysis.Stopping
import SourceAtlas.Proofs.Wording

/-!
The exit code of the commands that report on a project. Whatever is shown and wherever it goes, and
with or without a cache, the code says whether a module or a service is on a cycle.
-/
namespace SourceAtlas.CommandLine

open SourceAtlas.Action Analysis

theorem looks_remark (text : Text) : Looks (Action.remark text) := fun _ => ⟨rfl, rfl, fun _ => id⟩

theorem looks_print (text : Text) : Looks (Action.print text) := fun w => by
  rw [Action.print]
  split
  · exact ⟨rfl, rfl, fun _ => id⟩
  · exact looks_throw _ w

/-- A text of characters is printed, and nothing changes on the disk. -/
theorem emit_printed {text : Text} (hText : text.isString = true) (suffix : Text) (w : World) :
    ∃ w', w.Looked w' ∧ (emit text none suffix).on w = (.ok (), w') := by
  have hLine : (if Text.endsWith "\n" text then text else text ++ "\n").isString = true := by
    split <;> simp [hText]
  obtain ⟨s, hString⟩ : ∃ s, (if Text.endsWith "\n" text then text else text ++ "\n").string? = some s := by
    rw [← Option.ne_none_iff_exists', ne_eq, Text.string?_eq_none_iff, hLine]
    simp
  refine ⟨{ w with printed := w.printed ++ [s] }, ⟨rfl, rfl, fun _ => id⟩, ?_⟩
  rw [emit, Action.print, hString]
  rfl

/-- Write a result to a file at a path, if there is one. -/
def put (text : Text) : Option Path → Action Unit
  | none => throw .namelessPath
  | some path => do
    makeDirectories path.parent
    writeText path text
    Action.remark ("report written to " ++ path.text ++ "\n")

/-- Text that is to be saved is put where the path given leads once a home
is filled in, with the suffix of its form. -/
theorem emit_saved (text save suffix : Text) : emit text (some save) suffix =
    expand (Path.parse save) >>= fun path => put text (savePath path suffix) := by
  delta emit put
  rfl

/-- A path to save at that got its suffix has a name, since a suffix is
written behind one. -/
theorem savePath_named {path target : Path} {suffix : Text} (hPath : savePath path suffix = some target) :
    target.parts ≠ [] := by
  rw [savePath] at hPath
  split at hPath
  · rw [Path.withSuffix?] at hPath
    split at hPath
    · cases hPath
    · obtain rfl := Option.some.inj hPath
      simp
  · next hSuffix =>
    obtain rfl := Option.some.inj hPath
    intro hNone
    exact hSuffix (by simp [Path.suffix, Path.name, hNone])

/-- The directory of a path with a name is above the path. -/
theorem above_end {here : Standpoint} {path : Path} (hNamed : path.parts ≠ []) :
    (here.join path.parent).Above (here.join path) := by
  have hParts : path.parts = path.parts.dropLast ++ [path.parts.getLast hNamed] :=
    (List.dropLast_concat_getLast hNamed).symm
  have hAnchor : path.parent.isAbsolute = path.isAbsolute := rfl
  rw [Path.join, Path.join, hAnchor]
  split
  · exact ⟨rfl, _, [], hParts⟩
  · exact ⟨rfl, _, [], by simpa [Path.parent] using hParts⟩

/-- Putting a result where no scan searches for a file disturbs none:
directories may come, and one file at that place. -/
theorem spares_put {text : Text} {path : Path} {w w' : World} {o : ScanOptions} {base : Place}
    (hNamed : path.parts ≠ []) (hRun : (put text (some path)).on w = (.ok (), w'))
    (hAside : ∀ d arrival, w.disk.Paved (w.here.join path) d → d.locate true (w.here.join path) = .ok arrival →
      ¬ Scan.Searched o base arrival.place) : Scan.Spares o base w.disk w'.disk := by
  obtain ⟨_, w₁, hMake, hRest⟩ := of_on_bind hRun
  obtain ⟨_, w₂, hWrite, hRemark⟩ := of_on_bind hRest
  obtain rfl : _ = w' := (Prod.mk.inj hRemark).2
  have hAbove : (w.here.join path.parent).Above (w.here.join path) := above_end hNamed
  obtain ⟨hHere, hPaved⟩ := paves_makeDirectoriesFrom path.parent.parts.length hAbove w rfl
  rw [show (makeDirectoriesFrom path.parent.parts.length path.parent).on w = (.ok (), w₁) from hMake] at hHere hPaved
  refine (Scan.Spares.of_directories hPaved.find?).trans ?_
  rw [writeText] at hWrite
  split at hWrite
  · next s hString =>
    obtain ⟨arrival, hLocate, hNoDirectory, rfl⟩ := writeBytes_on_ok hWrite
    rw [hHere] at hLocate
    exact .put (hAside _ _ hPaved hLocate) (Disk.no_directory_of_locate hLocate hNoDirectory) _ _
  · obtain ⟨_, _, -, hThrow⟩ := of_on_bind hWrite
    cases hThrow

/-- What a command shows of a report. -/
inductive View where
  | whole (format : ReportFormat)
  | cycles (format : ReportFormat)
  | drawing (format : GraphFormat)

namespace View

def suffix : View → Text
  | whole format => format.suffix
  | cycles format => format.suffix
  | drawing format => format.suffix

def text (r : Report) : View → Action Text
  | whole .json => written r.json
  | whole .markdown => markdownText (Markdown.ofReport r)
  | cycles .json => written r.cyclesJson
  | cycles .markdown => markdownText (Markdown.cyclesOfReport r)
  | drawing .mermaid => drawn (Diagram.mermaid r.graph)
  | drawing .dot => drawn (Diagram.dot r.graph)

/-- With a drawing the warnings are told beside. -/
def comment (r : Report) : View → Action Unit
  | drawing _ => r.warnings.forM fun w => Action.remark (warningText w)
  | _ => pure ()

/-- Writing a report in any form leaves the disk as it was. -/
theorem looks_text (r : Report) (v : View) : Looks (v.text r) := by
  have hWritten (text : Except Json.WriteFault (List Char)) : Looks (written text) := by
    cases text with
    | ok s => exact looks_pure _
    | error e => exact looks_throw _
  have hMarkdown (text : Except Markdown.Gap Text) : Looks (markdownText text) := by
    cases text with
    | ok s => exact looks_pure s
    | error e => cases e <;> exact looks_throw _
  have hDrawn (text : Except Text Text) : Looks (drawn text) := by
    cases text with
    | ok s => exact looks_pure s
    | error e => exact looks_throw _
  match v with
  | whole .json => exact hWritten _
  | whole .markdown => exact hMarkdown _
  | cycles .json => exact hWritten _
  | cycles .markdown => exact hMarkdown _
  | drawing .mermaid => exact hDrawn _
  | drawing .dot => exact hDrawn _

/-- A report whose files are named by strings is shown in every form, and by
characters only. -/
theorem text_on {r : Report} (hRendered : Rendered r) (hSpelled : r.Spelled) (v : View) (w : World) :
    ∃ text, text.isString = true ∧ (v.text r).on w = (.ok text, w) := by
  obtain ⟨whole, hWhole⟩ := hRendered.json.mpr hSpelled
  have hFits : r.toDatum.fits = true := Json.document_eq_ok_iff.mp ⟨whole, hWhole⟩
  have hLegible : r.Legible := Report.legible_of_toDatum (Bool.and_eq_true_iff.mp hFits).2
  match v with
  | .whole .json => exact ⟨Text.ofChars whole, Text.isString_ofChars whole, by rw [text, hWhole]; rfl⟩
  | .cycles .json =>
      obtain ⟨part, hPart⟩ := hRendered.cyclesJson.mpr (hRendered.cyclesSpelled hSpelled)
      exact ⟨Text.ofChars part, Text.isString_ofChars part, by rw [text, hPart]; rfl⟩
  | .whole .markdown =>
      obtain ⟨s, hText⟩ := hRendered.markdown
      exact ⟨s, Markdown.ofReport_isString hLegible hText, by rw [text, hText]; rfl⟩
  | .cycles .markdown =>
      obtain ⟨s, hText⟩ := hRendered.cyclesMarkdown
      exact ⟨s, Markdown.cyclesOfReport_isString hLegible hText, by rw [text, hText]; rfl⟩
  | .drawing .mermaid =>
      obtain ⟨s, hText⟩ := hRendered.mermaid
      exact ⟨s, Diagram.mermaid_isString hLegible.nodes hText, by rw [text, hText]; rfl⟩
  | .drawing .dot =>
      obtain ⟨s, hText⟩ := hRendered.dot
      exact ⟨s, Diagram.dot_isString hLegible.nodes hText, by rw [text, hText]; rfl⟩

/-- What is said beside a report is said without a failure
and changes no file. -/
theorem comment_on (r : Report) (v : View) (w : World) :
    ∃ w', w.Looked w' ∧ (v.comment r).on w = (.ok (), w') := by
  have hAll (warnings : List Warning) (w : World) : ∃ w', w.Looked w' ∧
      (warnings.forM fun x => Action.remark (warningText x)).on w = (.ok (), w') := by
    induction warnings generalizing w with
    | nil => exact ⟨w, .refl w, rfl⟩
    | cons x warnings ih =>
        obtain ⟨w₁, hRemark⟩ : ∃ w₁, (Action.remark (warningText x)).on w = (.ok (), w₁) := ⟨_, rfl⟩
        have hLooked := looks_remark (warningText x) w
        rw [hRemark] at hLooked
        obtain ⟨w', hLooked', hRest⟩ := ih w₁
        refine ⟨w', hLooked.trans hLooked', ?_⟩
        show (Action.remark (warningText x) >>= fun _ => warnings.forM _).on w = _
        rw [on_bind_ok hRemark, hRest]
  cases v with
  | drawing => exact hAll r.warnings w
  | _ => exact ⟨w, .refl w, rfl⟩

theorem looks_comment (r : Report) (v : View) : Looks (v.comment r) := fun w => by
  obtain ⟨w', hLooked, hRun⟩ := v.comment_on r w
  rw [hRun]
  exact hLooked

end View

/-- A command that reports on a project. -/
structure Request where
  target : Target
  view : View

namespace Request

def command (q : Request) : Command :=
  match q.view with
  | .whole format => .analyze q.target format
  | .cycles format => .cycles q.target format
  | .drawing format => .graph q.target format

/-- Requests are handled alike. -/
def perform (q : Request) (root : Path) : Action Exit := do
  let report ← Analysis.run root q.target.useCache none
  let text ← q.view.text report
  emit text q.target.save q.view.suffix
  q.view.comment report
  return exitOf report

/-- A request finds the canonical form of its root first, and does
all else with that. -/
theorem perform_command (q : Request) :
    CommandLine.perform q.command = Action.resolve (Path.parse q.target.root) >>= q.perform := by
  obtain ⟨t, v⟩ := q
  match v with
  | .whole .json => rfl
  | .whole .markdown => rfl
  | .cycles .json => rfl
  | .cycles .markdown => rfl
  | .drawing .mermaid => rfl
  | .drawing .dot => rfl

end Request

/-- A command comes to the exit of what it does, or to the exit that its
failure is reported with, if it is reported. -/
theorem run_on (c : Command) (w : World) : (run c).on w = match (perform c).on w with
    | (.ok exit, w') => (.ok exit, w')
    | (.error f, w') =>
      match reported? f with
      | some message => (do
          Action.remark ("error: " ++ message ++ "\n")
          return .failure : Action Exit).on w'
      | none => (.error f, w') := by
  rcases hFirst : (perform c).on w with ⟨f | exit, w'⟩ <;>
    simp only [on, run, tryCatch, tryCatchThe, MonadExceptOf.tryCatch, ExceptT.tryCatch,
      bind, ExceptT.bind, ExceptT.run, ExceptT.mk, ExceptT.bindCont, StateT.bind] at hFirst ⊢ <;>
    rw [hFirst]
  · cases f <;> rfl
  · rfl

/-- The code that a graph asks for: one if it is grave, else zero. -/
def Verdict (g : DependencyGraph) (code : Nat) : Prop := g.Grave ∧ code = 1 ∨ ¬ g.Grave ∧ code = 0

/-- A graph has one verdict. -/
theorem Verdict.eq {g : DependencyGraph} {a b : Nat} (ha : Verdict g a) (hb : Verdict g b) : a = b := by
  rcases ha with ⟨hGrave, rfl⟩ | ⟨hSound, rfl⟩
  · rcases hb with ⟨-, rfl⟩ | ⟨hSound, -⟩
    · rfl
    · exact absurd hGrave hSound
  · rcases hb with ⟨hGrave, -⟩ | ⟨-, rfl⟩
    · exact absurd hGrave hSound
    · rfl

/-- The code of a report goes by its graph, since its cycles are those of
the graph. -/
theorem verdict_exitOf {r : Report} (hNodup : (r.graph.nodes.map Node.id).Nodup)
    (hCycles : Cycle.detect r.graph = .ok r.cycles) : Verdict r.graph (exitOf r).code := by
  have hGrave : r.hasErrorCycles = true ↔ r.graph.Grave := by
    rw [← DependencyGraph.error_mem_detect_iff hNodup hCycles, Report.hasErrorCycles, List.any_eq_true]
    simp only [decide_eq_true_eq]
  rw [Verdict, exitOf, ← hGrave]
  cases r.hasErrorCycles <;> simp [Exit.code]

section

variable {place base : Place} {past : List Visit} {w w' w₀ : World} {plan : Plan}
  {ignoring : List IgnoreFile}

/-- How things are where requests begin: nothing is locked, an analysis of
the project sets out for these files and can record them. -/
structure Outset (w : World) (plan : Plan) (base : Place) (ignoring : List IgnoreFile) : Prop where
  proper : w.disk.Proper
  grounded : w.disk.Grounded
  unlocked : w.Unlocked
  setsOut : SetsOut w plan.root none plan plan.root base ignoring
  start : ∃ v, (Analysis.start plan.root none).on w = (.ok plan, v)
  recordable : Recordable w plan

namespace Request

def analysed (q : Request) (project : Path) (w : World) : World :=
  ((Analysis.run project q.target.useCache none).on w).2

/-- A request is an analysis and what is then written elsewhere. -/
def visits (q : Request) (project : Path) (w : World) : List Visit :=
  [⟨q.analysed project w, .edited⟩, ⟨w, .analysed project q.target.useCache none⟩]

/-- The places at which a request may write a file, once directories were
made above it: the end of the path of its cache, and where the path leads
that its result goes to. -/
inductive Writes (q : Request) (project : Path) (w : World) : Place → Prop where
  | cache {file : Path} {v : World} {d : Disk} {arrival : Disk.Arrival} (hUse : q.target.useCache = true)
      (hPath : (cachePath project none).on w = (.ok file, v)) (hPaved : w.disk.Paved file d)
      (hLocate : d.locate false file = .ok arrival) : Writes q project w arrival.place
  | result {save : Text} {named path : Path} {d : Disk} {arrival : Disk.Arrival} (hSave : q.target.save = some save)
      (hExpand : w.here.expand (Path.parse save) = .ok named) (hPath : savePath named q.view.suffix = some path)
      (hPaved : (q.analysed project w).disk.Paved (w.here.join path) d)
      (hLocate : d.locate true (w.here.join path) = .ok arrival) : Writes q project w arrival.place

/-- A request on a project that finds everything in order. Nothing is
locked, the analysis sets out as in the first world, what has come since is
no import of its files, and there is a place for the result. -/
structure Fair (place : Place) (past : List Visit) (plan : Plan) (base : Place)
    (ignoring : List IgnoreFile) (w₀ w : World) (q : Request) : Prop where
  root : w.here.resolve w.disk (Path.parse q.target.root) = .ok plan.root
  unlocked : w.Unlocked
  setsOut : SetsOut w plan.root none plan plan.root base ignoring
  short : ∀ p, Scan.Beneath w (Analysis.scanOptions plan.config) plan.root p →
    w.disk.locate true p ≠ .error (.errno .nameTooLong)
  imports : ∀ path ∈ plan.scan.files, ∀ bytes, w₀.content? path = some bytes →
    ∀ p, Extraction.Candidate path plan.config.extensions bytes p → w.hasFile p = w₀.hasFile p
  digests : ∀ v ∈ past, Distinguished v.world w
  /-- The configured directory of the cache is accepted, and its path is a string. -/
  ready : q.target.useCache = true → CacheReady w plan.root none
  spelled : q.target.useCache = true → ∀ file v, (cachePath plan.root none).on w = (.ok file, v) →
    file.text.isString = true
  cache : ∀ found, CachePlace w plan.root none found → found = place
  /-- No source file is searched for where the request writes one. -/
  aside : ∀ p, q.Writes plan.root w p → ¬ Scan.Searched (Analysis.scanOptions plan.config) base p
  /-- Every text can be put where the result goes, and the cache is left alone. -/
  result : ∀ text, text.isString = true →
    ∃ w', (emit text q.target.save q.view.suffix).on (q.analysed plan.root w) = (.ok (), w') ∧
      ((q.analysed plan.root w).disk.Proper → w'.disk.Proper) ∧
      w'.disk.find? place = (q.analysed plan.root w).disk.find? place

/-- A request that gives a report, puts it where it goes and
exits by the report. -/
theorem perform_on {q : Request} {report : Report} {v : World} (hRendered : Rendered report) (hSpelled : report.Spelled)
    (hRun : (Analysis.run plan.root q.target.useCache none).on w = (.ok report, v)) {P : World → Prop}
    (hResult : ∀ text, text.isString = true →
      ∃ w', (emit text q.target.save q.view.suffix).on v = (.ok (), w') ∧ P w') :
    ∃ text v' w', (q.perform plan.root).on w = (.ok (exitOf report), w') ∧
      (emit text q.target.save q.view.suffix).on v = (.ok (), v') ∧ P v' ∧ v'.Looked w' := by
  obtain ⟨text, hString, hText⟩ := q.view.text_on hRendered hSpelled v
  obtain ⟨v₁, hEmit, hThere⟩ := hResult text hString
  obtain ⟨v₂, hLooked, hComment⟩ := q.view.comment_on report v₁
  refine ⟨text, v₁, v₂, ?_, hEmit, hThere, hLooked⟩
  rw [perform, on_bind_ok hRun, on_bind_ok hText, on_bind_ok hEmit, on_bind_ok hComment, on_pure]

/-- Of a request that does not save its result only the analysis
changes the disk. -/
theorem looked_of_unsaved {q : Request} {project : Path} (hSave : q.target.save = none)
    (hRoot : w.here.resolve w.disk (Path.parse q.target.root) = .ok project) :
    (q.analysed project w).Looked ((CommandLine.run q.command).on w).2 := by
  have hPerform : (q.analysed project w).Looked ((CommandLine.perform q.command).on w).2 := by
    have hResolve : (Action.resolve (Path.parse q.target.root)).on w = (.ok project, w) := by
      rw [resolve_on, hRoot]
    rw [perform_command, on_bind_ok hResolve, perform, analysed]
    rcases hRun : (Analysis.run project q.target.useCache none).on w with ⟨f | report, v⟩
    · rw [on_bind_error hRun]
      exact .refl v
    · rw [on_bind_ok hRun, hSave]
      have hEmit (text : Text) : Looks (emit text none q.view.suffix) := looks_print _
      have hShow : Looks (q.view.text report >>= fun text => emit text none q.view.suffix >>= fun _ =>
          q.view.comment report >>= fun _ => (pure (exitOf report) : Action Exit)) :=
        (q.view.looks_text report).bind fun text => (hEmit text).bind fun _ =>
          (q.view.looks_comment report).bind fun _ => looks_pure _
      exact hShow v
  rw [run_on]
  rcases hRun : (CommandLine.perform q.command).on w with ⟨f | exit, v⟩ <;> rw [hRun] at hPerform
  · dsimp only
    split
    · exact hPerform.trans (looks_remark _ v)
    · exact hPerform
  · exact hPerform

/-- Putting the result where no source file is searched for
disturbs no scan. -/
theorem Fair.spares_emit {q : Request} {text : Text} {w₁ w₂ : World} (hFair : q.Fair place past plan base ignoring w₀ w)
    (hAnalysed : q.analysed plan.root w = w₁) (hHere : w₁.here = w.here)
    (hEmit : (emit text q.target.save q.view.suffix).on w₁ = (.ok (), w₂)) :
    Scan.Spares (Analysis.scanOptions plan.config) base w₁.disk w₂.disk := by
  rcases hSave : q.target.save with _ | save <;> rw [hSave] at hEmit
  · rw [((looks_print _).run hEmit).disk]
    exact .refl _ _ _
  · rw [emit_saved] at hEmit
    obtain ⟨named, v, hExpand, hPut⟩ := of_on_bind hEmit
    rw [expand_on, hHere] at hExpand
    obtain ⟨hNamed, rfl⟩ := Prod.mk.inj hExpand
    rcases hPath : savePath named q.view.suffix with _ | path <;> rw [hPath] at hPut
    · cases hPut
    · refine spares_put (savePath_named hPath) hPut fun d arrival hPaved hLocate => hFair.aside _ ?_
      rw [hHere] at hPaved hLocate
      exact .result hSave hNamed hPath (hAnalysed ▸ hPaved) hLocate

/-- A fair request exits with the code that the graph of the project asks
for. The session goes on from there, and a scan of the project still finds
what it found in the first world. -/
theorem Fair.exits {q : Request} {plain : Report} {v' : World}
    (hFair : q.Fair place past plan base ignoring w₀ w) (hSession : Session place past w)
    (hProject : ∀ v ∈ past, ∀ other, v.Stored place other → other = plan.root)
    (hOutset : Outset w₀ plan base ignoring)
    (hSpares : Scan.Spares (Analysis.scanOptions plan.config) base w₀.disk w.disk)
    (hPlain : (Analysis.run plan.root false none).on w₀ = (.ok plain, v')) :
    ∃ exit w', (CommandLine.run q.command).on w = (.ok exit, w') ∧ Verdict plain.graph exit.code ∧
      Session place (q.visits plan.root w ++ past) w' ∧
      Scan.Spares (Analysis.scanOptions plan.config) base w₀.disk w'.disk := by
  obtain ⟨v, hStart⟩ := hOutset.start
  have hProper := hSession.kept.proper
  -- an analysis of this world sees what one of the first world saw
  have hUnseen := unseen_of_spares hOutset.proper hOutset.grounded hOutset.unlocked hProper hFair.unlocked
    hOutset.setsOut hFair.setsOut hSpares hFair.short hFair.imports hStart
  obtain ⟨v₁, hStart'⟩ := hUnseen.found
  have hRecordable := hUnseen.recordable hOutset.recordable
  obtain ⟨now, v₂, hNow, hGraph⟩ := hUnseen.run_uncached hOutset.proper hProper hOutset.unlocked hFair.unlocked
    hStart hPlain
  -- so it comes to a report that every view shows
  have hFaithful : FaithfulCache w plan.root none :=
    ⟨hSession, hFair.setsOut.scan.resolved, hFair.cache, hProject, hFair.digests⟩
  obtain ⟨report, w₁, hRun, hSame⟩ := run_parity hProper hFair.unlocked (fun _ => hFaithful) hFair.ready hStart'
    hRecordable hNow
  have hRendered := report_rendered hProper (fun _ => hFaithful) hStart' hRecordable.size hRecordable.count hRun
  have hSpelled := run_spelled hProper (fun _ => hFaithful) hFair.spelled hStart' hRecordable hRun
  have hAnalysed : q.analysed plan.root w = w₁ := by rw [analysed, hRun]
  have hResult := hFair.result
  rw [hAnalysed] at hResult
  obtain ⟨text, w₂, w', hDone, hEmit, ⟨hKeeps, hPlace⟩, hLooked⟩ := perform_on hRendered hSpelled hRun hResult
  have hPerform : (CommandLine.perform q.command).on w = (q.perform plan.root).on w := by
    have hRoot : (Action.resolve (Path.parse q.target.root)).on w = (.ok plan.root, w) := by
      rw [resolve_on, hFair.root]
    rw [perform_command, on_bind_ok hRoot]
  refine ⟨exitOf report, w', by rw [run_on, hPerform, hDone], ?_, ?_, ?_⟩
  · have hNodup := uncached_nodup hProper hNow
    have hVerdict := verdict_exitOf (hSame ▸ hNodup) (run_showable hRun).2
    rwa [hSame, hGraph] at hVerdict
  · have hMiddle := hSession.analysis plan.root q.target.useCache none
    rw [show ((Analysis.run plan.root q.target.useCache none).on w).2 = w₁ by rw [hRun]] at hMiddle
    rw [visits, hAnalysed]
    exact hMiddle.edit (hLooked.disk ▸ hKeeps hMiddle.kept.proper) (.inl (hLooked.disk ▸ hPlace))
  · have hHere := Analysis.stays_run hProper plan.root q.target.useCache none
    have hWritten : Scan.Spares (scanOptions plan.config) base w.disk
        ((Analysis.run plan.root q.target.useCache none).on w).2.disk :=
      spares_run hProper fun file v d arrival hUse hPath hPaved hLocate =>
        hFair.aside _ (.cache hUse hPath hPaved hLocate)
    rw [hRun] at hHere hWritten
    rw [hLooked.disk]
    exact (hSpares.trans hWritten).trans (hFair.spares_emit hAnalysed hHere hEmit)

/-- An analysis of a project stores the cache of that project, and so
whoever loads it later finds entries of the same root. -/
theorem Fair.stored {q : Request} (hFair : q.Fair place past plan base ignoring w₀ w)
    (hProject : ∀ v ∈ past, ∀ other, v.Stored place other → other = plan.root) :
    ∀ v ∈ q.visits plan.root w ++ past, ∀ other, v.Stored place other → other = plan.root := by
  intro v hv other hStored
  rcases List.mem_append.mp hv with hv | hv
  · simp only [visits, List.mem_cons, List.not_mem_nil, or_false] at hv
    rcases hv with rfl | rfl
    · obtain ⟨root, given, hDeed, -⟩ := hStored
      cases hDeed
    · exact hStored.root_eq hFair.setsOut.scan.resolved
  · exact hProject v hv other hStored

end Request

/-- What requests give, each in the world that the one before left. -/
def results : World → List Request → List (Except Failure Exit)
  | _, [] => []
  | w, q :: rest => ((run q.command).on w).1 :: results ((run q.command).on w).2 rest

/-- Each of the requests is fair in the world that the one before left. -/
def AllFair (place : Place) (plan : Plan) (base : Place) (ignoring : List IgnoreFile) (w₀ : World) :
    List Visit → World → List Request → Prop
  | _, _, [] => True
  | past, w, q :: rest => q.Fair place past plan base ignoring w₀ w ∧
      AllFair place plan base ignoring w₀ (q.visits plan.root w ++ past) ((run q.command).on w).2 rest

/-- Each of fair requests exits with the code that the graph of the
project asks for. -/
theorem AllFair.exits {plain : Report} {v' : World} {requests : List Request}
    (hFair : AllFair place plan base ignoring w₀ past w requests) (hSession : Session place past w)
    (hProject : ∀ v ∈ past, ∀ other, v.Stored place other → other = plan.root)
    (hOutset : Outset w₀ plan base ignoring)
    (hSpares : Scan.Spares (Analysis.scanOptions plan.config) base w₀.disk w.disk)
    (hPlain : (Analysis.run plan.root false none).on w₀ = (.ok plain, v')) :
    ∀ result ∈ results w requests, ∃ exit, result = .ok exit ∧ Verdict plain.graph exit.code := by
  induction requests generalizing past w with
  | nil => simp [results]
  | cons q rest ih =>
      obtain ⟨hFirst, hRest⟩ := hFair
      obtain ⟨exit, w', hRun, hVerdict, hNext, hSpares'⟩ := hFirst.exits hSession hProject hOutset hSpares hPlain
      rw [hRun] at hRest
      rw [results, hRun, List.forall_mem_cons]
      exact ⟨⟨exit, rfl, hVerdict⟩, ih hRest hNext (hFirst.stored hProject) hSpares'⟩

/-- At the end of a session in which only analyses of this project wrote
its cache, commands that report on it one after another all exit with the
same code: one if in the graph of an analysis without a cache a module or
a service leads to another file that leads back, and else zero. What they
show and where it goes makes no difference, nor does the use of the
cache, as long as they write no file where a source file is searched for
or an import leads. -/
theorem reporting_commands_exit {plain : Report} {v' : World} {requests : List Request}
    (hSession : Session place past w)
    (hProject : ∀ v ∈ past, ∀ other, v.Stored place other → other = plan.root)
    (hOutset : Outset w plan base ignoring)
    (hPlain : (Analysis.run plan.root false none).on w = (.ok plain, v'))
    (hFair : AllFair place plan base ignoring w past w requests) :
    ∃ code, Verdict plain.graph code ∧
      ∀ result ∈ results w requests, ∃ exit, result = .ok exit ∧ exit.code = code := by
  have hExits := hFair.exits hSession hProject hOutset (.refl _ _ _) hPlain
  have hCode : ∃ code, Verdict plain.graph code := by
    by_cases hGrave : plain.graph.Grave
    · exact ⟨1, .inl ⟨hGrave, rfl⟩⟩
    · exact ⟨0, .inr ⟨hGrave, rfl⟩⟩
  obtain ⟨code, hVerdict⟩ := hCode
  refine ⟨code, hVerdict, fun result hResult => ?_⟩
  obtain ⟨exit, rfl, hExit⟩ := hExits result hResult
  exact ⟨exit, rfl, hExit.eq hVerdict⟩

end

namespace Sample

/-- A project of two files that import each other, one of which
declares a service. -/
def before : World where
  disk := ⟨[(["p"], .directory),
    (["p", "a.ts"], .file (Text.Utf8.encode "import './b';@Injectable()class A{}") 7),
    (["p", "b.ts"], .file (Text.Utf8.encode "import './a';") 7)]⟩
  here := ⟨⟨.root, []⟩, []⟩
  watch := ⟨0, 1⟩

def project : Path := ⟨.root, ["p"]⟩

def first : Path := ⟨.root, ["p", "a.ts"]⟩

def second : Path := ⟨.root, ["p", "b.ts"]⟩

def plan : Plan := ⟨project, {}, ⟨[first, second], []⟩⟩

def folder : Path := ⟨.root, ["p", ".cache"]⟩

def cacheFile : Path := Scan.child folder Config.cacheFileName

def drawing : Request := ⟨⟨"/p", none, true⟩, .drawing .mermaid⟩

def listing : Request := ⟨⟨"/p", none, true⟩, .cycles .markdown⟩

/-- The project after the drawing. Only the kernel is to evaluate it. -/
@[irreducible]
def drawn : World := (run drawing.command).leaving before

theorem drawn_eq : drawn = ((run drawing.command).on before).2 := by
  unfold drawn
  exact leaving_eq _ _

def planned (found : Plan) (_ : World) : Bool :=
  found.root = project && found.config = {} && found.scan = ⟨[first, second], []⟩

theorem exists_of_planned {result : Except Failure Plan × World} (hPlanned : passes planned result = true) :
    ∃ w, result = (.ok plan, w) := by
  obtain ⟨⟨root, config, scan⟩, w, hResult, hFound⟩ := exists_of_passes hPlanned
  simp only [planned, Bool.and_eq_true, decide_eq_true_eq] at hFound
  obtain ⟨⟨rfl, rfl⟩, rfl⟩ := hFound
  exact ⟨w, hResult⟩

/-- The paths that the imports of both files may lead to. -/
def tried : List Path := Resolution.candidates (Resolution.base first "./b") [".ts"] ++
  Resolution.candidates (Resolution.base second "./a") [".ts"]

/-- A world in which nothing but a cache may have come. -/
def Undisturbed (w : World) : Prop :=
  w.here.resolve w.disk (Path.parse "/p") = .ok project ∧ w.here.resolve w.disk project = .ok project ∧
  w.disk.locate true project = .ok (.found ["p"] .directory) ∧
  passes (fun c _ => c = ({} : Config)) ((configOf project none).on w) = true ∧
  passes (fun file _ => file = cacheFile) ((cachePath project none).on w) = true ∧
  (w.disk.locate true (w.here.join cacheFile) = .error (.errno .noEntry) ∨
    (w.disk.locate true (w.here.join cacheFile)).map Disk.Arrival.place = .ok cacheFile.parts) ∧
  w.locks = [] ∧ w.disk.Proper ∧ (∀ p ∈ tried, w.hasFile p = before.hasFile p) ∧
  ∀ e ∈ w.disk.entries, w.disk.locate true ⟨.root, e.1⟩ ≠ .error (.errno .nameTooLong)

instance (w : World) : Decidable (Undisturbed w) := inferInstanceAs (Decidable (_ ∧ _))

theorem undisturbed_before : Undisturbed before := by
  decide +kernel

theorem analysed_drawn : (drawing.analysed plan.root before).Looked drawn := by
  have hRoot : before.here.resolve before.disk (Path.parse drawing.target.root) = .ok plan.root :=
    undisturbed_before.1
  rw [drawn_eq]
  exact Request.looked_of_unsaved rfl hRoot

/-- The drawing leaves a cache and lets every entry of the project be. -/
theorem drawn_facts : Undisturbed drawn ∧ drawn.hasFile cacheFile = .ok true ∧ drawn.here = before.here ∧
    ∀ e ∈ before.disk.entries, drawn.disk.find? e.1 = some e.2 := by
  decide +kernel

/-- Whether the time of what a path leads to has 64 bits. -/
def timely (result : Except Disk.Refusal Disk.Arrival) : Bool :=
  match result with
  | .ok (.found _ (.file _ mtime)) => Json.inRange mtime
  | _ => true

/-- At the start the analysis plans what is written out here, gives a report
without its cache, and finds figures far below the bounds. -/
theorem before_begins : passes planned ((Analysis.start project none).on before) = true ∧
    passes (fun _ _ => true) ((Analysis.run project false none).on before) = true ∧
    volume before plan.scan < 2 ^ 63 ∧ extent plan.scan < 2 ^ 63 ∧
    (∀ path ∈ plan.scan.files, timely (before.disk.locate true (before.here.join path)) = true) ∧
    before.content? first = some (Text.Utf8.encode "import './b';@Injectable()class A{}") ∧
    before.content? second = some (Text.Utf8.encode "import './a';") := by
  decide +kernel

/-- Whether a file has one import, of this source. -/
def importsOnly (path : Path) (text : String) (source : Text) : Bool :=
  match (Extraction.read (Extraction.dialectOf path) (Text.Utf8.encode text)).outline with
  | .ok outline => outline.imports.map ImportSite.source = [source]
  | .error _ => false

theorem importsOnly_eq : importsOnly first "import './b';@Injectable()class A{}" "./b" = true ∧
    importsOnly second "import './a';" "./a" = true := by
  decide +kernel

/-- A path that an import of the sample may lead to comes
from its one source. -/
theorem mem_candidates {path p : Path} {text : String} {source : Text} (hOnly : importsOnly path text source = true)
    (hCandidate : Extraction.Candidate path [".ts"] (Text.Utf8.encode text) p) :
    p ∈ Resolution.candidates (Resolution.base path source) [".ts"] := by
  obtain ⟨outline, hOutline, s, hs, -, hp⟩ := hCandidate
  rw [importsOnly, hOutline] at hOnly
  have hSources : outline.imports.map ImportSite.source = [source] := of_decide_eq_true hOnly
  have hSource : s.source ∈ [source] := hSources ▸ List.mem_map_of_mem hs
  rwa [List.mem_singleton.mp hSource] at hp

/-- All paths that imports of the sample may try are among those listed. -/
theorem mem_tried {path p : Path} {bytes : List UInt8} (hPath : path ∈ plan.scan.files)
    (hContent : before.content? path = some bytes) (hCandidate : Extraction.Candidate path [".ts"] bytes p) : p ∈ tried := by
  obtain ⟨-, -, -, -, -, hFirst, hSecond⟩ := before_begins
  have hFiles : path = first ∨ path = second := by simpa [plan] using hPath
  rcases hFiles with rfl | rfl
  · obtain rfl := Option.some.inj (hFirst.symm.trans hContent)
    exact List.mem_append_left _ (mem_candidates importsOnly_eq.1 hCandidate)
  · obtain rfl := Option.some.inj (hSecond.symm.trans hContent)
    exact List.mem_append_right _ (mem_candidates importsOnly_eq.2 hCandidate)

variable {w : World} (hUndisturbed : Undisturbed w)

include hUndisturbed

theorem setsOut : SetsOut w project none plan project ["p"] [] := by
  obtain ⟨-, hRoot, hDirectory, hConfig, -⟩ := hUndisturbed
  obtain ⟨c, v, hRun, hSame⟩ := exists_of_passes hConfig
  obtain rfl := of_decide_eq_true hSame
  exact ⟨hRoot, congrArg Prod.fst hRun, hRoot, hDirectory, rfl⟩

/-- The file of the cache lies in the directory of caches below the project. -/
theorem cachePath_eq : ∃ v, (cachePath project none).on w = (.ok cacheFile, v) := by
  obtain ⟨-, -, -, -, hPath, -⟩ := hUndisturbed
  obtain ⟨file, v, hRun, hSame⟩ := exists_of_passes hPath
  obtain rfl := of_decide_eq_true hSame
  exact ⟨v, hRun⟩

/-- A request that prints its result finds everything in order, if only
entries have come. -/
theorem fair {q : Request} {past : List Visit} (hRoot : q.target.root = "/p") (hSave : q.target.save = none)
    (hSince : ∀ v ∈ past, v.world.disk.Extends w.disk ∧ w.here = v.world.here) : q.Fair cacheFile.parts past plan ["p"] [] before w := by
  obtain ⟨v, hPath⟩ := cachePath_eq hUndisturbed
  have hOut := setsOut hUndisturbed
  obtain ⟨hResolved, -, hDirectory, -, -, hPlace, hLocks, hProper, hTried, hShort⟩ := hUndisturbed
  have hUnlocked := World.unlocked_of_no_locks hLocks
  have hFile {file : Path} {v : World} (hRun : (cachePath project none).on w = (.ok file, v)) : file = cacheFile :=
    (Except.ok.inj (Prod.mk.inj (hPath.symm.trans hRun)).1).symm
  refine ⟨by rw [hRoot]; exact hResolved, hUnlocked, hOut, ?short, ?imports, ?digests, fun _ => ?ready, fun _ => ?spelled, ?cache, ?aside, ?result⟩
  case short => exact fun p => Scan.short_of_entries hProper hUnlocked hDirectory hShort
  case imports => exact fun path hFound bytes hContent p hCandidate => hTried p (mem_tried hFound hContent hCandidate)
  case digests => exact fun v hv => distinguished_of_extends (hSince v hv).1 (hSince v hv).2
  case ready =>
    refine ⟨cacheFile, v, hPath, by decide, fun hLong => ?_⟩
    rcases hPlace with hNone | hSome
    · cases hNone.symm.trans hLong
    · rw [hLong] at hSome
      cases hSome
  case spelled =>
    intro file v hRun
    rw [hFile hRun]
    decide
  case cache =>
    rintro found ⟨file, v, item, hRun, hLocate⟩
    obtain rfl := hFile hRun
    rcases hPlace with hNone | hSome
    · cases hNone.symm.trans hLocate
    · rw [show w.disk.locate true (w.here.join cacheFile) = .ok (.found found item) from hLocate] at hSome
      exact Except.ok.inj hSome
  case aside =>
    rintro p (⟨-, hRun, -, hLocate⟩ | ⟨hSome, -⟩)
    · obtain rfl := hFile hRun
      obtain ⟨directory, hEnd, -⟩ := Disk.locate_parent hLocate (by decide)
      rw [hEnd]
      exact Scan.not_searched_of_extensions (by decide) directory
    · cases hSave.symm.trans hSome
  case result =>
    intro text hText
    rw [hSave]
    obtain ⟨w', hLooked, hEmit⟩ := emit_printed hText q.view.suffix (q.analysed plan.root w)
    exact ⟨w', hEmit, fun hProper => hLooked.disk ▸ hProper, by rw [hLooked.disk]⟩

omit hUndisturbed

theorem before_outset : Outset before plan ["p"] [] := by
  obtain ⟨hPlanned, -, hSize, hCount, hTimes, -⟩ := before_begins
  have hUndisturbed := undisturbed_before
  refine ⟨by decide, by decide, World.unlocked_of_no_locks rfl, setsOut hUndisturbed, exists_of_planned hPlanned,
    ⟨by decide, by decide, by decide, by simp [plan], ?_, hSize, hCount⟩⟩
  intro path hPath place bytes mtime hLocate
  have hTimely := hTimes path hPath
  rw [hLocate] at hTimely
  exact hTimely

/-- A drawing that saves the cache and a listing of cycles that loads it
exit with the same code. -/
theorem commands_exit_alike : ∃ plain w', (Analysis.run project false none).on before = (.ok plain, w') ∧
    before.hasFile cacheFile = .ok false ∧ drawn.hasFile cacheFile = .ok true ∧
    ∃ code, Verdict plain.graph code ∧ ∀ result ∈ results before [drawing, listing],
      ∃ exit, result = .ok exit ∧ exit.code = code := by
  obtain ⟨hDrawn, hSaved, hHere, hEntries⟩ := drawn_facts
  have hSince : ∀ v ∈ drawing.visits plan.root before ++ [], v.world.disk.Extends drawn.disk ∧
      drawn.here = v.world.here := by
    rw [Request.visits, List.append_nil, List.forall_mem_cons, List.forall_mem_singleton]
    refine ⟨⟨?_, analysed_drawn.here⟩, Disk.extends_of_entries hEntries, hHere⟩
    rw [analysed_drawn.disk]
    exact .refl _
  obtain ⟨-, hPlain, -⟩ := before_begins
  obtain ⟨plain, w', hRun, -⟩ := exists_of_passes hPlain
  have hSession : Session cacheFile.parts [] before :=
    .start (by decide) (harmless_of_none (by decide))
  have hFair : AllFair cacheFile.parts plan ["p"] [] before [] before [drawing, listing] := by
    rw [AllFair, AllFair, ← drawn_eq]
    exact ⟨fair undisturbed_before rfl rfl (by simp), fair hDrawn rfl rfl hSince, trivial⟩
  exact ⟨plain, w', hRun, by decide, hSaved, reporting_commands_exit hSession (by simp) before_outset hRun hFair⟩

end Sample

end SourceAtlas.CommandLine
