import SourceAtlas.Proofs.Analysis.Stopping
import SourceAtlas.Proofs.CommandLine.Exit
import SourceAtlas.Proofs.Text.Utf8
import SourceAtlas.Proofs.Toml
import SourceAtlas.Proofs.Verification

/-!
How commands end. Each comes to an exit code, or it stops for one of a few causes that it does not
report: trouble in the tree or in the paths that its arguments name, a place to save at that is none, or
a number or a name that cannot be written. A configuration that is there but cannot be used gives the
code of a failure, unless it is no text or has too long an integer.
-/
namespace SourceAtlas.CommandLine

open SourceAtlas.Action

/-- Printing stops only at a text that is no string. -/
theorem stopsBy_print {P : Failure → Prop} {text : Text} (hText : text.isString = false → P .unencodable) :
    StopsBy P (print text) := by
  intro w f w' hRun
  rw [print] at hRun
  split at hRun
  · cases hRun
  · next hNone => exact stopsBy_throw (hText (Text.string?_eq_none_iff.mp hNone)) w f w' hRun

theorem stopsBy_remark {P : Failure → Prop} (text : Text) : StopsBy P (remark text) :=
  fun w f w' hRun => by cases hRun

section Emit

variable {here : Standpoint} {P : Failure → Prop} (hRefusal : ∀ e, P (.system e)) {text : Text}
  (hText : text.isString = false → P .unencodable)

include hRefusal hText

/-- A result is put at a path unless the system refuses, or there is no
path, or it has a NUL character, or the text has bytes that are no
characters. -/
theorem fails_put {target : Option Path} (hName : target = none → P .namelessPath)
    (hNul : ∀ path, target = some path → ¬ (here.join path).Clean → P .nulInPath) (d : Disk) :
    Fails d here (put text target) P := by
  cases target with
  | none => exact fails_throw (hName rfl)
  | some path =>
      have hPathNul := hNul path rfl
      refine fails_bind_written (fails_makeDirectoriesFrom hRefusal _ fun hUnclean => hPathNul fun hClean =>
        hUnclean hClean.join_parent) (stays_makeDirectoriesFrom _ _) (fun _ d => ?_) d
      have hWrite : Fails d here (writeText path text) P := by
        rw [writeText]
        split
        · exact fails_writeBytes hRefusal hPathNul _ d
        · next hNone =>
          refine fails_bind_written (fails_writeBytes hRefusal hPathNul _) (stays_writeBytes path _) (fun _ d => ?_) d
          exact fails_throw (hText (Text.string?_eq_none_iff.mp hNone))
      exact hWrite.then_unstoppable fun _ => stopsBy_remark _

/-- A result is put where it goes unless it cannot be put there, or that
names a home that there is not. -/
theorem fails_emit {save : Option Text} {suffix : Text}
    (hHome : ∀ s f, save = some s → here.expand (Path.parse s) = .error f → P f)
    (hName : ∀ s named, save = some s → here.expand (Path.parse s) = .ok named → savePath named suffix = none →
      P .namelessPath)
    (hNul : ∀ s named path, save = some s → here.expand (Path.parse s) = .ok named →
      savePath named suffix = some path → ¬ (here.join path).Clean → P .nulInPath)
    (d : Disk) : Fails d here (emit text save suffix) P := by
  cases save with
  | none =>
      refine fails_of_stopsBy (stopsBy_print fun hNone => hText ?_)
      split at hNone
      · exact hNone
      · simpa using hNone
  | some s =>
      rw [emit_saved]
      refine (fails_expand fun f => hHome s f rfl).bind (looks_expand _) (gives_expand _) fun named hNamed => ?_
      exact fails_put hRefusal hText (hName s named rfl hNamed) (fun path => hNul s named path rfl hNamed) d

end Emit

/-- The texts of a command that name what it looks at. -/
def Command.texts : Command → List Text
  | .analyze t _ => [t.root]
  | .clear root => [root]
  | .cycles t _ => [t.root]
  | .graph t _ => [t.root]
  | .files root => [root]
  | .inspect file root => file :: root.toList
  | .verify root => [root]

/-- The datum that a report is shown as, if its text is a document. -/
def View.datum? (r : Report) : View → Option Datum
  | whole .json => some r.toDatum
  | cycles .json => some r.cyclesDatum
  | _ => none

/-- A datum of which a command is to write the document. -/
inductive Written (w : World) : Command → Datum → Prop where
  | report {q : Request} {base : Path} {r : Report} {w' : World} {d : Datum}
      (hBase : w.here.resolve w.disk (Path.parse q.target.root) = .ok base)
      (hRun : (Analysis.run base q.target.useCache none).on w = (.ok r, w')) (hDatum : q.view.datum? r = some d) :
      Written w q.command d
  | cache {q : Request} {base : Path} {d : Datum}
      (hBase : w.here.resolve w.disk (Path.parse q.target.root) = .ok base)
      (hSaves : Analysis.SavesDocument w base q.target.useCache d) : Written w q.command d
  | record {file : Text} {root : Option Text} {path base : Path} {extensions : List Text} {r : Record}
      {v v' : World} (hDisk : v.disk = w.disk) (hHere : v.here = w.here)
      (hPath : w.here.resolve w.disk (Path.parse file) = .ok path)
      (hExtract : (Extraction.extract path base extensions none).on v = (.ok r, v')) :
      Written w (.inspect file root) (Classification.classify r).toDatum
  | graph {root : Text} {base : Path} {r : Report} {v v' : World} (hDisk : v.disk = w.disk) (hHere : v.here = w.here)
      (hBase : w.here.resolve w.disk (Path.parse root) = .ok base)
      (hRun : (Analysis.run base false none).on v = (.ok r, v')) : Written w (.verify root) r.graph.toDatum

inductive Shown (w : World) : Command → Text → Prop where
  | report {q : Request} {base : Path} {r : Report} {w' : World} {text : Text}
      (hBase : w.here.resolve w.disk (Path.parse q.target.root) = .ok base)
      (hRun : (Analysis.run base q.target.useCache none).on w = (.ok r, w'))
      (hText : (q.view.text r).on w' = (.ok text, w')) : Shown w q.command text
  | file {root : Text} {base file : Path} {o : ScanOptions} {found : Path × Scan} {v v' : World}
      (hDisk : v.disk = w.disk) (hHere : v.here = w.here) (hBase : w.here.resolve w.disk (Path.parse root) = .ok base)
      (hScan : (Scan.project o base).on v = (.ok found, v')) (hFile : file ∈ found.2.files) :
      Shown w (.files root) (file.relativeText found.1 ++ "\n")

/-- All that ends a command without an exit code. -/
inductive Escape (w : World) : Command → Failure → Prop where
  | tree {c : Command} {f : Failure} (hTrouble : w.Trouble c.texts f) : Escape w c f
  /-- The path to save at names a home that there is not. -/
  | astray {q : Request} {save : Text} {f : Failure} (hSave : q.target.save = some save)
      (hExpand : w.here.expand (Path.parse save) = .error f) : Escape w q.command f
  /-- The path to save at has a character that no name has. -/
  | nul {q : Request} {save : Text} {named path : Path} (hSave : q.target.save = some save)
      (hExpand : w.here.expand (Path.parse save) = .ok named) (hPath : savePath named q.view.suffix = some path)
      (hUnclean : ¬ (w.here.join path).Clean) : Escape w q.command .nulInPath
  | nameless {q : Request} {save : Text} {named : Path} (hSave : q.target.save = some save)
      (hExpand : w.here.expand (Path.parse save) = .ok named) (hPath : savePath named q.view.suffix = none) :
      Escape w q.command .namelessPath
  /-- A number or a name does not fit into a document. -/
  | unwritten {c : Command} {d : Datum} (hWritten : Written w c d) (hFits : d.fits = false) : Escape w c .unwritable
  /-- A name has bytes that are no characters. -/
  | unencodable {c : Command} {text : Text} (hShown : Shown w c text) (hBytes : text.isString = false) :
      Escape w c .unencodable

/-- A failure that is reported, or one that escapes. -/
def Ends (w : World) (c : Command) (f : Failure) : Prop := (reported? f).isSome = true ∨ Escape w c f

/-- The failures that a command ends with, reported or escaping, cover all
that looking into the tree may stop for. -/
theorem covers (w : World) (c : Command) : w.Covers c.texts (Ends w c) :=
  ⟨fun _ => .inl rfl, fun _ _ => .inl rfl, fun _ => .inl rfl, fun _ hTrouble => .inr (.tree hTrouble)⟩

variable {w w' : World} {c : Command} {f : Failure}

/-- A document is written unless something does not fit into one. -/
theorem written_stops {d : Datum} (hRun : (written (Json.document d)).on w = (.error f, w')) :
    f = .unwritable ∧ d.fits = false := by
  rcases hDocument : Json.document d with e | text
  · rw [hDocument] at hRun
    refine ⟨(Except.error.inj (Prod.mk.inj hRun).1).symm, ?_⟩
    rw [← Bool.not_eq_true, ← Json.document_eq_ok_iff, hDocument]
    rintro ⟨text, hText⟩
    cases hText
  · rw [hDocument] at hRun
    cases hRun

/-- The text of a document is a string. -/
theorem written_isString {d : Datum} {text : Text} (hRun : (written (Json.document d)).on w = (.ok text, w')) :
    text.isString = true := by
  rcases hDocument : Json.document d with e | cs <;> rw [hDocument] at hRun
  · cases hRun
  · obtain rfl := Except.ok.inj (Prod.mk.inj hRun).1
    exact Text.isString_ofChars cs

/-- A report is shown unless something does not fit into its document. -/
theorem View.text_stops {r : Report} (hShowable : r.Showable) {v : View}
    (hRun : (v.text r).on w = (.error f, w')) : f = .unwritable ∧ ∃ d, v.datum? r = some d ∧ d.fits = false := by
  have hOther {text : Text} (hText : (v.text r).on w = (.ok text, w)) : False := by
    rw [hText] at hRun
    cases hRun
  match v with
  | whole .json =>
      obtain ⟨hRange, hFits⟩ := written_stops (d := r.toDatum) hRun
      exact ⟨hRange, _, rfl, hFits⟩
  | cycles .json =>
      obtain ⟨hRange, hFits⟩ := written_stops (d := r.cyclesDatum) hRun
      exact ⟨hRange, _, rfl, hFits⟩
  | whole .markdown =>
      obtain ⟨s, hText⟩ := hShowable.exists_markdown
      exact (hOther (by rw [text, hText]; rfl)).elim
  | cycles .markdown =>
      obtain ⟨s, hText⟩ := hShowable.exists_cyclesMarkdown
      exact (hOther (by rw [text, hText]; rfl)).elim
  | drawing .mermaid =>
      obtain ⟨s, hText⟩ := Diagram.exists_mermaid hShowable.ends
      exact (hOther (by rw [text, hText]; rfl)).elim
  | drawing .dot =>
      obtain ⟨s, hText⟩ := Diagram.exists_dot hShowable.ends
      exact (hOther (by rw [text, hText]; rfl)).elim

/-- Writing a report leaves the world as it was. -/
theorem View.text_unchanged {r : Report} {v : View} {text : Text} (hRun : (v.text r).on w = (.ok text, w')) :
    (v.text r).on w = (.ok text, w) := by
  suffices hSame : w' = w from hSame ▸ hRun
  have hWritten (t : Except Json.WriteFault (List Char)) (hRun : (written t).on w = (.ok text, w')) : w' = w := by
    cases t with
    | ok cs => exact (Prod.mk.inj hRun).2.symm
    | error e => cases hRun
  have hMarkdown (t : Except Markdown.Gap Text) (hRun : (markdownText t).on w = (.ok text, w')) : w' = w := by
    cases t with
    | ok s => exact (Prod.mk.inj hRun).2.symm
    | error e => cases e <;> cases hRun
  have hDrawn (t : Except Text Text) (hRun : (drawn t).on w = (.ok text, w')) : w' = w := by
    cases t with
    | ok s => exact (Prod.mk.inj hRun).2.symm
    | error e => cases hRun
  match v with
  | whole .json => exact hWritten _ hRun
  | whole .markdown => exact hMarkdown _ hRun
  | cycles .json => exact hWritten _ hRun
  | cycles .markdown => exact hMarkdown _ hRun
  | drawing .mermaid => exact hDrawn _ hRun
  | drawing .dot => exact hDrawn _ hRun

theorem Request.texts (q : Request) : q.command.texts = [q.target.root] := by
  obtain ⟨t, v⟩ := q
  cases v <;> rfl

/-- A request that stops once its root is found stops with a failure that is
reported, or with one of those that escape. -/
theorem Request.perform_stops {q : Request} {base : Path} (hProper : w.disk.Proper)
    (hBase : w.here.resolve w.disk (Path.parse q.target.root) = .ok base)
    (hRun : (q.perform base).on w = (.error f, w')) : Ends w q.command f := by
  have hCovers := covers w q.command
  have hSought : w.Sought q.command.texts base :=
    World.Sought.again (.named (by simp [q.texts])) hBase
  rw [perform] at hRun
  rcases of_on_bind_error hRun with hStop | ⟨r, v, hAnalysis, hShow⟩
  · exact Analysis.run_stops hCovers hSought hProper rfl rfl
      (fun d hSaves hFits => .inr (.unwritten (.cache hBase hSaves) hFits)) hStop
  have hHere := Analysis.stays_run hProper base q.target.useCache none
  rw [hAnalysis] at hHere
  rcases of_on_bind_error hShow with hStop | ⟨text, v₁, hText, hPut⟩
  · obtain ⟨rfl, d, hDatum, hFits⟩ := View.text_stops (Analysis.run_showable hAnalysis).1 hStop
    exact .inr (.unwritten (.report hBase hAnalysis hDatum) hFits)
  have hHere₁ : v₁.here = w.here := ((q.view.looks_text r).run hText).here.trans hHere
  rcases of_on_bind_error hPut with hStop | ⟨_, v₂, -, hRest⟩
  · exact fails_emit hCovers.refusal
      (fun hBytes => .inr (.unencodable (.report hBase hAnalysis (View.text_unchanged hText)) hBytes))
      (fun s f hSave hExpand => .inr (.astray hSave hExpand))
      (fun s named hSave hExpand hPath => .inr (.nameless hSave hExpand hPath))
      (fun s named path hSave hExpand hPath hUnclean => .inr (.nul hSave hExpand hPath hUnclean))
      v₁.disk v₁ f w' rfl hHere₁ hStop
  · obtain ⟨v₃, -, hComment⟩ := q.view.comment_on r v₂
    rw [on_bind_ok hComment] at hRest
    cases hRest

theorem fails_clear (root : Text) :
    Fails w.disk w.here (perform (.clear root)) (Ends w (.clear root)) := by
  have hCovers := covers w (.clear root)
  have hRoot : w.Sought [root] (Path.parse root) := .named (List.mem_singleton_self root)
  refine (hCovers.fails_resolve hRoot).bind (looks_resolve _) (gives_resolve _) fun base hBase => ?_
  refine (Analysis.fails_clearCache hCovers (hRoot.again hBase)).then_unstoppable fun removed => ?_
  exact (stopsBy_remark _).bind fun _ => stopsBy_pure _

theorem fails_files (root : Text) :
    Fails w.disk w.here (perform (.files root)) (Ends w (.files root)) := by
  have hCovers := covers w (.files root)
  have hRoot : w.Sought [root] (Path.parse root) := .named (List.mem_singleton_self root)
  refine (hCovers.fails_resolve hRoot).bind (looks_resolve _) (gives_resolve _) fun base hBase => ?_
  refine (fails_load hCovers (.asked (hRoot.asked_of_resolve hBase))).next (Analysis.looks_configOf base none)
    fun config => ?_
  refine (Scan.fails_project hCovers _ (hRoot.again hBase)).bind (Scan.looks_project _ _) (gives_run _ _ _)
    fun found hFound => ?_
  obtain ⟨v, v', hDisk, hHere, hScan⟩ := hFound
  refine fails_of_stopsBy (StopsBy.bind (stopsBy_forM fun file hFile => ?_) fun _ => ?_)
  · exact stopsBy_print fun hBytes => .inr (.unencodable (.file hDisk hHere hBase hScan hFile) hBytes)
  · exact StopsBy.bind (stopsBy_forM fun _ _ => stopsBy_remark _) fun _ => stopsBy_pure _

/-- Both of two analyses without a cache see the tree as it was, so that a
verification stops for what one of them stops for. -/
theorem fails_verification {base : Path} (hProper : w.disk.Proper) {P : Failure → Prop}
    (hOnce : Fails w.disk w.here (Analysis.run base false none) P)
    (hUnwritten : ∀ v r v', v.disk = w.disk → v.here = w.here → (Analysis.run base false none).on v = (.ok r, v') →
      r.graph.toDatum.fits = false → P .unwritable) :
    Fails w.disk w.here (Verification.run base none) P := by
  intro v f v' hDisk hHere hRun
  have hSame := Analysis.run_uncached_unchanged (hDisk ▸ hProper : v.disk.Proper) base none
  have hStays := Analysis.stays_run (hDisk ▸ hProper : v.disk.Proper) base false none
  rcases of_on_bind_error hRun with hStop | ⟨first, v₁, hFirst, hRest⟩
  · exact hOnce v f v' hDisk hHere hStop
  rw [hFirst] at hSame hStays
  rcases of_on_bind_error hRest with hStop | ⟨second, v₂, hSecond, hRest⟩
  · exact hOnce v₁ f v' (hSame.trans hDisk) (hStays.trans hHere) hStop
  split at hRest
  · cases hRest
  · next fault hDiffering =>
    obtain rfl := Except.error.inj (Prod.mk.inj hRest).1
    have hNone : ¬ (first.graph.toDatum.fits = true ∧ second.graph.toDatum.fits = true) := by
      rw [DependencyGraph.fits_eq_legible, DependencyGraph.fits_eq_legible,
        ← Verification.exists_differing (Analysis.run_showable hFirst).2 (Analysis.run_showable hSecond).2, hDiffering]
      simp
    rcases Bool.eq_false_or_eq_true first.graph.toDatum.fits with hFits | hFits
    · exact hUnwritten v₁ second v₂ (hSame.trans hDisk) (hStays.trans hHere) hSecond
        (by simpa [hFits] using hNone)
    · exact hUnwritten v first v₁ hDisk hHere hFirst hFits

/-- A verification stops for the same causes as two analyses one after the
other, and besides for what its comparison writes. -/
theorem verify_stops {root : Text} (hProper : w.disk.Proper)
    (hRun : (perform (.verify root)).on w = (.error f, w')) : Ends w (.verify root) f := by
  have hCovers := covers w (.verify root)
  have hRoot : w.Sought [root] (Path.parse root) := .named (List.mem_singleton_self root)
  refine Fails.bind (hCovers.fails_resolve hRoot) (looks_resolve _) (gives_resolve _) (fun base hBase => ?_)
    w f w' rfl rfl hRun
  have hOnce : Fails w.disk w.here (Analysis.run base false none) (Ends w (.verify root)) := by
    intro v f v' hDisk hHere hRun
    refine Analysis.run_stops hCovers (hRoot.again hBase) hProper hDisk hHere (fun d hSaves => ?_) hRun
    exact (Analysis.not_savesDocument_uncached (hDisk ▸ hProper) hSaves).elim
  refine (fails_verification hProper hOnce fun v r v' hDisk hHere hRun hFits =>
    .inr (.unwritten (.graph hDisk hHere hBase hRun) hFits)).then_unstoppable fun parts => ?_
  exact StopsBy.bind (stopsBy_forM fun _ _ => stopsBy_remark _) fun _ => stopsBy_pure _

/-- Show the record of a file that is seen from a root. -/
def describe (path root : Path) : Action Exit := do
  let config ← Config.load root
  let record ← Extraction.extract path root config.extensions none
  emit (← written (Json.document (Classification.classify record).toDatum)) none ""
  return .ok

/-- Showing a single file stops for nothing that the tree, the two texts and
the form of the record do not account for. -/
theorem fails_describe {file : Text} {root : Option Text} {path base : Path}
    (hPath : w.here.resolve w.disk (Path.parse file) = .ok path)
    (hFile : w.disk.isFile (w.here.join path) = .ok true) (hBased : w.Based (Command.inspect file root).texts base) :
    Fails w.disk w.here (describe path base) (Ends w (.inspect file root)) := by
  have hCovers := covers w (.inspect file root)
  obtain ⟨place, bytes, mtime, hLocate⟩ := Disk.found_of_isFile hFile
  refine (fails_load hCovers hBased).next (Analysis.looks_configOf base none) fun config => ?_
  have hExtract := Extraction.fails_extract hCovers (Disk.ne_nul_of_locate hLocate) base config.extensions none
  refine hExtract.bind (Extraction.looks_extract _ _ _ _) (gives_run _ _ _) fun r hRecord => ?_
  obtain ⟨v, v', hDisk, hHere, hRun⟩ := hRecord
  intro u e u' _ _ hShow
  rcases of_on_bind_error hShow with hWrite | ⟨text, u₁, hText, hRest⟩
  · obtain ⟨rfl, hFits⟩ := written_stops hWrite
    exact .inr (.unwritten (.record hDisk hHere hPath hRun) hFits)
  · obtain ⟨u₂, -, hEmit⟩ := emit_printed (written_isString hText) "" u₁
    rw [on_bind_ok hEmit] at hRest
    cases hRest

/-- An inspection stops with a failure that is reported, or with one of
those that escape. -/
theorem fails_inspect (file : Text) (root : Option Text) :
    Fails w.disk w.here (perform (.inspect file root)) (Ends w (.inspect file root)) := by
  have hCovers := covers w (.inspect file root)
  have hSought : w.Sought (file :: root.toList) (Path.parse file) := .named (List.mem_cons_self ..)
  refine (hCovers.fails_resolve hSought).bind (looks_resolve _) (gives_resolve _) fun path hPath => ?_
  refine (fails_ask hCovers.refusal _ _).bind (looks_ask _ _) (gives_ask _ _) fun isFile hFile => ?_
  split
  · exact fails_of_stopsBy ((stopsBy_remark _).bind fun _ => stopsBy_pure _)
  next hSome =>
  obtain rfl : isFile = true := by simpa using hSome
  have hAbove : w.Based (file :: root.toList) path.parent := .parent (hSought.asked_of_resolve hPath)
  cases root with
  | none => exact fails_describe hPath hFile hAbove
  | some r =>
      dsimp only
      split
      · exact fails_describe hPath hFile hAbove
      · have hNamed : w.Sought (file :: [r]) (Path.parse r) := .named (by simp)
        exact (hCovers.fails_resolve hNamed).bind (looks_resolve _) (gives_resolve _) fun base hBase =>
          fails_describe hPath hFile (.asked (hNamed.asked_of_resolve hBase))

/-- A command stops for what is reported, or for what escapes. The cases are
those of the commands. -/
theorem perform_stops (hProper : w.disk.Proper) (hRun : (perform c).on w = (.error f, w')) : Ends w c f := by
  have hRequest (q : Request) (hRun : (perform q.command).on w = (.error f, w')) : Ends w q.command f := by
    have hRoot : w.Sought q.command.texts (Path.parse q.target.root) := .named (by simp [q.texts])
    rw [q.perform_command] at hRun
    rcases of_on_bind_error hRun with hStop | ⟨base, v, hBase, hRest⟩
    · exact (covers w q.command).fails_resolve hRoot w f w' rfl rfl hStop
    · rw [resolve_on] at hBase
      obtain ⟨hResolved, rfl⟩ := Prod.mk.inj hBase
      exact Request.perform_stops hProper hResolved hRest
  cases c with
  | analyze t format => exact hRequest ⟨t, .whole format⟩ hRun
  | cycles t format => exact hRequest ⟨t, .cycles format⟩ hRun
  | graph t format => exact hRequest ⟨t, .drawing format⟩ hRun
  | clear root => exact fails_clear root w f w' rfl rfl hRun
  | files root => exact fails_files root w f w' rfl rfl hRun
  | inspect file root => exact fails_inspect file root w f w' rfl rfl hRun
  | verify root => exact verify_stops hProper hRun

/-- What a command reports gives the code of a failure, and the message is
said before that. -/
theorem run_reported {message : Text} (hRun : (perform c).on w = (.error f, w'))
    (hReported : reported? f = some message) : ∃ w'', (run c).on w = (.ok .failure, w'') := by
  rw [run_on, hRun]
  dsimp only
  rw [hReported]
  exact ⟨_, rfl⟩

/-- On a proper disk a command comes to an exit, or it ends with a failure
for which one of the causes listed is there. -/
theorem run_outcome (hProper : w.disk.Proper) (c : Command) :
    (∃ exit w', (run c).on w = (.ok exit, w')) ∨ ∃ f w', (run c).on w = (.error f, w') ∧ Escape w c f := by
  rcases hRun : (perform c).on w with ⟨f | exit, w'⟩
  · rcases hReported : reported? f with _ | message
    · refine .inr ⟨f, w', by rw [run_on, hRun]; dsimp only; rw [hReported], ?_⟩
      exact (perform_stops hProper hRun).resolve_left (by simp [hReported])
    · obtain ⟨w'', hDone⟩ := run_reported hRun hReported
      exact .inl ⟨.failure, w'', hDone⟩
  · exact .inl ⟨exit, w', by rw [run_on, hRun]⟩

/-- A command begins with the first path that it is given, and ends there if
no home can be put in for it. -/
theorem run_astray {text : Text} (hFirst : c.texts.head? = some text)
    (hExpand : w.here.expand (Path.parse text) = .error f) : (run c).on w = (.error f, w) := by
  have hResolve : (Action.resolve (Path.parse text)).on w = (.error f, w) := by
    rw [resolve_on, Standpoint.resolve_eq_error_iff.mpr (.inl hExpand)]
  have hPerform : (perform c).on w = (.error f, w) := by
    cases c <;> obtain rfl := Option.some.inj hFirst <;> exact on_bind_error hResolve _
  rw [run_on, hPerform]
  rcases Standpoint.expand_error hExpand with rfl | rfl <;> rfl

/-- The root of the project that a command analyses or clears, and whether
it uses the cache. -/
def Command.project? : Command → Option (Text × Bool)
  | .analyze t _ => some (t.root, t.useCache)
  | .clear root => some (root, true)
  | .cycles t _ => some (t.root, t.useCache)
  | .graph t _ => some (t.root, t.useCache)
  | _ => none

/-- A command on a project reports on it, or clears its cache. There is no
third way to have a project. -/
theorem project_cases {root : Text} {usesCache : Bool} (hProject : c.project? = some (root, usesCache)) :
    (∃ q : Request, c = q.command ∧ q.target.root = root ∧ q.target.useCache = usesCache) ∨
      c = .clear root ∧ usesCache = true := by
  cases c with
  | analyze t format =>
      obtain ⟨rfl, rfl⟩ := Prod.mk.inj (Option.some.inj hProject)
      exact .inl ⟨⟨t, .whole format⟩, rfl, rfl, rfl⟩
  | cycles t format =>
      obtain ⟨rfl, rfl⟩ := Prod.mk.inj (Option.some.inj hProject)
      exact .inl ⟨⟨t, .cycles format⟩, rfl, rfl, rfl⟩
  | graph t format =>
      obtain ⟨rfl, rfl⟩ := Prod.mk.inj (Option.some.inj hProject)
      exact .inl ⟨⟨t, .drawing format⟩, rfl, rfl, rfl⟩
  | clear root' =>
      obtain ⟨rfl, rfl⟩ := Prod.mk.inj (Option.some.inj hProject)
      exact .inr ⟨rfl, rfl⟩
  | _ => cases hProject

/-- The directory in which the configuration of a project is looked for: the
canonical form of the root, taken twice. -/
def Located (w : World) (root : Text) (base : Path) : Prop :=
  ∃ project, w.here.resolve w.disk (Path.parse root) = .ok project ∧ w.here.resolve w.disk project = .ok base

section Project

variable {root : Text} {usesCache : Bool} {base : Path} (hLocated : Located w root base)

include hLocated

theorem Located.found : ∃ project, (Action.resolve (Path.parse root)).on w = (.ok project, w) ∧
    (Action.resolve project).on w = (.ok base, w) := by
  obtain ⟨project, hRoot, hBase⟩ := hLocated
  exact ⟨project, by rw [resolve_on, hRoot], by rw [resolve_on, hBase]⟩

/-- The directory of a configuration is absolute, so that it is the same
from wherever it is looked at. -/
theorem Located.join_base (here : Standpoint) : here.join base = base := by
  obtain ⟨project, -, hBase⟩ := hLocated
  exact Path.join_of_absolute (Standpoint.resolve_isAbsolute hBase) here

variable (hProject : c.project? = some (root, usesCache))

include hProject

/-- A command on a project begins with its root and its configuration. -/
theorem perform_misloaded {v : World} (hLoad : (Config.load base).on w = (.error f, v)) :
    (perform c).on w = (.error f, v) := by
  obtain ⟨project, hFirst, hSecond⟩ := hLocated.found
  rcases project_cases hProject with ⟨q, rfl, rfl, -⟩ | ⟨rfl, -⟩
  · have hStart : (Analysis.start project none).on w = (.error f, v) := by
      rw [Analysis.start, on_bind_ok hSecond]
      exact on_bind_error hLoad _
    have hRun : (Analysis.run project q.target.useCache none).on w = (.error f, v) := by
      rw [Analysis.run_eq, on_bind_error hStart]
    rw [q.perform_command, on_bind_ok hFirst, Request.perform, on_bind_error hRun]
  · have hClear : (Analysis.clearCache project none).on w = (.error f, v) := by
      rw [Analysis.clearCache_eq, on_bind_ok hSecond]
      exact on_bind_error hLoad _
    rw [perform, on_bind_ok hFirst, clear, on_bind_error hClear]

/-- A command that uses the cache comes to an end without a failure only
where the cache can be placed. -/
theorem placeable_of_perform (hProper : w.disk.Proper) (hUse : usesCache = true) {config : Config} {v w' : World}
    {exit : Exit} (hLoad : (Config.load base).on w = (.ok config, v)) (hRun : (perform c).on w = (.ok exit, w')) :
    Config.Placeable w.disk base config.cacheDir := by
  obtain ⟨project, hFirst, hSecond⟩ := hLocated.found
  have hConfig : (Analysis.configOf base none).on w = (.ok config, v) := hLoad
  suffices hFile : ∃ file u, (Analysis.cachePath project none).on w = (.ok file, u) by
    obtain ⟨file, u, hFile⟩ := hFile
    rw [Analysis.cachePath, on_bind_ok hSecond, on_bind_ok hConfig] at hFile
    obtain ⟨directory, u', hDirectory, -⟩ := of_on_bind hFile
    have hPlaceable := Config.cacheDirectory_placeable hDirectory
    rwa [((Analysis.looks_configOf base none).run hLoad).disk, hLocated.join_base] at hPlaceable
  rcases project_cases hProject with ⟨q, rfl, rfl, hUses⟩ | ⟨rfl, -⟩
  · rw [q.perform_command, on_bind_ok hFirst] at hRun
    obtain ⟨r, v₁, hAnalysis, -⟩ := of_on_bind hRun
    rw [hUses.trans hUse, Analysis.run_eq] at hAnalysis
    obtain ⟨plan, v₂, hStart, hRest⟩ := of_on_bind hAnalysis
    obtain ⟨x, v₃, hCollect, -⟩ := of_on_bind hRest
    have hPlanned := Analysis.gives_start hProper w.here project none w plan v₂ rfl rfl hStart
    have hLooked := (Analysis.looks_start project none).run hStart
    have hCollected := Analysis.gives_collect hPlanned true v₂ x v₃ hLooked.disk hLooked.here hCollect
    obtain ⟨cache, hCache⟩ := Option.isSome_iff_exists.mp hCollected.cached
    exact ⟨_, Analysis.cachePath_on_of_opened hStart (hCollected.opened cache hCache)⟩
  · rw [perform, on_bind_ok hFirst] at hRun
    obtain ⟨removed, v₁, hClear, -⟩ := of_on_bind hRun
    rw [Analysis.clearCache_eq, on_bind_ok hSecond, on_bind_ok hConfig] at hClear
    obtain ⟨file, u, hFile, -⟩ := of_on_bind hClear
    exact ⟨file, u, by rw [Analysis.cachePath, on_bind_ok hSecond, on_bind_ok hConfig, hFile]⟩

end Project

/-- A command on a project whose configuration is there, as a
file of these bytes. -/
structure Configured (w : World) (c : Command) (base : Path) (usesCache : Bool) (bytes : List UInt8) : Prop where
  project : ∃ root, c.project? = some (root, usesCache) ∧ Located w root base
  content : w.content? (Config.filePath base) = some bytes

/-- What a command comes to. -/
structure Outcome (w : World) (c : Command) : Prop where
  /-- There is an exit code, or a failure escapes that has one of the known causes. -/
  ends : (∃ exit w', (run c).on w = (.ok exit, w') ∧ exit.code ∈ [0, 1, 2, 3]) ∨
    ∃ f w', (run c).on w = (.error f, w') ∧ Escape w c f
  /-- What escapes if the first path that is given names a home that there is not. -/
  astray : ∀ {text : Text} {f : Failure}, c.texts.head? = some text →
    w.here.expand (Path.parse text) = .error f → (run c).on w = (.error f, w)
  /-- A configuration fails the command if it cannot be read, or is a text but no fitting one. -/
  faulty : ∀ {base : Path} {usesCache : Bool} {bytes : List UInt8}, Configured w c base usesCache bytes →
    Config.Faulty bytes ∨ ¬ w.OpenAt (w.here.join (Config.filePath base)).text →
    ∃ w', (run c).on w = (.ok .failure, w')
  /-- What escapes if the configuration can be read but is no text. -/
  garbled : ∀ {base : Path} {usesCache : Bool} {bytes : List UInt8} {fault : Text.Utf8.Fault},
    Configured w c base usesCache bytes → w.OpenAt (w.here.join (Config.filePath base)).text →
    Text.Utf8.decode bytes = .error fault → ∃ w', (run c).on w = (.error .notUtf8, w')
  /-- What escapes if it has an integer of too many digits. -/
  oversized : ∀ {base : Path} {usesCache : Bool} {bytes : List UInt8}, Configured w c base usesCache bytes →
    w.OpenAt (w.here.join (Config.filePath base)).text → Config.Oversized bytes →
    ∃ w', (run c).on w = (.error .digitLimit, w')
  /-- With a configuration that has no place for the cache in the project, a command that uses the
  cache has no other code than that of a failure. -/
  misplaced : ∀ {base : Path} {bytes : List UInt8} {config : Config} {v : World}, Configured w c base true bytes →
    (Config.load base).on w = (.ok config, v) → ¬ Config.Placeable w.disk base config.cacheDir →
    ∀ exit w', (run c).on w = (.ok exit, w') → exit = .failure

/-- The codes of all exits are these four. -/
theorem Exit.code_mem (exit : Exit) : exit.code ∈ [0, 1, 2, 3] := by cases exit <;> decide

/-- A command that is read from any arguments and done in any world exits
with a code, unless one of a few causes stops it. A bad configuration gives
the code of a failure, but one that is no text or has too long an integer is
such a cause. -/
theorem command_outcome (hProper : w.disk.Proper) (c : Command) : Outcome w c where
  ends := by
    rcases run_outcome hProper c with ⟨exit, w', hRun⟩ | hEscape
    · exact .inl ⟨exit, w', hRun, exit.code_mem⟩
    · exact .inr hEscape
  astray := run_astray
  faulty := by
    intro base usesCache bytes hConfigured hBad
    obtain ⟨root, hProject, hLocated⟩ := hConfigured.project
    obtain ⟨place, mtime, hLocate⟩ := World.content?_eq_some_iff.mp hConfigured.content
    obtain ⟨fault, v, hLoad⟩ : ∃ fault v, (Config.load base).on w = (.error (.config fault), v) := by
      by_cases hOpen : w.OpenAt (w.here.join (Config.filePath base)).text
      · have hFaulty := hBad.resolve_right (not_not_intro hOpen)
        obtain ⟨fault, hFault⟩ := Config.ofBytes_faulty hFaulty (Config.filePath base)
        exact ⟨fault, w, by rw [Config.load_open hLocate hOpen, hFault]⟩
      · exact Config.load_locked hLocate hOpen
    exact run_reported (perform_misloaded hLocated hProject hLoad) rfl
  garbled := by
    intro base usesCache bytes fault hConfigured hOpen hDecode
    obtain ⟨root, hProject, hLocated⟩ := hConfigured.project
    obtain ⟨place, mtime, hLocate⟩ := World.content?_eq_some_iff.mp hConfigured.content
    have hLoad := Config.load_open hLocate hOpen
    rw [Config.ofBytes_garbled hDecode] at hLoad
    exact ⟨w, by rw [run_on, perform_misloaded hLocated hProject hLoad]; rfl⟩
  oversized := by
    intro base usesCache bytes hConfigured hOpen hOversized
    obtain ⟨root, hProject, hLocated⟩ := hConfigured.project
    obtain ⟨place, mtime, hLocate⟩ := World.content?_eq_some_iff.mp hConfigured.content
    have hLoad := Config.load_open hLocate hOpen
    rw [Config.ofBytes_oversized hOversized] at hLoad
    exact ⟨w, by rw [run_on, perform_misloaded hLocated hProject hLoad]; rfl⟩
  misplaced := by
    intro base bytes config v hConfigured hLoad hNone exit w' hRun
    obtain ⟨root, hProject, hLocated⟩ := hConfigured.project
    rcases hPerform : (perform c).on w with ⟨f | done, u⟩
    · rw [run_on, hPerform] at hRun
      dsimp only at hRun
      split at hRun
      · exact (Except.ok.inj (Prod.mk.inj hRun).1).symm
      · cases (Prod.mk.inj hRun).1
    · exact absurd (placeable_of_perform hLocated hProject hProper rfl hLoad hPerform) hNone

namespace Sample

def configured (bytes : List UInt8) : World where
  disk := ⟨[(["p"], .directory), (["p", "ngmap.toml"], .file bytes 7)]⟩
  here := ⟨⟨.root, ["p"]⟩, []⟩
  watch := ⟨0, 1⟩

def analyzing : Command := .analyze ⟨".", none, true⟩ .json

/-- Analysing the home of a user that there is not. -/
def analyzingHome : Command := .analyze ⟨"~nosuchuser", none, true⟩ .json

/-- A configuration with a field that there is none of. -/
def surplus : List UInt8 := Text.Utf8.encode "unknown = 1\n"

/-- A configuration that puts the cache beside the project. -/
def beside : List UInt8 := Text.Utf8.encode "cache_dir = '../q'\n"

/-- A configuration with an integer of one digit and so many more. -/
def ones (n : Nat) : List UInt8 :=
  Text.Utf8.encodeChars ('t' :: ['o', 'p', '_', 'n'] ++ ' ' :: '=' :: ' ' :: '1' :: List.replicate n '1')

/-- Whether reading bytes as a configuration comes to a fault in it. -/
def isFaulty (bytes : List UInt8) : Bool :=
  match Config.ofBytes (Config.filePath project) bytes with
  | .error (.config _) => true
  | _ => false

theorem faulty_of_isFaulty {bytes : List UInt8} (hFaulty : isFaulty bytes = true) : Config.Faulty bytes := by
  rw [isFaulty, Config.ofBytes] at hFaulty
  rcases hDecode : Text.Utf8.decode bytes with fault | cs <;> rw [hDecode] at hFaulty
  · cases hFaulty
  refine ⟨cs, hDecode, ?_⟩
  rcases hParse : Toml.parse cs with ⟨_ | _, line⟩ | fields <;> simp only [hParse] at hFaulty
  · exact .inl ⟨line, rfl⟩
  · cases hFaulty
  · refine .inr ⟨fields, rfl, fun c hRead => ?_⟩
    simp only [hRead] at hFaulty
    cases hFaulty

/-- A configuration with an integer of more digits than are
converted is oversized. -/
theorem oversized_ones {n : Nat} (hMost : Number.mostDigits ≤ n) : Config.Oversized (ones n) := by
  have hDigits : ∀ c ∈ '1' :: List.replicate n '1', Json.isDigit c = true := by
    intro c hc
    rw [← List.replicate_succ] at hc
    rw [List.eq_of_mem_replicate hc]
    decide
  have hLong : Number.mostDigits < ('1' :: List.replicate n '1').length := by
    rw [List.length_cons, List.length_replicate]
    exact Nat.lt_succ_of_le hMost
  have hKey : ∀ c ∈ 't' :: ['o', 'p', '_', 'n'], Toml.isBareKey c = true :=
    List.all_eq_true.mp (by decide)
  obtain ⟨line, hParse⟩ := Toml.parse_huge hKey hDigits (by decide) hLong
  refine ⟨_, line, ?_, hParse⟩
  rw [ones, Text.Utf8.decode_encodeChars]

/-- The sample is a command on a project whose
configuration has these bytes. -/
theorem configured_analyzing (bytes : List UInt8) : Configured (configured bytes) analyzing project true bytes :=
  ⟨⟨".", rfl, project, rfl, rfl⟩, rfl⟩

/-- From the project a directory beside it is no place for a cache. -/
theorem not_placeable_beside : ¬ Config.Placeable (configured beside).disk project "../q" := by
  rintro ⟨-, -, base, directory, hRooted, hFound, hWithin⟩
  have hFacts : (configured beside).disk.canonical project = .ok project ∧
      (configured beside).disk.canonical (project.join (Path.parse "../q")) = .ok ⟨.root, ["q"]⟩ := by
    decide +kernel
  obtain rfl : project = base := Except.ok.inj (hFacts.1.symm.trans hRooted)
  obtain rfl : (⟨.root, ["q"]⟩ : Path) = directory := Except.ok.inj (hFacts.2.symm.trans hFound)
  exact absurd hWithin (by decide)

/-- The configuration that names a directory beside is read as such, and the
command that analyses the project comes to an exit. -/
theorem beside_facts :
    passes (fun config _ => config.cacheDir = ("../q" : Text)) ((Config.load project).on (configured beside)) = true ∧
    passes (fun _ _ => true) ((run analyzing).on (configured beside)) = true := by
  decide +kernel

/-- Analysing the home of nobody ends without a code. So does analysing
the working directory if the configuration is no text or has too long an
integer; if it does not fit or puts the cache elsewhere, the code is
that of a failure. -/
theorem analyzing_outcomes : invocation ["analyze", "."] = .ok ⟨0, analyzing⟩ ∧
    invocation ["analyze", "~nosuchuser"] = .ok ⟨0, analyzingHome⟩ ∧
    (run analyzingHome).on (configured []) = (.error .homeless, configured []) ∧
    (∃ w', (run analyzing).on (configured [0xff]) = (.error .notUtf8, w')) ∧
    (∃ w', (run analyzing).on (configured (ones 4300)) = (.error .digitLimit, w')) ∧
    (∃ w', (run analyzing).on (configured surplus) = (.ok .failure, w')) ∧
    ∃ w', (run analyzing).on (configured beside) = (.ok .failure, w') := by
  have hOutcome (bytes : List UInt8) (c : Command) : Outcome (configured bytes) c := by
    refine command_outcome ⟨?_, ?_⟩ c
    · simp only [configured, List.forall_mem_cons]
      decide
    · exact (by decide : (([["p"], ["p", "ngmap.toml"]] : List Place)).Nodup)
  have hOpen (bytes : List UInt8) (key : Text) : (configured bytes).OpenAt key := fun _ hLock => by cases hLock
  refine ⟨by decide +kernel, by decide +kernel, ?_, ?_, ?_, ?_, ?_⟩
  · exact (hOutcome [] analyzingHome).astray rfl (by decide +kernel)
  · have hDecode : Text.Utf8.decode [0xff] = .error .startByte := by decide +kernel
    exact (hOutcome [0xff] analyzing).garbled (configured_analyzing _) (hOpen _ _) hDecode
  · exact (hOutcome (ones 4300) analyzing).oversized (configured_analyzing _) (hOpen _ _) (oversized_ones (Nat.le_refl _))
  · exact (hOutcome surplus analyzing).faulty (configured_analyzing _)
      (.inl (faulty_of_isFaulty (by decide +kernel)))
  · obtain ⟨config, v, hLoad, hDir⟩ := exists_of_passes beside_facts.1
    obtain ⟨exit, w', hRun, -⟩ := exists_of_passes beside_facts.2
    have hNone : ¬ Config.Placeable (configured beside).disk project config.cacheDir := by
      rw [of_decide_eq_true hDir]
      exact not_placeable_beside
    obtain rfl := (hOutcome beside analyzing).misplaced (configured_analyzing _) hLoad hNone exit w' hRun
    exact ⟨w', hRun⟩

end Sample

end SourceAtlas.CommandLine
