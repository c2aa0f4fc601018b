import SourceAtlas.Proofs.Extraction
import SourceAtlas.Proofs.Path

/-!
Looking up the imports of a record again: what may change in it, when nothing does, when it cannot be
done, and that it comes to the same as making the record again from the same bytes.
-/
namespace SourceAtlas

/-- Two lists of computations come to the same if each two of them do. -/
theorem mapM_eq_of_forall₂ {α β γ ε : Type} {f : α → Except ε γ} {g : β → Except ε γ} {xs : List α} {ys : List β}
    (hSame : List.Forall₂ (fun x y => g y = f x) xs ys) : ys.mapM g = xs.mapM f := by
  induction hSame with
  | nil => rfl
  | cons hFirst _ ih => rw [List.mapM_cons, List.mapM_cons, hFirst, ih]

namespace Resolution

variable {w : World} {importer : Path} {extensions : List Text} {i j : Import} {r r' : Record}

/-- An import of the same statement that may lead elsewhere. External
imports stay as they are. -/
structure Redirects (i j : Import) : Prop where
  statement : j = { i with kind := j.kind, resolved := j.resolved }
  external : i.kind = .external → j = i

/-- A record of the same file whose imports may lead elsewhere. -/
structure Redirected (r r' : Record) : Prop where
  rest : r' = { r with imports := r'.imports }
  imports : List.Forall₂ Redirects r.imports r'.imports

theorem refreshImport_of_external (hKind : i.kind = .external) :
    refreshImport w importer extensions i = .ok i := by
  rw [refreshImport, if_pos hKind]

theorem refreshImport_of_inner (hKind : i.kind ≠ .external) :
    refreshImport w importer extensions i = (classify w importer extensions i.source).map fun found =>
      { i with kind := found.1, resolved := found.2 } := by
  rw [refreshImport, if_neg hKind]
  rcases classify w importer extensions i.source with e | ⟨kind, resolved⟩ <;> rfl

theorem redirects_of_refreshImport (hRefresh : refreshImport w importer extensions i = .ok j) :
    Redirects i j := by
  by_cases hKind : i.kind = .external
  · rw [refreshImport_of_external hKind] at hRefresh
    obtain rfl := Except.ok.inj hRefresh
    exact ⟨rfl, fun _ => rfl⟩
  · rw [refreshImport_of_inner hKind] at hRefresh
    rcases hClassify : classify w importer extensions i.source with e | found
    · rw [hClassify] at hRefresh
      cases hRefresh
    · rw [hClassify] at hRefresh
      obtain rfl := Except.ok.inj hRefresh
      exact ⟨rfl, fun hExternal => absurd hExternal hKind⟩

/-- An import stays as it is exactly if it still leads where it did. -/
theorem refreshImport_eq_self_iff : refreshImport w importer extensions i = .ok i ↔
    (i.kind ≠ .external → classify w importer extensions i.source = .ok (i.kind, i.resolved)) := by
  by_cases hKind : i.kind = .external
  · simp [refreshImport_of_external hKind, hKind]
  · rw [refreshImport_of_inner hKind]
    rcases classify w importer extensions i.source with e | ⟨kind, resolved⟩
    · simp [Except.map, hKind]
    · rcases i with ⟨source, resolved', kind', form, names, line, group⟩
      simp only [Except.map, Except.ok.injEq, Import.mk.injEq, Prod.mk.injEq, true_and, and_true]
      exact ⟨fun hSame _ => ⟨hSame.2, hSame.1⟩, fun hSame => (hSame hKind).symm⟩

theorem refreshImport_eq_error_iff : (∃ e, refreshImport w importer extensions i = .error e) ↔
    i.kind ≠ .external ∧ Blocked w importer extensions i.source := by
  by_cases hKind : i.kind = .external
  · simp [refreshImport_of_external hKind, hKind]
  · rw [refreshImport_of_inner hKind, ← classify_eq_error_iff]
    rcases classify w importer extensions i.source with e | found <;> simp [Except.map, hKind]

/-- What looking up the imports of a record gives, import by import. -/
theorem refresh_eq_ok_iff : refresh w extensions r = .ok r' ↔
    r' = { r with imports := r'.imports } ∧
      r.imports.mapM (refreshImport w (Path.parse r.path) extensions) = .ok r'.imports := by
  rw [refresh]
  rcases hImports : r.imports.mapM (refreshImport w (Path.parse r.path) extensions) with e | imports
  · simp
  · constructor
    · intro hRefresh
      obtain rfl := Except.ok.inj hRefresh
      exact ⟨rfl, rfl⟩
    · rintro ⟨hRest, hSame⟩
      obtain rfl := Except.ok.inj hSame
      exact congrArg Except.ok hRest.symm

/-- Looking up the imports of a record changes nothing but where its
relative imports lead. -/
theorem redirected_of_refresh (hRefresh : refresh w extensions r = .ok r') : Redirected r r' := by
  obtain ⟨hRest, hImports⟩ := refresh_eq_ok_iff.mp hRefresh
  exact ⟨hRest, (forall₂_of_mapM hImports).imp fun _ _ => redirects_of_refreshImport⟩

/-- A record stays as it is exactly if each of its imports still
leads where it did. -/
theorem refresh_eq_self_iff : refresh w extensions r = .ok r ↔
    ∀ i ∈ r.imports, i.kind ≠ .external →
      classify w (Path.parse r.path) extensions i.source = .ok (i.kind, i.resolved) := by
  rw [refresh_eq_ok_iff, and_iff_right rfl, mapM_eq_self_iff]
  exact forall₂_congr fun i _ => refreshImport_eq_self_iff

theorem refresh_eq_error_iff : (∃ e, refresh w extensions r = .error e) ↔
    ∃ i ∈ r.imports, i.kind ≠ .external ∧ Blocked w (Path.parse r.path) extensions i.source := by
  have hImports : (∃ e, r.imports.mapM (refreshImport w (Path.parse r.path) extensions) = .error e) ↔
      ∃ i ∈ r.imports, i.kind ≠ .external ∧ Blocked w (Path.parse r.path) extensions i.source := by
    rw [mapM_eq_error_iff]
    exact exists_congr fun i => and_congr_right fun _ => refreshImport_eq_error_iff
  rw [← hImports, refresh]
  rcases r.imports.mapM (refreshImport w (Path.parse r.path) extensions) with e | imports <;> simp

/-- Where an import leads does not depend on where it led before. -/
theorem refreshImport_after (hRefresh : refreshImport w importer extensions i = .ok j) (v : World)
    (others : List Text) : refreshImport v importer others j = refreshImport v importer others i := by
  by_cases hKind : i.kind = .external
  · rw [(redirects_of_refreshImport hRefresh).external hKind]
  · rw [refreshImport_of_inner hKind] at hRefresh ⊢
    rcases hClassify : classify w importer extensions i.source with e | ⟨kind, resolved⟩
    · rw [hClassify] at hRefresh
      cases hRefresh
    · rw [hClassify] at hRefresh
      obtain rfl := Except.ok.inj hRefresh
      rw [classify] at hClassify
      split at hClassify
      · -- a relative import stays one
        rw [refreshImport_of_inner]
        intro hExternal
        dsimp only at hExternal
        subst hExternal
        split at hClassify <;> cases hClassify
      · next hRelative =>
        obtain ⟨rfl, rfl⟩ := Prod.mk.inj (Except.ok.inj hClassify)
        rw [refreshImport_of_external rfl, classify, if_neg hRelative]
        rfl

/-- Looking up the imports of a record comes to the same if they were
looked up before. -/
theorem refresh_after (hRefresh : refresh w extensions r = .ok r') (v : World) (others : List Text) :
    refresh v others r' = refresh v others r := by
  obtain ⟨hRest, hImports⟩ := refresh_eq_ok_iff.mp hRefresh
  have hPath : r'.path = r.path := by rw [hRest]
  have hSame := mapM_eq_of_forall₂ ((forall₂_of_mapM hImports).imp fun _ _ hImport =>
    refreshImport_after hImport v others)
  rw [refresh, refresh, hPath, hSame, hRest]

/-- Looking up once more in the same world changes nothing. -/
theorem refresh_again (hRefresh : refresh w extensions r = .ok r') : refresh w extensions r' = .ok r' :=
  (refresh_after hRefresh w extensions).trans hRefresh

/-- Where every path that its imports try is a file exactly if it was one, a
record stays as it is. -/
theorem refresh_steady {v : World} (hRefresh : refresh w extensions r = .ok r)
    (hSame : ∀ i ∈ r.imports, isRelative i.source = true →
      ∀ p ∈ candidates (base (Path.parse r.path) i.source) extensions, v.hasFile p = w.hasFile p) :
    refresh v extensions r = .ok r := by
  rw [refresh_eq_self_iff] at hRefresh ⊢
  intro i hi hInner
  rw [classify_eq (hSame i hi), hRefresh i hi hInner]

end Resolution

namespace Extraction

open SourceAtlas.Action

variable {w : World} {path root : Path} {extensions : List Text} {bytes : List UInt8}

/-- The result of an extraction is the record of the bytes, or its fault. -/
theorem extract_eq (w : World) (path root : Path) (extensions : List Text) (bytes : List UInt8) :
    ((extract path root extensions (some bytes)).on w).1 =
      (record w path root extensions bytes).mapError .system := by
  rw [extract_some]
  rcases hRecord : record w path root extensions bytes with e | r
  · rw [fromContent_error hRecord]
    rfl
  · obtain ⟨w', -, hRun⟩ := fromContent_ok hRecord
    rw [hRun]
    rfl

/-- Take a record that was made of some bytes, in any world and with any
extensions. Looking up its imports in another world, with other extensions,
gives the record made of the same bytes there, or the same fault. It changes
nothing but where relative imports lead, and gives the record itself exactly
if each of them leads where it did. -/
theorem refresh_agrees {w₁ v₁ : World} {extensions₁ : List Text} {r : Record} (file : Text)
    (root : Path) (bytes : List UInt8)
    (hMade : (extract (Path.parse file) root extensions₁ (some bytes)).on w₁ = (.ok r, v₁))
    (w₂ : World) (extensions₂ : List Text) :
    (Resolution.refresh w₂ extensions₂ r).mapError .system =
        ((extract (Path.parse file) root extensions₂ (some bytes)).on w₂).1 ∧
      (∀ r', Resolution.refresh w₂ extensions₂ r = .ok r' → Resolution.Redirected r r') ∧
      (Resolution.refresh w₂ extensions₂ r = .ok r ↔ ∀ i ∈ r.imports, i.kind ≠ .external →
        Resolution.classify w₂ (Path.parse file) extensions₂ i.source = .ok (i.kind, i.resolved)) := by
  have hReadable : (Path.parse file).Readable := Path.parse_readable file
  have hRecord : record w₁ (Path.parse file) root extensions₁ bytes = .ok r := by
    have hResult := extract_eq w₁ (Path.parse file) root extensions₁ bytes
    rw [hMade] at hResult
    rcases hBytes : record w₁ (Path.parse file) root extensions₁ bytes with e | r'
    · rw [hBytes] at hResult
      cases hResult
    · rw [hBytes] at hResult
      obtain rfl := Except.ok.inj hResult
      rfl
  have hImporter : Path.parse r.path = Path.parse file := by
    rw [(record_eq_ok hRecord).1, Path.parse_text hReadable]
  refine ⟨?_, fun r' => Resolution.redirected_of_refresh, ?_⟩
  · rw [refresh_record hReadable hRecord, extract_eq]
  · rw [Resolution.refresh_eq_self_iff, hImporter]

namespace Sample

/-- A directory without files, and the same with the file that is imported. -/
def bare : World where
  disk := ⟨[(["p"], .directory)]⟩
  here := ⟨⟨.root, []⟩, []⟩
  watch := ⟨0, 1⟩

def filled : World := { bare with disk := bare.disk.put ["p", "b.ts"] (.file [] 1) }

def importing : List UInt8 := Text.Utf8.encode "import './b'; import 'c';"

def extractIn (w : World) (extensions : List Text) : Except Failure Record × World :=
  (extract (Path.parse "/p/a.ts") ⟨.root, ["p"]⟩ extensions (some importing)).on w

/-- Where an import leads, with its kind. -/
abbrev Lead := Text × ImportKind × Option Text

def leads (r : Record) : List Lead := r.imports.map fun i => (i.source, i.kind, i.resolved)

theorem made_bare : passes (fun r _ => leads r = ([("./b", .unresolved, none), ("c", .external, none)] : List Lead))
    (extractIn bare [".ts"]) = true := by
  decide +kernel

theorem made_filled : passes (fun r _ => leads r = ([("./b", .inside, some "/p/b.ts"), ("c", .external, none)] : List Lead))
    (extractIn filled [".ts"]) = true := by
  decide +kernel

/-- A record follows a file that appears, unless the extension that leads to
it is not asked for. -/
theorem appearing_followed : ∃ r v r', extractIn bare [".ts"] = (.ok r, v) ∧
    leads r = ([("./b", .unresolved, none), ("c", .external, none)] : List Lead) ∧
    Resolution.refresh filled [".ts"] r = .ok r' ∧
    leads r' = ([("./b", .inside, some "/p/b.ts"), ("c", .external, none)] : List Lead) ∧
    Resolution.Redirected r r' ∧ Resolution.refresh filled [".js"] r = .ok r := by
  obtain ⟨r, v, hMade, hLeads⟩ := exists_of_passes made_bare
  obtain ⟨r', v', hAgain, hLeads'⟩ := exists_of_passes made_filled
  have hLeads := of_decide_eq_true hLeads
  obtain ⟨hSame, hRedirected, -⟩ := refresh_agrees "/p/a.ts" ⟨.root, ["p"]⟩ importing hMade filled [".ts"]
  obtain ⟨-, -, hKept⟩ := refresh_agrees "/p/a.ts" ⟨.root, ["p"]⟩ importing hMade filled [".js"]
  have hRefresh : Resolution.refresh filled [".ts"] r = .ok r' := by
    rw [show ((extract _ _ _ _).on filled).1 = .ok r' from congrArg Prod.fst hAgain] at hSame
    rcases hResult : Resolution.refresh filled [".ts"] r with e | r''
    · rw [hResult] at hSame
      cases hSame
    · rw [hResult] at hSame
      exact congrArg _ (Except.ok.inj hSame)
  refine ⟨r, v, r', hMade, hLeads, hRefresh, of_decide_eq_true hLeads', hRedirected r' hRefresh, ?_⟩
  refine hKept.mpr fun i hi hInner => ?_
  have hMember : (i.source, i.kind, i.resolved) ∈ leads r :=
    List.mem_map_of_mem (f := fun j => (j.source, j.kind, j.resolved)) hi
  rw [hLeads, List.mem_cons, List.mem_singleton] at hMember
  rcases hMember with hInside | hOutside
  · obtain ⟨hSource, hRest⟩ := Prod.mk.inj hInside
    rw [hSource, hRest]
    decide
  · exact absurd (Prod.mk.inj (Prod.mk.inj hOutside).2).1 hInner

end Sample

end Extraction

end SourceAtlas
