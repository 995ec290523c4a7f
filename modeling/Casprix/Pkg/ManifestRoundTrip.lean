import Casprix.Pkg.Manifest

/-! What is read back from a written manifest. The reader looks for a key and a
colon; the writer puts a space between the colon and the object of dependencies. -/
namespace Casprix.Pkg

open List Library Option

variable {name before json : CString} {m : PackageManifest}

section

variable {key tail : CString}

def QuoteFree (str : CString) : Prop := '\x22' ∉ str

instance (str : CString) : Decidable (QuoteFree str) := inferInstanceAs (Decidable (_ ∉ _))

/-- The keys of a manifest begin with a letter. -/
structure IsKey (key : CString) : Prop where
  quoteFree : QuoteFree key
  head : ∃ c rest, key = c :: rest ∧ c.isAlpha = true

/-- The search for `key` and `tail` does not stop in the segment. -/
def Passes (key tail segment : CString) : Prop :=
  ∀ rest, strstr (segment ++ rest) (quoted key ++ tail) = strstr rest (quoted key ++ tail)

theorem strstr_quoted (hKey : IsKey key) {str rest : CString} (hStr : QuoteFree str)
    (hRest : ∀ c, rest.head? = some c → c.isAlpha = false) :
    strstr (quoted str ++ rest) (quoted key ++ tail) =
      if str = key ∧ tail <+: rest then some (quoted str ++ rest)
      else strstr rest (quoted key ++ tail) := by
  obtain ⟨c, key, rfl, hAlpha⟩ := hKey.head
  have hHead : rest.head? ≠ some c := fun hEq => by
    rw [hRest c hEq] at hAlpha
    cases hAlpha
  have hFind : findSuffix ('\x22' :: c :: key ++ '\x22' :: tail)
      ('\x22' :: str ++ '\x22' :: rest) = _ :=
    findSuffix_delimited hKey.quoteFree hStr hHead
  simpa [strstr, quoted] using hFind

namespace Passes

theorem nil : Passes key tail [] := fun _ => rfl

theorem append {a b : CString} (ha : Passes key tail a) (hb : Passes key tail b) :
    Passes key tail (a ++ b) := by
  intro rest
  rw [append_assoc, ha, hb]

theorem gap {segment : CString} (h : QuoteFree segment) : Passes key tail segment :=
  fun _ => findSuffix_append_of_not_mem h

section

variable (hKey : IsKey key)
include hKey

theorem string {str after : CString} (hStr : QuoteFree str)
    (hAfter : QuoteFree after) (hHead : ∃ c rest, after = c :: rest ∧ c.isAlpha = false)
    (hNot : str = key → ∀ rest, ¬tail <+: after ++ rest) :
    Passes key tail (quoted str ++ after) := by
  intro rest
  obtain ⟨c, after', rfl, hAlpha⟩ := hHead
  rw [append_assoc, strstr_quoted hKey hStr (by simpa using hAlpha),
    if_neg (fun hMatch => hNot hMatch.1 rest hMatch.2), gap hAfter]

/-- A search for a key and a colon stops at a string only where the label of
that key stands, as the closing quote of a value is followed by something else. -/
theorem labelled {value close : CString} (hName : QuoteFree name)
    (hValue : QuoteFree value) (hClose : QuoteFree close)
    (hHead : ∃ c rest, close = c :: rest ∧ c.isAlpha = false ∧ c ≠ ':')
    (hNot : name = key → ∀ rest, ¬tail <+: ' ' :: rest) :
    Passes key (':' :: tail) ((quoted name ++ ": ".toList) ++ (quoted value ++ close)) := by
  obtain ⟨c, close, rfl, hAlpha, hColon⟩ := hHead
  have hLabel : Passes key (':' :: tail) (quoted name ++ ": ".toList) := by
    refine string hKey hName (by decide) ⟨':', [' '], rfl, by decide⟩ fun hEq rest hPrefix => ?_
    exact hNot hEq rest (cons_prefix_cons.mp hPrefix).2
  have hText : Passes key (':' :: tail) (quoted value ++ c :: close) := by
    refine string hKey hValue hClose ⟨c, close, rfl, hAlpha⟩ fun _ rest hPrefix => ?_
    exact hColon (cons_prefix_cons.mp hPrefix).1.symm
  exact hLabel.append hText

theorem fieldLine {name value : CString} (hName : QuoteFree name)
    (hValue : QuoteFree value) (hNot : name = key → ∀ rest, ¬tail <+: ' ' :: rest) :
    Passes key (':' :: tail) (fieldLine name value) := by
  have hClose : QuoteFree ",\n".toList := by decide
  have hLine := labelled hKey hName hValue hClose ⟨',', ['\n'], rfl, by decide, by decide⟩ hNot
  have hIndent : QuoteFree "  ".toList := by decide
  simpa [Pkg.fieldLine] using (gap hIndent).append hLine

theorem optionalLine {name : CString} {value : Option CString}
    (hName : QuoteFree name) (hValue : ∀ str ∈ value, QuoteFree str)
    (hNot : name = key → ∀ rest, ¬tail <+: ' ' :: rest) :
    Passes key (':' :: tail) (optionalLine name value) := by
  cases value with
  | none => exact nil
  | some str => exact fieldLine hKey hName (hValue str rfl) hNot

/-- The head of an object is no match for the key of another, and for no key
when the search wants the brace right after the colon. -/
theorem emptyObject {close : CString} (hName : QuoteFree name)
    (hClose : QuoteFree close) (hNot : name = key → ∀ rest, ¬tail <+: ' ' :: rest) :
    Passes key (':' :: tail) (dependencyObject name [] close) := by
  have hText : Passes key (':' :: tail) (quoted name ++ (": \x7b".toList ++ close)) := by
    refine string hKey hName ?_ ⟨':', _, rfl, by decide⟩ fun hEq rest hPrefix => ?_
    · exact not_mem_append (by decide) hClose
    · exact hNot hEq _ (cons_prefix_cons.mp hPrefix).2
  have hIndent : QuoteFree "  ".toList := by decide
  simpa [dependencyObject] using (gap hIndent).append hText

/-- Written dependencies hide no key that is followed by a colon and a brace. -/
theorem dependencyLines {deps : List ManifestDependency}
    (hDeps : ∀ dep ∈ deps, QuoteFree (printString dep.name) ∧
      QuoteFree (printString dep.versionSpec))
    (hNot : ∀ rest, ¬tail <+: ' ' :: rest) :
    Passes key (':' :: tail) (dependencyLines deps) := by
  have hIndent : QuoteFree "    ".toList := by decide
  have hLine : ∀ dep ∈ deps, ∀ last, Passes key (':' :: tail) (dependencyLine dep last) := by
    intro dep hDep last
    have hText : ∀ close : CString, QuoteFree close →
        (∃ c rest, close = c :: rest ∧ c.isAlpha = false ∧ c ≠ ':') →
          Passes key (':' :: tail) ("    ".toList ++ quoted (printString dep.name) ++ ": ".toList ++
            quoted (printString dep.versionSpec) ++ close) := by
      intro close hClose hHead
      have hAll := (gap hIndent).append (labelled hKey (hDeps dep hDep).1 (hDeps dep hDep).2
        hClose hHead fun _ => hNot)
      simpa using hAll
    cases last with
    | true => exact hText "\n".toList (by decide) ⟨'\n', [], rfl, by decide, by decide⟩
    | false => exact hText ",\n".toList (by decide) ⟨',', ['\n'], rfl, by decide, by decide⟩
  induction deps with
  | nil => exact nil
  | cons dep deps ih =>
    have hHead := hLine dep mem_cons_self
    cases deps with
    | nil => exact hHead true
    | cons next deps =>
      refine (hHead false).append (ih (fun d hd => hDeps d (mem_cons_of_mem _ hd)) ?_)
      exact fun d hd => hLine d (mem_cons_of_mem _ hd)

theorem dependencyObject {name close : CString} {deps : List ManifestDependency}
    (hName : QuoteFree name) (hClose : QuoteFree close)
    (hDeps : ∀ dep ∈ deps, QuoteFree (printString dep.name) ∧
      QuoteFree (printString dep.versionSpec))
    (hNot : ∀ rest, ¬tail <+: ' ' :: rest) :
    Passes key (':' :: tail) (dependencyObject name deps close) := by
  by_cases hNil : deps = []
  · rw [hNil]
    exact emptyObject hKey hName hClose fun _ => hNot
  · have hIndent : QuoteFree "  ".toList := by decide
    have hOpen : Passes key (':' :: tail) (quoted name ++ ": \x7b\n".toList) := by
      refine string hKey hName (by decide) ⟨':', _, rfl, by decide⟩ fun hEq rest hPrefix => ?_
      exact hNot _ (cons_prefix_cons.mp hPrefix).2
    have hAll := (((gap hIndent).append hOpen).append (dependencyLines hKey hDeps hNot)).append
      ((gap hIndent).append (gap hClose))
    simpa [Pkg.dependencyObject, hNil] using hAll

end

end Passes

theorem splitAtChar_append {str rest : CString} {c : Char} (h : c ∉ str) :
    splitAtChar (str ++ c :: rest) c = some (str, rest) := by
  have hKeep : ∀ a ∈ str, (decide (a ≠ c)) = true := fun a ha => by
    simpa using ne_of_mem_of_not_mem ha h
  rw [splitAtChar, dropWhile_append_of_pos hKeep, takeWhile_append_of_pos hKeep]
  simp

theorem jsonGetString_fieldLine (hKey : IsKey key) {value : CString}
    (hBefore : Passes key [':'] before) (hValue : QuoteFree value) (after : CString) :
    jsonGetString (before ++ (fieldLine key value ++ after)) key = some value := by
  let rest := ' ' :: quoted value ++ (",\n".toList ++ after)
  have hIndent : QuoteFree "  ".toList := by decide
  have hLine : fieldLine key value ++ after = "  ".toList ++ (quoted key ++ ':' :: rest) := by
    simp [fieldLine, rest]
  have hStart : strstr (before ++ (fieldLine key value ++ after)) (quoted key ++ [':']) =
      some (quoted key ++ [':'] ++ rest) := by
    rw [hBefore, hLine, Passes.gap hIndent, strstr_quoted hKey hKey.quoteFree (by simp),
      if_pos ⟨rfl, by simp⟩]
    simp
  have hOpening : splitAtChar rest '\x22' =
      some ([' '], value ++ '\x22' :: (",\n".toList ++ after)) := by
    have hRest : rest = [' '] ++ '\x22' :: (value ++ '\x22' :: (",\n".toList ++ after)) := by
      simp [rest, quoted]
    rw [hRest]
    exact splitAtChar_append (by decide)
  have hDrop : (quoted key ++ [':'] ++ rest).drop (quoted key ++ [':']).length = rest :=
    drop_left
  have hSearch : quoted key ++ ":".toList = quoted key ++ [':'] := rfl
  simp only [jsonGetString, hSearch, hStart, bind_some, hDrop, hOpening,
    splitAtChar_append hValue, map_some]

private theorem strstr_eq_none (h : Passes key tail json) :
    strstr json (quoted key ++ tail) = none := by
  have hNone := h []
  rwa [append_nil] at hNone

theorem jsonGetString_eq_none (h : Passes key [':'] json) : jsonGetString json key = none := by
  have hSearch : strstr json (quoted key ++ ":".toList) = none := strstr_eq_none h
  simp only [jsonGetString, hSearch, bind_none]

theorem jsonParseDeps_eq_nil (h : Passes key [':', '\x7b'] json) : jsonParseDeps json key = [] := by
  have hSearch : strstr json (quoted key ++ ":\x7b".toList) = none := strstr_eq_none h
  simp only [jsonParseDeps, jsonObject, hSearch, bind_none]

theorem jsonGetString_optionalLine (hKey : IsKey key) {after : CString} {value : Option CString}
    (hBefore : Passes key [':'] before) (hAfter : Passes key [':'] after)
    (hValue : ∀ str ∈ value, QuoteFree str) :
    jsonGetString (before ++ (optionalLine key value ++ after)) key = value := by
  cases value with
  | none => exact jsonGetString_eq_none (hBefore.append hAfter)
  | some str => exact jsonGetString_fieldLine hKey hBefore (hValue str rfl) after

private theorem passes_lines (hKey : IsKey key) {lines : List (CString × Option CString)}
    (hNames : ∀ line ∈ lines, QuoteFree line.1 ∧ ∀ str ∈ line.2, QuoteFree str)
    (hNot : ∀ line ∈ lines, line.1 = key → ∀ rest, ¬tail <+: ' ' :: rest) :
    Passes key (':' :: tail) (lines.flatMap fun line => optionalLine line.1 line.2) := by
  induction lines with
  | nil => exact Passes.nil
  | cons line lines ih =>
    obtain ⟨hName, hValue⟩ := hNames line mem_cons_self
    rw [flatMap_cons]
    refine Passes.append ?_ (ih (fun l hl => hNames l (mem_cons_of_mem _ hl))
      fun l hl => hNot l (mem_cons_of_mem _ hl))
    exact .optionalLine hKey hName hValue (hNot line mem_cons_self)

theorem jsonGetString_lines (hKey : IsKey key) {lines : List (CString × Option CString)}
    (hNames : ∀ line ∈ lines, QuoteFree line.1 ∧ ∀ str ∈ line.2, QuoteFree str)
    (hNodup : (lines.map (·.1)).Nodup) {after : CString} (hBefore : Passes key [':'] before)
    (hAfter : Passes key [':'] after) :
    jsonGetString (before ++ ((lines.flatMap fun line =>
      optionalLine line.1 line.2) ++ after)) key =
      (lines.find? (·.1 = key)).bind (·.2) := by
  induction lines generalizing before with
  | nil => exact jsonGetString_eq_none (hBefore.append hAfter)
  | cons line lines ih =>
    obtain ⟨hName, hValue⟩ := hNames line mem_cons_self
    have hRest : ∀ l ∈ lines, QuoteFree l.1 ∧ ∀ str ∈ l.2, QuoteFree str := fun l hl =>
      hNames l (mem_cons_of_mem _ hl)
    obtain ⟨hFresh, hNodup⟩ := nodup_cons.mp hNodup
    rw [flatMap_cons, append_assoc]
    by_cases hLine : line.1 = key
    · subst hLine
      have hOthers : ∀ l ∈ lines, l.1 = line.1 → ∀ rest, ¬[] <+: ' ' :: rest :=
        fun l hl hEq =>
        absurd (mem_map.mpr ⟨l, hl, hEq⟩) hFresh
      rw [jsonGetString_optionalLine hKey hBefore
        ((passes_lines hKey hRest hOthers).append hAfter) hValue, find?_cons_of_pos (by simp)]
      rfl
    · have hPasses : Passes key [':'] (optionalLine line.1 line.2) :=
        .optionalLine hKey hName hValue fun hEq => absurd hEq hLine
      rw [← append_assoc, ih hRest hNodup (hBefore.append hPasses),
        find?_cons_of_neg (by simpa using hLine)]

end

/-- No string of the manifest contains a quote. -/
structure PackageManifest.Clean (m : PackageManifest) : Prop where
  name : ∀ str ∈ m.name, QuoteFree str
  version : ∀ str ∈ m.version, QuoteFree str
  description : ∀ str ∈ m.description, QuoteFree str
  author : ∀ str ∈ m.author, QuoteFree str
  license : ∀ str ∈ m.license, QuoteFree str
  main : ∀ str ∈ m.main, QuoteFree str
  repository : ∀ str ∈ m.repository, QuoteFree str
  dependencies : ∀ dep ∈ m.dependencies ++ m.devDependencies,
    (∀ str ∈ dep.name, QuoteFree str) ∧ ∀ str ∈ dep.versionSpec, QuoteFree str

/-- What is read back is the manifest that was written. -/
def Survives (m : PackageManifest) : Prop := manifestParseString (manifestWriteFile m) = m

/-- The string fields of a written manifest, in order. -/
def writtenLines (m : PackageManifest) : List (CString × Option CString) :=
  [("name".toList, some (m.name.getD "my-package".toList)),
    ("version".toList, some (m.version.getD "1.0.0".toList)),
    ("description".toList, m.description), ("author".toList, m.author),
    ("license".toList, m.license), ("main".toList, m.main)]

/-- The objects that end a written manifest. -/
def writtenObjects (m : PackageManifest) : CString :=
  dependencyObject "dependencies".toList m.dependencies "\x7d,\n".toList ++
    dependencyObject "devDependencies".toList m.devDependencies "\x7d\n".toList ++ "\x7d\n".toList

private theorem append_regroup (start a b c d e f x y finish : CString) :
    start ++ a ++ b ++ c ++ d ++ e ++ f ++ x ++ y ++ finish =
      start ++ ((a ++ (b ++ (c ++ (d ++ (e ++ (f ++ [])))))) ++ (x ++ y ++ finish)) := by
  simp only [append_assoc, append_nil]

theorem manifestWriteFile_eq (m : PackageManifest) :
    manifestWriteFile m = "\x7b\n".toList ++
      (((writtenLines m).flatMap fun line => optionalLine line.1 line.2) ++ writtenObjects m) :=
  append_regroup _ _ _ _ _ _ _ _ _ _

/-- The keys of the string fields that are written. -/
def writtenKeys : List CString :=
  ["name".toList, "version".toList, "description".toList, "author".toList, "license".toList,
    "main".toList]

theorem map_writtenLines (m : PackageManifest) : (writtenLines m).map (·.1) = writtenKeys := rfl

theorem writtenLines_clean (h : m.Clean) :
    ∀ line ∈ writtenLines m, QuoteFree line.1 ∧ ∀ str ∈ line.2, QuoteFree str := by
  have hDefault : ∀ {value : Option CString}
    {fallback : CString}, (∀ str ∈ value, QuoteFree str) →
      QuoteFree fallback → ∀ str ∈ some (value.getD fallback), QuoteFree str := by
    rintro (_ | value) fallback hValue hFallback str ⟨⟩
    · exact hFallback
    · exact hValue value rfl
  have hKeys : ∀ key ∈ writtenKeys, QuoteFree key := by decide
  intro line hLine
  refine ⟨hKeys line.1 (map_writtenLines m ▸ mem_map_of_mem hLine), ?_⟩
  simp only [writtenLines, mem_cons, not_mem_nil, or_false] at hLine
  rcases hLine with rfl | rfl | rfl | rfl | rfl | rfl
  · exact hDefault h.name (by decide)
  · exact hDefault h.version (by decide)
  · exact h.description
  · exact h.author
  · exact h.license
  · exact h.main

theorem jsonParseDeps_manifestWriteFile (h : m.Clean) {key : CString} (hKey : IsKey key) :
    jsonParseDeps (manifestWriteFile m) key = [] := by
  have hNot : ∀ rest, ¬['\x7b'] <+: ' ' :: rest := fun rest hPrefix => by
    simp at hPrefix
  have hPrinted : ∀ dep ∈ m.dependencies ++ m.devDependencies,
      QuoteFree (printString dep.name) ∧ QuoteFree (printString dep.versionSpec) := by
    intro dep hDep
    obtain ⟨hName, hSpec⟩ := h.dependencies dep hDep
    have hOf : ∀ str : Option CString, (∀ s ∈ str, QuoteFree s) →
        QuoteFree (printString str) := by
      rintro (_ | str) hStr
      · decide
      · exact hStr str rfl
    exact ⟨hOf _ hName, hOf _ hSpec⟩
  have hLines : Passes key [':', '\x7b']
      ((writtenLines m).flatMap fun line => optionalLine line.1 line.2) :=
    passes_lines hKey (writtenLines_clean h) fun _ _ _ => hNot
  have hDeps : Passes key [':', '\x7b']
      (dependencyObject "dependencies".toList m.dependencies "\x7d,\n".toList) :=
    .dependencyObject hKey (by decide) (by decide)
      (fun dep hDep => hPrinted dep (mem_append_left _ hDep)) hNot
  have hDev : Passes key [':', '\x7b']
      (dependencyObject "devDependencies".toList m.devDependencies "\x7d\n".toList) :=
    .dependencyObject hKey (by decide) (by decide)
      (fun dep hDep => hPrinted dep (mem_append_right _ hDep)) hNot
  refine jsonParseDeps_eq_nil ?_
  rw [manifestWriteFile_eq]
  exact (Passes.gap (by decide)).append (hLines.append ((hDeps.append hDev).append
    (Passes.gap (by decide))))

private theorem passes_writtenObjects (hDeps : m.dependencies = []) (hDev : m.devDependencies = [])
    {key : CString} (hKey : IsKey key)
    (hOther : key ≠ "dependencies".toList ∧ key ≠ "devDependencies".toList) :
    Passes key [':'] (writtenObjects m) := by
  rw [writtenObjects, hDeps, hDev]
  refine ((Passes.emptyObject hKey (by decide) (by decide) fun hEq =>
    absurd hEq.symm hOther.1).append
    (Passes.emptyObject hKey (by decide) (by decide) fun hEq => absurd hEq.symm hOther.2)).append ?_
  exact Passes.gap (by decide)

section

variable (h : m.Clean) (hDeps : m.dependencies = []) (hDev : m.devDependencies = [])
include h hDeps hDev

theorem jsonGetString_manifestWriteFile {key : CString} (hKey : IsKey key)
    (hOther : key ≠ "dependencies".toList ∧ key ≠ "devDependencies".toList) :
    jsonGetString (manifestWriteFile m) key =
      ((writtenLines m).find? (·.1 = key)).bind (·.2) := by
  have hNodup : ((writtenLines m).map (·.1)).Nodup := by
    rw [map_writtenLines]
    decide
  rw [manifestWriteFile_eq]
  exact jsonGetString_lines hKey (writtenLines_clean h) hNodup (Passes.gap (by decide))
    (passes_writtenObjects hDeps hDev hKey hOther)

/-- Writing and reading a manifest without dependencies fills in the name and
the version and drops the repository. -/
theorem manifestParseString_manifestWriteFile :
    manifestParseString (manifestWriteFile m) =
      { m with name := some (m.name.getD "my-package".toList)
               version := some (m.version.getD "1.0.0".toList)
               repository := none } := by
  have hRead : ∀ key, IsKey key → key ≠ "dependencies".toList ∧
    key ≠ "devDependencies".toList →
      jsonGetString (manifestWriteFile m) key = ((writtenLines m).find? (·.1 = key)).bind (·.2) :=
    fun key hKey hOther => jsonGetString_manifestWriteFile h hDeps hDev hKey hOther
  have hName := hRead "name".toList ⟨by decide, 'n', _, rfl, by decide⟩ (by decide)
  have hVersion := hRead "version".toList ⟨by decide, 'v', _, rfl, by decide⟩ (by decide)
  have hDescription := hRead "description".toList
    ⟨by decide, 'd', _, rfl, by decide⟩ (by decide)
  have hAuthor := hRead "author".toList ⟨by decide, 'a', _, rfl, by decide⟩ (by decide)
  have hLicense := hRead "license".toList ⟨by decide, 'l', _, rfl, by decide⟩ (by decide)
  have hMain := hRead "main".toList ⟨by decide, 'm', _, rfl, by decide⟩ (by decide)
  have hRepository := hRead "repository".toList ⟨by decide, 'r', _, rfl, by decide⟩ (by decide)
  have hNone : jsonParseDeps (manifestWriteFile m) "dependencies".toList = [] :=
    jsonParseDeps_manifestWriteFile h ⟨by decide, 'd', _, rfl, by decide⟩
  have hNoDev : jsonParseDeps (manifestWriteFile m) "devDependencies".toList = [] :=
    jsonParseDeps_manifestWriteFile h ⟨by decide, 'd', _, rfl, by decide⟩
  rw [manifestParseString, hName, hVersion, hDescription, hAuthor, hLicense, hMain, hRepository,
    hNone, hNoDev, hDeps, hDev]
  rfl

end

/-- A manifest survives exactly when it is named and versioned and has neither
a repository nor dependencies. -/
theorem manifest_survives_iff (m : PackageManifest) (h : m.Clean) :
    Survives m ↔ (m.name ≠ none ∧ m.version ≠ none) ∧ m.repository = none ∧
      m.dependencies = [] ∧ m.devDependencies = [] := by
  constructor
  · intro hSurvives
    have hDeps : m.dependencies = [] := by
      rw [← hSurvives]
      exact jsonParseDeps_manifestWriteFile h ⟨by decide, 'd', _, rfl, by decide⟩
    have hDev : m.devDependencies = [] := by
      rw [← hSurvives]
      exact jsonParseDeps_manifestWriteFile h ⟨by decide, 'd', _, rfl, by decide⟩
    rw [Survives, manifestParseString_manifestWriteFile h hDeps hDev] at hSurvives
    rw [← hSurvives]
    exact ⟨⟨some_ne_none _, some_ne_none _⟩, rfl, hDeps, hDev⟩
  · rintro ⟨⟨hName, hVersion⟩, hRepository, hDeps, hDev⟩
    rw [Survives, manifestParseString_manifestWriteFile h hDeps hDev]
    obtain ⟨name, hName⟩ := Option.ne_none_iff_exists'.mp hName
    obtain ⟨version, hVersion⟩ := Option.ne_none_iff_exists'.mp hVersion
    cases m
    simp only at hName hVersion hRepository
    rw [hName, hVersion, hRepository]
    rfl

theorem clean_manifestCreateDefault {name : Option CString} (h : ∀ str ∈ name, QuoteFree str) :
    (manifestCreateDefault name).Clean where
  name := by
    rintro str ⟨⟩
    cases name with
    | none => decide
    | some str => exact h str rfl
  version := by
    rintro str ⟨⟩
    decide
  description := by
    rintro str ⟨⟩
    decide
  author := nofun
  license := by
    rintro str ⟨⟩
    decide
  main := by
    rintro str ⟨⟩
    decide
  repository := nofun
  dependencies := by simp [manifestCreateDefault]

theorem survives_manifestCreateDefault : Survives (manifestCreateDefault (some "demo".toList)) := by
  have hName : ∀ str ∈ some "demo".toList, QuoteFree str := by
    rintro str ⟨⟩
    decide
  refine (manifest_survives_iff _ (clean_manifestCreateDefault hName)).mpr ?_
  exact ⟨⟨some_ne_none _, some_ne_none _⟩, rfl, rfl, rfl⟩

theorem PackageManifest.Clean.addDependency (h : m.Clean) {versionSpec : CString}
    (hName : QuoteFree name) (hSpec : QuoteFree versionSpec) (isDev : Bool) :
    (manifestAddDependency m name versionSpec isDev).Clean := by
  have hNew : (∀ str ∈ some name, QuoteFree str) ∧
      ∀ str ∈ some versionSpec, QuoteFree str := by
    simp [hName, hSpec]
  cases isDev with
  | false =>
    refine { h with dependencies := fun dep hDep => ?_ }
    simp only [manifestAddDependency, Bool.false_eq_true, if_false, mem_append,
      mem_singleton] at hDep
    rcases hDep with (hOld | rfl) | hDev
    · exact h.dependencies dep (mem_append_left _ hOld)
    · exact hNew
    · exact h.dependencies dep (mem_append_right _ hDev)
  | true =>
    refine { h with dependencies := fun dep hDep => ?_ }
    simp only [manifestAddDependency, if_true, mem_append, mem_singleton] at hDep
    rcases hDep with hOld | hDev | rfl
    · exact h.dependencies dep (mem_append_left _ hOld)
    · exact h.dependencies dep (mem_append_right _ hDev)
    · exact hNew

/-- An added dependency is lost, whatever else the manifest holds. -/
theorem not_survives_manifestAddDependency (h : m.Clean) {versionSpec : CString}
    (hName : QuoteFree name) (hSpec : QuoteFree versionSpec) (isDev : Bool) :
    ¬Survives (manifestAddDependency m name versionSpec isDev) := by
  intro hSurvives
  have hClean := h.addDependency hName hSpec isDev
  cases isDev with
  | false =>
    have hNone : (manifestAddDependency m name versionSpec false).dependencies = [] := by
      rw [← hSurvives]
      exact jsonParseDeps_manifestWriteFile hClean ⟨by decide, 'd', _, rfl, by decide⟩
    simp [manifestAddDependency] at hNone
  | true =>
    have hNone : (manifestAddDependency m name versionSpec true).devDependencies = [] := by
      rw [← hSurvives]
      exact jsonParseDeps_manifestWriteFile hClean ⟨by decide, 'd', _, rfl, by decide⟩
    simp [manifestAddDependency] at hNone

/-- The default manifest with one dependency does not survive. -/
theorem manifest_loses_dependency :
    let m := manifestAddDependency (manifestCreateDefault (some "demo".toList)) "left-pad".toList
      "^1.0.0".toList false
    m.Clean ∧ ¬Survives m := by
  have hName : ∀ str ∈ some "demo".toList, QuoteFree str := by
    rintro str ⟨⟩
    decide
  have hDefault := clean_manifestCreateDefault hName
  exact ⟨hDefault.addDependency (by decide) (by decide) false,
    not_survives_manifestAddDependency hDefault (by decide) (by decide) false⟩

end Casprix.Pkg
