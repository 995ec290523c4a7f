import Casprix.Library.Substring
import Casprix.Pkg.Registry

/-! The package manifest: a reader that searches the text for its keys, and the
writer of the same file. -/
namespace Casprix.Pkg

open Library

/-- The text from the first occurrence of `needle` on. -/
def strstr (haystack needle : CString) : Option CString := findSuffix needle haystack

/-- The text before the first `c` and the text after it. -/
def splitAtChar (str : CString) (c : Char) : Option (CString × CString) :=
  match str.dropWhile (· ≠ c) with
  | [] => none
  | _ :: rest => some (str.takeWhile (· ≠ c), rest)

/-- A string in double quotes. -/
def quoted (str : CString) : CString := '\x22' :: str ++ ['\x22']

structure ManifestDependency where
  name : Option CString := none
  versionSpec : Option CString := none
  deriving DecidableEq, Repr

structure PackageManifest where
  name : Option CString := none
  version : Option CString := none
  description : Option CString := none
  author : Option CString := none
  license : Option CString := none
  main : Option CString := none
  repository : Option CString := none
  dependencies : List ManifestDependency := []
  devDependencies : List ManifestDependency := []
  deriving DecidableEq, Repr

def jsonGetString (json key : CString) : Option CString :=
  let search := quoted key ++ ":".toList
  (strstr json search).bind fun start =>
    (splitAtChar (start.drop search.length) '\x22').bind fun opening =>
      (splitAtChar opening.2 '\x22').map (·.1)

/-- The text of the object under a key, and what follows its closing brace. -/
def jsonObject (json key : CString) : Option (CString × CString) :=
  let search := quoted key ++ ":\x7b".toList
  (strstr json search).bind fun start => splitAtChar (start.drop search.length) '\x7d'

def jsonCountDeps (json key : CString) : Nat :=
  match jsonObject json key with
  | none => 0
  | some (body, _) =>
    let count := body.count ','
    if 0 < count then count + 1 else if body = [] then 0 else 1

/-- A string at the front, if a quote stands there: `none` when it is not
closed, and otherwise the string read and the text after it. -/
def jsonString (p : CString) : Option (Option CString × CString) :=
  match p with
  | '\x22' :: rest => (splitAtChar rest '\x22').map fun (str, rest) => (some str, rest)
  | _ => some (none, p)

/-- The entries read into the `slots` that are left, from the text `p` on.
The end of the object is given by the length of the text that starts there. -/
def jsonParseEntries (endLength : Nat) : Nat → CString → List ManifestDependency
  | 0, _ => []
  | slots + 1, p =>
    let unread := List.replicate slots ({} : ManifestDependency)
    if p.length ≤ endLength then {} :: unread
    else
      let p := p.dropWhile isSpace
      if p.head? = some '\x7d' then {} :: unread
      else
        match jsonString p with
        | none => {} :: unread
        | some (name, p) =>
          match splitAtChar p ':' with
          | none => { name := name } :: unread
          | some (_, p) =>
            match jsonString (p.dropWhile isSpace) with
            | none => { name := name } :: unread
            | some (versionSpec, p) =>
              { name := name, versionSpec := versionSpec } ::
                match splitAtChar p ',' with
                | none => unread
                | some (_, p) => jsonParseEntries endLength slots p

def jsonParseDeps (json key : CString) : List ManifestDependency :=
  match jsonObject json key with
  | none => []
  | some (body, rest) =>
    jsonParseEntries (rest.length + 1) (jsonCountDeps json key) (body ++ '\x7d' :: rest)

def manifestParseString (json : CString) : PackageManifest where
  name := jsonGetString json "name".toList
  version := jsonGetString json "version".toList
  description := jsonGetString json "description".toList
  author := jsonGetString json "author".toList
  license := jsonGetString json "license".toList
  main := jsonGetString json "main".toList
  repository := jsonGetString json "repository".toList
  dependencies := jsonParseDeps json "dependencies".toList
  devDependencies := jsonParseDeps json "devDependencies".toList

/-- One line for a string field. -/
def fieldLine (key value : CString) : CString :=
  "  ".toList ++ quoted key ++ ": ".toList ++ quoted value ++ ",\n".toList

/-- A field that is left out when it is null. -/
def optionalLine (key : CString) (value : Option CString) : CString :=
  (value.map (fieldLine key)).getD []

/-- What `%s` prints for a string that may be null. -/
def printString (str : Option CString) : CString := str.getD "(null)".toList

def dependencyLine (dep : ManifestDependency) (last : Bool) : CString :=
  "    ".toList ++ quoted (printString dep.name) ++ ": ".toList ++
    quoted (printString dep.versionSpec) ++ (if last then "\n".toList else ",\n".toList)

def dependencyLines : List ManifestDependency → CString
  | [] => []
  | [dep] => dependencyLine dep true
  | dep :: deps => dependencyLine dep false ++ dependencyLines deps

/-- The object under a key, with the text that follows its closing brace. -/
def dependencyObject (key : CString) (deps : List ManifestDependency) (close : CString) : CString :=
  "  ".toList ++ quoted key ++ ": \x7b".toList ++
    if deps = [] then close else "\n".toList ++ dependencyLines deps ++ "  ".toList ++ close

/-- The text that `manifest_write_file` leaves in the file. -/
def manifestWriteFile (manifest : PackageManifest) : CString :=
  "\x7b\n".toList ++
    fieldLine "name".toList (manifest.name.getD "my-package".toList) ++
    fieldLine "version".toList (manifest.version.getD "1.0.0".toList) ++
    optionalLine "description".toList manifest.description ++
    optionalLine "author".toList manifest.author ++
    optionalLine "license".toList manifest.license ++
    optionalLine "main".toList manifest.main ++
    dependencyObject "dependencies".toList manifest.dependencies "\x7d,\n".toList ++
    dependencyObject "devDependencies".toList manifest.devDependencies "\x7d\n".toList ++
    "\x7d\n".toList

def manifestCreateDefault (name : Option CString) : PackageManifest where
  name := name.getD "my-package".toList
  version := some "1.0.0".toList
  description := some "A Casprix package".toList
  license := some "MIT".toList
  main := some "src/main.cpx".toList

def manifestAddDependency (manifest : PackageManifest) (name versionSpec : CString) (isDev : Bool) :
    PackageManifest :=
  let dep : ManifestDependency := { name := some name, versionSpec := some versionSpec }
  if isDev then { manifest with devDependencies := manifest.devDependencies ++ [dep] }
  else { manifest with dependencies := manifest.dependencies ++ [dep] }

end Casprix.Pkg
