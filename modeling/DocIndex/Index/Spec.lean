import DocIndex.Document.Path
import DocIndex.Index.Definition

/-! # Requested indexes

A request names an index, its kind, fields and settings. `IndexSpec.validate` checks the request by
itself; `Definition.matches` tells whether an index that exists already is the requested one.
-/

namespace DocIndex

structure IndexSpec where
  name : String
  kind : IndexKind := .value
  fields : List IndexField
  settings : Settings := []
  deriving DecidableEq, Repr

def isNameStart (c : Char) : Bool := c.isAlpha || c == '_'

def isNameChar (c : Char) : Bool := c.isAlphanum || c == '_'

/-- Index names are made of letters, digits and underscores of ASCII and do not start with a digit. -/
def isIndexName (name : String) : Bool :=
  match name.toList with
  | [] => false
  | c :: rest => isNameStart c && rest.all isNameChar

def checkIndexName (name : String) : Except QueryError Unit :=
  if isIndexName name then .ok () else .error (.invalidIndexName name)

/-- The pieces of a text between single spaces. -/
def splitSpaces : List Char → List (List Char)
  | [] => [[]]
  | c :: rest =>
    if c = ' ' then [] :: splitSpaces rest
    else match splitSpaces rest with
      | [] => [[c]]
      | piece :: pieces => (c :: piece) :: pieces

/-- Tokenizer settings are words of name characters with single spaces between them. -/
def isTokenizerSetting (setting : String) : Bool :=
  (splitSpaces setting.toList).all fun word => !word.isEmpty && word.all isNameChar

namespace IndexSpec

def ofPaths (name : String) (paths : List String) : IndexSpec :=
  { name, fields := paths.map fun p => { path := p } }

def withType (s : IndexSpec) (path : String) (type : FieldType) : IndexSpec :=
  let rec declare : List IndexField → List IndexField
    | [] => []
    | f :: rest => if f.path == path then { f with type? := some type } :: rest else f :: declare rest
  { s with fields := declare s.fields }

def withSetting (s : IndexSpec) (key value : String) : IndexSpec :=
  { s with settings := s.settings.insert key value }

/-- A text index that names no tokenizer takes the given one. -/
def withDefaultTokenizer (s : IndexSpec) (tokenizer : String) : IndexSpec :=
  if s.kind = .text ∧ (s.settings.get? tokenizeKey).isNone then s.withSetting tokenizeKey tokenizer else s

def checkFields (seen : List String) : List IndexField → Except SettingsFault Unit
  | [] => .ok ()
  | f :: rest =>
    if !Path.isValid f.path then .error (.badPath f.path)
    else if seen.contains f.path then .error (.repeatedField f.path)
    else checkFields (f.path :: seen) rest

def checkTextSettings : Settings → Except SettingsFault Unit
  | [] => .ok ()
  | (key, value) :: rest =>
    if key ≠ tokenizeKey then .error (.textSetting key)
    else if !isTokenizerSetting value then .error (.badTokenizer value)
    else checkTextSettings rest

def checkSettings (s : IndexSpec) : Except SettingsFault Unit :=
  match s.kind with
  | .value =>
    match s.settings with
    | [] => .ok ()
    | (key, _) :: _ => .error (.valueSetting key)
  | .text => do
    checkTextSettings s.settings
    match s.fields.find? (·.isBuiltin) with
    | some f => .error (.builtinInText f.path)
    | none => .ok ()

def checkContents (s : IndexSpec) : Except SettingsFault Unit :=
  if s.fields.isEmpty then .error (.noFields s.name)
  else do
    checkFields [] s.fields
    s.checkSettings

/-- Check name, fields and settings of a request, in this order. -/
def validate (s : IndexSpec) : Except QueryError Unit := do
  checkIndexName s.name
  s.checkContents.mapError .invalidIndexSettings

end IndexSpec

/-- Whether the index has the requested kind, settings and fields in the requested order. Types that
were only observed do not count, a declared type has to be the recorded one. -/
def Definition.matches (d : Definition) (s : IndexSpec) : Bool :=
  d.kind == s.kind && d.settings == s.settings && d.fields.length == s.fields.length &&
    (d.fields.zip s.fields).all fun (stored, requested) =>
      stored.path == requested.path && (requested.type?.isNone || requested.type? == stored.type?)

end DocIndex
