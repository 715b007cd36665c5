/-
Settings: a tree of maps whose leaves are texts. A key that a map does not
have is looked up in the maps around it, so a setting at the root holds for
every section that does not set it itself. The walk outward ends at a map
that is itself named by the key, so that no map is found from inside.
-/
import GatePlan.Action
import GatePlan.Numeral

namespace GatePlan

/-! ## Documents and settings -/

/-- A key of a document when it is asked for as a text: the text, or what the
parser says against a key that is none, such as a map. -/
inductive Document.Key where
  | text (value : String)
  | unreadable (complaint : String)
  deriving DecidableEq, Repr, Inhabited

/-- A document as it is parsed, before it is checked. What a sequence holds does
not matter, because no setting is a sequence. -/
inductive Document where
  | blank
  | text (value : String)
  | sequence
  | map (fields : List (Document.Key × Document))
  deriving Repr, Inhabited

/-- A setting: a text, or a map without repeated keys. -/
inductive Setting where
  | text (value : String)
  | map (fields : List (String × Setting))
  deriving Repr, Inhabited

/-- The path of a field of a map. -/
def fieldPath (path key : String) : String := path ++ "/" ++ key

namespace Document

mutual

/-- The setting that a document below the root stands for. -/
def toSetting (path : String) : Document → Except Fault Setting
  | .blank => .error (.settingEmpty path)
  | .text value => .ok (.text value)
  | .sequence => .error (.settingSequence path)
  | .map fields => (toFields path [] fields).map .map

/-- The fields of a map, after those with the keys in `seen`. The value of a
repeated key is checked before the repetition is reported. -/
def toFields (path : String) (seen : List String) :
    List (Key × Document) → Except Fault (List (String × Setting))
  | [] => .ok []
  | (.unreadable complaint, _) :: _ => .error (.keyUnreadable complaint)
  | (.text key, value) :: rest =>
    match toSetting (fieldPath path key) value with
    | .error fault => .error fault
    | .ok setting =>
      if seen.contains key then .error (.settingRepeated path key)
      else (toFields path (key :: seen) rest).map ((key, setting) :: ·)

end

/-- The settings of a whole document. An empty document is an empty map. -/
def load : Document → Except Fault Setting
  | .blank => .ok (.map [])
  | document => toSetting "" document

end Document

/-- Loads a document in place of the settings there are, which stay when the
document is refused. -/
def Setting.load (document : Document) : Action Setting Unit := do
  let setting ← Action.ofExcept document.load
  set setting

/-! ## Cursors -/

/-- A map on the way from a setting out to the root: the key it is found at
and its fields. -/
structure Scope where
  name : String
  fields : List (String × Setting)
  deriving Repr, Inhabited

/-- A setting, the key it is found at, and the maps around it, the innermost
first. The root has no name and no map around it. -/
structure Cursor where
  value : Setting
  name : String
  around : List Scope
  deriving Repr, Inhabited

namespace Cursor

def root (value : Setting) : Cursor := ⟨value, "", []⟩

/-- The root of empty settings. -/
def emptyRoot : Cursor := root (.map [])

/-- The keys that lead to a setting inside the given maps. -/
def pathIn (name : String) : List Scope → String
  | [] => name
  | s :: outer => fieldPath (pathIn s.name outer) name

def path (c : Cursor) : String := pathIn c.name c.around

def isMap (c : Cursor) : Bool :=
  match c.value with
  | .text _ => false
  | .map _ => true

/-- Looks a key up in a map, then in the maps around it, up to one that is
named by the key. -/
def find (key : String) : List Scope → Option Cursor
  | [] => none
  | s :: outer =>
    match s.fields.lookup key with
    | some value => some ⟨value, key, s :: outer⟩
    | none => if s.name = key then none else find key outer

/-- The setting of a key in this map or in one around it. -/
def get (c : Cursor) (key : String) : Except Fault (Option Cursor) :=
  match c.value with
  | .text _ => .error (.settingNotMap c.path)
  | .map fields => .ok (find key (⟨c.name, fields⟩ :: c.around))

/-- The setting of a key that has to be there. -/
def field (c : Cursor) (key : String) : Except Fault Cursor := do
  match ← c.get key with
  | some found => return found
  | none => throw (.settingAbsent c.path key)

/-- Follows a list of keys. -/
def follow (c : Cursor) (keys : List String) : Except Fault Cursor := keys.foldlM field c

/-! ## Values -/

def asString (c : Cursor) : Except Fault String :=
  match c.value with
  | .text value => .ok value
  | .map _ => .error (.settingIsMap c.path)

def asInt (c : Cursor) : Except Fault Int := do
  let value ← c.asString
  match Numeral.signed? value with
  | none => throw (.settingNotInteger c.path value)
  | some (number, []) => return number
  | some (_, _ :: _) => throw (.settingTrailing c.path value)

def asBool (c : Cursor) : Except Fault Bool := do
  let value ← c.asString
  if ["true", "yes", "on", "1"].contains value then
    return true
  if ["false", "no", "off", "0"].contains value then
    return false
  throw (.settingNotBoolean c.path value)

/-- The value of a key as `read` takes it, or a default when it is not set. -/
def getD {α : Type} (read : Cursor → Except Fault α) (c : Cursor) (key : String) (default : α) :
    Except Fault α := do
  match ← c.get key with
  | some found => read found
  | none => return default

def getInt : Cursor → String → Int → Except Fault Int := getD asInt

def getBool : Cursor → String → Bool → Except Fault Bool := getD asBool

def getString : Cursor → String → String → Except Fault String := getD asString

/-- The section of the given name, or the settings themselves without it. -/
def sectionOrSelf (c : Cursor) (name : String) : Except Fault Cursor := do
  return (← c.get name).getD c

end Cursor

end GatePlan
