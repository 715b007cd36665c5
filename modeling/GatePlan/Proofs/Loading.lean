/-
Loading settings. A document is taken whole or not at all. What is wrong with it is
listed by `Document.faults`, in document order and to its end, though loading stops at
the first of them (`toSetting_cases`); every fault lies at one node, which is empty, a
sequence, or a map with a repeated key or with a key that is no text
(`mem_faultsIn_iff`). So what loads is exactly the documents in which there is no such
node. What lies under a key that is no text has no path, and is never looked at.

What is loaded is the document itself, and a cursor that follows the keys of a node
from the root comes to that node (`Cursor.follow_of_at`). It never looks a key up in
the maps around the one it is at, because the next key is always there.
-/
import Mathlib.Data.List.Duplicate
import GatePlan.Settings

namespace GatePlan

/-- The path of a node, from the keys that lead to it. -/
def pathOf (keys : List String) : String := keys.foldl fieldPath ""

/-! ## Nodes of a document -/

namespace Document

@[elab_as_elim]
theorem induction {motive : Document → Prop} (blank : motive .blank) (text : ∀ value, motive (.text value))
    (sequence : motive .sequence) (map : ∀ fields, (∀ field ∈ fields, motive field.2) → motive (.map fields)) :
    ∀ document, motive document
  | .blank => blank
  | .text value => text value
  | .sequence => sequence
  | .map fields => map fields fun field hfield =>
    have : sizeOf field.2 < 1 + sizeOf fields := by
      have hlt := List.sizeOf_lt_of_mem hfield
      have hpair : sizeOf field = 1 + sizeOf field.1 + sizeOf field.2 := rfl
      omega
    induction blank text sequence map field.2
termination_by document => sizeOf document

/-- The nodes of a document and the keys that lead to them. A key that a map has twice
leads to two nodes. -/
inductive At : Document → List String → Document → Prop
  | here (document : Document) : At document [] document
  | field {fields : List (Key × Document)} {key : String} {value node : Document} {keys : List String}
      (hfield : (.text key, value) ∈ fields) (hrest : At value keys node) : At (.map fields) (key :: keys) node

theorem At.eq_of_nil {document node : Document} (h : document.At [] node) : node = document := by
  cases h
  rfl

theorem At.exists_field {fields : List (Key × Document)} {key : String} {keys : List String} {node : Document}
    (h : (map fields).At (key :: keys) node) : ∃ value, (.text key, value) ∈ fields ∧ value.At keys node := by
  cases h with
  | field hfield hrest => exact ⟨_, hfield, hrest⟩

theorem At.concat {document value : Document} {keys : List String} {fields : List (Key × Document)} {key : String}
    (h : document.At keys (.map fields)) (hfield : (.text key, value) ∈ fields) : document.At (keys ++ [key]) value := by
  generalize hnode : map fields = node at h
  induction h with
  | here document =>
    subst hnode
    exact .field hfield (.here _)
  | field hfirst _ ih => exact .field hfirst (ih hnode)

/-- An empty document stands for an empty map, but only as a whole. -/
def rooted : Document → Document
  | .blank => .map []
  | document => document

/-- A document without sequences, empty nodes and repeated keys, except that it may be
empty as a whole, and with texts for all its keys. -/
structure WellFormed (document : Document) : Prop where
  root : document ≠ .sequence
  below : ∀ keys node, keys ≠ [] → document.At keys node → node ≠ .blank ∧ node ≠ .sequence
  keys : ∀ keys fields, document.At keys (.map fields) → (fields.map Prod.fst).Nodup
  texts : ∀ keys fields, document.At keys (.map fields) → ∀ key ∈ fields.map Prod.fst, ∃ value, key = .text value

/-! ## What is wrong with a document -/

/-- What is wrong with a node itself, at the given path, the kind of failure that is and
what is told about it. -/
inductive OwnFault (path : String) : Document → Fault → FaultKind → String → Prop
  | blank : OwnFault path .blank (.settingEmpty path) .settingUnusable ("Field " ++ path ++ ": has no value")
  | sequence : OwnFault path .sequence (.settingSequence path) .settingUnusable
      ("Field " ++ path ++ ": must be a scalar or a map")
  | repeated {fields : List (Key × Document)} {key : String} (h : (fields.map Prod.fst).Duplicate (.text key)) :
      OwnFault path (.map fields) (.settingRepeated path key) .settings
        ("In " ++ path ++ "/: duplicate key \"" ++ key ++ "\"")
  | unreadable {fields : List (Key × Document)} {complaint : String} (h : .unreadable complaint ∈ fields.map Prod.fst) :
      OwnFault path (.map fields) (.keyUnreadable complaint) .keyUnreadable complaint

/-- What is told about a fault ends at the first NUL of its path or key. -/
theorem OwnFault.told {path text : String} {node : Document} {fault : Fault} {kind : FaultKind}
    (h : OwnFault path node fault kind text) : fault.kind = kind ∧ fault.message = beforeNul text := by
  cases h <;> exact ⟨rfl, rfl⟩

mutual

/-- All that is wrong with a document, in document order. -/
def faultsIn (path : String) : Document → List Fault
  | .blank => [.settingEmpty path]
  | .text _ => []
  | .sequence => [.settingSequence path]
  | .map fields => faultsOfFields path [] fields

/-- All that is wrong with the fields of a map, after those with the keys in `seen`. A
repetition comes after what is wrong with the value of the repeated key. -/
def faultsOfFields (path : String) (seen : List String) : List (Key × Document) → List Fault
  | [] => []
  | (.unreadable complaint, _) :: rest => .keyUnreadable complaint :: faultsOfFields path seen rest
  | (.text key, value) :: rest =>
    faultsIn (fieldPath path key) value ++ (if key ∈ seen then [.settingRepeated path key] else []) ++
      faultsOfFields path (key :: seen) rest

end

/-- All that is wrong with a whole document, in document order. -/
def faults (document : Document) : List Fault := faultsIn "" document.rooted

/-- A key comes again among those after the keys in `seen`. -/
def ComesAgain (seen : List String) (keys : List Key) (key : String) : Prop :=
  keys.Duplicate (.text key) ∨ key ∈ seen ∧ .text key ∈ keys

section

variable {seen : List String} {keys : List Key} {key again : String}

theorem comesAgain_nil : ComesAgain [] keys again ↔ keys.Duplicate (.text again) := by
  simp [ComesAgain]

theorem comesAgain_text_cons :
    ComesAgain seen (.text key :: keys) again ↔ key ∈ seen ∧ again = key ∨ ComesAgain (key :: seen) keys again := by
  simp only [ComesAgain, List.duplicate_cons_iff, List.mem_cons, Key.text.injEq]
  rcases eq_or_ne again key with rfl | hne <;> tauto

theorem comesAgain_unreadable_cons {complaint : String} :
    ComesAgain seen (.unreadable complaint :: keys) again ↔ ComesAgain seen keys again := by
  simp [ComesAgain, List.duplicate_cons_iff]

end

theorem mem_faultsOfFields_iff (path : String) (fields : List (Key × Document)) (seen : List String) (fault : Fault) :
    fault ∈ faultsOfFields path seen fields ↔
      (∃ key value, (.text key, value) ∈ fields ∧ fault ∈ faultsIn (fieldPath path key) value) ∨
      (∃ complaint, .unreadable complaint ∈ fields.map Prod.fst ∧ fault = .keyUnreadable complaint) ∨
      ∃ key, ComesAgain seen (fields.map Prod.fst) key ∧ fault = .settingRepeated path key := by
  induction fields generalizing seen with
  | nil => simp [faultsOfFields, ComesAgain]
  | cons field rest ih =>
    obtain ⟨key | complaint, value⟩ := field
    · have hkey : (fault ∈ if key ∈ seen then [Fault.settingRepeated path key] else []) ↔
          key ∈ seen ∧ fault = .settingRepeated path key := by
        split <;> simp [*]
      rw [faultsOfFields, List.mem_append, List.mem_append, ih, hkey]
      simp only [List.map_cons, comesAgain_text_cons, List.mem_cons, Prod.mk.injEq, Key.text.injEq, reduceCtorEq,
        false_or, or_and_right, exists_or, and_assoc, exists_and_left, exists_eq_left]
      -- the repetition of the key stands before what is wrong with later fields
      simp only [or_assoc, or_left_comm]
    · rw [faultsOfFields, List.mem_cons, ih]
      simp only [List.map_cons, comesAgain_unreadable_cons, List.mem_cons, Prod.mk.injEq, Key.unreadable.injEq,
        reduceCtorEq, false_or, false_and, or_and_right, exists_or, exists_eq_left]
      rw [or_assoc, or_left_comm]

/-- **Every fault lies at a node**, and names its path. -/
theorem mem_faultsIn_iff (document : Document) (path : String) (fault : Fault) :
    fault ∈ faultsIn path document ↔
      ∃ keys node kind text, document.At keys node ∧ OwnFault (keys.foldl fieldPath path) node fault kind text := by
  induction document using Document.induction generalizing path with
  | blank =>
    rw [faultsIn, List.mem_singleton]
    constructor
    · rintro rfl
      exact ⟨[], .blank, _, _, .here _, .blank⟩
    · rintro ⟨keys, node, kind, text, hat, hfault⟩
      cases hat
      cases hfault
      rfl
  | text value =>
    rw [faultsIn]
    refine iff_of_false List.not_mem_nil ?_
    rintro ⟨keys, node, kind, text, hat, hfault⟩
    cases hat
    cases hfault
  | sequence =>
    rw [faultsIn, List.mem_singleton]
    constructor
    · rintro rfl
      exact ⟨[], .sequence, _, _, .here _, .sequence⟩
    · rintro ⟨keys, node, kind, text, hat, hfault⟩
      cases hat
      cases hfault
      rfl
  | map fields ih =>
    rw [faultsIn, mem_faultsOfFields_iff]
    constructor
    · rintro (⟨key, value, hfield, hvalue⟩ | ⟨complaint, hkey, rfl⟩ | ⟨key, hkey, rfl⟩)
      · obtain ⟨keys, node, kind, text, hat, hfault⟩ := (ih _ hfield _).1 hvalue
        exact ⟨key :: keys, node, kind, text, .field hfield hat, hfault⟩
      · exact ⟨[], _, _, _, .here _, .unreadable hkey⟩
      · exact ⟨[], _, _, _, .here _, .repeated (comesAgain_nil.1 hkey)⟩
    · rintro ⟨keys, node, kind, text, hat, hfault⟩
      cases hat with
      | here =>
        cases hfault with
        | repeated hkey => exact .inr (.inr ⟨_, comesAgain_nil.2 hkey, rfl⟩)
        | unreadable hkey => exact .inr (.inl ⟨_, hkey, rfl⟩)
      | field hfield hrest => exact .inl ⟨_, _, hfield, (ih _ hfield _).2 ⟨_, node, kind, text, hrest, hfault⟩⟩

theorem rooted_eq {document : Document} (h : document ≠ .blank) : document.rooted = document := by
  cases document with
  | blank => exact absurd rfl h
  | _ => rfl

theorem wellFormed_blank : WellFormed .blank := by
  refine ⟨by simp, fun keys node hne hat => ?_, fun keys fields hat => ?_, fun keys fields hat => ?_⟩
  · cases hat
    exact absurd rfl hne
  · cases hat
  · cases hat

/-- **The well-formed documents are those without faults.** -/
theorem wellFormed_iff (document : Document) : document.WellFormed ↔ document.faults = [] := by
  rcases eq_or_ne document .blank with rfl | hne
  · exact iff_of_true wellFormed_blank rfl
  rw [faults, rooted_eq hne, List.eq_nil_iff_forall_not_mem]
  simp only [mem_faultsIn_iff]
  constructor
  · intro h fault ⟨keys, node, _, _, hat, hfault⟩
    have hbelow : node ≠ .blank ∧ node ≠ .sequence := by
      cases keys with
      | nil =>
        cases hat
        exact ⟨hne, h.root⟩
      | cons key keys => exact h.below _ _ (List.cons_ne_nil _ _) hat
    cases hfault with
    | blank => exact hbelow.1 rfl
    | sequence => exact hbelow.2 rfl
    | repeated hkey => exact List.nodup_iff_forall_not_duplicate.1 (h.keys _ _ hat) _ hkey
    | unreadable hkey =>
      obtain ⟨value, heq⟩ := h.texts _ _ hat _ hkey
      cases heq
  · intro hnone
    have htexts : ∀ keys fields, document.At keys (.map fields) →
        ∀ key ∈ fields.map Prod.fst, ∃ value, key = .text value := by
      rintro keys fields hat (value | complaint) hkey
      · exact ⟨value, rfl⟩
      · exact absurd ⟨keys, _, _, _, hat, .unreadable hkey⟩ (hnone _)
    refine ⟨?root, fun keys node _ hat => ⟨?blank, ?sequence⟩, fun keys fields hat => ?keys, htexts⟩
    case root =>
      rintro rfl
      exact hnone _ ⟨[], _, _, _, .here _, .sequence⟩
    case blank =>
      rintro rfl
      exact hnone _ ⟨keys, _, _, _, hat, .blank⟩
    case sequence =>
      rintro rfl
      exact hnone _ ⟨keys, _, _, _, hat, .sequence⟩
    case keys =>
      refine List.nodup_iff_forall_not_duplicate.2 fun key hkey => ?_
      obtain ⟨value, rfl⟩ := htexts _ _ hat _ hkey.mem
      exact hnone _ ⟨keys, _, _, _, hat, .repeated hkey⟩

/-- No map of a document without faults has a key twice, even of a document that is empty
as a whole. -/
theorem nodup_of_faults {document : Document} (h : document.faults = []) {keys : List String}
    {fields : List (Key × Document)} (hat : document.rooted.At keys (.map fields)) : (fields.map Prod.fst).Nodup := by
  rcases eq_or_ne document .blank with rfl | hne
  · cases hat with
    | here => exact List.nodup_nil
    | field hfield => cases hfield
  · rw [rooted_eq hne] at hat
    exact ((wellFormed_iff document).2 h).keys _ _ hat

end Document

/-! ## What is loaded -/

namespace Setting

mutual

/-- A setting as it is written. -/
def document : Setting → Document
  | .text value => .text value
  | .map fields => .map (documents fields)

def documents : List (String × Setting) → List (Document.Key × Document)
  | [] => []
  | (key, value) :: rest => (.text key, value.document) :: documents rest

end

theorem documents_eq (fields : List (String × Setting)) :
    documents fields = fields.map fun field => (.text field.1, field.2.document) := by
  induction fields with
  | nil => rfl
  | cons field rest ih =>
    obtain ⟨key, value⟩ := field
    rw [documents, ih, List.map_cons]

theorem nodup_keys_documents {fields : List (String × Setting)} :
    ((documents fields).map Prod.fst).Nodup ↔ (fields.map Prod.fst).Nodup := by
  have hkeys : (documents fields).map Prod.fst = (fields.map Prod.fst).map .text := by
    rw [documents_eq, List.map_map, List.map_map]
    rfl
  rw [hkeys, List.nodup_map_iff fun _ _ => Document.Key.text.inj]

end Setting

namespace Document

theorem toFields_cases (path : String) (fields : List (Key × Document))
    (hvalues : ∀ field ∈ fields, ∀ path,
      (∃ fault later, faultsIn path field.2 = fault :: later ∧ toSetting path field.2 = .error fault) ∨
      (faultsIn path field.2 = [] ∧ ∃ s, toSetting path field.2 = .ok s ∧ s.document = field.2)) (seen : List String) :
    (∃ fault later, faultsOfFields path seen fields = fault :: later ∧ toFields path seen fields = .error fault) ∨
    (faultsOfFields path seen fields = [] ∧
      ∃ settings, toFields path seen fields = .ok settings ∧ Setting.documents settings = fields) := by
  induction fields generalizing seen with
  | nil => exact .inr ⟨rfl, [], rfl, rfl⟩
  | cons field rest ih =>
    obtain ⟨key | complaint, value⟩ := field
    case unreadable =>
      rw [toFields, faultsOfFields]
      exact .inl ⟨_, _, rfl, rfl⟩
    rw [toFields, faultsOfFields]
    rcases hvalues _ (List.mem_cons_self ..) (fieldPath path key) with
      ⟨fault, later, hfaults, herror⟩ | ⟨hnone, s, hok, hs⟩
    · dsimp only at hfaults herror
      rw [hfaults, herror]
      exact .inl ⟨fault, _, rfl, rfl⟩
    dsimp only at hnone hok hs
    rw [hnone, hok]
    by_cases hseen : key ∈ seen
    · rw [if_pos hseen]
      simp only [List.contains_eq_mem, hseen, decide_true, if_true]
      exact .inl ⟨_, _, rfl, rfl⟩
    rw [if_neg hseen]
    simp only [List.contains_eq_mem, hseen, decide_false, Bool.false_eq_true, if_false]
    rcases ih (fun field hfield => hvalues field (List.mem_cons_of_mem _ hfield)) (key :: seen) with
      ⟨fault, later, hfaults, herror⟩ | ⟨hnone, settings, hok, hsettings⟩
    · rw [hfaults, herror]
      exact .inl ⟨fault, later, rfl, rfl⟩
    · rw [hnone, hok]
      exact .inr ⟨rfl, (key, s) :: settings, rfl, by rw [Setting.documents, hs, hsettings]⟩

/-- **A document is refused for the first of its faults**, and taken as it is without one. -/
theorem toSetting_cases (document : Document) (path : String) :
    (∃ fault later, faultsIn path document = fault :: later ∧ toSetting path document = .error fault) ∨
    (faultsIn path document = [] ∧ ∃ s, toSetting path document = .ok s ∧ s.document = document) := by
  induction document using Document.induction generalizing path with
  | blank => exact .inl ⟨_, [], rfl, rfl⟩
  | text value => exact .inr ⟨rfl, .text value, rfl, rfl⟩
  | sequence => exact .inl ⟨_, [], rfl, rfl⟩
  | map fields ih =>
    rw [faultsIn, toSetting]
    rcases toFields_cases path fields ih [] with ⟨fault, later, hfaults, herror⟩ | ⟨hnone, settings, hok, hsettings⟩
    · rw [herror]
      exact .inl ⟨fault, later, hfaults, rfl⟩
    · rw [hok]
      exact .inr ⟨hnone, .map settings, rfl, by rw [Setting.document, hsettings]⟩

theorem load_eq (document : Document) : document.load = toSetting "" document.rooted := by
  cases document <;> rfl

theorem load_cases (document : Document) :
    (∃ fault later, document.faults = fault :: later ∧ document.load = .error fault) ∨
    (document.faults = [] ∧ ∃ s, document.load = .ok s ∧ s.document = document.rooted) := by
  rw [load_eq, faults]
  exact toSetting_cases _ _

end Document

/-! ## Ways through what is loaded -/

theorem lookup_eq_some_iff_mem {α : Type} {fields : List (String × α)} (hkeys : (fields.map Prod.fst).Nodup)
    {key : String} {value : α} : fields.lookup key = some value ↔ (key, value) ∈ fields := by
  induction fields with
  | nil => simp
  | cons field rest ih =>
    obtain ⟨name, first⟩ := field
    rw [List.map_cons, List.nodup_cons] at hkeys
    rw [List.lookup_cons, List.mem_cons, ← ih hkeys.2]
    by_cases heq : key = name
    · have habsent : rest.lookup key = none := List.lookup_eq_none_iff.2 fun again hagain => by
        rw [bne_iff_ne, heq]
        exact fun hname => hkeys.1 (List.mem_map.2 ⟨again, hagain, hname.symm⟩)
      rw [habsent, heq, beq_self_eq_true]
      simp [eq_comm]
    · rw [beq_false_of_ne heq]
      simp [heq]

namespace Cursor

/-- A field of the map at a cursor. -/
inductive Entry : Cursor → String → Cursor → Prop
  | of_mem {fields : List (String × Setting)} {key : String} {value : Setting} (name : String) (around : List Scope)
      (hfield : (key, value) ∈ fields) : Entry ⟨.map fields, name, around⟩ key ⟨value, key, ⟨name, fields⟩ :: around⟩

/-- The cursors that one comes to from the root of settings, from map to field. -/
inductive In (s : Setting) : Cursor → Prop
  | root : In s (root s)
  | entry {c field : Cursor} {key : String} (hc : In s c) (hfield : c.Entry key field) : In s field

/-- The keys that lead from the root to a setting inside the given maps. -/
def keysIn (name : String) : List Scope → List String
  | [] => []
  | s :: outer => keysIn s.name outer ++ [name]

def keys (c : Cursor) : List String := keysIn c.name c.around

variable {s : Setting} {c field : Cursor} {key : String}

theorem Entry.keys (h : c.Entry key field) : field.keys = c.keys ++ [key] := by
  cases h
  rfl

theorem In.path (h : c.In s) : c.path = pathOf c.keys := by
  induction h with
  | root => rfl
  | entry hc hfield ih =>
    rw [hfield.keys, pathOf, List.foldl_append, ← pathOf, ← ih]
    cases hfield
    rfl

theorem In.at (h : c.In s) : s.document.At c.keys c.value.document := by
  induction h with
  | root => exact .here _
  | entry hc hfield ih =>
    rw [hfield.keys]
    cases hfield with
    | of_mem name around hfield =>
      rw [Setting.document, Setting.documents_eq] at ih
      exact ih.concat (List.mem_map_of_mem hfield)

theorem Entry.field_eq (h : c.Entry key field) (hkeys : ∀ fields, c.value = .map fields → (fields.map Prod.fst).Nodup) :
    c.field key = .ok field := by
  cases h with
  | of_mem name around hfield =>
    have hlookup := (lookup_eq_some_iff_mem (hkeys _ rfl)).2 hfield
    rw [Cursor.field, get]
    dsimp only
    rw [find, hlookup]
    rfl

/-- **The keys of a node lead a cursor to it.** -/
theorem In.follow_eq_ok {node : Document} {keys : List String} (hc : c.In s) (hat : c.value.document.At keys node)
    (hnodup : ∀ keys fields, c.value.document.At keys (.map fields) → (fields.map Prod.fst).Nodup) :
    ∃ c', c.follow keys = .ok c' ∧ c'.In s ∧ c'.keys = c.keys ++ keys ∧ c'.value.document = node := by
  induction keys generalizing c with
  | nil =>
    obtain rfl := hat.eq_of_nil
    exact ⟨c, rfl, hc, (List.append_nil _).symm, rfl⟩
  | cons key keys ih =>
    obtain ⟨value, name, around⟩ := c
    cases value with
    | text value => cases hat
    | map fields =>
      rw [Setting.document] at hat hnodup
      obtain ⟨_, hfield, hrest⟩ := hat.exists_field
      obtain ⟨⟨_, value⟩, hmem, heq⟩ := List.mem_map.1 (Setting.documents_eq fields ▸ hfield)
      obtain ⟨htext, rfl⟩ := Prod.mk.inj heq
      obtain rfl := Document.Key.text.inj htext
      have hentry : Entry ⟨.map fields, name, around⟩ _ ⟨value, _, ⟨name, fields⟩ :: around⟩ := .of_mem name around hmem
      have hfound := hentry.field_eq fun fields' heq => by
        cases heq
        exact Setting.nodup_keys_documents.1 (hnodup [] _ (.here _))
      obtain ⟨c', hfollow, hc', hkeys, hnode⟩ := ih (.entry hc hentry) hrest fun keys' fields' h =>
        hnodup _ fields' (.field hfield h)
      refine ⟨c', ?_, hc', ?_, hnode⟩
      · rw [follow, List.foldlM_cons, hfound]
        exact hfollow
      · rw [hkeys, hentry.keys, List.append_assoc, List.singleton_append]

end Cursor

/-! ## Loading -/

namespace Setting

theorem load_eq (document : Document) (before : Setting) :
    (Setting.load document).outcome before =
      match document.load with
      | .ok s => (.ok (), s)
      | .error fault => (.error fault, before) := by
  rw [Setting.load]
  cases document.load <;> rfl

theorem of_load {document : Document} {before s : Setting} (h : (Setting.load document).outcome before = (.ok (), s)) :
    document.faults = [] ∧ s.document = document.rooted := by
  rw [load_eq] at h
  rcases document.load_cases with ⟨fault, later, hfaults, herror⟩ | ⟨hnone, s', hok, hs'⟩
  · rw [herror] at h
    cases h
  · rw [hok] at h
    obtain ⟨-, rfl⟩ := Prod.mk.inj h
    exact ⟨hnone, hs'⟩

end Setting

/-- **Loading takes exactly the well-formed documents, and takes them whole.** The
settings are then the document, and the keys of each of its nodes lead from the root to
it. Any other document is refused for what comes first of all that is wrong with it; the
settings from before stay. Each fault is that of one node: an empty node and a sequence
are of no use as settings and a repeated key is a fault of the settings, told with the
path, as far as the first NUL. -/
theorem loading_is_exact_and_atomic (document : Document) (before : Setting) :
    ((document.WellFormed ∧ ∃ s, (Setting.load document).outcome before = (.ok (), s) ∧ s.document = document.rooted ∧
        ∀ keys node, document.rooted.At keys node →
          ∃ c, (Cursor.root s).follow keys = .ok c ∧ c.keys = keys ∧ c.path = pathOf keys ∧ c.value.document = node) ∨
      (¬ document.WellFormed ∧ ∃ fault later, document.faults = fault :: later ∧
        (Setting.load document).outcome before = (.error fault, before))) ∧
    ∀ fault, fault ∈ document.faults ↔ ∃ keys node kind text, document.rooted.At keys node ∧
      Document.OwnFault (pathOf keys) node fault kind text ∧ fault.kind = kind ∧ fault.message = beforeNul text := by
  refine ⟨?_, fun fault => (Document.mem_faultsIn_iff ..).trans ?_⟩
  · rw [Document.wellFormed_iff, Setting.load_eq]
    rcases document.load_cases with ⟨fault, later, hfaults, herror⟩ | ⟨hnone, s, hok, hs⟩
    · rw [herror, hfaults]
      exact .inr ⟨List.cons_ne_nil _ _, fault, later, rfl, rfl⟩
    rw [hok]
    refine .inl ⟨hnone, s, rfl, hs, fun keys node hat => ?_⟩
    have hnodup : ∀ keys fields, document.rooted.At keys (.map fields) → (fields.map Prod.fst).Nodup :=
      fun _ _ => Document.nodup_of_faults hnone
    rw [← hs] at hat hnodup
    obtain ⟨c, hfollow, hc, hkeys, hnode⟩ := Cursor.In.root.follow_eq_ok hat hnodup
    exact ⟨c, hfollow, hkeys, hc.path.trans (congrArg pathOf hkeys), hnode⟩
  · constructor
    · rintro ⟨keys, node, kind, text, hat, hfault⟩
      exact ⟨keys, node, kind, text, hat, hfault, hfault.told⟩
    · rintro ⟨keys, node, kind, text, hat, hfault, -⟩
      exact ⟨keys, node, kind, text, hat, hfault⟩

/-- A key comes again with an empty value: the value is at fault before the key, and
what comes later in the document is not reported. -/
theorem empty_value_is_reported_before_repeated_key :
    let document := Document.map [(.text "a", .map [(.text "b", .text "1"), (.text "b", .blank)]), (.text "c", .sequence)]
    let before := Setting.map [("b", .text "2")]
    document.faults = [.settingEmpty "/a/b", .settingRepeated "/a" "b", .settingSequence "/c"] ∧
      ¬ document.WellFormed ∧ (Setting.load document).outcome before = (.error (.settingEmpty "/a/b"), before) := by
  intro document before
  have hfaults : document.faults = [.settingEmpty "/a/b", .settingRepeated "/a" "b", .settingSequence "/c"] := by decide
  obtain ⟨⟨hwell, -⟩ | ⟨hnot, fault, later, hfirst, hload⟩, -⟩ := loading_is_exact_and_atomic document before
  · rw [Document.wellFormed_iff, hfaults] at hwell
    cases hwell
  · obtain ⟨rfl, -⟩ := List.cons.inj (hfirst.symm.trans hfaults)
    exact ⟨hfaults, hnot, hload⟩

/-- A document without sequences, empty nodes and repeated keys is refused for a key that
is a map. And an empty node is reported without its path, if a key on the way to it has a
NUL. -/
theorem key_without_text_is_refused :
    let odd := Document.map [(.unreadable "bad conversion", .text "c")]
    let cut := Document.map [(.text "a\x00b", .blank)]
    let before := Setting.map []
    (odd ≠ .sequence ∧ (∀ keys node, keys ≠ [] → odd.At keys node → node ≠ .blank ∧ node ≠ .sequence) ∧
      ∀ keys fields, odd.At keys (.map fields) → (fields.map Prod.fst).Nodup) ∧
    (Setting.load odd).outcome before = (.error (.keyUnreadable "bad conversion"), before) ∧
    (Setting.load cut).outcome before = (.error (.settingEmpty "/a\x00b"), before) ∧
      (Fault.settingEmpty "/a\x00b").message = "Field /a" := by
  intro odd cut before
  have hroot : ∀ {keys node}, odd.At keys node → keys = [] ∧ node = odd := by
    intro keys node hat
    cases keys with
    | nil => exact ⟨rfl, hat.eq_of_nil⟩
    | cons key keys =>
      obtain ⟨value, hfield, -⟩ := hat.exists_field
      simp at hfield
  refine ⟨⟨by simp [odd], fun keys node hne hat => absurd (hroot hat).1 hne, fun keys fields hat => ?_⟩, rfl, rfl,
    by decide⟩
  rw [Document.map.inj (hroot hat).2]
  exact List.nodup_singleton _

end GatePlan
