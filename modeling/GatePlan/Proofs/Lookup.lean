/-
Looking settings up. The walk for a key goes from a map outward (`Cursor.chain`), past
every map that neither has the key nor is named by it, and what is found is an entry of
a map that the walk comes to (`find_eq_some_iff`). So it ends where the key is found,
where a map is named by it, or with the root.

Nothing that lies around the place of a lookup is found from there. What is found lies
one key below the map that has it. If it were on the way, the walk would have gone past
it before it came to that map; but it is named by the key, and the walk does not go past
a map with that name (`Reaches.keys_ne`).
-/
import GatePlan.Proofs.Loading

namespace GatePlan.Cursor

variable {s : Setting} {c m v field found : Cursor} {key : String}

/-! ## The maps around a setting -/

/-- Maps as cursors, each with those after it around it. -/
def maps : List Scope → List Cursor
  | [] => []
  | scope :: outer => ⟨.map scope.fields, scope.name, outer⟩ :: maps outer

/-- A setting and the maps around it, from the inside out to the root. -/
def chain (c : Cursor) : List Cursor := c :: maps c.around

theorem Entry.chain (h : c.Entry key field) : field.chain = field :: c.chain := by
  cases h
  rfl

theorem In.of_mem_chain (hv : v.In s) (hm : m ∈ v.chain) : m.In s := by
  induction hv with
  | root => exact List.mem_singleton.1 hm ▸ .root
  | entry hc hfield ih =>
    rw [hfield.chain] at hm
    rcases List.mem_cons.1 hm with rfl | houter
    · exact .entry hc hfield
    · exact ih houter

theorem exists_mem_maps {scope : Scope} {scopes : List Scope} (h : scope ∈ scopes) :
    ∃ m ∈ maps scopes, m.value = .map scope.fields := by
  induction scopes with
  | nil => cases h
  | cons first outer ih =>
    rcases List.mem_cons.1 h with rfl | houter
    · exact ⟨_, List.mem_cons_self .., rfl⟩
    · obtain ⟨m, hm, hmap⟩ := ih houter
      exact ⟨m, List.mem_cons_of_mem _ hm, hmap⟩

theorem length_around_lt {scopes : List Scope} (hm : m ∈ maps scopes) : m.around.length < scopes.length := by
  induction scopes with
  | nil => cases hm
  | cons scope outer ih =>
    rcases List.mem_cons.1 hm with rfl | houter
    · exact Nat.lt_succ_self _
    · exact Nat.lt_succ_of_lt (ih houter)

theorem pairwise_chain (c : Cursor) : c.chain.Pairwise fun inner outer => outer.around.length < inner.around.length := by
  obtain ⟨value, name, around⟩ := c
  induction around generalizing value name with
  | nil => exact List.pairwise_singleton _ _
  | cons scope outer ih => exact List.pairwise_cons.2 ⟨fun m hm => length_around_lt hm, ih ..⟩

/-! ## The walk -/

/-- The walk for a key goes past a map that neither has the key nor is named by it. -/
def Passes (key : String) (m : Cursor) : Prop := m.name ≠ key ∧ ∀ field, ¬ m.Entry key field

/-- The walk for a key comes to a map. -/
def Reaches (key : String) (chain : List Cursor) (m : Cursor) : Prop :=
  ∃ inner outer, chain = inner ++ m :: outer ∧ ∀ passed ∈ inner, Passes key passed

theorem Reaches.mem {chain : List Cursor} (h : Reaches key chain m) : m ∈ chain := by
  obtain ⟨inner, outer, rfl, -⟩ := h
  exact List.mem_append_right _ (List.mem_cons_self ..)

theorem not_reaches_nil : ¬ Reaches key [] m := by
  intro h
  cases h.mem

theorem reaches_cons_iff {outer : List Cursor} :
    Reaches key (c :: outer) m ↔ m = c ∨ Passes key c ∧ Reaches key outer m := by
  constructor
  · rintro ⟨inner, rest, heq, hpass⟩
    cases inner with
    | nil => exact .inl (List.cons.inj heq).1.symm
    | cons first inner =>
      obtain ⟨rfl, rfl⟩ := List.cons.inj heq
      exact .inr ⟨hpass _ (List.mem_cons_self ..), inner, rest, rfl, fun b hb => hpass b (List.mem_cons_of_mem _ hb)⟩
  · rintro (rfl | ⟨hc, inner, rest, rfl, hpass⟩)
    · exact ⟨[], outer, rfl, by simp⟩
    · exact ⟨c :: inner, rest, rfl, List.forall_mem_cons.2 ⟨hc, hpass⟩⟩

theorem entry_iff_lookup {scope : Scope} {outer : List Scope} (hkeys : (scope.fields.map Prod.fst).Nodup) :
    (Cursor.mk (.map scope.fields) scope.name outer).Entry key found ↔
      ∃ value, scope.fields.lookup key = some value ∧ found = ⟨value, key, scope :: outer⟩ := by
  simp only [lookup_eq_some_iff_mem hkeys]
  constructor
  · rintro ⟨-, -, hfield⟩
    exact ⟨_, hfield, rfl⟩
  · rintro ⟨value, hfield, rfl⟩
    exact .of_mem _ _ hfield

/-- **What is found is an entry of a map that the walk comes to.** -/
theorem find_eq_some_iff {scopes : List Scope} (hkeys : ∀ scope ∈ scopes, (scope.fields.map Prod.fst).Nodup) :
    find key scopes = some found ↔ ∃ m, Reaches key (maps scopes) m ∧ m.Entry key found := by
  induction scopes with
  | nil => exact iff_of_false (by simp [find]) fun ⟨m, hm, _⟩ => not_reaches_nil hm
  | cons scope outer ih =>
    obtain ⟨hscope, houter⟩ := List.forall_mem_cons.1 hkeys
    simp only [maps, reaches_cons_iff, or_and_right, exists_or, exists_eq_left, entry_iff_lookup hscope]
    rw [find]
    cases hlookup : scope.fields.lookup key with
    | some value =>
      -- the map has the key, so the walk does not go past it
      have hstays : ¬ Passes key ⟨.map scope.fields, scope.name, outer⟩ := fun hpass =>
        hpass.2 _ ((entry_iff_lookup hscope).2 ⟨value, hlookup, rfl⟩)
      simp [hstays, eq_comm]
    | none =>
      have hlacks : ∀ field, ¬ (Cursor.mk (.map scope.fields) scope.name outer).Entry key field := by
        intro field hfield
        obtain ⟨value, hvalue, -⟩ := (entry_iff_lookup hscope).1 hfield
        rw [hlookup] at hvalue
        cases hvalue
      by_cases hname : scope.name = key
      · simp [hname, Passes]
      · have hpass : Passes key ⟨.map scope.fields, scope.name, outer⟩ := ⟨hname, hlacks⟩
        simp [hname, hpass, ih houter]

/-! ## What is not found -/

theorem length_keys (c : Cursor) : c.keys.length = c.around.length := by
  obtain ⟨value, name, around⟩ := c
  induction around generalizing name with
  | nil => rfl
  | cons scope outer ih =>
    rw [keys, keysIn, List.length_append, List.length_singleton, List.length_cons]
    exact congrArg (· + 1) (ih scope.name)

theorem name_eq_of_keys {keys : List String} (h : c.keys = keys ++ [key]) : c.name = key := by
  obtain ⟨value, name, around⟩ := c
  cases around with
  | nil => simp [Cursor.keys, keysIn] at h
  | cons scope outer =>
    rw [Cursor.keys, keysIn] at h
    exact List.singleton_inj.1 (List.append_inj_right' h rfl)

/-- **The walk finds nothing that it went past or is still inside of.** -/
theorem Reaches.keys_ne (hm : Reaches key v.chain m) (hfound : m.Entry key found) :
    ∀ enclosing ∈ v.chain, found.keys ≠ enclosing.keys := by
  obtain ⟨inner, outer, hchain, hpass⟩ := hm
  intro enclosing hmem heq
  have hkeys : enclosing.keys = m.keys ++ [key] := heq ▸ hfound.keys
  have hdeep : enclosing.around.length = m.around.length + 1 := by
    rw [← length_keys, hkeys, List.length_append, length_keys, List.length_singleton]
  have hlower := v.pairwise_chain
  rw [hchain] at hmem hlower
  rcases List.mem_append.1 hmem with hinner | houter
  · exact (hpass _ hinner).1 (name_eq_of_keys hkeys)
  · rcases List.mem_cons.1 houter with rfl | houter
    · omega
    · have hless := (List.pairwise_cons.1 (List.pairwise_append.1 hlower).2.1).1 _ houter
      omega

/-! ## Settings that were loaded -/

theorem In.nodup_keys {document : Document} {before : Setting} (hload : (Setting.load document).outcome before = (.ok (), s))
    (hc : c.In s) {fields : List (String × Setting)} (hmap : c.value = .map fields) : (fields.map Prod.fst).Nodup := by
  obtain ⟨hnone, hs⟩ := Setting.of_load hload
  have hat := hc.at
  rw [hs, hmap, Setting.document] at hat
  exact Setting.nodup_keys_documents.1 (Document.nodup_of_faults hnone hat)

end GatePlan.Cursor

namespace GatePlan

open Cursor

/-- **Lookup goes from the inside out**, in settings that were loaded. A map answers
with the entry of the first map that has the key, on a walk from itself outward that ends
with the root, or earlier with a map that is named by the key. What it finds is part of
the settings, and neither the map itself nor one around it; and what the map has itself it
finds whatever lies around. -/
theorem lookup_goes_outward {document : Document} {before s : Setting} {v : Cursor} {fields : List (String × Setting)}
    (hload : (Setting.load document).outcome before = (.ok (), s)) (hv : v.In s) (hmap : v.value = .map fields)
    (key : String) :
    ∃ result, v.get key = .ok result ∧
      (∀ found, result = some found ↔ ∃ m, Reaches key v.chain m ∧ m.Entry key found) ∧
      (result = none ↔ ∀ m, Reaches key v.chain m → ∀ field, ¬ m.Entry key field) ∧
      (∀ found, result = some found → found.In s ∧ ∀ m ∈ v.chain, found.keys ≠ m.keys) ∧
      ∀ value, (key, value) ∈ fields → ∀ around,
        Cursor.get ⟨.map fields, v.name, around⟩ key = .ok (some ⟨value, key, ⟨v.name, fields⟩ :: around⟩) := by
  obtain ⟨_, name, around⟩ := v
  obtain rfl := hmap
  have hscopes : ∀ scope ∈ (⟨name, fields⟩ : Scope) :: around, (scope.fields.map Prod.fst).Nodup := by
    intro scope hscope
    obtain ⟨m, hm, hmap⟩ := exists_mem_maps hscope
    exact (hv.of_mem_chain hm).nodup_keys hload hmap
  have hfind : ∀ found, find key (⟨name, fields⟩ :: around) = some found ↔
      ∃ m, Reaches key (Cursor.mk (.map fields) name around).chain m ∧ m.Entry key found :=
    fun found => find_eq_some_iff hscopes
  refine ⟨find key (⟨name, fields⟩ :: around), rfl, hfind, ?_, fun found hfound => ?_, fun value hvalue outer => ?_⟩
  · rw [Option.eq_none_iff_forall_ne_some]
    refine ⟨fun hnone m hm field hfield => hnone field ((hfind field).2 ⟨m, hm, hfield⟩), fun hlacks found hfound => ?_⟩
    obtain ⟨m, hm, hentry⟩ := (hfind found).1 hfound
    exact hlacks m hm found hentry
  · obtain ⟨m, hm, hentry⟩ := (hfind found).1 hfound
    exact ⟨.entry (hv.of_mem_chain hm.mem) hentry, hm.keys_ne hentry⟩
  · have hlookup := (lookup_eq_some_iff_mem (hv.nodup_keys hload rfl)).2 hvalue
    change Except.ok (find key (⟨name, fields⟩ :: outer)) = _
    rw [find, hlookup]

/-- A section is not found by its name from inside, though there is one more of that
name around it; what the outer one sets is found. -/
theorem section_is_not_found_from_inside :
    let inner := [("threads", Setting.text "2")]
    let outer := [("width", Setting.text "4"), ("run", .map inner)]
    let fields := [("width", Setting.text "8"), ("run", .map outer)]
    let v : Cursor := ⟨.map inner, "run", [⟨"run", outer⟩, ⟨"", fields⟩]⟩
    (Setting.load (Setting.map fields).document).outcome (.map []) = (.ok (), .map fields) ∧ v.In (.map fields) ∧
      v.keys = ["run", "run"] ∧ v.get "run" = .ok none ∧
      ∃ found, v.get "width" = .ok (some found) ∧ found.keys = ["run", "width"] ∧ ∀ m ∈ v.chain, found.keys ≠ m.keys := by
  intro inner outer fields v
  have hload : (Setting.load (Setting.map fields).document).outcome (.map []) = (.ok (), .map fields) := rfl
  let middle : Cursor := ⟨.map outer, "run", [⟨"", fields⟩]⟩
  have hmiddle : middle.In (.map fields) := .entry .root (.of_mem "" [] (by simp [fields]))
  have hv : v.In (.map fields) := .entry hmiddle (.of_mem _ _ (by simp [outer]))
  have hlacks : ∀ field, ¬ Entry ⟨.map inner, "run", [⟨"run", outer⟩, ⟨"", fields⟩]⟩ "width" field := by
    rintro field ⟨-, -, hfield⟩
    simp [inner] at hfield
  have hreaches : Reaches "width" v.chain middle :=
    ⟨[v], [root (.map fields)], rfl, List.forall_mem_singleton.2 ⟨by decide, hlacks⟩⟩
  obtain ⟨result, hget, hresult, -, hnew, -⟩ := lookup_goes_outward hload hv rfl "width"
  have hfound := (hresult _).2 ⟨middle, hreaches, .of_mem _ _ (List.mem_cons_self ..)⟩
  exact ⟨hload, hv, rfl, rfl, _, hfound ▸ hget, rfl, (hnew _ hfound).2⟩

end GatePlan
