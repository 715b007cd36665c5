/-
The credits that a circuit needs. One pass over the gates counts the reads of
every gate wire; then the declared outputs and the permanent wires are set to
the two values that no read uses up. `Counted` is what the pass keeps true, and
`ofCircuit_cases` says what comes of it: a table that holds `creditsNeeded`
of every wire, or a fault when some gate wire is read too often for any table.
-/
import GatePlan.Credits
import GatePlan.Proofs.Graph

namespace GatePlan

/-- The credits that a wire has to be given: one per read, unless the wire is
never freed. -/
def Circuit.creditsNeeded (c : Circuit) (wire : Nat) : Nat :=
  if wire < c.permanent then permanentCredits
  else if wire ∈ c.outputs then outputCredits
  else c.readsOf wire

namespace CreditTable

variable {c : Circuit} {read : List Nat} {table : CreditTable}

theorem valid_of_ofCircuit (h : ofCircuit c = .ok table) : c.Valid := by
  rw [← Circuit.validate_eq_ok_iff]
  cases hvalidate : c.validate with
  | ok u => rfl
  | error fault =>
    rw [ofCircuit, hvalidate] at h
    cases h

/-! ## Counting -/

/-- No gate wire is read more often than a table can say. -/
def Countable (c : Circuit) (read : List Nat) : Prop :=
  ∀ w, c.permanent ≤ w → read.count w ≤ maxCredits

/-- The table after the reads in `read`. -/
structure Counted (c : Circuit) (read : List Nat) (table : CreditTable) : Prop where
  size : table.size = c.permanent + c.gates.length
  countable : Countable c read
  entry : ∀ w, c.permanent ≤ w → table.getD w 0 = read.count w

theorem countable_concat_iff {w : Nat} : Countable c (read ++ [w]) ↔
    Countable c read ∧ (c.permanent ≤ w → read.count w < maxCredits) := by
  have hcount : ∀ v, (read ++ [w]).count v = read.count v + if w = v then 1 else 0 := by
    intro v
    rw [List.count_append, List.count_singleton]
    simp
  constructor
  · intro h
    refine ⟨fun v hv => ?_, fun hw => ?_⟩
    · have := h v hv
      rw [hcount] at this
      omega
    · have := h w hw
      rw [hcount, if_pos rfl] at this
      omega
  · intro ⟨h, hw⟩ v hv
    rw [hcount]
    split
    · rename_i hwv
      subst hwv
      exact hw hv
    · exact h v hv

theorem Countable.of_append {more : List Nat} (h : Countable c (read ++ more)) : Countable c read :=
  fun w hw => (Nat.le_trans (by rw [List.count_append]; omega) (h w hw))

theorem getD_modify_succ {w : Nat} (hw : w < table.size) (v : Nat) :
    (table.modify w (· + 1)).getD v 0 = if v = w then table.getD w 0 + 1 else table.getD v 0 := by
  rw [Array.getD_eq_getD_getElem?, Array.getElem?_modify]
  by_cases hv : v = w
  · subst hv
    rw [if_pos rfl, if_pos rfl, Array.getD_eq_getD_getElem?, Array.getElem?_eq_getElem hw]
    rfl
  · rw [if_neg (Ne.symm hv), if_neg hv, Array.getD_eq_getD_getElem?]

theorem addRead_cases (h : Counted c read table) {w : Nat} (hw : w < c.permanent + c.gates.length) (gate : Nat) :
    (∃ table', addRead c gate table w = .ok table' ∧ Counted c (read ++ [w]) table') ∨
    (¬ Countable c (read ++ [w]) ∧ addRead c gate table w = .error (.tooManyReaders w gate)) := by
  have hentry : ∀ v, c.permanent ≤ v → v ≠ w → table.getD v 0 = (read ++ [w]).count v := by
    intro v hv hne
    rw [h.entry v hv, List.count_append, List.count_singleton, if_neg (by simpa using Ne.symm hne), Nat.add_zero]
  unfold addRead Circuit.isPermanent
  by_cases hperm : w < c.permanent
  · rw [if_pos (by simpa using hperm)]
    have hcountable : Countable c (read ++ [w]) := countable_concat_iff.2 ⟨h.countable, fun hge => by omega⟩
    exact .inl ⟨table, rfl, h.size, hcountable, fun v hv => hentry v hv (by omega)⟩
  · have hge : c.permanent ≤ w := Nat.le_of_not_lt hperm
    rw [if_neg (by simpa using hge), h.entry w hge]
    by_cases hfull : read.count w = maxCredits
    · rw [if_pos hfull]
      refine .inr ⟨fun hc => ?_, rfl⟩
      have := (countable_concat_iff.1 hc).2 hge
      omega
    · rw [if_neg hfull]
      have hlt : read.count w < maxCredits := lt_of_le_of_ne (h.countable w hge) hfull
      refine .inl ⟨_, rfl, by rw [Array.size_modify, h.size],
        countable_concat_iff.2 ⟨h.countable, fun _ => hlt⟩, fun v hv => ?_⟩
      rw [getD_modify_succ (by rw [h.size]; exact hw)]
      by_cases hvw : v = w
      · subst hvw
        rw [if_pos rfl, h.entry v hv]
        simp
      · rw [if_neg hvw]
        exact hentry v hv hvw

theorem countReads_cases {gates : List Gate} (h : Counted c read table)
    (hgates : ∀ g ∈ gates, g.input1 < c.permanent + c.gates.length ∧ g.input2 < c.permanent + c.gates.length)
    (i : Nat) :
    (∃ table', countReads c gates i table = .ok table' ∧ Counted c (read ++ gates.flatMap Gate.reads) table') ∨
    (¬ Countable c (read ++ gates.flatMap Gate.reads) ∧
      ∃ w gate, countReads c gates i table = .error (.tooManyReaders w gate)) := by
  induction gates generalizing read table i with
  | nil =>
    rw [List.flatMap_nil, List.append_nil]
    exact .inl ⟨table, rfl, h⟩
  | cons g rest ih =>
    have hg := hgates g (List.mem_cons_self ..)
    have hsplit : read ++ (g :: rest).flatMap Gate.reads =
        read ++ [g.input1] ++ [g.input2] ++ rest.flatMap Gate.reads := by
      simp [Gate.reads]
    simp only [countReads, hsplit, bind, Except.bind]
    rcases addRead_cases h hg.1 i with ⟨t1, h1, hc1⟩ | ⟨hnot, h1⟩
    swap
    · rw [h1]
      exact .inr ⟨fun hc => hnot hc.of_append.of_append, g.input1, i, rfl⟩
    rw [h1]
    dsimp only
    rcases addRead_cases hc1 hg.2 i with ⟨t2, h2, hc2⟩ | ⟨hnot, h2⟩
    swap
    · rw [h2]
      exact .inr ⟨fun hc => hnot hc.of_append, g.input2, i, rfl⟩
    rw [h2]
    exact ih hc2 (fun g' hg' => hgates g' (List.mem_cons_of_mem _ hg')) (i + 1)

/-! ## Wires that are never freed -/

@[simp] theorem size_foldl_set (wires : List Nat) (value : Nat) (table : CreditTable) :
    (wires.foldl (fun t w => t.setIfInBounds w value) table).size = table.size := by
  induction wires generalizing table with
  | nil => rfl
  | cons w rest ih => rw [List.foldl_cons, ih, Array.size_setIfInBounds]

theorem getD_foldl_set (wires : List Nat) (value : Nat) (table : CreditTable) {w : Nat} (hw : w < table.size) :
    (wires.foldl (fun t w => t.setIfInBounds w value) table).getD w 0 =
      if w ∈ wires then value else table.getD w 0 := by
  induction wires generalizing table with
  | nil => rw [List.foldl_nil, if_neg List.not_mem_nil]
  | cons v rest ih =>
    rw [List.foldl_cons, ih _ (by rwa [Array.size_setIfInBounds])]
    by_cases hrest : w ∈ rest
    · rw [if_pos hrest, if_pos (List.mem_cons_of_mem _ hrest)]
    · rw [if_neg hrest, Array.getD_eq_getD_getElem?, Array.getElem?_setIfInBounds]
      by_cases hv : v = w
      · subst hv
        rw [if_pos rfl, if_pos hw, if_pos (List.mem_cons_self ..)]
        rfl
      · rw [if_neg hv, if_neg (by simp [hrest, Ne.symm hv]), Array.getD_eq_getD_getElem?]

/-! ## The whole circuit -/

theorem size_of_addRead {gate w : Nat} {table' : CreditTable} (h : addRead c gate table w = .ok table') :
    table'.size = table.size := by
  unfold addRead at h
  split at h
  · cases h
    rfl
  · split at h
    · cases h
    · cases h
      exact Array.size_modify

theorem size_of_countReads {gates : List Gate} {i : Nat} {table' : CreditTable}
    (h : countReads c gates i table = .ok table') : table'.size = table.size := by
  induction gates generalizing i table with
  | nil =>
    cases h
    rfl
  | cons g gates ih =>
    simp only [countReads, bind, Except.bind] at h
    cases h1 : addRead c i table g.input1 with
    | error fault =>
      rw [h1] at h
      cases h
    | ok t1 =>
      rw [h1] at h
      dsimp only at h
      cases h2 : addRead c i t1 g.input2 with
      | error fault =>
        rw [h2] at h
        cases h
      | ok t2 =>
        rw [h2] at h
        rw [ih h, size_of_addRead h2, size_of_addRead h1]

theorem size_of_ofCircuit (h : ofCircuit c = .ok table) : table.size = c.wires := by
  have hvalidate : c.validate = .ok () := (Circuit.validate_eq_ok_iff c).2 (valid_of_ofCircuit h)
  simp only [ofCircuit, hvalidate, bind, Except.bind] at h
  cases hcount : countReads c c.gates 0 (Array.replicate c.wires 0) with
  | error fault =>
    rw [hcount] at h
    cases h
  | ok t =>
    rw [hcount] at h
    cases h
    rw [size_foldl_set, size_foldl_set, size_of_countReads hcount, Array.size_replicate]

/-- **A circuit has credits exactly when no gate wire is read too often for a
table**, and they are the ones that its wires need. -/
theorem ofCircuit_cases (hv : c.Valid) (hroom : c.permanent + c.gates.length < wordSize) :
    (Countable c (c.gates.flatMap Gate.reads) ∧ ∃ table, ofCircuit c = .ok table ∧
      table.size = c.wires ∧ ∀ w < c.wires, table.getD w 0 = c.creditsNeeded w) ∨
    (¬ Countable c (c.gates.flatMap Gate.reads) ∧
      ∃ w gate, ofCircuit c = .error (.tooManyReaders w gate)) := by
  have hwires : c.wires = c.permanent + c.gates.length := wrap_of_lt hroom
  have hstart : Counted c [] (Array.replicate c.wires 0) := by
    refine ⟨by rw [Array.size_replicate, hwires], fun w _ => by simp, fun w _ => ?_⟩
    rw [Array.getD_eq_getD_getElem?, Array.getElem?_replicate]
    split <;> rfl
  have hgates : ∀ g ∈ c.gates, g.input1 < c.permanent + c.gates.length ∧ g.input2 < c.permanent + c.gates.length := by
    intro g hg
    obtain ⟨i, hi, rfl⟩ := List.getElem_of_mem hg
    have := hv.ordered i _ (List.getElem?_eq_getElem hi)
    omega
  have hvalidate : c.validate = .ok () := (Circuit.validate_eq_ok_iff c).2 hv
  simp only [ofCircuit, hvalidate, bind, Except.bind]
  rcases countReads_cases hstart hgates 0 with ⟨t, hcount, hcounted⟩ | ⟨hnot, w, gate, hcount⟩
  swap
  · rw [hcount]
    exact .inr ⟨hnot, w, gate, rfl⟩
  rw [hcount]
  have hsize : t.size = c.wires := by rw [hcounted.size, hwires]
  refine .inl ⟨hcounted.countable, _, rfl, by rw [size_foldl_set, size_foldl_set, hsize], fun w hw => ?_⟩
  rw [getD_foldl_set _ _ _ (by rw [size_foldl_set, hsize]; exact hw), getD_foldl_set _ _ _ (by rw [hsize]; exact hw),
    Circuit.creditsNeeded]
  by_cases hperm : w < c.permanent
  · rw [if_pos (List.mem_range.2 hperm), if_pos hperm]
  · rw [if_neg (fun h => hperm (List.mem_range.1 h)), if_neg hperm, hcounted.entry w (Nat.le_of_not_lt hperm)]
    rfl

end CreditTable

end GatePlan
