/-
Leveling finds the levels of the circuit. After the first `k` gates, the table
of tracked wires is the ledger of their reads in production order, every
tracked wire stands at its place, and every open level holds exactly the gates
of its depth (`Placed`). Every read and every gate keeps this
(`Placed.readInput_cases`, `place_placed`), so a leveling that comes to its end
hands out `Circuit.leveledLevels` (`Placed.allLevels_eq`).

It comes to its end exactly when the reads of the whole circuit are affordable;
otherwise a fault of credits stops it (`addGates_cases`).
-/
import GatePlan.Compiler
import GatePlan.Proofs.Ledger
import GatePlan.Proofs.LeveledCircuit
import GatePlan.Proofs.TreeMap

namespace GatePlan

namespace Circuit

/-- The wires that the first `k` gates produce. -/
def made (c : Circuit) (k : Nat) : List Nat := List.range' c.permanent k

@[simp] theorem mem_made {c : Circuit} {k w : Nat} : w ∈ c.made k ↔ c.permanent ≤ w ∧ w < c.permanent + k :=
  List.mem_range'_1

theorem made_succ (c : Circuit) (k : Nat) : c.made (k + 1) = c.made k ++ [c.permanent + k] := by
  rw [made, made, List.range'_concat, Nat.one_mul]

/-- The wires that the first `k` gates read. -/
def readBy (c : Circuit) (k : Nat) : List Nat := (c.gates.take k).flatMap Gate.reads

theorem readBy_succ {c : Circuit} {k : Nat} {g : Gate} (hg : c.gates[k]? = some g) :
    c.readBy (k + 1) = c.readBy k ++ [g.input1] ++ [g.input2] := by
  rw [readBy, List.take_add_one, hg, List.flatMap_append]
  simp [readBy, Gate.reads]

theorem readBy_length (c : Circuit) : c.readBy c.gates.length = c.gates.flatMap Gate.reads := by
  rw [readBy, List.take_length]

theorem Valid.lt_of_mem_readBy {c : Circuit} (hv : c.Valid) {k w : Nat} (hw : w ∈ c.readBy k) :
    w < c.permanent + k := by
  simp only [readBy, List.mem_flatMap, List.mem_take_iff_getElem] at hw
  obtain ⟨g, ⟨i, hi, rfl⟩, hwg⟩ := hw
  have hlt := hv.lt_of_mem_reads (List.getElem?_eq_getElem (by omega)) hwg
  omega

theorem affordable_of_le {c : Circuit} {credits : Nat → Nat} {k m : Nat} (hk : k ≤ m)
    (h : Affordable credits (c.made m) (c.readBy m)) : Affordable credits (c.made k) (c.readBy k) := by
  refine h.mono (fun w hw => ?_) fun w => ?_
  · rw [mem_made] at hw ⊢
    omega
  · exact ((List.take_sublist_take_left hk).flatMap _).count_le w

/-- The reads of all gates are within the credits. -/
def Affords (c : Circuit) (credits : Nat → Nat) : Prop :=
  Affordable credits (c.made c.gates.length) (c.gates.flatMap Gate.reads)

/-- What is left of the credits when all gates have read. -/
def leftover (c : Circuit) (credits : Nat → Nat) (wire : Nat) : Option Nat :=
  ledger credits (c.made c.gates.length) (c.gates.flatMap Gate.reads) wire

/-- A gate as it is placed in its open level. -/
def placedGate (c : Circuit) (credits : Nat → Nat) (i : Nat) : PlacedGate where
  wire1 := (c.gateAt i).input1
  wire2 := (c.gateAt i).input2
  input1 := c.place (c.gateAt i).input1
  input2 := c.place (c.gateAt i).input2
  output := c.permanent + i
  credits := credits (c.permanent + i)

end Circuit

namespace Leveling

variable {c : Circuit} {credits : Nat → Nat} {k : Nat} {read : List Nat} {s : Leveling}

/-- Every level has a counter, which holds the number of its XOR gates; level 0 has one
without a use. -/
structure Counted (levels : Array OpenLevel) (counts : Array Nat) : Prop where
  size : counts.size = levels.size + 1
  xors : ∀ level, counts.getD (level + 1) 0 = (levels.getD level OpenLevel.empty).xors.size

/-- The state after the first `k` gates, and after the reads in `read`. -/
structure Placed (c : Circuit) (credits : Nat → Nat) (k : Nat) (read : List Nat) (s : Leveling) : Prop where
  permanent : s.permanent = c.permanent
  nextWire : s.nextWire = wrap (c.permanent + k)
  closed : s.closed = false
  tracked : ∀ w, s.tracked[w]? =
    (ledger credits (c.made k) read w).map fun left => ⟨c.place w, left⟩
  sublist : ∀ level type, ((s.levels.getD level OpenLevel.empty).sublist type).toList =
    (c.gatesAt k (level + 1) type).map (c.placedGate credits)
  depth_le : ∀ i < k, c.gateDepth i ≤ s.levels.size
  occupied : ∀ level < s.levels.size, ∃ i < k, c.gateDepth i = level + 1
  counted : Counted s.levels s.xorCounts

theorem placed_ofInputs (c : Circuit) (credits : Nat → Nat) :
    Placed c credits 0 [] (ofInputs c.inputs) where
  permanent := rfl
  nextWire := (wrap_of_lt (wrap_lt _)).symm
  closed := rfl
  tracked w := by simp [ofInputs, ledger, Circuit.made]
  sublist level type := by cases type <;> simp [ofInputs, Circuit.gatesAt, OpenLevel.sublist, OpenLevel.empty]
  depth_le i hi := by omega
  occupied level hlevel := by simp [ofInputs] at hlevel
  counted := ⟨rfl, fun level => by simp [ofInputs, OpenLevel.empty]⟩

/-! ## Reading -/

theorem tracked_spend {w : Nat} {t : TrackedWire} (hw : s.tracked[w]? = some t) (v : Nat) :
    (s.spend w t).tracked[v]? =
      if v = w then (spendCredit t.credits).map fun left => ⟨t.place, left⟩ else s.tracked[v]? := by
  unfold spend spendCredit
  by_cases hnever : neverFreed t.credits = true
  · rw [if_pos hnever, if_pos hnever]
    by_cases hv : v = w
    · subst hv; rw [if_pos rfl, hw]; rfl
    · rw [if_neg hv]
  · rw [if_neg hnever, if_neg hnever]
    by_cases hlast : t.credits = 1
    · rw [if_pos hlast, if_pos hlast]
      exact getElem?_erase_nat ..
    · rw [if_neg hlast, if_neg hlast]
      exact getElem?_insert_nat ..

theorem spend_eq (s : Leveling) (w : Nat) (t : TrackedWire) :
    s.spend w t = { s with tracked := (s.spend w t).tracked } := by
  unfold spend
  split
  · rfl
  · split <;> rfl

/-- An input is answered with its place when it was produced and is permanent or
still tracked, and then a credit of it is spent. -/
theorem readInput_eq_ok_iff {s s' : Leveling} {input output : Nat} {p : Place} :
    readInput input output s = .ok p s' ↔ input < s.nextWire ∧
      ((input < s.permanent ∧ p = ⟨0, .xor, input⟩ ∧ s' = s) ∨
        (s.permanent ≤ input ∧ ∃ t, s.tracked[input]? = some t ∧ p = t.place ∧ s' = s.spend input t)) := by
  unfold readInput
  by_cases hnext : input ≥ s.nextWire
  · rw [if_pos hnext]
    exact iff_of_false (by simp) fun h => by omega
  rw [if_neg hnext, and_iff_right (Nat.lt_of_not_le hnext)]
  by_cases hperm : input < s.permanent
  · rw [if_pos hperm]
    constructor
    · intro h
      cases h
      exact .inl ⟨hperm, rfl, rfl⟩
    · rintro (⟨-, rfl, rfl⟩ | ⟨hge, -⟩)
      · rfl
      · omega
  rw [if_neg hperm]
  cases htracked : s.tracked[input]? with
  | none => exact iff_of_false (by simp) (by simp [hperm])
  | some t =>
    constructor
    · intro h
      cases h
      exact .inr ⟨Nat.le_of_not_lt hperm, t, rfl, rfl, rfl⟩
    · rintro (⟨hlt, -⟩ | ⟨-, t', ht', rfl, rfl⟩)
      · exact absurd hlt hperm
      · cases ht'
        rfl

theorem readInput_keeps {s s' : Leveling} {input output : Nat} {p : Place} (h : readInput input output s = .ok p s') :
    input < s.nextWire ∧ s' = { s with tracked := s'.tracked } := by
  obtain ⟨hlt, ⟨-, -, rfl⟩ | ⟨-, t, -, -, rfl⟩⟩ := readInput_eq_ok_iff.1 h
  · exact ⟨hlt, rfl⟩
  · exact ⟨hlt, spend_eq ..⟩

theorem readInput_of_error {s s' : Leveling} {input output : Nat} {fault : Fault}
    (h : readInput input output s = .error fault s') : s' = s := by
  unfold readInput at h
  split at h
  · cases h
    rfl
  split at h
  · cases h
  split at h
  · cases h
    rfl
  · cases h

theorem readInput_cases (s : Leveling) (input output : Nat) :
    (∃ p s', readInput input output s = .ok p s') ∨ ∃ fault, readInput input output s = .error fault s := by
  cases h : readInput input output s with
  | ok p s' => exact .inl ⟨p, s', rfl⟩
  | error fault s' =>
    obtain rfl := readInput_of_error h
    exact .inr ⟨fault, rfl⟩

theorem addGate_of_open (hopen : s.closed = false) (type : GateType) (input1 input2 credits : Nat) :
    addGate type input1 input2 credits s =
      if credits > maxCredits then .error (.creditsTooLarge s.nextWire credits) s
      else (readInput input1 s.nextWire >>= fun place1 =>
        readInput input2 s.nextWire >>= fun place2 =>
          place type ⟨input1, input2, place1, place2, s.nextWire, credits⟩) s := by
  unfold addGate
  rw [Action.get_bind]
  dsimp only
  rw [hopen, if_neg Bool.false_ne_true]
  split <;> rfl

/-- **All that adding a gate can do**: it reads both inputs and places the gate, or
it is refused, either when only its first input has been read or with nothing
changed. -/
theorem addGate_reads (type : GateType) (input1 input2 credits : Nat) (s : Leveling) :
    (s.closed = false ∧ credits ≤ maxCredits ∧ ∃ p1 s1 p2 s2, readInput input1 s.nextWire s = .ok p1 s1 ∧
      readInput input2 s.nextWire s1 = .ok p2 s2 ∧
      addGate type input1 input2 credits s = place type ⟨input1, input2, p1, p2, s.nextWire, credits⟩ s2) ∨
    (∃ p1 s1 fault, readInput input1 s.nextWire s = .ok p1 s1 ∧ readInput input2 s.nextWire s1 = .error fault s1 ∧
      addGate type input1 input2 credits s = .error fault s1) ∨
    ∃ fault, addGate type input1 input2 credits s = .error fault s := by
  by_cases hclosed : s.closed = true
  · refine .inr (.inr ⟨.levelingClosed, ?_⟩)
    unfold addGate
    rw [Action.get_bind]
    dsimp only
    rw [if_pos hclosed]
    rfl
  rw [Bool.not_eq_true] at hclosed
  rw [addGate_of_open hclosed]
  by_cases hcredits : credits > maxCredits
  · rw [if_pos hcredits]
    exact .inr (.inr ⟨_, rfl⟩)
  rw [if_neg hcredits]
  rcases readInput_cases s input1 s.nextWire with ⟨p1, s1, h1⟩ | ⟨fault, h1⟩
  swap
  · exact .inr (.inr ⟨fault, Action.bind_of_error h1⟩)
  rw [Action.bind_of_ok h1]
  rcases readInput_cases s1 input2 s.nextWire with ⟨p2, s2, h2⟩ | ⟨fault, h2⟩
  swap
  · exact .inr (.inl ⟨p1, s1, fault, h1, h2, Action.bind_of_error h2⟩)
  exact .inl ⟨hclosed, by omega, p1, s1, p2, s2, h1, h2, Action.bind_of_ok h2⟩

/-- A gate that is added reads wires that were produced and makes the next one,
and no level is handed out; one that is refused changes nothing but the table. -/
theorem addGate_steps (type : GateType) (input1 input2 credits : Nat) (s : Leveling) :
    (∃ pl s', addGate type input1 input2 credits s = .ok pl s' ∧ input1 < s.nextWire ∧ input2 < s.nextWire ∧
      credits ≤ maxCredits ∧ s'.nextWire = wrap (s.nextWire + 1) ∧ s'.taken = s.taken ∧ s'.permanent = s.permanent) ∨
    ∃ fault s', addGate type input1 input2 credits s = .error fault s' ∧ s' = { s with tracked := s'.tracked } := by
  rcases addGate_reads type input1 input2 credits s with
    ⟨-, hcredits, p1, s1, p2, s2, h1, h2, hadd⟩ | ⟨p1, s1, fault, h1, -, hadd⟩ | ⟨fault, hadd⟩
  · obtain ⟨hlt1, hs1⟩ := readInput_keeps h1
    obtain ⟨hlt2, hs2⟩ := readInput_keeps h2
    rw [hs1] at hlt2 hs2
    refine .inl ⟨_, _, hadd, hlt1, hlt2, hcredits, ?_, ?_, ?_⟩
    · show wrap (s2.nextWire + 1) = _
      rw [hs2]
    · show s2.taken = _
      rw [hs2]
    · show s2.permanent = _
      rw [hs2]
  · exact .inr ⟨fault, s1, hadd, (readInput_keeps h1).2⟩
  · exact .inr ⟨fault, s, hadd, rfl⟩

theorem readInput_of_readable (h : Placed c credits k read s) (hroom : c.permanent + k < wordSize)
    (hmax : ∀ v ∈ c.made k, credits v ≤ maxCredits) {w : Nat} (hw : w < c.permanent + k)
    (hleft : w ∈ c.made k → (ledger credits (c.made k) read w).isSome = true) (output : Nat) :
    ∃ s', readInput w output s = .ok (c.place w) s' ∧ Placed c credits k (read ++ [w]) s' := by
  have hnext : ¬ w ≥ s.nextWire := by rw [h.nextWire, wrap_of_lt hroom]; omega
  unfold readInput
  rw [if_neg hnext, h.permanent]
  by_cases hperm : w < c.permanent
  · rw [if_pos hperm, Circuit.place_of_permanent hperm]
    have hnot : w ∉ c.made k := fun hm => by have := Circuit.mem_made.1 hm; omega
    exact ⟨s, rfl, { h with tracked := by rw [ledger_read_of_not_mem hnot]; exact h.tracked }⟩
  · have hmade : w ∈ c.made k := Circuit.mem_made.2 ⟨by omega, hw⟩
    obtain ⟨left, hl⟩ := Option.isSome_iff_exists.1 (hleft hmade)
    have hlook : s.tracked[w]? = some ⟨c.place w, left⟩ := by rw [h.tracked, hl]; rfl
    rw [if_neg hperm, hlook]
    refine ⟨_, rfl, ?_⟩
    have hspent := tracked_spend hlook
    rw [spend_eq]
    refine { h with tracked := fun v => ?_ }
    rw [hspent v, ledger_read hmax]
    by_cases hv : v = w
    · subst hv; rw [if_pos rfl, if_pos rfl, hl]; rfl
    · rw [if_neg hv, if_neg hv, h.tracked]

theorem readInput_of_spent (h : Placed c credits k read s) (hroom : c.permanent + k < wordSize)
    {w : Nat} (hw : w ∈ c.made k) (hnone : ledger credits (c.made k) read w = none) (output : Nat) :
    readInput w output s = .error (.creditsSpent output w) s := by
  obtain ⟨hge, hlt⟩ := Circuit.mem_made.1 hw
  have hnext : ¬ w ≥ s.nextWire := by rw [h.nextWire, wrap_of_lt hroom]; omega
  have hlook : s.tracked[w]? = none := by rw [h.tracked, hnone]; rfl
  unfold readInput
  rw [if_neg hnext, if_neg (by rw [h.permanent]; omega), hlook]

/-- **All that reading an input can do** after the first `k` gates. Of a wire
that they produced, it fails when no credit is left. -/
theorem Placed.readInput_cases (h : Placed c credits k read s) (hroom : c.permanent + k < wordSize)
    (hmax : ∀ v ∈ c.made k, credits v ≤ maxCredits) (w output : Nat) :
    (w < c.permanent + k ∧ (w ∈ c.made k → (ledger credits (c.made k) read w).isSome = true) ∧
      ∃ s', readInput w output s = .ok (c.place w) s' ∧ Placed c credits k (read ++ [w]) s') ∨
    ∃ fault, readInput w output s = .error fault s ∧
      (w < c.permanent + k → ¬ (w ∈ c.made k → (ledger credits (c.made k) read w).isSome = true) ∧
        fault.kind = .creditUnderflow) := by
  by_cases hw : w < c.permanent + k
  swap
  · refine .inr ⟨.readsUnproduced output w, ?_, fun hlt => absurd hlt hw⟩
    rw [readInput, if_pos (by rw [h.nextWire, wrap_of_lt hroom]; omega)]
  by_cases hleft : w ∈ c.made k → (ledger credits (c.made k) read w).isSome = true
  · exact .inl ⟨hw, hleft, readInput_of_readable h hroom hmax hw hleft output⟩
  · have hspent := Classical.not_imp.1 hleft
    rw [Bool.not_eq_true, Option.isSome_eq_false_iff, Option.isNone_iff_eq_none] at hspent
    exact .inr ⟨_, readInput_of_spent h hroom hspent.1 hspent.2 output, fun _ => ⟨hleft, rfl⟩⟩

/-- Both inputs of a gate are read when that is affordable. Otherwise one of them
has no credit left, which may be because the first has spent it. -/
theorem Placed.readInputs_cases {α : Type} (h : Placed c credits k read s) (hroom : c.permanent + k < wordSize)
    (hafford : Affordable credits (c.made k) read) {g : Gate}
    (hproduced : g.input1 < c.permanent + k ∧ g.input2 < c.permanent + k) (output : Nat)
    (next : Place → Place → Action Leveling α) :
    (Affordable credits (c.made k) (read ++ [g.input1] ++ [g.input2]) ∧ ∃ s',
      Placed c credits k (read ++ [g.input1] ++ [g.input2]) s' ∧
      (readInput g.input1 output >>= fun p1 => readInput g.input2 output >>= fun p2 => next p1 p2) s =
        next (c.place g.input1) (c.place g.input2) s') ∨
    (¬ Affordable credits (c.made k) (read ++ [g.input1] ++ [g.input2]) ∧ ∃ fault s',
      (readInput g.input1 output >>= fun p1 => readInput g.input2 output >>= fun p2 => next p1 p2) s =
        .error fault s' ∧ fault.kind = .creditUnderflow) := by
  rw [affordable_read_iff, affordable_read_iff]
  rcases h.readInput_cases hroom hafford.max g.input1 output with
    ⟨-, h1, s1, hread1, hs1⟩ | ⟨fault, herror, hspent⟩
  swap
  · obtain ⟨hnone, hkind⟩ := hspent hproduced.1
    exact .inr ⟨fun hall => hnone hall.1.2, fault, s, Action.bind_of_error herror, hkind⟩
  rw [Action.bind_of_ok hread1]
  rcases hs1.readInput_cases hroom hafford.max g.input2 output with
    ⟨-, h2, s2, hread2, hs2⟩ | ⟨fault, herror, hspent⟩
  swap
  · obtain ⟨hnone, hkind⟩ := hspent hproduced.2
    exact .inr ⟨fun hall => hnone hall.2, fault, s1, Action.bind_of_error herror, hkind⟩
  exact .inl ⟨⟨⟨hafford, h1⟩, h2⟩, s2, hs2, Action.bind_of_ok hread2⟩

/-! ## Placing -/

theorem OpenLevel.toList_sublist_add (l : OpenLevel) (type type' : GateType) (gate : PlacedGate) :
    ((l.add type gate).sublist type').toList =
      if type = type' then (l.sublist type').toList ++ [gate] else (l.sublist type').toList := by
  cases type <;> cases type' <;> simp [OpenLevel.add, OpenLevel.sublist]

theorem size_openLevel {levels : Array OpenLevel} {level : Nat} (hle : level ≤ levels.size + 1) :
    (openLevel levels level).size = max levels.size level := by
  unfold openLevel
  split
  · rw [Array.size_push]; omega
  · omega

theorem getD_openLevel (levels : Array OpenLevel) (level i : Nat) :
    (openLevel levels level).getD i OpenLevel.empty = levels.getD i OpenLevel.empty := by
  unfold openLevel
  split
  · simp only [Array.getD_eq_getD_getElem?, Array.getElem?_push]
    split
    · rename_i hi; subst hi; simp
    · rfl
  · rfl

theorem getD_modify_openLevel {levels : Array OpenLevel} {level i : Nat} (hpos : 0 < level)
    (hle : level ≤ levels.size + 1) (f : OpenLevel → OpenLevel) :
    ((openLevel levels level).modify (level - 1) f).getD i OpenLevel.empty =
      if i + 1 = level then f (levels.getD i OpenLevel.empty) else levels.getD i OpenLevel.empty := by
  rw [Array.getD_eq_getD_getElem?, Array.getElem?_modify]
  by_cases hi : i + 1 = level
  · have hin : i < (openLevel levels level).size := by rw [size_openLevel hle]; omega
    rw [if_pos (by omega), if_pos hi, ← getD_openLevel levels level, Array.getD_eq_getD_getElem?,
      Array.getElem?_eq_getElem hin]
    rfl
  · rw [if_neg (by omega), if_neg hi, ← getD_openLevel levels level, Array.getD_eq_getD_getElem?]

namespace Counted

variable {levels : Array OpenLevel} {counts : Array Nat}

theorem opened (h : Counted levels counts) (level : Nat) : Counted (openLevel levels level) (openCount counts level) := by
  have hsize := h.size
  refine ⟨?size, fun i => ?xors⟩
  case size =>
    unfold openLevel openCount
    by_cases hnew : level > levels.size
    · rw [if_pos hnew, if_pos (by omega), Array.size_push, Array.size_push, hsize]
    · rw [if_neg hnew, if_neg (by omega), hsize]
  case xors =>
    rw [getD_openLevel, ← h.xors]
    unfold openCount
    split
    · rw [Array.getD_eq_getD_getElem?, Array.getD_eq_getD_getElem?, Array.getElem?_push]
      split
      · rename_i hi
        rw [hi, Array.getElem?_eq_none le_rfl]
        rfl
      · rfl
    · rfl

/-- **The counter of a level counts its XOR gates.** -/
theorem add (h : Counted levels counts) {level : Nat} (hpos : 0 < level) (type : GateType) (gate : PlacedGate) :
    Counted (levels.modify (level - 1) (·.add type gate)) (countGate counts level type) := by
  have hsize := h.size
  refine ⟨?size, fun i => ?xors⟩
  case size => cases type <;> simp [countGate, hsize]
  case xors =>
    have hi := h.xors i
    rw [Array.getD_eq_getD_getElem?, Array.getD_eq_getD_getElem?] at hi ⊢
    rw [Array.getElem?_modify]
    by_cases hlevel : level - 1 = i
    · have hadd : ∀ l : OpenLevel, (l.add type gate).xors.size = l.xors.size + if type = .xor then 1 else 0 := by
        intro l
        cases type <;> simp [OpenLevel.add]
      rw [if_pos hlevel]
      rcases Nat.lt_or_ge i levels.size with hin | hout
      · rw [Array.getElem?_eq_getElem hin, Array.getElem?_eq_getElem (by omega), Option.getD_some, Option.getD_some] at hi
        rw [Array.getElem?_eq_getElem hin, Option.map_some, Option.getD_some, hadd, ← hi]
        cases type <;> simp [countGate, Array.getElem_modify, show level = i + 1 by omega, hsize, hin]
      · rw [Array.getElem?_eq_none hout]
        cases type <;> simp [countGate, OpenLevel.empty, hsize, hout]
    · rw [if_neg hlevel, ← hi]
      cases type <;> simp [countGate, Array.getElem?_modify, show level ≠ i + 1 by omega]

end Counted

theorem Placed.depth_le_size (h : Placed c credits k read s) {w : Nat} (hw : w < c.permanent + k) :
    c.depth w ≤ s.levels.size := by
  rcases Nat.lt_or_ge w c.permanent with hperm | hgate
  · rw [Circuit.depth_of_permanent hperm]
    exact Nat.zero_le _
  · obtain ⟨i, rfl⟩ := Nat.exists_eq_add_of_le hgate
    exact h.depth_le i (by omega)

theorem Placed.size_sublist (h : Placed c credits k read s) (hpos : 0 < c.gateDepth k) :
    ((s.levels.getD (c.gateDepth k - 1) OpenLevel.empty).sublist (c.gateAt k).type).size =
      (c.gatesAt k (c.gateDepth k) (c.gateAt k).type).length := by
  have hsub := congrArg List.length (h.sublist (c.gateDepth k - 1) (c.gateAt k).type)
  rwa [List.length_map, Nat.sub_add_cancel hpos] at hsub

theorem place_placed (hv : c.Valid) (h : Placed c credits k read s) (hk : k < c.gates.length)
    (hread : c.permanent + k ∉ read) :
    ∃ pl s', place (c.gateAt k).type (c.placedGate credits k) s = .ok pl s' ∧
      Placed c credits (k + 1) read s' := by
  have hg := Circuit.getElem?_gates hk
  have hord := hv.ordered k _ hg
  have hroom : c.permanent + k < wordSize := by have := hv.room; omega
  have hlevel : max (c.placedGate credits k).input1.level (c.placedGate credits k).input2.level + 1 =
      c.gateDepth k := by
    rw [Circuit.gateDepth, Circuit.depth_gate hv hg]
    simp only [Circuit.placedGate, Circuit.level_place]
  -- a gate lands at most one level above those that are there, because its inputs do
  have hle : c.gateDepth k ≤ s.levels.size + 1 := by
    rw [Circuit.gateDepth, Circuit.depth_gate hv hg]
    exact Nat.succ_le_succ (max_le (h.depth_le_size hord.1) (h.depth_le_size hord.2))
  have hpos : 0 < c.gateDepth k := Circuit.depth_gate_pos hv hk
  unfold place
  simp only [hlevel, getD_openLevel]
  refine ⟨_, _, rfl, ?_⟩
  have hplace : (⟨c.gateDepth k, (c.gateAt k).type,
      ((s.levels.getD (c.gateDepth k - 1) OpenLevel.empty).sublist (c.gateAt k).type).size⟩ : Place) =
        c.place (c.permanent + k) := by
    rw [Circuit.place_gate, h.size_sublist hpos]
  refine ⟨h.permanent, ?_, h.closed, fun w => ?_, fun level type => ?_, fun i hi => ?_, fun level hlevel => ?_,
    (h.counted.opened _).add hpos _ _⟩
  · show wrap (s.nextWire + 1) = _
    rw [h.nextWire, wrap_of_lt hroom, Nat.add_assoc]
  · show (s.tracked.insert (c.permanent + k) _)[w]? = _
    rw [getElem?_insert_nat, hplace, Circuit.made_succ, ledger_make hread]
    by_cases hw : w = c.permanent + k
    · subst hw; rw [if_pos rfl, if_pos rfl]; rfl
    · rw [if_neg hw, if_neg hw, h.tracked]
  · dsimp only
    rw [getD_modify_openLevel hpos hle, Circuit.gatesAt_succ]
    by_cases hl : level + 1 = c.gateDepth k
    · rw [if_pos hl, OpenLevel.toList_sublist_add, h.sublist]
      by_cases ht : (c.gateAt k).type = type
      · rw [if_pos ht, if_pos ⟨hl.symm, ht⟩, List.map_append]
        rfl
      · rw [if_neg ht, if_neg fun hh => ht hh.2]
    · rw [if_neg hl, if_neg fun hh => hl hh.1.symm, h.sublist]
  · dsimp only
    rw [Array.size_modify, size_openLevel hle]
    rcases Nat.lt_succ_iff_lt_or_eq.1 hi with hlt | rfl
    · exact le_max_of_le_left (h.depth_le i hlt)
    · exact le_max_right _ _
  · dsimp only at hlevel
    rw [Array.size_modify, size_openLevel hle] at hlevel
    by_cases hold : level < s.levels.size
    · obtain ⟨i, hi, hd⟩ := h.occupied level hold
      exact ⟨i, by omega, hd⟩
    · exact ⟨k, by omega, by omega⟩

/-! ## Adding gates -/

/-- A fault that says that credits do not add up. -/
def IsCreditFault (fault : Fault) : Prop :=
  fault.kind = .creditOverflow ∨ fault.kind = .creditUnderflow

theorem addGate_cases (hv : c.Valid) (h : Placed c credits k (c.readBy k) s) (hk : k < c.gates.length)
    (hafford : Affordable credits (c.made k) (c.readBy k)) :
    (Affordable credits (c.made (k + 1)) (c.readBy (k + 1)) ∧ ∃ pl s',
      addGate (c.gateAt k).type (c.gateAt k).input1 (c.gateAt k).input2 (credits (c.permanent + k)) s =
        .ok pl s' ∧ Placed c credits (k + 1) (c.readBy (k + 1)) s') ∨
    (¬ Affordable credits (c.made (k + 1)) (c.readBy (k + 1)) ∧ ∃ fault s',
      addGate (c.gateAt k).type (c.gateAt k).input1 (c.gateAt k).input2 (credits (c.permanent + k)) s =
        .error fault s' ∧ IsCreditFault fault) := by
  have hg := Circuit.getElem?_gates hk
  have hord := hv.ordered k _ hg
  have hroom : c.permanent + k < wordSize := by have := hv.room; omega
  have hnext : s.nextWire = c.permanent + k := by rw [h.nextWire, wrap_of_lt hroom]
  -- the output of the gate is not among the wires read so far, itself included
  have hfresh : c.permanent + k ∉ c.readBy (k + 1) := by
    intro hmem
    rw [Circuit.readBy_succ hg, List.mem_append, List.mem_append, List.mem_singleton, List.mem_singleton] at hmem
    rcases hmem with (hmem | hmem) | hmem
    · have := hv.lt_of_mem_readBy hmem; omega
    · omega
    · omega
  rw [Circuit.made_succ, affordable_make_iff hfresh, Circuit.readBy_succ hg, addGate_of_open h.closed, hnext]
  by_cases hcredits : credits (c.permanent + k) ≤ maxCredits
  swap
  · rw [if_pos (by omega)]
    exact .inr ⟨fun hall => hcredits hall.2, _, _, rfl, .inl rfl⟩
  rw [if_neg (by omega)]
  rcases h.readInputs_cases hroom hafford hord (c.permanent + k) _ with
    ⟨hreads, s2, hs2, hboth⟩ | ⟨hnot, fault, s', herror, hkind⟩
  swap
  · exact .inr ⟨fun hall => hnot hall.1, fault, s', herror, .inr hkind⟩
  rw [Circuit.readBy_succ hg] at hfresh
  obtain ⟨pl, s', hplace, hs'⟩ := place_placed hv hs2 hk hfresh
  exact .inl ⟨⟨hreads, hcredits⟩, pl, s', hboth.trans hplace, hs'⟩

/-! ## The whole circuit -/

theorem addGates_nil (table : CreditTable) (s : Leveling) : addGates table [] s = .ok () s := rfl

theorem addGates_cons (table : CreditTable) (g : Gate) (rest : List Gate) :
    addGates table (g :: rest) s =
      (addGate g.type g.input1 g.input2 (table.getD s.nextWire 0) >>= fun _ => addGates table rest) s := by
  have hcons : addGates table (g :: rest) = ((get >>= fun s : Leveling =>
      addGate g.type g.input1 g.input2 (table.getD s.nextWire 0) >>= fun _ => pure ()) >>=
        fun _ => addGates table rest) := rfl
  rw [hcons, bind_assoc, Action.get_bind, bind_assoc]
  rfl

/-- **Leveling a valid circuit succeeds exactly when its credits are
affordable**; otherwise it ends with a fault of credits. -/
theorem addGates_cases (hv : c.Valid) (table : CreditTable) :
    (c.Affords (table.getD · 0) ∧ ∃ s,
      addGates table c.gates (ofInputs c.inputs) = .ok () s ∧
        Placed c (table.getD · 0) c.gates.length (c.gates.flatMap Gate.reads) s) ∨
    (¬ c.Affords (table.getD · 0) ∧ ∃ fault s,
      addGates table c.gates (ofInputs c.inputs) = .error fault s ∧ IsCreditFault fault) := by
  let credits : Nat → Nat := (table.getD · 0)
  suffices hsuffix : ∀ m k s, k + m = c.gates.length → Placed c credits k (c.readBy k) s →
      Affordable credits (c.made k) (c.readBy k) →
      (Affordable credits (c.made c.gates.length) (c.readBy c.gates.length) ∧ ∃ s',
        addGates table (c.gates.drop k) s = .ok () s' ∧
          Placed c credits c.gates.length (c.readBy c.gates.length) s') ∨
      (¬ Affordable credits (c.made c.gates.length) (c.readBy c.gates.length) ∧ ∃ fault s',
        addGates table (c.gates.drop k) s = .error fault s' ∧ IsCreditFault fault) by
    have hstart := hsuffix c.gates.length 0 (ofInputs c.inputs) (by omega) (placed_ofInputs c credits)
      (fun w hw => by simp [Circuit.made] at hw)
    rwa [List.drop_zero, Circuit.readBy_length] at hstart
  -- the number of gates left; every one of them is one step
  intro m
  induction m with
  | zero =>
    intro k s hkm h hafford
    obtain rfl : k = c.gates.length := hkm
    rw [List.drop_length]
    exact .inl ⟨hafford, s, rfl, h⟩
  | succ m ih =>
    intro k s hkm h hafford
    have hk : k < c.gates.length := by omega
    have hnext : s.nextWire = c.permanent + k := by
      rw [h.nextWire, wrap_of_lt (by have := hv.room; omega)]
    have hdrop : c.gates.drop k = c.gateAt k :: c.gates.drop (k + 1) := by
      rw [List.drop_eq_getElem_cons hk, Circuit.gateAt_eq (List.getElem?_eq_getElem hk)]
    rw [hdrop, addGates_cons, hnext]
    rcases addGate_cases hv h hk hafford with ⟨hmore, pl, s', hadd, hs'⟩ | ⟨hnot, fault, s', hadd, hfault⟩
    · rw [Action.bind_of_ok hadd]
      exact ih (k + 1) s' (by omega) hs' hmore
    · exact .inr ⟨fun hall => hnot (Circuit.affordable_of_le hk hall), fault, s', Action.bind_of_error hadd, hfault⟩

/-! ## Handing out -/

/-- A place is located as the finished levels have it. -/
theorem Placed.locate_place (h : Placed c credits c.gates.length read s) (hv : c.Valid) {w : Nat}
    (hw : w < c.permanent + c.gates.length) : s.close.locate (c.place w) = c.locationOf w := by
  unfold locate Circuit.locationOf
  dsimp only
  cases htype : (c.place w).type with
  | xor => rfl
  | and =>
    -- permanent wires are placed as XOR gates, so `w` comes from a gate
    have hge : ¬ w < c.permanent := fun hp => by rw [Circuit.place_of_permanent hp] at htype; cases htype
    have hpos : 0 < (c.place w).level := by
      rw [Circuit.level_place]
      have := Circuit.depth_gate_pos hv (i := w - c.permanent) (by omega)
      rwa [Nat.add_sub_cancel' (by omega)] at this
    have hxors := congrArg List.length (h.sublist ((c.place w).level - 1) .xor)
    have hcount := h.counted.xors ((c.place w).level - 1)
    rw [Nat.sub_add_cancel hpos] at hcount
    rw [List.length_map, Nat.sub_add_cancel hpos] at hxors
    exact congrArg (Location.mk _ <| · + _) (hcount.trans hxors)

theorem Placed.size_levels (h : Placed c credits c.gates.length read s) : s.levels.size = c.height := by
  refine le_antisymm ?_ (Finset.sup_le fun i hi => h.depth_le i (Finset.mem_range.1 hi))
  rcases Nat.eq_zero_or_pos s.levels.size with hzero | hpos
  · omega
  · obtain ⟨i, hi, hd⟩ := h.occupied (s.levels.size - 1) (by omega)
    have := Circuit.gateDepth_le_height hi
    omega

/-- **Leveling finds the levels of the circuit.** -/
theorem Placed.allLevels_eq (h : Placed c credits c.gates.length read s) (hv : c.Valid) :
    s.close.allLevels = c.leveledLevels credits := by
  have hgate : ∀ i < c.gates.length, s.close.locateGate (c.placedGate credits i) = c.leveledGate credits i := by
    intro i hi
    have hord := hv.ordered i _ (Circuit.getElem?_gates hi)
    simp only [locateGate, Circuit.placedGate, Circuit.leveledGate, LeveledGate.mk.injEq, true_and, and_true]
    exact ⟨h.locate_place hv (by omega), h.locate_place hv (by omega)⟩
  have hsub : ∀ level type, (((s.levels.getD level OpenLevel.empty).sublist type).toList.map s.close.locateGate) =
      (c.gatesAt c.gates.length (level + 1) type).map (c.leveledGate credits) := by
    intro level type
    rw [h.sublist, List.map_map]
    exact List.map_congr_left fun i hi => hgate i (Circuit.mem_gatesAt.1 hi).1
  apply List.ext_getElem
  · simp [allLevels, close, Circuit.leveledLevels, h.size_levels]
  · intro i hi hi'
    have hin : i < s.levels.size := by simpa [allLevels, close] using hi
    have hget : s.levels.getD i OpenLevel.empty = s.levels[i] := by
      rw [Array.getD_eq_getD_getElem?, Array.getElem?_eq_getElem hin, Option.getD_some]
    have hx := hsub i .xor
    have ha := hsub i .and
    rw [hget] at hx ha
    simp only [allLevels, List.getElem_mapIdx, Circuit.leveledLevels, List.getElem_map, List.getElem_range,
      levelAt, Circuit.leveledLevel, Level.mk.injEq, true_and]
    exact ⟨hx, ha⟩

end Leveling

end GatePlan
