/-
Leveling renumbers gates by depth, whatever is offered to it. A gate that is
refused leaves no gate behind, but the credit of an input that was read before
the refusal stays spent, and that can make a later gate fail. So the invariant
is that of `GatePlan.Proofs.Leveling` with more reads than those of the gates
(`Reached.offer_cases`), about the circuit of the gates that will have been
accepted in the end.

`Circuit.LeveledAs` says what the levels of a circuit are without saying how
they are found: as many as the longest path of gates is long, every gate once,
one level above its inputs, and every location names the wire that is read.
-/
import GatePlan.Proofs.Leveling
import Mathlib.Order.Bounds.Defs

namespace GatePlan

/-! ## What levels are -/

namespace Circuit

variable {c : Circuit} {credits : Nat → Nat}

/-- Gates each of which reads what the one before it produces. -/
def DependencyPath (c : Circuit) (path : List Nat) : Prop :=
  (∀ i ∈ path, i < c.gates.length) ∧ path.IsChain fun j i => c.permanent + j ∈ (c.gateAt i).reads

/-- A location names a permanent wire by its number, and any other one by the
gate of its level that produces it. -/
def Locates (c : Circuit) (levels : List LeveledLevel) (p : Location) (wire : Nat) : Prop :=
  (p.level = 0 ∧ p.index = wire ∧ wire < c.permanent) ∨
  ∃ l ∈ levels, l.id = p.level ∧ ∃ g, l.gates[p.index]? = some g ∧ g.output = wire

/-- The levels of a circuit whose gates have the given credits. -/
structure LeveledAs (c : Circuit) (credits : Nat → Nat) (levels : List LeveledLevel) : Prop where
  ids : levels.map (·.id) = List.range' 1 levels.length
  longest : IsGreatest {n | ∃ path, c.DependencyPath path ∧ path.length = n} levels.length
  nonempty : ∀ l ∈ levels, l.gates ≠ []
  once : ∀ i < c.gates.length, ∃! l, l ∈ levels ∧ c.permanent + i ∈ l.gates.map (·.output)
  unchanged : ∀ l ∈ levels, ∀ type g, (type, g) ∈ l.typedGates →
    ∃ i, c.gates[i]? = some ⟨type, g.wire1, g.wire2⟩ ∧ g.output = c.permanent + i ∧ g.credits = credits g.output
  ordered : ∀ l ∈ levels, (l.xors.map (·.output)).Pairwise (· < ·) ∧ (l.ands.map (·.output)).Pairwise (· < ·)
  level : ∀ l ∈ levels, ∀ g ∈ l.gates, l.id = max g.input1.level g.input2.level + 1
  located : ∀ l ∈ levels, ∀ g ∈ l.gates, c.Locates levels g.input1 g.wire1 ∧ c.Locates levels g.input2 g.wire2

theorem mem_leveledLevels {l : LeveledLevel} :
    l ∈ c.leveledLevels credits ↔ ∃ id, 0 < id ∧ id ≤ c.height ∧ l = c.leveledLevel credits id := by
  simp only [leveledLevels, List.mem_map, List.mem_range]
  constructor
  · rintro ⟨i, hi, rfl⟩
    exact ⟨i + 1, by omega, by omega, rfl⟩
  · rintro ⟨id, hpos, hle, rfl⟩
    exact ⟨id - 1, by omega, by rw [Nat.sub_add_cancel hpos]⟩

/-! ### Paths -/

/-- Along a path gates lie deeper and deeper, so it is no longer than the
circuit is high. -/
theorem DependencyPath.length_le (hv : c.Valid) {path : List Nat} (h : c.DependencyPath path) :
    path.length ≤ c.height := by
  obtain ⟨hall, hchain⟩ := h
  have hdeeper : (path.map c.gateDepth).Pairwise (· < ·) := by
    refine List.isChain_iff_pairwise.1 ((List.isChain_map c.gateDepth).2 (hchain.imp_of_mem_imp fun j i _ hi hji => ?_))
    exact depth_lt_of_reads hv (getElem?_gates (hall i hi)) hji
  have hsub : path.map c.gateDepth ⊆ List.range' 1 c.height := by
    intro d hd
    obtain ⟨i, hi, rfl⟩ := List.mem_map.1 hd
    have hpos := depth_gate_pos hv (hall i hi)
    have hle := gateDepth_le_height (hall i hi)
    rw [List.mem_range'_1]
    exact ⟨hpos, by omega⟩
  have hlength := (List.Nodup.subperm (hdeeper.imp Nat.ne_of_lt) hsub).length_le
  rwa [List.length_map, List.length_range'] at hlength

theorem exists_path (hv : c.Valid) {i : Nat} (hi : i < c.gates.length) :
    ∃ path, c.DependencyPath (path ++ [i]) ∧ path.length + 1 = c.gateDepth i := by
  induction i using Nat.strong_induction_on with
  | _ i ih =>
    have hgate := getElem?_gates hi
    have hdepth : c.gateDepth i = max (c.depth (c.gateAt i).input1) (c.depth (c.gateAt i).input2) + 1 :=
      depth_gate hv hgate
    -- the deeper input
    obtain ⟨w, hw, hmax⟩ : ∃ w ∈ (c.gateAt i).reads, c.gateDepth i = c.depth w + 1 := by
      rcases le_total (c.depth (c.gateAt i).input1) (c.depth (c.gateAt i).input2) with hle | hle
      · exact ⟨(c.gateAt i).input2, by simp [Gate.reads], by rw [hdepth, max_eq_right hle]⟩
      · exact ⟨(c.gateAt i).input1, by simp [Gate.reads], by rw [hdepth, max_eq_left hle]⟩
    rcases Nat.lt_or_ge w c.permanent with hperm | hge
    · refine ⟨[], ⟨by simpa using hi, by simp⟩, ?_⟩
      rw [hmax, depth_of_permanent hperm]
      rfl
    · obtain ⟨j, rfl⟩ := Nat.exists_eq_add_of_le hge
      have hlt := hv.lt_of_mem_reads hgate hw
      obtain ⟨path, ⟨hall, hchain⟩, hlength⟩ := ih j (by omega) (by omega)
      refine ⟨path ++ [j], ⟨?_, ?_⟩, ?_⟩
      · intro k hk
        rcases List.mem_append.1 hk with hk | hk
        · exact hall k hk
        · rwa [List.mem_singleton.1 hk]
      · rw [List.isChain_append]
        exact ⟨hchain, by simp, by simpa using hw⟩
      · rw [List.length_append, List.length_singleton, hlength, hmax]
        rfl

theorem isGreatest_height (hv : c.Valid) :
    IsGreatest {n | ∃ path, c.DependencyPath path ∧ path.length = n} c.height := by
  constructor
  · rcases Nat.eq_zero_or_pos c.gates.length with hnone | hsome
    · refine ⟨[], ⟨by simp, by simp⟩, ?_⟩
      rw [height, hnone]
      rfl
    · obtain ⟨i, hi, hheight⟩ := Finset.exists_mem_eq_sup _ (Finset.nonempty_range_iff.2 hsome.ne') c.gateDepth
      obtain ⟨path, hpath, hlength⟩ := exists_path hv (Finset.mem_range.1 hi)
      exact ⟨_, hpath, by rw [List.length_append, List.length_singleton, hlength, height, hheight]⟩
  · intro n hn
    obtain ⟨path, hpath, rfl⟩ := hn
    exact hpath.length_le hv

/-! ### The levels in closed form -/

theorem output_mem_leveledLevel {i id : Nat} :
    c.permanent + i ∈ (c.leveledLevel credits id).gates.map (·.output) ↔ i ∈ c.levelGates id := by
  rw [gates_leveledLevel, List.map_map, List.mem_map]
  constructor
  · rintro ⟨j, hj, h⟩
    obtain rfl : j = i := Nat.add_left_cancel h
    exact hj
  · exact fun hi => ⟨i, hi, rfl⟩

theorem leveledLevel_gateDepth_mem (hv : c.Valid) {i : Nat} (hi : i < c.gates.length) :
    c.leveledLevel credits (c.gateDepth i) ∈ c.leveledLevels credits :=
  mem_leveledLevels.2 ⟨_, depth_gate_pos hv hi, gateDepth_le_height hi, rfl⟩

theorem locates_locationOf (hv : c.Valid) {w : Nat} (hw : w < c.permanent + c.gates.length) :
    c.Locates (c.leveledLevels credits) (c.locationOf w) w := by
  rcases Nat.lt_or_ge w c.permanent with hperm | hge
  · rw [locationOf_of_permanent hperm]
    exact .inl ⟨rfl, rfl, hperm⟩
  · obtain ⟨i, rfl⟩ := Nat.exists_eq_add_of_le hge
    have hi : i < c.gates.length := by omega
    refine .inr ⟨_, leveledLevel_gateDepth_mem hv hi, (level_locationOf ..).symm, c.leveledGate credits i, ?_, rfl⟩
    rw [gates_leveledLevel, List.getElem?_map, levelGates_getElem?_locationOf hi, Option.map_some]

theorem pairwise_output_gatesAt (c : Circuit) (credits : Nat → Nat) (level : Nat) (type : GateType) :
    (((c.gatesAt c.gates.length level type).map (c.leveledGate credits)).map (·.output)).Pairwise (· < ·) := by
  rw [List.map_map, List.pairwise_map]
  exact (List.pairwise_lt_range.filter _).imp fun h => Nat.add_lt_add_left h _

/-- **The levels in closed form are the levels of the circuit.** -/
theorem leveledAs_leveledLevels (hv : c.Valid) (credits : Nat → Nat) :
    c.LeveledAs credits (c.leveledLevels credits) := by
  have hlength := length_leveledLevels c credits
  refine ⟨?ids, hlength ▸ isGreatest_height hv, ?nonempty, fun i hi => ?once, ?unchanged, ?ordered, ?level, ?located⟩
  case ids =>
    rw [hlength, leveledLevels, List.map_map, List.range'_eq_map_range]
    exact List.map_congr_left fun i _ => Nat.add_comm i 1
  case nonempty =>
    intro l hl hnil
    obtain ⟨id, hpos, hle, rfl⟩ := mem_leveledLevels.1 hl
    have := length_levelGates_pos hv hpos hle
    rw [gates_leveledLevel, List.map_eq_nil_iff] at hnil
    rw [hnil] at this
    cases this
  case once =>
    refine ⟨_, ⟨leveledLevel_gateDepth_mem hv hi, output_mem_leveledLevel.2 (mem_levelGates.2 ⟨hi, rfl⟩)⟩, ?_⟩
    intro l h
    obtain ⟨hl, hout⟩ := h
    obtain ⟨id, -, -, rfl⟩ := mem_leveledLevels.1 hl
    rw [(mem_levelGates.1 (output_mem_leveledLevel.1 hout)).2]
  case unchanged =>
    intro l hl type g hg
    obtain ⟨id, -, -, rfl⟩ := mem_leveledLevels.1 hl
    obtain ⟨i, hi, rfl⟩ : ∃ i ∈ c.gatesAt c.gates.length id type, c.leveledGate credits i = g := by
      cases type <;> simpa [Level.typedGates, leveledLevel] using hg
    obtain ⟨hlt, -, htype⟩ := mem_gatesAt.1 hi
    refine ⟨i, ?_, rfl, rfl⟩
    rw [getElem?_gates hlt, ← htype]
    rfl
  case ordered =>
    intro l hl
    obtain ⟨id, -, -, rfl⟩ := mem_leveledLevels.1 hl
    exact ⟨pairwise_output_gatesAt c credits id .xor, pairwise_output_gatesAt c credits id .and⟩
  all_goals
    intro l hl g hg
    obtain ⟨id, -, -, rfl⟩ := mem_leveledLevels.1 hl
    rw [gates_leveledLevel] at hg
    obtain ⟨i, hi, rfl⟩ := List.mem_map.1 hg
    obtain ⟨hlt, rfl⟩ := mem_levelGates.1 hi
    have hgate := getElem?_gates hlt
  case level =>
    simp only [leveledGate, level_locationOf]
    exact depth_gate hv hgate
  case located =>
    have hord := hv.ordered i _ hgate
    exact ⟨locates_locationOf hv (by omega), locates_locationOf hv (by omega)⟩

end Circuit

/-! ## Offers -/

/-- A gate that leveling is asked to add, and the credits of its output. -/
structure Offer where
  gate : Gate
  credits : Nat

namespace Leveling

def offer (o : Offer) : Action Leveling Placement := addGate o.gate.type o.gate.input1 o.gate.input2 o.credits

/-- The state after some offers, those that were refused included. -/
def offerAll (s : Leveling) (offers : List Offer) : Leveling := offers.foldl (fun s o => ((offer o).outcome s).2) s

/-- The offers among these that are accepted. -/
def accepted (s : Leveling) : List Offer → List Offer
  | [] => []
  | o :: offers =>
    match offer o s with
    | .ok _ s' => o :: accepted s' offers
    | .error _ s' => accepted s' offers

theorem accepted_of_ok {s s' : Leveling} {o : Offer} {pl : Placement} (h : offer o s = .ok pl s')
    (offers : List Offer) :
    accepted s (o :: offers) = o :: accepted s' offers ∧ s.offerAll (o :: offers) = s'.offerAll offers := by
  simp [accepted, offerAll, Action.outcome, h]

theorem accepted_of_error {s s' : Leveling} {o : Offer} {fault : Fault} (h : offer o s = .error fault s')
    (offers : List Offer) :
    accepted s (o :: offers) = accepted s' offers ∧ s.offerAll (o :: offers) = s'.offerAll offers := by
  simp [accepted, offerAll, Action.outcome, h]

end Leveling

/-- The circuit of some gates, without outputs. -/
def Circuit.ofOffers (inputs : Nat) (offers : List Offer) : Circuit := ⟨inputs, offers.map (·.gate), []⟩

/-- The credits that the gates of a circuit were offered with. -/
def offeredCredits (c : Circuit) (offers : List Offer) (wire : Nat) : Nat :=
  ((offers[wire - c.permanent]?).map (·.credits)).getD 0

theorem offeredCredits_eq (c : Circuit) {offers : List Offer} {i : Nat} {o : Offer} (ho : offers[i]? = some o) :
    offeredCredits c offers (c.permanent + i) = o.credits := by
  rw [offeredCredits, Nat.add_sub_cancel_left, ho]
  rfl

namespace Leveling

variable {c : Circuit} {credits : Nat → Nat} {k : Nat} {read : List Nat} {s : Leveling}

theorem accepted_ordered {offers : List Offer} (hroom : s.nextWire + (accepted s offers).length ≤ wordSize)
    {i : Nat} {o : Offer} (ho : (accepted s offers)[i]? = some o) :
    (o.gate.input1 < s.nextWire + i ∧ o.gate.input2 < s.nextWire + i) ∧ o.credits ≤ maxCredits := by
  induction offers generalizing s i with
  | nil => simp [accepted] at ho
  | cons first offers ih =>
    rcases addGate_steps first.gate.type first.gate.input1 first.gate.input2 first.credits s with
      ⟨pl, s', hok, h1, h2, hcredits, hnext, -⟩ | ⟨fault, s', herror, hs'⟩
    · rw [(accepted_of_ok hok offers).1] at ho hroom
      cases i with
      | zero =>
        cases ho
        exact ⟨⟨h1, h2⟩, hcredits⟩
      | succ i =>
        rw [List.getElem?_cons_succ] at ho
        have hi := (List.getElem?_eq_some_iff.1 ho).1
        rw [List.length_cons] at hroom
        rw [wrap_of_lt (by omega)] at hnext
        have := ih (by omega) ho
        omega
    · rw [(accepted_of_error herror offers).1] at ho hroom
      have hnext : s'.nextWire = s.nextWire := by rw [hs']
      rw [← hnext] at hroom ⊢
      exact ih hroom ho

theorem taken_offerAll (s : Leveling) (offers : List Offer) : (s.offerAll offers).taken = s.taken := by
  induction offers generalizing s with
  | nil => rfl
  | cons o offers ih =>
    rcases addGate_steps o.gate.type o.gate.input1 o.gate.input2 o.credits s with
      ⟨pl, s', hok, -, -, -, -, htaken, -⟩ | ⟨fault, s', herror, hs'⟩
    · rw [(accepted_of_ok hok offers).2, ih, htaken]
    · rw [(accepted_of_error herror offers).2, ih, hs']

/-- The state after the first `k` gates, and after any reads of wires produced by
then. -/
def Reached (c : Circuit) (credits : Nat → Nat) (k : Nat) (s : Leveling) : Prop :=
  ∃ read, (∀ w ∈ read, w < c.permanent + k) ∧ Placed c credits k read s

/-- An offer that is accepted adds the next gate of the circuit, if that is the
gate offered; one that is refused adds none. -/
theorem Reached.offer_cases (hv : c.Valid) (hroom : c.permanent + c.gates.length < wordSize)
    (hmax : ∀ v ∈ c.made c.gates.length, credits v ≤ maxCredits) (hk : k ≤ c.gates.length) (h : Reached c credits k s)
    (o : Offer) :
    (∃ pl s', offer o s = .ok pl s' ∧
      (c.gates[k]? = some o.gate → credits (c.permanent + k) = o.credits → Reached c credits (k + 1) s')) ∨
    ∃ fault s', offer o s = .error fault s' ∧ Reached c credits k s' := by
  obtain ⟨read, hread, hs⟩ := h
  have hmaxk : ∀ v ∈ c.made k, credits v ≤ maxCredits := by
    intro v hv'
    have := Circuit.mem_made.1 hv'
    exact hmax v (Circuit.mem_made.2 ⟨this.1, by omega⟩)
  have hnext : s.nextWire = c.permanent + k := by rw [hs.nextWire, wrap_of_lt (by omega)]
  rw [offer, addGate_of_open hs.closed, hnext]
  by_cases hcredits : o.credits > maxCredits
  · rw [if_pos hcredits]
    exact .inr ⟨_, s, rfl, read, hread, hs⟩
  rw [if_neg hcredits]
  rcases hs.readInput_cases (by omega) hmaxk o.gate.input1 (c.permanent + k) with
    ⟨hlt1, -, s1, hread1, hs1⟩ | ⟨fault, herror, -⟩
  swap
  · exact .inr ⟨fault, s, Action.bind_of_error herror, read, hread, hs⟩
  have hall1 : ∀ w ∈ read ++ [o.gate.input1], w < c.permanent + k := by
    simpa [or_imp, forall_and] using ⟨hread, hlt1⟩
  rw [Action.bind_of_ok hread1]
  rcases hs1.readInput_cases (by omega) hmaxk o.gate.input2 (c.permanent + k) with
    ⟨hlt2, -, s2, hread2, hs2⟩ | ⟨fault, herror, -⟩
  swap
  -- the first input has been read
  · exact .inr ⟨fault, s1, Action.bind_of_error herror, _, hall1, hs1⟩
  have hall2 : ∀ w ∈ read ++ [o.gate.input1] ++ [o.gate.input2], w < c.permanent + k := by
    simpa [or_imp, forall_and, and_assoc] using ⟨hread, hlt1, hlt2⟩
  rw [Action.bind_of_ok hread2]
  refine .inl ⟨_, _, rfl, fun hgate hoffered => ?_⟩
  obtain ⟨pl, s', hplace, hs'⟩ := place_placed hv hs2 (List.getElem?_eq_some_iff.1 hgate).1
    fun hmem => Nat.lt_irrefl _ (hall2 _ hmem)
  rw [Circuit.placedGate, Circuit.gateAt_eq hgate, hoffered] at hplace
  obtain ⟨-, rfl⟩ := EStateM.Result.ok.inj hplace
  exact ⟨_, fun w hw => (hall2 w hw).trans (Nat.lt_succ_self _), hs'⟩

/-- After all offers, the state is that after the gates which were accepted. -/
theorem Reached.offerAll (hv : c.Valid) (hroom : c.permanent + c.gates.length < wordSize)
    (hmax : ∀ v ∈ c.made c.gates.length, credits v ≤ maxCredits) (hk : k ≤ c.gates.length) (h : Reached c credits k s)
    (offers : List Offer) (hgates : c.gates.drop k = (accepted s offers).map (·.gate))
    (hcredits : ∀ i o, (accepted s offers)[i]? = some o → credits (c.permanent + k + i) = o.credits) :
    Reached c credits c.gates.length (s.offerAll offers) := by
  induction offers generalizing s k with
  | nil =>
    have hlast : c.gates.length ≤ k := List.drop_eq_nil_iff.1 hgates
    rwa [show c.gates.length = k by omega]
  | cons o offers ih =>
    rcases h.offer_cases hv hroom hmax hk o with ⟨pl, s', hok, hs'⟩ | ⟨fault, s', herror, hs'⟩
    · obtain ⟨haccepted, hall⟩ := accepted_of_ok hok offers
      rw [haccepted, List.map_cons] at hgates
      rw [haccepted] at hcredits
      have hgate : c.gates[k]? = some o.gate := by
        rw [← List.head?_drop, hgates, List.head?_cons]
      have hlt := (List.getElem?_eq_some_iff.1 hgate).1
      rw [hall]
      refine ih hlt (hs' hgate (hcredits 0 o rfl)) ?_ fun i o' ho' => ?_
      · rw [← List.tail_drop, hgates, List.tail_cons]
      · rw [← hcredits (i + 1) o' (by rwa [List.getElem?_cons_succ])]
        congr 1
        omega
    · obtain ⟨haccepted, hall⟩ := accepted_of_error herror offers
      rw [haccepted] at hgates hcredits
      rw [hall]
      exact ih hk hs' hgates hcredits

/-! ## Taking levels -/

theorem getElem?_allLevels (s : Leveling) (i : Nat) : s.allLevels[i]? = (s.levels[i]?).map (s.levelAt i) := by
  simp [allLevels]

theorem takeLevel_eq_ok (hclosed : s.closed = true) :
    ∃ t, takeLevel s = .ok (s.allLevels[s.taken]?) t ∧ t.closed = true ∧
      ∀ i, t.allLevels[t.taken + i]? = s.allLevels[s.taken + (i + 1)]? := by
  unfold takeLevel
  rw [if_neg (by simp [hclosed]), getElem?_allLevels]
  cases hnext : s.levels[s.taken]? with
  | none =>
    refine ⟨s, rfl, hclosed, fun i => ?_⟩
    rw [Array.getElem?_eq_none_iff] at hnext
    rw [getElem?_allLevels, getElem?_allLevels, Array.getElem?_eq_none (by omega), Array.getElem?_eq_none (by omega)]
    rfl
  | some l =>
    refine ⟨_, rfl, hclosed, fun i => ?_⟩
    show s.allLevels[s.taken + 1 + i]? = _
    rw [Nat.add_assoc, Nat.add_comm 1 i]

theorem times_takeLevel (hclosed : s.closed = true) (n : Nat) :
    ∃ t, Action.times takeLevel n s = .ok ((List.range n).map fun i => s.allLevels[s.taken + i]?) t := by
  induction n generalizing s with
  | zero => exact ⟨s, rfl⟩
  | succ n ih =>
    rw [Action.times_succ, List.range_succ_eq_map, List.map_cons, List.map_map]
    obtain ⟨t, htake, hclosed', hlater⟩ := takeLevel_eq_ok hclosed
    obtain ⟨u, hrest⟩ := ih hclosed'
    refine ⟨u, (Action.bind_of_ok htake).trans ((Action.bind_of_ok hrest).trans ?_)⟩
    simp only [hlater]
    rfl

end Leveling

/-! ## The accepted gates -/

section Accepted

variable {inputs : Nat} {offers : List Offer}

theorem room_ofOffers (hroom : constantWires + inputs + offers.length < wordSize) :
    (Circuit.ofOffers inputs offers).permanent + (Circuit.ofOffers inputs offers).gates.length < wordSize := by
  have hinputs : constantWires + (Circuit.ofOffers inputs offers).inputs < wordSize :=
    (Nat.le_add_right _ _).trans_lt hroom
  rw [Circuit.permanent_eq hinputs, Circuit.ofOffers, List.length_map]
  exact hroom

theorem valid_accepted
    (hroom : constantWires + inputs + (Leveling.accepted (.ofInputs inputs) offers).length < wordSize) :
    let accepted := Leveling.accepted (.ofInputs inputs) offers
    let c := Circuit.ofOffers inputs accepted
    c.Valid ∧ ∀ v ∈ c.made c.gates.length, offeredCredits c accepted v ≤ maxCredits := by
  intro accepted c
  have hroom' : c.permanent + c.gates.length < wordSize := room_ofOffers hroom
  have hlength : c.gates.length = accepted.length := List.length_map ..
  have hgate : ∀ {i : Nat} {o : Offer}, accepted[i]? = some o →
      (o.gate.input1 < c.permanent + i ∧ o.gate.input2 < c.permanent + i) ∧ o.credits ≤ maxCredits :=
    fun ho => Leveling.accepted_ordered (hlength ▸ hroom'.le) ho
  refine ⟨⟨hroom'.le, fun i g hg => ?_, fun w hw => by cases hw⟩, fun v hv => ?_⟩
  · obtain ⟨o, ho, rfl⟩ := Option.map_eq_some_iff.1 ((List.getElem?_map ..).symm.trans hg)
    exact (hgate ho).1
  · obtain ⟨hge, hlt⟩ := Circuit.mem_made.1 hv
    obtain ⟨i, rfl⟩ := Nat.exists_eq_add_of_le hge
    have ho := List.getElem?_eq_getElem (l := accepted) (i := i) (by omega)
    rw [offeredCredits_eq c ho]
    exact (hgate ho).2

end Accepted

/-- **Leveling sorts the gates that it accepts by depth**, whatever else it was
offered: taking levels hands out those of the circuit of these gates, from the
first to the last, and then none for good. -/
theorem leveling_sorts_by_depth (inputs : Nat) (offers : List Offer)
    (hroom : constantWires + inputs + (Leveling.accepted (.ofInputs inputs) offers).length < wordSize) :
    let accepted := Leveling.accepted (.ofInputs inputs) offers
    let c := Circuit.ofOffers inputs accepted
    ∃ levels, c.LeveledAs (offeredCredits c accepted) levels ∧
      ∀ n, ∃ t, Action.times Leveling.takeLevel n ((Leveling.ofInputs inputs).offerAll offers).close =
        .ok ((List.range n).map (levels[·]?)) t := by
  intro accepted c
  obtain ⟨hv, hmax⟩ : c.Valid ∧ ∀ v ∈ c.made c.gates.length, offeredCredits c accepted v ≤ maxCredits :=
    valid_accepted hroom
  have hstart : Leveling.Reached c (offeredCredits c accepted) 0 (.ofInputs inputs) :=
    ⟨[], by simp, Leveling.placed_ofInputs c _⟩
  obtain ⟨read, -, hend⟩ : Leveling.Reached c (offeredCredits c accepted) c.gates.length _ :=
    hstart.offerAll hv (room_ofOffers hroom) hmax (Nat.zero_le _) offers rfl fun i o ho => offeredCredits_eq c ho
  refine ⟨_, c.leveledAs_leveledLevels hv _, fun n => ?_⟩
  obtain ⟨t, htimes⟩ := Leveling.times_takeLevel (s := ((Leveling.ofInputs inputs).offerAll offers).close) rfl n
  refine ⟨t, htimes.trans ?_⟩
  have htaken : ((Leveling.ofInputs inputs).offerAll offers).close.taken = 0 := Leveling.taken_offerAll _ offers
  simp only [hend.allLevels_eq hv, htaken, Nat.zero_add]

/-- Five offers, of which the third is refused after it has read wire 4; the
fourth gate lands below the second. -/
theorem late_gate_lands_below :
    let offers : List Offer :=
      [⟨⟨.and, 2, 3⟩, 3⟩, ⟨⟨.xor, 4, 2⟩, 0⟩, ⟨⟨.xor, 4, 9⟩, 1⟩, ⟨⟨.xor, 2, 3⟩, 1⟩, ⟨⟨.and, 4, 6⟩, 0⟩]
    let accepted := Leveling.accepted (.ofInputs 2) offers
    let c := Circuit.ofOffers 2 accepted
    accepted.length = 4 ∧ ∃ levels, c.LeveledAs (offeredCredits c accepted) levels ∧
      ∀ n, ∃ t, Action.times Leveling.takeLevel n ((Leveling.ofInputs 2).offerAll offers).close =
        .ok ((List.range n).map (levels[·]?)) t := by
  intro offers
  have hcount : (Leveling.accepted (.ofInputs 2) offers).length = 4 := by decide +kernel
  exact ⟨hcount, leveling_sorts_by_depth 2 offers (by rw [hcount]; decide)⟩

example :
    ((Leveling.ofInputs 2).offerAll
      [⟨⟨.and, 2, 3⟩, 3⟩, ⟨⟨.xor, 4, 2⟩, 0⟩, ⟨⟨.xor, 4, 9⟩, 1⟩, ⟨⟨.xor, 2, 3⟩, 1⟩, ⟨⟨.and, 4, 6⟩, 0⟩]).close.allLevels =
      [⟨1, [⟨2, 3, ⟨0, 2⟩, ⟨0, 3⟩, 6, 1⟩], [⟨2, 3, ⟨0, 2⟩, ⟨0, 3⟩, 4, 3⟩]⟩,
        ⟨2, [⟨4, 2, ⟨1, 1⟩, ⟨0, 2⟩, 5, 0⟩], [⟨4, 6, ⟨1, 1⟩, ⟨1, 0⟩, 7, 0⟩]⟩] := by
  decide +kernel

end GatePlan
