/-
The levels of a circuit, in closed form. Level `L` holds the gates whose
outputs have depth `L`, its XOR gates before its AND gates and each of the two
sublists in production order (`gatesAt`). The location of a wire is its depth
and the number of gates before it in that order.

Nothing here mentions how levels are found; `GatePlan.Proofs.Leveling` proves
that leveling finds these. The locations name their wires: the gate at the
index of a location produces the wire (`levelGates_getElem?_locationOf`).
-/
import GatePlan.Proofs.Graph
import GatePlan.Leveling

namespace GatePlan.Circuit

/-! ## Gates by number -/

/-- The gate with the given number. -/
def gateAt (c : Circuit) (i : Nat) : Gate := c.gates.getD i default

theorem gateAt_eq {c : Circuit} {i : Nat} {g : Gate} (hg : c.gates[i]? = some g) : c.gateAt i = g := by
  rw [gateAt, List.getD_eq_getElem?_getD, hg, Option.getD_some]

theorem getElem?_gates {c : Circuit} {i : Nat} (hi : i < c.gates.length) : c.gates[i]? = some (c.gateAt i) := by
  rw [gateAt_eq (List.getElem?_eq_getElem hi), List.getElem?_eq_getElem hi]

/-- The depth of the output of a gate. -/
def gateDepth (c : Circuit) (i : Nat) : Nat := c.depth (c.permanent + i)

/-- The depth of the deepest gate. -/
def height (c : Circuit) : Nat := (Finset.range c.gates.length).sup c.gateDepth

theorem gateDepth_le_height {c : Circuit} {i : Nat} (hi : i < c.gates.length) : c.gateDepth i ≤ c.height :=
  Finset.le_sup (f := c.gateDepth) (Finset.mem_range.2 hi)

theorem map_gateAt (c : Circuit) : (List.range c.gates.length).map c.gateAt = c.gates := by
  refine List.ext_getElem (by simp) fun i _ hi => ?_
  rw [List.getElem_map, List.getElem_range, gateAt_eq (List.getElem?_eq_getElem hi)]

theorem height_eq_depth {c : Circuit} {w : Nat} (hw : w < c.permanent + c.gates.length)
    (hle : ∀ i < c.gates.length, c.gateDepth i ≤ c.depth w) : c.height = c.depth w := by
  refine le_antisymm (Finset.sup_le fun i hi => hle i (Finset.mem_range.1 hi)) ?_
  rcases Nat.lt_or_ge w c.permanent with hperm | hge
  · rw [depth_of_permanent hperm]
    exact Nat.zero_le _
  · obtain ⟨i, rfl⟩ := Nat.exists_eq_add_of_le hge
    exact gateDepth_le_height (Nat.lt_of_add_lt_add_left hw)

/-! ## Sublists of a level -/

/-- The numbers of the gates of one level and type among the first `k` gates. -/
def gatesAt (c : Circuit) (k level : Nat) (type : GateType) : List Nat :=
  (List.range k).filter fun i => c.gateDepth i = level ∧ (c.gateAt i).type = type

@[simp] theorem mem_gatesAt {c : Circuit} {k level : Nat} {type : GateType} {i : Nat} :
    i ∈ c.gatesAt k level type ↔ i < k ∧ c.gateDepth i = level ∧ (c.gateAt i).type = type := by
  simp [gatesAt]

theorem nodup_gatesAt (c : Circuit) (k level : Nat) (type : GateType) : (c.gatesAt k level type).Nodup :=
  List.Nodup.filter _ List.nodup_range

theorem gatesAt_succ (c : Circuit) (k level : Nat) (type : GateType) :
    c.gatesAt (k + 1) level type =
      if c.gateDepth k = level ∧ (c.gateAt k).type = type then c.gatesAt k level type ++ [k]
      else c.gatesAt k level type := by
  rw [gatesAt, List.range_succ, List.filter_append]
  split
  · rename_i h; simp [h, gatesAt]
  · rename_i h; simp [h, gatesAt]

/-- The gate that comes after `i` others of its sublist stands there in the
finished level. -/
theorem getElem?_gatesAt {c : Circuit} {n i : Nat} (hi : i < n) :
    (c.gatesAt n (c.gateDepth i) (c.gateAt i).type)[(c.gatesAt i (c.gateDepth i) (c.gateAt i).type).length]? =
      some i := by
  induction n with
  | zero => omega
  | succ n ih =>
    rw [gatesAt_succ]
    rcases Nat.lt_succ_iff_lt_or_eq.1 hi with hlt | rfl
    · have hthere := ih hlt
      obtain ⟨hpos, -⟩ := List.getElem?_eq_some_iff.1 hthere
      split
      · rw [List.getElem?_append_left hpos, hthere]
      · exact hthere
    · rw [if_pos ⟨rfl, rfl⟩, List.getElem?_concat_length]

/-! ## Places and locations -/

/-- The place of a wire, as the leveling keeps it. -/
def place (c : Circuit) (wire : Nat) : Place :=
  if wire < c.permanent then ⟨0, .xor, wire⟩
  else
    let i := wire - c.permanent
    let type := (c.gateAt i).type
    ⟨c.depth wire, type, (c.gatesAt i (c.depth wire) type).length⟩

theorem place_of_permanent {c : Circuit} {w : Nat} (hw : w < c.permanent) : c.place w = ⟨0, .xor, w⟩ :=
  if_pos hw

theorem place_gate (c : Circuit) (i : Nat) :
    c.place (c.permanent + i) =
      ⟨c.gateDepth i, (c.gateAt i).type, (c.gatesAt i (c.gateDepth i) (c.gateAt i).type).length⟩ := by
  rw [place, if_neg (by omega), Nat.add_sub_cancel_left]
  rfl

@[simp] theorem level_place (c : Circuit) (w : Nat) : (c.place w).level = c.depth w := by
  unfold place
  split
  · rename_i h; rw [depth_of_permanent h]
  · rfl

/-- The location of a wire in the finished levels. -/
def locationOf (c : Circuit) (wire : Nat) : Location :=
  let p := c.place wire
  match p.type with
  | .xor => ⟨p.level, p.position⟩
  | .and => ⟨p.level, (c.gatesAt c.gates.length p.level .xor).length + p.position⟩

theorem locationOf_of_permanent {c : Circuit} {w : Nat} (hw : w < c.permanent) :
    c.locationOf w = ⟨0, w⟩ := by
  rw [locationOf, place_of_permanent hw]

@[simp] theorem level_locationOf (c : Circuit) (w : Nat) : (c.locationOf w).level = c.depth w := by
  rw [← level_place]
  unfold locationOf
  dsimp only
  split <;> rfl

/-! ## Levels -/

/-- A gate as the leveling hands it out, given the credits of every wire. -/
def leveledGate (c : Circuit) (credits : Nat → Nat) (i : Nat) : LeveledGate where
  wire1 := (c.gateAt i).input1
  wire2 := (c.gateAt i).input2
  input1 := c.locationOf (c.gateAt i).input1
  input2 := c.locationOf (c.gateAt i).input2
  output := c.permanent + i
  credits := credits (c.permanent + i)

def leveledLevel (c : Circuit) (credits : Nat → Nat) (id : Nat) : LeveledLevel where
  id := id
  xors := (c.gatesAt c.gates.length id .xor).map (c.leveledGate credits)
  ands := (c.gatesAt c.gates.length id .and).map (c.leveledGate credits)

/-- The levels from the lowest to the highest. -/
def leveledLevels (c : Circuit) (credits : Nat → Nat) : List LeveledLevel :=
  (List.range c.height).map fun i => c.leveledLevel credits (i + 1)

@[simp] theorem length_leveledLevels (c : Circuit) (credits : Nat → Nat) :
    (c.leveledLevels credits).length = c.height := by
  rw [leveledLevels, List.length_map, List.length_range]

/-- The numbers of the gates of a level in the order in which they are run. -/
def levelGates (c : Circuit) (level : Nat) : List Nat :=
  c.gatesAt c.gates.length level .xor ++ c.gatesAt c.gates.length level .and

theorem gates_leveledLevel (c : Circuit) (credits : Nat → Nat) (id : Nat) :
    (c.leveledLevel credits id).gates = (c.levelGates id).map (c.leveledGate credits) := by
  simp [Level.gates, leveledLevel, levelGates]

@[simp] theorem size_leveledLevel (c : Circuit) (credits : Nat → Nat) (id : Nat) :
    (c.leveledLevel credits id).size = (c.levelGates id).length := by
  simp [Level.size, leveledLevel, levelGates]

@[simp] theorem mem_levelGates {c : Circuit} {level i : Nat} :
    i ∈ c.levelGates level ↔ i < c.gates.length ∧ c.gateDepth i = level := by
  rw [levelGates, List.mem_append, mem_gatesAt, mem_gatesAt]
  cases (c.gateAt i).type <;> simp

theorem exists_levelGate_of_le_gateDepth {c : Circuit} (hv : c.Valid) {level : Nat} (hpos : 0 < level) {i : Nat}
    (hi : i < c.gates.length) (hle : level ≤ c.gateDepth i) : ∃ j, j ∈ c.levelGates level := by
  induction i using Nat.strong_induction_on with
  | _ i ih =>
    rcases Nat.eq_or_lt_of_le hle with rfl | hlt
    · exact ⟨i, mem_levelGates.2 ⟨hi, rfl⟩⟩
    -- the deeper input is still deep enough, and so it is the output of a gate
    have hgate := getElem?_gates hi
    have hord := hv.ordered i _ hgate
    obtain ⟨w, hw, hdepth⟩ : ∃ w < c.permanent + i, level ≤ c.depth w := by
      rw [gateDepth, depth_gate hv hgate] at hlt
      rcases le_total (c.depth (c.gateAt i).input1) (c.depth (c.gateAt i).input2) with hle | hle
      · exact ⟨_, hord.2, by omega⟩
      · exact ⟨_, hord.1, by omega⟩
    have hge : c.permanent ≤ w := by
      by_contra hperm
      rw [depth_of_permanent (Nat.lt_of_not_le hperm)] at hdepth
      omega
    obtain ⟨j, rfl⟩ := Nat.exists_eq_add_of_le hge
    exact ih j (by omega) (by omega) hdepth

/-- **No level is empty**, up to the highest. -/
theorem length_levelGates_pos {c : Circuit} (hv : c.Valid) {level : Nat} (hpos : 0 < level) (hle : level ≤ c.height) :
    0 < (c.levelGates level).length := by
  have hsome : (Finset.range c.gates.length).Nonempty := by
    by_contra hnone
    rw [height, Finset.not_nonempty_iff_eq_empty.1 hnone, Finset.sup_empty] at hle
    exact absurd hle (Nat.not_le.2 hpos)
  obtain ⟨i, hi, hheight⟩ := Finset.exists_mem_eq_sup _ hsome c.gateDepth
  obtain ⟨j, hj⟩ := exists_levelGate_of_le_gateDepth hv hpos (Finset.mem_range.1 hi) (hheight ▸ hle)
  exact List.length_pos_of_mem hj

theorem leveledLevel_disjoint {c : Circuit} (hv : c.Valid) (credits : Nat → Nat) (level : Nat) :
    ∀ g ∈ (c.leveledLevel credits level).gates, ∀ g' ∈ (c.leveledLevel credits level).gates,
      g.wire1 ≠ g'.output ∧ g.wire2 ≠ g'.output := by
  have hlt : ∀ i ∈ c.levelGates level, ∀ j ∈ c.levelGates level, ∀ w ∈ (c.gateAt i).reads, w ≠ c.permanent + j := by
    intro i hi j hj w hw heq
    obtain ⟨hi, hdi⟩ := mem_levelGates.1 hi
    have hdj := (mem_levelGates.1 hj).2
    have hdeeper := depth_lt_of_reads hv (getElem?_gates hi) hw
    rw [heq] at hdeeper
    rw [gateDepth] at hdi hdj
    omega
  intro g hg g' hg'
  rw [gates_leveledLevel] at hg hg'
  obtain ⟨i, hi, rfl⟩ := List.mem_map.1 hg
  obtain ⟨j, hj, rfl⟩ := List.mem_map.1 hg'
  exact ⟨hlt i hi j hj _ (by simp [Gate.reads, leveledGate]), hlt i hi j hj _ (by simp [Gate.reads, leveledGate])⟩

theorem nodup_levelGates (c : Circuit) (level : Nat) : (c.levelGates level).Nodup := by
  refine List.Nodup.append (nodup_gatesAt ..) (nodup_gatesAt ..) fun i hx ha => ?_
  have htype := (mem_gatesAt.1 hx).2.2.symm.trans (mem_gatesAt.1 ha).2.2
  cases htype

/-- **A location names its wire**: the gate with that index in that level
produces it. -/
theorem levelGates_getElem?_locationOf {c : Circuit} {i : Nat} (hi : i < c.gates.length) :
    (c.levelGates (c.gateDepth i))[(c.locationOf (c.permanent + i)).index]? = some i := by
  have hthere := getElem?_gatesAt (c := c) hi
  obtain ⟨hpos, -⟩ := List.getElem?_eq_some_iff.1 hthere
  rw [locationOf, place_gate, levelGates]
  cases htype : (c.gateAt i).type with
  | xor =>
    rw [htype] at hthere hpos
    rw [List.getElem?_append_left hpos]
    exact hthere
  | and =>
    rw [htype] at hthere
    rw [List.getElem?_append_right (Nat.le_add_right _ _), Nat.add_sub_cancel_left]
    exact hthere

end GatePlan.Circuit
