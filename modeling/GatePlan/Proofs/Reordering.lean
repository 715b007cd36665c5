/-
Circuits with the same gates in another order. Gate `i` of the one is gate
`number i` of the other, and the wires are renamed with it (`Circuit.Reordered`).
Depth and value of a wire are those of its gate's equation, so they do not change
(`Reordered.depth_rename`, `Reordered.wireValue_rename`, both by induction on the
wires); nor does how often a wire is read, or whether a level reads it. What is
counted over all gates or all their wires is counted over a permutation of them
(`Reordered.countP_range`, `Reordered.countP_made`), and with that the height of
the circuit, the size of every level, and what a level needs stay the same.
-/
import GatePlan.Proofs.Peak

namespace GatePlan

/-- A gate that reads renamed wires. -/
def Gate.rename (f : Nat → Nat) (g : Gate) : Gate := ⟨g.type, f g.input1, f g.input2⟩

theorem Gate.reads_rename (f : Nat → Nat) (g : Gate) : (g.rename f).reads = g.reads.map f := rfl

namespace Circuit

/-- Induction on the wires of a valid circuit, from the inputs of a gate to its
output. -/
theorem Valid.wire_induction {c : Circuit} (hv : c.Valid) {motive : Nat → Prop}
    (permanent : ∀ w < c.permanent, motive w)
    (gate : ∀ i < c.gates.length, (∀ w ∈ (c.gateAt i).reads, motive w) → motive (c.permanent + i)) {w : Nat}
    (hw : w < c.permanent + c.gates.length) : motive w := by
  induction w using Nat.strong_induction_on with
  | _ w ih =>
    rcases Nat.lt_or_ge w c.permanent with hlow | hge
    · exact permanent w hlow
    · obtain ⟨i, rfl⟩ := Nat.exists_eq_add_of_le hge
      have hi : i < c.gates.length := by omega
      refine gate i hi fun v hread => ?_
      have hlt := hv.lt_of_mem_reads (getElem?_gates hi) hread
      exact ih v hlt (by omega)

/-! ## Another order -/

/-- The number of a wire when gate `i` gets the number `number i`. -/
def rename (c : Circuit) (number : Nat → Nat) (w : Nat) : Nat :=
  if w < c.permanent then w else c.permanent + number (w - c.permanent)

/-- The second circuit lists the gates of the first in another order, in which
gate `i` is gate `number i`. -/
structure Reordered (c c' : Circuit) (number : Nat → Nat) : Prop where
  inputs : c'.inputs = c.inputs
  length : c'.gates.length = c.gates.length
  perm : ((List.range c.gates.length).map number).Perm (List.range c.gates.length)
  gates : ∀ i < c.gates.length, c'.gateAt (number i) = (c.gateAt i).rename (c.rename number)
  outputs : c'.outputs = c.outputs.map (c.rename number)

variable {c c' : Circuit} {number : Nat → Nat}

theorem rename_of_permanent {w : Nat} (hw : w < c.permanent) : c.rename number w = w := if_pos hw

@[simp] theorem rename_gate (i : Nat) : c.rename number (c.permanent + i) = c.permanent + number i := by
  rw [rename, if_neg (Nat.not_lt.2 (Nat.le_add_right _ _)), Nat.add_sub_cancel_left]

namespace Reordered

theorem permanent (h : c.Reordered c' number) : c'.permanent = c.permanent := congrArg permanentWires h.inputs

theorem number_lt (h : c.Reordered c' number) {i : Nat} (hi : i < c.gates.length) : number i < c.gates.length :=
  List.mem_range.1 (h.perm.mem_iff.1 (List.mem_map_of_mem (List.mem_range.2 hi)))

theorem exists_number (h : c.Reordered c' number) {j : Nat} (hj : j < c'.gates.length) :
    ∃ i < c.gates.length, number i = j := by
  rw [h.length, ← List.mem_range] at hj
  obtain ⟨i, hi, heq⟩ := List.mem_map.1 (h.perm.mem_iff.2 hj)
  exact ⟨i, List.mem_range.1 hi, heq⟩

theorem number_inj (h : c.Reordered c' number) {i j : Nat} (hi : i < c.gates.length) (hj : j < c.gates.length)
    (heq : number i = number j) : i = j :=
  List.inj_on_of_nodup_map (h.perm.nodup_iff.2 List.nodup_range) (List.mem_range.2 hi) (List.mem_range.2 hj) heq

theorem getElem?_gates (h : c.Reordered c' number) {i : Nat} (hi : i < c.gates.length) :
    c'.gates[number i]? = some ((c.gateAt i).rename (c.rename number)) := by
  rw [← h.gates i hi]
  exact Circuit.getElem?_gates (h.length ▸ h.number_lt hi)

theorem rename_inj (h : c.Reordered c' number) {v w : Nat} (hv : v < c.permanent + c.gates.length)
    (hw : w < c.permanent + c.gates.length) : c.rename number v = c.rename number w ↔ v = w := by
  refine ⟨fun heq => ?_, congrArg _⟩
  unfold rename at heq
  split at heq
  · split at heq
    · exact heq
    · omega
  · split at heq
    · omega
    · have hsame := h.number_inj (by omega) (by omega) (Nat.add_left_cancel heq)
      omega

theorem rename_mem_map (h : c.Reordered c' number) {ws : List Nat} (hws : ∀ v ∈ ws, v < c.permanent + c.gates.length)
    {w : Nat} (hw : w < c.permanent + c.gates.length) : c.rename number w ∈ ws.map (c.rename number) ↔ w ∈ ws := by
  rw [List.mem_map]
  constructor
  · intro ⟨v, hv, heq⟩
    exact (h.rename_inj (hws v hv) hw).1 heq ▸ hv
  · intro hmem
    exact ⟨w, hmem, rfl⟩

/-! ## Counting -/

theorem countP_range (h : c.Reordered c' number) (p : Nat → Bool) :
    (List.range c'.gates.length).countP p = (List.range c.gates.length).countP (p ∘ number) := by
  rw [h.length, ← h.perm.countP_eq, List.countP_map]

theorem countP_made (h : c.Reordered c' number) (p : Nat → Bool) :
    (c'.made c'.gates.length).countP p = (c.made c.gates.length).countP (p ∘ c.rename number) := by
  rw [← outputsOf_range, ← outputsOf_range, outputsOf, outputsOf, List.countP_map, List.countP_map, h.countP_range,
    h.permanent]
  refine congrArg (List.countP · _) (funext fun i => ?_)
  simp

/-! ## Wires -/

/-- **A wire lies as deep as before.** -/
theorem depth_rename (h : c.Reordered c' number) (hv : c.Valid) (hv' : c'.Valid) {w : Nat}
    (hw : w < c.permanent + c.gates.length) : c'.depth (c.rename number w) = c.depth w := by
  refine hv.wire_induction (motive := fun w => c'.depth (c.rename number w) = c.depth w) (fun v hperm => ?_)
    (fun i hi ih => ?_) hw
  · rw [rename_of_permanent hperm, depth_of_permanent hperm, depth_of_permanent (h.permanent ▸ hperm)]
  · rw [rename_gate, ← h.permanent, depth_gate hv' (h.getElem?_gates hi), h.permanent,
      depth_gate hv (Circuit.getElem?_gates hi)]
    exact congrArg₂ (max · · + 1) (ih _ (by simp [Gate.reads])) (ih _ (by simp [Gate.reads]))

theorem gateDepth_number (h : c.Reordered c' number) (hv : c.Valid) (hv' : c'.Valid) {i : Nat}
    (hi : i < c.gates.length) : c'.gateDepth (number i) = c.gateDepth i := by
  rw [gateDepth, gateDepth, h.permanent]
  have hdepth := h.depth_rename hv hv' (Nat.add_lt_add_left hi c.permanent)
  rwa [rename_gate] at hdepth

/-- **A wire carries what it did.** -/
theorem wireValue_rename (h : c.Reordered c' number) (hv : c.Valid) (hv' : c'.Valid) {bits : List Bool}
    (hp : c.permanent = constantWires + bits.length) {w : Nat} (hw : w < c.permanent + c.gates.length) :
    c'.wireValue bits (c.rename number w) = c.wireValue bits w := by
  refine hv.wire_induction (motive := fun w => c'.wireValue bits (c.rename number w) = c.wireValue bits w)
    (fun v hperm => ?_) (fun i hi ih => ?_) hw
  · rw [rename_of_permanent hperm, wireValue_of_permanent bits (hp ▸ hperm), wireValue_of_permanent bits (hp ▸ hperm)]
  · rw [rename_gate, ← h.permanent, wireValue_gate hv' (h.permanent.trans hp) (h.getElem?_gates hi), h.permanent,
      wireValue_gate hv hp (Circuit.getElem?_gates hi)]
    exact congrArg₂ (c.gateAt i).type.eval (ih _ (by simp [Gate.reads])) (ih _ (by simp [Gate.reads]))

/-! ## Reads and outputs -/

theorem mem_outputs_iff (h : c.Reordered c' number) (hv : c.Valid) {w : Nat}
    (hw : w < c.permanent + c.gates.length) : c.rename number w ∈ c'.outputs ↔ w ∈ c.outputs := by
  rw [h.outputs]
  exact h.rename_mem_map (fun v hv' => hv.output_lt hv') hw

theorem mem_reads_iff (h : c.Reordered c' number) (hv : c.Valid) {i w : Nat} (hi : i < c.gates.length)
    (hw : w < c.permanent + c.gates.length) :
    c.rename number w ∈ (c'.gateAt (number i)).reads ↔ w ∈ (c.gateAt i).reads := by
  rw [h.gates i hi, Gate.reads_rename]
  exact h.rename_mem_map (fun v hread => (hv.lt_of_mem_reads (Circuit.getElem?_gates hi) hread).trans (by omega)) hw

theorem perm_reads (h : c.Reordered c' number) :
    ((c.gates.flatMap Gate.reads).map (c.rename number)).Perm (c'.gates.flatMap Gate.reads) := by
  have hgates : (c.readsIn (List.range c.gates.length)).map (c.rename number) =
      c'.readsIn ((List.range c.gates.length).map number) := by
    rw [readsIn, readsIn, List.map_flatMap, List.flatMap_map]
    refine List.flatMap_congr fun i hi => ?_
    rw [h.gates i (List.mem_range.1 hi), Gate.reads_rename]
  rw [← c.readsIn_range, ← c'.readsIn_range, hgates, h.length]
  exact h.perm.flatMap_right _

/-- **A wire is read as often as before.** -/
theorem readsOf_rename (h : c.Reordered c' number) (hv : c.Valid) {w : Nat}
    (hw : w < c.permanent + c.gates.length) : c'.readsOf (c.rename number w) = c.readsOf w := by
  rw [readsOf, ← h.perm_reads.count_eq, List.count, List.countP_map, readsOf, List.count]
  -- only wires of the circuit are read, and no two of them get one number
  refine List.countP_congr fun v hread => ?_
  simp only [Function.comp_apply, beq_iff_eq]
  rw [← c.readsIn_range] at hread
  obtain ⟨i, hi, hmem⟩ := mem_readsIn.1 hread
  have hlt := hv.lt_of_mem_reads (Circuit.getElem?_gates (List.mem_range.1 hi)) hmem
  have hi := List.mem_range.1 hi
  exact h.rename_inj (by omega) hw

theorem readsOf_le (h : c.Reordered c' number) (hv : c.Valid) (hv' : c'.Valid) {most : Nat}
    (hreads : ∀ w, c.permanent ≤ w → c.readsOf w ≤ most) (w : Nat) (hw : c'.permanent ≤ w) : c'.readsOf w ≤ most := by
  rcases Nat.lt_or_ge w (c'.permanent + c'.gates.length) with hlt | hge
  · obtain ⟨j, rfl⟩ := Nat.exists_eq_add_of_le hw
    obtain ⟨i, hi, rfl⟩ := h.exists_number (Nat.lt_of_add_lt_add_left hlt)
    rw [h.permanent, ← rename_gate, h.readsOf_rename hv (Nat.add_lt_add_left hi _)]
    exact hreads _ (Nat.le_add_right _ _)
  · -- no gate produces the wire, so none reads it
    have hnone : w ∉ c'.gates.flatMap Gate.reads := by
      rw [← c'.readsIn_range]
      intro hread
      obtain ⟨i, hi, hmem⟩ := mem_readsIn.1 hread
      have hi := List.mem_range.1 hi
      have hlow := hv'.lt_of_mem_reads (Circuit.getElem?_gates hi) hmem
      omega
    rw [readsOf, List.count_eq_zero_of_not_mem hnone]
    exact Nat.zero_le _

theorem readFrom_rename (h : c.Reordered c' number) (hv : c.Valid) (hv' : c'.Valid) {level w : Nat}
    (hw : w < c.permanent + c.gates.length) : c'.ReadFrom level (c.rename number w) ↔ c.ReadFrom level w := by
  constructor
  · intro ⟨j, hj, hlevel, hread⟩
    obtain ⟨i, hi, rfl⟩ := h.exists_number (List.mem_range.1 hj)
    rw [h.gateDepth_number hv hv' hi] at hlevel
    exact ⟨i, List.mem_range.2 hi, hlevel, (h.mem_reads_iff hv hi hw).1 hread⟩
  · intro ⟨i, hi, hlevel, hread⟩
    have hi := List.mem_range.1 hi
    refine ⟨number i, List.mem_range.2 (h.length ▸ h.number_lt hi), ?_, (h.mem_reads_iff hv hi hw).2 hread⟩
    rwa [h.gateDepth_number hv hv' hi]

/-! ## Levels -/

theorem height (h : c.Reordered c' number) (hv : c.Valid) (hv' : c'.Valid) : c'.height = c.height := by
  refine le_antisymm (Finset.sup_le fun j hj => ?_) (Finset.sup_le fun i hi => ?_)
  · obtain ⟨i, hi, rfl⟩ := h.exists_number (Finset.mem_range.1 hj)
    rw [h.gateDepth_number hv hv' hi]
    exact gateDepth_le_height hi
  · have hi := Finset.mem_range.1 hi
    rw [← h.gateDepth_number hv hv' hi]
    exact gateDepth_le_height (h.length ▸ h.number_lt hi)

/-- **A level has as many gates of either type.** -/
theorem length_gatesAt (h : c.Reordered c' number) (hv : c.Valid) (hv' : c'.Valid) (level : Nat) (type : GateType) :
    (c'.gatesAt c'.gates.length level type).length = (c.gatesAt c.gates.length level type).length := by
  rw [gatesAt, gatesAt, ← List.countP_eq_length_filter, ← List.countP_eq_length_filter, h.countP_range]
  refine List.countP_congr fun i hi => ?_
  have hi := List.mem_range.1 hi
  simp [h.gateDepth_number hv hv' hi, h.gates i hi, Gate.rename]

/-- **A level needs as many slots.** -/
theorem occupancy (h : c.Reordered c' number) (hv : c.Valid) (hv' : c'.Valid) (level : Nat) :
    c'.occupancy level = c.occupancy level := by
  rw [Circuit.occupancy, Circuit.occupancy, h.permanent, h.countP_made, h.countP_made]
  refine congrArg₂ (c.permanent + · + ·) (List.countP_congr fun w hw => ?_) (List.countP_congr fun w hw => ?_)
  · have hlt := (mem_made.1 hw).2
    simp [h.depth_rename hv hv' hlt]
  · have hlt := (mem_made.1 hw).2
    simp [h.depth_rename hv hv' hlt, h.mem_outputs_iff hv hlt, h.readsOf_rename hv hlt, h.readFrom_rename hv hv' hlt]

theorem peak (h : c.Reordered c' number) (hv : c.Valid) (hv' : c'.Valid) : c'.peak = c.peak := by
  rw [Circuit.peak, Circuit.peak, h.permanent, h.height hv hv', Finset.sup_congr rfl fun level _ => h.occupancy hv hv' level]

/-! ## Outputs -/

theorem map_wireValue_outputs (h : c.Reordered c' number) (hv : c.Valid) (hv' : c'.Valid) {bits : List Bool}
    (hp : c.permanent = constantWires + bits.length) :
    c'.outputs.map (c'.wireValue bits) = c.outputs.map (c.wireValue bits) := by
  rw [h.outputs, List.map_map]
  exact List.map_congr_left fun w hw => h.wireValue_rename hv hv' hp (hv.output_lt hw)

end Reordered

end Circuit

end GatePlan
