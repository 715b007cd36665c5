/-
A compiled plan keeps to the rules of both its streams, which were written
without the compiler in mind.

Address stream: a pool takes a fresh slot only when none is free, and the next
one then, so the slots that its gates have written are always the lowest ones,
up to the peak (`SlotPool.Sound.keepRule_levels`). Level stream: every input of a
gate is the output of a gate of a lower level or a permanent wire, and its index
below the size of that level (`Circuit.resolvable_leveledLevels`).

So the streams are read as soon as they can be written (`Compiled.addressTurns`,
`Compiled.levelsRead`). No number is too large for that as long as the wires are
no more than a varint holds, because none exceeds their number.
-/
import GatePlan.Proofs.AddressRule
import GatePlan.Proofs.LocationRule
import GatePlan.Proofs.Occupancy

namespace GatePlan

open Varint

/-! ## Addresses -/

namespace AllocatedGate

theorem KeepRule.lt_writtenAfter {written : Nat} {gs : List AllocatedGate} (h : KeepRule written gs) :
    written ≤ writtenAfter written gs ∧ ∀ g ∈ gs, g.input1 < writtenAfter written gs ∧
      g.input2 < writtenAfter written gs ∧ g.output < writtenAfter written gs := by
  induction gs generalizing written with
  | nil => exact ⟨le_rfl, List.forall_mem_nil _⟩
  | cons g gs ih =>
    obtain ⟨⟨⟨hread1, hread2⟩, -⟩, hrest⟩ := h
    obtain ⟨hle, hgs⟩ := ih hrest
    have hgrown : writtenAfter written (g :: gs) = writtenAfter (max written (g.output + 1)) gs := rfl
    rw [hgrown]
    exact ⟨by omega, List.forall_mem_cons.2 ⟨⟨by omega, by omega, by omega⟩, hgs⟩⟩

end AllocatedGate

namespace SlotPool.Sound

open AllocatedGate

variable {s s' : SlotPool}

theorem keepRule_gates (h : s.Sound) {gs : List LeveledGate} {as : List AllocatedGate}
    (hok : gs.mapM allocateGate s = .ok as s') : KeepRule s.peak as ∧ writtenAfter s.peak as = s'.peak := by
  induction gs generalizing s as with
  | nil =>
    obtain ⟨rfl, rfl⟩ := Action.mapM_nil_eq_ok_iff.1 hok
    exact ⟨trivial, rfl⟩
  | cons g gs ih =>
    obtain ⟨a, s1, rest, hg, hgs, rfl⟩ := Action.mapM_cons_eq_ok_iff.1 hok
    have hstep := h.gateAllocated hg
    have hallowed : a.Allowed s.peak :=
      ⟨⟨h.lt_peak_of_address hstep.input1, h.lt_peak_of_address hstep.input2⟩, hstep.le_peak⟩
    obtain ⟨hrest, hwritten⟩ := ih hstep.sound hgs
    rw [hstep.peak_eq_max] at hrest hwritten
    exact ⟨⟨hallowed, hrest⟩, hwritten⟩

/-- **A pool keeps to the rule**, level after level. -/
theorem keepRule_levels (h : s.Sound) {ls : List LeveledLevel} {als : List AllocatedLevel}
    (hok : ls.mapM allocateLevel s = .ok als s') :
    KeepRule s.peak (als.flatMap Level.gates) ∧ writtenAfter s.peak (als.flatMap Level.gates) = s'.peak := by
  induction ls generalizing s als with
  | nil =>
    obtain ⟨rfl, rfl⟩ := Action.mapM_nil_eq_ok_iff.1 hok
    exact ⟨trivial, rfl⟩
  | cons l ls ih =>
    obtain ⟨al, s1, rest, hl, hls, rfl⟩ := Action.mapM_cons_eq_ok_iff.1 hok
    obtain ⟨s2, hgates, rfl⟩ := gates_of_allocateLevel hl
    obtain ⟨hlevel, hwritten⟩ := h.keepRule_gates hgates
    obtain ⟨hrest, hwrittenRest⟩ := ih (h.gatesAllocated hgates).sound.endLevel hls
    have hpeak : s2.endLevel.peak = writtenAfter s.peak al.gates := hwritten.symm
    rw [hpeak] at hrest hwrittenRest
    rw [List.flatMap_cons]
    exact ⟨keepRule_append.2 ⟨hlevel, hrest⟩, writtenAfter_append.trans hwrittenRest⟩

end SlotPool.Sound

theorem AddressTurn.numberedFrom_eq_self {id : Nat} {ls : List AllocatedLevel}
    (h : ls.map Level.id = List.range' id ls.length) : numberedFrom id ls = ls := by
  induction ls generalizing id with
  | nil => rfl
  | cons l ls ih =>
    rw [List.map_cons, List.length_cons, List.range'_succ] at h
    obtain ⟨rfl, hrest⟩ := List.cons.inj h
    rw [numberedFrom_cons, ih hrest]

/-! ## Locations -/

namespace Circuit

variable {c : Circuit} {credits : Nat → Nat}

/-- The sizes of the lowest levels, from level 0 to level `k`. -/
def levelSizes (c : Circuit) (k : Nat) : List Nat :=
  c.permanent :: (List.range k).map fun i => (c.levelGates (i + 1)).length

theorem levelSizes_succ (c : Circuit) (k : Nat) :
    c.levelSizes (k + 1) = c.levelSizes k ++ [(c.levelGates (k + 1)).length] := by
  simp [levelSizes, List.range_succ]

theorem sum_levelSizes (hv : c.Valid) (k : Nat) : (c.levelSizes k).sum = c.permanent + (c.below (k + 1)).length := by
  induction k with
  | zero => simp [levelSizes, below_one hv]
  | succ k ih =>
    rw [levelSizes_succ, List.sum_append, ih, length_below_succ c (k + 1), List.sum_singleton, Nat.add_assoc]

theorem getD_levelSizes_succ {k i : Nat} (hi : i < k) :
    (c.levelSizes k).getD (i + 1) 0 = (c.levelGates (i + 1)).length := by
  simp [levelSizes, hi]

theorem index_locationOf_lt (hv : c.Valid) {w k : Nat} (hw : w < c.permanent + c.gates.length) (hk : c.depth w ≤ k) :
    (c.locationOf w).index < (c.levelSizes k).getD (c.locationOf w).level 0 := by
  rcases Nat.lt_or_ge w c.permanent with hperm | hgate
  · rw [locationOf_of_permanent hperm]
    exact hperm
  · obtain ⟨i, rfl⟩ := Nat.exists_eq_add_of_le hgate
    have hi : i < c.gates.length := by omega
    obtain ⟨hindex, -⟩ := List.getElem?_eq_some_iff.1 (levelGates_getElem?_locationOf hi)
    have hpos := depth_gate_pos hv hi
    obtain ⟨d, hd⟩ := Nat.exists_eq_add_of_lt hpos
    rw [Nat.zero_add] at hd
    rw [level_locationOf, hd, getD_levelSizes_succ (by omega), ← hd]
    exact hindex

/-- **The locations of the gates lie in the levels they name.** -/
theorem resolvable_leveledLevels (hv : c.Valid) (credits : Nat → Nat) :
    ∀ l ∈ c.leveledLevels credits, l.Resolvable (c.levelSizes c.height) := by
  have hinput : ∀ {i w}, i < c.gates.length → w ∈ (c.gateAt i).reads → (c.locationOf w).Within (c.levelSizes c.height) := by
    intro i w hi hw
    have hgate := getElem?_gates hi
    have hbefore := hv.lt_of_mem_reads hgate hw
    have hbelow := depth_lt_of_reads hv hgate hw
    exact index_locationOf_lt hv (by omega) (hbelow.le.trans (gateDepth_le_height hi))
  intro l hl g hg
  obtain ⟨k, -, rfl⟩ := List.mem_map.1 hl
  rw [gates_leveledLevel] at hg
  obtain ⟨i, hi, rfl⟩ := List.mem_map.1 hg
  obtain ⟨hlt, -⟩ := mem_levelGates.1 hi
  exact ⟨hinput hlt (by simp [Gate.reads]), hinput hlt (by simp [Gate.reads])⟩

/-! ## Levels -/

theorem length_levelGates_le (c : Circuit) (level : Nat) : (c.levelGates level).length ≤ c.gates.length := by
  have hbelow := length_below_le c (level + 1)
  rw [length_below_succ] at hbelow
  omega

theorem le_length_below (hv : c.Valid) {k : Nat} (hk : k ≤ c.height) : k ≤ (c.below (k + 1)).length := by
  induction k with
  | zero => exact Nat.zero_le _
  | succ k ih =>
    have hpos : 0 < (c.levelGates (k + 1)).length := length_levelGates_pos hv (Nat.succ_pos k) hk
    have hbelow := ih (by omega)
    rw [length_below_succ]
    omega

/-- The first gate reads a wire. -/
theorem permanent_pos (hv : c.Valid) (hgates : 0 < c.gates.length) : 0 < c.permanent := by
  have hord := (hv.ordered 0 _ (getElem?_gates hgates)).1
  omega

theorem getD_levelSizes_le (hv : c.Valid) (k l : Nat) :
    (c.levelSizes k).getD l 0 ≤ c.permanent + c.gates.length := by
  rcases Nat.lt_or_ge l (c.levelSizes k).length with hl | hl
  · have hmem : (c.levelSizes k).getD l 0 ∈ c.levelSizes k := by
      rw [List.getD_eq_getElem _ _ hl]
      exact List.getElem_mem hl
    have hsum := List.le_sum_of_mem hmem
    have hbelow := length_below_le c (k + 1)
    rw [sum_levelSizes hv] at hsum
    omega
  · rw [List.getD_eq_default _ _ hl]
    exact Nat.zero_le _

theorem writable_leveledLevel (hv : c.Valid) (hfew : c.permanent + c.gates.length ≤ flaggedMax + 1) {k : Nat}
    (hk : k < c.height) : (c.leveledLevel credits (k + 1)).Writable := by
  have hpos : 0 < (c.levelGates (k + 1)).length := length_levelGates_pos hv (Nat.succ_pos k) hk
  have hsize := length_levelGates_le c (k + 1)
  have hperm := permanent_pos hv (hpos.trans_le hsize)
  have hnumber := (le_length_below hv hk).trans (length_below_le c _)
  have hlengths := size_leveledLevel c credits (k + 1)
  have hmax : flaggedMax ≤ plainMax := by decide
  have hinput : ∀ {i w}, i ∈ c.levelGates (k + 1) → w ∈ (c.gateAt i).reads → (c.locationOf w).Writable (k + 1) := by
    intro i w hi hw
    obtain ⟨hlt, hdepth⟩ := mem_levelGates.1 hi
    have hgate := getElem?_gates hlt
    have hbelow := depth_lt_of_reads hv hgate hw
    have hbefore := hv.lt_of_mem_reads hgate hw
    have hindex := index_locationOf_lt hv (w := w) (by omega) (le_refl _)
    have htotal := getD_levelSizes_le hv (c.depth w) (c.locationOf w).level
    rw [← gateDepth, hdepth] at hbelow
    exact Reference.writable_of_le (by rwa [level_locationOf]) (by omega) (by omega)
  rw [Level.size] at hlengths
  refine ⟨by rw [Level.size]; omega, by omega, by omega, fun g hg => ?_⟩
  rw [gates_leveledLevel] at hg
  obtain ⟨i, hi, rfl⟩ := List.mem_map.1 hg
  exact ⟨hinput hi (by simp [Gate.reads]), hinput hi (by simp [Gate.reads])⟩

theorem writableFrom_leveledLevels (hv : c.Valid) (hfew : c.permanent + c.gates.length ≤ flaggedMax + 1)
    (credits : Nat → Nat) : Level.WritableFrom 1 (c.leveledLevels credits) := by
  suffices h : ∀ k ≤ c.height, Level.WritableFrom 1 ((List.range k).map fun i => c.leveledLevel credits (i + 1)) from
    h c.height le_rfl
  intro k hk
  induction k with
  | zero => trivial
  | succ k ih =>
    rw [List.range_succ, List.map_append, Level.writableFrom_append]
    refine ⟨ih (Nat.le_of_succ_le hk), ?_, writable_leveledLevel hv hfew hk, trivial⟩
    rw [List.length_map, List.length_range, Nat.add_comm]
    rfl

end Circuit

/-! ## Plans -/

namespace Compiled

variable {bits : Nat} {c : Circuit} {credits : Nat → Nat} {p : Plan} {pool : SlotPool}

theorem peak_eq (hc : Compiled bits c credits p pool) : pool.peak = c.peakAfter credits c.height := by
  rcases SlotPool.allocateLevels_cases hc.valid hc.affords hc.room c.height with ⟨-, als, s, hok, -, hpeak⟩ |
    ⟨-, s, herror⟩
  · have hlevels := hc.levels
    rw [Circuit.leveledLevels, hok] at hlevels
    cases hlevels
    exact hpeak
  · have hlevels := hc.levels
    rw [Circuit.leveledLevels, herror] at hlevels
    cases hlevels

theorem shapes (hc : Compiled bits c credits p pool) :
    p.levels.map (fun l => (l.id, l.size)) = (List.range c.height).map fun i => (i + 1, (c.levelGates (i + 1)).length) := by
  have hshape : ∀ {l : LeveledLevel} {s : SlotPool} {al : AllocatedLevel} {s' : SlotPool},
      SlotPool.allocateLevel l s = .ok al s' → (al.id, al.size) = (l.id, l.size) := by
    intro l s al s' h
    obtain ⟨r, s1, hxors, hands, hid, -⟩ := SlotPool.allocateLevel_eq_ok_iff.1 h
    rw [hid, Level.size, Level.size, Action.length_of_mapM_eq_ok hxors, Action.length_of_mapM_eq_ok hands]
  rw [Action.map_of_mapM_eq_ok (g := fun l => (l.id, l.size)) hshape hc.levels, Circuit.leveledLevels, List.map_map]
  exact List.map_congr_left fun i _ => congrArg (Prod.mk (i + 1)) (c.size_leveledLevel credits (i + 1))

theorem numberedFrom_levels (hc : Compiled bits c credits p pool) : AddressTurn.numberedFrom 1 p.levels = p.levels := by
  refine AddressTurn.numberedFrom_eq_self ?_
  have hids := congrArg (List.map Prod.fst) hc.shapes
  have hlength := congrArg List.length hc.shapes
  rw [List.map_map, List.map_map] at hids
  rw [List.length_map, List.length_map, List.length_range] at hlength
  rw [hlength, List.range'_eq_map_range]
  exact hids.trans (List.map_congr_left fun i _ => Nat.add_comm i 1)

theorem size_of_mem_levels (hc : Compiled bits c credits p pool) {l : AllocatedLevel} (hl : l ∈ p.levels) :
    0 < l.size ∧ l.size ≤ c.gates.length := by
  have hshape : (l.id, l.size) ∈ p.levels.map fun l => (l.id, l.size) := List.mem_map_of_mem hl
  rw [hc.shapes] at hshape
  obtain ⟨i, hi, hil⟩ := List.mem_map.1 hshape
  rw [← (Prod.mk.inj hil).2]
  exact ⟨Circuit.length_levelGates_pos hc.valid (Nat.succ_pos i) (List.mem_range.1 hi), c.length_levelGates_le (i + 1)⟩

theorem keepRule (hc : Compiled bits c credits p pool) :
    AllocatedGate.KeepRule c.permanent (p.levels.flatMap Level.gates) ∧
      AllocatedGate.writtenAfter c.permanent (p.levels.flatMap Level.gates) = p.slots := by
  rw [hc.slots]
  exact (SlotPool.sound_initial hc.room).keepRule_levels hc.levels

/-- **The levels of a plan take their turns** in an address stream that they can be
written to, and write its slots. -/
theorem addressTurns (hc : Compiled bits c credits p pool)
    (hcounts : ∀ l ∈ p.levels, l.xors.length ≤ flaggedMax ∧ l.ands.length ≤ plainMax)
    (hforms : AllocatedGate.FormsFrom c.permanent (p.levels.flatMap Level.gates)) (hslots : p.slots < wordSize) :
    ∃ t, Along AddressTurn.Level (AddressTurn.start c.inputs) p.levels p.levels t ∧ t.written = p.slots := by
  obtain ⟨hrule, hwritten⟩ := hc.keepRule
  have hnext : ∀ g ∈ p.levels.flatMap Level.gates, g.output + 1 < wordSize := by
    intro g hg
    have hlt := (hrule.lt_writtenAfter.2 g hg).2.2
    omega
  obtain ⟨t, halong, ht, -⟩ := AddressTurn.along_levels_of_forms (t := AddressTurn.start c.inputs)
    (fun l hl => ⟨(hc.size_of_mem_levels hl).1, (hcounts l hl).1, (hcounts l hl).2⟩) hforms hnext hrule
  rw [show (AddressTurn.start c.inputs).id = 1 from rfl, hc.numberedFrom_levels] at halong
  exact ⟨t, halong, ht.trans hwritten⟩

theorem addressTurns_of_few (hc : Compiled bits c credits p pool)
    (hfew : c.permanent + c.gates.length ≤ flaggedMax + 1) :
    ∃ t, Along AddressTurn.Level (AddressTurn.start c.inputs) p.levels p.levels t ∧ t.written = p.slots := by
  have hmax : flaggedMax ≤ plainMax ∧ flaggedMax + 1 < wordSize := by decide
  have hpeak := hc.peak_eq.trans_le (c.peakAfter_le credits c.height)
  rw [← hc.slots] at hpeak
  obtain ⟨hrule, hwritten⟩ := hc.keepRule
  have hgates : ∀ g ∈ p.levels.flatMap Level.gates, g.Writable := by
    intro g hg
    obtain ⟨h1, h2, h3⟩ := hrule.lt_writtenAfter.2 g hg
    exact ⟨by omega, by omega, by omega⟩
  refine hc.addressTurns (fun l hl => ?counts) ?forms (by omega)
  case counts =>
    obtain ⟨hpos, hsize⟩ := hc.size_of_mem_levels hl
    have hperm := Circuit.permanent_pos hc.valid (hpos.trans_le hsize)
    rw [Level.size] at hsize
    omega
  case forms =>
    rcases Nat.eq_zero_or_pos c.gates.length with hnone | hsome
    · have hnil : p.levels = [] := by
        refine List.eq_nil_iff_forall_not_mem.2 fun l hl => ?_
        have hsize := hc.size_of_mem_levels hl
        omega
      rw [hnil]
      trivial
    · have hperm := Circuit.permanent_pos hc.valid hsome
      exact AllocatedGate.formsFrom_of_writable (by omega) hgates

/-- **The levels of a circuit are read** from a level stream that they can be written
to, and number its wires. -/
theorem levelsRead (hc : Compiled bits c credits p pool) (hwritable : Level.WritableFrom 1 (c.leveledLevels credits))
    (hword : c.permanent + c.gates.length < wordSize) :
    ∃ t : LevelBases, Along LevelBases.Takes (LevelBases.ofInputs c.inputs) (c.leveledLevels credits)
      ((c.leveledLevels credits).map Level.located) t ∧ t.counter = c.wires := by
  have hsizes : [permanentWires c.inputs] ++ (c.leveledLevels credits).map Level.size = c.levelSizes c.height := by
    rw [Circuit.leveledLevels, List.map_map]
    exact congrArg (c.permanent :: ·) (List.map_congr_left fun i _ => c.size_leveledLevel credits (i + 1))
  have hsum : (c.levelSizes c.height).sum = c.permanent + c.gates.length := by
    rw [Circuit.sum_levelSizes hc.valid, Circuit.below_height_succ, List.length_range]
  have htotal : [permanentWires c.inputs].sum + ((c.leveledLevels credits).map Level.size).sum < wordSize := by
    rwa [← List.sum_append, hsizes, hsum]
  obtain ⟨t, halong, hcounts⟩ := (LevelBases.counts_ofInputs c.inputs).along_levels hwritable htotal [] (by
    rw [List.append_nil, hsizes]
    exact Circuit.resolvable_leveledLevels hc.valid credits)
  rw [hsizes] at hcounts
  exact ⟨t, halong, by rw [hcounts.counter, hsum, Circuit.wires, wrap_of_lt hword]⟩

theorem levelsRead_of_few (hc : Compiled bits c credits p pool) (hfew : c.permanent + c.gates.length ≤ flaggedMax + 1) :
    ∃ t : LevelBases, Along LevelBases.Takes (LevelBases.ofInputs c.inputs) (c.leveledLevels credits)
      ((c.leveledLevels credits).map Level.located) t ∧ t.counter = c.wires :=
  hc.levelsRead (Circuit.writableFrom_leveledLevels hc.valid hfew credits) (hfew.trans_lt (by decide))

end Compiled

end GatePlan
