/-
What a plan costs does not depend on the order in which the gates are produced.
In another order the levels are filled differently, and the pool hands out other
slots; but how many gates of either type a level has, how many slots it needs and
how many wires are freed are properties of the graph, which is the same
(`GatePlan.Proofs.Reordering`). The statistics are a fold over the sizes of the
levels, and the outputs are the values of the same wires.
-/
import GatePlan.Proofs.LastReads
import GatePlan.Proofs.LevelsWithoutCredits
import GatePlan.Proofs.Reordering
import GatePlan.Proofs.Simulation

namespace GatePlan

/-! ## Levels of one size -/

namespace Circuit.Reordered

variable {c c' : Circuit} {number : Nat → Nat}

theorem headers (h : c.Reordered c' number) (hv : c.Valid) (hv' : c'.Valid) (credits credits' : Nat → Nat) :
    (c'.leveledLevels credits').map Level.header = (c.leveledLevels credits).map Level.header := by
  rw [leveledLevels, leveledLevels, List.map_map, List.map_map, h.height hv hv']
  refine List.map_congr_left fun i _ => ?_
  simp [Level.header, leveledLevel, h.length_gatesAt hv hv']

theorem freesWith (h : c.Reordered c' number) (hv : c.Valid) {credits credits' : Nat → Nat}
    (hcredits : ∀ w ∈ c.made c.gates.length, credits w = c.creditsNeeded w)
    (hcredits' : ∀ w ∈ c'.made c'.gates.length, credits' w = c'.creditsNeeded w) :
    c'.freesWith credits' = c.freesWith credits := by
  rw [freesWith_needed hcredits, freesWith_needed hcredits', h.countP_made]
  refine List.countP_congr fun w hw => ?_
  have hlt := (mem_made.1 hw).2
  simp [h.mem_outputs_iff hv hlt, h.readsOf_rename hv hlt]

end Circuit.Reordered

namespace CompilerStats

theorem foldl_addLevel_congr {ls ls' : List LeveledLevel} (h : ls.map Level.header = ls'.map Level.header)
    (s : CompilerStats) : ls.foldl addLevel s = ls'.foldl addLevel s := by
  have hmap : ∀ f : LevelHeader → Nat, ls.map (f ∘ Level.header) = ls'.map (f ∘ Level.header) := by
    intro f
    simpa only [List.map_map] using congrArg (List.map f) h
  have hsizes : ls.map Level.size = ls'.map Level.size := hmap fun header => header.xors + header.ands
  have hxors : (ls.map fun l => l.xors.length) = ls'.map fun l => l.xors.length := hmap LevelHeader.xors
  have hands : (ls.map fun l => l.ands.length) = ls'.map fun l => l.ands.length := hmap LevelHeader.ands
  rw [foldl_addLevel, foldl_addLevel, hsizes, hxors, hands]

end CompilerStats

/-! ## Plans of one cost -/

theorem Compiler.compiled_of_compile {s : Compiler} {columns : Nat} {c : Circuit} {w : PlanRecord}
    (hok : (s.compile columns c w).ending = .ok ()) :
    ∃ credits pool, Compiled s.bits c credits (s.compile columns c w).sink.plan pool ∧
      (∀ v ∈ c.made c.gates.length, credits v = c.creditsNeeded v) ∧
      ∃ tracked, (s.compile columns c w).stats =
        { (c.leveledLevels credits).foldl CompilerStats.addLevel CompilerStats.start with
          gates := c.gates.length
          levels := c.height
          slots := (s.compile columns c w).sink.plan.slots
          frees := c.freesWith credits
          maxTracked := tracked } := by
  obtain ⟨table, htable, p, pool, hc, htell⟩ := compile_eq_ok_iff.1 ⟨hok, rfl⟩
  obtain ⟨tracked, hstats⟩ := stats_of_compiled hc htell columns
  rw [PlanRecord.tell_eq hc.length_levels] at htell
  have hplan : (s.compile columns c w).sink.plan = p := by
    rw [← (EStateM.Result.ok.inj htell).2]
    rfl
  have hsame : (s.compile columns c w).stats = (s.compileLevels columns c table w).stats := by rw [compile, htable]
  rw [hplan, hsame, hstats, hc.frees_eq]
  exact ⟨_, pool, hc, CreditTable.getD_of_ofCircuit htable (hc.room_of_table htable), tracked, rfl⟩

/-- Two compilations of one cost: their plans have as many levels, with as many
gates of either type, and as many slots, and the statistics agree in all but the
number of wires that were tracked. -/
structure Compilation.SameCost (r r' : Compilation PlanRecord) : Prop where
  headers : r.sink.plan.levels.map Level.header = r'.sink.plan.levels.map Level.header
  slots : r.sink.plan.slots = r'.sink.plan.slots
  stats : r.stats = { r'.stats with maxTracked := r.stats.maxTracked }

/-- **The cost of a plan does not depend on the order of production.** Of two
circuits that list the same gates in another order, either both compile with
their own credits or both lack addresses, whatever the width. The two plans have
one cost, and for all inputs they compute the same outputs. -/
theorem cost_does_not_depend_on_order {s : Compiler} {c c' : Circuit} {number : Nat → Nat}
    (h : c.Reordered c' number) (hvalid : c.validate = .ok ()) (hvalid' : c'.validate = .ok ())
    (hword : constantWires + c.inputs + c.gates.length < wordSize)
    (hreads : ∀ w, c.permanent ≤ w → c.readsOf w ≤ maxCredits) (hbits : 0 < s.bits ∧ s.bits ≤ maxAddressBits)
    (columns : Nat) (w : PlanRecord) :
    let r := s.compile columns c w
    let r' := s.compile columns c' w
    ((∃ fault, r.ending = .error fault ∧ fault.kind = .addressOverflow) ∧
      ∃ fault, r'.ending = .error fault ∧ fault.kind = .addressOverflow) ∨
    (r.ending = .ok () ∧ r'.ending = .ok () ∧ r.SameCost r' ∧
      ∀ bits : List Bool, bits.length = c.inputs →
        ∃ outputs, r.sink.plan.Computes bits outputs ∧ r'.sink.plan.Computes bits outputs) := by
  intro r r'
  have hv := (Circuit.validate_eq_ok_iff c).1 hvalid
  have hv' := (Circuit.validate_eq_ok_iff c').1 hvalid'
  have hperm : c.permanent = constantWires + c.inputs := Circuit.permanent_eq (by omega)
  have hroom : c.permanent + c.gates.length < wordSize := by rwa [hperm]
  have hroom' : c'.permanent + c'.gates.length < wordSize := by rwa [h.permanent, h.length]
  have hpeak := h.peak hv hv'
  rcases Compiler.compile_outcome hv hroom hreads hbits columns w with ⟨hlack, hfails⟩ | ⟨hfits, hok, hslots⟩
  · rcases Compiler.compile_outcome hv' hroom' (h.readsOf_le hv hv' hreads) hbits columns w with ⟨-, hfails'⟩ | ⟨hfits', -⟩
    · exact .inl ⟨hfails, hfails'⟩
    · omega
  rcases Compiler.compile_outcome hv' hroom' (h.readsOf_le hv hv' hreads) hbits columns w with
    ⟨hlack', -⟩ | ⟨-, hok', hslots'⟩
  · omega
  obtain ⟨credits, pool, hc, hcredits, tracked, hstats⟩ := Compiler.compiled_of_compile hok
  obtain ⟨credits', pool', hc', hcredits', tracked', hstats'⟩ := Compiler.compiled_of_compile hok'
  have hslotsEq : r.sink.plan.slots = r'.sink.plan.slots := by rw [hslots, hslots', hpeak]
  refine .inr ⟨hok, hok', ⟨?headers, hslotsEq, ?stats⟩, fun bits hlength => ?outputs⟩
  case headers => rw [hc.headers, hc'.headers, h.headers hv hv']
  case stats =>
    rw [hstats, hstats', h.length, h.height hv hv', h.freesWith hv hcredits hcredits', ← hslotsEq,
      CompilerStats.foldl_addLevel_congr (h.headers hv hv' credits credits')]
  case outputs =>
    refine ⟨c.outputs.map (c.wireValue bits), hc.computes (by omega) hlength, ?_⟩
    rw [← h.map_wireValue_outputs hv hv' (by rw [hperm, hlength])]
    exact hc'.computes (by rw [h.inputs]; omega) (hlength.trans h.inputs.symm)

/-- The second gate comes first: the two sums change places, and so do the slots
that the last gate reads. -/
theorem swapped_sums_cost_the_same :
    let c : Circuit := ⟨3, [⟨.xor, 2, 3⟩, ⟨.xor, 3, 4⟩, ⟨.and, 5, 6⟩], [7]⟩
    let c' : Circuit := ⟨3, [⟨.xor, 3, 4⟩, ⟨.xor, 2, 3⟩, ⟨.and, 6, 5⟩], [7]⟩
    let r := Compiler.default.compile 0 c PlanRecord.empty
    let r' := Compiler.default.compile 0 c' PlanRecord.empty
    c.Reordered c' ([1, 0, 2].getD · 0) ∧ r.ending = .ok () ∧ r.sink.plan ≠ r'.sink.plan ∧ r.SameCost r' ∧
      ∃ outputs, r.sink.plan.Computes [true, false, true] outputs ∧ r'.sink.plan.Computes [true, false, true] outputs := by
  intro c c' r r'
  have h : c.Reordered c' ([1, 0, 2].getD · 0) := ⟨rfl, rfl, by decide, by decide, by decide⟩
  have hreads : ∀ w, c.permanent ≤ w → c.readsOf w ≤ maxCredits := fun w _ => List.count_le_length.trans (by decide)
  have hbits : 0 < Compiler.default.bits ∧ Compiler.default.bits ≤ maxAddressBits := by decide
  have hok : r.ending = .ok () := by decide +kernel
  rcases cost_does_not_depend_on_order h rfl rfl (by decide) hreads hbits 0 PlanRecord.empty with
    ⟨⟨fault, hfails, -⟩, -⟩ | ⟨-, -, hcost, hcomputes⟩
  · cases hok.symm.trans hfails
  · exact ⟨h, hok, by decide +kernel, hcost, hcomputes [true, false, true] rfl⟩

end GatePlan
