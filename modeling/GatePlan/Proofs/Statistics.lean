/-
What the statistics say of a compilation. They are counted in different places:
the gates of either type and the widths with every level, the levels by the
leveling, the slots and the frees by the pool, the gates from the circuit. They
agree because each gate of the circuit stands in one level, once and under its
type (`Circuit.sum_gatesAt`), a level of the plan has the gates of the level it
comes from (`Compiled.map_levels`), and every gate is given a slot that is then
either freed or still held (`Compiled.frees_add_held`).

A series keeps its statistics as long as its sum does not wrap around; the sum of
the level widths is the number of gates, for which there is always room.
-/
import GatePlan.Proofs.LastReads
import GatePlan.Proofs.StepByStep

namespace GatePlan

/-! ## Series -/

namespace StreamStats

/-- What is kept of a series tells its values. -/
structure Of (s : StreamStats) (values : List Nat) : Prop where
  count : s.count = values.length
  sum : s.sum = values.sum
  min : values ≠ [] → IsLeast {x | x ∈ values} s.min
  max : values ≠ [] → IsGreatest {x | x ∈ values} s.max

variable {s : StreamStats} {values : List Nat}

theorem of_nil (label : String) : (ofLabel label).Of [] := ⟨rfl, rfl, fun h => absurd rfl h, fun h => absurd rfl h⟩

theorem Of.add (h : s.Of values) {value : Nat} (hsum : values.sum + value < wordSize) :
    (s.add value).Of (values ++ [value]) := by
  have hunion : {x | x ∈ values ++ [value]} = {x | x ∈ values} ∪ {value} := by
    ext x
    simp [or_comm]
  have hcount : s.count = 0 ↔ values = [] := by rw [h.count, List.length_eq_zero_iff]
  refine ⟨?count, ?sum, fun _ => ?min, fun _ => ?max⟩
  case count => rw [StreamStats.add, h.count, List.length_append, List.length_singleton]
  case sum => rw [StreamStats.add, h.sum, wrap_of_lt hsum, List.sum_append, List.sum_singleton]
  case min =>
    rw [StreamStats.add, hunion]
    dsimp only
    by_cases hne : values = []
    · rw [if_pos (hcount.2 hne), hne]
      simp
    · rw [if_neg (mt hcount.1 hne)]
      exact (h.min hne).union isLeast_singleton
  case max =>
    rw [StreamStats.add, hunion]
    dsimp only
    by_cases hne : values = []
    · rw [if_pos (hcount.2 hne), hne]
      simp
    · rw [if_neg (mt hcount.1 hne)]
      exact (h.max hne).union isGreatest_singleton

theorem Of.foldl_add (h : s.Of values) {more : List Nat} (hsum : (values ++ more).sum < wordSize) :
    (more.foldl StreamStats.add s).Of (values ++ more) := by
  induction more generalizing s values with
  | nil =>
    rw [List.append_nil]
    exact h
  | cons value more ih =>
    rw [List.append_cons] at hsum ⊢
    refine ih (h.add ?_) hsum
    rw [List.sum_append, List.sum_append, List.sum_singleton] at hsum
    exact (Nat.le_add_right _ _).trans_lt hsum

/-- The mean lies between the extremes, though it is rounded down. -/
theorem Of.mean (h : s.Of values) (hne : values ≠ []) : s.min ≤ s.mean ∧ s.mean ≤ s.max := by
  have hpos : 0 < values.length := List.length_pos_of_ne_nil hne
  have hlow : values.length • s.min ≤ values.sum := List.card_nsmul_le_sum _ _ fun x hx => (h.min hne).2 hx
  have hhigh : values.sum ≤ values.length • s.max := List.sum_le_card_nsmul _ _ fun x hx => (h.max hne).2 hx
  rw [smul_eq_mul] at hlow hhigh
  rw [StreamStats.mean, h.sum, h.count]
  exact ⟨(Nat.le_div_iff_mul_le hpos).2 (Nat.mul_comm .. ▸ hlow), Nat.div_le_of_le_mul hhigh⟩

end StreamStats

/-! ## Levels -/

theorem Plan.gateCount_eq (p : Plan) : p.gateCount = (p.levels.map Level.size).sum := by
  rw [List.sum_eq_foldl, List.foldl_map, Plan.gateCount]

namespace Circuit

variable {c : Circuit}

theorem countP_levelGates (c : Circuit) (level : Nat) (type : GateType) :
    (c.levelGates level).countP (fun i => (c.gateAt i).type = type) = (c.gatesAt c.gates.length level type).length := by
  have hsame : ∀ type', (c.gatesAt c.gates.length level type').countP (fun i => (c.gateAt i).type = type) =
      if type' = type then (c.gatesAt c.gates.length level type').length else 0 := by
    intro type'
    split
    · rename_i heq
      refine List.countP_eq_length.2 fun i hi => ?_
      rw [(mem_gatesAt.1 hi).2.2, heq, decide_eq_true rfl]
    · rename_i hne
      refine List.countP_eq_zero.2 fun i hi => ?_
      rwa [(mem_gatesAt.1 hi).2.2, decide_eq_true_eq]
  rw [levelGates, List.countP_append, hsame, hsame]
  cases type <;> simp

theorem sum_gatesAt_below (hv : c.Valid) (type : GateType) (k : Nat) :
    ((List.range k).map fun i => (c.gatesAt c.gates.length (i + 1) type).length).sum =
      (c.below (k + 1)).countP fun i => (c.gateAt i).type = type := by
  induction k with
  | zero =>
    rw [below_one hv]
    rfl
  | succ k ih =>
    rw [List.range_succ, List.map_append, List.sum_append, ih, List.map_singleton, List.sum_singleton,
      ← countP_levelGates, ← List.countP_append]
    exact (c.perm_below_succ (k + 1)).countP_eq _

/-- **Each gate stands in one level, under its type.** -/
theorem sum_gatesAt (hv : c.Valid) (type : GateType) :
    ((List.range c.height).map fun i => (c.gatesAt c.gates.length (i + 1) type).length).sum = c.count type := by
  rw [sum_gatesAt_below hv, below_height_succ, count]
  conv_rhs => rw [← c.map_gateAt, List.countP_map]
  rfl

theorem count_add_count (c : Circuit) : c.count .xor + c.count .and = c.gates.length := by
  rw [count, count, List.length_eq_countP_add_countP (fun g : Gate => g.type = .xor) (l := c.gates)]
  refine congrArg _ (List.countP_congr fun g _ => ?_)
  cases g.type <;> simp

end Circuit

namespace Compiled

open SlotPool

variable {bits : Nat} {c : Circuit} {credits : Nat → Nat} {p : Plan} {pool : SlotPool}

theorem sum_xors (hc : Compiled bits c credits p pool) : (p.levels.map fun l => l.xors.length).sum = c.count .xor := by
  rw [hc.map_levels fun xors _ => xors, Circuit.leveledLevels, List.map_map, ← c.sum_gatesAt hc.valid]
  simp [Function.comp_def, Circuit.leveledLevel]

theorem sum_ands (hc : Compiled bits c credits p pool) : (p.levels.map fun l => l.ands.length).sum = c.count .and := by
  rw [hc.map_levels fun _ ands => ands, Circuit.leveledLevels, List.map_map, ← c.sum_gatesAt hc.valid]
  simp [Function.comp_def, Circuit.leveledLevel]

theorem sum_sizes (hc : Compiled bits c credits p pool) : (p.levels.map Level.size).sum = c.gates.length := by
  rw [← c.count_add_count, ← hc.sum_xors, ← hc.sum_ands, ← List.sum_map_add]
  rfl

/-- **Every gate wire is freed or still held** in the end. -/
theorem frees_add_held (hc : Compiled bits c credits p pool) :
    pool.frees + (c.made c.gates.length).countP (fun w => (pool.addressOf w).isOk) = c.gates.length := by
  have hlast := hc.atLevel_afterLevels le_rfl
  have hcount := hc.live_add_frees_afterLevels le_rfl
  have hoccupied := hlast.occupied
  rw [hc.afterLevels_height] at hlast hcount hoccupied
  rw [c.below_height_succ, List.length_range] at hcount
  rw [occupied, hlast.pending, List.length_nil, Nat.add_zero, Circuit.heldAt, ← List.countP_eq_length_filter,
    c.below_height_succ, c.outputsOf_range] at hoccupied
  have hheld : ∀ w ∈ c.made c.gates.length, (pool.addressOf w).isOk = true ↔
      (ledger credits (c.made c.gates.length) (c.readsIn (List.range c.gates.length)) w).isSome = true := by
    intro w hw
    have hslot := hlast.isSome_slotOf? w
    rw [c.below_height_succ, c.outputsOf_range] at hslot
    rw [← hslot, SlotPool.addressOf, if_neg (Nat.not_lt.2 (hlast.permanent ▸ (Circuit.mem_made.1 hw).1)), slotOf?]
    cases pool.resident[w]? <;> simp [Except.isOk, Except.toBool]
  rw [List.countP_congr hheld]
  omega

end Compiled

/-! ## Reports -/

/-- What the statistics of a finished compilation say is so of the circuit, of the
plan, and of the pool in the end. -/
structure CompilerStats.Report (stats : CompilerStats) (c : Circuit) (p : Plan) (pool : SlotPool) : Prop where
  xors : stats.xors = c.count .xor ∧ stats.xors = (p.levels.map fun l => l.xors.length).sum
  ands : stats.ands = c.count .and ∧ stats.ands = (p.levels.map fun l => l.ands.length).sum
  gates : stats.gates = stats.xors + stats.ands ∧ stats.gates = p.gateCount ∧ stats.gates = stats.widths.sum
  levels : stats.levels = p.levels.length ∧ stats.levels = stats.widths.count
  widths : p.levels ≠ [] → IsLeast {width | ∃ l ∈ p.levels, l.size = width} stats.widths.min ∧
    IsGreatest {width | ∃ l ∈ p.levels, l.size = width} stats.widths.max ∧
    stats.widths.min ≤ stats.widths.mean ∧ stats.widths.mean ≤ stats.widths.max
  slots : stats.slots = p.slots
  frees : stats.frees + (c.made c.gates.length).countP (fun w => (pool.addressOf w).isOk) = stats.gates

namespace Compiled

variable {bits : Nat} {c : Circuit} {credits : Nat → Nat} {p : Plan} {pool : SlotPool}

theorem widths_of (hc : Compiled bits c credits p pool) (hroom : c.permanent + c.gates.length < wordSize)
    (label : String) : ((p.levels.map Level.size).foldl StreamStats.add (.ofLabel label)).Of (p.levels.map Level.size) := by
  refine (StreamStats.of_nil label).foldl_add ?_
  rw [List.nil_append, hc.sum_sizes]
  exact (Nat.le_add_left _ _).trans_lt hroom

theorem report (hc : Compiled bits c credits p pool) (hroom : c.permanent + c.gates.length < wordSize) (tracked : Nat) :
    CompilerStats.Report
      { (c.leveledLevels credits).foldl CompilerStats.addLevel CompilerStats.start with
        gates := c.gates.length
        levels := c.height
        slots := p.slots
        frees := pool.frees
        maxTracked := tracked } c p pool := by
  have hwidths := hc.widths_of hroom "Level Width"
  have hheight : c.height = p.levels.length := by rw [hc.length_levels, Circuit.length_leveledLevels]
  have hsizes : (c.leveledLevels credits).map Level.size = p.levels.map Level.size := (hc.map_levels (· + ·)).symm
  rw [CompilerStats.foldl_addLevel, hsizes, ← hc.map_levels fun xors _ => xors, ← hc.map_levels fun _ ands => ands]
  refine ⟨⟨?xors, Nat.zero_add _⟩, ⟨?ands, Nat.zero_add _⟩, ⟨?byType, ?ofPlan, ?ofWidths⟩, ⟨hheight, ?ofLevels⟩,
    fun hne => ?widths, rfl, hc.frees_add_held⟩
  case xors => exact (Nat.zero_add _).trans hc.sum_xors
  case ands => exact (Nat.zero_add _).trans hc.sum_ands
  case byType =>
    change c.gates.length = 0 + _ + (0 + _)
    rw [Nat.zero_add, Nat.zero_add, hc.sum_xors, hc.sum_ands, c.count_add_count]
  case ofPlan => exact (p.gateCount_eq.trans hc.sum_sizes).symm
  case ofWidths => exact (hwidths.sum.trans hc.sum_sizes).symm
  case ofLevels => exact (hwidths.count.trans ((List.length_map _).trans hheight.symm)).symm
  case widths =>
    have hsome : p.levels.map Level.size ≠ [] := mt List.map_eq_nil_iff.1 hne
    simp only [← List.mem_map]
    exact ⟨hwidths.min hsome, hwidths.max hsome, hwidths.mean hsome⟩

end Compiled

theorem Compiler.stats_compileUsing {σ : Type} [Inhabited σ] [PlanSink σ] {s : Compiler} {c : Circuit}
    {given : Option CreditTable} {table : CreditTable} (hv : c.Valid) (huses : Uses c given table) (columns : Nat) (w : σ) :
    (s.compileUsing columns c given w).stats = (s.compileLevels columns c table w).stats := by
  cases given with
  | none =>
    have htable : CreditTable.ofCircuit c = .ok table := huses
    change (s.compile columns c w).stats = _
    rw [compile, htable]
  | some given =>
    obtain ⟨rfl, hsize⟩ := huses
    change (s.compileWith columns c table w).stats = _
    rw [compileWith_of_size ((Circuit.validate_eq_ok_iff c).2 hv) hsize]

/-- What a sink is told by a compilation that comes to its end is the plan that the same
compilation leaves in memory. -/
theorem Running.compile_into_memory {columns : Nat} {c : Circuit} {given : Option CreditTable} {table : CreditTable}
    {p : Plan} {pool : SlotPool} {memory : Running PlanRecord} (huses : Compiler.Uses c given table)
    (hc : Compiled memory.compiler.bits c (table.getD · 0) p pool) :
    ∃ memory', (Running.compile columns c given).outcome memory = (.ok (), memory') ∧ memory'.sink.plan = p := by
  obtain ⟨bar, hcompile⟩ := Running.compile_eq columns c given memory
  obtain ⟨hending, hsink⟩ := Compiler.compileUsing_eq_ok_iff.2
    ⟨table, huses, p, pool, hc, PlanRecord.tell_eq hc.length_levels memory.sink⟩
  rw [hending] at hcompile
  exact ⟨_, hcompile, congrArg PlanRecord.plan hsink⟩

/-- **The statistics match the plan.** A compiler that has been used before, for
whatever and with whatever ending, reports of a compilation that comes to its end
the gates of the circuit by type, which are those of the plan that the sink was
told, its levels and their widths, its slots, and as frees the gate wires that
hold no address in the pool that the allocation leaves. The plan is what the same
compilation leaves in any record, so in its own sink if that is one. -/
theorem statistics_match_plan {σ : Type} [Inhabited σ] [PlanSink σ] {b b' : Running σ} {columns : Nat} {c : Circuit}
    {given : Option CreditTable} (hok : (Running.compile columns c given).outcome b = (.ok (), b')) :
    ∃ table p pool, Compiler.Uses c given table ∧ Compiled b.compiler.bits c (table.getD · 0) p pool ∧
      PlanSink.tell (c.leveledLevels (table.getD · 0)) p b.sink = .ok () b'.sink ∧
      (∀ memory : Running PlanRecord, memory.compiler = b.compiler → ∃ memory',
        (Running.compile columns c given).outcome memory = (.ok (), memory') ∧ memory'.sink.plan = p) ∧
      b'.compiler.stats.Report c p pool := by
  obtain ⟨bar, hcompile⟩ := Running.compile_eq columns c given b
  obtain ⟨hending, rfl⟩ := Prod.mk.inj (hcompile.symm.trans hok)
  obtain ⟨table, huses, p, pool, hc, htell⟩ := Compiler.compileUsing_eq_ok_iff.1 ⟨hending, rfl⟩
  obtain ⟨tracked, hstats⟩ := Compiler.stats_of_compiled hc htell columns
  rw [← Compiler.stats_compileUsing hc.valid huses] at hstats
  refine ⟨table, p, pool, huses, hc, htell, fun memory hsame => ?_, ?_⟩
  · exact Running.compile_into_memory huses (hsame ▸ hc)
  · change (b.compiler.compileUsing columns c given b.sink).stats.Report c p pool
    rw [hstats]
    exact hc.report (hc.room_of_uses huses) tracked

/-- By three bits a full adder gets no further than its first level, which is
counted. The compiler then counts three levels, not four, and these are in memory. -/
theorem full_adder_is_counted_after_a_failure :
    let compile : Action (Running PlanRecord) Unit := Running.compile 0 fullAdder none
    let failed := compile.outcome ⟨⟨3, false, CompilerStats.none⟩, ProgressBar.ofTask "" 0, PlanRecord.empty, ""⟩
    let b := { failed.2 with compiler := { failed.2.compiler with bits := 4 } }
    failed.1 = .error (.slotsExhausted 8 3) ∧ b.compiler.stats.widths = ⟨"Level Width", 2, 2, 2, 1⟩ ∧
      ∃ b' pool, compile.outcome b = (.ok (), b') ∧ b'.compiler.stats.Report fullAdder b'.sink.plan pool ∧
        b'.sink.plan.levels.map Level.size = [2, 2, 1] ∧
        b'.compiler.stats.widths = ⟨"Level Width", 1, 2, 5, 3⟩ ∧ b'.compiler.stats.frees = 3 := by
  intro compile failed b
  have hfailed : failed.1 = .error (.slotsExhausted 8 3) := by decide +kernel
  have hstale : b.compiler.stats.widths = ⟨"Level Width", 2, 2, 2, 1⟩ := by decide +kernel
  have hending : (compile.outcome b).1 = .ok () := by decide +kernel
  have hsizes : (compile.outcome b).2.sink.plan.levels.map Level.size = [2, 2, 1] := by decide +kernel
  have hwidths : (compile.outcome b).2.compiler.stats.widths = ⟨"Level Width", 1, 2, 5, 3⟩ := by decide +kernel
  have hfrees : (compile.outcome b).2.compiler.stats.frees = 3 := by decide +kernel
  have hreport : ∀ b', compile.outcome b = (.ok (), b') → ∃ pool, b'.compiler.stats.Report fullAdder b'.sink.plan pool := by
    intro b' hok
    obtain ⟨table, p, pool, -, -, -, hmemory, hreport⟩ := statistics_match_plan hok
    obtain ⟨memory', hsame, rfl⟩ := hmemory b rfl
    obtain ⟨-, rfl⟩ := Prod.mk.inj (hok.symm.trans hsame)
    exact ⟨pool, hreport⟩
  -- nothing below evaluates the compilation
  generalize compile.outcome b = r at *
  obtain ⟨ending, b'⟩ := r
  obtain rfl : ending = .ok () := hending
  obtain ⟨pool, hcounted⟩ := hreport b' rfl
  exact ⟨hfailed, hstale, b', pool, rfl, hcounted, hsizes, hwidths, hfrees⟩

end GatePlan
