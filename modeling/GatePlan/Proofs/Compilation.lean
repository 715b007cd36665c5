/-
A compilation, taken apart. What a compiler makes of a circuit does not depend
on where its output goes: the circuit has to be valid and its credits
affordable, its levels are the ones in closed form, and the plan is what
allocating them gate by gate gives, from a pool in which only the permanent
wires hold slots (`Compiled`). The sink is told this plan (`PlanSink.tell`) and
nothing else, so a compilation comes to its end exactly when there is such a
plan and the sink takes it (`compileLevels_eq_ok_iff`).
-/
import GatePlan.Proofs.Allocation
import GatePlan.Proofs.CreditTable
import GatePlan.Proofs.Leveling

namespace GatePlan

/-! ## The first pool -/

namespace SlotPool

/-- The pool in which only permanent wires hold slots. -/
def initial (bits permanent : Nat) : SlotPool :=
  ⟨bits, permanent, permanent, Array.replicate permanent true, [], [], ∅, 0⟩

/-- The width of addresses is checked first, then the room for permanent wires. -/
theorem ofCircuit_eq (bits : Nat) (c : Circuit) :
    ofCircuit bits c =
      if bits = 0 ∨ bits > maxAddressBits then .error .addressWidth
      else if c.permanent > addressSpace bits then .error (.permanentTooMany c.permanent bits)
      else .ok (initial bits c.permanent) := by
  have hword : wrap (0 + c.permanent) = c.permanent := by
    rw [Nat.zero_add]
    exact wrap_of_lt (wrap_lt _)
  by_cases hbits : bits = 0 ∨ bits > maxAddressBits
  · have hof : ofBits bits = .error .addressWidth := if_pos (by simpa using hbits)
    rw [ofCircuit, hof, if_pos hbits]
    rfl
  · have hof : ofBits bits = .ok (initial bits 0) := if_neg (by simpa using hbits)
    rw [ofCircuit, hof, if_neg hbits]
    simp only [bind, Except.bind]
    by_cases hroom : c.permanent > addressSpace bits
    · have hreserve : reserve c.permanent (initial bits 0) =
          .error (.permanentTooMany (wrap (0 + c.permanent)) bits) (initial bits 0) := by
        rw [reserve, if_neg (by simp [initial]), if_pos (by simpa [initial, capacity] using hroom)]
        rfl
      rw [if_pos hroom, hreserve, hword]
      rfl
    · have hreserve : reserve c.permanent (initial bits 0) = .ok () (initial bits (0 + c.permanent)) := by
        rw [reserve, if_neg (by simp [initial]), if_neg (by simpa [initial, capacity] using hroom)]
        simp [initial]
      rw [if_neg hroom, hreserve, Nat.zero_add]
      rfl

theorem sound_initial {bits permanent : Nat} (h : permanent ≤ addressSpace bits) :
    (initial bits permanent).Sound where
  size := by simp [initial]
  permanent_le := le_rfl
  permanent_used a ha := by
    replace ha : a < permanent := ha
    simp [initial, isInUse, ha]
  idle a ha := by simp [initial] at ha
  nodup := by simp [initial]
  cover a hlt hidle := by
    replace hlt : a < permanent := hlt
    simp [initial, isInUse, hlt] at hidle
  fits := h
  wire_ge hw := by simp [initial, slotOf?] at hw
  slot_ge hw := by simp [initial, slotOf?] at hw
  used a ha := by
    replace ha : permanent ≤ a := ha
    simp [initial, slotOf?, isInUse, ha]
  inj hw := by simp [initial, slotOf?] at hw
  count := by simp [initial, live]

end SlotPool

/-! ## Telling a sink -/

variable {σ : Type} [Inhabited σ] [PlanSink σ]

/-- Tells a sink a whole plan, each level together with its leveled form. -/
def PlanSink.tell (leveled : List LeveledLevel) (p : Plan) : Action σ Unit := do
  modify (PlanSink.start p.inputs)
  (leveled.zip p.levels).forM fun l => PlanSink.level l.1 l.2
  PlanSink.finish p.slots p.outputs

omit [Inhabited σ] in
theorem PlanSink.tell_eq_ok_iff {leveled : List LeveledLevel} {p : Plan} {w w' : σ} :
    PlanSink.tell leveled p w = .ok () w' ↔ ∃ w1,
      (leveled.zip p.levels).forM (fun l => PlanSink.level l.1 l.2) (PlanSink.start p.inputs w) = .ok () w1 ∧
        PlanSink.finish p.slots p.outputs w1 = .ok () w' := by
  change ((leveled.zip p.levels).forM _ >>= fun _ => PlanSink.finish p.slots p.outputs : Action σ Unit)
    (PlanSink.start p.inputs w) = .ok () w' ↔ _
  rw [Action.bind_eq_ok_iff]
  constructor
  · intro ⟨_, w1, hlevels, hfinish⟩
    exact ⟨w1, hlevels, hfinish⟩
  · intro ⟨w1, hlevels, hfinish⟩
    exact ⟨(), w1, hlevels, hfinish⟩

/-- A sink that takes every level. -/
def PlanSink.TakesLevels (σ : Type) [PlanSink σ] : Prop :=
  ∀ (l : LeveledLevel) (al : AllocatedLevel) (w : σ), ∃ w', PlanSink.level l al w = .ok () w'

omit [Inhabited σ] in
theorem PlanSink.TakesLevels.forM (h : TakesLevels σ) (levels : List (LeveledLevel × AllocatedLevel)) (w : σ) :
    ∃ w', levels.forM (fun l => PlanSink.level l.1 l.2) w = .ok () w' := by
  induction levels generalizing w with
  | nil => exact ⟨w, rfl⟩
  | cons l levels ih =>
    obtain ⟨w1, hstep⟩ := h l.1 l.2 w
    obtain ⟨w', hrest⟩ := ih w1
    exact ⟨w', Action.forM_cons_eq_ok_iff.2 ⟨w1, hstep, hrest⟩⟩

theorem PlanRecord.takesLevels : PlanSink.TakesLevels PlanRecord := fun _ _ _ => ⟨_, rfl⟩

theorem PlanRecord.tell_eq {leveled : List LeveledLevel} {p : Plan} (h : p.levels.length = leveled.length)
    (r : PlanRecord) :
    PlanSink.tell leveled p r =
      .ok () ⟨p.inputs, p.slots, leveled.toArray, p.levels.toArray, p.outputs⟩ := by
  have hlevels : ∀ (ls : List LeveledLevel) (als : List AllocatedLevel) (r : PlanRecord), als.length = ls.length →
      (ls.zip als).forM (fun l => PlanSink.level l.1 l.2) r =
        .ok () { r with leveled := r.leveled ++ ls.toArray, allocated := r.allocated ++ als.toArray } := by
    intro ls
    induction ls with
    | nil =>
      intro als r hlength
      rw [List.length_eq_zero_iff.1 hlength]
      simp only [List.zip_nil_right, Array.append_empty]
      rfl
    | cons l ls ih =>
      intro als r hlength
      cases als with
      | nil => cases hlength
      | cons al als =>
        have hstep : PlanSink.level l al r =
            .ok () { r with leveled := r.leveled.push l, allocated := r.allocated.push al } := rfl
        change (PlanSink.level l al >>= fun _ => (ls.zip als).forM _ : Action PlanRecord Unit) r = _
        rw [Action.bind_of_ok hstep, ih _ _ (Nat.succ.inj hlength)]
        simp
  rw [PlanSink.tell_eq_ok_iff]
  refine ⟨_, hlevels _ _ _ h, ?_⟩
  simp [PlanSink.finish, PlanRecord.finish, PlanSink.start, PlanRecord.start, PlanRecord.empty]
  rfl

namespace StreamPair

theorem level_eq_ok_iff {l : LeveledLevel} {al : AllocatedLevel} {w w' : StreamPair} :
    PlanSink.level l al w = .ok () w' ↔ ∃ e a, LevelEncoder.encode l w.levels = .ok () e ∧
      AddressEncoder.encode al w.addresses = .ok () a ∧ w' = { w with levels := e, addresses := a } := by
  change level l al w = _ ↔ _
  rw [level, Action.bind_eq_ok_iff]
  constructor
  · intro ⟨_, w1, hlevels, haddresses⟩
    obtain ⟨e, he, rfl⟩ := Action.within_eq_ok_iff.1 hlevels
    obtain ⟨a, ha, rfl⟩ := Action.within_eq_ok_iff.1 haddresses
    exact ⟨e, a, he, ha, rfl⟩
  · intro ⟨e, a, he, ha, hw'⟩
    exact ⟨(), _, Action.within_eq_ok_iff.2 ⟨e, he, rfl⟩, Action.within_eq_ok_iff.2 ⟨a, ha, hw'⟩⟩

/-- Each stream is encoded as if there were no other. -/
theorem levels_eq_ok_iff {ls : List LeveledLevel} {als : List AllocatedLevel} (hlength : als.length = ls.length)
    {w w' : StreamPair} : (ls.zip als).forM (fun l => PlanSink.level l.1 l.2) w = .ok () w' ↔
      ∃ e a, ls.forM LevelEncoder.encode w.levels = .ok () e ∧ als.forM AddressEncoder.encode w.addresses = .ok () a ∧
        w' = { w with levels := e, addresses := a } := by
  induction ls generalizing als w with
  | nil =>
    obtain rfl := List.length_eq_zero_iff.1 hlength
    constructor
    · intro h
      cases h
      exact ⟨_, _, rfl, rfl, rfl⟩
    · intro ⟨e, a, he, ha, hw'⟩
      cases he
      cases ha
      rw [hw']
      rfl
  | cons l ls ih =>
    cases als with
    | nil => cases hlength
    | cons al als =>
      rw [List.zip_cons_cons, Action.forM_cons_eq_ok_iff]
      constructor
      · intro ⟨w1, hlevel, hrest⟩
        obtain ⟨e1, a1, he1, ha1, rfl⟩ := level_eq_ok_iff.1 hlevel
        obtain ⟨e, a, he, ha, rfl⟩ := (ih (Nat.succ.inj hlength)).1 hrest
        exact ⟨e, a, Action.forM_cons_eq_ok_iff.2 ⟨e1, he1, he⟩, Action.forM_cons_eq_ok_iff.2 ⟨a1, ha1, ha⟩, rfl⟩
      · intro ⟨e, a, he, ha, hw'⟩
        obtain ⟨e1, he1, he⟩ := Action.forM_cons_eq_ok_iff.1 he
        obtain ⟨a1, ha1, ha⟩ := Action.forM_cons_eq_ok_iff.1 ha
        exact ⟨_, level_eq_ok_iff.2 ⟨e1, a1, he1, ha1, rfl⟩, (ih (Nat.succ.inj hlength)).2 ⟨e, a, he, ha, hw'⟩⟩

end StreamPair

/-! ## Allocation -/

theorem CompilerStats.foldl_addLevel (levels : List LeveledLevel) (s : CompilerStats) :
    levels.foldl addLevel s = { s with
      xors := s.xors + (levels.map fun l => l.xors.length).sum
      ands := s.ands + (levels.map fun l => l.ands.length).sum
      widths := (levels.map Level.size).foldl StreamStats.add s.widths } := by
  induction levels generalizing s with
  | nil => rfl
  | cons l levels ih =>
    rw [List.foldl_cons, ih, addLevel]
    simp only [List.map_cons, List.sum_cons, List.foldl_cons, Nat.add_assoc]

namespace Allocation

theorem addLevel_eq_ok_iff {l : LeveledLevel} {s s' : Allocation σ} :
    addLevel l s = .ok () s' ↔ ∃ al, SlotPool.allocateLevel l s.pool = .ok al s'.pool ∧
      PlanSink.level l al s.sink = .ok () s'.sink ∧ s'.stats = s.stats.addLevel l := by
  unfold addLevel
  rw [Action.bind_eq_ok_iff]
  constructor
  · intro ⟨al, s1, h1, h⟩
    obtain ⟨pool, hpool, rfl⟩ := Action.within_eq_ok_iff.1 h1
    obtain ⟨_, s2, h2, h⟩ := Action.bind_eq_ok_iff.1 h
    obtain ⟨w, hw, rfl⟩ := Action.within_eq_ok_iff.1 h2
    cases h
    exact ⟨al, hpool, hw, rfl⟩
  · intro ⟨al, hpool, hw, hstats⟩
    refine ⟨al, _, Action.within_eq_ok_iff.2 ⟨_, hpool, rfl⟩, Action.bind_eq_ok_iff.2
      ⟨(), _, Action.within_eq_ok_iff.2 ⟨_, hw, rfl⟩, ?_⟩⟩
    cases s'
    cases hstats
    rfl

theorem addLevels_eq_ok_iff {levels : List LeveledLevel} {s s' : Allocation σ} :
    levels.forM addLevel s = .ok () s' ↔ ∃ als, levels.mapM SlotPool.allocateLevel s.pool = .ok als s'.pool ∧
      (levels.zip als).forM (fun l => PlanSink.level l.1 l.2) s.sink = .ok () s'.sink ∧
        s'.stats = levels.foldl CompilerStats.addLevel s.stats := by
  induction levels generalizing s with
  | nil =>
    constructor
    · intro h
      cases h
      exact ⟨[], rfl, rfl, rfl⟩
    · intro ⟨als, hpool, hsink, hstats⟩
      obtain ⟨rfl, hpool⟩ := Action.mapM_nil_eq_ok_iff.1 hpool
      obtain ⟨pool, w, stats⟩ := s'
      cases hsink
      cases hstats
      cases hpool
      rfl
  | cons l levels ih =>
    rw [Action.forM_cons_eq_ok_iff]
    constructor
    · intro ⟨s1, h1, h⟩
      obtain ⟨al, hpool1, hsink1, hstats1⟩ := addLevel_eq_ok_iff.1 h1
      obtain ⟨als, hpool, hsink, hstats⟩ := ih.1 h
      refine ⟨al :: als, Action.mapM_cons_eq_ok_iff.2 ⟨al, _, als, hpool1, hpool, rfl⟩,
        Action.forM_cons_eq_ok_iff.2 ⟨_, hsink1, hsink⟩, ?_⟩
      rw [hstats, hstats1, List.foldl_cons]
    · intro ⟨as, hpools, hsinks, hstats⟩
      obtain ⟨al, pool, als, hpool1, hpool, rfl⟩ := Action.mapM_cons_eq_ok_iff.1 hpools
      obtain ⟨w, hsink1, hsink⟩ := Action.forM_cons_eq_ok_iff.1 hsinks
      exact ⟨⟨pool, w, s.stats.addLevel l⟩, addLevel_eq_ok_iff.2 ⟨al, hpool1, hsink1, rfl⟩,
        ih.2 ⟨als, hpool, hsink, hstats⟩⟩

/-- A sink that takes every level does not hide why the levels have no slots. -/
theorem addLevels_of_error (htakes : PlanSink.TakesLevels σ) {levels : List LeveledLevel} {s : Allocation σ}
    {fault : Fault} {pool : SlotPool} (h : levels.mapM SlotPool.allocateLevel s.pool = .error fault pool) :
    ∃ s', levels.forM addLevel s = .error fault s' := by
  induction levels generalizing s with
  | nil => cases h
  | cons l levels ih =>
    change ∃ s', (addLevel l >>= fun _ => levels.forM addLevel) s = .error fault s'
    rcases Action.mapM_cons_eq_error_iff.1 h with h | ⟨al, pool1, hpool, h⟩
    · exact ⟨_, Action.bind_of_error (Action.bind_of_error (Action.within_of_error h))⟩
    · obtain ⟨w, hsink⟩ := htakes l al s.sink
      have hstep : addLevel l s = .ok () ⟨pool1, w, s.stats.addLevel l⟩ :=
        addLevel_eq_ok_iff.2 ⟨al, hpool, hsink, rfl⟩
      rw [Action.bind_of_ok hstep]
      exact ih h

theorem addLevels_of_ok (htakes : PlanSink.TakesLevels σ) {levels : List LeveledLevel} {s : Allocation σ}
    {als : List AllocatedLevel} {pool : SlotPool}
    (h : levels.mapM SlotPool.allocateLevel s.pool = .ok als pool) :
    ∃ s', levels.forM addLevel s = .ok () s' ∧ s'.pool = pool := by
  obtain ⟨w, hsink⟩ := htakes.forM (levels.zip als) s.sink
  exact ⟨⟨pool, w, _⟩, addLevels_eq_ok_iff.2 ⟨als, h, hsink, rfl⟩, rfl⟩

omit [Inhabited σ] [PlanSink σ] in
theorem outputAddresses_eq (outputs : List Nat) (s : Allocation σ) :
    outputAddresses outputs s = Action.ofExcept (outputs.mapM s.pool.addressOf) s := rfl

theorem finish_of_ok {c : Circuit} {s : Allocation σ} {outputs : List Nat}
    (h : c.outputs.mapM s.pool.addressOf = .ok outputs) :
    finish c s = onSink (PlanSink.finish s.pool.peak outputs) s :=
  Action.bind_of_ok ((outputAddresses_eq ..).trans (Action.ofExcept_eq_ok_iff.2 ⟨h, rfl⟩))

/-- An output without an address is found before the sink is finished. -/
theorem finish_of_error {c : Circuit} {s : Allocation σ} {fault : Fault}
    (h : c.outputs.mapM s.pool.addressOf = .error fault) : finish c s = .error fault s := by
  refine Action.bind_of_error ((outputAddresses_eq ..).trans ?_)
  rw [h]
  rfl

/-- What a run makes of the levels, and what it tells the sink. -/
theorem run_eq_ok_iff {c : Circuit} {levels : List LeveledLevel} {s s' : Allocation σ} :
    run c levels s = .ok () s' ↔ ∃ als outputs, levels.mapM SlotPool.allocateLevel s.pool = .ok als s'.pool ∧
      c.outputs.mapM s'.pool.addressOf = .ok outputs ∧
        PlanSink.tell levels ⟨c.inputs, s'.pool.peak, als, outputs⟩ s.sink = .ok () s'.sink ∧
          s'.stats = levels.foldl CompilerStats.addLevel s.stats := by
  change (levels.forM addLevel >>= fun _ => finish c) { s with sink := PlanSink.start c.inputs s.sink } =
    .ok () s' ↔ _
  rw [Action.bind_eq_ok_iff]
  constructor
  · intro ⟨_, s1, hlevels, h⟩
    obtain ⟨als, hpool, hsink, hstats⟩ := addLevels_eq_ok_iff.1 hlevels
    cases houts : c.outputs.mapM s1.pool.addressOf with
    | error fault =>
      rw [finish_of_error houts] at h
      cases h
    | ok outputs =>
      rw [finish_of_ok houts] at h
      obtain ⟨w, hfinish, rfl⟩ := Action.within_eq_ok_iff.1 h
      exact ⟨als, outputs, hpool, houts, PlanSink.tell_eq_ok_iff.2 ⟨s1.sink, hsink, hfinish⟩, hstats⟩
  · intro ⟨als, outputs, hpool, houts, htell, hstats⟩
    obtain ⟨w, hsink, hfinish⟩ := PlanSink.tell_eq_ok_iff.1 htell
    let s1 : Allocation σ := ⟨s'.pool, w, s'.stats⟩
    have hend : finish c s1 = onSink (PlanSink.finish s1.pool.peak outputs) s1 := finish_of_ok houts
    refine ⟨(), s1, addLevels_eq_ok_iff.2 ⟨als, hpool, hsink, hstats⟩, ?_⟩
    rw [hend]
    exact Action.within_eq_ok_iff.2 ⟨s'.sink, hfinish, rfl⟩

theorem run_of_error (htakes : PlanSink.TakesLevels σ) {c : Circuit} {levels : List LeveledLevel}
    {s : Allocation σ} {fault : Fault}
    (h : (∃ pool, levels.mapM SlotPool.allocateLevel s.pool = .error fault pool) ∨
      ∃ als pool, levels.mapM SlotPool.allocateLevel s.pool = .ok als pool ∧
        c.outputs.mapM pool.addressOf = .error fault) :
    ∃ s', run c levels s = .error fault s' := by
  let s0 : Allocation σ := { s with sink := PlanSink.start c.inputs s.sink }
  change ∃ s', (levels.forM addLevel >>= fun _ => finish c) s0 = .error fault s'
  rcases h with ⟨pool, hpool⟩ | ⟨als, pool, hpool, houts⟩
  · obtain ⟨s', hlevels⟩ := addLevels_of_error htakes (s := s0) hpool
    exact ⟨s', Action.bind_of_error hlevels⟩
  · obtain ⟨s1, hlevels, hs1⟩ := addLevels_of_ok htakes (s := s0) hpool
    rw [Action.bind_of_ok hlevels]
    exact ⟨s1, finish_of_error (hs1 ▸ houts)⟩

end Allocation

/-! ## Plans -/

/-- The plan `p` of a circuit with the given credits, and the pool that its
allocation leaves. -/
structure Compiled (bits : Nat) (c : Circuit) (credits : Nat → Nat) (p : Plan) (pool : SlotPool) : Prop where
  valid : c.Valid
  affords : c.Affords credits
  width : 0 < bits ∧ bits ≤ maxAddressBits
  room : c.permanent ≤ addressSpace bits
  inputs : p.inputs = c.inputs
  levels : (c.leveledLevels credits).mapM SlotPool.allocateLevel (SlotPool.initial bits c.permanent) =
    .ok p.levels pool
  outputs : c.outputs.mapM pool.addressOf = .ok p.outputs
  slots : p.slots = pool.peak

theorem Compiled.run_eq {bits : Nat} {c : Circuit} {credits : Nat → Nat} {p : Plan} {pool : SlotPool}
    (hc : Compiled bits c credits p pool) {w w' : σ} {stats : CompilerStats}
    (htell : PlanSink.tell (c.leveledLevels credits) p w = .ok () w') :
    Allocation.run c (c.leveledLevels credits) ⟨SlotPool.initial bits c.permanent, w, stats⟩ =
      .ok () ⟨pool, w', (c.leveledLevels credits).foldl CompilerStats.addLevel stats⟩ := by
  obtain ⟨inputs, slots, als, outputs⟩ := p
  obtain rfl : inputs = c.inputs := hc.inputs
  obtain rfl : slots = pool.peak := hc.slots
  exact Allocation.run_eq_ok_iff.2 ⟨als, outputs, hc.levels, hc.outputs, htell, rfl⟩

namespace Compiler

/-- The allocation of a circuit, before its levels. -/
def firstAllocation (s : Compiler) (c : Circuit) (w : σ) : Allocation σ :=
  ⟨SlotPool.initial s.bits c.permanent, w, CompilerStats.start⟩

/-- **All that a compilation of a valid circuit can do.** Before its levels are
allocated, its credits, its address width and the room for its permanent wires
are looked at, in this order, and the sink is told nothing. -/
theorem compileLevels_cases {c : Circuit} (hv : c.Valid) (s : Compiler) (columns : Nat) (table : CreditTable)
    (w : σ) :
    (¬ c.Affords (table.getD · 0) ∧ (∃ fault, (s.compileLevels columns c table w).ending = .error fault ∧
      Leveling.IsCreditFault fault) ∧ (s.compileLevels columns c table w).sink = w) ∨
    (c.Affords (table.getD · 0) ∧ (s.bits = 0 ∨ s.bits > maxAddressBits) ∧
      (s.compileLevels columns c table w).ending = .error .addressWidth ∧
        (s.compileLevels columns c table w).sink = w) ∨
    (c.Affords (table.getD · 0) ∧ (0 < s.bits ∧ s.bits ≤ maxAddressBits) ∧ addressSpace s.bits < c.permanent ∧
      (s.compileLevels columns c table w).ending = .error (.permanentTooMany c.permanent s.bits) ∧
        (s.compileLevels columns c table w).sink = w) ∨
    (c.Affords (table.getD · 0) ∧ (0 < s.bits ∧ s.bits ≤ maxAddressBits) ∧ c.permanent ≤ addressSpace s.bits ∧
      ∃ ending a, (Allocation.run c (c.leveledLevels (table.getD · 0))).outcome (s.firstAllocation c w) = (ending, a) ∧
        (s.compileLevels columns c table w).ending = ending ∧ (s.compileLevels columns c table w).sink = a.sink) := by
  unfold compileLevels
  rcases Leveling.addGates_cases hv table with ⟨hafford, l, hadd, hplaced⟩ | ⟨hnot, fault, l, hadd, hfault⟩
  swap
  · rw [hadd]
    exact .inl ⟨hnot, ⟨fault, rfl, hfault⟩, rfl⟩
  rw [hadd]
  dsimp only
  rw [hplaced.allLevels_eq hv, SlotPool.ofCircuit_eq]
  by_cases hwidth : s.bits = 0 ∨ s.bits > maxAddressBits
  · rw [if_pos hwidth]
    exact .inr (.inl ⟨hafford, hwidth, rfl, rfl⟩)
  rw [if_neg hwidth]
  by_cases hroom : c.permanent > addressSpace s.bits
  · rw [if_pos hroom]
    exact .inr (.inr (.inl ⟨hafford, by omega, hroom, rfl, rfl⟩))
  rw [if_neg hroom]
  dsimp only
  refine .inr (.inr (.inr ⟨hafford, by omega, by omega, ?_⟩))
  rw [firstAllocation, Action.outcome]
  cases Allocation.run c (c.leveledLevels (table.getD · 0))
      ⟨SlotPool.initial s.bits c.permanent, w, CompilerStats.start⟩ with
  | ok u a => exact ⟨_, _, rfl, rfl, rfl⟩
  | error fault a => exact ⟨_, _, rfl, rfl, rfl⟩

/-- **A compilation succeeds exactly when there is a plan and the sink takes
it.** -/
theorem compileLevels_eq_ok_iff {s : Compiler} {columns : Nat} {c : Circuit} (hv : c.Valid) {table : CreditTable}
    {w w' : σ} :
    (s.compileLevels columns c table w).ending = .ok () ∧ (s.compileLevels columns c table w).sink = w' ↔
      ∃ p pool, Compiled s.bits c (table.getD · 0) p pool ∧
        PlanSink.tell (c.leveledLevels (table.getD · 0)) p w = .ok () w' := by
  rcases compileLevels_cases hv s columns table w with ⟨hnot, ⟨fault, hending, -⟩, -⟩ | ⟨-, hwidth, hending, -⟩ |
    ⟨-, -, hroom, hending, -⟩ | ⟨hafford, hwidth, hroom, ending, a, hrun, hending, hsink⟩
  · rw [hending]
    refine ⟨fun h => (by cases h.1), fun ⟨p, pool, hc, _⟩ => absurd hc.affords hnot⟩
  · rw [hending]
    refine ⟨fun h => (by cases h.1), fun ⟨p, pool, hc, _⟩ => ?_⟩
    have := hc.width
    omega
  · rw [hending]
    refine ⟨fun h => (by cases h.1), fun ⟨p, pool, hc, _⟩ => ?_⟩
    have := hc.room
    omega
  · rw [firstAllocation] at hrun
    rw [hending, hsink]
    constructor
    · intro h
      obtain ⟨rfl, rfl⟩ := h
      obtain ⟨als, outputs, hlevels, houtputs, htell, -⟩ :=
        Allocation.run_eq_ok_iff.1 (Action.outcome_eq_ok_iff.1 hrun)
      exact ⟨_, a.pool, ⟨hv, hafford, hwidth, hroom, rfl, hlevels, houtputs, rfl⟩, htell⟩
    · intro ⟨p, pool, hc, htell⟩
      rw [Action.outcome_eq_ok_iff.2 (hc.run_eq htell)] at hrun
      cases hrun
      exact ⟨rfl, rfl⟩

theorem compileWith_eq_ok_iff {s : Compiler} {columns : Nat} {c : Circuit} {table : CreditTable} {w w' : σ} :
    (s.compileWith columns c table w).ending = .ok () ∧ (s.compileWith columns c table w).sink = w' ↔
      table.size = c.wires ∧ ∃ p pool, Compiled s.bits c (table.getD · 0) p pool ∧
        PlanSink.tell (c.leveledLevels (table.getD · 0)) p w = .ok () w' := by
  unfold compileWith
  cases hvalidate : c.validate with
  | error fault =>
    constructor
    · intro h
      obtain ⟨h, -⟩ := h
      cases h
    · intro h
      obtain ⟨-, p, pool, hc, -⟩ := h
      rw [(Circuit.validate_eq_ok_iff c).2 hc.valid] at hvalidate
      cases hvalidate
  | ok u =>
    have hv := (Circuit.validate_eq_ok_iff c).1 hvalidate
    by_cases hsize : table.size = c.wires
    · have hcheck : table.checkSize c.wires = .ok () := if_neg (not_not.2 hsize)
      rw [hcheck]
      dsimp only
      rw [compileLevels_eq_ok_iff hv]
      exact (and_iff_right hsize).symm
    · have hcheck : table.checkSize c.wires = .error (.creditTableSize table.size c.wires) := if_pos hsize
      rw [hcheck]
      constructor
      · intro h
        obtain ⟨h, -⟩ := h
        cases h
      · intro h
        obtain ⟨h, -⟩ := h
        exact absurd h hsize

theorem compile_eq_ok_iff {s : Compiler} {columns : Nat} {c : Circuit} {w w' : σ} :
    (s.compile columns c w).ending = .ok () ∧ (s.compile columns c w).sink = w' ↔
      ∃ table, CreditTable.ofCircuit c = .ok table ∧ ∃ p pool, Compiled s.bits c (table.getD · 0) p pool ∧
        PlanSink.tell (c.leveledLevels (table.getD · 0)) p w = .ok () w' := by
  unfold compile
  cases htable : CreditTable.ofCircuit c with
  | error fault =>
    constructor
    · intro h
      obtain ⟨h, -⟩ := h
      cases h
    · intro h
      obtain ⟨table, h, -⟩ := h
      cases h
  | ok table =>
    have hv := CreditTable.valid_of_ofCircuit htable
    dsimp only
    rw [compileLevels_eq_ok_iff hv]
    constructor
    · intro h
      exact ⟨table, rfl, h⟩
    · intro ⟨_, h, hplan⟩
      cases h
      exact hplan

/-- Compiles a circuit with a given table, or without one with the credits that
the circuit needs. -/
def compileUsing (s : Compiler) (columns : Nat) (c : Circuit) (given : Option CreditTable) (w : σ) : Compilation σ :=
  match given with
  | some table => s.compileWith columns c table w
  | none => s.compile columns c w

/-- The table that a compilation goes by. -/
def Uses (c : Circuit) (given : Option CreditTable) (table : CreditTable) : Prop :=
  match given with
  | some given => table = given ∧ table.size = c.wires
  | none => CreditTable.ofCircuit c = .ok table

theorem compileUsing_eq_ok_iff {s : Compiler} {columns : Nat} {c : Circuit} {given : Option CreditTable} {w w' : σ} :
    (s.compileUsing columns c given w).ending = .ok () ∧ (s.compileUsing columns c given w).sink = w' ↔
      ∃ table, Uses c given table ∧ ∃ p pool, Compiled s.bits c (table.getD · 0) p pool ∧
        PlanSink.tell (c.leveledLevels (table.getD · 0)) p w = .ok () w' := by
  cases given with
  | none => exact compile_eq_ok_iff
  | some table =>
    refine compileWith_eq_ok_iff.trans ⟨fun ⟨hsize, hplan⟩ => ⟨table, ⟨rfl, hsize⟩, hplan⟩, ?_⟩
    intro h
    obtain ⟨_, ⟨rfl, hsize⟩, hplan⟩ := h
    exact ⟨hsize, hplan⟩

end Compiler

/-! ## Compilations -/

theorem Compiled.length_levels {bits : Nat} {c : Circuit} {credits : Nat → Nat} {p : Plan} {pool : SlotPool}
    (hc : Compiled bits c credits p pool) : p.levels.length = (c.leveledLevels credits).length :=
  Action.length_of_mapM_eq_ok hc.levels

theorem Compiled.map_levels {bits : Nat} {c : Circuit} {credits : Nat → Nat} {p : Plan} {pool : SlotPool}
    (hc : Compiled bits c credits p pool) {β : Type} (f : Nat → Nat → β) :
    p.levels.map (fun al => f al.xors.length al.ands.length) =
      (c.leveledLevels credits).map fun l => f l.xors.length l.ands.length := by
  refine Action.map_of_mapM_eq_ok (fun {l s al s'} hlevel => ?_) hc.levels
  obtain ⟨r, s1, hxors, hands, -, -⟩ := SlotPool.allocateLevel_eq_ok_iff.1 hlevel
  rw [Action.length_of_mapM_eq_ok hxors, Action.length_of_mapM_eq_ok hands]

/-- **What compiles into memory compiles into every sink that takes the plan.** -/
theorem Compiler.compileUsing_record {s : Compiler} {columns : Nat} {c : Circuit} {given : Option CreditTable}
    {w : PlanRecord} (hok : (s.compileUsing columns c given w).ending = .ok ()) :
    ∃ credits pool, Compiled s.bits c credits (s.compileUsing columns c given w).sink.plan pool ∧
      (s.compileUsing columns c given w).sink.leveled.toList = c.leveledLevels credits ∧
      ∀ {σ : Type} [Inhabited σ] [PlanSink σ] {v v' : σ},
        PlanSink.tell (c.leveledLevels credits) (s.compileUsing columns c given w).sink.plan v = .ok () v' →
          (s.compileUsing columns c given v).ending = .ok () ∧ (s.compileUsing columns c given v).sink = v' := by
  obtain ⟨table, huses, p, pool, hc, htell⟩ := compileUsing_eq_ok_iff.1 ⟨hok, rfl⟩
  rw [PlanRecord.tell_eq hc.length_levels] at htell
  obtain ⟨-, hsink⟩ := EStateM.Result.ok.inj htell
  have hplan : (s.compileUsing columns c given w).sink.plan = p := by rw [← hsink, PlanRecord.plan]
  have hleveled : (s.compileUsing columns c given w).sink.leveled.toList = c.leveledLevels (table.getD · 0) := by
    rw [← hsink]
  rw [hplan]
  exact ⟨_, pool, hc, hleveled, fun htold => compileUsing_eq_ok_iff.2 ⟨table, huses, p, pool, hc, htold⟩⟩

/-- A compilation of a circuit, with a given table or with the credits that the
circuit needs. -/
def Compilation.IsOf (r : Compilation σ) (s : Compiler) (c : Circuit) (w : σ) : Prop :=
  ∃ columns given, r = s.compileUsing columns c given w

theorem Compilation.IsOf.compiled_plan {r : Compilation PlanRecord} {s : Compiler} {c : Circuit} {w : PlanRecord}
    (hr : r.IsOf s c w) (hok : r.ending = .ok ()) :
    ∃ credits pool, Compiled s.bits c credits r.sink.plan pool := by
  obtain ⟨columns, given, rfl⟩ := hr
  obtain ⟨credits, pool, hc, -, -⟩ := Compiler.compileUsing_record hok
  exact ⟨credits, pool, hc⟩

/-- The sum and the carry of three bits: its last gate reuses the slot of the
first. -/
def fullAdder : Circuit :=
  ⟨3, [⟨.xor, 2, 3⟩, ⟨.xor, 5, 4⟩, ⟨.and, 2, 3⟩, ⟨.and, 5, 4⟩, ⟨.xor, 7, 8⟩], [6, 9]⟩

example : (Compiler.default.compile 0 fullAdder PlanRecord.empty).sink.plan =
    ⟨3, 9, [⟨1, [⟨2, 3, 5⟩], [⟨2, 3, 6⟩]⟩, ⟨2, [⟨5, 4, 7⟩], [⟨5, 4, 8⟩]⟩, ⟨3, [⟨6, 8, 5⟩], []⟩], [7, 5]⟩ := by
  decide +kernel

end GatePlan
