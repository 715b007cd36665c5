/-
The address width decides whether a plan fits, and nothing else. Of all that an
allocation does, only taking a fresh slot looks at the width, to find out
whether one is left. So a pool that gets through with narrow addresses goes
through the same steps with wider ones (`Sound.takeSlot_widen`), gate by gate
and level by level, and hands out the same slots; the pools differ in their
width alone (`widen`).

The converse needs no second run in step: whether the narrow addresses suffice
is read off the peak (`Compiler.compileLevels_outcome`), and when they do, the
plan they give is the wide one again.
-/
import GatePlan.Proofs.GivenCredits

namespace GatePlan

theorem addressSpace_mono {narrow wide : Nat} (h : narrow ≤ wide) : addressSpace narrow ≤ addressSpace wide :=
  Nat.pow_le_pow_right two_pos h

/-! ## Pools in step -/

namespace SlotPool

variable {s s' : SlotPool} {wide : Nat}

/-- A pool with addresses of another width. -/
def widen (s : SlotPool) (wide : Nat) : SlotPool := { s with bits := wide }

@[simp] theorem capacity_widen (s : SlotPool) (wide : Nat) : (s.widen wide).capacity = addressSpace wide := rfl

@[simp] theorem permanent_widen (s : SlotPool) (wide : Nat) : (s.widen wide).permanent = s.permanent := rfl

@[simp] theorem peak_widen (s : SlotPool) (wide : Nat) : (s.widen wide).peak = s.peak := rfl

@[simp] theorem isInUse_widen (s : SlotPool) (wide a : Nat) : (s.widen wide).isInUse a = s.isInUse a := rfl

@[simp] theorem free_widen (s : SlotPool) (wide : Nat) : (s.widen wide).free = s.free := rfl

@[simp] theorem resident_widen (s : SlotPool) (wide : Nat) : (s.widen wide).resident = s.resident := rfl

theorem release_widen {a : Nat} (hok : release a s = .ok () s') (wide : Nat) :
    release a (s.widen wide) = .ok () (s'.widen wide) := by
  unfold release at hok ⊢
  rw [permanent_widen, peak_widen, isInUse_widen]
  by_cases hperm : a < s.permanent
  · rw [if_pos hperm] at hok
    cases hok
  by_cases hidle : (decide (a ≥ s.peak) || !s.isInUse a) = true
  · rw [if_neg hperm, if_pos hidle] at hok
    cases hok
  · rw [if_neg hperm, if_neg hidle] at hok ⊢
    cases hok
    rfl

theorem consume_widen {w a : Nat} (hok : consume w s = .ok a s') (wide : Nat) :
    consume w (s.widen wide) = .ok a (s'.widen wide) := by
  unfold consume at hok ⊢
  rw [permanent_widen, resident_widen]
  by_cases hperm : w < s.permanent
  · rw [if_pos hperm] at hok ⊢
    cases hok
    rfl
  rw [if_neg hperm] at hok ⊢
  cases hr : s.resident[w]? with
  | none =>
    rw [hr] at hok
    cases hok
  | some r =>
    rw [hr] at hok
    dsimp only at hok ⊢
    by_cases hnever : neverFreed r.credits = true
    · rw [if_pos hnever] at hok ⊢
      cases hok
      rfl
    rw [if_neg hnever] at hok ⊢
    by_cases hlast : r.credits = 1
    · rw [if_pos hlast] at hok ⊢
      cases hrelease : release r.address { s with resident := s.resident.erase w } with
      | error fault t =>
        rw [hrelease] at hok
        cases hok
      | ok u t =>
        rw [hrelease] at hok
        cases hok
        have hwide := release_widen hrelease wide
        simp only [widen] at hwide ⊢
        rw [hwide]
    · rw [if_neg hlast] at hok ⊢
      cases hok
      rfl

theorem Sound.takeSlot_widen (h : s.Sound) (hle : s.bits ≤ wide) {a : Nat} (hok : takeSlot s = .ok a s') :
    takeSlot (s.widen wide) = .ok a (s'.widen wide) := by
  have hcapacity : s.capacity ≤ addressSpace wide := addressSpace_mono hle
  have hfits := h.fits
  unfold takeSlot at hok ⊢
  rw [free_widen, peak_widen, capacity_widen]
  cases hfree : s.free with
  | cons slot rest =>
    rw [hfree] at hok
    cases hok
    rfl
  | nil =>
    rw [hfree] at hok
    dsimp only at hok ⊢
    by_cases hfull : s.peak = s.capacity
    · rw [if_pos hfull] at hok
      cases hok
    · rw [if_neg hfull] at hok
      rw [if_neg (by omega)]
      cases hok
      rw [← hfree]
      rfl

theorem Sound.allocate_widen (h : s.Sound) (hle : s.bits ≤ wide) {w credits a : Nat}
    (hok : allocate w credits s = .ok a s') : allocate w credits (s.widen wide) = .ok a (s'.widen wide) := by
  rw [allocate_eq] at hok ⊢
  rw [permanent_widen, resident_widen]
  split at hok
  · cases hok
  · rename_i hheld
    obtain ⟨slot, t, hslot, hgive⟩ := Action.bind_eq_ok_iff.1 hok
    cases hgive
    rw [if_neg hheld, Action.bind_of_ok (h.takeSlot_widen hle hslot)]
    rfl

theorem Sound.allocateGate_widen (h : s.Sound) (hle : s.bits ≤ wide) {g : LeveledGate} {a : AllocatedGate}
    (hok : allocateGate g s = .ok a s') : allocateGate g (s.widen wide) = .ok a (s'.widen wide) := by
  obtain ⟨s1, s2, h1, h2, h3⟩ := allocateGate_eq_ok_iff.1 hok
  have hc1 := h.consumed h1
  have hc2 := hc1.sound.consumed h2
  have hbits : s2.bits = s.bits := hc2.bits.trans hc1.bits
  exact allocateGate_eq_ok_iff.2 ⟨_, _, consume_widen h1 wide, consume_widen h2 wide,
    hc2.sound.allocate_widen (hbits ▸ hle) h3⟩

/-- Steps that a pool takes in either width, it takes one after the other. -/
theorem Sound.mapM_widen {α β : Type} {step : α → Action SlotPool β}
    (hkeeps : ∀ {x s y s'}, Sound s → step x s = .ok y s' → s'.Sound ∧ s'.bits = s.bits)
    (hstep : ∀ {x s y s'}, Sound s → s.bits ≤ wide → step x s = .ok y s' →
      step x (s.widen wide) = .ok y (s'.widen wide))
    (h : s.Sound) (hle : s.bits ≤ wide) {xs : List α} {ys : List β} (hok : xs.mapM step s = .ok ys s') :
    xs.mapM step (s.widen wide) = .ok ys (s'.widen wide) := by
  induction xs generalizing s ys with
  | nil =>
    obtain ⟨rfl, rfl⟩ := Action.mapM_nil_eq_ok_iff.1 hok
    rfl
  | cons x xs ih =>
    obtain ⟨y, t, zs, hx, hxs, rfl⟩ := Action.mapM_cons_eq_ok_iff.1 hok
    obtain ⟨hsound, hbits⟩ := hkeeps h hx
    exact Action.mapM_cons_eq_ok_iff.2 ⟨y, _, zs, hstep h hle hx, ih hsound (hbits ▸ hle) hxs, rfl⟩

theorem Sound.allocateGates_widen (h : s.Sound) (hle : s.bits ≤ wide) {gs : List LeveledGate} {as : List AllocatedGate}
    (hok : gs.mapM allocateGate s = .ok as s') : gs.mapM allocateGate (s.widen wide) = .ok as (s'.widen wide) := by
  refine h.mapM_widen (fun h hok => ?_) (fun h hle hok => h.allocateGate_widen hle hok) hle hok
  have hstep := h.gateAllocated hok
  exact ⟨hstep.sound, hstep.bits⟩

theorem Sound.allocateLevel_widen (h : s.Sound) (hle : s.bits ≤ wide) {l : LeveledLevel} {al : AllocatedLevel}
    (hok : allocateLevel l s = .ok al s') : allocateLevel l (s.widen wide) = .ok al (s'.widen wide) := by
  obtain ⟨r, s1, hx, ha, hid, rfl⟩ := allocateLevel_eq_ok_iff.1 hok
  have hxors := h.gatesAllocated hx
  exact allocateLevel_eq_ok_iff.2 ⟨_, _, h.allocateGates_widen hle hx,
    hxors.sound.allocateGates_widen (hxors.bits ▸ hle) ha, hid, rfl⟩

/-- **Levels that narrow addresses suffice for get the same slots by wider
ones.** -/
theorem Sound.allocateLevels_widen (h : s.Sound) (hle : s.bits ≤ wide) {ls : List LeveledLevel}
    {als : List AllocatedLevel} (hok : ls.mapM allocateLevel s = .ok als s') :
    ls.mapM allocateLevel (s.widen wide) = .ok als (s'.widen wide) := by
  refine h.mapM_widen (fun h hok => ?_) (fun h hle hok => h.allocateLevel_widen hle hok) hle hok
  obtain ⟨s1, hgates, rfl⟩ := gates_of_allocateLevel hok
  have hall := h.gatesAllocated hgates
  exact ⟨hall.sound.endLevel, hall.bits⟩

end SlotPool

/-! ## Plans -/

section Plans

variable {c : Circuit} {given : Option CreditTable} {table : CreditTable}

/-- A plan for narrow addresses is one for wider ones. -/
theorem Compiled.widen {narrow wide : Nat} {credits : Nat → Nat} {p : Plan} {pool : SlotPool}
    (hc : Compiled narrow c credits p pool) (hle : narrow ≤ wide) (hmax : wide ≤ maxAddressBits) :
    Compiled wide c credits p (pool.widen wide) where
  valid := hc.valid
  affords := hc.affords
  width := ⟨hc.width.1.trans_le hle, hmax⟩
  room := hc.room.trans (addressSpace_mono hle)
  inputs := hc.inputs
  levels := (SlotPool.sound_initial hc.room).allocateLevels_widen hle hc.levels
  outputs := hc.outputs
  slots := hc.slots

namespace Compiler

theorem compileUsing_of_uses {σ : Type} [Inhabited σ] [PlanSink σ] (huses : Uses c given table) (hv : c.Valid)
    (s : Compiler) (columns : Nat) (w : σ) :
    (s.compileUsing columns c given w).ending = (s.compileLevels columns c table w).ending ∧
      (s.compileUsing columns c given w).sink = (s.compileLevels columns c table w).sink := by
  cases given with
  | none =>
    have htable : CreditTable.ofCircuit c = .ok table := huses
    rw [compileUsing, compile, htable]
    exact ⟨rfl, rfl⟩
  | some given =>
    obtain ⟨rfl, hsize⟩ := huses
    rw [compileUsing, compileWith_of_size ((Circuit.validate_eq_ok_iff c).2 hv) hsize]
    exact ⟨rfl, rfl⟩

theorem compileUsing_widen {s s' : Compiler} (hle : s.bits ≤ s'.bits) (hmax : s'.bits ≤ maxAddressBits)
    {columns columns' : Nat} {w w' : PlanRecord} (hok : (s.compileUsing columns c given w).ending = .ok ()) :
    (s'.compileUsing columns' c given w').ending = .ok () ∧
      (s'.compileUsing columns' c given w').sink = (s.compileUsing columns c given w).sink := by
  obtain ⟨table, huses, p, pool, hc, htell⟩ := compileUsing_eq_ok_iff.1 ⟨hok, rfl⟩
  rw [PlanRecord.tell_eq hc.length_levels] at htell
  refine compileUsing_eq_ok_iff.2 ⟨table, huses, p, _, hc.widen hle hmax, ?_⟩
  rw [PlanRecord.tell_eq hc.length_levels, (EStateM.Result.ok.inj htell).2]

end Compiler

/-- **The address width only decides whether a compilation succeeds.** What
compiles with narrow addresses compiles with wider ones to the same plan. What
compiles with wide addresses compiles with narrower ones to the same plan if they
can name all its slots, and otherwise fails for want of addresses. -/
theorem width_only_decides_success {s s' : Compiler} (hpos : 0 < s.bits) (hle : s.bits ≤ s'.bits)
    (hmax : s'.bits ≤ maxAddressBits) (columns columns' : Nat) (c : Circuit) (given : Option CreditTable)
    (w w' : PlanRecord) :
    let narrow := s.compileUsing columns c given w
    let wide := s'.compileUsing columns' c given w'
    (narrow.ending = .ok () → wide.ending = .ok () ∧ wide.sink = narrow.sink) ∧
    (wide.ending = .ok () →
      (wide.sink.plan.slots ≤ addressSpace s.bits → narrow.ending = .ok () ∧ narrow.sink = wide.sink) ∧
      (addressSpace s.bits < wide.sink.plan.slots →
        ∃ fault, narrow.ending = .error fault ∧ fault.kind = .addressOverflow)) := by
  intro narrow wide
  have hwiden : narrow.ending = .ok () → wide.ending = .ok () ∧ wide.sink = narrow.sink :=
    fun hok => Compiler.compileUsing_widen hle hmax hok
  refine ⟨hwiden, fun hok => ?_⟩
  obtain ⟨table, huses, p, pool, hc, -⟩ := Compiler.compileUsing_eq_ok_iff.1 ⟨hok, rfl⟩
  have hnarrow := Compiler.compileUsing_of_uses huses hc.valid s columns w
  have hwide := Compiler.compileUsing_of_uses huses hc.valid s' columns' w'
  -- with the wide addresses neither slots nor an output were missed, so the plan has the peak's slots
  have hpeak : ¬ c.FreesOutput (table.getD · 0) ∧ wide.sink.plan.slots = c.peakWith (table.getD · 0) := by
    rcases Compiler.compileLevels_outcome hc.valid hc.affords hc.width columns' w' with
      ⟨-, fault, herror, -⟩ | ⟨-, -, v, herror⟩ | ⟨-, hkeeps, -, hslots⟩
    · rw [← hwide.1] at herror
      cases hok.symm.trans herror
    · rw [← hwide.1] at herror
      cases hok.symm.trans herror
    · exact ⟨hkeeps, by rw [← hslots, ← hwide.2]⟩
  rw [hpeak.2]
  rcases Compiler.compileLevels_outcome hc.valid hc.affords ⟨hpos, hle.trans hmax⟩ columns w with
    ⟨hlack, fault, herror, hkind⟩ | ⟨-, hfrees, -⟩ | ⟨hfits, -, hok', -⟩
  · exact ⟨fun hfits => by omega, fun _ => ⟨fault, hnarrow.1.trans herror, hkind⟩⟩
  · exact absurd hfrees hpeak.1
  · have hok' : narrow.ending = .ok () := hnarrow.1.trans hok'
    exact ⟨fun _ => ⟨hok', (hwiden hok').2.symm⟩, fun hlack => by omega⟩

end Plans

/-- A full adder has nine slots: its plan is the same by four bits and by
sixty-two, and there is none by three. -/
theorem full_adder_fits_four_bits :
    let by3 := Compiler.compileUsing ⟨3, false, CompilerStats.none⟩ 0 fullAdder none PlanRecord.empty
    let by4 := Compiler.compileUsing ⟨4, false, CompilerStats.none⟩ 0 fullAdder none PlanRecord.empty
    let by62 := Compiler.compileUsing ⟨62, false, CompilerStats.none⟩ 0 fullAdder none PlanRecord.empty
    by62.ending = .ok () ∧ by62.sink.plan.slots = 9 ∧ (by4.ending = .ok () ∧ by4.sink = by62.sink) ∧
      ∃ fault, by3.ending = .error fault ∧ fault.kind = .addressOverflow := by
  intro by3 by4 by62
  have hok : by62.ending = .ok () := by decide +kernel
  have hslots : by62.sink.plan.slots = 9 := by decide +kernel
  have hfour := @width_only_decides_success ⟨4, false, CompilerStats.none⟩ ⟨62, false, CompilerStats.none⟩
    (by decide) (by decide) (by decide) 0 0 fullAdder none PlanRecord.empty PlanRecord.empty
  have hthree := @width_only_decides_success ⟨3, false, CompilerStats.none⟩ ⟨62, false, CompilerStats.none⟩
    (by decide) (by decide) (by decide) 0 0 fullAdder none PlanRecord.empty PlanRecord.empty
  refine ⟨hok, hslots, (hfour.2 hok).1 ?_, (hthree.2 hok).2 ?_⟩
  · rw [hslots]
    decide
  · rw [hslots]
    decide

end GatePlan
