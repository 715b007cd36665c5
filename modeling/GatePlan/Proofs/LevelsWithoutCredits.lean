/-
What credits have no part in. Leveling spends them, and drops what it knows of a
wire when they are used up, but the levels it finds are those in closed form,
and there the credits stand beside the gates only: without them
(`Level.uncredited`) the levels are one list for all tables. The level stream
encodes the numbers of the levels and the locations of their gates, and the plan
has an allocated gate for every leveled one, so neither depends on the credits.
-/
import GatePlan.Proofs.Compilation

namespace GatePlan

/-! ## Levels without their credits -/

def LeveledGate.uncredited (g : LeveledGate) : LeveledGate := { g with credits := 0 }

/-- A level in which no gate has credits. -/
def Level.uncredited (l : LeveledLevel) : LeveledLevel :=
  ⟨l.id, l.xors.map LeveledGate.uncredited, l.ands.map LeveledGate.uncredited⟩

theorem Level.gates_uncredited (l : LeveledLevel) : l.uncredited.gates = l.gates.map LeveledGate.uncredited :=
  List.map_append.symm

/-- **The levels of a circuit do not depend on the credits.** -/
theorem Circuit.uncredited_leveledLevels (c : Circuit) (credits : Nat → Nat) :
    (c.leveledLevels credits).map Level.uncredited = c.leveledLevels fun _ => 0 := by
  have hgate : LeveledGate.uncredited ∘ c.leveledGate credits = c.leveledGate fun _ => 0 := rfl
  simp [leveledLevels, leveledLevel, Level.uncredited, hgate]

/-! ## The plan -/

/-- The numbers of gates of a level, as its header has them. -/
def Level.header {γ : Type} (l : Level γ) : LevelHeader := ⟨l.xors.length, l.ands.length⟩

theorem Level.header_uncredited (l : LeveledLevel) : l.uncredited.header = l.header := by
  simp [header, uncredited]

variable {bits : Nat} {c : Circuit} {credits : Nat → Nat} {p : Plan} {pool : SlotPool}

/-- **The sizes of the levels of a plan do not depend on the credits.** -/
theorem Compiled.headers (hc : Compiled bits c credits p pool) :
    p.levels.map Level.header = (c.leveledLevels fun _ => 0).map Level.header := by
  rw [← c.uncredited_leveledLevels credits, List.map_map]
  exact (hc.map_levels LevelHeader.mk).trans (List.map_congr_left fun l _ => l.header_uncredited.symm)

/-! ## The level stream -/

namespace LevelEncoder

theorem encode_uncredited (l : LeveledLevel) : encode l.uncredited = encode l := by
  have hgate : ∀ current g, writeGate current (LeveledGate.uncredited g) = writeGate current g := fun _ _ => rfl
  have hgates : ∀ (current : Nat) (gs : List LeveledGate),
      (gs.map LeveledGate.uncredited).forM (writeGate current) = gs.forM (writeGate current) := by
    intro current gs
    simp only [List.forM_eq_forM, List.forM_map, hgate]
  have hrecord : writeRecord l.uncredited = writeRecord l := by
    simp only [writeRecord, Level.gates_uncredited, hgates]
    simp only [Level.uncredited, List.length_map]
  have hsize : l.uncredited.size = l.size := by simp [Level.size, Level.uncredited]
  simp only [encode, hrecord, hsize]
  rfl

theorem encode_levels_uncredited (ls : List LeveledLevel) :
    (ls.map Level.uncredited).forM encode = ls.forM encode := by
  simp only [List.forM_eq_forM, List.forM_map, encode_uncredited]

end LevelEncoder

theorem StreamPair.encode_of_tell {leveled : List LeveledLevel} (hlength : p.levels.length = leveled.length)
    {w w' : StreamPair} (h : PlanSink.tell leveled p w = .ok () w') :
    leveled.forM LevelEncoder.encode LevelEncoder.start = .ok () w'.levels := by
  obtain ⟨w1, htold, hfinish⟩ := PlanSink.tell_eq_ok_iff.1 h
  cases hfinish
  obtain ⟨e, a, hencode, -, rfl⟩ := (StreamPair.levels_eq_ok_iff hlength).1 htold
  exact hencode

/-! ## Two compilations -/

/-- **Credits have no part in leveling.** Two compilations of a circuit, with any
two tables and address widths that they come to their end with, hand on levels
that differ in the credits of their gates only. So the two plans have as many
levels, with as many gates of either type, and the level streams are the same. -/
theorem levels_do_not_depend_on_credits {s s' : Compiler} {columns columns' : Nat} {c : Circuit}
    {given given' : Option CreditTable} {memory memory' : PlanRecord}
    (hok : (s.compileUsing columns c given memory).ending = .ok ())
    (hok' : (s'.compileUsing columns' c given' memory').ending = .ok ()) :
    let r := (s.compileUsing columns c given memory).sink
    let r' := (s'.compileUsing columns' c given' memory').sink
    r.leveled.toList.map Level.uncredited = r'.leveled.toList.map Level.uncredited ∧
      r.plan.levels.map Level.header = r'.plan.levels.map Level.header ∧
      ∀ streams streams' : StreamPair, (s.compileUsing columns c given streams).ending = .ok () →
        (s'.compileUsing columns' c given' streams').ending = .ok () →
          (s.compileUsing columns c given streams).sink.levelStream =
            (s'.compileUsing columns' c given' streams').sink.levelStream := by
  obtain ⟨credits, pool, hc, hleveled, -⟩ := Compiler.compileUsing_record hok
  obtain ⟨credits', pool', hc', hleveled', -⟩ := Compiler.compileUsing_record hok'
  refine ⟨?leveled, ?plan, fun streams streams' hstreams hstreams' => ?streams⟩
  case leveled => rw [hleveled, hleveled', c.uncredited_leveledLevels, c.uncredited_leveledLevels]
  case plan => rw [hc.headers, hc'.headers]
  case streams =>
    obtain ⟨table, -, p, pool1, hc1, htell⟩ := Compiler.compileUsing_eq_ok_iff.1 ⟨hstreams, rfl⟩
    obtain ⟨table', -, p', pool1', hc1', htell'⟩ := Compiler.compileUsing_eq_ok_iff.1 ⟨hstreams', rfl⟩
    have hencode := StreamPair.encode_of_tell hc1.length_levels htell
    have hencode' := StreamPair.encode_of_tell hc1'.length_levels htell'
    rw [← LevelEncoder.encode_levels_uncredited, c.uncredited_leveledLevels] at hencode hencode'
    obtain ⟨-, hencoders⟩ := EStateM.Result.ok.inj (hencode.symm.trans hencode')
    rw [StreamPair.levelStream, StreamPair.levelStream, hencoders]

/-- A full adder whose half sum is given one credit too many takes ten slots, and its
levels are those with the credits that it needs. -/
theorem full_adder_levels_do_not_depend_on_credits :
    let r := (Compiler.default.compileUsing 0 fullAdder none PlanRecord.empty).sink
    let r' := (Compiler.default.compileUsing 0 fullAdder (some #[0, 0, 0, 0, 0, 3, 0, 1, 1, 0]) PlanRecord.empty).sink
    r.plan.slots = 9 ∧ r'.plan.slots = 10 ∧
      r.leveled.toList.map Level.uncredited = r'.leveled.toList.map Level.uncredited ∧
      (Compiler.default.compileUsing 0 fullAdder none StreamPair.empty).sink.levelStream =
        (Compiler.default.compileUsing 0 fullAdder (some #[0, 0, 0, 0, 0, 3, 0, 1, 1, 0])
          StreamPair.empty).sink.levelStream := by
  have hok : (Compiler.default.compileUsing 0 fullAdder none PlanRecord.empty).ending = .ok () := by decide +kernel
  have hok' : (Compiler.default.compileUsing 0 fullAdder (some #[0, 0, 0, 0, 0, 3, 0, 1, 1, 0]) PlanRecord.empty).ending =
      .ok () := by decide +kernel
  obtain ⟨hleveled, -, hstreams⟩ := levels_do_not_depend_on_credits hok hok'
  exact ⟨by decide +kernel, by decide +kernel, hleveled, hstreams _ _ (by decide +kernel) (by decide +kernel)⟩

end GatePlan
