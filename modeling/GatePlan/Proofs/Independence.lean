/-
The gates of a level do not depend on each other. When a level begins, every
wire that it reads has an address that cannot be handed out before the level
ends (`SlotPool.Sound.not_available_of_address`), and its gates write slots
that can, each its own. So the level is independent (`Sound.independent`), in
every plan of every compilation, and a machine may run its gates in any order.
-/
import GatePlan.Proofs.Compilation
import GatePlan.Proofs.Machine

namespace GatePlan

namespace SlotPool

theorem Sound.independent {s s' : SlotPool} {l : LeveledLevel} {al : AllocatedLevel} (h : s.Sound)
    (hdisjoint : ∀ g ∈ l.gates, ∀ g' ∈ l.gates, g.wire1 ≠ g'.output ∧ g.wire2 ≠ g'.output)
    (hok : allocateLevel l s = .ok al s') : al.Independent s.permanent := by
  obtain ⟨s1, hgates, -⟩ := gates_of_allocateLevel hok
  have hall := h.gatesAllocated hgates
  have hreads := h.readsAt_of_disjoint hgates hdisjoint
  refine ⟨hall.nodup, fun a ha => h.permanent_le_of_available (hall.available a ha), fun a ha a' ha' => ?_⟩
  obtain ⟨i, hi, rfl⟩ := List.getElem_of_mem ha
  obtain ⟨h1, h2⟩ := (List.forall₂_iff_get.1 hreads).2 i (by rw [← hall.length]; exact hi) hi
  have hout := hall.available a' ha'
  exact ⟨fun heq => h.not_available_of_address h1 (heq ▸ hout), fun heq => h.not_available_of_address h2 (heq ▸ hout)⟩

end SlotPool

theorem Compiled.independent {bits : Nat} {c : Circuit} {credits : Nat → Nat} {p : Plan} {pool : SlotPool}
    (hc : Compiled bits c credits p pool) : ∀ l ∈ p.levels, l.Independent c.permanent := by
  refine (Action.mapM_keeps (fun s => s.Sound ∧ s.permanent = c.permanent) _ ?_ hc.levels
    ⟨SlotPool.sound_initial hc.room, rfl⟩).2
  intro l hl s al s' hs hok
  obtain ⟨level, -, rfl⟩ := List.mem_map.1 hl
  obtain ⟨s1, hgates, rfl⟩ := SlotPool.gates_of_allocateLevel hok
  have hall := hs.1.gatesAllocated hgates
  refine ⟨⟨hall.sound.endLevel, hall.permanent.trans hs.2⟩, ?_⟩
  rw [← hs.2]
  exact hs.1.independent (Circuit.leveledLevel_disjoint hc.valid credits _) hok

/-- **The gates of a level may be run in any order.** In a plan that a compiler
gives out, with a given table of credits or with its own, the gates of a level
write different slots, no permanent one, and none that a gate of the level
reads; so running them one by one in any order leaves the slots that running
them in their own order leaves. -/
theorem levels_run_in_any_order {s : Compiler} {c : Circuit} {w : PlanRecord} {r : Compilation PlanRecord}
    (hr : r.IsOf s c w) (hok : r.ending = .ok ()) {l : AllocatedLevel} (hl : l ∈ r.sink.plan.levels) :
    l.Independent (permanentWires c.inputs) ∧
      ∀ (slots : Array Bool) (order : List (GateType × AllocatedGate)), order.Perm l.typedGates →
        order.foldl Machine.runGate slots = Machine.runRange l slots (0, l.size) := by
  obtain ⟨credits, pool, hc⟩ := hr.compiled_plan hok
  have hindependent := hc.independent l hl
  refine ⟨hindependent, fun slots order hperm => ?_⟩
  rw [Machine.runRange_zero_size]
  exact hindependent.foldl_perm hperm slots

theorem full_adder_level_runs_in_any_order :
    ∃ l, l ∈ (Compiler.default.compileUsing 0 fullAdder none PlanRecord.empty).sink.plan.levels ∧ l.size = 2 ∧
      l.Independent (permanentWires 3) ∧
        ∀ (slots : Array Bool) (order : List (GateType × AllocatedGate)), order.Perm l.typedGates →
          order.foldl Machine.runGate slots = Machine.runRange l slots (0, l.size) := by
  have hl : (⟨2, [⟨5, 4, 7⟩], [⟨5, 4, 8⟩]⟩ : AllocatedLevel) ∈
      (Compiler.default.compileUsing 0 fullAdder none PlanRecord.empty).sink.plan.levels := by decide +kernel
  exact ⟨_, hl, rfl, levels_run_in_any_order ⟨0, none, rfl⟩ (by decide +kernel) hl⟩

end GatePlan
