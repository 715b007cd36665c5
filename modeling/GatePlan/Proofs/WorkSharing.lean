/-
Sharing a level loses no gate and runs none twice. How many workers there are and
how many gates each of them gets are quotients, one rounded down and one rounded
up, and each range of gates is cut out of the XOR gates and the AND gates apart.
That the ranges follow one another (`Consecutive`) settles all of it: their numbers
are those of the gates in order (`Consecutive.numbers`), wherever the XOR gates end.
-/
import GatePlan.Proofs.Machine

namespace GatePlan

namespace Machine

namespace Consecutive

variable {start stop : Nat} {ranges : List (Nat × Nat)}

theorem numbers (h : Consecutive start ranges stop) :
    (ranges.flatMap fun range => List.range' range.1 (range.2 - range.1)) = List.range' start (stop - start) := by
  induction h with
  | nil start => simp
  | @cons start next stop ranges hle hrest ih =>
    have hlast := hrest.le
    have hglue : List.range' start (next - start) ++ List.range' next (stop - next) =
        List.range' start (next - start + (stop - next)) := by
      rw [← List.range'_append_1, Nat.add_sub_cancel' hle]
    rw [List.flatMap_cons, ih, hglue]
    congr 1
    omega

theorem start_le (h : Consecutive start ranges stop) : ∀ range ∈ ranges, start ≤ range.1 := by
  induction h with
  | nil => simp
  | cons hle _ ih =>
    intro range hrange
    rcases List.mem_cons.1 hrange with rfl | hrest
    · exact le_rfl
    · exact hle.trans (ih range hrest)

theorem disjoint (h : Consecutive start ranges stop) : ranges.Pairwise fun range later => range.2 ≤ later.1 := by
  induction h with
  | nil => exact .nil
  | cons _ hrest ih => exact .cons (fun later hlater => hrest.start_le later hlater) ih

end Consecutive

/-- **The ranges of a level, run one after the other, are the level.** They follow one
another from the first gate to the last, none is empty, and there are no more of
them than threads or full shares of 4096 gates, but at least one. Each is run as
the gates with its numbers, XOR gates first, so every gate is run once and in
order: the slots are those that the gates leave one by one. -/
theorem shared_level_runs_every_gate_once {m : Machine} {l : AllocatedLevel} (hthreads : 1 ≤ m.threads)
    (hnonempty : l.gates ≠ []) (hwithin : Within m.slots.size l) :
    ∃ ranges, shares m.threads l.size = .ok ranges ∧
      Consecutive 0 ranges l.size ∧ (∀ range ∈ ranges, range.1 < range.2) ∧
      ranges.Pairwise (fun range later => range.2 ≤ later.1) ∧
      (ranges.flatMap fun range => List.range' range.1 (range.2 - range.1)) = List.range l.size ∧
      ranges.length ≤ max 1 (min m.threads (l.size / 4096)) ∧
      (∀ range ∈ ranges, gatesBetween l range.1 range.2 = (l.typedGates.take range.2).drop range.1) ∧
      (ranges.flatMap fun range => gatesBetween l range.1 range.2) = l.typedGates ∧
      ranges.foldl (runRange l) m.slots = runRange l m.slots (0, l.size) ∧
      runRange l m.slots (0, l.size) = l.typedGates.foldl runGate m.slots ∧
      runLevel l m = .ok () { m with slots := ranges.foldl (runRange l) m.slots } := by
  have hsize : 0 < l.size := by
    rw [← l.length_gates]
    exact List.length_pos_of_ne_nil hnonempty
  obtain ⟨ranges, hranges, hshared⟩ := exists_shares hthreads l.size
  have hgates := hshared.consecutive.gates
  have hnumbers := hshared.consecutive.numbers
  rw [Nat.sub_zero, ← List.range_eq_range'] at hnumbers
  refine ⟨ranges, hranges, hshared.consecutive, hshared.nonempty hsize, hshared.consecutive.disjoint, hnumbers,
    hshared.length_le, fun range _ => gatesBetween_eq l _ _, hgates, ?_, runRange_zero_size .., ?_⟩
  · rw [runRange_zero_size, ← hgates, List.foldl_flatMap]
    rfl
  · rw [runLevel, forM_checkGate_of_within hwithin, hranges]

theorem foldl_runGate_replicate {g : GateType × AllocatedGate} (h1 : g.2.input1 ≠ g.2.output) (h2 : g.2.input2 ≠ g.2.output)
    (n : Nat) (slots : Array Bool) : (List.replicate (n + 1) g).foldl runGate slots = runGate slots g := by
  have hagain : ∀ slots, runGate (runGate slots g) g = runGate slots g := by
    intro slots
    rw [runGate, getD_runGate_of_ne h1, getD_runGate_of_ne h2, runGate, Array.setIfInBounds_setIfInBounds]
  induction n generalizing slots with
  | zero => rfl
  | succ n ih => rw [List.replicate_succ, List.foldl_cons, ih, hagain]

/-- Two of three threads share 5000 XOR gates and 4193 AND gates, and the first of
them stops before the XOR gates end. Both kinds of gates set their slot. -/
theorem straddling_range_runs_every_gate_once :
    let l : AllocatedLevel := ⟨1, List.replicate 5000 ⟨2, 0, 3⟩, List.replicate 4193 ⟨2, 1, 4⟩⟩
    let m : Machine := ⟨#[false, true, true, false, false], 1, 3⟩
    shares 3 9193 = .ok [(0, 4597), (4597, 9193)] ∧ runRange l m.slots (0, 9193) = #[false, true, true, true, true] ∧
      runLevel l m = .ok () { m with slots := #[false, true, true, true, true] } := by
  intro l m
  have hsize : l.size = 9193 := by simp only [l, Level.size, List.length_replicate]
  have hwithin : Within m.slots.size l := by
    intro g hg
    rcases List.mem_append.1 hg with hg | hg
    all_goals
      rw [List.eq_of_mem_replicate hg]
      decide
  obtain ⟨ranges, -, -, -, -, -, -, -, -, hsame, hgates, hrun⟩ := shared_level_runs_every_gate_once (m := m) (by decide)
    (List.ne_nil_of_length_pos (by rw [l.length_gates, hsize]; decide)) hwithin
  have hset : l.typedGates.foldl runGate m.slots = #[false, true, true, true, true] := by
    rw [Level.typedGates, List.map_replicate, List.map_replicate, List.foldl_append,
      foldl_runGate_replicate (by decide) (by decide), foldl_runGate_replicate (by decide) (by decide)]
    decide
  rw [hsize] at hsame hgates
  exact ⟨by decide +kernel, hgates.trans hset, by rw [hrun, hsame, hgates, hset]⟩

end Machine

end GatePlan
