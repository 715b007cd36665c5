/-
What a machine does with a level. The ranges that a level is shared in follow one
another (`exists_shares`), so they are its gates in order (`Consecutive.gates`),
and a level within the scratch space is run gate by gate, whatever the number of
threads (`runLevel_of_within`). Where no gate reads or writes what another one
writes (`Independent`), the order of the gates does not matter either
(`Independent.foldl_perm`): two such gates commute (`runGate_comm`).
-/
import Mathlib
import GatePlan.Machine

namespace GatePlan

/-! ## Ranges of gates -/

theorem Level.typedGates_map_snd {γ : Type} (l : Level γ) : l.typedGates.map Prod.snd = l.gates := by
  simp [typedGates, gates, Function.comp_def]

theorem Level.mem_gates_of_typedGates {γ : Type} {l : Level γ} {g : GateType × γ} (hg : g ∈ l.typedGates) :
    g.2 ∈ l.gates := by
  rw [← l.typedGates_map_snd]
  exact List.mem_map_of_mem hg

namespace Machine

theorem gatesBetween_eq (l : AllocatedLevel) (start stop : Nat) :
    gatesBetween l start stop = (l.typedGates.take stop).drop start := by
  rw [gatesBetween, Level.typedGates, List.take_append, List.drop_append, List.map_drop, List.map_take, List.map_drop,
    List.map_take, List.length_map, List.length_take, List.length_map]
  rcases Nat.le_total stop l.xors.length with hstop | hstop
  · rw [Nat.sub_eq_zero_of_le hstop, List.take_zero, List.drop_nil, List.drop_nil]
  · rw [Nat.min_eq_right hstop]

theorem gatesBetween_zero_size (l : AllocatedLevel) : gatesBetween l 0 l.size = l.typedGates := by
  rw [gatesBetween_eq, List.drop_zero, ← l.length_typedGates, List.take_length]

theorem runRange_zero_size (l : AllocatedLevel) (slots : Array Bool) :
    runRange l slots (0, l.size) = l.typedGates.foldl runGate slots := by
  rw [runRange, gatesBetween_zero_size]

/-! ## One gate -/

@[simp] theorem size_runGate (slots : Array Bool) (g : GateType × AllocatedGate) : (runGate slots g).size = slots.size :=
  Array.size_setIfInBounds

@[simp] theorem size_foldl_runGate (gs : List (GateType × AllocatedGate)) (slots : Array Bool) :
    (gs.foldl runGate slots).size = slots.size := by
  induction gs generalizing slots with
  | nil => rfl
  | cons g gs ih => simp [ih]

theorem getElem?_runGate_output {slots : Array Bool} {g : GateType × AllocatedGate} (h : g.2.output < slots.size) :
    (runGate slots g)[g.2.output]? =
      some (g.1.eval (slots.getD g.2.input1 false) (slots.getD g.2.input2 false)) := by
  rw [runGate, Array.getElem?_setIfInBounds_self_of_lt h]

theorem getElem?_runGate_of_ne {slots : Array Bool} {g : GateType × AllocatedGate} {a : Nat}
    (h : a ≠ g.2.output) : (runGate slots g)[a]? = slots[a]? := by
  rw [runGate, Array.getElem?_setIfInBounds_ne (Ne.symm h)]

theorem getD_runGate_of_ne {slots : Array Bool} {g : GateType × AllocatedGate} {a : Nat} (h : a ≠ g.2.output) :
    (runGate slots g).getD a false = slots.getD a false := by
  rw [Array.getD_eq_getD_getElem?, Array.getD_eq_getD_getElem?, getElem?_runGate_of_ne h]

theorem getElem?_foldl_runGate_of_ne {gs : List (GateType × AllocatedGate)} {slots : Array Bool} {a : Nat}
    (h : ∀ g ∈ gs, a ≠ g.2.output) : (gs.foldl runGate slots)[a]? = slots[a]? := by
  induction gs generalizing slots with
  | nil => rfl
  | cons g gs ih =>
    rw [List.foldl_cons, ih fun g' hg' => h g' (List.mem_cons_of_mem _ hg'),
      getElem?_runGate_of_ne (h g (List.mem_cons_self ..))]

theorem runGate_comm (slots : Array Bool) {g g' : GateType × AllocatedGate} (hout : g.2.output ≠ g'.2.output)
    (hg : g.2.input1 ≠ g'.2.output ∧ g.2.input2 ≠ g'.2.output)
    (hg' : g'.2.input1 ≠ g.2.output ∧ g'.2.input2 ≠ g.2.output) :
    runGate (runGate slots g) g' = runGate (runGate slots g') g := by
  have hfirst : runGate (runGate slots g) g' = (runGate slots g).setIfInBounds g'.2.output
      (g'.1.eval (slots.getD g'.2.input1 false) (slots.getD g'.2.input2 false)) := by
    rw [runGate, getD_runGate_of_ne hg'.1, getD_runGate_of_ne hg'.2]
  have hsecond : runGate (runGate slots g') g = (runGate slots g').setIfInBounds g.2.output
      (g.1.eval (slots.getD g.2.input1 false) (slots.getD g.2.input2 false)) := by
    rw [runGate, getD_runGate_of_ne hg.1, getD_runGate_of_ne hg.2]
  rw [hfirst, hsecond, runGate, runGate, Array.setIfInBounds_comm _ _ hout]

end Machine

/-! ## Independent gates -/

/-- No two gates of a level write one slot, none writes a permanent slot, and
none reads what a gate of the level writes. -/
structure Level.Independent (l : AllocatedLevel) (permanent : Nat) : Prop where
  nodup : (l.gates.map (·.output)).Nodup
  output_ge : ∀ g ∈ l.gates, permanent ≤ g.output
  unread : ∀ g ∈ l.gates, ∀ g' ∈ l.gates, g.input1 ≠ g'.output ∧ g.input2 ≠ g'.output

/-- **Independent gates may be run in any order.** -/
theorem Level.Independent.foldl_perm {l : AllocatedLevel} {permanent : Nat} (h : l.Independent permanent)
    {order : List (GateType × AllocatedGate)} (hperm : order.Perm l.typedGates) (slots : Array Bool) :
    order.foldl Machine.runGate slots = l.typedGates.foldl Machine.runGate slots := by
  have hnodup : (l.typedGates.map fun g => g.2.output).Nodup := by
    rw [show (fun g : GateType × AllocatedGate => g.2.output) = (·.output) ∘ Prod.snd from rfl, ← List.map_map,
      l.typedGates_map_snd]
    exact h.nodup
  refine (hperm.symm.foldl_eq' (fun g hg g' hg' slots => ?_) slots).symm
  by_cases hout : g.2.output = g'.2.output
  · rw [List.inj_on_of_nodup_map hnodup hg hg' hout]
  · exact Machine.runGate_comm slots hout (h.unread _ (Level.mem_gates_of_typedGates hg) _ (Level.mem_gates_of_typedGates hg'))
      (h.unread _ (Level.mem_gates_of_typedGates hg') _ (Level.mem_gates_of_typedGates hg))

/-! ## Levels within the scratch space -/

namespace Machine

/-- The gates of a level within `slots` slots. -/
def Within (slots : Nat) (l : AllocatedLevel) : Prop :=
  ∀ g ∈ l.gates, g.input1 < slots ∧ g.input2 < slots ∧ g.output < slots

theorem checkGate_eq_ok_iff {slots : Nat} {g : AllocatedGate} :
    checkGate slots g = .ok () ↔ g.input1 < slots ∧ g.input2 < slots ∧ g.output < slots := by
  unfold checkGate
  by_cases h : g.input1 < slots ∧ g.input2 < slots ∧ g.output < slots
  · rw [if_neg (by simp; omega)]
    exact iff_of_true rfl h
  · rw [if_pos (by simp only [ge_iff_le, Bool.or_eq_true, decide_eq_true_eq]; omega)]
    exact iff_of_false (by simp) h

theorem forM_checkGate_of_within {slots : Nat} {gs : List AllocatedGate}
    (h : ∀ g ∈ gs, g.input1 < slots ∧ g.input2 < slots ∧ g.output < slots) :
    gs.forM (checkGate slots) = .ok () := by
  induction gs with
  | nil => rfl
  | cons g gs ih =>
    have hg : checkGate slots g = .ok () := checkGate_eq_ok_iff.2 (h g (List.mem_cons_self ..))
    change (checkGate slots g >>= fun _ => gs.forM (checkGate slots)) = .ok ()
    rw [hg]
    exact ih fun g' hg' => h g' (List.mem_cons_of_mem _ hg')

/-! ## Shares -/

/-- Ranges from `start` to `stop`, each of which begins where the one before it ends. -/
inductive Consecutive : (start : Nat) → List (Nat × Nat) → (stop : Nat) → Prop
  | nil (start : Nat) : Consecutive start [] start
  | cons {start next stop : Nat} {ranges : List (Nat × Nat)} (hle : start ≤ next)
      (hrest : Consecutive next ranges stop) : Consecutive start ((start, next) :: ranges) stop

namespace Consecutive

variable {start mid stop : Nat} {ranges more : List (Nat × Nat)}

theorem le (h : Consecutive start ranges stop) : start ≤ stop := by
  induction h with
  | nil => exact le_rfl
  | cons hle _ ih => exact hle.trans ih

theorem append (h : Consecutive start ranges mid) (h' : Consecutive mid more stop) :
    Consecutive start (ranges ++ more) stop := by
  induction h with
  | nil => exact h'
  | cons hle _ ih => exact .cons hle (ih h')

theorem flatMap_pieces {α : Type} (h : Consecutive start ranges stop) (xs : List α) :
    (ranges.flatMap fun range => (xs.take range.2).drop range.1) = (xs.take stop).drop start := by
  induction h with
  | nil start => simp
  | @cons start next stop ranges hle hrest ih =>
    have hcut : xs.take next = (xs.take stop).take next := by rw [List.take_take, Nat.min_eq_left hrest.le]
    have hdrop : (xs.take stop).drop next = ((xs.take stop).drop start).drop (next - start) := by
      rw [List.drop_drop, Nat.add_sub_cancel' hle]
    rw [List.flatMap_cons, ih, hcut, List.drop_take, hdrop, List.take_append_drop]

end Consecutive

theorem consecutive_pieces (share total : Nat) {count : Nat} (hcount : ∀ i < count, i * share ≤ total) :
    Consecutive 0 ((List.range count).map fun i => (i * share, min (i * share + share) total))
      (min (count * share) total) := by
  induction count with
  | zero =>
    rw [Nat.zero_mul, Nat.zero_min]
    exact .nil 0
  | succ count ih =>
    have hle : count * share ≤ total := hcount count (Nat.lt_succ_self _)
    have hbefore := ih fun i hi => hcount i (Nat.lt_succ_of_lt hi)
    rw [Nat.min_eq_left hle] at hbefore
    rw [List.range_succ, List.map_append, Nat.succ_mul]
    exact hbefore.append (.cons (le_min (Nat.le_add_right _ _) hle) (.nil _))

/-- How a level of `total` gates is shared: in consecutive ranges, none of them empty
unless the level is, and no more of them than there are threads or full shares. -/
structure SharedIn (threads total : Nat) (ranges : List (Nat × Nat)) : Prop where
  consecutive : Consecutive 0 ranges total
  nonempty : 0 < total → ∀ range ∈ ranges, range.1 < range.2
  length_le : ranges.length ≤ max 1 (min threads (total / gatesPerWorker))

/-- With a thread there is a worker for every level that is shared. -/
theorem exists_shares {threads : Nat} (hthreads : 0 < threads) (total : Nat) :
    ∃ ranges, shares threads total = .ok ranges ∧ SharedIn threads total ranges := by
  unfold shares
  split
  · exact ⟨_, rfl, .cons (Nat.zero_le _) (.nil _), by simp, by simp⟩
  rename_i hshared
  have hlarge : gatesPerWorker * 2 ≤ total := by
    by_contra hsmall
    exact hshared (by simp only [Bool.or_eq_true, decide_eq_true_eq]; omega)
  have hpositive : 0 < total := lt_of_lt_of_le (by decide) hlarge
  have hworker : 1 ≤ total / gatesPerWorker :=
    (Nat.one_le_div_iff (by decide)).2 ((Nat.le_mul_of_pos_right _ two_pos).trans hlarge)
  rw [if_neg (by omega)]
  refine ⟨_, rfl, ?_⟩
  generalize hworkers : min threads (total / gatesPerWorker) = workers
  have hsome : 0 < workers := by omega
  -- both quotients are rounded up
  generalize hshare : (total + workers - 1) / workers = share
  generalize hcount : (total + share - 1) / share = count
  have hshare' : total ⌈/⌉ workers = share := hshare
  have hcount' : total ⌈/⌉ share = count := hcount
  have hall : total ≤ workers * share := (ceilDiv_le_iff_le_mul hsome).1 hshare'.le
  have hnonempty : 0 < share := by
    by_contra hnone
    rw [Nat.eq_zero_of_not_pos hnone, Nat.mul_zero] at hall
    omega
  have hstarts : ∀ i < count, i * share < total := by
    intro i hi
    rw [← hcount', ← not_le, ceilDiv_le_iff_le_mul hnonempty, not_le] at hi
    rwa [Nat.mul_comm]
  have hend : total ≤ count * share := by
    rw [Nat.mul_comm]
    exact (ceilDiv_le_iff_le_mul hnonempty).1 hcount'.le
  refine ⟨?consecutive, fun _ range hrange => ?nonempty, ?length_le⟩
  case consecutive =>
    have hpieces := consecutive_pieces share total fun i hi => (hstarts i hi).le
    rwa [Nat.min_eq_right hend] at hpieces
  case nonempty =>
    obtain ⟨i, hi, rfl⟩ := List.mem_map.1 hrange
    exact lt_min (Nat.lt_add_of_pos_right hnonempty) (hstarts i (List.mem_range.1 hi))
  case length_le =>
    rw [List.length_map, List.length_range, hworkers, ← hcount']
    refine le_max_of_le_right ((ceilDiv_le_iff_le_mul hnonempty).2 ?_)
    rwa [Nat.mul_comm]

theorem Consecutive.gates {l : AllocatedLevel} {ranges : List (Nat × Nat)} (h : Consecutive 0 ranges l.size) :
    (ranges.flatMap fun range => gatesBetween l range.1 range.2) = l.typedGates := by
  have hpieces := h.flatMap_pieces l.typedGates
  rw [List.drop_zero, ← l.length_typedGates, List.take_length] at hpieces
  rw [← hpieces]
  exact List.flatMap_congr fun range _ => gatesBetween_eq l _ _

/-! ## Runs -/

/-- **A machine runs the gates of a level one by one**, however many threads
share them. -/
theorem runLevel_of_within {m : Machine} {l : AllocatedLevel} (hthreads : 0 < m.threads)
    (hwithin : Within m.slots.size l) :
    runLevel l m = .ok () { m with slots := l.typedGates.foldl runGate m.slots } := by
  obtain ⟨ranges, hranges, hshared⟩ := exists_shares hthreads l.size
  rw [runLevel, forM_checkGate_of_within hwithin, hranges, ← hshared.consecutive.gates, List.foldl_flatMap]
  rfl

/-- The slots after levels whose gates are run one by one. -/
def slotsAfter (slots : Array Bool) (levels : List AllocatedLevel) : Array Bool :=
  levels.foldl (fun slots l => l.typedGates.foldl runGate slots) slots

@[simp] theorem size_slotsAfter (slots : Array Bool) (levels : List AllocatedLevel) :
    (slotsAfter slots levels).size = slots.size := by
  induction levels generalizing slots with
  | nil => rfl
  | cons l levels ih => rw [slotsAfter, List.foldl_cons, ← slotsAfter, ih, size_foldl_runGate]

theorem run_of_within {m : Machine} {levels : List AllocatedLevel} (hthreads : 0 < m.threads)
    (hwithin : ∀ l ∈ levels, Within m.slots.size l) :
    run levels m = .ok () { m with slots := slotsAfter m.slots levels } := by
  induction levels generalizing m with
  | nil => rfl
  | cons l levels ih =>
    have hl := runLevel_of_within hthreads (hwithin l (List.mem_cons_self ..))
    have hrest := ih (m := { m with slots := l.typedGates.foldl runGate m.slots }) hthreads fun l' hl' => by
      rw [size_foldl_runGate]
      exact hwithin l' (List.mem_cons_of_mem _ hl')
    exact Action.forM_cons_eq_ok_iff.2 ⟨_, hl, hrest⟩

@[simp] theorem size_store (bits : List Bool) (slot : Nat) (slots : Array Bool) :
    (store bits slot slots).size = slots.size := by
  induction bits generalizing slot slots with
  | nil => rfl
  | cons b rest ih => rw [store, ih, Array.size_setIfInBounds]

theorem outputs_of_lt {m : Machine} {addresses : List Nat} (h : ∀ a ∈ addresses, a < m.slots.size) :
    ∃ bits, m.outputs addresses = .ok bits ∧ bits.length = addresses.length := by
  induction addresses with
  | nil => exact ⟨[], rfl, rfl⟩
  | cons a addresses ih =>
    obtain ⟨bits, hbits, hlength⟩ := ih fun a' ha' => h a' (List.mem_cons_of_mem _ ha')
    have ha := h a (List.mem_cons_self ..)
    refine ⟨m.slots[a] :: bits, ?_, by rw [List.length_cons, hlength, List.length_cons]⟩
    refine Action.exceptMapM_cons_eq_ok_iff.2 ⟨_, bits, ?_, hbits, rfl⟩
    rw [Array.getElem?_eq_getElem ha]

end Machine

/-- A plan is evaluated by loading the inputs, running its levels and reading its outputs. -/
theorem Plan.evaluate_of_run {p : Plan} {bits : List Bool} {m m1 m2 : Machine} (hset : Machine.setInputs bits m = .ok () m1)
    (hrun : Machine.run p.levels m1 = .ok () m2) : p.evaluate m bits = m2.outputs p.outputs := by
  have hstep : (Machine.setInputs bits >>= fun _ => Machine.run p.levels : Action Machine Unit) m = .ok () m2 := by
    rw [Action.bind_of_ok hset]
    exact hrun
  rw [Plan.evaluate, Action.outcome_eq_ok_iff.2 hstep]
  rfl

end GatePlan
