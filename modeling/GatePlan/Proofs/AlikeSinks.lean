/-
Sinks that a compiler cannot tell apart. Two steps are alike when they give the
same answers from related states and leave related states (`Action.Alike`). If
that holds of all that a compiler asks of two sinks, it compiles into both alike
(`Compiler.compileUsing_alike`): it ends the same, prints the same and counts the
same, whatever else the sinks hold.
-/
import GatePlan.Proofs.Compilation

namespace GatePlan

/-! ## Steps -/

namespace Action

variable {σ τ α β : Type}

/-- From states in `R` two steps give the same answer and leave states in `S`, or
fail with the same fault and leave states in `E`. -/
def Alike (E R S : σ → τ → Prop) (step : Action σ α) (step' : Action τ α) : Prop :=
  ∀ s t, R s t →
    (∃ a s' t', step s = .ok a s' ∧ step' t = .ok a t' ∧ S s' t') ∨
      ∃ fault s' t', step s = .error fault s' ∧ step' t = .error fault t' ∧ E s' t'

namespace Alike

variable {E R S T : σ → τ → Prop}

theorem bind {step : Action σ α} {step' : Action τ α} (h : Alike E R S step step') {next : α → Action σ β}
    {next' : α → Action τ β} (hnext : ∀ a, Alike E S T (next a) (next' a)) :
    Alike E R T (step >>= next) (step' >>= next') := by
  intro s t hst
  rcases h s t hst with ⟨a, s', t', hstep, hstep', hs⟩ | ⟨fault, s', t', hstep, hstep', he⟩
  · rw [bind_of_ok hstep, bind_of_ok hstep']
    exact hnext a s' t' hs
  · exact .inr ⟨fault, s', t', bind_of_error hstep, bind_of_error hstep', he⟩

theorem forM {step : α → Action σ Unit} {step' : α → Action τ Unit} (h : ∀ x, Alike E R R (step x) (step' x))
    (xs : List α) : Alike E R R (xs.forM step) (xs.forM step') := by
  induction xs with
  | nil => exact fun s t hst => .inl ⟨(), s, t, rfl, rfl, hst⟩
  | cons x xs ih => exact (h x).bind fun _ => ih

end Alike

end Action

/-! ## Allocations -/

variable {σ τ : Type} [Inhabited σ] [PlanSink σ] [Inhabited τ] [PlanSink τ] {E R S : σ → τ → Prop}

/-- Sinks in `E` are in `R` once they are started and stay there while they are
told levels; finished, they are in `S`. A call that fails leaves them in `E`. -/
structure PlanSink.Alike (E R S : σ → τ → Prop) : Prop where
  fallen : ∀ {v w}, R v w → E v w
  start : ∀ (inputs : Nat) {v w}, E v w → R (PlanSink.start inputs v) (PlanSink.start inputs w)
  level : ∀ (l : LeveledLevel) (al : AllocatedLevel), Action.Alike E R R (PlanSink.level l al) (PlanSink.level l al)
  finish : ∀ (slots : Nat) (outputs : List Nat),
    Action.Alike E R S (PlanSink.finish slots outputs) (PlanSink.finish slots outputs)

namespace Allocation

/-- Allocations that differ in what their sinks hold. -/
structure Alike (R : σ → τ → Prop) (a : Allocation σ) (b : Allocation τ) : Prop where
  pool : a.pool = b.pool
  stats : a.stats = b.stats
  sink : R a.sink b.sink

omit [Inhabited σ] [PlanSink σ] [Inhabited τ] [PlanSink τ] in
theorem alike_onPool {α : Type} (hfallen : ∀ {v w}, R v w → E v w) (step : Action SlotPool α) :
    Action.Alike (Alike E) (Alike R) (Alike R) (onPool step : Action (Allocation σ) α) (onPool step) := by
  intro a b h
  have hpool := h.pool
  cases hstep : step a.pool with
  | ok x pool =>
    refine .inl ⟨x, { a with pool := pool }, { b with pool := pool }, Action.within_eq_ok_iff.2 ⟨pool, hstep, rfl⟩,
      Action.within_eq_ok_iff.2 ⟨pool, hpool ▸ hstep, rfl⟩, ⟨rfl, h.stats, h.sink⟩⟩
  | error fault pool =>
    refine .inr ⟨fault, { a with pool := pool }, { b with pool := pool }, Action.within_of_error hstep,
      Action.within_of_error (hpool ▸ hstep), ⟨rfl, h.stats, hfallen h.sink⟩⟩

omit [PlanSink σ] [PlanSink τ] in
theorem alike_onSink {α : Type} {step : Action σ α} {step' : Action τ α} (hstep : Action.Alike E R S step step') :
    Action.Alike (Alike E) (Alike R) (Alike S) (onSink step) (onSink step') := by
  intro a b h
  rcases hstep a.sink b.sink h.sink with ⟨x, v, w, hok, hok', hs⟩ | ⟨fault, v, w, herror, herror', he⟩
  · exact .inl ⟨x, { a with sink := v }, { b with sink := w }, Action.within_eq_ok_iff.2 ⟨v, hok, rfl⟩,
      Action.within_eq_ok_iff.2 ⟨w, hok', rfl⟩, ⟨h.pool, h.stats, hs⟩⟩
  · exact .inr ⟨fault, { a with sink := v }, { b with sink := w }, Action.within_of_error herror,
      Action.within_of_error herror', ⟨h.pool, h.stats, he⟩⟩

theorem alike_addLevel (hsinks : PlanSink.Alike E R S) (l : LeveledLevel) :
    Action.Alike (Alike E) (Alike R) (Alike R) (addLevel l) (addLevel l) := by
  refine (alike_onPool hsinks.fallen _).bind fun al => (alike_onSink (hsinks.level l al)).bind fun _ => ?_
  intro a b h
  exact .inl ⟨(), _, _, rfl, rfl, ⟨h.pool, congrArg (CompilerStats.addLevel · l) h.stats, h.sink⟩⟩

theorem alike_finish (hsinks : PlanSink.Alike E R S) (c : Circuit) :
    Action.Alike (Alike E) (Alike R) (Alike S) (finish c) (finish c) := by
  intro a b h
  cases houtputs : c.outputs.mapM a.pool.addressOf with
  | error fault =>
    have houtputs' : c.outputs.mapM b.pool.addressOf = .error fault := h.pool ▸ houtputs
    exact .inr ⟨fault, a, b, finish_of_error houtputs, finish_of_error houtputs', ⟨h.pool, h.stats, hsinks.fallen h.sink⟩⟩
  | ok outputs =>
    have houtputs' : c.outputs.mapM b.pool.addressOf = .ok outputs := h.pool ▸ houtputs
    rw [finish_of_ok houtputs, finish_of_ok houtputs', ← h.pool]
    exact alike_onSink (hsinks.finish a.pool.peak outputs) a b h

theorem alike_run (hsinks : PlanSink.Alike E R S) (c : Circuit) (levels : List LeveledLevel) :
    Action.Alike (Alike E) (Alike E) (Alike S) (run c levels) (run c levels) := by
  intro a b h
  exact ((Action.Alike.forM (alike_addLevel hsinks) levels).bind fun _ => alike_finish hsinks c)
    { a with sink := PlanSink.start c.inputs a.sink } { b with sink := PlanSink.start c.inputs b.sink }
    ⟨h.pool, h.stats, hsinks.start c.inputs h.sink⟩

end Allocation

/-! ## Compilations -/

/-- Compilations that end the same and print the same. If they come to their end,
they count the same, and their sinks are in `S`, otherwise in `E`. -/
structure Compilation.Alike (E S : σ → τ → Prop) (r : Compilation σ) (r' : Compilation τ) : Prop where
  ending : r.ending = r'.ending
  log : r.log = r'.log
  ended : r.ending = .ok () → r.stats = r'.stats ∧ S r.sink r'.sink
  failed : ∀ fault, r.ending = .error fault → E r.sink r'.sink

namespace Compiler

variable {s s' : Compiler} {v : σ} {w : τ}

theorem compileLevels_alike (hsinks : PlanSink.Alike E R S) (hbits : s.bits = s'.bits) (hverbose : s.verbose = s'.verbose)
    (hsink : E v w) (columns : Nat) (c : Circuit) (table : CreditTable) :
    (s.compileLevels columns c table v).Alike E S (s'.compileLevels columns c table w) := by
  unfold compileLevels
  rw [hbits, hverbose]
  cases Leveling.addGates table c.gates (Leveling.ofInputs c.inputs) with
  | error fault l => exact ⟨rfl, rfl, fun h => (by cases h), fun _ _ => hsink⟩
  | ok u l =>
    dsimp only
    cases SlotPool.ofCircuit s'.bits c with
    | error fault => exact ⟨rfl, rfl, fun h => (by cases h), fun _ _ => hsink⟩
    | ok pool =>
      dsimp only
      rcases Allocation.alike_run hsinks c l.close.allLevels ⟨pool, v, CompilerStats.start⟩ ⟨pool, w, CompilerStats.start⟩
        ⟨rfl, rfl, hsink⟩ with ⟨u, a, b, hrun, hrun', h⟩ | ⟨fault, a, b, hrun, hrun', h⟩
      · rw [hrun, hrun']
        obtain ⟨hpool, hstats, hsinks'⟩ := h
        dsimp only
        refine ⟨rfl, by rw [hpool], fun _ => ⟨?_, hsinks'⟩, fun _ h => (by cases h)⟩
        rw [Allocation.finalStats, Allocation.finalStats, hpool, hstats]
      · rw [hrun, hrun']
        obtain ⟨hpool, hstats, hsinks'⟩ := h
        dsimp only
        exact ⟨rfl, by rw [hstats], fun h => (by cases h), fun _ _ => hsinks'⟩

/-- **A compiler compiles alike into sinks that are alike**, whatever it counted
before. -/
theorem compileUsing_alike (hsinks : PlanSink.Alike E R S) (hbits : s.bits = s'.bits) (hverbose : s.verbose = s'.verbose)
    (hsink : E v w) (columns : Nat) (c : Circuit) (given : Option CreditTable) :
    (s.compileUsing columns c given v).Alike E S (s'.compileUsing columns c given w) := by
  cases given with
  | some table =>
    change (s.compileWith columns c table v).Alike E S (s'.compileWith columns c table w)
    unfold compileWith
    cases c.validate with
    | error fault => exact ⟨rfl, rfl, fun h => (by cases h), fun _ _ => hsink⟩
    | ok u =>
      cases table.checkSize c.wires with
      | error fault => exact ⟨rfl, rfl, fun h => (by cases h), fun _ _ => hsink⟩
      | ok u => exact compileLevels_alike hsinks hbits hverbose hsink columns c table
  | none =>
    change (s.compile columns c v).Alike E S (s'.compile columns c w)
    unfold compile
    cases CreditTable.ofCircuit c with
    | error fault => exact ⟨rfl, rfl, fun h => (by cases h), fun _ _ => hsink⟩
    | ok table =>
      have h := compileLevels_alike hsinks hbits hverbose hsink columns c table
      dsimp only
      rw [hverbose]
      exact ⟨h.ending, congrArg (_ ++ ·) h.log, h.ended, h.failed⟩

end Compiler

end GatePlan
