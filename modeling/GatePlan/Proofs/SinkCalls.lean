/-
What a sink is told while a circuit is compiled. A sink that notes its calls
(`Observed`) is compiled into like any other, and the compiler does not notice
(`Observed.alike`). So the calls can be read off it (`Compiler.sinkCalls`), and
the sink is what they make of it. They are the calls
of a whole plan, or there are none, or they break off before the sink is finished
(`Compiler.Tells`).
-/
import GatePlan.Proofs.AddressWidth
import GatePlan.Proofs.AlikeSinks

namespace GatePlan

/-! ## Calls -/

/-- A call of a sink. -/
inductive SinkCall where
  | start (inputs : Nat)
  | level (leveled : LeveledLevel) (allocated : AllocatedLevel)
  | finish (slots : Nat) (outputs : List Nat)
  deriving DecidableEq, Repr

namespace SinkCall

variable {σ : Type} [PlanSink σ]

def step : SinkCall → Action σ Unit
  | start inputs => modify (PlanSink.start inputs)
  | level leveled allocated => PlanSink.level leveled allocated
  | finish slots outputs => PlanSink.finish slots outputs

/-- The sink after a row of calls, the last of which may have failed. -/
def replay (w : σ) (calls : List SinkCall) : σ := calls.foldl (fun w call => (call.step.outcome w).2) w

theorem replay_append (w : σ) (calls more : List SinkCall) : replay w (calls ++ more) = replay (replay w calls) more :=
  List.foldl_append

/-- A sink may fail so when it is called. -/
def FailsWith (σ : Type) [PlanSink σ] (call : SinkCall) (fault : Fault) : Prop :=
  ∃ w w' : σ, call.step w = .error fault w'

/-- The calls of levels, each with its leveled form. -/
def ofLevels (leveled : List LeveledLevel) (allocated : List AllocatedLevel) : List SinkCall :=
  leveled.zipWith level allocated

/-- The calls that tell a plan. -/
def ofPlan (leveled : List LeveledLevel) (p : Plan) : List SinkCall :=
  start p.inputs :: (ofLevels leveled p.levels ++ [finish p.slots p.outputs])

end SinkCall

/-! ## A sink that notes its calls -/

/-- A sink, and the calls that reached it. -/
structure Observed (σ : Type) where
  sink : σ
  calls : List SinkCall

namespace Observed

variable {σ : Type}

instance [Inhabited σ] : Inhabited (Observed σ) := ⟨⟨default, []⟩⟩

variable [PlanSink σ]

/-- The sink after more calls, which are noted. -/
def after (o : Observed σ) (calls : List SinkCall) : Observed σ := ⟨SinkCall.replay o.sink calls, o.calls ++ calls⟩

theorem after_nil (o : Observed σ) : o.after [] = o := by
  rw [after, List.append_nil]
  rfl

theorem after_after (o : Observed σ) (calls more : List SinkCall) :
    (o.after calls).after more = o.after (calls ++ more) := by
  rw [after, after, after, SinkCall.replay_append, List.append_assoc]

/-- Notes a call and hands it on. -/
def pass (call : SinkCall) : Action (Observed σ) Unit := fun o =>
  match call.step o.sink with
  | .ok () _ => .ok () (o.after [call])
  | .error fault _ => .error fault (o.after [call])

instance : PlanSink (Observed σ) :=
  ⟨fun inputs o => o.after [.start inputs], fun l al => pass (.level l al), fun slots outputs => pass (.finish slots outputs)⟩

theorem pass_cases (call : SinkCall) (o : Observed σ) :
    pass call o = .ok () (o.after [call]) ∨
      ∃ fault, pass call o = .error fault (o.after [call]) ∧ call.FailsWith σ fault := by
  unfold pass
  cases hcall : call.step o.sink with
  | ok u w => exact .inl rfl
  | error fault w => exact .inr ⟨fault, rfl, _, w, hcall⟩

/-- A call does to the sink what it would do if nobody watched. -/
theorem alike_pass (call : SinkCall) : Action.Alike (fun (o : Observed σ) w => o.sink = w) (fun o w => o.sink = w)
    (fun o w => o.sink = w) (pass call) call.step := by
  intro o w h
  have hsink : (o.after [call]).sink = (call.step.outcome o.sink).2 := rfl
  unfold pass
  unfold Action.outcome at hsink
  rw [← h]
  cases hcall : call.step o.sink with
  | ok u w' =>
    rw [hcall] at hsink
    exact .inl ⟨(), _, w', rfl, rfl, hsink⟩
  | error fault w' =>
    rw [hcall] at hsink
    exact .inr ⟨fault, _, w', rfl, rfl, hsink⟩

/-- **A sink is called the same if it is watched.** -/
theorem alike : PlanSink.Alike (fun (o : Observed σ) w => o.sink = w) (fun o w => o.sink = w) (fun o w => o.sink = w) where
  fallen h := h
  start inputs _ _ h := congrArg (PlanSink.start inputs) h
  level l al := alike_pass (.level l al)
  finish slots outputs := alike_pass (.finish slots outputs)

end Observed

/-! ## Compiling into it -/

variable {σ : Type}

namespace Compiler

variable [Inhabited σ] [PlanSink σ]

/-- The calls of the sink while a circuit is compiled. -/
def sinkCalls (s : Compiler) (columns : Nat) (c : Circuit) (given : Option CreditTable) (w : σ) : List SinkCall :=
  (s.compileUsing columns c given (⟨w, []⟩ : Observed σ)).sink.calls

end Compiler

/-! ## The calls of an allocation -/

namespace Allocation

variable [Inhabited σ] [PlanSink σ]

/-- **Levels are handed on one by one.** They all are, or it ends at the first
that has no slots or that the sink refuses. -/
theorem observed_addLevels_cases (levels : List LeveledLevel) (s : Allocation (Observed σ)) : ∃ als s',
    s'.sink = s.sink.after (SinkCall.ofLevels levels als) ∧
    ((levels.forM addLevel s = .ok () s' ∧ levels.mapM SlotPool.allocateLevel s.pool = .ok als s'.pool) ∨
      ∃ fault, levels.forM addLevel s = .error fault s' ∧
        ((∃ pool, levels.mapM SlotPool.allocateLevel s.pool = .error fault pool) ∨
          ∃ l ∈ levels, ∃ al, (SinkCall.level l al).FailsWith σ fault)) := by
  induction levels generalizing s with
  | nil => exact ⟨[], s, s.sink.after_nil.symm, .inl ⟨rfl, rfl⟩⟩
  | cons l levels ih =>
    change ∃ als s', _ ∧ (((addLevel l >>= fun _ => levels.forM addLevel) s = .ok () s' ∧ _) ∨
      ∃ fault, (addLevel l >>= fun _ => levels.forM addLevel) s = .error fault s' ∧ _)
    cases hpool : SlotPool.allocateLevel l s.pool with
    | error fault pool =>
      let s1 : Allocation (Observed σ) := { s with pool := pool }
      have hstep : addLevel l s = .error fault s1 := Action.bind_of_error (Action.within_of_error hpool)
      exact ⟨[], s1, s.sink.after_nil.symm, .inr ⟨fault, Action.bind_of_error hstep,
        .inl ⟨pool, Action.mapM_cons_eq_error_iff.2 (.inl hpool)⟩⟩⟩
    | ok al pool =>
      have hallocate : onPool (SlotPool.allocateLevel l) s = .ok al { s with pool := pool } :=
        Action.within_eq_ok_iff.2 ⟨pool, hpool, rfl⟩
      rcases Observed.pass_cases (.level l al) s.sink with hpass | ⟨fault, hpass, hfails⟩
      · let s1 : Allocation (Observed σ) := ⟨pool, s.sink.after [.level l al], s.stats.addLevel l⟩
        have hstep : addLevel l s = .ok () s1 := addLevel_eq_ok_iff.2 ⟨al, hpool, hpass, rfl⟩
        obtain ⟨als, s', hsink, hrest⟩ := ih s1
        refine ⟨al :: als, s', hsink.trans (Observed.after_after ..), ?_⟩
        rw [Action.bind_of_ok hstep]
        rcases hrest with ⟨hok, hpools⟩ | ⟨fault, herror, hwhy⟩
        · exact .inl ⟨hok, Action.mapM_cons_eq_ok_iff.2 ⟨al, pool, als, hpool, hpools, rfl⟩⟩
        · refine .inr ⟨fault, herror, hwhy.imp ?_ ?_⟩
          · intro ⟨pool', hpools⟩
            exact ⟨pool', Action.mapM_cons_eq_error_iff.2 (.inr ⟨al, pool, hpool, hpools⟩)⟩
          · intro ⟨l', hl', hfails⟩
            exact ⟨l', List.mem_cons_of_mem _ hl', hfails⟩
      · have hstep : addLevel l s = .error fault ⟨pool, s.sink.after [.level l al], s.stats⟩ := by
          refine (Action.bind_of_ok hallocate).trans ?_
          exact Action.bind_of_error (Action.within_of_error hpass)
        have hcalls : SinkCall.ofLevels (l :: levels) [al] = [.level l al] := by
          rw [SinkCall.ofLevels, List.zipWith_cons_cons, List.zipWith_nil_right]
        exact ⟨[al], _, by rw [hcalls], .inr ⟨fault, Action.bind_of_error hstep,
          .inr ⟨l, List.mem_cons_self .., al, hfails⟩⟩⟩

/-- The allocation of some levels and outputs leaves no plan. -/
def FailsWith (c : Circuit) (levels : List LeveledLevel) (pool : SlotPool) (fault : Fault) : Prop :=
  (∃ pool', levels.mapM SlotPool.allocateLevel pool = .error fault pool') ∨
    ∃ als pool', levels.mapM SlotPool.allocateLevel pool = .ok als pool' ∧
      c.outputs.mapM pool'.addressOf = .error fault

/-- **A sink is finished only when there is a plan**, and then it has been told
all of it. -/
theorem observed_run_cases (c : Circuit) (levels : List LeveledLevel) (s : Allocation (Observed σ)) :
    (∃ als fault s', run c levels s = .error fault s' ∧
      s'.sink = s.sink.after (.start c.inputs :: SinkCall.ofLevels levels als) ∧
        (FailsWith c levels s.pool fault ∨ ∃ l ∈ levels, ∃ al, (SinkCall.level l al).FailsWith σ fault)) ∨
    ∃ als outputs pool s', levels.mapM SlotPool.allocateLevel s.pool = .ok als pool ∧
      c.outputs.mapM pool.addressOf = .ok outputs ∧
        s'.sink = s.sink.after (SinkCall.ofPlan levels ⟨c.inputs, pool.peak, als, outputs⟩) ∧
          (run c levels s = .ok () s' ∨
            ∃ fault, run c levels s = .error fault s' ∧ (SinkCall.finish pool.peak outputs).FailsWith σ fault) := by
  let s0 : Allocation (Observed σ) := { s with sink := s.sink.after [.start c.inputs] }
  have hrun : run c levels s = (levels.forM addLevel >>= fun _ => finish c) s0 := rfl
  obtain ⟨als, s1, hsink, hlevels⟩ := observed_addLevels_cases levels s0
  rw [show s0.sink = s.sink.after [.start c.inputs] from rfl, Observed.after_after, List.singleton_append] at hsink
  rcases hlevels with ⟨hlevels, hpool⟩ | ⟨fault, hlevels, hwhy⟩
  swap
  · refine .inl ⟨als, fault, s1, hrun.trans (Action.bind_of_error hlevels), hsink, hwhy.imp_left .inl⟩
  rw [Action.bind_of_ok hlevels] at hrun
  cases houtputs : c.outputs.mapM s1.pool.addressOf with
  | error fault =>
    exact .inl ⟨als, fault, s1, hrun.trans (finish_of_error houtputs), hsink, .inl (.inr ⟨als, s1.pool, hpool, houtputs⟩)⟩
  | ok outputs =>
    have hfinish : finish c s1 = onSink (Observed.pass (.finish s1.pool.peak outputs)) s1 := finish_of_ok houtputs
    rw [hfinish] at hrun
    let s2 : Allocation (Observed σ) := { s1 with sink := s1.sink.after [.finish s1.pool.peak outputs] }
    refine .inr ⟨als, outputs, s1.pool, s2, hpool, houtputs, ?_, ?_⟩
    · rw [show s2.sink = s1.sink.after [.finish s1.pool.peak outputs] from rfl, hsink, Observed.after_after]
      rfl
    · rcases Observed.pass_cases (.finish s1.pool.peak outputs) s1.sink with hpass | ⟨fault, hpass, hfails⟩
      · exact .inl (hrun.trans (Action.within_eq_ok_iff.2 ⟨_, hpass, rfl⟩))
      · exact .inr ⟨fault, hrun.trans (Action.within_of_error hpass), hfails⟩

end Allocation

/-! ## The calls of a compilation -/

namespace Compiler

variable [Inhabited σ] [PlanSink σ]

omit [Inhabited σ] [PlanSink σ] in
theorem compileUsing_cases (s : Compiler) (columns : Nat) (c : Circuit) (given : Option CreditTable) :
    (∃ table, Uses c given table ∧ c.Valid) ∨
      ∃ fault, ∀ {υ : Type} [Inhabited υ] [PlanSink υ] (w : υ),
        (s.compileUsing columns c given w).ending = .error fault ∧ (s.compileUsing columns c given w).sink = w := by
  cases given with
  | some table =>
    cases hvalid : c.validate with
    | error fault =>
      refine .inr ⟨fault, fun w => ?_⟩
      have hfails : s.compileUsing columns c (some table) w = ⟨.error fault, s.stats, w, ""⟩ := by
        rw [compileUsing, compileWith, hvalid]
      rw [hfails]
      exact ⟨rfl, rfl⟩
    | ok u =>
      by_cases hsize : table.size = c.wires
      · exact .inl ⟨table, ⟨rfl, hsize⟩, (Circuit.validate_eq_ok_iff c).1 hvalid⟩
      · have hcheck : table.checkSize c.wires = .error (.creditTableSize table.size c.wires) := if_pos hsize
        refine .inr ⟨.creditTableSize table.size c.wires, fun w => ?_⟩
        have hfails : s.compileUsing columns c (some table) w =
            ⟨.error (.creditTableSize table.size c.wires), s.stats, w, ""⟩ := by
          rw [compileUsing, compileWith, hvalid, hcheck]
        rw [hfails]
        exact ⟨rfl, rfl⟩
  | none =>
    cases htable : CreditTable.ofCircuit c with
    | error fault =>
      refine .inr ⟨fault, fun w => ?_⟩
      have hfails : s.compileUsing columns c none w = ⟨.error fault, s.stats, w, ""⟩ := by
        rw [compileUsing, compile, htable]
      rw [hfails]
      exact ⟨rfl, rfl⟩
    | ok table => exact .inl ⟨table, htable, CreditTable.valid_of_ofCircuit htable⟩

/-- How a compilation ends, and what it has told its sink until then. -/
inductive Tells (σ : Type) [PlanSink σ] (s : Compiler) (c : Circuit) (given : Option CreditTable) :
    Except Fault Unit → List SinkCall → Prop
  | nothing {fault : Fault} : Tells σ s c given (.error fault) []
  | levels {table : CreditTable} {als : List AllocatedLevel} {fault : Fault} (huses : Uses c given table) (hv : c.Valid)
      (hafford : c.Affords (table.getD · 0)) (hroom : c.permanent ≤ addressSpace s.bits)
      (hwhy : Allocation.FailsWith c (c.leveledLevels (table.getD · 0)) (SlotPool.initial s.bits c.permanent) fault ∨
        ∃ l ∈ c.leveledLevels (table.getD · 0), ∃ al, (SinkCall.level l al).FailsWith σ fault) :
      Tells σ s c given (.error fault) (.start c.inputs :: SinkCall.ofLevels (c.leveledLevels (table.getD · 0)) als)
  | plan {table : CreditTable} {p : Plan} {pool : SlotPool} {ending : Except Fault Unit} (huses : Uses c given table)
      (hc : Compiled s.bits c (table.getD · 0) p pool)
      (hend : ending = .ok () ∨ ∃ fault, ending = .error fault ∧ (SinkCall.finish p.slots p.outputs).FailsWith σ fault) :
      Tells σ s c given ending (SinkCall.ofPlan (c.leveledLevels (table.getD · 0)) p)

theorem observed_compileLevels (s : Compiler) (columns : Nat) {c : Circuit} {given : Option CreditTable}
    {table : CreditTable} (huses : Uses c given table) (hv : c.Valid) (o : Observed σ) :
    ∃ calls, (s.compileLevels columns c table o).sink = o.after calls ∧
      Tells σ s c given (s.compileLevels columns c table o).ending calls := by
  rcases compileLevels_cases hv s columns table o with ⟨-, ⟨fault, herror, -⟩, hsink⟩ | ⟨-, -, herror, hsink⟩ |
    ⟨-, -, -, herror, hsink⟩ | ⟨hafford, hwidth, hroom, ending, a, hrun, hending, hsink⟩
  · exact ⟨[], hsink.trans o.after_nil.symm, herror ▸ .nothing⟩
  · exact ⟨[], hsink.trans o.after_nil.symm, herror ▸ .nothing⟩
  · exact ⟨[], hsink.trans o.after_nil.symm, herror ▸ .nothing⟩
  rw [hending, hsink]
  rcases Allocation.observed_run_cases c (c.leveledLevels (table.getD · 0)) (s.firstAllocation c o) with
    ⟨als, fault, s', herror, htold, hwhy⟩ | ⟨als, outputs, pool, s', hlevels, houtputs, htold, hend⟩
  · rw [Action.outcome_of_error herror] at hrun
    cases hrun
    exact ⟨_, htold, .levels huses hv hafford hroom hwhy⟩
  · have hc : Compiled s.bits c (table.getD · 0) ⟨c.inputs, pool.peak, als, outputs⟩ pool :=
      ⟨hv, hafford, hwidth, hroom, rfl, hlevels, houtputs, rfl⟩
    rcases hend with hok | ⟨fault, herror, hfails⟩
    · rw [Action.outcome_eq_ok_iff.2 hok] at hrun
      cases hrun
      exact ⟨_, htold, .plan huses hc (.inl rfl)⟩
    · rw [Action.outcome_of_error herror] at hrun
      cases hrun
      exact ⟨_, htold, .plan huses hc (.inr ⟨fault, rfl, hfails⟩)⟩

theorem observed_compileUsing (s : Compiler) (columns : Nat) (c : Circuit) (given : Option CreditTable)
    (o : Observed σ) : ∃ calls, (s.compileUsing columns c given o).sink = o.after calls ∧
      Tells σ s c given (s.compileUsing columns c given o).ending calls := by
  rcases s.compileUsing_cases columns c given with ⟨table, huses, hv⟩ | ⟨fault, hfails⟩
  · obtain ⟨hending, hsink⟩ := compileUsing_of_uses huses hv s columns o
    rw [hending, hsink]
    exact s.observed_compileLevels columns huses hv o
  · obtain ⟨hending, hsink⟩ := hfails o
    rw [hending]
    exact ⟨[], hsink.trans o.after_nil.symm, .nothing⟩

/-- **A sink is what its calls make of it**, and they tell a whole plan, or some
levels, or nothing. -/
theorem sinkCalls_tell (s : Compiler) (columns : Nat) (c : Circuit) (given : Option CreditTable) (w : σ) :
    (s.compileUsing columns c given w).sink = SinkCall.replay w (s.sinkCalls columns c given w) ∧
      Tells σ s c given (s.compileUsing columns c given w).ending (s.sinkCalls columns c given w) := by
  let o : Observed σ := ⟨w, []⟩
  obtain ⟨calls, hnoted, htells⟩ := s.observed_compileUsing columns c given o
  have hcalls : s.sinkCalls columns c given w = calls := by
    change (s.compileUsing columns c given o).sink.calls = calls
    rw [hnoted]
    exact List.nil_append calls
  have halike : (s.compileUsing columns c given o).Alike (fun o w => o.sink = w) (fun o w => o.sink = w)
      (s.compileUsing columns c given w) := compileUsing_alike Observed.alike rfl rfl rfl columns c given
  have hsink : (s.compileUsing columns c given o).sink.sink = (s.compileUsing columns c given w).sink := by
    cases hending : (s.compileUsing columns c given o).ending with
    | ok u => exact (halike.ended hending).2
    | error fault => exact halike.failed fault hending
  rw [hcalls, ← halike.ending, ← hsink]
  exact ⟨congrArg Observed.sink hnoted, htells⟩

end Compiler

end GatePlan
