/-
A compilation that takes its steps one at a time, on a compiler that has been used
before, leaves what `Compiler.compileUsing` says (`Running.compile_eq`). The bar
is reset before each task and the statistics before they are counted, so neither
is read before it is written; what the bar draws while gates are added or levels
are allocated is what a new bar draws in as many steps (`Running.working`).
-/
import GatePlan.Proofs.Leveling
import GatePlan.Proofs.Compilation
import GatePlan.Session

namespace GatePlan

theorem ProgressBar.reset_eq (label : String) (total : Nat) (b : ProgressBar) : b.reset label total = ofTask label total :=
  rfl

theorem ProgressBar.advances_succ (columns k : Nat) (b : ProgressBar) :
    b.advances columns (k + 1) = (((b.advances columns k).1.advance columns 1).1,
      (b.advances columns k).2 ++ ((b.advances columns k).1.advance columns 1).2) := rfl

namespace Running

variable {σ : Type}

/-! ## The log -/

/-- What is printed of a text. -/
def shown (b : Running σ) (text : String) : String := if b.compiler.verbose then text else ""

theorem say_eq (text : String) (b : Running σ) : say text b = .ok () { b with log := b.log ++ b.shown text } := by
  refine congrArg (EStateM.Result.ok ()) ?_
  dsimp only
  unfold shown
  split
  · rfl
  · rw [String.append_empty]

theorem onBar_eq (move : ProgressBar → ProgressBar × String) (b : Running σ) :
    onBar move b = .ok () { b with
      bar := if b.compiler.verbose then (move b.bar).1 else b.bar
      log := b.log ++ b.shown (move b.bar).2 } := by
  refine congrArg (EStateM.Result.ok ()) ?_
  dsimp only
  unfold shown
  split
  · rfl
  · rw [String.append_empty]

/-- After so many steps of a task. -/
def working (columns : Nat) (task : ProgressBar) (steps : Nat) (b : Running σ) : Running σ :=
  { b with
    bar := if b.compiler.verbose then (task.advances columns steps).1 else b.bar
    log := b.log ++ b.shown (task.advances columns steps).2 }

/-- After a task that took so many steps, and the line after it. -/
def worked (columns : Nat) (task : ProgressBar) (steps : Nat) (line : String) (b : Running σ) : Running σ :=
  { b with
    bar := if b.compiler.verbose then ((task.advances columns steps).1.finish columns true).1 else b.bar
    log := b.log ++ b.shown (CompilerLog.finished columns (task.advances columns steps) line) }

theorem resetBar_eq (label : String) (total columns : Nat) (b : Running σ) :
    resetBar label total b = .ok () (b.working columns (ProgressBar.ofTask label total) 0) := by
  rw [resetBar, onBar_eq]
  dsimp only
  rw [ProgressBar.reset_eq]
  rfl

theorem advance_working (columns : Nat) (task : ProgressBar) (steps : Nat) (b : Running σ) :
    onBar (ProgressBar.advance columns 1) (b.working columns task steps) =
      .ok () (b.working columns task (steps + 1)) := by
  rw [onBar_eq]
  cases hverbose : b.compiler.verbose with
  | true => simp [working, shown, hverbose, ProgressBar.advances_succ, String.append_assoc]
  | false => simp [working, shown, hverbose]

theorem finish_working {α : Type} (columns : Nat) (task : ProgressBar) (steps : Nat) (line : String) (b : Running σ)
    (next : Action (Running σ) α) :
    (onBar (ProgressBar.finish columns true) >>= fun _ => say line >>= fun _ => next) (b.working columns task steps) =
      next (b.worked columns task steps line) := by
  rw [Action.bind_of_ok (onBar_eq ..), Action.bind_of_ok (say_eq ..)]
  cases hverbose : b.compiler.verbose with
  | true => simp [working, worked, shown, hverbose, CompilerLog.finished, String.append_assoc]
  | false => simp [working, worked, shown, hverbose]

/-! ## Steps on the side -/

theorem locally_of_ok {τ α : Type} {step : Action τ α} {t t' : τ} {a : α} (h : step t = .ok a t') (b : Running σ) :
    locally step t b = .ok (a, t') b := by
  rw [locally, h]
  rfl

theorem locally_of_error {τ α : Type} {step : Action τ α} {t t' : τ} {fault : Fault} (h : step t = .error fault t')
    (b : Running σ) : locally step t b = .error fault b := by
  rw [locally, h]
  rfl

/-! ## Leveling -/

theorem addGates_eq (columns : Nat) (table : CreditTable) (gates : List Gate) {l : Leveling}
    (hroom : l.nextWire + gates.length ≤ wordSize) (task : ProgressBar) (k : Nat) (b : Running σ) :
    (∃ l', Leveling.addGates table gates l = .ok () l' ∧
      addGates columns table gates l (b.working columns task k) =
        .ok l' (b.working columns task (k + gates.length))) ∨
    ∃ fault l' n, Leveling.addGates table gates l = .error fault l' ∧ n < gates.length ∧ l'.permanent = l.permanent ∧
      l'.nextWire = l.nextWire + n ∧
        addGates columns table gates l (b.working columns task k) =
          .error fault (b.working columns task (k + n)) := by
  induction gates generalizing l k with
  | nil => exact .inl ⟨l, rfl, rfl⟩
  | cons g rest ih =>
    rw [List.length_cons] at hroom
    rw [Leveling.addGates_cons, addGates]
    rcases Leveling.addGate_steps g.type g.input1 g.input2 (table.getD l.nextWire 0) l with
      ⟨pl, l1, hadd, -, -, -, hnext, -, hpermanent⟩ | ⟨fault, l1, hadd, hl1⟩
    · rw [Action.bind_of_ok hadd, Action.bind_of_ok (locally_of_ok hadd _)]
      dsimp only
      rw [Action.bind_of_ok (advance_working columns task k b)]
      -- wires do not wrap around before the last gate
      have hnext' : rest = [] ∨ l1.nextWire = l.nextWire + 1 := by
        cases rest with
        | nil => exact .inl rfl
        | cons g' rest =>
          rw [List.length_cons] at hroom
          exact .inr (by rw [hnext, wrap_of_lt (by omega)])
      have hroom1 : l1.nextWire + rest.length ≤ wordSize := by
        rcases hnext' with rfl | hnext'
        · rw [hnext]
          exact (wrap_lt _).le
        · omega
      rcases ih hroom1 (k + 1) with ⟨l', hrest, hbar⟩ | ⟨fault, l', n, hrest, hn, hperm, hlast, hbar⟩
      · refine .inl ⟨l', hrest, ?_⟩
        rw [hbar, List.length_cons]
        congr 2
        omega
      · have hnext1 : l1.nextWire = l.nextWire + 1 := by
          refine hnext'.resolve_left ?_
          rintro rfl
          cases hn
        refine .inr ⟨fault, l', n + 1, hrest, by rw [List.length_cons]; omega, hperm.trans hpermanent, by omega, ?_⟩
        rw [hbar]
        congr 2
        omega
    · rw [Action.bind_of_error hadd, Action.bind_of_error (locally_of_error hadd _)]
      refine .inr ⟨fault, l1, 0, rfl, Nat.succ_pos _, by rw [hl1], by rw [hl1]; rfl, rfl⟩

/-- **Leveling step by step** adds the gates that are added at once. -/
theorem place_eq {c : Circuit} (hv : c.Valid) (columns : Nat) (table : CreditTable) (b : Running σ) :
    (∃ l, Leveling.addGates table c.gates (Leveling.ofInputs c.inputs) = .ok () l ∧
      place columns c table b = .ok l (b.worked columns (ProgressBar.ofTask "Leveling" c.gates.length) c.gates.length
        (CompilerLog.placed c.gates.length l.levelCount l.maxTracked))) ∨
    ∃ fault l, Leveling.addGates table c.gates (Leveling.ofInputs c.inputs) = .error fault l ∧
      place columns c table b =
        .error fault (b.working columns (ProgressBar.ofTask "Leveling" c.gates.length) l.gateCount) := by
  let task := ProgressBar.ofTask "Leveling" c.gates.length
  have hreset : resetBar "Leveling" c.gates.length b = .ok () (b.working columns task 0) := resetBar_eq ..
  rw [place, Action.bind_of_ok hreset]
  rcases addGates_eq columns table c.gates (l := Leveling.ofInputs c.inputs) hv.room task 0 b with
    ⟨l, hadd, hbar⟩ | ⟨fault, l, n, hadd, hn, hpermanent, hnext, hbar⟩
  · rw [Nat.zero_add] at hbar
    rw [Action.bind_of_ok hbar, finish_working]
    exact .inl ⟨l, hadd, rfl⟩
  · have hcount : l.gateCount = n := by
      rw [Leveling.gateCount, hnext, hpermanent]
      change wrapSub (c.permanent + n) c.permanent = n
      rw [wrapSub_of_le (Nat.le_add_right _ _), Nat.add_sub_cancel_left]
    rw [Nat.zero_add, ← hcount] at hbar
    exact .inr ⟨fault, l, hadd, Action.bind_of_error hbar⟩

/-! ## Allocation -/

/-- With the sink and the statistics of an allocation. -/
def withAllocation (b : Running σ) (a : Allocation σ) : Running σ :=
  { b with sink := a.sink, compiler := { b.compiler with stats := a.stats } }

variable [Inhabited σ] [PlanSink σ]

omit [PlanSink σ] in
theorem onSink_of_ok {α : Type} {step : Action σ α} {b : Running σ} {x : α} {w : σ} (h : step b.sink = .ok x w) :
    onSink step b = .ok x { b with sink := w } := Action.within_eq_ok_iff.2 ⟨w, h, rfl⟩

omit [PlanSink σ] in
theorem onSink_of_error {α : Type} {step : Action σ α} {b : Running σ} {fault : Fault} {w : σ}
    (h : step b.sink = .error fault w) : onSink step b = .error fault { b with sink := w } := Action.within_of_error h

theorem addLevels_eq (columns : Nat) (levels : List LeveledLevel) (task : ProgressBar) (k : Nat) (b : Running σ)
    (a : Allocation σ) :
    (∃ a', levels.forM Allocation.addLevel a = .ok () a' ∧ a'.stats.widths.count = a.stats.widths.count + levels.length ∧
      addLevels columns levels a.pool ((b.withAllocation a).working columns task k) =
        .ok a'.pool ((b.withAllocation a').working columns task (k + levels.length))) ∨
    ∃ fault a' n, levels.forM Allocation.addLevel a = .error fault a' ∧
      a'.stats.widths.count = a.stats.widths.count + n ∧
        addLevels columns levels a.pool ((b.withAllocation a).working columns task k) =
          .error fault ((b.withAllocation a').working columns task (k + n)) := by
  induction levels generalizing a k with
  | nil => exact .inl ⟨a, rfl, rfl, rfl⟩
  | cons l rest ih =>
    change (∃ a', (Allocation.addLevel l >>= fun _ => rest.forM Allocation.addLevel) a = .ok () a' ∧ _) ∨
      ∃ fault a' n, (Allocation.addLevel l >>= fun _ => rest.forM Allocation.addLevel) a = .error fault a' ∧ _
    rw [addLevels]
    cases hpool : SlotPool.allocateLevel l a.pool with
    | error fault pool =>
      have hstep : Allocation.addLevel l a = .error fault { a with pool := pool } :=
        Action.bind_of_error (Action.within_of_error hpool)
      rw [Action.bind_of_error hstep, Action.bind_of_error (locally_of_error hpool _)]
      exact .inr ⟨fault, { a with pool := pool }, 0, rfl, rfl, rfl⟩
    | ok al pool =>
      have hallocate : Allocation.onPool (SlotPool.allocateLevel l) a = .ok al { a with pool := pool } :=
        Action.within_eq_ok_iff.2 ⟨pool, hpool, rfl⟩
      rw [Action.bind_of_ok (locally_of_ok hpool _)]
      dsimp only
      cases hsink : (PlanSink.level l al : Action σ Unit) a.sink with
      | error fault w =>
        have hstep : Allocation.addLevel l a = .error fault { a with pool := pool, sink := w } :=
          (Action.bind_of_ok hallocate).trans (Action.bind_of_error (Action.within_of_error hsink))
        have htold : onSink (PlanSink.level l al) ((b.withAllocation a).working columns task k) =
            .error fault ((b.withAllocation { a with sink := w }).working columns task k) := onSink_of_error hsink
        rw [Action.bind_of_error hstep, Action.bind_of_error htold]
        exact .inr ⟨fault, { a with pool := pool, sink := w }, 0, rfl, rfl, rfl⟩
      | ok u w =>
        let a1 : Allocation σ := ⟨pool, w, a.stats.addLevel l⟩
        have hstep : Allocation.addLevel l a = .ok () a1 := Allocation.addLevel_eq_ok_iff.2 ⟨al, hpool, hsink, rfl⟩
        have htold : onSink (PlanSink.level l al) ((b.withAllocation a).working columns task k) =
            .ok () ((b.withAllocation { a with sink := w }).working columns task k) := onSink_of_ok hsink
        have hcounted : count (·.addLevel l) ((b.withAllocation { a with sink := w }).working columns task k) =
            .ok () ((b.withAllocation a1).working columns task k) := rfl
        rw [Action.bind_of_ok hstep, Action.bind_of_ok htold, Action.bind_of_ok hcounted,
          Action.bind_of_ok (advance_working ..), List.length_cons, Nat.add_comm rest.length 1, ← Nat.add_assoc]
        have hcount : a1.stats.widths.count = a.stats.widths.count + 1 := rfl
        rcases ih (k + 1) a1 with ⟨a', hrest, hcount', hbar⟩ | ⟨fault, a', n, hrest, hcount', hbar⟩
        · rw [Nat.add_assoc] at hbar
          exact .inl ⟨a', hrest, by omega, hbar⟩
        · rw [Nat.add_assoc] at hbar
          exact .inr ⟨fault, a', 1 + n, hrest, by omega, hbar⟩

/-- Outputs without addresses and a sink that does not finish leave what the levels left. -/
theorem finish_eq (columns : Nat) (c : Circuit) (task : ProgressBar) (k : Nat) (b : Running σ) (a : Allocation σ) :
    (∃ w, Allocation.finish c a = .ok () { a with sink := w } ∧
      finish c a.pool ((b.withAllocation a).working columns task k) =
        .ok () ((b.withAllocation { a with sink := w }).working columns task k)) ∨
    ∃ fault w, Allocation.finish c a = .error fault { a with sink := w } ∧
      finish c a.pool ((b.withAllocation a).working columns task k) =
        .error fault ((b.withAllocation { a with sink := w }).working columns task k) := by
  rw [finish]
  cases houtputs : c.outputs.mapM a.pool.addressOf with
  | error fault => exact .inr ⟨fault, a.sink, Allocation.finish_of_error houtputs, rfl⟩
  | ok outputs =>
    let told := (b.withAllocation a).working columns task k
    have hgiven : (Action.ofExcept (.ok outputs) : Action (Running σ) (List Nat)) told = .ok outputs told := rfl
    rw [Allocation.finish_of_ok houtputs, Action.bind_of_ok hgiven]
    cases hsink : (PlanSink.finish a.pool.peak outputs : Action σ Unit) a.sink with
    | error fault w => exact .inr ⟨fault, w, Action.within_of_error hsink, onSink_of_error hsink⟩
    | ok u w => exact .inl ⟨w, Action.within_eq_ok_iff.2 ⟨w, hsink, rfl⟩, onSink_of_ok hsink⟩

theorem allocate_eq (columns : Nat) (c : Circuit) (l : Leveling) (b : Running σ) {pool : SlotPool}
    (hpool : SlotPool.ofCircuit b.compiler.bits c = .ok pool) (hstats : b.compiler.stats = CompilerStats.start) :
    (∃ a, Allocation.run c l.close.allLevels ⟨pool, b.sink, CompilerStats.start⟩ = .ok () a ∧
      allocate columns c l b =
        .ok a.pool ((b.withAllocation a).worked columns (ProgressBar.ofTask "Allocation" l.levelCount) l.levelCount
          (CompilerLog.allocated a.pool.peak a.pool.permanent a.pool.frees))) ∨
    ∃ fault a, Allocation.run c l.close.allLevels ⟨pool, b.sink, CompilerStats.start⟩ = .error fault a ∧
      allocate columns c l b =
        .error fault ((b.withAllocation a).working columns (ProgressBar.ofTask "Allocation" l.levelCount)
          a.stats.widths.count) := by
  let task := ProgressBar.ofTask "Allocation" l.levelCount
  let a0 : Allocation σ := ⟨pool, PlanSink.start c.inputs b.sink, CompilerStats.start⟩
  have hget : (Action.ofExcept (SlotPool.ofCircuit b.compiler.bits c) : Action (Running σ) SlotPool) b = .ok pool b := by
    rw [hpool]
    rfl
  have hbegin : b.withAllocation a0 = { b with sink := PlanSink.start c.inputs b.sink } := by
    rw [withAllocation]
    exact congrArg (fun stats => (⟨{ b.compiler with stats := stats }, b.bar, PlanSink.start c.inputs b.sink, b.log⟩ : Running σ))
      hstats.symm
  have hstart : (modify fun b => { b with sink := PlanSink.start c.inputs b.sink } : Action (Running σ) Unit) b =
      .ok () (b.withAllocation a0) := by
    rw [hbegin]
    rfl
  have hreset : resetBar "Allocation" l.levelCount (b.withAllocation a0) =
      .ok () ((b.withAllocation a0).working columns task 0) := resetBar_eq ..
  have hlevels : l.close.allLevels.length = l.levelCount := by simp [Leveling.allLevels, Leveling.close, Leveling.levelCount]
  change (∃ a, (l.close.allLevels.forM Allocation.addLevel >>= fun _ => Allocation.finish c) a0 = .ok () a ∧ _) ∨
    ∃ fault a, (l.close.allLevels.forM Allocation.addLevel >>= fun _ => Allocation.finish c) a0 = .error fault a ∧ _
  rw [allocate, Action.get_bind, Action.bind_of_ok hget, Action.bind_of_ok hstart, Action.bind_of_ok hreset]
  rcases addLevels_eq columns l.close.allLevels task 0 b a0 with ⟨a, hrun, hcount, hbar⟩ | ⟨fault, a, n, hrun, hcount, hbar⟩
  swap
  · have hcount : a.stats.widths.count = n := hcount.trans (Nat.zero_add n)
    rw [Nat.zero_add, ← hcount] at hbar
    exact .inr ⟨fault, a, Action.bind_of_error hrun, Action.bind_of_error hbar⟩
  have hcount : a.stats.widths.count = l.levelCount := by rw [← hlevels]; exact hcount.trans (Nat.zero_add _)
  rw [Nat.zero_add, hlevels] at hbar
  rw [Action.bind_of_ok hrun, Action.bind_of_ok hbar]
  rcases finish_eq columns c task l.levelCount b a with ⟨w, hfinish, htold⟩ | ⟨fault, w, hfinish, htold⟩
  · refine .inl ⟨{ a with sink := w }, hfinish, ?_⟩
    rw [Action.bind_of_ok htold, finish_working]
    rfl
  · refine .inr ⟨fault, { a with sink := w }, hfinish, ?_⟩
    rw [hcount]
    exact Action.bind_of_error htold

/-! ## Compilations -/

/-- With what a compilation leaves. -/
def withCompilation (b : Running σ) (r : Compilation σ) (bar : ProgressBar) : Running σ :=
  ⟨b.compiler.after r, bar, r.sink, b.log ++ r.log⟩

theorem compileLevels_eq {c : Circuit} (hv : c.Valid) (columns : Nat) (table : CreditTable) (b : Running σ) :
    ∃ bar, (compileLevels columns c table).outcome b =
      ((b.compiler.compileLevels columns c table b.sink).ending,
        b.withCompilation (b.compiler.compileLevels columns c table b.sink) bar) := by
  let b0 : Running σ := { b with compiler := { b.compiler with stats := CompilerStats.start } }
  have hstats : count (fun _ => CompilerStats.start) b = .ok () b0 := rfl
  rw [compileLevels, Action.outcome_bind_of_ok hstats, Compiler.compileLevels]
  rcases place_eq hv columns table b0 with ⟨l, hadd, hplace⟩ | ⟨fault, l, hadd, hplace⟩
  swap
  · rw [hadd]
    exact ⟨_, Action.outcome_of_error (Action.bind_of_error hplace)⟩
  let b1 := b0.worked columns (ProgressBar.ofTask "Leveling" c.gates.length) c.gates.length
    (CompilerLog.placed c.gates.length l.levelCount l.maxTracked)
  rw [hadd, Action.outcome_bind_of_ok hplace]
  cases hpool : SlotPool.ofCircuit b.compiler.bits c with
  | error fault =>
    have hget : (Action.ofExcept (SlotPool.ofCircuit b1.compiler.bits c) : Action (Running σ) SlotPool) b1 =
        .error fault b1 := by
      change Action.ofExcept (SlotPool.ofCircuit b.compiler.bits c) b1 = _
      rw [hpool]
      rfl
    have hallocate : allocate columns c l b1 = .error fault b1 := by
      rw [allocate, Action.get_bind, Action.bind_of_error hget]
    exact ⟨_, Action.outcome_of_error (Action.bind_of_error hallocate)⟩
  | ok pool =>
    let task := ProgressBar.ofTask "Allocation" l.levelCount
    rcases allocate_eq columns c l b1 hpool rfl with ⟨a, hrun, hallocate⟩ | ⟨fault, a, hrun, hallocate⟩
    · let b2 := (b1.withAllocation a).worked columns task l.levelCount
        (CompilerLog.allocated a.pool.peak a.pool.permanent a.pool.frees)
      change Allocation.run c l.close.allLevels ⟨pool, b.sink, CompilerStats.start⟩ = _ at hrun
      refine ⟨b2.bar, ?_⟩
      dsimp only
      rw [hrun, Action.outcome_bind_of_ok hallocate, withCompilation, ← String.append_assoc]
      rfl
    · let b2 := (b1.withAllocation a).working columns task a.stats.widths.count
      change Allocation.run c l.close.allLevels ⟨pool, b.sink, CompilerStats.start⟩ = _ at hrun
      refine ⟨b2.bar, ?_⟩
      dsimp only
      rw [hrun, Action.outcome_of_error (Action.bind_of_error hallocate), withCompilation, ← String.append_assoc]
      rfl

/-- **A compilation taken step by step** ends as the whole, prints the same text
after what was printed before, and leaves the same statistics and sink, whatever
the bar and the statistics held before. -/
theorem compile_eq (columns : Nat) (c : Circuit) (given : Option CreditTable) (b : Running σ) :
    ∃ bar, (compile columns c given).outcome b =
      ((b.compiler.compileUsing columns c given b.sink).ending,
        b.withCompilation (b.compiler.compileUsing columns c given b.sink) bar) := by
  cases given with
  | some table =>
    change ∃ bar, _ = ((b.compiler.compileWith columns c table b.sink).ending,
      b.withCompilation (b.compiler.compileWith columns c table b.sink) bar)
    rw [compile, Compiler.compileWith]
    cases hvalidate : c.validate with
    | error fault => exact ⟨b.bar, by rw [withCompilation, String.append_empty]; rfl⟩
    | ok u =>
      cases table.checkSize c.wires with
      | error fault => exact ⟨b.bar, by rw [withCompilation, String.append_empty]; rfl⟩
      | ok u => exact compileLevels_eq ((Circuit.validate_eq_ok_iff c).1 hvalidate) columns table b
  | none =>
    change ∃ bar, _ = ((b.compiler.compile columns c b.sink).ending,
      b.withCompilation (b.compiler.compile columns c b.sink) bar)
    rw [compile, Compiler.compile]
    cases htable : CreditTable.ofCircuit c with
    | error fault => exact ⟨b.bar, by rw [withCompilation, String.append_empty]; rfl⟩
    | ok table =>
      let b1 : Running σ := { b with log := b.log ++ b.shown (CompilerLog.credits table.size) }
      have hsay : say (CompilerLog.credits table.size) b = .ok () b1 := say_eq ..
      have hgiven : (Action.ofExcept (.ok table) : Action (Running σ) CreditTable) b = .ok table b := rfl
      obtain ⟨bar, hlevels⟩ := compileLevels_eq (CreditTable.valid_of_ofCircuit htable) columns table b1
      refine ⟨bar, ?_⟩
      rw [Action.outcome_bind_of_ok hgiven, Action.outcome_bind_of_ok hsay, withCompilation, ← String.append_assoc]
      exact hlevels

end Running

end GatePlan
