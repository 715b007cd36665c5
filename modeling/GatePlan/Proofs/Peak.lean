/-
The scratch space of a circuit. With the credits that a circuit needs, a wire is
held until the level of its last reader has ended, or for good if it is an
output or nothing reads it. So what a level occupies can be read off the graph
(`Circuit.occupancy`), without credits and without a pool, and a compilation
either needs exactly `Circuit.peak` slots or, when addresses cannot name as
many, fails for that reason and no other (`compile_needs_peak`).
-/
import GatePlan.Proofs.GivenCredits

namespace GatePlan

/-! ## What a level needs -/

namespace Circuit

variable {c : Circuit}

/-- The slots that a level needs: for the permanent wires, for the wires of its
own gates, and for the wires of lower gates that are outputs, that nothing
reads, or that a gate of this level or a higher one reads. -/
def occupancy (c : Circuit) (level : Nat) : Nat :=
  c.permanent + (c.made c.gates.length).countP (fun w => c.depth w = level) +
    (c.made c.gates.length).countP fun w =>
      c.depth w < level ∧ (w ∈ c.outputs ∨ c.readsOf w = 0 ∨ c.ReadFrom level w)

/-- The slots that a circuit needs. -/
def peak (c : Circuit) : Nat := max c.permanent ((Finset.Icc 1 c.height).sup c.occupancy)

theorem mem_freedAt?_iff {credits : Nat → Nat} {w freed : Nat} (hge : c.permanent ≤ w)
    (hneeded : credits w = c.creditsNeeded w) :
    freed ∈ c.freedAt? credits w ↔ w ∉ c.outputs ∧ c.readsOf w ≠ 0 ∧ c.lastRead w = freed := by
  rw [creditsNeeded, if_neg (Nat.not_lt.2 hge)] at hneeded
  rw [mem_freedAt?, hneeded]
  by_cases hout : w ∈ c.outputs
  · simp [hout, outputCredits]
  · simp [hout]

theorem le_freedAt?_iff {credits : Nat → Nat} {level w : Nat} (hpos : 0 < level) (hge : c.permanent ≤ w)
    (hneeded : credits w = c.creditsNeeded w) :
    (∀ freed ∈ c.freedAt? credits w, level ≤ freed) ↔ w ∈ c.outputs ∨ c.readsOf w = 0 ∨ c.ReadFrom level w := by
  simp only [mem_freedAt?_iff hge hneeded, ← le_lastRead_iff hpos]
  constructor
  · intro h
    by_contra hnot
    rw [not_or, not_or] at hnot
    exact hnot.2.2 (h _ ⟨hnot.1, hnot.2.1, rfl⟩)
  · rintro h freed ⟨hout, hread, rfl⟩
    exact (h.resolve_left hout).resolve_left hread

/-- With the credits that a circuit needs, a level occupies what it needs: a wire
is freed unless it is an output or nothing reads it. -/
theorem occupancyWith_eq_occupancy {credits : Nat → Nat}
    (hcredits : ∀ w ∈ c.made c.gates.length, credits w = c.creditsNeeded w) (level : Nat) :
    c.occupancyWith credits level = c.occupancy level := by
  refine congrArg (c.permanent + (c.made c.gates.length).countP (fun w => c.depth w = level) + ·)
    (List.countP_congr fun w hw => ?_)
  simp only [decide_eq_true_eq]
  exact and_congr_right fun hlow => le_freedAt?_iff (by omega) (mem_made.1 hw).1 (hcredits w hw)

theorem peakWith_eq_peak {credits : Nat → Nat}
    (hcredits : ∀ w ∈ c.made c.gates.length, credits w = c.creditsNeeded w) : c.peakWith credits = c.peak := by
  rw [peakWith, peak, Finset.sup_congr rfl fun level _ => occupancyWith_eq_occupancy hcredits level]

theorem affords_creditsNeeded {credits : Nat → Nat}
    (hcredits : ∀ w ∈ c.made c.gates.length, credits w = c.creditsNeeded w)
    (hreads : ∀ w, c.permanent ≤ w → c.readsOf w ≤ maxCredits) : c.Affords credits := by
  intro w hw
  have hge := (mem_made.1 hw).1
  have hmax := hreads w hge
  rw [hcredits w hw, creditsNeeded, if_neg (by omega)]
  split
  · exact ⟨Nat.zero_le _, .inl rfl⟩
  · exact ⟨hmax, .inr le_rfl⟩

theorem not_freesOutput {credits : Nat → Nat} (hv : c.Valid)
    (hcredits : ∀ w ∈ c.made c.gates.length, credits w = c.creditsNeeded w) : ¬ c.FreesOutput credits := by
  intro h
  obtain ⟨w, hw, hge, hne, -⟩ := h
  rw [hcredits w (mem_made.2 ⟨hge, hv.output_lt hw⟩), creditsNeeded, if_neg (by omega), if_pos hw] at hne
  exact hne rfl

end Circuit

/-! ## The credits of the circuit -/

namespace CreditTable

variable {c : Circuit}

theorem getD_of_ofCircuit {table : CreditTable} (h : ofCircuit c = .ok table)
    (hroom : c.permanent + c.gates.length < wordSize) : ∀ w ∈ c.made c.gates.length, table.getD w 0 = c.creditsNeeded w := by
  intro w hw
  rcases ofCircuit_cases (valid_of_ofCircuit h) hroom with ⟨-, table', h', -, hentries⟩ | ⟨-, v, gate, herror⟩
  · cases h.symm.trans h'
    exact hentries w (by rw [Circuit.wires, wrap_of_lt hroom]; exact (Circuit.mem_made.1 hw).2)
  · cases h.symm.trans herror

theorem affords_of_ofCircuit {table : CreditTable} (h : ofCircuit c = .ok table)
    (hroom : c.permanent + c.gates.length < wordSize) : c.Affords (table.getD · 0) := by
  rcases ofCircuit_cases (valid_of_ofCircuit h) hroom with ⟨hcountable, -⟩ | ⟨-, v, gate, herror⟩
  · exact Circuit.affords_creditsNeeded (getD_of_ofCircuit h hroom) hcountable
  · cases h.symm.trans herror

theorem exists_ofCircuit (hv : c.Valid) (hroom : c.permanent + c.gates.length < wordSize)
    (hreads : ∀ w, c.permanent ≤ w → c.readsOf w ≤ maxCredits) : ∃ table, ofCircuit c = .ok table := by
  rcases ofCircuit_cases hv hroom with ⟨-, table, htable, -⟩ | ⟨hnot, -⟩
  · exact ⟨table, htable⟩
  · exact absurd hreads hnot

end CreditTable

/-- **All that a compilation with the circuit's own credits can do.** -/
theorem Compiler.compile_outcome {s : Compiler} {c : Circuit} (hv : c.Valid)
    (hroom : c.permanent + c.gates.length < wordSize) (hreads : ∀ w, c.permanent ≤ w → c.readsOf w ≤ maxCredits)
    (hbits : 0 < s.bits ∧ s.bits ≤ maxAddressBits) (columns : Nat) (w : PlanRecord) :
    (addressSpace s.bits < c.peak ∧ ∃ fault, (s.compile columns c w).ending = .error fault ∧
      fault.kind = .addressOverflow) ∨
    (c.peak ≤ addressSpace s.bits ∧ (s.compile columns c w).ending = .ok () ∧
      (s.compile columns c w).sink.plan.slots = c.peak) := by
  obtain ⟨table, htable⟩ := CreditTable.exists_ofCircuit hv hroom hreads
  have hcredits := CreditTable.getD_of_ofCircuit htable hroom
  have hafford : c.Affords (table.getD · 0) := Circuit.affords_creditsNeeded hcredits hreads
  have hcompile : (s.compile columns c w).ending = (s.compileLevels columns c table w).ending ∧
      (s.compile columns c w).sink = (s.compileLevels columns c table w).sink := by
    rw [Compiler.compile, htable]
    exact ⟨rfl, rfl⟩
  rw [hcompile.1, hcompile.2, ← Circuit.peakWith_eq_peak hcredits]
  rcases Compiler.compileLevels_outcome hv hafford hbits columns w with hlack | ⟨-, hfrees, -⟩ | ⟨hfits, -, hok⟩
  · exact .inl hlack
  · exact absurd hfrees (Circuit.not_freesOutput hv hcredits)
  · exact .inr ⟨hfits, hok⟩

namespace Circuit

variable {c : Circuit}

/-- A circuit that compiles wherever addresses can name its slots, into levels of the
given widths, and fails for want of addresses elsewhere. -/
def CompilesInto (c : Circuit) (Widths : List Nat → Prop) : Prop :=
  ∀ (s : Compiler) (columns : Nat) (w : PlanRecord), 0 < s.bits → s.bits ≤ maxAddressBits →
    (c.peak ≤ addressSpace s.bits → (s.compile columns c w).ending = .ok () ∧
      Widths ((s.compile columns c w).sink.plan.levels.map Level.size)) ∧
    (addressSpace s.bits < c.peak → ∃ fault, (s.compile columns c w).ending = .error fault ∧
      fault.kind = .addressOverflow)

theorem compilesInto {Widths : List Nat → Prop} (hv : c.Valid) (hroom : c.permanent + c.gates.length < wordSize)
    (hreads : ∀ w, c.permanent ≤ w → c.readsOf w ≤ maxCredits)
    (hwidths : Widths ((List.range c.height).map fun i => (c.levelGates (i + 1)).length)) : c.CompilesInto Widths := by
  intro s columns w hpos hmax
  rcases Compiler.compile_outcome hv hroom hreads ⟨hpos, hmax⟩ columns w with
    ⟨hlack, hfails⟩ | ⟨hfits, hok, -⟩
  · exact ⟨fun hle => absurd hlack (Nat.not_lt.2 hle), fun _ => hfails⟩
  · obtain ⟨credits, pool, hc⟩ := Compilation.IsOf.compiled_plan ⟨columns, none, rfl⟩ hok
    have hsizes : (s.compile columns c w).sink.plan.levels.map Level.size =
        (List.range c.height).map fun i => (c.levelGates (i + 1)).length := by
      refine (hc.map_levels (· + ·)).trans ?_
      rw [leveledLevels, List.map_map]
      exact List.map_congr_left fun i _ => size_leveledLevel c credits (i + 1)
    exact ⟨fun _ => ⟨hok, hsizes ▸ hwidths⟩, fun hlt => absurd hfits (Nat.not_le.2 hlt)⟩

end Circuit

/-- **A compilation with the circuit's own credits needs exactly the peak of the
circuit**: it fails, for want of addresses, when they cannot name as many slots,
and otherwise makes a plan with as many. No fault of credits, slots or outputs
stops it. -/
theorem compile_needs_peak {s : Compiler} {c : Circuit} (hvalid : c.validate = .ok ())
    (hword : constantWires + c.inputs + c.gates.length < wordSize)
    (hreads : ∀ w, c.permanent ≤ w → c.readsOf w ≤ maxCredits) (hbits : 0 < s.bits ∧ s.bits ≤ maxAddressBits)
    (columns : Nat) (w : PlanRecord) :
    (addressSpace s.bits < c.peak → ∃ fault, (s.compile columns c w).ending = .error fault ∧
      fault.kind = .addressOverflow) ∧
    (c.peak ≤ addressSpace s.bits → (s.compile columns c w).ending = .ok () ∧
      (s.compile columns c w).sink.plan.slots = c.peak) := by
  have hv := (Circuit.validate_eq_ok_iff c).1 hvalid
  have hroom : c.permanent + c.gates.length < wordSize := by
    rw [Circuit.permanent_eq (by omega)]
    exact hword
  rcases Compiler.compile_outcome hv hroom hreads hbits columns w with ⟨hlack, hfails⟩ | ⟨hfits, hok⟩
  · exact ⟨fun _ => hfails, fun hle => by omega⟩
  · exact ⟨fun hlt => by omega, fun _ => hok⟩

/-- A full adder needs nine slots, so addresses of three bits are too narrow. -/
theorem full_adder_needs_nine_slots :
    fullAdder.peak = 9 ∧
      (∃ fault, (Compiler.compile ⟨3, false, CompilerStats.none⟩ 0 fullAdder PlanRecord.empty).ending = .error fault ∧
        fault.kind = .addressOverflow) ∧
      (Compiler.compile ⟨4, false, CompilerStats.none⟩ 0 fullAdder PlanRecord.empty).ending = .ok () ∧
        (Compiler.compile ⟨4, false, CompilerStats.none⟩ 0 fullAdder PlanRecord.empty).sink.plan.slots = fullAdder.peak := by
  have hpeak : fullAdder.peak = 9 := by decide +kernel
  have hreads : ∀ w, fullAdder.permanent ≤ w → fullAdder.readsOf w ≤ maxCredits := fun w _ =>
    List.count_le_length.trans (by decide)
  refine ⟨hpeak, (compile_needs_peak rfl (by decide) hreads (by decide) 0 _).1 ?_,
    (compile_needs_peak rfl (by decide) hreads (by decide) 0 _).2 ?_⟩
  · rw [hpeak]
    decide
  · rw [hpeak]
    decide

end GatePlan
