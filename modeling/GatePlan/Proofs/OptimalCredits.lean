/-
No table does better than the credits that the circuit needs. A compilation
accepts a table that is affordable, frees no output and leaves enough slots
(`Compiler.Accepts`). A wire that such a table frees is no output and has as many
credits as reads, so the credits that the circuit needs free it as well, with the
same read (`Circuit.mem_freedAt?_of_given`). Whatever is held with them is held
with the table, in every level; so they need no more slots, and free no less.
-/
import GatePlan.Proofs.LastReads

namespace GatePlan

/-! ## On the graph -/

namespace Circuit

variable {c : Circuit} {needed given : Nat → Nat}

/-- What any table frees that keeps the outputs, the credits that the circuit needs
free too. -/
theorem mem_freedAt?_of_given (hneeded : ∀ w ∈ c.made c.gates.length, needed w = c.creditsNeeded w)
    (hkeeps : ¬ c.FreesOutput given) {w freed : Nat} (hw : w ∈ c.made c.gates.length)
    (h : freed ∈ c.freedAt? given w) : freed ∈ c.freedAt? needed w := by
  have hge := (mem_made.1 hw).1
  obtain ⟨⟨hne, hreads⟩, hlast⟩ := mem_freedAt?.1 h
  rw [mem_freedAt?_iff hge (hneeded w hw)]
  exact ⟨fun hout => hkeeps ⟨w, hout, hge, hne, hreads.symm⟩, hreads ▸ hne, hlast⟩

theorem occupancyWith_needed_le (hneeded : ∀ w ∈ c.made c.gates.length, needed w = c.creditsNeeded w)
    (hkeeps : ¬ c.FreesOutput given) (level : Nat) : c.occupancyWith needed level ≤ c.occupancyWith given level := by
  refine Nat.add_le_add_left (List.countP_mono_left fun w hw hheld => ?_) _
  simp only [decide_eq_true_eq] at hheld ⊢
  exact ⟨hheld.1, fun freed hfreed => hheld.2 freed (mem_freedAt?_of_given hneeded hkeeps hw hfreed)⟩

theorem peakWith_needed_le (hneeded : ∀ w ∈ c.made c.gates.length, needed w = c.creditsNeeded w)
    (hkeeps : ¬ c.FreesOutput given) : c.peakWith needed ≤ c.peakWith given :=
  max_le_max_left _ (Finset.sup_mono_fun fun level _ => occupancyWith_needed_le hneeded hkeeps level)

theorem freesWith_le_needed (hneeded : ∀ w ∈ c.made c.gates.length, needed w = c.creditsNeeded w)
    (hkeeps : ¬ c.FreesOutput given) : c.freesWith given ≤ c.freesWith needed := by
  refine List.countP_mono_left fun w hw hfrees => ?_
  obtain ⟨freed, hfreed⟩ := Option.isSome_iff_exists.1 hfrees
  exact Option.isSome_iff_exists.2 ⟨freed, mem_freedAt?_of_given hneeded hkeeps hw hfreed⟩

end Circuit

/-! ## What a compilation accepts -/

namespace Compiler

/-- A table that a compiler accepts for a circuit. -/
structure Accepts (s : Compiler) (c : Circuit) (table : CreditTable) : Prop where
  valid : c.Valid
  room : c.permanent + c.gates.length < wordSize
  width : 0 < s.bits ∧ s.bits ≤ maxAddressBits
  size : table.size = c.wires
  affords : c.Affords (table.getD · 0)
  keeps : ¬ c.FreesOutput (table.getD · 0)
  fits : c.peakWith (table.getD · 0) ≤ addressSpace s.bits

variable {s : Compiler} {columns : Nat} {c : Circuit} {table : CreditTable} {w : PlanRecord}

/-- **A table is accepted exactly when it is affordable, keeps the outputs and
leaves enough slots.** -/
theorem accepts_iff : (s.compileWith columns c table w).ending = .ok () ↔ s.Accepts c table := by
  constructor
  · intro h
    obtain ⟨hsize, p, pool, hc, -⟩ := compileWith_eq_ok_iff.1 ⟨h, rfl⟩
    rw [compileWith_of_size ((Circuit.validate_eq_ok_iff c).2 hc.valid) hsize] at h
    rcases compileLevels_outcome hc.valid hc.affords hc.width columns w with
      ⟨-, fault, hends, -⟩ | ⟨-, -, v, hends⟩ | ⟨hfits, hkeeps, -⟩
    · cases h.symm.trans hends
    · cases h.symm.trans hends
    · exact ⟨hc.valid, Compiled.room_of_size hsize hc, hc.width, hsize, hc.affords, hkeeps, hfits⟩
  · intro h
    rw [compileWith_of_size ((Circuit.validate_eq_ok_iff c).2 h.valid) h.size]
    rcases compileLevels_outcome h.valid h.affords h.width columns w with ⟨hlack, -⟩ | ⟨-, hfrees, -⟩ | ⟨-, -, hok, -⟩
    · exact absurd h.fits (Nat.not_le.2 hlack)
    · exact absurd hfrees h.keeps
    · exact hok

theorem Accepts.counts (h : s.Accepts c table) (columns : Nat) (w : PlanRecord) :
    (s.compileWith columns c table w).sink.plan.slots = c.peakWith (table.getD · 0) ∧
      (s.compileWith columns c table w).stats.frees = c.freesWith (table.getD · 0) := by
  have hok : (s.compileWith columns c table w).ending = .ok () := accepts_iff.2 h
  obtain ⟨-, p, pool, hc, htell⟩ := compileWith_eq_ok_iff.1 ⟨hok, rfl⟩
  rw [compileWith_of_size ((Circuit.validate_eq_ok_iff c).2 h.valid) h.size] at htell ⊢
  rcases compileLevels_outcome h.valid h.affords h.width columns w with
    ⟨hlack, -⟩ | ⟨-, hfrees, -⟩ | ⟨-, -, -, hslots⟩
  · exact absurd h.fits (Nat.not_le.2 hlack)
  · exact absurd hfrees h.keeps
  · exact ⟨hslots, (stats_compileLevels hc htell columns).2.trans hc.frees_eq⟩

end Compiler

/-! ## The credits of the circuit -/

/-- **The credits that a circuit needs are optimal.** Whatever table a compiler
accepts for a circuit, if no gate wire is read too often for a table, it accepts
the circuit's own credits too, and makes a plan with no more slots, freeing no
fewer on the way. -/
theorem needed_credits_are_optimal {s : Compiler} {columns : Nat} {c : Circuit} {given : CreditTable} {w : PlanRecord}
    (hreads : ∀ v, c.permanent ≤ v → c.readsOf v ≤ maxCredits)
    (hok : (s.compileWith columns c given w).ending = .ok ()) :
    ∃ table, CreditTable.ofCircuit c = .ok table ∧
      let r := s.compileWith columns c given w
      let best := s.compileWith columns c table w
      best.ending = .ok () ∧ best.sink.plan.slots ≤ r.sink.plan.slots ∧ r.stats.frees ≤ best.stats.frees := by
  have hgiven := Compiler.accepts_iff.1 hok
  obtain ⟨table, htable⟩ := CreditTable.exists_ofCircuit hgiven.valid hgiven.room hreads
  have hneeded := CreditTable.getD_of_ofCircuit htable hgiven.room
  have hpeak := Circuit.peakWith_needed_le hneeded hgiven.keeps
  have hbest : s.Accepts c table :=
    { hgiven with
      size := CreditTable.size_of_ofCircuit htable
      affords := Circuit.affords_creditsNeeded hneeded hreads
      keeps := Circuit.not_freesOutput hgiven.valid hneeded
      fits := hpeak.trans hgiven.fits }
  obtain ⟨hslots, hfrees⟩ := hgiven.counts columns w
  obtain ⟨hslots', hfrees'⟩ := hbest.counts columns w
  refine ⟨table, htable, Compiler.accepts_iff.2 hbest, ?_, ?_⟩
  · rw [hslots, hslots']
    exact hpeak
  · rw [hfrees, hfrees']
    exact Circuit.freesWith_le_needed hneeded hgiven.keeps

/-- A full adder whose half sum is given one credit too many takes ten slots, and frees
the two carries only. -/
theorem full_adder_credits_are_optimal :
    let given := Compiler.default.compileWith 0 fullAdder #[0, 0, 0, 0, 0, 3, 0, 1, 1, 0] PlanRecord.empty
    given.ending = .ok () ∧ given.sink.plan.slots = 10 ∧ given.stats.frees = 2 ∧
      ∃ table, CreditTable.ofCircuit fullAdder = .ok table ∧
        let best := Compiler.default.compileWith 0 fullAdder table PlanRecord.empty
        best.ending = .ok () ∧ best.sink.plan.slots ≤ given.sink.plan.slots ∧ given.stats.frees ≤ best.stats.frees := by
  have hok : (Compiler.default.compileWith 0 fullAdder #[0, 0, 0, 0, 0, 3, 0, 1, 1, 0] PlanRecord.empty).ending =
      .ok () := by decide +kernel
  have hreads : ∀ w, fullAdder.permanent ≤ w → fullAdder.readsOf w ≤ maxCredits := fun w _ =>
    List.count_le_length.trans (by decide)
  have hbest := needed_credits_are_optimal hreads hok
  refine ⟨hok, by decide +kernel, by decide +kernel, hbest⟩

end GatePlan
