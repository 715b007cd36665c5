/-
Allocating gates and levels. A gate reads the addresses its input wires have
and writes a slot that could be handed out (`GateAllocated`); over the gates of
a level, in their order, this gives what a whole level reads and writes
(`GatesAllocated`): the outputs are slots that could be handed out when the
level began, no two of them the same, and every input stands at the address its
wire had then (`Sound.readsAt_of_disjoint`).

A level, and so a plan, is the result of these steps alone
(`allocateLevel_eq_ok_iff`); the sink only sees it.
-/
import GatePlan.Compiler
import GatePlan.Proofs.SlotPool

namespace GatePlan.SlotPool

/-! ## One gate -/

/-- What allocating a gate changes. -/
structure GateAllocated (s : SlotPool) (g : LeveledGate) (a : AllocatedGate) (s' : SlotPool) : Prop where
  input1 : s.addressOf g.wire1 = .ok a.input1
  input2 : s.addressOf g.wire2 = .ok a.input2
  output_ge : s.permanent ≤ g.output
  available : s.Available a.output
  available_iff : ∀ b, s'.Available b ↔ s.Available b ∧ b ≠ a.output
  bits : s'.bits = s.bits
  permanent : s'.permanent = s.permanent
  le_peak : a.output ≤ s.peak
  peak_eq_max : s'.peak = max s.peak (a.output + 1)
  occupied : s'.occupied = s.occupied + 1
  peak_eq : s'.peak = max s.peak s'.occupied
  output : s'.slotOf? g.output = some a.output
  slots : ∀ {v b}, v ≠ g.output → s'.slotOf? v = some b → s.slotOf? v = some b
  sound : s'.Sound

theorem allocateGate_eq_ok_iff {s s' : SlotPool} {g : LeveledGate} {a : AllocatedGate} :
    allocateGate g s = .ok a s' ↔ ∃ s1 s2, consume g.wire1 s = .ok a.input1 s1 ∧
      consume g.wire2 s1 = .ok a.input2 s2 ∧ allocate g.output g.credits s2 = .ok a.output s' := by
  unfold allocateGate
  rw [Action.bind_eq_ok_iff]
  constructor
  · intro ⟨a1, s1, h1, h⟩
    obtain ⟨a2, s2, h2, h⟩ := Action.bind_eq_ok_iff.1 h
    obtain ⟨out, s3, h3, h⟩ := Action.bind_eq_ok_iff.1 h
    obtain ⟨hgate, rfl⟩ := Action.pure_eq_ok_iff.1 h
    subst hgate
    exact ⟨s1, s2, h1, h2, h3⟩
  · intro ⟨s1, s2, h1, h2, h3⟩
    exact ⟨a.input1, s1, h1, Action.bind_eq_ok_iff.2 ⟨a.input2, s2, h2,
      Action.bind_eq_ok_iff.2 ⟨a.output, s', h3, rfl⟩⟩⟩

theorem Consumed.addressOf {s s' : SlotPool} {w a v b : Nat} (h : Consumed s w a s')
    (hv : s'.addressOf v = .ok b) : s.addressOf v = .ok b := by
  rw [addressOf_eq_ok_iff] at hv ⊢
  rw [h.permanent] at hv
  exact hv.imp_right fun ⟨hge, hslot⟩ => ⟨hge, h.slots hslot⟩

theorem Consumed.available_iff {s s' : SlotPool} {w a : Nat} (h : Consumed s w a s') (b : Nat) :
    s'.Available b ↔ s.Available b := by
  unfold Available
  rw [h.free, h.peak]

theorem Sound.gateAllocated {s s' : SlotPool} (h : s.Sound) {g : LeveledGate} {a : AllocatedGate}
    (hok : allocateGate g s = .ok a s') : GateAllocated s g a s' := by
  obtain ⟨s1, s2, h1, h2, h3⟩ := allocateGate_eq_ok_iff.1 hok
  have hc1 := h.consumed h1
  have hc2 := hc1.sound.consumed h2
  have ha := hc2.sound.allocated h3
  have hpermanent : s2.permanent = s.permanent := hc2.permanent.trans hc1.permanent
  have hpeak : s2.peak = s.peak := hc2.peak.trans hc1.peak
  have hoccupied : s2.occupied = s.occupied := hc2.occupied.trans hc1.occupied
  have havailable : ∀ b, s2.Available b ↔ s.Available b :=
    fun b => (hc2.available_iff b).trans (hc1.available_iff b)
  exact {
    input1 := hc1.address
    input2 := hc1.addressOf hc2.address
    output_ge := hpermanent ▸ ha.wire_ge
    available := (havailable _).1 ha.available
    available_iff := fun b => by rw [ha.available_iff, havailable]
    bits := ha.bits.trans (hc2.bits.trans hc1.bits)
    permanent := ha.permanent.trans hpermanent
    le_peak := hpeak ▸ ha.le_peak
    peak_eq_max := hpeak ▸ ha.peak_eq_max
    occupied := hoccupied ▸ ha.occupied
    peak_eq := hpeak ▸ ha.peak_eq
    output := by rw [ha.slots, if_pos rfl]
    slots := fun hv hb => by
      rw [ha.slots, if_neg hv] at hb
      exact hc1.slots (hc2.slots hb)
    sound := ha.sound }

namespace GateAllocated

variable {s s' : SlotPool} {g : LeveledGate} {a : AllocatedGate}

theorem addressOf (h : GateAllocated s g a s') {v b : Nat} (hv : s'.addressOf v = .ok b) :
    (v = g.output ∧ b = a.output) ∨ (v ≠ g.output ∧ s.addressOf v = .ok b) := by
  have hge := h.output_ge
  rw [addressOf_eq_ok_iff, h.permanent] at hv
  by_cases hvo : v = g.output
  · subst hvo
    rcases hv with ⟨hlt, -⟩ | ⟨-, hslot⟩
    · omega
    · rw [h.output] at hslot
      exact .inl ⟨rfl, (Option.some.inj hslot).symm⟩
  · refine .inr ⟨hvo, addressOf_eq_ok_iff.2 (hv.imp_right fun ⟨hge, hslot⟩ => ⟨hge, ?_⟩)⟩
    exact h.slots hvo hslot

theorem peak_le (h : GateAllocated s g a s') : s.peak ≤ s'.peak := by
  rw [h.peak_eq_max]
  exact le_max_left _ _

theorem output_lt_peak (h : GateAllocated s g a s') : a.output < s'.peak := by
  rw [h.peak_eq_max]
  omega

end GateAllocated

/-! ## The gates of a level -/

/-- A gate that reads its wires at their addresses. -/
def ReadsAt (s : SlotPool) (g : LeveledGate) (a : AllocatedGate) : Prop :=
  s.addressOf g.wire1 = .ok a.input1 ∧ s.addressOf g.wire2 = .ok a.input2

/-- What allocating gates in order changes. -/
structure GatesAllocated (s : SlotPool) (gs : List LeveledGate) (as : List AllocatedGate) (s' : SlotPool) :
    Prop where
  length : as.length = gs.length
  available : ∀ a ∈ as, s.Available a.output
  nodup : (as.map (·.output)).Nodup
  bits : s'.bits = s.bits
  permanent : s'.permanent = s.permanent
  peak_le : s.peak ≤ s'.peak
  within : ∀ a ∈ as, a.input1 < s'.peak ∧ a.input2 < s'.peak ∧ a.output < s'.peak
  sound : s'.Sound

theorem Sound.gatesAllocated {s s' : SlotPool} {gs : List LeveledGate} {as : List AllocatedGate}
    (h : s.Sound) (hok : gs.mapM allocateGate s = .ok as s') : GatesAllocated s gs as s' := by
  induction gs generalizing s as with
  | nil =>
    obtain ⟨rfl, rfl⟩ := Action.mapM_nil_eq_ok_iff.1 hok
    exact ⟨rfl, by simp, by simp, rfl, rfl, le_rfl, by simp, h⟩
  | cons g gs ih =>
    obtain ⟨a, s1, as, hg, hgs, rfl⟩ := Action.mapM_cons_eq_ok_iff.1 hok
    have hstep := h.gateAllocated hg
    have hrest := ih hstep.sound hgs
    have hafter : ∀ b ∈ as, s.Available b.output ∧ b.output ≠ a.output :=
      fun b hb => (hstep.available_iff _).1 (hrest.available b hb)
    refine ⟨by simp [hrest.length], ?_, ?_, hrest.bits.trans hstep.bits, hrest.permanent.trans hstep.permanent,
      hstep.peak_le.trans hrest.peak_le, ?_, hrest.sound⟩
    · intro b hb
      cases hb with
      | head => exact hstep.available
      | tail _ hb => exact (hafter b hb).1
    · rw [List.map_cons, List.nodup_cons]
      refine ⟨fun hmem => ?_, hrest.nodup⟩
      obtain ⟨b, hb, hout⟩ := List.mem_map.1 hmem
      exact (hafter b hb).2 hout
    · intro b hb
      cases hb with
      | head =>
        have hpeak := hstep.peak_le.trans hrest.peak_le
        exact ⟨(h.lt_peak_of_address hstep.input1).trans_le hpeak,
          (h.lt_peak_of_address hstep.input2).trans_le hpeak, hstep.output_lt_peak.trans_le hrest.peak_le⟩
      | tail _ hb => exact hrest.within b hb

/-- Gates that read no wire of their own level read every wire where it was
when the level began. -/
theorem Sound.readsAt_of_disjoint {s s' : SlotPool} {gs : List LeveledGate} {as : List AllocatedGate}
    (h : s.Sound) (hok : gs.mapM allocateGate s = .ok as s')
    (hdisjoint : ∀ g ∈ gs, ∀ g' ∈ gs, g.wire1 ≠ g'.output ∧ g.wire2 ≠ g'.output) :
    List.Forall₂ (ReadsAt s) gs as := by
  induction gs generalizing s as with
  | nil =>
    obtain ⟨rfl, -⟩ := Action.mapM_nil_eq_ok_iff.1 hok
    exact .nil
  | cons g gs ih =>
    obtain ⟨a, s1, as, hg, hgs, rfl⟩ := Action.mapM_cons_eq_ok_iff.1 hok
    have hstep := h.gateAllocated hg
    have hrest := ih hstep.sound hgs fun g1 h1 g2 h2 =>
      hdisjoint g1 (List.mem_cons_of_mem _ h1) g2 (List.mem_cons_of_mem _ h2)
    have hback : ∀ {v b}, v ≠ g.output → s1.addressOf v = .ok b → s.addressOf v = .ok b := by
      intro v b hne hv
      rcases hstep.addressOf hv with ⟨hvo, -⟩ | ⟨-, hold⟩
      · exact absurd hvo hne
      · exact hold
    refine .cons ⟨hstep.input1, hstep.input2⟩ (List.forall₂_iff_get.2 ⟨hrest.length_eq, fun i hi hi' => ?_⟩)
    have hread := List.forall₂_iff_get.1 hrest |>.2 i hi hi'
    have hne := hdisjoint _ (List.mem_cons_of_mem g (List.get_mem gs ⟨i, hi⟩)) g (List.mem_cons_self ..)
    exact ⟨hback hne.1 hread.1, hback hne.2 hread.2⟩

/-! ## Levels -/

theorem allocateGates_eq (gs : List LeveledGate) (seen : List AllocatedGate) :
    allocateGates gs seen = gs.mapM allocateGate >>= fun as => pure (seen.reverse ++ as) := by
  induction gs generalizing seen with
  | nil => rw [allocateGates, List.mapM_nil, pure_bind, List.append_nil]
  | cons g gs ih =>
    rw [allocateGates, List.mapM_cons, bind_assoc]
    congr 1
    funext a
    rw [ih, bind_assoc]
    congr 1
    funext as
    rw [pure_bind, List.reverse_cons, List.append_assoc, List.singleton_append]

/-- A level is allocated gate by gate, its XOR gates first, and then ended. -/
theorem allocateLevel_eq_ok_iff {s s' : SlotPool} {l : LeveledLevel} {al : AllocatedLevel} :
    allocateLevel l s = .ok al s' ↔ ∃ r s1, l.xors.mapM allocateGate s = .ok al.xors r ∧
      l.ands.mapM allocateGate r = .ok al.ands s1 ∧ al.id = l.id ∧ s' = s1.endLevel := by
  unfold allocateLevel
  simp only [allocateGates_eq, List.reverse_nil, List.nil_append, bind_pure]
  constructor
  · intro h
    obtain ⟨xors, r, hx, h⟩ := Action.bind_eq_ok_iff.1 h
    obtain ⟨ands, s1, ha, h⟩ := Action.bind_eq_ok_iff.1 h
    cases h
    exact ⟨r, s1, hx, ha, rfl, rfl⟩
  · intro h
    obtain ⟨r, s1, hx, ha, hid, rfl⟩ := h
    rw [Action.bind_of_ok hx, Action.bind_of_ok ha, ← hid]
    rfl

theorem gates_of_allocateLevel {s s' : SlotPool} {l : LeveledLevel} {al : AllocatedLevel}
    (h : allocateLevel l s = .ok al s') :
    ∃ s1, l.gates.mapM allocateGate s = .ok al.gates s1 ∧ s' = s1.endLevel := by
  obtain ⟨r, s1, hx, ha, -, hs'⟩ := allocateLevel_eq_ok_iff.1 h
  exact ⟨s1, Action.mapM_append_eq_ok_iff.2 ⟨al.xors, r, al.ands, hx, ha, rfl⟩, hs'⟩

theorem allocateLevel_of_ok {s s1 : SlotPool} {l : LeveledLevel} {as : List AllocatedGate}
    (h : l.gates.mapM allocateGate s = .ok as s1) : ∃ al, allocateLevel l s = .ok al s1.endLevel := by
  obtain ⟨xors, r, ands, hx, ha, -⟩ := Action.mapM_append_eq_ok_iff.1 h
  exact ⟨⟨l.id, xors, ands⟩, allocateLevel_eq_ok_iff.2 ⟨r, s1, hx, ha, rfl, rfl⟩⟩

theorem allocateLevel_of_error {s s1 : SlotPool} {l : LeveledLevel} {fault : Fault}
    (h : l.gates.mapM allocateGate s = .error fault s1) : allocateLevel l s = .error fault s1 := by
  unfold allocateLevel
  simp only [allocateGates_eq, List.reverse_nil, List.nil_append, bind_pure]
  rcases Action.mapM_append_eq_error_iff.1 h with hx | ⟨xors, r, hx, ha⟩
  · exact Action.bind_of_error hx
  · rw [Action.bind_of_ok hx]
    exact Action.bind_of_error ha

/-- Whatever levels are allocated, the pool stays sound and its peak does not fall. -/
theorem Sound.levelsAllocated {s s' : SlotPool} {ls : List LeveledLevel} {als : List AllocatedLevel}
    (h : s.Sound) (hok : ls.mapM allocateLevel s = .ok als s') :
    s'.Sound ∧ s'.permanent = s.permanent ∧ s.peak ≤ s'.peak := by
  refine (Action.mapM_keeps (fun t => t.Sound ∧ t.permanent = s.permanent ∧ s.peak ≤ t.peak)
    (fun _ => True) ?_ hok ⟨h, rfl, le_rfl⟩).1
  intro l _ t al t' ht hl
  obtain ⟨hsound, hpermanent, hpeak⟩ := ht
  obtain ⟨t1, hgates, rfl⟩ := gates_of_allocateLevel hl
  have hall := hsound.gatesAllocated hgates
  exact ⟨⟨hall.sound.endLevel, hall.permanent.trans hpermanent, hpeak.trans hall.peak_le⟩, trivial⟩

end GatePlan.SlotPool
