/-
The two streams of a plan describe one computation. The level stream says where
a gate's inputs come from by location, the address stream by slot; the two know
nothing of each other, and agree because a wire keeps its slot from the level
that produces it until after the last one that reads it.

The invariant speaks of the levels allocated so far (`StandsFor`): the address
of a wire is what the gate at its location wrote, and no later gate has written
there. A level keeps it because its gates write slots that no wire with an
address holds (`SlotPool.Sound.not_available_of_address`), however many levels
lie between a gate and its readers.
-/
import GatePlan.Proofs.PlanStreams

namespace GatePlan

open Varint

/-! ## Locations and addresses -/

/-- In these levels a location stands for an address: it is the number of a
permanent wire, or the gate at the location writes it and no gate above does. -/
structure StandsFor (levels : List AllocatedLevel) (p : Location) (address : Nat) : Prop where
  permanent : p.level = 0 → address = p.index
  producer : 0 < p.level → ∃ l a, levels[p.level - 1]? = some l ∧ l.gates[p.index]? = some a ∧ a.output = address
  kept : ∀ l ∈ levels.drop p.level, ∀ a ∈ l.gates, a.output ≠ address

/-- A located and an allocated level have the same gates. The last of `levels`
is the allocated one, so no gate writes what a gate of its level reads. -/
structure Level.SameAs (levels : List AllocatedLevel) (l : LocatedLevel) (al : AllocatedLevel) : Prop where
  xors : l.xors.length = al.xors.length
  ands : l.ands.length = al.ands.length
  reads : List.Forall₂ (fun g a => StandsFor levels g.input1 a.input1 ∧ StandsFor levels g.input2 a.input2)
    l.gates al.gates

/-- The levels of two streams describe the same gates. -/
structure SameLevels (located : List LocatedLevel) (allocated : List AllocatedLevel) : Prop where
  length : located.length = allocated.length
  level : ∀ k l al, located[k]? = some l → allocated[k]? = some al → Level.SameAs (allocated.take (k + 1)) l al

theorem StandsFor.concat {levels : List AllocatedLevel} {p : Location} {address : Nat}
    (h : StandsFor levels p address) {al : AllocatedLevel} (hal : ∀ a ∈ al.gates, a.output ≠ address) :
    StandsFor (levels ++ [al]) p address where
  permanent := h.permanent
  producer hpos := by
    obtain ⟨l, a, hl, ha⟩ := h.producer hpos
    exact ⟨l, a, by rw [List.getElem?_append_left (List.getElem?_eq_some_iff.1 hl).1, hl], ha⟩
  kept l hl := by
    rw [List.drop_append, List.mem_append] at hl
    rcases hl with hl | hl
    · exact h.kept l hl
    · rw [List.mem_singleton.1 (List.mem_of_mem_drop hl)]
      exact hal

theorem SameLevels.concat {located : List LocatedLevel} {allocated : List AllocatedLevel}
    (h : SameLevels located allocated) {l : LocatedLevel} {al : AllocatedLevel}
    (hl : Level.SameAs (allocated ++ [al]) l al) : SameLevels (located ++ [l]) (allocated ++ [al]) where
  length := by simp [h.length]
  level k m am hm ham := by
    rcases Nat.lt_or_ge k allocated.length with hlt | hge
    · rw [List.getElem?_append_left (h.length ▸ hlt)] at hm
      rw [List.getElem?_append_left hlt] at ham
      rw [List.take_append_of_le_length hlt]
      exact h.level k m am hm ham
    · obtain rfl : k = allocated.length := by
        have hk := (List.getElem?_eq_some_iff.1 ham).1
        rw [List.length_append, List.length_singleton] at hk
        omega
      rw [List.getElem?_concat_length] at ham
      rw [← h.length, List.getElem?_concat_length] at hm
      cases hm
      cases ham
      rwa [List.take_of_length_le (by simp)]

/-! ## Allocation -/

namespace SlotPool

variable {s s' : SlotPool}

theorem Sound.addressOf_gates (h : s.Sound) {gs : List LeveledGate} {as : List AllocatedGate}
    (hok : gs.mapM allocateGate s = .ok as s') {w a : Nat} (hw : s'.addressOf w = .ok a) :
    (∃ (i : Nat) (g : LeveledGate) (b : AllocatedGate), gs[i]? = some g ∧ as[i]? = some b ∧ g.output = w ∧
      b.output = a) ∨ s.addressOf w = .ok a := by
  induction gs generalizing s as with
  | nil =>
    obtain ⟨-, rfl⟩ := Action.mapM_nil_eq_ok_iff.1 hok
    exact .inr hw
  | cons g gs ih =>
    obtain ⟨b, s1, rest, hg, hgs, rfl⟩ := Action.mapM_cons_eq_ok_iff.1 hok
    have hstep := h.gateAllocated hg
    rcases ih hstep.sound hgs with ⟨i, g', b', hg', hb', hout⟩ | hbefore
    · exact .inl ⟨i + 1, g', b', hg', hb', hout⟩
    · rcases hstep.addressOf hbefore with ⟨rfl, rfl⟩ | ⟨-, hold⟩
      · exact .inl ⟨0, g, b, rfl, rfl, rfl, rfl⟩
      · exact .inr hold

end SlotPool

/-- Every wire with an address has it from its location. -/
def Tracks (c : Circuit) (levels : List AllocatedLevel) (s : SlotPool) : Prop :=
  ∀ w a, s.addressOf w = .ok a → StandsFor levels (c.locationOf w) a

theorem tracks_initial (c : Circuit) (width : Nat) : Tracks c [] (SlotPool.initial width c.permanent) := by
  intro w a hw
  rcases SlotPool.addressOf_eq_ok_iff.1 hw with ⟨hlt, rfl⟩ | ⟨-, hslot⟩
  · rw [Circuit.locationOf_of_permanent hlt]
    exact ⟨fun _ => rfl, fun hpos => absurd hpos (Nat.lt_irrefl 0), by simp⟩
  · simp [SlotPool.initial, SlotPool.slotOf?] at hslot

section Level

variable {c : Circuit} {credits : Nat → Nat} {levels : List AllocatedLevel} {s s' : SlotPool} {al : AllocatedLevel}

theorem standsFor_output {i j : Nat} (hj : (c.levelGates (levels.length + 1))[i]? = some j) {a : AllocatedGate}
    (ha : al.gates[i]? = some a) : StandsFor (levels ++ [al]) (c.locationOf (c.permanent + j)) a.output := by
  obtain ⟨hlt, hdepth⟩ := Circuit.mem_levelGates.1 (List.mem_of_getElem? hj)
  have hlevel : (c.locationOf (c.permanent + j)).level = levels.length + 1 := (Circuit.level_locationOf ..).trans hdepth
  have hindex : (c.locationOf (c.permanent + j)).index = i := by
    have hthere := Circuit.levelGates_getElem?_locationOf hlt
    rw [hdepth, ← hj] at hthere
    by_contra hne
    have hi := (List.getElem?_eq_some_iff.1 hj).1
    exact hne ((List.getElem?_inj hi (Circuit.nodup_levelGates ..)).1 hthere.symm).symm
  refine ⟨fun hzero => by omega, fun _ => ⟨al, a, ?_, by rw [hindex, ha], rfl⟩, fun l hl => ?_⟩
  · rw [hlevel, Nat.add_sub_cancel, List.getElem?_concat_length]
  · rw [hlevel, List.drop_eq_nil_of_le (by simp)] at hl
    cases hl

theorem gates_located_leveledLevel (c : Circuit) (credits : Nat → Nat) (level : Nat) :
    (c.leveledLevel credits level).located.gates =
      (c.levelGates level).map (LeveledGate.located ∘ c.leveledGate credits) := by
  simp [Level.located, Level.gates, Circuit.leveledLevel, Circuit.levelGates]

/-- **The next level leaves the wires with addresses where they were**, and its
gates read what their locations stand for. -/
theorem Tracks.level (hv : c.Valid) (h : Tracks c levels s) (hs : s.Sound)
    (hok : SlotPool.allocateLevel (c.leveledLevel credits (levels.length + 1)) s = .ok al s') :
    Tracks c (levels ++ [al]) s' ∧
      Level.SameAs (levels ++ [al]) (c.leveledLevel credits (levels.length + 1)).located al := by
  obtain ⟨r, t, hxors, hands, -, -⟩ := SlotPool.allocateLevel_eq_ok_iff.1 hok
  obtain ⟨s1, hgates, rfl⟩ := SlotPool.gates_of_allocateLevel hok
  have hall := hs.gatesAllocated hgates
  have hspared : ∀ w a, s.addressOf w = .ok a → StandsFor (levels ++ [al]) (c.locationOf w) a := fun w a hw =>
    (h w a hw).concat fun b hb heq => hs.not_available_of_address hw (heq ▸ hall.available b hb)
  refine ⟨fun w a hw => ?_, ⟨?xors, ?ands, ?reads⟩⟩
  · rcases hs.addressOf_gates hgates hw with ⟨i, g, b, hg, hb, rfl, rfl⟩ | hold
    · rw [Circuit.gates_leveledLevel, List.getElem?_map] at hg
      obtain ⟨j, hj, rfl⟩ := Option.map_eq_some_iff.1 hg
      exact standsFor_output hj hb
    · exact hspared w a hold
  case xors => simpa [Level.located] using (Action.length_of_mapM_eq_ok hxors).symm
  case ands => simpa [Level.located] using (Action.length_of_mapM_eq_ok hands).symm
  case reads =>
    have hreads := hs.readsAt_of_disjoint hgates (Circuit.leveledLevel_disjoint hv credits _)
    rw [Circuit.gates_leveledLevel, List.forall₂_map_left_iff] at hreads
    rw [gates_located_leveledLevel, List.forall₂_map_left_iff]
    exact hreads.imp fun i a hread => ⟨hspared _ _ hread.1, hspared _ _ hread.2⟩

theorem sameLevels_of_allocate (hv : c.Valid) {width : Nat} (hroom : c.permanent ≤ addressSpace width) {k : Nat}
    (hok : ((List.range k).map fun i => c.leveledLevel credits (i + 1)).mapM SlotPool.allocateLevel
      (SlotPool.initial width c.permanent) = .ok levels s) :
    s.Sound ∧ levels.length = k ∧ Tracks c levels s ∧
      SameLevels ((List.range k).map fun i => (c.leveledLevel credits (i + 1)).located) levels := by
  induction k generalizing levels s with
  | zero =>
    obtain ⟨rfl, rfl⟩ := Action.mapM_nil_eq_ok_iff.1 hok
    exact ⟨SlotPool.sound_initial hroom, rfl, tracks_initial c width, rfl, by simp⟩
  | succ k ih =>
    rw [List.range_succ, List.map_append] at hok
    obtain ⟨before, r, last, hbefore, hlast, rfl⟩ := Action.mapM_append_eq_ok_iff.1 hok
    obtain ⟨al, _, _, hlevel, hnil, rfl⟩ := Action.mapM_cons_eq_ok_iff.1 hlast
    obtain ⟨rfl, rfl⟩ := Action.mapM_nil_eq_ok_iff.1 hnil
    obtain ⟨hsound, rfl, htracks, hsame⟩ := ih hbefore
    obtain ⟨htracks', hsameLevel⟩ := htracks.level hv hsound hlevel
    refine ⟨(hsound.levelsAllocated hlast).1, by simp, htracks', ?_⟩
    rw [List.range_succ, List.map_append]
    exact hsame.concat hsameLevel

end Level

/-- **The two streams of a plan describe one computation.** Decoded, they have
the same levels with as many XOR and AND gates; and where the level stream gives
a location for the input of a gate, the address stream gives the number of a
permanent wire, or the address that the gate at the location writes and no gate
writes again up to the level that reads it. -/
theorem streams_correspond {s : Compiler} {columns : Nat} {c : Circuit} {given : Option CreditTable}
    (hwires : constantWires + c.inputs + c.gates.length ≤ 2 ^ 61) {streams : StreamPair}
    (hok : (s.compileUsing columns c given streams).ending = .ok ()) :
    let pair := (s.compileUsing columns c given streams).sink
    ∃ located allocated d e, LevelDecoder.decode pair.levelStream c.inputs = ⟨located, .ok (), d⟩ ∧
      AddressDecoder.decode pair.addressStream c.inputs = ⟨allocated, .ok (), e⟩ ∧ SameLevels located allocated := by
  intro pair
  obtain ⟨table, -, p, pool, hc, htell⟩ := Compiler.compileUsing_eq_ok_iff.1 ⟨hok, rfl⟩
  have hmax : (2 : Nat) ^ 61 = flaggedMax + 1 ∧ flaggedMax + 1 < wordSize := by decide
  have hperm : c.permanent = constantWires + c.inputs := Circuit.permanent_eq (by omega)
  obtain ⟨pair', htell', -, hholds⟩ := hc.tell_streams (by omega) streams
  obtain rfl : pair' = pair := by
    rw [htell] at htell'
    exact (EStateM.Result.ok.inj htell').2.symm
  obtain ⟨d, hdecode, -, -⟩ := hholds.levels
  obtain ⟨e, hdecode', -, -⟩ := hholds.addresses
  obtain ⟨-, -, -, hsame⟩ := sameLevels_of_allocate hc.valid hc.room hc.levels
  refine ⟨_, _, d, e, hdecode, hdecode', ?_⟩
  rw [Circuit.leveledLevels, List.map_map]
  exact hsame

/-- In the plan of a full adder the last gate writes the slot of the first one
again; the gates between read it before that. -/
theorem full_adder_streams_correspond :
    let pair := (Compiler.default.compileUsing 0 fullAdder none StreamPair.empty).sink
    ∃ located allocated d e, LevelDecoder.decode pair.levelStream 3 = ⟨located, .ok (), d⟩ ∧
      AddressDecoder.decode pair.addressStream 3 = ⟨allocated, .ok (), e⟩ ∧ SameLevels located allocated :=
  streams_correspond (c := fullAdder) (by decide) (by decide +kernel)

end GatePlan
