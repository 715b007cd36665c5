/-
When slots are freed. With the credits that a circuit needs, the wires that hold
an address between two levels can be read off the graph (`Circuit.HeldAfter`),
and so can the wires that a level frees, which are those with their last reader
in it (`Circuit.freedBy`).

Within a level, a slot becomes pending when its wire loses it, and no wire that
the level makes is read in it; so what is pending at the end is what the wires
that were held when the level began have lost (`SlotPool.Spent`). Both ends of a
level are known from the ledger, hence also what it frees.
-/
import GatePlan.Proofs.Peak

namespace GatePlan

/-! ## What is held between levels -/

namespace Circuit

variable {c : Circuit}

/-- The wire of a gate of the first `k` levels that is an output, that nothing
reads, or that a gate of a later level reads. -/
def HeldAfter (c : Circuit) (k wire : Nat) : Prop :=
  wire ∈ c.made c.gates.length ∧ c.depth wire ≤ k ∧
    (wire ∈ c.outputs ∨ c.readsOf wire = 0 ∨ c.ReadFrom (k + 1) wire)

/-- The gate wires with their last reader in a level, unless they are outputs. -/
def freedBy (c : Circuit) (level : Nat) : List Nat :=
  (c.made c.gates.length).filter fun w => w ∉ c.outputs ∧ c.readsOf w ≠ 0 ∧ c.lastRead w = level

@[simp] theorem mem_freedBy {level w : Nat} : w ∈ c.freedBy level ↔
    w ∈ c.made c.gates.length ∧ w ∉ c.outputs ∧ c.readsOf w ≠ 0 ∧ c.lastRead w = level := by
  simp [freedBy]

theorem nodup_freedBy (c : Circuit) (level : Nat) : (c.freedBy level).Nodup :=
  (List.nodup_range' 1).filter _

theorem readsOf_ne_zero_iff (hv : c.Valid) (w : Nat) : c.readsOf w ≠ 0 ↔ 1 ≤ c.lastRead w := by
  rw [le_lastRead_iff one_pos, ← count_readsIn_below_lt_iff, below_one hv]
  simp [readsIn, Nat.pos_iff_ne_zero]

theorem depth_lt_lastRead (hv : c.Valid) {w : Nat} (hread : c.readsOf w ≠ 0) : c.depth w < c.lastRead w := by
  have hpos := (readsOf_ne_zero_iff hv w).1 hread
  obtain ⟨i, hi, -, hw⟩ := (le_lastRead_iff hpos).1 le_rfl
  have hdeeper := depth_lt_of_reads hv (getElem?_gates (List.mem_range.1 hi)) hw
  refine hdeeper.trans_le (Finset.le_sup (f := c.gateDepth) ?_)
  exact Finset.mem_filter.2 ⟨Finset.mem_range.2 (List.mem_range.1 hi), hw⟩

theorem Valid.depth_lt_freedAt? (hv : c.Valid) {credits : Nat → Nat} {w freed : Nat}
    (h : freed ∈ c.freedAt? credits w) : c.depth w < freed := by
  obtain ⟨⟨hne, hreads⟩, rfl⟩ := mem_freedAt?.1 h
  exact depth_lt_lastRead hv (hreads ▸ hne)

theorem lastRead_le_height (c : Circuit) (w : Nat) : c.lastRead w ≤ c.height :=
  Finset.sup_mono (Finset.filter_subset _ _)

/-- The number of wires that are freed with the given credits. -/
def freesWith (c : Circuit) (credits : Nat → Nat) : Nat :=
  (c.made c.gates.length).countP fun w => (c.freedAt? credits w).isSome

theorem freesWith_needed {credits : Nat → Nat}
    (hcredits : ∀ w ∈ c.made c.gates.length, credits w = c.creditsNeeded w) :
    c.freesWith credits = (c.made c.gates.length).countP fun w => w ∉ c.outputs ∧ c.readsOf w ≠ 0 := by
  refine List.countP_congr fun w hw => ?_
  simp only [decide_eq_true_eq]
  rw [Option.isSome_iff_exists]
  constructor
  · intro ⟨freed, hfreed⟩
    obtain ⟨hout, hread, -⟩ := (mem_freedAt?_iff (mem_made.1 hw).1 (hcredits w hw)).1 hfreed
    exact ⟨hout, hread⟩
  · intro ⟨hout, hread⟩
    exact ⟨_, (mem_freedAt?_iff (mem_made.1 hw).1 (hcredits w hw)).2 ⟨hout, hread, rfl⟩⟩

theorem heldAfter_iff {k w : Nat} : c.HeldAfter k w ↔
    w ∈ c.made c.gates.length ∧ c.depth w ≤ k ∧ (w ∈ c.outputs ∨ c.readsOf w = 0 ∨ k < c.lastRead w) := by
  rw [HeldAfter, ← le_lastRead_iff (Nat.succ_pos k), Nat.succ_le_iff]

/-- The wires that are held before a level and not after it are those with their
last reader in it. -/
theorem mem_freedBy_succ_iff (hv : c.Valid) {k w : Nat} :
    w ∈ c.freedBy (k + 1) ↔ c.HeldAfter k w ∧ ¬ c.HeldAfter (k + 1) w := by
  rw [mem_freedBy, heldAfter_iff, heldAfter_iff]
  constructor
  · intro ⟨hmade, hout, hread, hlast⟩
    have hdepth := depth_lt_lastRead hv hread
    refine ⟨⟨hmade, by omega, .inr (.inr (by omega))⟩, fun h => ?_⟩
    have hlater := (h.2.2.resolve_left hout).resolve_left hread
    omega
  · intro ⟨⟨hmade, hdepth, hheld⟩, hgone⟩
    have hnot : ¬ (w ∈ c.outputs ∨ c.readsOf w = 0 ∨ k + 1 < c.lastRead w) := fun h => hgone ⟨hmade, by omega, h⟩
    rw [not_or, not_or] at hnot
    obtain ⟨hout, hread, hlast⟩ := hnot
    have hearlier := (hheld.resolve_left hout).resolve_left hread
    exact ⟨hmade, hout, hread, by omega⟩

theorem existsUnique_freedBy {k w : Nat} (hmade : w ∈ c.made c.gates.length) (hdepth : c.depth w ≤ k)
    (hgone : ¬ c.HeldAfter k w) : ∃! level, level ≤ k ∧ w ∈ c.freedBy level := by
  have hnot : ¬ (w ∈ c.outputs ∨ c.readsOf w = 0 ∨ k < c.lastRead w) :=
    fun h => hgone (heldAfter_iff.2 ⟨hmade, hdepth, h⟩)
  rw [not_or, not_or] at hnot
  obtain ⟨hout, hread, hlast⟩ := hnot
  exact ⟨c.lastRead w, ⟨Nat.le_of_not_lt hlast, mem_freedBy.2 ⟨hmade, hout, hread, rfl⟩⟩,
    fun level h => (mem_freedBy.1 h.2).2.2.2.symm⟩

theorem isSome_ledger_iff_heldAfter {credits : Nat → Nat}
    (hcredits : ∀ w ∈ c.made c.gates.length, credits w = c.creditsNeeded w) (hafford : c.Affords credits) (k w : Nat) :
    (ledger credits (c.outputsOf (c.below (k + 1))) (c.readsIn (c.below (k + 1))) w).isSome = true ↔
      c.HeldAfter k w := by
  have hheld : ∀ i < c.gates.length, c.gateDepth i < k + 1 →
      ((ledger credits (c.outputsOf (c.below (k + 1))) (c.readsIn (c.below (k + 1))) (c.permanent + i)).isSome = true ↔
        c.permanent + i ∈ c.outputs ∨ c.readsOf (c.permanent + i) = 0 ∨ c.ReadFrom (k + 1) (c.permanent + i)) := by
    intro i hi hlow
    have hmade : c.permanent + i ∈ c.made c.gates.length := mem_made.2 ⟨by omega, by omega⟩
    rw [isSome_ledger_below hi hlow (hafford _ hmade).2]
    exact le_freedAt?_iff (Nat.succ_pos k) (Nat.le_add_right _ _) (hcredits _ hmade)
  constructor
  · intro h
    obtain ⟨left, hleft⟩ := Option.isSome_iff_exists.1 h
    obtain ⟨i, hi, rfl⟩ := List.mem_map.1 (ledger_eq_some_mem hleft)
    obtain ⟨hlt, hlow⟩ := mem_below.1 hi
    exact ⟨mem_made.2 ⟨by omega, by omega⟩, Nat.le_of_lt_succ hlow, (hheld i hlt hlow).1 h⟩
  · intro ⟨hmade, hdepth, h⟩
    obtain ⟨hge, hlt⟩ := mem_made.1 hmade
    obtain ⟨i, rfl⟩ := Nat.exists_eq_add_of_le hge
    exact (hheld i (by omega) (Nat.lt_succ_of_le hdepth)).2 h

end Circuit

/-! ## What a level frees -/

namespace SlotPool

/-- All that reading a wire can do to the slots of the pool: nothing, or it gives
back that of the wire. -/
theorem consume_eq_ok {s s' : SlotPool} {w a : Nat} (h : consume w s = .ok a s') :
    ((∀ v, s'.slotOf? v = s.slotOf? v) ∧ s'.free = s.free ∧ s'.pending = s.pending ∧ s'.frees = s.frees) ∨
    (s.slotOf? w = some a ∧ s' = s.giveBack w a) := by
  unfold consume at h
  by_cases hperm : w < s.permanent
  · rw [if_pos hperm] at h
    cases h
    exact .inl ⟨fun _ => rfl, rfl, rfl, rfl⟩
  rw [if_neg hperm] at h
  cases hr : s.resident[w]? with
  | none =>
    rw [hr] at h
    cases h
  | some r =>
    obtain ⟨slot, k⟩ := r
    have hslot : s.slotOf? w = some slot := by rw [slotOf?, hr]; rfl
    rw [hr] at h
    dsimp only at h
    by_cases hnever : neverFreed k = true
    · rw [if_pos hnever] at h
      cases h
      exact .inl ⟨fun _ => rfl, rfl, rfl, rfl⟩
    rw [if_neg hnever] at h
    by_cases hlast : k = 1
    · rw [if_pos hlast] at h
      unfold release at h
      split at h
      · rename_i u s1 hrelease
        split at hrelease
        · cases hrelease
        · split at hrelease
          · cases hrelease
          · cases hrelease
            cases h
            exact .inr ⟨hslot, rfl⟩
      · cases h
    · rw [if_neg hlast] at h
      cases h
      refine .inl ⟨fun v => ?_, rfl, rfl, rfl⟩
      change ((s.resident.insert w _)[v]?).map _ = _
      rw [getElem?_insert_nat]
      by_cases hv : v = w
      · rw [if_pos hv, hv, hslot]
        rfl
      · rw [if_neg hv]
        rfl

theorem allocate_eq_ok {s s' : SlotPool} {w credits a : Nat} (h : allocate w credits s = .ok a s') :
    (∀ v, s'.slotOf? v = if v = w then some a else s.slotOf? v) ∧ s'.free <:+ s.free ∧ s'.pending = s.pending ∧
      s'.frees = s.frees := by
  rw [allocate_eq] at h
  split at h
  · cases h
  obtain ⟨slot, s1, htake, h1⟩ := Action.bind_eq_ok_iff.1 h
  cases h1
  have htaken : s1.resident = s.resident ∧ s1.free <:+ s.free ∧ s1.pending = s.pending ∧ s1.frees = s.frees := by
    unfold takeSlot at htake
    split at htake
    · rename_i slot' rest hfree
      cases htake
      rw [hfree]
      exact ⟨rfl, List.suffix_cons _ _, rfl, rfl⟩
    · split at htake
      · cases htake
      · cases htake
        exact ⟨rfl, List.suffix_refl _, rfl, rfl⟩
  obtain ⟨hresident, hfree, hpending, hfrees⟩ := htaken
  refine ⟨fun v => ?_, hfree, hpending, hfrees⟩
  change ((s1.resident.insert w _)[v]?).map _ = _
  rw [getElem?_insert_nat, hresident, slotOf?]
  split <;> rfl

/-- What gates of a level, which make the wires in `outs`, leave of the pool `s0`
that the level began with: what is pending is what the wires of lower levels
have lost. -/
structure Spent (outs : List Nat) (s0 s : SlotPool) : Prop where
  sound : s.Sound
  free : s.free <:+ s0.free
  slots : ∀ {w a}, w ∉ outs → s.slotOf? w = some a → s0.slotOf? w = some a
  pending : ∀ a, a ∈ s.pending ↔ ∃ w, s0.slotOf? w = some a ∧ s.slotOf? w = none
  frees : s.frees = s0.frees + s.pending.length

namespace Spent

variable {outs : List Nat} {s0 s s' : SlotPool} {w a credits : Nat}

theorem start (h : s0.Sound) (hpending : s0.pending = []) : Spent outs s0 s0 where
  sound := h
  free := List.suffix_refl _
  slots _ hw := hw
  pending a := by
    rw [hpending]
    refine iff_of_false List.not_mem_nil fun hlost => ?_
    obtain ⟨w, hsome, hnone⟩ := hlost
    rw [hnone] at hsome
    cases hsome
  frees := by rw [hpending, List.length_nil, Nat.add_zero]

theorem consume (h : Spent outs s0 s) (hw : w ∉ outs) (hok : SlotPool.consume w s = .ok a s') : Spent outs s0 s' := by
  have hsound := (h.sound.consumed hok).sound
  rcases consume_eq_ok hok with ⟨hslots, hfree, hpending, hfrees⟩ | ⟨hslot, rfl⟩
  · refine ⟨hsound, hfree ▸ h.free, fun hv hheld => h.slots hv (hslots _ ▸ hheld), fun b => ?_, ?_⟩
    · rw [hpending, h.pending]
      simp only [hslots]
    · rw [hfrees, hpending, h.frees]
  · have hbefore : s0.slotOf? w = some a := h.slots hw hslot
    refine ⟨hsound, h.free, fun {v b} hv hheld => ?_, fun b => ?_, ?_⟩
    · rw [slotOf?_giveBack] at hheld
      split at hheld
      · cases hheld
      · exact h.slots hv hheld
    · change b ∈ a :: s.pending ↔ _
      rw [List.mem_cons, h.pending]
      constructor
      · intro hb
        rcases hb with rfl | ⟨v, hsome, hnone⟩
        · exact ⟨w, hbefore, by rw [slotOf?_giveBack, if_pos rfl]⟩
        · exact ⟨v, hsome, by rw [slotOf?_giveBack, hnone, ite_self]⟩
      · intro hb
        obtain ⟨v, hsome, hnone⟩ := hb
        rw [slotOf?_giveBack] at hnone
        by_cases hvw : v = w
        · subst hvw
          exact .inl (Option.some.inj (hsome.symm.trans hbefore))
        · rw [if_neg hvw] at hnone
          exact .inr ⟨v, hsome, hnone⟩
    · change s.frees + 1 = s0.frees + (s.pending.length + 1)
      rw [h.frees, Nat.add_assoc]

theorem allocate (h : Spent outs s0 s) (hw : w ∈ outs) (hnew : s0.slotOf? w = none)
    (hok : SlotPool.allocate w credits s = .ok a s') : Spent outs s0 s' := by
  obtain ⟨hslots, hfree, hpending, hfrees⟩ := allocate_eq_ok hok
  refine ⟨(h.sound.allocated hok).sound, hfree.trans h.free, fun {v b} hv hheld => ?_, fun b => ?_, ?_⟩
  · rw [hslots, if_neg (fun hvw : v = w => hv (hvw ▸ hw))] at hheld
    exact h.slots hv hheld
  · rw [hpending, h.pending]
    refine exists_congr fun v => and_congr_right fun hsome => ?_
    -- the wire had no slot when the level began
    have hvw : v ≠ w := fun hvw => by
      rw [hvw, hnew] at hsome
      cases hsome
    rw [hslots, if_neg hvw]
  · rw [hfrees, hpending, h.frees]

theorem gates {gs : List LeveledGate} {as : List AllocatedGate} (h : Spent outs s0 s)
    (hreads : ∀ g ∈ gs, g.wire1 ∉ outs ∧ g.wire2 ∉ outs) (houts : ∀ g ∈ gs, g.output ∈ outs)
    (hnew : ∀ w ∈ outs, s0.slotOf? w = none) (hok : gs.mapM allocateGate s = .ok as s') : Spent outs s0 s' := by
  refine (Action.mapM_keeps (Spent outs s0) (fun _ => True) ?_ hok h).1
  intro g hg t a t' ht hgate
  obtain ⟨t1, t2, h1, h2, h3⟩ := allocateGate_eq_ok_iff.1 hgate
  obtain ⟨hwire1, hwire2⟩ := hreads g hg
  have hout := houts g hg
  exact ⟨((ht.consume hwire1 h1).consume hwire2 h2).allocate hout (hnew _ hout) h3, trivial⟩

end Spent

/-- What a level changes between two pools: it frees the slots that wires have
lost, in front of what is left of the free list, and every other wire keeps its
own. -/
structure LevelFrees (s s' : SlotPool) (freed : List Nat) : Prop where
  free : ∃ kept, s'.free = freed ++ kept ∧ kept <:+ s.free
  nodup : freed.Nodup
  lost : ∀ a, a ∈ freed ↔ ∃ w, s.slotOf? w = some a ∧ s'.slotOf? w = none
  stays : ∀ {w a b}, s.slotOf? w = some a → s'.slotOf? w = some b → a = b
  frees : s'.frees = s.frees + freed.length

/-- **A level frees what its reads have used up.** -/
theorem Sound.levelFrees {s s' : SlotPool} {l : LeveledLevel} {al : AllocatedLevel} (h : s.Sound)
    (hpending : s.pending = []) (hdisjoint : ∀ g ∈ l.gates, ∀ g' ∈ l.gates, g.wire1 ≠ g'.output ∧ g.wire2 ≠ g'.output)
    (hnew : ∀ g ∈ l.gates, s.slotOf? g.output = none) (hok : allocateLevel l s = .ok al s') :
    ∃ freed, LevelFrees s s' freed := by
  obtain ⟨s1, hgates, rfl⟩ := gates_of_allocateLevel hok
  have hspent : Spent (l.gates.map (·.output)) s s1 := by
    refine (Spent.start h hpending).gates (fun g hg => ⟨fun hmem => ?_, fun hmem => ?_⟩)
      (fun g hg => List.mem_map_of_mem hg) (List.forall_mem_map.2 hnew) hgates
    · obtain ⟨g', hg', heq⟩ := List.mem_map.1 hmem
      exact (hdisjoint g hg g' hg').1 heq.symm
    · obtain ⟨g', hg', heq⟩ := List.mem_map.1 hmem
      exact (hdisjoint g hg g' hg').2 heq.symm
  refine ⟨s1.pending, ⟨s1.free, rfl, hspent.free⟩, hspent.sound.nodup.of_append_right, hspent.pending,
    fun {w a b} hbefore hafter => ?_, hspent.frees⟩
  by_cases hw : w ∈ l.gates.map (·.output)
  · obtain ⟨g, hg, rfl⟩ := List.mem_map.1 hw
    rw [hnew g hg] at hbefore
    cases hbefore
  · have hsame := hspent.slots hw hafter
    rw [hbefore] at hsame
    exact Option.some.inj hsame

/-! ## How many slots are freed -/

theorem Sound.live_add_frees_of_consume {s s' : SlotPool} (h : s.Sound) {w a : Nat} (hok : consume w s = .ok a s') :
    s'.live + s'.frees = s.live + s.frees := by
  have hoccupied := (h.consumed hok).occupied
  rcases consume_eq_ok hok with ⟨-, -, hpending, hfrees⟩ | ⟨-, rfl⟩
  · rw [occupied, occupied, hpending] at hoccupied
    omega
  · change (s.giveBack w a).live + (s.pending.length + 1) = s.live + s.pending.length at hoccupied
    change (s.giveBack w a).live + (s.frees + 1) = s.live + s.frees
    omega

theorem Sound.live_add_frees_of_allocate {s s' : SlotPool} (h : s.Sound) {w credits a : Nat}
    (hok : allocate w credits s = .ok a s') : s'.live + s'.frees = s.live + s.frees + 1 := by
  have hoccupied := (h.allocated hok).occupied
  obtain ⟨-, -, hpending, hfrees⟩ := allocate_eq_ok hok
  rw [occupied, occupied, hpending] at hoccupied
  omega

theorem Sound.live_add_frees_of_gates {s s' : SlotPool} (h : s.Sound) {gs : List LeveledGate} {as : List AllocatedGate}
    (hok : gs.mapM allocateGate s = .ok as s') : s'.live + s'.frees = s.live + s.frees + gs.length := by
  induction gs generalizing s as with
  | nil =>
    obtain ⟨-, rfl⟩ := Action.mapM_nil_eq_ok_iff.1 hok
    rfl
  | cons g gs ih =>
    obtain ⟨a, s3, rest, hg, hgs, -⟩ := Action.mapM_cons_eq_ok_iff.1 hok
    obtain ⟨s1, s2, h1, h2, h3⟩ := allocateGate_eq_ok_iff.1 hg
    have hsound1 := (h.consumed h1).sound
    have hsound2 := (hsound1.consumed h2).sound
    have hcount1 := h.live_add_frees_of_consume h1
    have hcount2 := hsound1.live_add_frees_of_consume h2
    have hcount3 := hsound2.live_add_frees_of_allocate h3
    rw [ih (hsound2.allocated h3).sound hgs, List.length_cons]
    omega

/-- **A level gives a slot to each of its gates**, and counts those that it gets
back. -/
theorem Sound.live_add_frees_of_level {s s' : SlotPool} (h : s.Sound) {l : LeveledLevel} {al : AllocatedLevel}
    (hok : allocateLevel l s = .ok al s') : s'.live + s'.frees = s.live + s.frees + l.size := by
  obtain ⟨s1, hgates, rfl⟩ := gates_of_allocateLevel hok
  have hcount : s1.live + s1.frees = s.live + s.frees + l.gates.length := h.live_add_frees_of_gates hgates
  rwa [l.length_gates] at hcount

end SlotPool

/-! ## The levels of a compilation -/

namespace SlotPool

/-- The pool once the first `k` levels of a circuit have ended. -/
def afterLevels (bits : Nat) (c : Circuit) (credits : Nat → Nat) (k : Nat) : SlotPool :=
  ((((List.range k).map fun i => c.leveledLevel credits (i + 1)).mapM allocateLevel).outcome
    (initial bits c.permanent)).2

end SlotPool

namespace Compiled

open SlotPool

variable {bits : Nat} {c : Circuit} {credits : Nat → Nat} {p : Plan} {pool : SlotPool} {k : Nat}

theorem take_leveledLevels (hk : k ≤ c.height) :
    (c.leveledLevels credits).take k = (List.range k).map fun i => c.leveledLevel credits (i + 1) := by
  rw [Circuit.leveledLevels, ← List.map_take, List.take_range, Nat.min_eq_left hk]

theorem ofCircuit_eq (hc : Compiled bits c credits p pool) :
    SlotPool.ofCircuit bits c = .ok (initial bits c.permanent) := by
  have hwidth := hc.width
  have hroom := hc.room
  rw [SlotPool.ofCircuit_eq, if_neg (by omega), if_neg (by omega)]

theorem addGates_eq {table : CreditTable} (hc : Compiled bits c (table.getD · 0) p pool) :
    ∃ l, Leveling.addGates table c.gates (Leveling.ofInputs c.inputs) = .ok () l ∧
      l.close.allLevels = c.leveledLevels (table.getD · 0) ∧ l.levelCount = c.height := by
  rcases Leveling.addGates_cases hc.valid table with ⟨-, l, hadd, hplaced⟩ | ⟨hnot, -⟩
  · exact ⟨l, hadd, hplaced.allLevels_eq hc.valid, hplaced.size_levels⟩
  · exact absurd hc.affords hnot

theorem mapM_afterLevels (hc : Compiled bits c credits p pool) (hk : k ≤ c.height) :
    ∃ als, ((List.range k).map fun i => c.leveledLevel credits (i + 1)).mapM allocateLevel
      (initial bits c.permanent) = .ok als (afterLevels bits c credits k) := by
  have hlevels := hc.levels
  rw [← List.take_append_drop k (c.leveledLevels credits), take_leveledLevels hk] at hlevels
  obtain ⟨als, r, rest, hok, -, -⟩ := Action.mapM_append_eq_ok_iff.1 hlevels
  refine ⟨als, ?_⟩
  rw [afterLevels, Action.outcome_eq_ok_iff.2 hok]
  exact hok

theorem atLevel_afterLevels (hc : Compiled bits c credits p pool) (hk : k ≤ c.height) :
    AtLevel bits c credits (k + 1) (afterLevels bits c credits k) := by
  obtain ⟨als, hok⟩ := hc.mapM_afterLevels hk
  rcases allocateLevels_cases hc.valid hc.affords hc.room k with ⟨-, als', s', hok', hlevel, -⟩ | ⟨-, s', herror⟩
  · rw [hok] at hok'
    cases hok'
    exact hlevel
  · rw [hok] at herror
    cases herror

theorem allocateLevel_afterLevels (hc : Compiled bits c credits p pool) (hk : k < c.height) :
    ∃ al, allocateLevel (c.leveledLevel credits (k + 1)) (afterLevels bits c credits k) =
      .ok al (afterLevels bits c credits (k + 1)) := by
  obtain ⟨als, hok⟩ := hc.mapM_afterLevels hk.le
  obtain ⟨als', hok'⟩ := hc.mapM_afterLevels (k := k + 1) hk
  rw [List.range_succ, List.map_append, List.map_singleton] at hok'
  obtain ⟨as, r, bs, hfirst, hlast, -⟩ := Action.mapM_append_eq_ok_iff.1 hok'
  rw [hok] at hfirst
  cases hfirst
  obtain ⟨al, t, rest, hlevel, hnil, -⟩ := Action.mapM_cons_eq_ok_iff.1 hlast
  obtain ⟨-, rfl⟩ := Action.mapM_nil_eq_ok_iff.1 hnil
  exact ⟨al, hlevel⟩

theorem afterLevels_height (hc : Compiled bits c credits p pool) : afterLevels bits c credits c.height = pool := by
  rw [afterLevels, ← Circuit.leveledLevels, Action.outcome_eq_ok_iff.2 hc.levels]

/-- The numbers of the wires do not wrap around: a table for so many wires would
have no entries, and no wire would ever be freed. -/
theorem room_of_size {table : CreditTable} (htable : table.size = c.wires)
    (hc : Compiled bits c (table.getD · 0) p pool) : c.permanent + c.gates.length < wordSize := by
  by_contra hfull
  have hroom := hc.valid.room
  have hsize : table.size = 0 := by
    rw [htable, Circuit.wires, show c.permanent + c.gates.length = wordSize by omega]
    rfl
  have hzero : ∀ w, table.getD w 0 = 0 := by
    intro w
    rw [Array.getD_eq_getD_getElem?, Array.getElem?_eq_none (by omega), Option.getD_none]
  have hlast := hc.atLevel_afterLevels (le_refl c.height)
  have hheld : (c.heldAt (table.getD · 0) (c.height + 1)).length = c.gates.length := by
    rw [Circuit.heldAt, List.filter_eq_self.2 fun w hw => ?_, c.below_height_succ, c.outputsOf_range, Circuit.made,
      List.length_range']
    rw [ledger, if_pos hw, hzero]
    rfl
  have hoccupied := hlast.occupied
  have hcapacity := hlast.sound.occupied_le_capacity
  rw [hlast.capacity] at hcapacity
  have hspace : addressSpace bits ≤ 2 ^ 62 := Nat.pow_le_pow_right two_pos hc.width.2
  have hword : 2 ^ 62 < wordSize := by decide
  omega

theorem room_of_table {table : CreditTable} (htable : CreditTable.ofCircuit c = .ok table)
    (hc : Compiled bits c (table.getD · 0) p pool) : c.permanent + c.gates.length < wordSize :=
  room_of_size (CreditTable.size_of_ofCircuit htable) hc

theorem room_of_uses {given : Option CreditTable} {table : CreditTable} (huses : Compiler.Uses c given table)
    (hc : Compiled bits c (table.getD · 0) p pool) : c.permanent + c.gates.length < wordSize := by
  cases given with
  | none => exact hc.room_of_table huses
  | some given => exact hc.room_of_size huses.2

theorem live_add_frees_afterLevels (hc : Compiled bits c credits p pool) (hk : k ≤ c.height) :
    (afterLevels bits c credits k).live + (afterLevels bits c credits k).frees =
      c.permanent + (c.below (k + 1)).length := by
  induction k with
  | zero =>
    rw [Circuit.below_one hc.valid]
    rfl
  | succ k ih =>
    obtain ⟨al, hlevel⟩ := hc.allocateLevel_afterLevels hk
    rw [(hc.atLevel_afterLevels (Nat.le_of_succ_le hk)).sound.live_add_frees_of_level hlevel,
      ih (Nat.le_of_succ_le hk), Circuit.size_leveledLevel, c.length_below_succ (k + 1), Nat.add_assoc]

theorem not_held_iff (hc : Compiled bits c credits p pool) {i : Nat} (hi : i < c.gates.length) :
    ¬ (ledger credits (c.outputsOf (c.below (k + 1))) (c.readsIn (c.below (k + 1))) (c.permanent + i)).isSome = true ∧
      c.gateDepth i < k + 1 ↔ ∃ freed ∈ c.freedAt? credits (c.permanent + i), freed ≤ k := by
  have hpaid := (hc.affords _ (Circuit.mem_made.2 ⟨Nat.le_add_right _ _, Nat.add_lt_add_left hi _⟩)).2
  constructor
  · intro ⟨hgone, hlow⟩
    rw [Circuit.isSome_ledger_below hi hlow hpaid] at hgone
    push Not at hgone
    obtain ⟨freed, hfreed, hle⟩ := hgone
    exact ⟨freed, hfreed, by omega⟩
  · intro ⟨freed, hfreed, hle⟩
    have hdeeper : c.gateDepth i < freed := hc.valid.depth_lt_freedAt? hfreed
    have hlow : c.gateDepth i < k + 1 := by omega
    refine ⟨fun hheld => ?_, hlow⟩
    have hlater := (Circuit.isSome_ledger_below hi hlow hpaid).1 hheld freed hfreed
    omega

/-- **The first levels have freed the wires whose reads have used up their credits
there**, whatever the credits. -/
theorem frees_afterLevels_eq (hc : Compiled bits c credits p pool) (hk : k ≤ c.height) :
    (afterLevels bits c credits k).frees =
      (c.made c.gates.length).countP fun w => ∃ freed ∈ c.freedAt? credits w, freed ≤ k := by
  have hlevel := hc.atLevel_afterLevels hk
  let held := fun w => (ledger credits (c.outputsOf (c.below (k + 1))) (c.readsIn (c.below (k + 1))) w).isSome
  have hlive : (afterLevels bits c credits k).live = c.permanent + (c.outputsOf (c.below (k + 1))).countP held := by
    have hoccupied := hlevel.occupied
    rwa [occupied, hlevel.pending, List.length_nil, Nat.add_zero, Circuit.heldAt, ← List.countP_eq_length_filter]
      at hoccupied
  have hgone : (c.outputsOf (c.below (k + 1))).countP (fun w => ¬ held w = true) =
      (c.made c.gates.length).countP fun w => ∃ freed ∈ c.freedAt? credits w, freed ≤ k := by
    rw [← c.outputsOf_range, Circuit.outputsOf, Circuit.outputsOf, List.countP_map, List.countP_map, Circuit.below,
      List.countP_filter]
    refine List.countP_congr fun i hi => ?_
    simp only [Function.comp_apply, Bool.and_eq_true, decide_eq_true_eq]
    exact hc.not_held_iff (List.mem_range.1 hi)
  have hcount := hc.live_add_frees_afterLevels hk
  have hsplit := List.length_eq_countP_add_countP held (l := c.outputsOf (c.below (k + 1)))
  have hlength : (c.outputsOf (c.below (k + 1))).length = (c.below (k + 1)).length := List.length_map _
  omega

theorem frees_eq (hc : Compiled bits c credits p pool) : pool.frees = c.freesWith credits := by
  rw [← hc.afterLevels_height, hc.frees_afterLevels_eq le_rfl]
  refine List.countP_congr fun w _ => ?_
  simp only [decide_eq_true_eq]
  rw [Option.isSome_iff_exists]
  refine exists_congr fun freed => ⟨And.left, fun hfreed => ⟨hfreed, ?_⟩⟩
  obtain ⟨-, rfl⟩ := Circuit.mem_freedAt?.1 hfreed
  exact c.lastRead_le_height w

end Compiled

/-! ## Every level -/

/-- What the pools between the levels of a circuit hold and free. -/
structure FreesAfterLastRead (c : Circuit) (pools : Nat → SlotPool) : Prop where
  held : ∀ k ≤ c.height, ∀ w, c.permanent ≤ w → ((∃ a, (pools k).addressOf w = .ok a) ↔ c.HeldAfter k w)
  stays : ∀ k < c.height, ∀ w a b, (pools k).slotOf? w = some a → (pools (k + 1)).slotOf? w = some b → a = b
  freed : ∀ k < c.height, ∃ freed kept, (pools (k + 1)).free = freed ++ kept ∧ kept <:+ (pools k).free ∧
    (freed.map some).Perm ((c.freedBy (k + 1)).map (pools k).slotOf?)
  once : ∀ k ≤ c.height, ∀ w ∈ c.made c.gates.length, c.depth w ≤ k → ¬ c.HeldAfter k w →
    ∃! level, level ≤ k ∧ w ∈ c.freedBy level

section Levels

open SlotPool

variable {bits : Nat} {c : Circuit} {credits : Nat → Nat} {p : Plan} {pool : SlotPool}

theorem Compiled.isSome_slotOf?_iff (hc : Compiled bits c credits p pool)
    (hcredits : ∀ w ∈ c.made c.gates.length, credits w = c.creditsNeeded w) {k : Nat} (hk : k ≤ c.height) (w : Nat) :
    ((afterLevels bits c credits k).slotOf? w).isSome = true ↔ c.HeldAfter k w := by
  rw [(hc.atLevel_afterLevels hk).isSome_slotOf?]
  exact Circuit.isSome_ledger_iff_heldAfter hcredits hc.affords k w

/-- **A level frees the slots of the wires with their last reader in it.** -/
theorem Compiled.levelFrees (hc : Compiled bits c credits p pool)
    (hcredits : ∀ w ∈ c.made c.gates.length, credits w = c.creditsNeeded w) {k : Nat} (hk : k < c.height) :
    ∃ freed, LevelFrees (afterLevels bits c credits k) (afterLevels bits c credits (k + 1)) freed ∧
      (freed.map some).Perm ((c.freedBy (k + 1)).map (afterLevels bits c credits k).slotOf?) := by
  obtain ⟨al, hlevel⟩ := hc.allocateLevel_afterLevels hk
  have hbefore := hc.atLevel_afterLevels hk.le
  have hheld : ∀ w, ((afterLevels bits c credits k).slotOf? w).isSome = true ↔ c.HeldAfter k w :=
    hc.isSome_slotOf?_iff hcredits hk.le
  have hheld' : ∀ w, ((afterLevels bits c credits (k + 1)).slotOf? w).isSome = true ↔ c.HeldAfter (k + 1) w :=
    hc.isSome_slotOf?_iff hcredits hk
  have hnew : ∀ g ∈ (c.leveledLevel credits (k + 1)).gates, (afterLevels bits c credits k).slotOf? g.output = none := by
    intro g hg
    rw [Circuit.gates_leveledLevel] at hg
    obtain ⟨i, hi, rfl⟩ := List.mem_map.1 hg
    rw [← Option.not_isSome_iff_eq_none, hheld]
    intro h
    have hdepth : c.gateDepth i = k + 1 := (Circuit.mem_levelGates.1 hi).2
    have hlow : c.gateDepth i ≤ k := h.2.1
    omega
  obtain ⟨freed, hfrees⟩ := hbefore.sound.levelFrees hbefore.pending (Circuit.leveledLevel_disjoint hc.valid _ _) hnew hlevel
  refine ⟨freed, hfrees, (List.perm_ext_iff_of_nodup ?_ ?_).2 fun slot => ?_⟩
  · exact hfrees.nodup.map fun _ _ heq => Option.some.inj heq
  · refine (c.nodup_freedBy (k + 1)).map_on fun w hw v _ heq => ?_
    obtain ⟨a, ha⟩ := Option.isSome_iff_exists.1 ((hheld w).2 ((Circuit.mem_freedBy_succ_iff hc.valid).1 hw).1)
    exact hbefore.sound.inj ha (heq ▸ ha)
  · rw [List.mem_map, List.mem_map]
    constructor
    · intro h
      obtain ⟨a, ha, rfl⟩ := h
      obtain ⟨w, hsome, hnone⟩ := (hfrees.lost a).1 ha
      refine ⟨w, (Circuit.mem_freedBy_succ_iff hc.valid).2 ⟨(hheld w).1 (by rw [hsome]; rfl), fun hw => ?_⟩, hsome⟩
      rw [← hheld', hnone] at hw
      cases hw
    · intro h
      obtain ⟨w, hw, rfl⟩ := h
      obtain ⟨hthen, hgone⟩ := (Circuit.mem_freedBy_succ_iff hc.valid).1 hw
      obtain ⟨a, ha⟩ := Option.isSome_iff_exists.1 ((hheld w).2 hthen)
      rw [← hheld', Option.not_isSome_iff_eq_none] at hgone
      exact ⟨a, (hfrees.lost a).2 ⟨w, ha, hgone⟩, ha.symm⟩

theorem Compiled.freesAfterLastRead (hc : Compiled bits c credits p pool)
    (hcredits : ∀ w ∈ c.made c.gates.length, credits w = c.creditsNeeded w) :
    FreesAfterLastRead c (afterLevels bits c credits) where
  held k hk w hge := by
    rw [← hc.isSome_slotOf?_iff hcredits hk, Option.isSome_iff_exists]
    refine exists_congr fun a => ?_
    rw [addressOf_eq_ok_iff, (hc.atLevel_afterLevels hk).permanent]
    exact ⟨fun h => (h.resolve_left fun hlow => Nat.not_lt.2 hge hlow.1).2, fun h => .inr ⟨hge, h⟩⟩
  stays k hk w a b hbefore hafter := by
    obtain ⟨freed, hfrees, -⟩ := hc.levelFrees hcredits hk
    exact hfrees.stays hbefore hafter
  freed k hk := by
    obtain ⟨freed, hfrees, hperm⟩ := hc.levelFrees hcredits hk
    obtain ⟨kept, hfree, hkept⟩ := hfrees.free
    exact ⟨freed, kept, hfree, hkept, hperm⟩
  once _ _ _ hmade hdepth hgone := Circuit.existsUnique_freedBy hmade hdepth hgone

theorem Compiled.frees_afterLevels (hc : Compiled bits c credits p pool)
    (hcredits : ∀ w ∈ c.made c.gates.length, credits w = c.creditsNeeded w) {k : Nat} (hk : k ≤ c.height) :
    (afterLevels bits c credits k).frees =
      (c.made c.gates.length).countP fun w => w ∉ c.outputs ∧ c.readsOf w ≠ 0 ∧ c.lastRead w ≤ k := by
  rw [hc.frees_afterLevels_eq hk]
  refine List.countP_congr fun w hw => ?_
  simp only [decide_eq_true_eq, Circuit.mem_freedAt?_iff (Circuit.mem_made.1 hw).1 (hcredits w hw)]
  constructor
  · rintro ⟨freed, ⟨hout, hread, rfl⟩, hle⟩
    exact ⟨hout, hread, hle⟩
  · rintro ⟨hout, hread, hle⟩
    exact ⟨_, ⟨hout, hread, rfl⟩, hle⟩

end Levels

/-! ## The compilation -/

namespace Compiler

variable {σ : Type} [Inhabited σ] [PlanSink σ] {s : Compiler} {c : Circuit} {table : CreditTable} {p : Plan}
  {pool : SlotPool} {w w' : σ}

/-- What a compilation with the circuit's own credits has allocated once its first
`k` levels have ended. -/
def allocationAfter (s : Compiler) (c : Circuit) (w : σ) (k : Nat) : Except Fault (Allocation σ) := do
  let table ← CreditTable.ofCircuit c
  let (placed, leveling) := (Leveling.addGates table c.gates).outcome (Leveling.ofInputs c.inputs)
  placed
  let pool ← SlotPool.ofCircuit s.bits c
  let (ended, allocation) := ((leveling.close.allLevels.take k).forM Allocation.addLevel).outcome
    ⟨pool, PlanSink.start c.inputs w, CompilerStats.start⟩
  ended
  return allocation

theorem pool_allocationAfter (htable : CreditTable.ofCircuit c = .ok table)
    (hc : Compiled s.bits c (table.getD · 0) p pool)
    (htell : PlanSink.tell (c.leveledLevels (table.getD · 0)) p w = .ok () w') {k : Nat} (hk : k ≤ c.height) :
    (s.allocationAfter c w k).map Allocation.pool = .ok (SlotPool.afterLevels s.bits c (table.getD · 0) k) := by
  obtain ⟨l, hadd, hall, -⟩ := hc.addGates_eq
  obtain ⟨w1, hlevels, -⟩ := PlanSink.tell_eq_ok_iff.1 htell
  have hadded : (c.leveledLevels (table.getD · 0)).forM Allocation.addLevel
      ⟨SlotPool.initial s.bits c.permanent, PlanSink.start p.inputs w, CompilerStats.start⟩ =
        .ok () ⟨pool, w1, _⟩ := Allocation.addLevels_eq_ok_iff.2 ⟨p.levels, hc.levels, hlevels, rfl⟩
  rw [← List.take_append_drop k (c.leveledLevels (table.getD · 0)), Action.forM_append, hc.inputs] at hadded
  obtain ⟨⟨⟩, a, hfirst, -⟩ := Action.bind_eq_ok_iff.1 hadded
  obtain ⟨als, hmap, -⟩ := Allocation.addLevels_eq_ok_iff.1 hfirst
  rw [Compiled.take_leveledLevels hk] at hmap
  have hpools : SlotPool.afterLevels s.bits c (table.getD · 0) k = a.pool := by
    rw [SlotPool.afterLevels, Action.outcome_eq_ok_iff.2 hmap]
  simp only [allocationAfter, htable, bind, Except.bind, Action.outcome_eq_ok_iff.2 hadd, hc.ofCircuit_eq, hall,
    Action.outcome_eq_ok_iff.2 hfirst, hpools]
  rfl

/-- The statistics of a compilation count its gates and levels, and what its last
pool has handed out and freed. -/
theorem stats_of_compiled (hc : Compiled s.bits c (table.getD · 0) p pool)
    (htell : PlanSink.tell (c.leveledLevels (table.getD · 0)) p w = .ok () w') (columns : Nat) :
    ∃ tracked, (s.compileLevels columns c table w).stats =
      { (c.leveledLevels (table.getD · 0)).foldl CompilerStats.addLevel CompilerStats.start with
        gates := c.gates.length
        levels := c.height
        slots := p.slots
        frees := pool.frees
        maxTracked := tracked } := by
  obtain ⟨l, hadd, hall, hcount⟩ := hc.addGates_eq
  rw [compileLevels, hadd]
  dsimp only
  rw [hc.ofCircuit_eq, hall]
  dsimp only
  rw [hc.run_eq htell]
  dsimp only [Allocation.finalStats]
  rw [hcount, ← hc.slots]
  exact ⟨_, rfl⟩

theorem stats_compileLevels (hc : Compiled s.bits c (table.getD · 0) p pool)
    (htell : PlanSink.tell (c.leveledLevels (table.getD · 0)) p w = .ok () w') (columns : Nat) :
    (s.compileLevels columns c table w).stats.levels = c.height ∧
      (s.compileLevels columns c table w).stats.frees = pool.frees := by
  obtain ⟨tracked, hstats⟩ := stats_of_compiled hc htell columns
  rw [hstats]
  exact ⟨rfl, rfl⟩

end Compiler

/-- **A wire gives its slot back with its last reader.** Of a circuit that
compiles with its own credits, the gate wires that hold an address once a level
has ended are those up to this level that are outputs, that nothing reads, or
that a later level reads; each keeps its address for as long. Every other gate
wire up to this level has been freed by just one level, the one of its last
reader: a level puts the addresses of these wires in front of the free list, each
once, and nothing else. So the frees that the statistics count are the gate wires
that are read and are no outputs. -/
theorem wires_are_freed_after_last_read {σ : Type} [Inhabited σ] [PlanSink σ] {s : Compiler} {columns : Nat}
    {c : Circuit} {w : σ} (hok : (s.compile columns c w).ending = .ok ()) :
    (∃ pools, (∀ k ≤ c.height, (s.allocationAfter c w k).map Allocation.pool = .ok (pools k)) ∧
      FreesAfterLastRead c pools) ∧
    (s.compile columns c w).stats.levels = c.height ∧
    (s.compile columns c w).stats.frees =
      (c.made c.gates.length).countP fun v => v ∉ c.outputs ∧ c.readsOf v ≠ 0 := by
  obtain ⟨table, htable, p, pool, hc, htell⟩ := Compiler.compile_eq_ok_iff.1 ⟨hok, rfl⟩
  have hroom := hc.room_of_table htable
  have hcredits := CreditTable.getD_of_ofCircuit htable hroom
  refine ⟨⟨_, fun k hk => Compiler.pool_allocationAfter htable hc htell hk, hc.freesAfterLastRead hcredits⟩, ?_⟩
  have hstats : (s.compile columns c w).stats = (s.compileLevels columns c table w).stats := by
    rw [Compiler.compile, htable]
  obtain ⟨hlevels, hfrees⟩ := Compiler.stats_compileLevels hc htell columns
  refine ⟨by rw [hstats, hlevels], ?_⟩
  rw [hstats, hfrees, ← hc.afterLevels_height, hc.frees_afterLevels hcredits le_rfl]
  refine List.countP_congr fun v _ => ?_
  simp only [decide_eq_true_eq]
  exact ⟨fun h => ⟨h.1, h.2.1⟩, fun h => ⟨h.1, h.2, c.lastRead_le_height v⟩⟩

/-- A full adder frees one wire with its second level and two with its third. -/
theorem full_adder_frees_three_wires :
    let compilation := Compiler.default.compile 0 fullAdder PlanRecord.empty
    (∃ pools, (∀ k ≤ fullAdder.height,
        (Compiler.default.allocationAfter fullAdder PlanRecord.empty k).map Allocation.pool = .ok (pools k)) ∧
      FreesAfterLastRead fullAdder pools) ∧
    fullAdder.freedBy 2 = [5] ∧ fullAdder.freedBy 3 = [7, 8] ∧ compilation.ending = .ok () ∧
      compilation.stats.frees = 3 := by
  intro compilation
  have hok : compilation.ending = .ok () := by decide +kernel
  obtain ⟨hpools, -, hfrees⟩ := wires_are_freed_after_last_read hok
  refine ⟨hpools, by decide +kernel, by decide +kernel, hok, ?_⟩
  rw [hfrees]
  decide +kernel

end GatePlan
