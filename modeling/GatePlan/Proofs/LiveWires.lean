/-
The wires that leveling tracks. A gate wire stays in the table of tracked wires
as long as its credits last, which is forever if it was given none, and the
next gate is refused for its credits when its reads overdraw a wire that it
reads. Both can be said of the offers alone, by counting how often their gates
read a wire (`Circuit.Unspent`, `Circuit.Overdraws`), because after any row of
accepted offers the table is the ledger of their reads (`offers_cases`), and a
further gate reads both of its inputs or finds one of them spent
(`Placed.readInputs_cases`).

No bound on the number of wires is assumed: a gate is only accepted while wire
numbers last (`checkGates_of_offers`). With the credits that a circuit needs,
the tracked wires are those that the rest of the circuit still has a use for.
-/
import GatePlan.Proofs.DepthExact
import GatePlan.Proofs.Peak

namespace GatePlan

/-! ## Unspent credits -/

namespace Circuit

variable {c : Circuit} {credits : Nat → Nat} {k : Nat}

/-- The output of a gate, of whose credits something is left when all gates have
read. -/
def Unspent (c : Circuit) (credits : Nat → Nat) (w : Nat) : Prop :=
  w ∈ c.made c.gates.length ∧ (credits w = 0 ∨ c.readsOf w < credits w)

instance (w : Nat) : Decidable (c.Unspent credits w) := inferInstanceAs (Decidable (_ ∧ _))

/-- One more gate would read some gate wire more often than its credits allow. -/
def Overdraws (c : Circuit) (credits : Nat → Nat) (g : Gate) : Prop :=
  ∃ w ∈ g.reads, w ∈ c.made c.gates.length ∧ credits w ≠ 0 ∧ credits w < c.readsOf w + g.reads.count w

instance (g : Gate) : Decidable (c.Overdraws credits g) := inferInstanceAs (Decidable (∃ w ∈ g.reads, _))

/-- The first `k` gates, as they are offered with the given credits. -/
def offers (c : Circuit) (credits : Nat → Nat) (k : Nat) : List Offer :=
  (List.range k).map fun i => ⟨c.gateAt i, credits (c.permanent + i)⟩

/-- Where the first `k` gates are placed. -/
def placements (c : Circuit) (k : Nat) : List Placement := (c.made k).map fun w => ⟨w, c.place w⟩

theorem offers_succ (c : Circuit) (credits : Nat → Nat) (k : Nat) :
    c.offers credits (k + 1) = c.offers credits k ++ [⟨c.gateAt k, credits (c.permanent + k)⟩] := by
  rw [offers, List.range_succ, List.map_append]
  rfl

theorem placements_succ (c : Circuit) (k : Nat) :
    c.placements (k + 1) = c.placements k ++ [⟨c.permanent + k, c.place (c.permanent + k)⟩] := by
  rw [placements, made_succ, List.map_append]
  rfl

theorem offers_ofOffers (inputs : Nat) (offers : List Offer) :
    (ofOffers inputs offers).offers (offeredCredits (ofOffers inputs offers) offers) offers.length = offers := by
  refine List.ext_getElem (by simp [Circuit.offers]) fun i _ hi => ?_
  have ho := List.getElem?_eq_getElem hi
  have hgate : (ofOffers inputs offers).gates[i]? = some offers[i].gate := by
    rw [ofOffers, List.getElem?_map, ho, Option.map_some]
  simp only [Circuit.offers, List.getElem_map, List.getElem_range]
  rw [gateAt_eq hgate, offeredCredits_eq _ ho]

theorem affordable_one_more_iff (hafford : c.Affords credits) (g : Gate) :
    Affordable credits (c.made c.gates.length) (c.gates.flatMap Gate.reads ++ g.reads) ↔ ¬ c.Overdraws credits g := by
  unfold Affords at hafford
  rw [affordable_append_iff, and_iff_right hafford]
  unfold Overdraws readsOf
  constructor
  · intro h hover
    obtain ⟨w, hread, hmade, hover⟩ := hover
    have := h w hread hmade
    omega
  · intro h w hread hmade
    by_contra hover
    exact h ⟨w, hread, hmade, by omega⟩

theorem count_readBy_add (c : Circuit) (k w : Nat) :
    (c.readBy k).count w + ((c.gates.drop k).flatMap Gate.reads).count w = c.readsOf w := by
  rw [readBy, readsOf, ← List.count_append, ← List.flatMap_append, List.take_append_drop]

/-- With the credits that the circuit needs, something is left of those of a wire
exactly when there is a use for the wire. -/
theorem credits_left_iff {w credit : Nat} (hge : c.permanent ≤ w) (hneeded : credit = c.creditsNeeded w) :
    (credit = 0 ∨ (c.readBy k).count w < credit) ↔
      w ∈ c.outputs ∨ c.readsOf w = 0 ∨ w ∈ (c.gates.drop k).flatMap Gate.reads := by
  have hcount := c.count_readBy_add k w
  rw [hneeded, creditsNeeded, if_neg (Nat.not_lt.2 hge)]
  by_cases hout : w ∈ c.outputs
  · simp [hout, outputCredits]
  · rw [if_neg hout, or_iff_right hout, ← List.count_pos_iff]
    omega

end Circuit

namespace Leveling

variable {c : Circuit} {credits : Nat → Nat} {k : Nat} {read : List Nat} {s t : Leveling} {offers : List Offer}
  {placements : List Placement}

/-! ## One gate -/

theorem offer_answers {o : Offer} {pl : Placement} (h : offer o s = .ok pl t) :
    pl.output = s.nextWire ∧ t.tracked[pl.output]? = some ⟨pl.place, o.credits⟩ ∧
      t.maxTracked = max s.maxTracked t.trackedCount := by
  rcases addGate_reads o.gate.type o.gate.input1 o.gate.input2 o.credits s with
    ⟨-, -, p1, s1, p2, s2, h1, h2, hadd⟩ | ⟨_, _, _, -, -, herror⟩ | ⟨_, herror⟩
  · have hsame : s2.maxTracked = s.maxTracked := by rw [(readInput_keeps h2).2, (readInput_keeps h1).2]
    cases h.symm.trans hadd
    refine ⟨rfl, ?_, ?_⟩
    · exact (getElem?_insert_nat ..).trans (if_pos rfl)
    · show max s2.maxTracked _ = _
      rw [hsame]
      rfl
  · cases h.symm.trans herror
  · cases h.symm.trans herror

theorem offer_cases (hv : c.Valid) (h : Placed c credits k (c.readBy k) s) (hk : k < c.gates.length)
    (hafford : Affordable credits (c.made k) (c.readBy k)) :
    (Affordable credits (c.made (k + 1)) (c.readBy (k + 1)) ∧ ∃ s',
      offer ⟨c.gateAt k, credits (c.permanent + k)⟩ s = .ok ⟨c.permanent + k, c.place (c.permanent + k)⟩ s' ∧
        Placed c credits (k + 1) (c.readBy (k + 1)) s') ∨
    (¬ Affordable credits (c.made (k + 1)) (c.readBy (k + 1)) ∧ ∃ fault s',
      offer ⟨c.gateAt k, credits (c.permanent + k)⟩ s = .error fault s') := by
  rcases addGate_cases hv h hk hafford with ⟨hmore, pl, s', hok, hs'⟩ | ⟨hnot, fault, s', herror, -⟩
  swap
  · exact .inr ⟨hnot, fault, s', herror⟩
  have hok : offer ⟨c.gateAt k, credits (c.permanent + k)⟩ s = .ok pl s' := hok
  obtain ⟨houtput, htracked, -⟩ := offer_answers hok
  rw [h.nextWire, wrap_of_lt (by have := hv.room; omega)] at houtput
  rw [hs'.tracked, houtput] at htracked
  obtain ⟨left, -, hplace⟩ := Option.map_eq_some_iff.1 htracked
  obtain rfl : pl = ⟨c.permanent + k, c.place (c.permanent + k)⟩ := by
    cases pl
    cases houtput
    cases hplace
    rfl
  exact .inl ⟨hmore, s', hok, hs'⟩

/-! ## A row of gates -/

/-- **The gates of a circuit are accepted as long as their reads are affordable**,
and then the table is the ledger of these reads. -/
theorem offers_cases (hv : c.Valid) (credits : Nat → Nat) (hk : k ≤ c.gates.length) :
    (Affordable credits (c.made k) (c.readBy k) ∧ ∃ s,
      (c.offers credits k).mapM offer (ofInputs c.inputs) = .ok (c.placements k) s ∧
        Placed c credits k (c.readBy k) s) ∨
    (¬ Affordable credits (c.made k) (c.readBy k) ∧ ∃ fault s,
      (c.offers credits k).mapM offer (ofInputs c.inputs) = .error fault s) := by
  induction k with
  | zero =>
    exact .inl ⟨fun w hw => by simp [Circuit.made] at hw, _, rfl, placed_ofInputs c credits⟩
  | succ k ih =>
    rw [Circuit.offers_succ, Circuit.placements_succ]
    rcases ih (by omega) with ⟨hafford, s, hok, hs⟩ | ⟨hnot, fault, s, herror⟩
    · rcases offer_cases hv hs hk hafford with ⟨hmore, s', hlast, hs'⟩ | ⟨hnot, fault, s', hlast⟩
      · refine .inl ⟨hmore, s', Action.mapM_append_eq_ok_iff.2 ⟨_, s, _, hok, ?_, rfl⟩, hs'⟩
        exact Action.mapM_cons_eq_ok_iff.2 ⟨_, s', [], hlast, rfl, rfl⟩
      · refine .inr ⟨hnot, fault, s', Action.mapM_append_eq_error_iff.2 (.inr ⟨_, s, hok, ?_⟩)⟩
        exact Action.mapM_cons_eq_error_iff.2 (.inl hlast)
    · exact .inr ⟨fun h => hnot (Circuit.affordable_of_le (Nat.le_succ k) h), fault, s,
        Action.mapM_append_eq_error_iff.2 (.inl herror)⟩

/-- Gates that are accepted pass the check of a circuit: both count wires in the
same way, past the last wire number as well. -/
theorem checkGates_of_offers (h : offers.mapM offer s = .ok placements t) (i : Nat) :
    Circuit.checkGates (offers.map (·.gate)) i s.nextWire = .ok () := by
  induction offers generalizing s i placements with
  | nil => rfl
  | cons o offers ih =>
    obtain ⟨pl, r, rest, hfirst, hrest, -⟩ := Action.mapM_cons_eq_ok_iff.1 h
    rcases addGate_steps o.gate.type o.gate.input1 o.gate.input2 o.credits s with
      ⟨_, _, hok, h1, h2, -, hnext, -⟩ | ⟨fault, s', herror, -⟩
    swap
    · cases hfirst.symm.trans herror
    cases hfirst.symm.trans hok
    rw [List.map_cons, Circuit.checkGates, if_neg (by simp; omega), ← hnext]
    exact ih hrest (i + 1)

theorem valid_ofOffers {inputs : Nat} (h : offers.mapM offer (ofInputs inputs) = .ok placements s) :
    (Circuit.ofOffers inputs offers).Valid := by
  obtain ⟨hroom, hordered⟩ := (Circuit.checkGates_eq_ok_iff _ 0 (wrap_lt _)).1 (checkGates_of_offers h 0)
  exact ⟨hroom, hordered, fun w hw => by cases hw⟩

theorem maxTracked_of_offers (h : offers.mapM offer s = .ok placements t) :
    t.maxTracked = max s.maxTracked
      ((Finset.range offers.length).sup fun i => (s.offerAll (offers.take (i + 1))).trackedCount) := by
  induction offers generalizing s placements with
  | nil =>
    obtain ⟨-, rfl⟩ := Action.mapM_nil_eq_ok_iff.1 h
    simp
  | cons o offers ih =>
    obtain ⟨pl, r, rest, hfirst, hrest, -⟩ := Action.mapM_cons_eq_ok_iff.1 h
    obtain ⟨-, -, hmax⟩ := offer_answers hfirst
    have hstep : ∀ more, s.offerAll (o :: more) = r.offerAll more := fun more => (accepted_of_ok hfirst more).2
    rw [ih hrest, hmax, List.length_cons, Finset.range_add_one', Finset.sup_insert, Finset.sup_map, max_assoc]
    simp only [List.take_succ_cons, hstep, Function.comp_def]
    rfl

/-! ## What is tracked -/

theorem Placed.levelOf?_eq (h : Placed c credits k read s) (w : Nat) :
    s.levelOf? w =
      if w < c.permanent then some 0
      else if w ∈ c.made k ∧ (credits w = 0 ∨ read.count w < credits w) then some (c.depth w) else none := by
  rw [levelOf?, h.permanent, h.tracked]
  by_cases hperm : w < c.permanent
  · rw [if_pos hperm, if_pos hperm]
  rw [if_neg hperm, if_neg hperm, ledger]
  by_cases hmade : w ∈ c.made k
  swap
  · rw [if_neg hmade, if_neg fun hh => hmade hh.1]
    rfl
  rw [if_pos hmade]
  by_cases hleft : credits w = 0 ∨ read.count w < credits w
  · obtain ⟨left, hsome⟩ := Option.isSome_iff_exists.1 (isSome_creditsLeft.2 hleft)
    rw [if_pos ⟨hmade, hleft⟩, hsome]
    exact congrArg some (Circuit.level_place c w)
  · have hnone : creditsLeft (credits w) (read.count w) = none := by
      rwa [← isSome_creditsLeft, Bool.not_eq_true, Option.isSome_eq_false_iff, Option.isNone_iff_eq_none] at hleft
    rw [if_neg fun hh => hleft hh.2, hnone]
    rfl

theorem Placed.trackedCount_eq (h : Placed c credits k read s) :
    s.trackedCount = (c.made k).countP fun w => credits w = 0 ∨ read.count w < credits w := by
  have hsome : ∀ w, (s.tracked[w]?).isSome = (ledger credits (c.made k) read w).isSome := by
    intro w
    rw [h.tracked, Option.isSome_map]
  rw [trackedCount, size_eq_countP_ledger List.nodup_range' hsome]
  refine List.countP_congr fun w hw => ?_
  rw [ledger, if_pos hw, isSome_creditsLeft, decide_eq_true_iff]

/-! ## The state after accepted gates -/

/-- What the state after the gates of a circuit tracks, and how it takes one gate
more. A wire counts as produced when it is numbered below the next one; there is
none once the numbers have run out. -/
structure TracksUnspent (c : Circuit) (credits : Nat → Nat) (placements : List Placement) (s : Leveling) : Prop where
  next_wire : s.nextWire = c.wires
  outputs : placements.map (·.output) = c.made c.gates.length
  levels : ∀ pl ∈ placements, pl.place.level = c.depth pl.output
  level_of : ∀ w, s.levelOf? w =
    if w < c.permanent then some 0 else if c.Unspent credits w then some (c.depth w) else none
  count : s.trackedCount = (c.made c.gates.length).countP fun w => c.Unspent credits w
  refuses : ∀ o : Offer, o.credits ≤ maxCredits → (∀ w ∈ o.gate.reads, w < s.nextWire) →
    ((∃ fault s', offer o s = .error fault s' ∧ fault.kind = .creditUnderflow) ↔ c.Overdraws credits o.gate)
  accepts : ∀ o : Offer, o.credits ≤ maxCredits → (∀ w ∈ o.gate.reads, w < s.nextWire) →
    ((∃ pl s', offer o s = .ok pl s') ↔ ¬ c.Overdraws credits o.gate)

theorem Placed.offer_outcome (h : Placed c credits c.gates.length (c.gates.flatMap Gate.reads) s)
    (hv : c.Valid) (hafford : c.Affords credits) {o : Offer} (hcredits : o.credits ≤ maxCredits)
    (hproduced : ∀ w ∈ o.gate.reads, w < s.nextWire) :
    (¬ c.Overdraws credits o.gate ∧ ∃ pl s', offer o s = .ok pl s') ∨
    (c.Overdraws credits o.gate ∧ ∃ fault s', offer o s = .error fault s' ∧ fault.kind = .creditUnderflow) := by
  have hlt : o.gate.input1 < s.nextWire := hproduced _ (by simp [Gate.reads])
  -- past the last wire number no wire counts as produced
  have hroom : c.permanent + c.gates.length < wordSize := by
    rcases Nat.lt_or_eq_of_le hv.room with hlt' | hfull
    · exact hlt'
    · rw [h.nextWire, hfull, show wrap wordSize = 0 from rfl] at hlt
      cases hlt
  rw [h.nextWire, wrap_of_lt hroom] at hproduced
  have hboth : o.gate.input1 < c.permanent + c.gates.length ∧ o.gate.input2 < c.permanent + c.gates.length := by
    simpa [Gate.reads] using hproduced
  have hreads : c.gates.flatMap Gate.reads ++ [o.gate.input1] ++ [o.gate.input2] =
      c.gates.flatMap Gate.reads ++ o.gate.reads := by simp [Gate.reads]
  have hmore := c.affordable_one_more_iff hafford o.gate
  rw [offer, addGate_of_open h.closed, if_neg (by omega)]
  rcases h.readInputs_cases hroom hafford hboth s.nextWire _ with ⟨hall, s', -, hok⟩ | ⟨hnot, fault, s', herror, hkind⟩
  · rw [hreads, hmore] at hall
    exact .inl ⟨hall, _, _, hok⟩
  · rw [hreads, hmore, not_not] at hnot
    exact .inr ⟨hnot, fault, s', herror, hkind⟩

theorem Placed.tracksUnspent (h : Placed c credits c.gates.length (c.gates.flatMap Gate.reads) s)
    (hv : c.Valid) (hafford : c.Affords credits) :
    TracksUnspent c credits (c.placements c.gates.length) s where
  next_wire := h.nextWire
  outputs := by
    rw [Circuit.placements, List.map_map]
    exact List.map_id _
  levels pl hpl := by
    obtain ⟨w, -, rfl⟩ := List.mem_map.1 hpl
    exact Circuit.level_place c w
  level_of := h.levelOf?_eq
  count := by
    rw [h.trackedCount_eq]
    refine List.countP_congr fun w hw => ?_
    simp only [decide_eq_true_eq]
    exact (and_iff_right hw).symm
  refuses o hcredits hproduced := by
    rcases h.offer_outcome hv hafford hcredits hproduced with ⟨hnot, pl, s', hok⟩ | ⟨hover, herror⟩
    · refine iff_of_false (fun hh => ?_) hnot
      obtain ⟨fault, t, herror, -⟩ := hh
      cases hok.symm.trans herror
    · exact iff_of_true herror hover
  accepts o hcredits hproduced := by
    rcases h.offer_outcome hv hafford hcredits hproduced with ⟨hnot, hok⟩ | ⟨hover, fault, s', herror, -⟩
    · exact iff_of_true hok hnot
    · refine iff_of_false (fun hh => ?_) (not_not_intro hover)
      obtain ⟨pl, t, hok⟩ := hh
      cases hok.symm.trans herror

theorem tracksUnspent_of_offers {inputs : Nat} (h : offers.mapM offer (ofInputs inputs) = .ok placements s) :
    let c := Circuit.ofOffers inputs offers
    TracksUnspent c (offeredCredits c offers) placements s := by
  intro c
  have hv : c.Valid := valid_ofOffers h
  have hlength : offers.length = c.gates.length := (List.length_map ..).symm
  have hoffers : c.offers (offeredCredits c offers) c.gates.length = offers :=
    hlength ▸ Circuit.offers_ofOffers inputs offers
  rcases offers_cases hv (offeredCredits c offers) le_rfl with
    ⟨hafford, s', hok, hs'⟩ | ⟨-, fault, s', herror⟩
  · rw [hoffers] at hok
    rw [c.readBy_length] at hafford hs'
    cases h.symm.trans hok
    exact hs'.tracksUnspent hv hafford
  · rw [hoffers] at herror
    cases h.symm.trans herror

theorem tracked_of_ofCircuit {table : CreditTable} (htable : CreditTable.ofCircuit c = .ok table)
    (hroom : c.permanent + c.gates.length < wordSize) (hk : k ≤ c.gates.length) :
    ∃ s, (c.offers (table.getD · 0) k).mapM offer (ofInputs c.inputs) = .ok (c.placements k) s ∧
      ∀ w, c.permanent ≤ w → ((s.levelOf? w).isSome = true ↔ w < c.permanent + k ∧
        (w ∈ c.outputs ∨ c.readsOf w = 0 ∨ w ∈ (c.gates.drop k).flatMap Gate.reads)) := by
  have hv := CreditTable.valid_of_ofCircuit htable
  have hneeded := CreditTable.getD_of_ofCircuit htable hroom
  have hafford : Affordable (table.getD · 0) (c.made c.gates.length) (c.readBy c.gates.length) :=
    c.readBy_length ▸ CreditTable.affords_of_ofCircuit htable hroom
  rcases offers_cases hv (table.getD · 0) hk with ⟨-, s, hok, hs⟩ | ⟨hnot, -⟩
  swap
  · exact absurd (Circuit.affordable_of_le hk hafford) hnot
  refine ⟨s, hok, fun w hge => ?_⟩
  rw [hs.levelOf?_eq, if_neg (Nat.not_lt.2 hge)]
  by_cases hlt : w < c.permanent + k
  · have hmade : w ∈ c.made k := Circuit.mem_made.2 ⟨hge, hlt⟩
    have huse := Circuit.credits_left_iff (k := k) hge (hneeded w (Circuit.mem_made.2 ⟨hge, by omega⟩))
    rw [← huse, and_iff_right hlt]
    simp [hmade]
  · rw [if_neg fun hh => hlt (Circuit.mem_made.1 hh.1).2]
    simp [hlt]

end Leveling

/-- **Leveling tracks the wires that are live.** After any accepted offers these
are the gate wires with credits that last or that outnumber their reads; of the
gates that read produced wires, those that would overdraw an input are refused
for it and no others; and the most wires ever tracked is the most that were
tracked after a gate. So with the credits of a circuit, whose wires can all be
numbered, the wires tracked after its first gates are those that are outputs,
that nothing reads, or that one of the other gates reads. -/
theorem leveling_tracks_live_wires :
    (∀ inputs offers placements s, offers.mapM Leveling.offer (.ofInputs inputs) = .ok placements s →
      let c := Circuit.ofOffers inputs offers
      Leveling.TracksUnspent c (offeredCredits c offers) placements s ∧
        s.maxTracked = (Finset.range offers.length).sup fun i =>
          ((Leveling.ofInputs inputs).offerAll (offers.take (i + 1))).trackedCount) ∧
    ∀ c table, CreditTable.ofCircuit c = .ok table → c.permanent + c.gates.length < wordSize →
      ∀ k ≤ c.gates.length, ∃ s,
        (c.offers (table.getD · 0) k).mapM Leveling.offer (.ofInputs c.inputs) = .ok (c.placements k) s ∧
        ∀ w, c.permanent ≤ w → ((s.levelOf? w).isSome = true ↔ w < c.permanent + k ∧
          (w ∈ c.outputs ∨ c.readsOf w = 0 ∨ w ∈ (c.gates.drop k).flatMap Gate.reads)) := by
  refine ⟨fun inputs offers placements s h => ⟨Leveling.tracksUnspent_of_offers h, ?_⟩, ?_⟩
  · rw [Leveling.maxTracked_of_offers h]
    exact Nat.zero_max _
  · intro c table htable hroom k hk
    exact Leveling.tracked_of_ofCircuit htable hroom hk

/-- Of two credits of wire 4 one is left, so a gate that reads it twice is
refused. Before the last gate of the full adder, its inputs and an output are
tracked; wire 5 has had all of its reads. -/
theorem full_adder_tracks_live_wires :
    (∃ placements s,
      [⟨⟨.and, 2, 3⟩, 2⟩, ⟨⟨.xor, 4, 2⟩, 1⟩].mapM Leveling.offer (.ofInputs 2) = .ok placements s ∧
        s.maxTracked = 2 ∧
        ∃ fault s', Leveling.offer ⟨⟨.xor, 4, 4⟩, 0⟩ s = .error fault s' ∧ fault.kind = .creditUnderflow) ∧
    ∃ table, CreditTable.ofCircuit fullAdder = .ok table ∧ ∃ s,
      (fullAdder.offers (table.getD · 0) 4).mapM Leveling.offer (.ofInputs 3) = .ok (fullAdder.placements 4) s ∧
        ¬ (s.levelOf? 5).isSome = true ∧ ∀ w ∈ [6, 7, 8], (s.levelOf? w).isSome = true := by
  constructor
  · obtain ⟨hlive, hmax⟩ := leveling_tracks_live_wires.1 2 [⟨⟨.and, 2, 3⟩, 2⟩, ⟨⟨.xor, 4, 2⟩, 1⟩] _ _ rfl
    refine ⟨_, _, rfl, hmax.trans (by decide +kernel), (hlive.refuses ⟨⟨.xor, 4, 4⟩, 0⟩ (by decide) ?_).2 ?_⟩
    · rw [hlive.next_wire]
      decide +kernel
    · decide +kernel
  · obtain ⟨s, hok, htracked⟩ := leveling_tracks_live_wires.2 fullAdder _ rfl (by decide) 4 (by decide)
    refine ⟨_, rfl, s, hok, fun hsome => ?_, fun w hw => ?_⟩
    · exact absurd ((htracked 5 (by decide +kernel)).1 hsome) (by decide +kernel)
    · fin_cases hw
      all_goals exact (htracked _ (by decide +kernel)).2 (by decide +kernel)

end GatePlan
