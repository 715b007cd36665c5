/-
A refused gate leaves no trace in the levels. Adding a gate is not atomic: its
inputs are read one after the other, and when the second one is refused, the
credit that the first one has spent is gone (`refused_of_error`). That is all that
is ever lost, but a later gate that was to read the same wire may now be refused
as well.

So the gates that are accepted are not the same with and without the refused
ones in between; the point is that those accepted after refusals are accepted
without them, and with the same answers, because more credits never change an
answer. `Ahead s t` says that `t` is `s` with at least its credits. What `s` accepts
`t` accepts (`Ahead.offer`), and a refusal only puts `s` further behind
(`Ahead.of_refused`).
-/
import GatePlan.Proofs.DepthExact

namespace GatePlan

namespace Leveling

variable {s s' t : Leveling} {o : Offer}

/-! ## One refused gate -/

/-- A gate was refused for its second input, when its first had spent a credit, and
with the last one its entry. -/
structure FirstSpent (o : Offer) (fault : Fault) (s s' : Leveling) : Prop where
  gate_wire : s.permanent ≤ o.gate.input1 ∧ o.gate.input1 < s.nextWire
  spent : ∃ t, s.tracked[o.gate.input1]? = some t ∧ t.credits ≠ 0 ∧
    s'.tracked[o.gate.input1]? = if t.credits = 1 then none else some { t with credits := t.credits - 1 }
  first_read : ∃ p, readInput o.gate.input1 s.nextWire s = .ok p s'
  second_refused : readInput o.gate.input2 s.nextWire s' = .error fault s'

/-- What a refused gate leaves of a leveling. -/
structure Refused (o : Offer) (fault : Fault) (s s' : Leveling) : Prop where
  next_wire : s'.nextWire = s.nextWire
  level_count : s'.levelCount = s.levelCount
  levels : s'.levels = s.levels
  xor_counts : s'.xorCounts = s.xorCounts
  max_tracked : s'.maxTracked = s.maxTracked
  others : s'.permanent = s.permanent ∧ s'.closed = s.closed ∧ s'.taken = s.taken
  other_wires : ∀ w ≠ o.gate.input1, s'.tracked[w]? = s.tracked[w]?
  places : ∀ (w : Nat) (t' : TrackedWire), s'.tracked[w]? = some t' →
    ∃ t : TrackedWire, s.tracked[w]? = some t ∧ t.place = t'.place
  credits : s' = s ∨ FirstSpent o fault s s'

/-- Reading an input changes nothing, or spends one of the credits of a gate wire. -/
theorem readInput_spends {input output : Nat} {p : Place} (h : readInput input output s = .ok p s') :
    s' = s ∨ (s.permanent ≤ input ∧ ∃ t, s.tracked[input]? = some t ∧ t.credits ≠ 0 ∧
      ∀ w, s'.tracked[w]? = if w = input
        then if t.credits = 1 then none else some { t with credits := t.credits - 1 }
        else s.tracked[w]?) := by
  obtain ⟨-, ⟨-, -, hs'⟩ | ⟨hge, t, ht, -, rfl⟩⟩ := readInput_eq_ok_iff.1 h
  · exact .inl hs'
  by_cases hnever : neverFreed t.credits = true
  · exact .inl (if_pos hnever)
  refine .inr ⟨hge, t, ht, fun hzero => hnever (by rw [hzero]; rfl), fun w => ?_⟩
  rw [tracked_spend ht, spendCredit, if_neg hnever]
  split
  · split <;> rfl
  · rfl

/-- **A refused gate changes nothing but a credit of its first input.** -/
theorem refused_of_error {fault : Fault} (h : offer o s = .error fault s') : Refused o fault s s' := by
  have hsame : Refused o fault s s :=
    ⟨rfl, rfl, rfl, rfl, rfl, ⟨rfl, rfl, rfl⟩, fun _ _ => rfl, fun w t ht => ⟨t, ht, rfl⟩, .inl rfl⟩
  rcases addGate_reads o.gate.type o.gate.input1 o.gate.input2 o.credits s with
    ⟨-, -, p1, s1, p2, s2, -, -, hadd⟩ | ⟨p1, s1, _, h1, h2, hadd⟩ | ⟨_, hadd⟩
  · cases h.symm.trans hadd
  swap
  · cases h.symm.trans hadd
    exact hsame
  cases h.symm.trans hadd
  obtain ⟨hlt, hs'⟩ := readInput_keeps h1
  rcases readInput_spends h1 with rfl | ⟨hge, t, ht, hnonzero, htracked⟩
  · exact hsame
  have hfirst := (htracked o.gate.input1).trans (if_pos rfl)
  have hothers : ∀ w ≠ o.gate.input1, s'.tracked[w]? = s.tracked[w]? := fun w hw => (htracked w).trans (if_neg hw)
  refine ⟨by rw [hs'], by rw [hs']; rfl, by rw [hs'], by rw [hs'], by rw [hs'], by rw [hs']; exact ⟨rfl, rfl, rfl⟩, hothers,
    fun w t' ht' => ?_, .inr ⟨⟨hge, hlt⟩, ⟨t, ht, hnonzero, hfirst⟩, ⟨p1, h1⟩, h2⟩⟩
  by_cases hw : w = o.gate.input1
  · subst hw
    rw [hfirst] at ht'
    split at ht'
    · cases ht'
    · cases ht'
      exact ⟨t, ht, rfl⟩
  · exact ⟨t', (hothers w hw).symm.trans ht', rfl⟩

/-! ## Credits that cover others -/

/-- An entry with the same place and at least the credits, which last only if the
others do. -/
structure Covers (u t : TrackedWire) : Prop where
  place : u.place = t.place
  lasting : u.credits = 0 ↔ t.credits = 0
  le : t.credits ≤ u.credits
  bounded : u.credits ≤ maxCredits

theorem spendCredit_of_le {credits : Nat} (h : credits ≤ maxCredits) :
    spendCredit credits = if credits = 0 then some 0 else if credits = 1 then none else some (credits - 1) := by
  have hperm : credits ≠ permanentCredits := Nat.ne_of_lt (Nat.lt_of_le_of_lt h (by decide))
  have hnever : neverFreed credits = true ↔ credits = 0 := by simp [neverFreed, outputCredits, hperm]
  unfold spendCredit
  by_cases hzero : credits = 0
  · rw [if_pos (hnever.2 hzero), if_pos hzero, hzero]
  · rw [if_neg (mt hnever.1 hzero), if_neg hzero]

theorem Covers.spend {u t : TrackedWire} (h : Covers u t) {left : Nat} (hleft : spendCredit t.credits = some left) :
    (∃ more, spendCredit u.credits = some more ∧ Covers ⟨u.place, more⟩ ⟨t.place, left⟩) ∧
      Covers u ⟨t.place, left⟩ := by
  have hle := h.le
  have hmax := h.bounded
  have hlasting := h.lasting
  rw [spendCredit_of_le (hle.trans hmax)] at hleft
  rw [spendCredit_of_le hmax]
  split at hleft
  · rename_i hzero
    cases hleft
    rw [if_pos (hlasting.2 hzero)]
    exact ⟨⟨0, rfl, h.place, iff_of_true rfl rfl, le_rfl, Nat.zero_le _⟩, h.place, by simpa [hzero] using hlasting,
      Nat.zero_le _, hmax⟩
  split at hleft
  · cases hleft
  cases hleft
  rw [if_neg (by omega), if_neg (by omega)]
  exact ⟨⟨_, rfl, h.place, by dsimp only; omega, by dsimp only; omega, by dsimp only; omega⟩, h.place,
    by dsimp only; omega, by dsimp only; omega, hmax⟩

/-! ## A leveling with more credits -/

/-- A leveling that differs from another one by more credits and by wires that are
tracked longer. -/
structure Ahead (s t : Leveling) : Prop where
  same : t = { s with tracked := t.tracked, maxTracked := t.maxTracked }
  covers : ∀ (w : Nat) (u : TrackedWire), s.tracked[w]? = some u → ∃ v, t.tracked[w]? = some v ∧ Covers v u

/-- No tracked wire has too many credits. -/
def Bounded (s : Leveling) : Prop := ∀ (w : Nat) (u : TrackedWire), s.tracked[w]? = some u → u.credits ≤ maxCredits

theorem Bounded.ahead (h : Bounded s) : Ahead s s where
  same := rfl
  covers w u hu := ⟨u, hu, rfl, Iff.rfl, le_rfl, h w u hu⟩

theorem Ahead.bounded (h : Ahead s t) : Bounded s := by
  intro w u hu
  obtain ⟨v, -, hcovers⟩ := h.covers w u hu
  exact hcovers.le.trans hcovers.bounded

theorem Ahead.of_tables {t' : Leveling} (h : Ahead s t) (hs : s' = { s with tracked := s'.tracked })
    (ht : t' = { t with tracked := t'.tracked })
    (hcovers : ∀ (w : Nat) (u : TrackedWire), s'.tracked[w]? = some u → ∃ v, t'.tracked[w]? = some v ∧ Covers v u) :
    Ahead s' t' := by
  refine ⟨?_, hcovers⟩
  calc t' = { t with tracked := t'.tracked } := ht
    _ = { s with tracked := t'.tracked, maxTracked := t.maxTracked } := by rw [h.same]
    _ = { s' with tracked := t'.tracked, maxTracked := t'.maxTracked } := by rw [hs, ht]

/-- What can be read with fewer credits can be read with more, and is found in the
same place. -/
theorem Ahead.readInput (h : Ahead s t) {input output : Nat} {p : Place}
    (hok : Leveling.readInput input output s = .ok p s') :
    ∃ t', Leveling.readInput input output t = .ok p t' ∧ Ahead s' t' := by
  have hnext : t.nextWire = s.nextWire := by rw [h.same]
  have hperm : t.permanent = s.permanent := by rw [h.same]
  obtain ⟨hlt, ⟨hp, rfl, rfl⟩ | ⟨hge, u, hu, rfl, rfl⟩⟩ := readInput_eq_ok_iff.1 hok
  · exact ⟨t, readInput_eq_ok_iff.2 ⟨by omega, .inl ⟨by omega, rfl, rfl⟩⟩, h⟩
  obtain ⟨v, hv, hcovers⟩ := h.covers input u hu
  refine ⟨t.spend input v, readInput_eq_ok_iff.2 ⟨by omega, .inr ⟨by omega, v, hv, hcovers.place.symm, rfl⟩⟩,
    h.of_tables (spend_eq ..) (spend_eq ..) fun w x hx => ?_⟩
  rw [tracked_spend hu] at hx
  rw [tracked_spend hv]
  by_cases hw : w = input
  · rw [if_pos hw] at hx ⊢
    obtain ⟨left, hleft, rfl⟩ := Option.map_eq_some_iff.1 hx
    obtain ⟨⟨more, hmore, hmorecovers⟩, -⟩ := hcovers.spend hleft
    exact ⟨_, by rw [hmore]; rfl, hmorecovers⟩
  · rw [if_neg hw] at hx ⊢
    exact h.covers w x hx

theorem Ahead.of_read (h : Ahead s t) {input output : Nat} {p : Place}
    (hok : Leveling.readInput input output s = .ok p s') : Ahead s' t := by
  refine h.of_tables (readInput_keeps hok).2 rfl fun w x hx => ?_
  obtain ⟨-, ⟨-, -, rfl⟩ | ⟨-, u, hu, -, rfl⟩⟩ := readInput_eq_ok_iff.1 hok
  · exact h.covers w x hx
  rw [tracked_spend hu] at hx
  by_cases hw : w = input
  · subst hw
    rw [if_pos rfl] at hx
    obtain ⟨left, hleft, rfl⟩ := Option.map_eq_some_iff.1 hx
    obtain ⟨v, hv, hcovers⟩ := h.covers w u hu
    exact ⟨v, hv, (hcovers.spend hleft).2⟩
  · rw [if_neg hw] at hx
    exact h.covers w x hx

theorem Ahead.place (h : Ahead s t) {type : GateType} {gate : PlacedGate} (hcredits : gate.credits ≤ maxCredits)
    {pl : Placement} (hok : Leveling.place type gate s = .ok pl s') :
    ∃ t', Leveling.place type gate t = .ok pl t' ∧ Ahead s' t' := by
  have hlevels : t.levels = s.levels := by rw [h.same]
  have hcounts : t.xorCounts = s.xorCounts := by rw [h.same]
  unfold Leveling.place at hok ⊢
  rw [hlevels, hcounts]
  obtain ⟨rfl, rfl⟩ := EStateM.Result.ok.inj hok
  refine ⟨_, rfl, by rw [h.same], fun w u hu => ?_⟩
  dsimp only at hu ⊢
  rw [getElem?_insert_nat] at hu ⊢
  by_cases hw : w = gate.output
  · rw [if_pos hw] at hu ⊢
    cases hu
    exact ⟨_, rfl, rfl, Iff.rfl, le_rfl, hcredits⟩
  · rw [if_neg hw] at hu ⊢
    exact h.covers w u hu

/-- **More credits never change an answer.** -/
theorem Ahead.offer (h : Ahead s t) {pl : Placement} (hok : Leveling.offer o s = .ok pl s') :
    ∃ t', Leveling.offer o t = .ok pl t' ∧ Ahead s' t' := by
  rcases addGate_reads o.gate.type o.gate.input1 o.gate.input2 o.credits s with
    ⟨hopen, hcredits, p1, s1, p2, s2, h1, h2, hadd⟩ | ⟨_, _, _, -, -, herror⟩ | ⟨_, herror⟩
  · have hopen' : t.closed = false := by rw [h.same, hopen]
    have hnext : t.nextWire = s.nextWire := by rw [h.same]
    obtain ⟨t1, h1', ht1⟩ := h.readInput h1
    obtain ⟨t2, h2', ht2⟩ := ht1.readInput h2
    obtain ⟨t', hplace, ht'⟩ := ht2.place hcredits (hadd.symm.trans hok)
    refine ⟨t', ?_, ht'⟩
    rw [Leveling.offer, addGate_of_open hopen', if_neg (by omega), hnext, Action.bind_of_ok h1', Action.bind_of_ok h2']
    exact hplace
  · cases hok.symm.trans herror
  · cases hok.symm.trans herror

theorem Ahead.of_refused (h : Ahead s t) {fault : Fault} (herror : Leveling.offer o s = .error fault s') :
    Ahead s' t := by
  rcases addGate_reads o.gate.type o.gate.input1 o.gate.input2 o.credits s with
    ⟨-, -, p1, s1, p2, s2, -, -, hadd⟩ | ⟨p1, s1, _, h1, -, hadd⟩ | ⟨_, hadd⟩
  · cases herror.symm.trans hadd
  · cases herror.symm.trans hadd
    exact h.of_read h1
  · cases herror.symm.trans hadd
    exact h

/-! ## Without the refused gates -/

/-- The answers to the offers among these that are accepted. -/
def answers (s : Leveling) : List Offer → List Placement
  | [] => []
  | o :: offers =>
    match offer o s with
    | .ok pl s' => pl :: answers s' offers
    | .error _ s' => answers s' offers

/-- The accepted offers, without the others, are accepted with the same answers, and
end in a state ahead. -/
theorem Ahead.accepted (h : Ahead s t) (offers : List Offer) :
    ∃ t', (Leveling.accepted s offers).mapM Leveling.offer t = .ok (answers s offers) t' ∧ Ahead (s.offerAll offers) t' := by
  induction offers generalizing s t with
  | nil => exact ⟨t, rfl, h⟩
  | cons o offers ih =>
    rw [answers]
    cases hoffer : Leveling.offer o s with
    | ok pl s1 =>
      obtain ⟨haccepted, hall⟩ := accepted_of_ok hoffer offers
      obtain ⟨t1, hfirst, ht1⟩ := h.offer hoffer
      obtain ⟨t', hrest, ht'⟩ := ih ht1
      rw [haccepted, hall]
      exact ⟨t', Action.mapM_cons_eq_ok_iff.2 ⟨pl, t1, _, hfirst, hrest, rfl⟩, ht'⟩
    | error fault s1 =>
      obtain ⟨haccepted, hall⟩ := accepted_of_error hoffer offers
      rw [haccepted, hall]
      exact ih (h.of_refused hoffer)

theorem Ahead.takeLevels (h : Ahead s t) (n : Nat) :
    ∃ levels u v, Action.times takeLevel n s.close = .ok levels u ∧ Action.times takeLevel n t.close = .ok levels v := by
  obtain ⟨u, hu⟩ := times_takeLevel (s := s.close) rfl n
  obtain ⟨v, hv⟩ := times_takeLevel (s := t.close) rfl n
  have hsame : t.close.allLevels = s.close.allLevels ∧ t.close.taken = s.close.taken := by
    rw [h.same]
    exact ⟨rfl, rfl⟩
  rw [hsame.1, hsame.2] at hv
  exact ⟨_, u, v, hu, hv⟩

/-! ## Any calls -/

/-- A call that may change a leveling. -/
inductive Call where
  | offer (o : Offer)
  | close
  | takeLevel

/-- The state after a call, whether it succeeded or failed. -/
def after (s : Leveling) : Call → Leveling
  | .offer o => ((Leveling.offer o).outcome s).2
  | .close => s.close
  | .takeLevel => (Leveling.takeLevel.outcome s).2

def afterAll (s : Leveling) (calls : List Call) : Leveling := calls.foldl after s

theorem tracked_after_takeLevel (s : Leveling) : (s.after .takeLevel).tracked = s.tracked := by
  show (Leveling.takeLevel.outcome s).2.tracked = _
  unfold Action.outcome takeLevel
  by_cases hopen : (!s.closed) = true
  · rw [if_pos hopen]
  · rw [if_neg hopen]
    cases s.levels[s.taken]? <;> rfl

theorem Bounded.after (h : Bounded s) (call : Call) : Bounded (s.after call) := by
  cases call with
  | offer o =>
    show Bounded ((Leveling.offer o).outcome s).2
    cases hoffer : Leveling.offer o s with
    | ok pl s' =>
      obtain ⟨t', -, ht'⟩ := h.ahead.offer hoffer
      rw [Action.outcome_eq_ok_iff.2 hoffer]
      exact ht'.bounded
    | error fault s' =>
      rw [Action.outcome_of_error hoffer]
      exact (h.ahead.of_refused hoffer).bounded
  | close => exact h
  | takeLevel =>
    unfold Bounded
    rw [tracked_after_takeLevel]
    exact h

theorem bounded_afterAll (inputs : Nat) (calls : List Call) : Bounded ((ofInputs inputs).afterAll calls) := by
  have hkeeps : ∀ s, Bounded s → Bounded (s.afterAll calls) := by
    induction calls with
    | nil => exact fun s hs => hs
    | cons call calls ih => exact fun s hs => ih _ (hs.after call)
  exact hkeeps _ fun w u hu => by simp [ofInputs] at hu

end Leveling

open Leveling in
/-- **Refused gates leave no trace in the levels**, whatever calls came before. A gate
that is refused changes nothing but, when its first input was read and the second
one refused, a credit of the first; and without all refused gates, the others are
accepted with the same answers and the same levels are handed out. -/
theorem refused_gates_leave_no_trace (inputs : Nat) (calls : List Call) :
    let s := (Leveling.ofInputs inputs).afterAll calls
    (∀ o fault s', offer o s = .error fault s' → Leveling.Refused o fault s s') ∧
    ∀ offers, ∃ t, (accepted s offers).mapM offer s = .ok (answers s offers) t ∧
      t.nextWire = (s.offerAll offers).nextWire ∧ t.levels = (s.offerAll offers).levels ∧
      t.xorCounts = (s.offerAll offers).xorCounts ∧
      ∀ n, ∃ levels u v, Action.times takeLevel n (s.offerAll offers).close = .ok levels u ∧
        Action.times takeLevel n t.close = .ok levels v := by
  intro s
  refine ⟨fun o fault s' => refused_of_error, fun offers => ?_⟩
  obtain ⟨t, hok, hahead⟩ := (bounded_afterAll inputs calls).ahead.accepted offers
  exact ⟨t, hok, by rw [hahead.same], by rw [hahead.same], by rw [hahead.same], hahead.takeLevels⟩

open Leveling in
/-- A gate that reads wire 4 twice spends its only credit and is refused. The next
gate is answered as if it had not been offered. -/
theorem twice_read_wire_leaves_no_trace :
    let s := (Leveling.ofInputs 2).afterAll [.offer ⟨⟨.and, 2, 3⟩, 1⟩]
    let offers : List Offer := [⟨⟨.xor, 4, 4⟩, 0⟩, ⟨⟨.xor, 2, 3⟩, 0⟩]
    (∃ s', offer ⟨⟨.xor, 4, 4⟩, 0⟩ s = .error (.creditsSpent 5 4) s' ∧ s'.levels = s.levels ∧
      FirstSpent ⟨⟨.xor, 4, 4⟩, 0⟩ (.creditsSpent 5 4) s s') ∧
    accepted s offers = [⟨⟨.xor, 2, 3⟩, 0⟩] ∧
    ∃ t, (accepted s offers).mapM offer s = .ok [⟨5, 1, .xor, 0⟩] t ∧ t.levels = (s.offerAll offers).levels := by
  intro s offers
  obtain ⟨s', hoffer, hcount⟩ :
      ∃ s', offer ⟨⟨.xor, 4, 4⟩, 0⟩ s = .error (.creditsSpent 5 4) s' ∧ s'.trackedCount = 0 := ⟨_, rfl, by decide +kernel⟩
  obtain ⟨hrefused, htrace⟩ := refused_gates_leave_no_trace 2 [.offer ⟨⟨.and, 2, 3⟩, 1⟩]
  obtain ⟨t, hok, -, hlevels, -⟩ := htrace offers
  have hleft := hrefused _ _ _ hoffer
  refine ⟨⟨s', hoffer, hleft.levels, hleft.credits.resolve_left fun hsame => ?_⟩, rfl, t, hok, hlevels⟩
  -- wire 4 was tracked before
  rw [hsame] at hcount
  exact absurd hcount (by decide +kernel)

end GatePlan
