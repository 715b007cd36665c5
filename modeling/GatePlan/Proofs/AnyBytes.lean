/-
Decoding bytes that nobody wrote. A level takes a byte for its header and two or
three for every gate, so a decoder comes to an end whatever it is given, and the
number of gates it finds is bounded by the bytes, not by the counts that a
header announces. It fails for its bytes only, and so do the readers of plan
files.

The level decoder's table stays that of the levels it has read
(`LevelDecoder.Standing`), so the locations that it lets pass lie below their
level.
-/
import GatePlan.PlanFile
import GatePlan.Proofs.AddressStream
import GatePlan.Proofs.LevelStream
import GatePlan.Proofs.TakesBytes

namespace GatePlan

variable {σ α : Type}

/-- A source comes to its end within so many calls, and fails for its bytes
only. -/
structure Drawn.Ends (next : Action σ (Option α)) (start : σ) (calls : Nat) (d : Drawn σ α) : Prop where
  drawn : From next start d
  calls : d.items.length < calls
  fails : ∀ fault, d.ending = .error fault → fault.OfBytes

theorem Drawn.Ends.mono {next : Action σ (Option α)} {start : σ} {d : Drawn σ α} {calls calls' : Nat}
    (h : d.Ends next start calls) (hle : calls ≤ calls') : d.Ends next start calls' :=
  ⟨h.drawn, h.calls.trans_le hle, h.fails⟩

/-! ## The level stream -/

namespace LevelBases

theorem ofBytes_of_resolve {t : LevelBases} {loc : Location} {fault : Fault} (h : t.resolve loc = .error fault) :
    fault.OfBytes := .inr (malformed_of_resolve h)

/-- A location with an index below the size of its level, which lies below level
`id`. -/
def Below (sizes : List Nat) (id : Nat) (loc : Location) : Prop := loc.level < id ∧ loc.index < sizes.getD loc.level 0

variable {t : LevelBases} {sizes : List Nat} {id : Nat} {loc : Location}

theorem Below.append (h : Below sizes id loc) (more : List Nat) : Below (sizes ++ more) id loc := by
  refine ⟨h.1, ?_⟩
  rw [List.getD_append _ _ _ _ (lt_length_of_lt_getD h.2)]
  exact h.2

theorem Counts.below_of_resolve (h : t.Counts sizes) {wire : Nat} (hwire : t.resolve loc = .ok wire) :
    Below sizes t.levels loc := by
  obtain ⟨hindex, -⟩ := h.resolve_eq_ok_iff.1 hwire
  exact ⟨h.levels ▸ lt_length_of_lt_getD hindex, hindex⟩

theorem Counts.resolve_lt_base (h : t.Counts sizes) (hid : id < sizes.length) (hbelow : Below sizes id loc) :
    ∃ wire base, t.resolve loc = .ok wire ∧ t.base id = .ok base ∧ wire < base := by
  obtain ⟨hlevel, hindex⟩ := hbelow
  exact ⟨_, _, h.resolve_eq_ok_iff.2 ⟨hindex, rfl⟩, h.base_eq hid, sum_take_add_lt hindex hlevel⟩

end LevelBases

namespace LevelDecoder

theorem takesAtLeast_readGate (bases : LevelBases) (current : Nat) : TakesAtLeast 2 (readGate bases current) :=
  (Reference.takesAtLeast_readLocation current).bind (n := 1) fun _ =>
    (Reference.takesAtLeast_readLocation current).bind (n := 0) fun _ =>
      (TakesBytes.check fun _ => LevelBases.ofBytes_of_resolve).bind (n := 0) fun _ =>
        (TakesBytes.check fun _ => LevelBases.ofBytes_of_resolve).bind fun _ => .pure _

theorem resolve_of_readGate {bases : LevelBases} {current : Nat} {r r' : Reader} {g : LocatedGate}
    (h : readGate bases current r = .ok g r') :
    (∃ wire, bases.resolve g.input1 = .ok wire) ∧ ∃ wire, bases.resolve g.input2 = .ok wire := by
  obtain ⟨loc1, r1, -, h⟩ := Action.bind_eq_ok_iff.1 h
  obtain ⟨loc2, r2, -, h⟩ := Action.bind_eq_ok_iff.1 h
  obtain ⟨wire1, r3, h1, h⟩ := Action.bind_eq_ok_iff.1 h
  obtain ⟨wire2, r4, h2, h⟩ := Action.bind_eq_ok_iff.1 h
  obtain ⟨rfl, -⟩ := Action.pure_eq_ok_iff.1 h
  exact ⟨⟨wire1, (Action.ofExcept_eq_ok_iff.1 h1).1⟩, ⟨wire2, (Action.ofExcept_eq_ok_iff.1 h2).1⟩⟩

/-- What reading a level changes. -/
structure Turned (s : LevelDecoder) (l : LocatedLevel) (s' : LevelDecoder) : Prop where
  id : l.id = s.bases.levels
  known : ∀ g ∈ l.gates, (∃ wire, s.bases.resolve g.input1 = .ok wire) ∧ ∃ wire, s.bases.resolve g.input2 = .ok wire
  left : s'.input.remaining + (1 + 2 * l.size) ≤ s.input.remaining
  bases : s'.bases = s.bases.push (wrap l.size)

/-- A record takes a byte for its header and two for every gate. -/
theorem turned_of_readRecord {s : LevelDecoder} {l : LocatedLevel} {size : Nat} {r : Reader}
    (h : readRecord s.bases s.input = .ok (l, size) r) : Turned s l ⟨r, s.bases.push size⟩ := by
  obtain ⟨header, r1, hheader, h⟩ := Action.bind_eq_ok_iff.1 h
  obtain ⟨_, r2, hcheck, h⟩ := Action.bind_eq_ok_iff.1 h
  obtain ⟨xors, r3, hxors, h⟩ := Action.bind_eq_ok_iff.1 h
  obtain ⟨ands, r4, hands, h⟩ := Action.bind_eq_ok_iff.1 h
  obtain ⟨hl, rfl⟩ := Action.pure_eq_ok_iff.1 h
  obtain ⟨-, rfl⟩ := Action.ofExcept_eq_ok_iff.1 hcheck
  obtain ⟨rfl, rfl⟩ := Prod.mk.inj hl
  have hgate := takesAtLeast_readGate s.bases s.bases.levels
  have hleft := LevelHeader.takesAtLeast_read.takes hheader
  have hleft1 := (hgate.times _).takes hxors
  have hleft2 := (hgate.times _).takes hands
  have hsize : header.gates = wrap (xors.length + ands.length) := by
    rw [Action.length_of_times_eq_ok hxors, Action.length_of_times_eq_ok hands]
    rfl
  rw [← Action.length_of_times_eq_ok hxors] at hleft1
  rw [← Action.length_of_times_eq_ok hands] at hleft2
  have hknown := fun {n : Nat} {r r' : Reader} {gs : List LocatedGate}
      (h : Action.times (readGate s.bases s.bases.levels) n r = .ok gs r') =>
    Action.times_keeps (fun (gs : List LocatedGate) _ => ∀ g ∈ gs, (∃ wire, s.bases.resolve g.input1 = .ok wire) ∧
      ∃ wire, s.bases.resolve g.input2 = .ok wire)
      (fun hgs hg => List.forall_mem_append.2 ⟨hgs, List.forall_mem_singleton.2 (resolve_of_readGate hg)⟩) [] h (by simp)
  refine ⟨rfl, ?_, ?_, ?_⟩
  · exact List.forall_mem_append.2 ⟨hknown hxors, hknown hands⟩
  · dsimp only [Level.size]
    omega
  · dsimp only [Level.size]
    rw [hsize]

/-- **All that reading the next level can do.** -/
theorem next_cases (s : LevelDecoder) :
    (s.input.rest = [] ∧ next s = .ok none s) ∨
    (∃ l s', next s = .ok (some l) s' ∧ Turned s l s') ∨
    ∃ fault r, next s = .error fault { s with input := r } ∧ r.remaining ≤ s.input.remaining ∧ fault.OfBytes := by
  have hrecord : TakesAtLeast 1 (readRecord s.bases) :=
    LevelHeader.takesAtLeast_read.bind (n := 0) fun header =>
      (TakesBytes.check fun _ => LevelHeader.ofBytes_of_check).bind (n := 0) fun _ =>
        (((takesAtLeast_readGate _ _).times _).bind (n := 0) fun _ =>
          (((takesAtLeast_readGate _ _).times _).bind fun _ => .pure _).mono (Nat.zero_le _)).mono (Nat.zero_le _)
  rw [next, Action.get_bind]
  by_cases hend : s.input.atEnd = true
  · rw [if_pos hend]
    exact .inl ⟨List.isEmpty_iff.1 hend, rfl⟩
  · rw [if_neg hend]
    cases hread : readRecord s.bases s.input with
    | error fault r => exact .inr (.inr ⟨fault, r, Action.bind_of_error (Action.within_of_error hread), hrecord.fails hread⟩)
    | ok record r =>
      obtain ⟨l, size⟩ := record
      have hwithin : Action.within LevelDecoder.input (fun r s => { s with input := r }) (readRecord s.bases) s =
          .ok (l, size) ⟨r, s.bases⟩ := Action.within_eq_ok_iff.2 ⟨r, hread, rfl⟩
      exact .inr (.inl ⟨l, _, Action.bind_of_ok hwithin, turned_of_readRecord hread⟩)

/-- Where a decoder stands that has read the levels in `done`. -/
structure Standing (bytes : Bytes) (inputs : Nat) (done : List LocatedLevel) (s : LevelDecoder) : Prop where
  counts : s.bases.Counts (permanentWires inputs :: done.map Level.size)
  left : s.input.remaining + (done.length + 2 * (done.map Level.size).sum) ≤ bytes.length
  known : ∀ l ∈ done, l.id ≤ done.length ∧ ∀ g ∈ l.gates,
    LevelBases.Below (permanentWires inputs :: done.map Level.size) l.id g.input1 ∧
      LevelBases.Below (permanentWires inputs :: done.map Level.size) l.id g.input2

theorem standing_ofBytes (bytes : Bytes) (inputs : Nat) : Standing bytes inputs [] (ofBytes bytes inputs) where
  counts := LevelBases.counts_ofInputs inputs
  left := le_rfl
  known l hl := by cases hl

theorem Standing.turned {bytes : Bytes} {inputs : Nat} {done : List LocatedLevel} {s s' : LevelDecoder}
    {l : LocatedLevel} (hword : constantWires + inputs + bytes.length < wordSize)
    (h : Standing bytes inputs done s) (ht : Turned s l s') : Standing bytes inputs (done ++ [l]) s' := by
  have hbefore := h.left
  have hleft := ht.left
  have hlevels : s.bases.levels = done.length + 1 := by simp [h.counts.levels]
  have hsizes : permanentWires inputs :: (done ++ [l]).map Level.size =
      (permanentWires inputs :: done.map Level.size) ++ [l.size] := by simp
  have hpermanent : permanentWires inputs = constantWires + inputs := wrap_of_lt (by omega)
  have hlater : ∀ {id loc}, LevelBases.Below (permanentWires inputs :: done.map Level.size) id loc →
      LevelBases.Below (permanentWires inputs :: (done ++ [l]).map Level.size) id loc := by
    intro id loc hloc
    rw [hsizes]
    exact hloc.append [l.size]
  refine ⟨?counts, ?left, fun l' hl' => ?known⟩
  case counts =>
    rw [hsizes, ht.bases, wrap_of_lt (by omega)]
    refine h.counts.push ?_
    rw [List.sum_cons, hpermanent]
    omega
  case left =>
    rw [List.map_append, List.sum_append, List.length_append, List.map_singleton, List.sum_singleton,
      List.length_singleton]
    omega
  case known =>
    rw [List.length_append, List.length_singleton]
    rcases List.mem_append.1 hl' with hold | hnew
    · obtain ⟨hid, hgates⟩ := h.known l' hold
      exact ⟨by omega, fun g hg => ⟨hlater (hgates g hg).1, hlater (hgates g hg).2⟩⟩
    · obtain rfl := List.mem_singleton.1 hnew
      have hid := ht.id
      refine ⟨by omega, fun g hg => ?_⟩
      obtain ⟨⟨wire1, h1⟩, ⟨wire2, h2⟩⟩ := ht.known g hg
      rw [ht.id]
      exact ⟨hlater (h.counts.below_of_resolve h1), hlater (h.counts.below_of_resolve h2)⟩

/-- Whatever the bytes, a decoder stands where the levels that it has read take
it. -/
theorem standing_draw {bytes : Bytes} {inputs : Nat} (hword : constantWires + inputs + bytes.length < wordSize)
    (limit : Nat) : Standing bytes inputs (Drawn.draw next limit (ofBytes bytes inputs)).items
      (Drawn.draw next limit (ofBytes bytes inputs)).state := by
  refine Drawn.draw_keeps (Standing bytes inputs) (fun {done s} hs => ?_) (standing_ofBytes bytes inputs) limit
  rcases next_cases s with ⟨-, hend⟩ | ⟨l, s', hok, hturned⟩ | ⟨fault, r, herror, hle, -⟩
  · rw [hend]
    exact hs
  · rw [hok]
    exact hs.turned hword hturned
  · rw [herror]
    exact ⟨hs.counts, (Nat.add_le_add_right hle _).trans hs.left, hs.known⟩

/-- `k` gates, one after the other, can be read of the level before which the
decoder stands, whatever number its header announces. -/
def ReadsGates (s : LevelDecoder) (k : Nat) : Prop :=
  ∃ header r gates r', LevelHeader.read s.input = .ok header r ∧
    Action.times (readGate s.bases s.bases.levels) k r = .ok gates r'

theorem ReadsGates.le {s : LevelDecoder} {k : Nat} (h : s.ReadsGates k) : 2 * k ≤ s.input.remaining := by
  obtain ⟨header, r, gates, r', hheader, hgates⟩ := h
  have h1 := LevelHeader.takesAtLeast_read.takes hheader
  have h2 := ((takesAtLeast_readGate _ _).times k).takes hgates
  omega

/-- **Decoding comes to an end, whatever the bytes.** -/
theorem decode_ends (bytes : Bytes) (inputs : Nat) :
    (decode bytes inputs).Ends next (ofBytes bytes inputs) (bytes.length + 1) := by
  have hless : ∀ {s l s'}, next s = .ok (some l) s' → s'.input.remaining < s.input.remaining := by
    intro s l s' h
    rcases next_cases s with ⟨-, hend⟩ | ⟨l', t, hok, hturned⟩ | ⟨fault, r, herror, -, -⟩
    · cases h.symm.trans hend
    · cases h.symm.trans hok
      have := hturned.left
      omega
    · cases h.symm.trans herror
  obtain ⟨d, hd, hlength⟩ := Drawn.exists_from (fun s => s.input.remaining) hless (ofBytes bytes inputs)
  have hdecode : decode bytes inputs = d := Drawn.draw_of_from hd (Nat.lt_succ_of_le hlength)
  refine ⟨hdecode ▸ hd, hdecode ▸ Nat.lt_succ_of_le hlength, fun fault hfault => ?_⟩
  obtain ⟨s, s', herror⟩ := Drawn.exists_error_of_drawAfter hfault
  rcases next_cases s with ⟨-, hend⟩ | ⟨l, t, hok, -⟩ | ⟨fault', r, herror', -, hbytes⟩
  · cases herror.symm.trans hend
  · cases herror.symm.trans hok
  · cases herror.symm.trans herror'
    exact hbytes

end LevelDecoder

/-! ## The address stream -/

namespace AddressDecoder

/-- The bytes that a decoder has left. -/
def left (s : AddressDecoder) : Nat := s.input.remaining

theorem takesBytes_onInput {α : Type} {least : Nat} {step : Action Reader α} (h : TakesAtLeast least step) :
    TakesBytes left least (onInput step) :=
  h.within (fun _ => rfl) fun _ _ => rfl

theorem malformed_of_checkGate {g : AllocatedGate} {written : Nat} {fault : Fault}
    (h : checkGate g written = .error fault) : fault.kind = .malformed := by
  unfold checkGate at h
  split at h
  · cases h
    rfl
  · split at h
    · cases h
      rfl
    · cases h

theorem takesAtLeast_readGate (previous : Nat) : TakesAtLeast 3 (readGate previous) :=
  (Reference.takesAtLeast_readWire previous).bind (n := 2) fun _ =>
    (Reference.takesAtLeast_readWire previous).bind (n := 1) fun _ =>
      (Reference.takesAtLeast_readWire previous).bind fun _ => .pure _

theorem takesBytes_nextGate : TakesBytes left 3 nextGate :=
  TakesBytes.get.bind (n := 3) fun s => (takesBytes_onInput (takesAtLeast_readGate s.previous)).bind (n := 0) fun g =>
    (TakesBytes.check fun _ h => .inr (malformed_of_checkGate h)).bind (n := 0) fun _ =>
      (TakesBytes.modify fun _ => by rfl).bind fun _ => .pure g

theorem nextGate_eq_ok {s s' : AddressDecoder} {g : AllocatedGate} (h : nextGate s = .ok g s') :
    checkGate g s.written = .ok () ∧ s'.written = max s.written (wrap (g.output + 1)) ∧ s'.nextId = s.nextId := by
  rw [nextGate, Action.get_bind] at h
  obtain ⟨g', s1, hread, h⟩ := Action.bind_eq_ok_iff.1 h
  obtain ⟨r, -, rfl⟩ := Action.within_eq_ok_iff.1 hread
  obtain ⟨_, s2, hcheck, h⟩ := Action.bind_eq_ok_iff.1 h
  obtain ⟨hpasses, rfl⟩ := Action.ofExcept_eq_ok_iff.1 hcheck
  cases h
  exact ⟨hpasses, rfl, rfl⟩

/-- A gate that stays below the slots written so far. -/
structure Inside (g : AllocatedGate) (written : Nat) : Prop where
  reads : g.input1 < written ∧ g.input2 < written
  writes : g.output ≤ written
  next : wrap (g.output + 1) ≤ written

theorem inside_of_times {n : Nat} {s s' : AddressDecoder} {gs : List AllocatedGate}
    (h : Action.times nextGate n s = .ok gs s') :
    s.written ≤ s'.written ∧ s'.nextId = s.nextId ∧ ∀ g ∈ gs, Inside g s'.written := by
  refine Action.times_keeps (fun gs (t : AddressDecoder) => s.written ≤ t.written ∧ t.nextId = s.nextId ∧
    ∀ g ∈ gs, Inside g t.written) ?_ [] h ⟨le_rfl, rfl, by simp⟩
  intro gs t g t' ht hg
  obtain ⟨hwritten, hid, hgs⟩ := ht
  obtain ⟨hcheck, hwritten', hid'⟩ := nextGate_eq_ok hg
  obtain ⟨hreads, hwrites⟩ := checkGate_eq_ok_iff.1 hcheck
  have hgrown : t.written ≤ t'.written := hwritten' ▸ le_max_left _ _
  refine ⟨hwritten.trans hgrown, hid'.trans hid, List.forall_mem_append.2 ⟨fun g' hg' => ?_, ?_⟩⟩
  · obtain ⟨h1, h2, h3⟩ := hgs g' hg'
    exact ⟨by omega, by omega, by omega⟩
  · refine List.forall_mem_singleton.2 ⟨by omega, by omega, ?_⟩
    rw [hwritten']
    exact le_max_right _ _

theorem next_eq_ok {s s' : AddressDecoder} {l : AllocatedLevel} (h : next s = .ok (some l) s') :
    ∃ header r xors s1 ands s2, LevelHeader.read s.input = .ok header r ∧
      Action.times nextGate header.xors { s with input := r } = .ok xors s1 ∧
      Action.times nextGate header.ands s1 = .ok ands s2 ∧
      l = ⟨s.nextId, xors, ands⟩ ∧ s' = { s2 with nextId := s2.nextId + 1 } := by
  rw [next, Action.get_bind] at h
  split at h
  · cases h
  obtain ⟨header, s1, hheader, h1⟩ := Action.bind_eq_ok_iff.1 h
  obtain ⟨_, s2, hcheck, h2⟩ := Action.bind_eq_ok_iff.1 h1
  obtain ⟨xors, s3, hxors, h3⟩ := Action.bind_eq_ok_iff.1 h2
  obtain ⟨ands, s4, hands, h4⟩ := Action.bind_eq_ok_iff.1 h3
  obtain ⟨-, rfl⟩ := Action.ofExcept_eq_ok_iff.1 hcheck
  obtain ⟨r, hread, rfl⟩ := Action.within_eq_ok_iff.1 hheader
  cases h4
  exact ⟨header, r, xors, s3, ands, s4, hread, hxors, hands, rfl, rfl⟩

/-- What reading a level changes. -/
structure Turned (s : AddressDecoder) (l : AllocatedLevel) (s' : AddressDecoder) : Prop where
  id : l.id = s.nextId
  nextId : s'.nextId = s.nextId + 1
  left : s'.left + (1 + 3 * l.size) ≤ s.left
  written : s.written ≤ s'.written
  inside : ∀ g ∈ l.gates, Inside g s'.written

theorem turned_of_next {s s' : AddressDecoder} {l : AllocatedLevel} (h : next s = .ok (some l) s') : Turned s l s' := by
  obtain ⟨header, r, xors, s1, ands, s2, hread, hxors, hands, rfl, rfl⟩ := next_eq_ok h
  have hleft : left { s with input := r } + 1 ≤ s.left := LevelHeader.takesAtLeast_read.takes hread
  have hleft1 := (takesBytes_nextGate.times _).takes hxors
  have hleft2 := (takesBytes_nextGate.times _).takes hands
  obtain ⟨hwritten1, hid1, hinside1⟩ := inside_of_times hxors
  obtain ⟨hwritten2, hid2, hinside2⟩ := inside_of_times hands
  refine ⟨rfl, congrArg (· + 1) (hid2.trans hid1), ?_, hwritten1.trans hwritten2, ?_⟩
  · rw [← Action.length_of_times_eq_ok hxors] at hleft1
    rw [← Action.length_of_times_eq_ok hands] at hleft2
    change s2.left + (1 + 3 * (xors.length + ands.length)) ≤ s.left
    omega
  · refine List.forall_mem_append.2 ⟨fun g hg => ?_, hinside2⟩
    obtain ⟨hreads, hwrites, hnext⟩ := hinside1 g hg
    exact ⟨by dsimp only; omega, hwrites.trans hwritten2, hnext.trans hwritten2⟩

theorem takesBytes_next : TakesBytes left 0 next := by
  refine TakesBytes.get.bind (n := 0) fun s => .ite (.pure _) ?_
  refine ((takesBytes_onInput LevelHeader.takesAtLeast_read).bind (n := 0) fun header => ?_).mono (Nat.zero_le _)
  refine (TakesBytes.check fun _ => LevelHeader.ofBytes_of_check).bind (n := 0) fun _ => ?_
  refine ((takesBytes_nextGate.times _).bind (n := 0) fun xors => ?_).mono (Nat.zero_le _)
  refine ((takesBytes_nextGate.times _).bind (n := 0) fun ands => ?_).mono (Nat.zero_le _)
  exact (TakesBytes.modify fun _ => by rfl).bind fun _ => .pure _

/-- **All that reading the next level can do.** -/
theorem next_cases (s : AddressDecoder) :
    (s.input.rest = [] ∧ next s = .ok none s) ∨
    (∃ l s', next s = .ok (some l) s' ∧ Turned s l s') ∨
    ∃ fault s', next s = .error fault s' ∧ s'.left ≤ s.left ∧ fault.OfBytes := by
  cases hnext : next s with
  | error fault s' => exact .inr (.inr ⟨fault, s', rfl, takesBytes_next.fails hnext⟩)
  | ok item s' =>
    cases item with
    | some l => exact .inr (.inl ⟨l, s', rfl, turned_of_next hnext⟩)
    | none =>
      rw [next, Action.get_bind] at hnext
      split at hnext
      · rename_i hend
        cases hnext
        exact .inl ⟨List.isEmpty_iff.1 hend, rfl⟩
      · obtain ⟨header, s1, -, hnext⟩ := Action.bind_eq_ok_iff.1 hnext
        obtain ⟨_, s2, -, hnext⟩ := Action.bind_eq_ok_iff.1 hnext
        obtain ⟨xors, s3, -, hnext⟩ := Action.bind_eq_ok_iff.1 hnext
        obtain ⟨ands, s4, -, hnext⟩ := Action.bind_eq_ok_iff.1 hnext
        cases hnext

/-- Where a decoder stands that has read the levels in `done`. -/
structure Standing (bytes : Bytes) (done : List AllocatedLevel) (s : AddressDecoder) : Prop where
  left : s.left + (done.length + 3 * (done.map Level.size).sum) ≤ bytes.length

theorem standing_draw (bytes : Bytes) (inputs limit : Nat) :
    Standing bytes (Drawn.draw next limit (ofBytes bytes inputs)).items
      (Drawn.draw next limit (ofBytes bytes inputs)).state := by
  refine Drawn.draw_keeps (Standing bytes) (fun {done s} hs => ?_) ⟨le_rfl⟩ limit
  have hbefore := hs.left
  rcases next_cases s with ⟨-, hend⟩ | ⟨l, s', hok, hturned⟩ | ⟨fault, s', herror, hle, -⟩
  · rw [hend]
    exact hs
  · rw [hok]
    have hleft := hturned.left
    refine ⟨?_⟩
    rw [List.map_append, List.sum_append, List.length_append, List.map_singleton, List.sum_singleton,
      List.length_singleton]
    omega
  · rw [herror]
    exact ⟨(Nat.add_le_add_right hle _).trans hbefore⟩

/-- `k` gates, one after the other, can be read of the level before which the
decoder stands, whatever number its header announces. -/
def ReadsGates (s : AddressDecoder) (k : Nat) : Prop :=
  ∃ header t gates t', onInput LevelHeader.read s = .ok header t ∧ Action.times nextGate k t = .ok gates t'

theorem ReadsGates.le {s : AddressDecoder} {k : Nat} (h : s.ReadsGates k) : 3 * k ≤ s.left := by
  obtain ⟨header, t, gates, t', hheader, hgates⟩ := h
  have h1 := (takesBytes_onInput LevelHeader.takesAtLeast_read).takes hheader
  have h2 := (takesBytes_nextGate.times k).takes hgates
  omega

/-- **Decoding comes to an end, whatever the bytes.** -/
theorem decode_ends (bytes : Bytes) (inputs : Nat) :
    (decode bytes inputs).Ends next (ofBytes bytes inputs) (bytes.length + 1) := by
  have hless : ∀ {s l s'}, next s = .ok (some l) s' → s'.left < s.left := by
    intro s l s' h
    have := (turned_of_next h).left
    omega
  obtain ⟨d, hd, hlength⟩ := Drawn.exists_from left hless (ofBytes bytes inputs)
  have hdecode : decode bytes inputs = d := Drawn.draw_of_from hd (Nat.lt_succ_of_le hlength)
  refine ⟨hdecode ▸ hd, hdecode ▸ Nat.lt_succ_of_le hlength, fun fault hfault => ?_⟩
  obtain ⟨s, s', herror⟩ := Drawn.exists_error_of_drawAfter hfault
  exact (takesBytes_next.fails herror).2

end AddressDecoder

/-! ## Plan files -/

namespace PlanFile

open Varint

theorem takesAtLeast_readOutput (slots : Nat) : TakesAtLeast 1 (readOutput slots) := by
  refine takesAtLeast_readPlain.bind (n := 0) fun _ => ?_
  exact .unlessRefused (.inr rfl) (.pure _)

theorem takesAtLeast_readAddressHeader : TakesAtLeast 1 readAddressHeader := by
  refine takesAtLeast_readPlain.bind (n := 0) fun inputs => ?_
  refine (takesAtLeast_readPlain.bind (n := 0) fun slots => ?_).mono (Nat.zero_le _)
  refine (takesAtLeast_readPlain.bind (n := 0) fun count => ?_).mono (Nat.zero_le _)
  exact (((takesAtLeast_readOutput slots).times count).bind fun outputs => .pure _).mono (Nat.zero_le _)

theorem ofBytes_of_readLevels {file : Bytes} {fault : Fault} (h : readLevels file = .error fault) : fault.OfBytes := by
  unfold readLevels at h
  split at h
  · rename_i fault' r hread
    cases h
    exact (takesAtLeast_readPlain.fails hread).2
  · rename_i inputs r hread
    unfold Drawn.all at h
    cases hending : (LevelDecoder.decode r.rest inputs).ending with
    | ok u =>
      rw [hending] at h
      cases h
    | error fault' =>
      rw [hending] at h
      cases h
      exact (LevelDecoder.decode_ends r.rest inputs).fails fault hending

/-- **All endings of reading an address file**: at its header, in its levels, at the
check of the slots they need, or with a plan. -/
theorem readAddresses_cases (file : Bytes) :
    (∃ fault r, readAddressHeader (Reader.ofBytes file) = .error fault r ∧ readAddresses file = .error fault) ∨
    ∃ inputs slots outputs r, readAddressHeader (Reader.ofBytes file) = .ok (inputs, slots, outputs) r ∧
      let drawn := AddressDecoder.decode r.rest inputs
      (∃ fault, drawn.ending = .error fault ∧ readAddresses file = .error fault) ∨
      (slots < drawn.state.written ∧ readAddresses file = .error (.gatesBeyondScratch drawn.state.written slots)) ∨
      (drawn.ending = .ok () ∧ drawn.state.written ≤ slots ∧
        readAddresses file = .ok ⟨inputs, slots, drawn.items, outputs⟩) := by
  unfold readAddresses
  split
  · rename_i fault r hread
    exact .inl ⟨fault, r, hread, rfl⟩
  rename_i inputs slots outputs r hread
  refine .inr ⟨inputs, slots, outputs, r, hread, ?_⟩
  unfold Drawn.all
  dsimp only
  cases hending : (AddressDecoder.decode r.rest inputs).ending with
  | error fault => exact .inl ⟨fault, rfl, rfl⟩
  | ok u =>
    refine .inr ?_
    change _ ∧ (if (AddressDecoder.decode r.rest inputs).state.written > slots then _ else _) = _ ∨
      _ ∧ _ ∧ (if (AddressDecoder.decode r.rest inputs).state.written > slots then _ else _) = _
    by_cases hwritten : slots < (AddressDecoder.decode r.rest inputs).state.written
    · exact .inl ⟨hwritten, if_pos hwritten⟩
    · exact .inr ⟨rfl, Nat.le_of_not_lt hwritten, if_neg hwritten⟩

theorem ofBytes_of_readAddresses {file : Bytes} {fault : Fault} (h : readAddresses file = .error fault) :
    fault.OfBytes := by
  rcases readAddresses_cases file with ⟨fault', r, hread, hfile⟩ | ⟨inputs, slots, outputs, r, hread, hrest⟩
  · cases hfile.symm.trans h
    exact (takesAtLeast_readAddressHeader.fails hread).2
  rcases hrest with ⟨fault', hending, hfile⟩ | ⟨-, hfile⟩ | ⟨-, -, hfile⟩ <;> cases hfile.symm.trans h
  · exact (AddressDecoder.decode_ends r.rest inputs).fails fault hending
  · exact .inr rfl

end PlanFile

/-! ## Any bytes -/

/-- **Decoding ends whatever the bytes, and fails for its bytes only.** Wherever
it stands, the level decoder has read at most a gate for every two bytes, and the
address decoder one for every three, counted with those of a level that is not
complete and whatever its header announces. The table of the level decoder
counts the wires of the complete levels, and their locations are wires that lie
before their level. Plan files are read in this way, and an address file has no
more outputs than bytes. -/
theorem any_bytes_are_decoded {bytes : Bytes} {inputs : Nat}
    (hword : constantWires + inputs + bytes.length < wordSize) :
    ((LevelDecoder.decode bytes inputs).Ends LevelDecoder.next (LevelDecoder.ofBytes bytes inputs) (bytes.length + 1) ∧
      ∀ limit,
        let d := Drawn.draw LevelDecoder.next limit (LevelDecoder.ofBytes bytes inputs)
        let gates := (d.items.map Level.size).sum
        gates ≤ bytes.length / 2 ∧ (∀ k, d.state.ReadsGates k → gates + k ≤ bytes.length / 2) ∧
          d.state.bases.counter = constantWires + inputs + gates ∧
          ∀ l ∈ d.items, ∀ g ∈ l.gates, ∀ loc ∈ [g.input1, g.input2], ∃ wire base,
            d.state.bases.resolve loc = .ok wire ∧ d.state.bases.base l.id = .ok base ∧ wire < base) ∧
    ((AddressDecoder.decode bytes inputs).Ends AddressDecoder.next (AddressDecoder.ofBytes bytes inputs)
        (bytes.length + 1) ∧
      ∀ limit,
        let d := Drawn.draw AddressDecoder.next limit (AddressDecoder.ofBytes bytes inputs)
        let gates := (d.items.map Level.size).sum
        gates ≤ bytes.length / 3 ∧ ∀ k, d.state.ReadsGates k → gates + k ≤ bytes.length / 3) ∧
    (∀ file : Bytes,
      (∀ fault, PlanFile.readLevels file = .error fault → fault.OfBytes) ∧
        ∀ inputs r, Varint.readPlain (Reader.ofBytes file) = .ok inputs r →
          (LevelDecoder.decode r.rest inputs).Ends LevelDecoder.next (LevelDecoder.ofBytes r.rest inputs) file.length) ∧
    ∀ file : Bytes,
      (∀ fault, PlanFile.readAddresses file = .error fault → fault.OfBytes) ∧
        (∀ slots count outputs r r', r.remaining ≤ file.length →
          Action.times (PlanFile.readOutput slots) count r = .ok outputs r' → count ≤ file.length) ∧
        ∀ inputs slots outputs r, PlanFile.readAddressHeader (Reader.ofBytes file) = .ok (inputs, slots, outputs) r →
          (AddressDecoder.decode r.rest inputs).Ends AddressDecoder.next (AddressDecoder.ofBytes r.rest inputs)
            file.length := by
  refine ⟨⟨LevelDecoder.decode_ends bytes inputs, fun limit => ?level⟩,
    ⟨AddressDecoder.decode_ends bytes inputs, fun limit => ?address⟩, fun file => ?levels, fun file => ?addresses⟩
  case level =>
    obtain ⟨hcounts, hleft, hknown⟩ := LevelDecoder.standing_draw hword limit
    set d := Drawn.draw LevelDecoder.next limit (LevelDecoder.ofBytes bytes inputs)
    refine ⟨by omega, fun k hk => ?gates, ?counter, fun l hl g hg loc hloc => ?location⟩
    case gates =>
      have hgates := hk.le
      omega
    case counter =>
      rw [hcounts.counter, List.sum_cons, permanentWires, wrap_of_lt (by omega)]
    case location =>
      obtain ⟨hid, hgates⟩ := hknown l hl
      obtain ⟨h1, h2⟩ := hgates g hg
      have hlength : l.id < (permanentWires inputs :: d.items.map Level.size).length := by
        rw [List.length_cons, List.length_map]
        omega
      rcases List.mem_pair.1 hloc with rfl | rfl
      · exact hcounts.resolve_lt_base hlength h1
      · exact hcounts.resolve_lt_base hlength h2
  case address =>
    have hleft := (AddressDecoder.standing_draw bytes inputs limit).left
    refine ⟨by omega, fun k hk => ?_⟩
    have hgates := hk.le
    omega
  case levels =>
    refine ⟨fun fault => PlanFile.ofBytes_of_readLevels, fun inputs r hread => ?_⟩
    have hless := Varint.takesAtLeast_readPlain.takes hread
    exact (LevelDecoder.decode_ends r.rest inputs).mono hless
  case addresses =>
    refine ⟨fun fault => PlanFile.ofBytes_of_readAddresses, fun slots count outputs r r' hr hread => ?outputs,
      fun inputs slots outputs r hread => ?gates⟩
    case outputs =>
      have hbytes := ((PlanFile.takesAtLeast_readOutput slots).times count).takes hread
      omega
    case gates =>
      have hless := PlanFile.takesAtLeast_readAddressHeader.takes hread
      exact (AddressDecoder.decode_ends r.rest inputs).mono hless

/-- A header of 2 ^ 61 - 1 gates with two bytes after it. -/
def announcesMost : Bytes := [0xDF, 0xFF, 0xFF, 0xFF, 0xFF, 0xFF, 0xFF, 0xFF, 0x20, 0x20]

theorem announced_gates_are_missed :
    LevelHeader.read (Reader.ofBytes announcesMost) = .ok ⟨2 ^ 61 - 1, 0⟩ ⟨[0x20, 0x20], 8⟩ ∧
      constantWires + 3 + announcesMost.length < wordSize ∧
      (∀ k, (LevelDecoder.ofBytes announcesMost 3).ReadsGates k → k ≤ 5) ∧
      ∃ fault, (LevelDecoder.decode announcesMost 3).ending = .error fault ∧ fault.OfBytes := by
  have hword : constantWires + 3 + announcesMost.length < wordSize := by decide
  obtain ⟨⟨hends, hlevels⟩, -⟩ := any_bytes_are_decoded hword
  refine ⟨rfl, hword, fun k hk => ?_, .bytesMissing 1 10 0, rfl, hends.fails _ rfl⟩
  have hgates := (hlevels 0).2.1 k hk
  exact (Nat.le_add_left _ _).trans hgates

end GatePlan
