/-
Readers of bytes that are cut off. A reader that takes some bytes takes them
whatever follows, and where it is given only some of them, it finds that bytes
are missing: it neither takes what is left for something else nor refuses it as
malformed (`TakesWhole`). This carries over to readers made of readers: when the
bytes of two of them are cut, either the first one misses bytes, or it takes the
same as before and the second one does. So it is said once of a varint, and then
holds of references, locations, headers, gates and records, whatever they check
besides, because they check what they have read.

A source of levels has one place between two records where nothing is missing
(`ReadsWhole`). Items that are drawn from it have their bytes, one record after
the other (`Along.recorded`): the first items are written as the first records,
and of bytes that end inside a record only the items before it are drawn.
-/
import GatePlan.Proofs.AnyBytes
import GatePlan.Proofs.Spelling

namespace GatePlan

variable {σ τ ε δ κ α β : Type}

/-! ## Steps that take their bytes whole -/

/-- A state with bytes that have not been read, which can be exchanged for
others. -/
class Unread (σ : Type) where
  rest : σ → Bytes
  withRest : Bytes → σ → σ
  rest_withRest : ∀ bytes s, rest (withRest bytes s) = bytes
  withRest_rest : ∀ s, withRest (rest s) s = s

open Unread

/-- The step fails because bytes are missing. -/
def Action.Misses (step : Action σ α) (s : σ) : Prop := ∃ fault t, step s = .error fault t ∧ fault.kind = .truncated

theorem Action.Misses.bind {step : Action σ α} {next : α → Action σ β} {s : σ} (h : step.Misses s) :
    (step >>= next).Misses s := by
  obtain ⟨fault, t, hfault, hkind⟩ := h
  exact ⟨fault, t, Action.bind_of_error hfault, hkind⟩

variable [Unread σ]

/-- From `s` to `t` the step takes these bytes, whatever follows them, and misses
bytes when some of them are not there. -/
structure TakenWhole (step : Action σ α) (s : σ) (taken : Bytes) (a : α) (t : σ) : Prop where
  bytes : rest s = taken ++ rest t
  takes : ∀ more, step (withRest (taken ++ more) s) = .ok a (withRest more t)
  misses : ∀ cut missing, taken = cut ++ missing → missing ≠ [] → step.Misses (withRest cut s)

/-- A step that takes its bytes whole. -/
structure TakesWhole (step : Action σ α) : Prop where
  whole : ∀ {s a t}, step s = .ok a t → ∃ taken, TakenWhole step s taken a t

theorem takenWhole_nothing {step : Action σ α} {s t : σ} {a : α} (hrest : rest s = rest t)
    (h : ∀ more, step (withRest more s) = .ok a (withRest more t)) : TakenWhole step s [] a t where
  bytes := hrest
  takes := h
  misses _ _ hcut hne := absurd (List.append_eq_nil_iff.1 hcut.symm).2 hne

/-- Where two steps are cut, either the first one is, or it is done. -/
theorem TakenWhole.bind {step : Action σ α} {next : α → Action σ β} {s r t : σ} {bs cs : Bytes} {a : α} {b : β}
    (h : TakenWhole step s bs a r) (hnext : TakenWhole (next a) r cs b t) :
    TakenWhole (step >>= next) s (bs ++ cs) b t where
  bytes := by rw [h.bytes, hnext.bytes, List.append_assoc]
  takes more := by rw [List.append_assoc, Action.bind_of_ok (h.takes _), hnext.takes]
  misses cut missing hcut hne := by
    have hsecond : ∀ more, cs = more ++ missing → (step >>= next).Misses (withRest (bs ++ more) s) := by
      intro more hmore
      obtain ⟨fault, u, hfault, hkind⟩ := hnext.misses more missing hmore hne
      exact ⟨fault, u, by rw [Action.bind_of_ok (h.takes more), hfault], hkind⟩
    rcases List.append_eq_append_iff.1 hcut with ⟨more, rfl, hcs⟩ | ⟨lost, hbs, rfl⟩
    · exact hsecond more hcs
    · rcases eq_or_ne lost [] with rfl | hlost
      · rw [List.append_nil] at hbs
        subst hbs
        simpa using hsecond [] rfl
      · exact (h.misses cut lost hbs hlost).bind

namespace TakesWhole

variable {step : Action σ α} {next : α → Action σ β}

theorem pure (a : α) : TakesWhole (Pure.pure a : Action σ α) where
  whole h := by
    cases h
    exact ⟨[], takenWhole_nothing rfl fun _ => rfl⟩

theorem throw (fault : Fault) : TakesWhole (MonadExcept.throw fault : Action σ α) where
  whole h := by cases h

theorem check (x : Except Fault α) : TakesWhole (Action.ofExcept x : Action σ α) := by
  cases x with
  | ok a => exact pure a
  | error fault => exact throw fault

theorem bind (h : TakesWhole step) (hnext : ∀ a, TakesWhole (next a)) : TakesWhole (step >>= next) where
  whole hok := by
    obtain ⟨a, r, hs, ht⟩ := Action.bind_eq_ok_iff.1 hok
    obtain ⟨bs, hbs⟩ := h.whole hs
    obtain ⟨cs, hcs⟩ := (hnext a).whole ht
    exact ⟨bs ++ cs, hbs.bind hcs⟩

theorem ite {p : Prop} [Decidable p] {step' : Action σ α} (h : TakesWhole step) (h' : TakesWhole step') :
    TakesWhole (if p then step else step') := by
  split
  · exact h
  · exact h'

/-- A step that is refused first for what has been read before it. -/
theorem unlessRefused {p : Prop} [Decidable p] {fault : Fault} {after : PUnit → Action σ β}
    (hafter : TakesWhole (after ⟨⟩)) :
    TakesWhole (if p then (MonadExcept.throw fault : Action σ PUnit) >>= after else after ⟨⟩) :=
  .ite ((throw fault).bind fun _ => hafter) hafter

theorem times (h : TakesWhole step) (n : Nat) : TakesWhole (Action.times step n) := by
  induction n with
  | zero => exact pure []
  | succ n ih =>
    rw [Action.times_succ]
    exact h.bind fun a => ih.bind fun rest => pure (a :: rest)

theorem ofGet {body : σ → Action σ α} (h : ∀ s, TakesWhole (body s))
    (hrest : ∀ bytes s, body (withRest bytes s) = body s) : TakesWhole (get >>= body) where
  whole {s a t} hok := by
    rw [Action.get_bind] at hok
    obtain ⟨taken, htaken⟩ := (h s).whole hok
    refine ⟨taken, htaken.bytes, fun more => ?_, fun cut missing hcut hne => ?_⟩
    · rw [Action.get_bind, hrest]
      exact htaken.takes more
    · obtain ⟨fault, u, hfault, hkind⟩ := htaken.misses cut missing hcut hne
      refine ⟨fault, u, ?_, hkind⟩
      rw [Action.get_bind, hrest]
      exact hfault

theorem modify {f : σ → σ} (h : ∀ bytes s, f (withRest bytes s) = withRest bytes (f s)) :
    TakesWhole (modify f : Action σ Unit) where
  whole {s a t} hok := by
    cases hok
    have hrest : rest s = rest (f s) := by
      conv_rhs => rw [← withRest_rest s, h, rest_withRest]
    exact ⟨[], takenWhole_nothing hrest fun more => congrArg (EStateM.Result.ok ()) (h more s)⟩

theorem within [Inhabited σ] [Unread τ] {part : τ → σ} {put : σ → τ → τ} (h : TakesWhole step)
    (hrest : ∀ w, rest w = rest (part w)) (hpart : ∀ bytes w, part (withRest bytes w) = withRest bytes (part w))
    (hput : ∀ bytes bytes' s w,
      put (withRest bytes s) (put default (withRest bytes' w)) = withRest bytes (put s (put default w)))
    (hback : ∀ s w, part (put s w) = s) : TakesWhole (Action.within part put step) where
  whole {w a w'} hok := by
    obtain ⟨s, hs, rfl⟩ := Action.within_eq_ok_iff.1 hok
    obtain ⟨taken, htaken⟩ := h.whole hs
    refine ⟨taken, ?_, fun more => ?_, fun cut missing hcut hne => ?_⟩
    · rw [hrest, hrest, hback]
      exact htaken.bytes
    · refine Action.within_eq_ok_iff.2 ⟨withRest more s, ?_, (hput ..).symm⟩
      rw [hpart]
      exact htaken.takes more
    · obtain ⟨fault, u, hfault, hkind⟩ := htaken.misses cut missing hcut hne
      rw [← hpart] at hfault
      exact ⟨fault, _, Action.within_of_error hfault, hkind⟩

end TakesWhole

/-! ## Numbers and references -/

instance : Unread Reader where
  rest := Reader.rest
  withRest bytes r := { r with rest := bytes }
  rest_withRest _ _ := rfl
  withRest_rest _ := rfl

/-- Bytes that are known from what is read are taken whole when they are missed. -/
theorem takenWhole_of_reads {step : Action Reader α} {r r' : Reader} {bytes : Bytes} {a : α} (h : step r = .ok a r')
    (hrest : r.rest = bytes ++ r'.rest) (hreads : Reads step bytes a)
    (hmisses : ∀ cut missing, bytes = cut ++ missing → missing ≠ [] → ∀ position, step.Misses ⟨cut, position⟩) :
    TakenWhole step r bytes a r' where
  bytes := hrest
  takes more := by
    obtain ⟨all, position⟩ := r
    obtain rfl : all = bytes ++ r'.rest := hrest
    have hposition : r' = ⟨r'.rest, position + bytes.length⟩ := (EStateM.Result.ok.inj (h.symm.trans (hreads _ _))).2
    rw [hposition]
    exact hreads more position
  misses cut missing hcut hne := hmisses cut missing hcut hne r.position

theorem Reads.ne_nil {step : Action Reader α} {bytes : Bytes} {a : α} (h : Reads step bytes a)
    (htakes : TakesAtLeast 1 step) : bytes ≠ [] := by
  rintro rfl
  exact absurd (htakes.takes (h [] 0)) (Nat.not_succ_le_self 0)

theorem Reads.misses {step : Action Reader α} {bytes : Bytes} {a : α} (h : Reads step bytes a) (hwhole : TakesWhole step)
    {cut missing : Bytes} (hcut : bytes = cut ++ missing) (hne : missing ≠ []) (position : Nat) :
    step.Misses ⟨cut, position⟩ := by
  obtain ⟨taken, htaken⟩ := hwhole.whole (h [] position)
  have hbytes : bytes = taken := List.append_cancel_right htaken.bytes
  exact htaken.misses cut missing (hbytes ▸ hcut) hne

namespace Varint

theorem misses_read {firstBits mark value : Nat} (hl : Layout firstBits mark) (hv : value < valueBound firstBits 3)
    {cut missing : Bytes} (hcut : bytes firstBits mark value = cut ++ missing) (hne : missing ≠ []) (position : Nat) :
    (read firstBits).Misses ⟨cut, position⟩ := by
  cases cut with
  | nil => exact ⟨_, _, rfl, rfl⟩
  | cons first more =>
    obtain ⟨low, hlow⟩ := bytes_eq_cons firstBits mark value
    obtain ⟨rfl, -⟩ := List.cons.inj (hcut.symm.trans hlow)
    have hlength := congrArg List.length hcut
    have hmissing := List.length_pos_iff.2 hne
    rw [length_bytes, List.length_append] at hlength
    have hshort : ((UInt8.ofNat (lead firstBits mark value) :: more).take (classLength (sizeClass firstBits value))).length ≠
        classLength (sizeClass firstBits value) := by
      rw [List.length_take]
      omega
    refine ⟨.bytesMissing (classLength (sizeClass firstBits value)) position (more.length + 1),
      ⟨UInt8.ofNat (lead firstBits mark value) :: more, position⟩, ?_, rfl⟩
    rw [read, Reader.peek]
    dsimp only
    rw [class_lead hl hv, Reader.take]
    dsimp only
    rw [if_neg hshort]
    rfl

theorem takesWhole_readPlain : TakesWhole readPlain where
  whole {r value r'} h := by
    obtain ⟨hmax, hrest⟩ := rest_of_readPlain h
    refine ⟨_, takenWhole_of_reads h hrest (reads_plain hmax) fun cut missing hcut hne position => ?_⟩
    exact misses_read layout_plain (lt_of_le_of_lt hmax (by decide)) hcut hne position

theorem takesWhole_readFlagged : TakesWhole readFlagged where
  whole {r a r'} h := by
    obtain ⟨value, flag⟩ := a
    obtain ⟨hmax, hrest⟩ := rest_of_readFlagged h
    refine ⟨_, takenWhole_of_reads h hrest (reads_flagged hmax flag) fun cut missing hcut hne position => ?_⟩
    have hread := misses_read (layout_flagged flag) (lt_of_le_of_lt hmax (by decide)) hcut hne position
    cases cut with
    | nil => exact ⟨_, _, rfl, rfl⟩
    | cons first more => exact hread.bind

end Varint

namespace Reference

open Varint

theorem takesWhole_readWire (counter : Nat) : TakesWhole (readWire counter) := by
  refine takesWhole_readFlagged.bind fun _ => .ite ?_ (.pure _)
  exact .unlessRefused (.pure _)

theorem takesWhole_readLevel (current : Nat) : TakesWhole (readLevel current) := by
  refine takesWhole_readFlagged.bind fun _ => .ite ?_ ?_
  · exact .unlessRefused (.pure _)
  · exact .unlessRefused (.pure _)

theorem takesWhole_readLocation (current : Nat) : TakesWhole (readLocation current) := by
  unfold readLocation
  refine .unlessRefused (takesWhole_readFlagged.bind fun _ => .ite (.pure _) (.unlessRefused ?_))
  exact (takesWhole_readLevel current).bind fun _ => takesWhole_readPlain.bind fun _ => .pure _

end Reference

theorem LevelHeader.takesWhole_read : TakesWhole LevelHeader.read := by
  refine Varint.takesWhole_readFlagged.bind fun _ => .ite ?_ (.pure _)
  exact Varint.takesWhole_readPlain.bind fun _ => .unlessRefused (.pure _)

/-! ## Levels -/

/-- A source that goes on, unless nothing is left, with a step that takes its bytes
whole. -/
def ReadsWhole (next : Action σ (Option α)) : Prop :=
  ∀ s, ∃ body, TakesWhole body ∧ ∀ bytes, bytes ≠ [] → next (withRest bytes s) = body (withRest bytes s)

instance : Unread AddressDecoder where
  rest s := s.input.rest
  withRest bytes s := { s with input := withRest bytes s.input }
  rest_withRest _ _ := rfl
  withRest_rest _ := rfl

namespace AddressDecoder

theorem takesWhole_onInput {step : Action Reader α} (h : TakesWhole step) : TakesWhole (onInput step) :=
  h.within (fun _ => rfl) (fun _ _ => rfl) (fun _ _ _ _ => rfl) fun _ _ => rfl

theorem takesWhole_readGate (previous : Nat) : TakesWhole (readGate previous) :=
  (Reference.takesWhole_readWire previous).bind fun _ => (Reference.takesWhole_readWire previous).bind fun _ =>
    (Reference.takesWhole_readWire previous).bind fun _ => .pure _

theorem takesWhole_nextGate : TakesWhole nextGate := by
  refine .ofGet (fun s => (takesWhole_onInput (takesWhole_readGate s.previous)).bind fun g => ?_) fun _ _ => rfl
  exact (TakesWhole.check _).bind fun _ => (TakesWhole.modify fun _ _ => rfl).bind fun _ => .pure g

theorem takesWhole_levelBody (id : Nat) : TakesWhole (AddressTurn.levelBody id) := by
  refine (takesWhole_onInput LevelHeader.takesWhole_read).bind fun header => (TakesWhole.check _).bind fun _ => ?_
  refine (takesWhole_nextGate.times _).bind fun _ => (takesWhole_nextGate.times _).bind fun _ => ?_
  exact (TakesWhole.modify fun _ _ => rfl).bind fun _ => .pure _

theorem readsWhole_next : ReadsWhole next := by
  intro s
  refine ⟨_, takesWhole_levelBody s.nextId, fun bytes hne => ?_⟩
  have hnext := AddressTurn.next_of_bytes hne ⟨s.previous, s.written, s.nextId⟩ [] s.input.position
  rwa [List.append_nil] at hnext

end AddressDecoder

instance : Unread LevelDecoder where
  rest s := s.input.rest
  withRest bytes s := { s with input := withRest bytes s.input }
  rest_withRest _ _ := rfl
  withRest_rest _ := rfl

namespace LevelDecoder

theorem takesWhole_readGate (bases : LevelBases) (current : Nat) : TakesWhole (readGate bases current) :=
  (Reference.takesWhole_readLocation current).bind fun _ => (Reference.takesWhole_readLocation current).bind fun _ =>
    (TakesWhole.check _).bind fun _ => (TakesWhole.check _).bind fun _ => .pure _

theorem takesWhole_readRecord (bases : LevelBases) : TakesWhole (readRecord bases) := by
  refine LevelHeader.takesWhole_read.bind fun header => (TakesWhole.check _).bind fun _ => ?_
  exact ((takesWhole_readGate _ _).times _).bind fun _ => ((takesWhole_readGate _ _).times _).bind fun _ => .pure _

theorem readsWhole_next : ReadsWhole next := by
  intro s
  refine ⟨_, ?_, fun bytes hne => LevelBases.next_of_bytes (t := s.bases) (r := withRest bytes s.input) hne⟩
  refine TakesWhole.bind ?_ fun _ => (TakesWhole.modify fun _ _ => rfl).bind fun _ => .pure _
  exact (takesWhole_readRecord s.bases).within (fun _ => rfl) (fun _ _ => rfl) (fun _ _ _ _ => rfl) fun _ _ => rfl

end LevelDecoder

/-! ## Records -/

/-- A state is read off a reader, whose bytes are the ones it has not read. -/
structure Unread.Carries [Unread δ] (d : Reader → δ) : Prop where
  rest_eq : ∀ r, rest (d r) = r.rest
  withRest_eq : ∀ bytes r, withRest bytes (d r) = d { r with rest := bytes }

theorem Steps.misses [Unread δ] {next : Action δ (Option α)} (hnext : ReadsWhole next) {record : Bytes}
    {write : Action ε Unit} {e e' : Buffer → ε} {d d' : Reader → δ} {a : α}
    (h : Steps record write next e e' d d' (some a)) (hd : Carries d) (hd' : Carries d') {cut missing : Bytes}
    (hcut : record = cut ++ missing) (hsome : cut ≠ []) (hne : missing ≠ []) (position : Nat) :
    next.Misses (d ⟨cut, position⟩) := by
  obtain ⟨body, hbody, heq⟩ := hnext (d ⟨[], position⟩)
  simp only [hd.withRest_eq] at heq
  have hread := h.reads [] position
  rw [List.append_nil, heq record (by simp [hcut, hsome])] at hread
  obtain ⟨taken, htaken⟩ := hbody.whole hread
  have hrecord := htaken.bytes
  rw [hd.rest_eq, hd'.rest_eq, List.append_nil] at hrecord
  have hmisses := htaken.misses cut missing (hrecord.symm.trans hcut) hne
  rw [hd.withRest_eq] at hmisses
  rw [Action.Misses, heq cut hsome]
  exact hmisses

/-- The records of items: the first items are written as the first records, from
which just they are drawn, and of bytes that end inside a record the items before it
are drawn. -/
structure Recorded (Rel : κ → β → α → κ → Prop) (write : β → Action ε Unit) (next : Action δ (Option α))
    (enc : κ → Buffer → ε) (dec : κ → Reader → δ) (k : κ) (bs : List β) (as : List α) (k' : κ) (records : List Bytes) :
    Prop where
  count : records.length = bs.length
  nonempty : ∀ record ∈ records, record ≠ []
  upTo : ∀ i, ∃ k1, Along Rel k1 (bs.drop i) (as.drop i) k' ∧
    Appends (records.take i).flatten ((bs.take i).forM write) (enc k) (enc k1) ∧
    ∀ position, Drawn.From next (dec k ⟨(records.take i).flatten, position⟩)
      ⟨as.take i, .ok (), dec k1 ⟨[], position + (records.take i).flatten.length⟩⟩
  misses : ∀ cut missing, records.flatten = cut ++ missing → (∀ i, cut ≠ (records.take i).flatten) → ∀ position,
    ∃ i fault s, Drawn.From next (dec k ⟨cut, position⟩) ⟨as.take i, .error fault, s⟩ ∧ fault.kind = .truncated

section

variable {Rel : κ → β → α → κ → Prop} {write : β → Action ε Unit} {next : Action δ (Option α)} {enc : κ → Buffer → ε}
  {dec : κ → Reader → δ} {k k1 k' : κ} {b : β} {a : α} {bs : List β} {as : List α} {first : Bytes} {records : List Bytes}

theorem recorded_nil (hend : ∀ position, next (dec k ⟨[], position⟩) = .ok none (dec k ⟨[], position⟩)) :
    Recorded Rel write next enc dec k [] [] k [] where
  count := rfl
  nonempty _ h := by cases h
  upTo i := by
    simp only [List.take_nil, List.drop_nil]
    exact ⟨k, .nil, (steps_nothing (enc k) (dec k) ()).writes, fun position => .ended (hend position)⟩
  misses _ _ hcut hinside := absurd (List.append_eq_nil_iff.1 hcut.symm).1 (hinside 0)

theorem Recorded.cons (h : Recorded Rel write next enc dec k1 bs as k' records)
    (halong : Along Rel k (b :: bs) (a :: as) k') (hne : first ≠ [])
    (hfirst : Steps first (write b) next (enc k) (enc k1) (dec k) (dec k1) (some a))
    (hend : ∀ position, next (dec k ⟨[], position⟩) = .ok none (dec k ⟨[], position⟩))
    (hmisses : ∀ cut missing, first = cut ++ missing → cut ≠ [] → missing ≠ [] → ∀ position,
      next.Misses (dec k ⟨cut, position⟩)) :
    Recorded Rel write next enc dec k (b :: bs) (a :: as) k' (first :: records) where
  count := congrArg (· + 1) h.count
  nonempty := List.forall_mem_cons.2 ⟨hne, h.nonempty⟩
  upTo i := by
    cases i with
    | zero => exact ⟨k, halong, (steps_nothing (enc k) (dec k) ()).writes, fun position => .ended (hend position)⟩
    | succ i =>
      obtain ⟨k2, hafter, hmore, hdrawn⟩ := h.upTo i
      refine ⟨k2, hafter, Appends.bind hfirst.writes hmore, fun position => ?_⟩
      rw [List.take_succ_cons, List.flatten_cons, List.length_append, ← Nat.add_assoc]
      exact .item (hfirst.reads _ _) (hdrawn _)
  misses cut missing hcut hinside position := by
    rw [List.flatten_cons] at hcut
    rcases List.append_eq_append_iff.1 hcut with ⟨more, rfl, hmore⟩ | ⟨lost, hrecord, -⟩
    · -- the cut lies behind the first record
      obtain ⟨i, fault, s, hdrawn, hkind⟩ :=
        h.misses more missing hmore (fun i hi => hinside (i + 1) (congrArg (first ++ ·) hi)) (position + first.length)
      exact ⟨i + 1, fault, s, .item (hfirst.reads more position) hdrawn, hkind⟩
    · have hlost : lost ≠ [] := by
        rintro rfl
        exact hinside 1 (by simpa using hrecord.symm)
      obtain ⟨fault, s, hfault, hkind⟩ := hmisses cut lost hrecord (hinside 0) hlost position
      exact ⟨0, fault, s, .failed hfault, hkind⟩

/-- **Items have records**, one each. -/
theorem Along.recorded [Unread δ] (h : Along Rel k bs as k')
    (hstep : ∀ {k b a k1}, Rel k b a k1 →
      ∃ bytes, bytes ≠ [] ∧ Steps bytes (write b) next (enc k) (enc k1) (dec k) (dec k1) (some a))
    (hnext : ReadsWhole next) (hdec : ∀ k, Carries (dec k))
    (hend : ∀ k position, next (dec k ⟨[], position⟩) = .ok none (dec k ⟨[], position⟩)) :
    ∃ records, Recorded Rel write next enc dec k bs as k' records := by
  induction h with
  | nil => exact ⟨[], recorded_nil (hend _)⟩
  | cons hitem hrest ih =>
    obtain ⟨first, hne, hfirst⟩ := hstep hitem
    obtain ⟨records, hrecords⟩ := ih
    exact ⟨first :: records, hrecords.cons (.cons hitem hrest) hne hfirst (hend _)
      fun _ _ => hfirst.misses hnext (hdec _) (hdec _)⟩

end

end GatePlan
