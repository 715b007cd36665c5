/-
A scratch pool under any sequence of calls, those that fail included.

Two invariants carry the result. `Partitioned` speaks of slots only, so a slot
released by hand keeps it; `Grown` says how every call but the end of a level
moves slots: none joins the free list and none leaves the pending one, so a slot
freed in a level waits there for its end. `Sound` ties slots to the wires that
hold them and survives every call but a release by hand, which leaves the wire
with a slot that is no longer its own.
-/
import GatePlan.Proofs.Compilation
import Mathlib.Data.Set.Function

namespace GatePlan.SlotPool

/-- A call to a pool. -/
inductive Call where
  | reserve (count : Nat)
  | allocate (wire credits : Nat)
  | consume (wire : Nat)
  | addressOf (wire : Nat)
  | release (address : Nat)
  | endLevel
  deriving DecidableEq

/-- What a call does, and the slot that it answers with. -/
def Call.step : Call → Action SlotPool (Option Nat)
  | .reserve count => (fun _ => none) <$> SlotPool.reserve count
  | .allocate wire credits => some <$> SlotPool.allocate wire credits
  | .consume wire => some <$> SlotPool.consume wire
  | .addressOf wire => fun s => (some <$> Action.ofExcept (s.addressOf wire) : Action SlotPool (Option Nat)) s
  | .release address => (fun _ => none) <$> SlotPool.release address
  | .endLevel => (fun _ => none) <$> modify SlotPool.endLevel

/-- The pool after a call, whether it succeeded or failed. -/
def after (s : SlotPool) (call : Call) : SlotPool := (call.step.outcome s).2

def afterAll (s : SlotPool) (calls : List Call) : SlotPool := calls.foldl after s

/-- The slots in use. -/
def used (s : SlotPool) : List Nat := (List.range s.peak).filter s.isInUse

/-- The call frees the slot. -/
def Frees (s : SlotPool) (call : Call) (a : Nat) : Prop := a ∈ s.used ∧ a ∉ (s.after call).used

theorem afterAll_append (s : SlotPool) (calls more : List Call) :
    s.afterAll (calls ++ more) = (s.afterAll calls).afterAll more :=
  List.foldl_append

theorem step_of_ok {α : Type} {step : Action SlotPool α} {s s' : SlotPool} {a : α} (f : α → Option Nat)
    (h : step s = .ok a s') : (f <$> step) s = .ok (f a) s' := by
  change EStateM.map f step s = _
  simp [EStateM.map, h]

theorem step_of_error {α : Type} {step : Action SlotPool α} {s s' : SlotPool} {fault : Fault} (f : α → Option Nat)
    (h : step s = .error fault s') : (f <$> step) s = .error fault s' := by
  change EStateM.map f step s = _
  simp [EStateM.map, h]

theorem after_of_ok {s s' : SlotPool} {call : Call} {answer : Option Nat} (h : call.step s = .ok answer s') :
    s.after call = s' := by
  rw [after, Action.outcome_eq_ok_iff.2 h]

theorem after_of_error {s s' : SlotPool} {call : Call} {fault : Fault} (h : call.step s = .error fault s') :
    s.after call = s' := by
  rw [after, Action.outcome_of_error h]

theorem mem_used {s : SlotPool} {a : Nat} : a ∈ s.used ↔ a < s.peak ∧ s.isInUse a = true := by
  simp [used]

/-! ## Slots -/

namespace Partitioned

variable {s : SlotPool}

theorem perm_range (h : s.Partitioned) : (s.used ++ s.free ++ s.pending).Perm (List.range s.peak) := by
  have hidle : ∀ a ∈ s.free ++ s.pending, a ∉ s.used := by
    intro a ha hused
    have huse := (mem_used.1 hused).2
    rw [(h.idle a ha).2] at huse
    cases huse
  have hnodup : (s.used ++ (s.free ++ s.pending)).Nodup :=
    List.nodup_append.2 ⟨List.nodup_range.filter _, h.nodup, fun a hu b hb hab => hidle b hb (hab ▸ hu)⟩
  rw [List.append_assoc]
  refine (List.perm_ext_iff_of_nodup hnodup List.nodup_range).2 fun a => ?_
  rw [List.mem_append, List.mem_range, mem_used]
  constructor
  · rintro (hused | ha)
    · exact hused.1
    · exact (h.idle a ha).1
  · intro hlt
    cases hin : s.isInUse a with
    | true => exact .inl ⟨hlt, rfl⟩
    | false => exact .inr (h.cover a hlt hin)

theorem not_mem_free_of_used (h : s.Partitioned) {a : Nat} (ha : a ∈ s.used) : a ∉ s.free := by
  intro hfree
  have hnodup := h.perm_range.nodup_iff.2 List.nodup_range
  rw [List.append_assoc] at hnodup
  exact (List.nodup_append.1 hnodup).2.2 a ha a (List.mem_append_left _ hfree) rfl

theorem lists_of_peak_eq (h : s.Partitioned) (hpeak : s.peak = s.permanent) : s.free ++ s.pending = [] := by
  refine List.eq_nil_iff_forall_not_mem.2 fun a ha => ?_
  have hlow := h.permanent_le_of_idle ha
  have hlt := (h.idle a ha).1
  omega

theorem mem_used_of_permanent (h : s.Partitioned) {a : Nat} (ha : a < s.permanent) : a ∈ s.used :=
  mem_used.2 ⟨ha.trans_le h.permanent_le, h.permanent_used a ha⟩

end Partitioned

/-! ## What one operation does -/

section Operations

variable {s : SlotPool}

/-- The pool after slots are given to permanent wires. -/
def reserved (s : SlotPool) (count : Nat) : SlotPool :=
  { s with
    permanent := s.permanent + count
    peak := s.permanent + count
    inUse := s.inUse.take (s.permanent + count) ++ Array.replicate (s.permanent + count - s.inUse.size) true }

theorem reserve_cases (s : SlotPool) (count : Nat) :
    (∃ fault, reserve count s = .error fault s) ∨
    (s.peak = s.permanent ∧ s.permanent + count ≤ max s.permanent s.capacity ∧
      reserve count s = .ok () (s.reserved count)) := by
  unfold reserve
  by_cases hpeak : s.peak ≠ s.permanent
  · rw [if_pos hpeak]
    exact .inl ⟨_, rfl⟩
  by_cases hroom : count > s.capacity - s.permanent
  · rw [if_neg hpeak, if_pos hroom]
    exact .inl ⟨_, rfl⟩
  · rw [if_neg hpeak, if_neg hroom]
    exact .inr ⟨not_not.1 hpeak, by omega, rfl⟩

/-- The pool after a slot is given back. -/
def released (s : SlotPool) (a : Nat) : SlotPool :=
  { s.setInUse a false with pending := a :: s.pending, frees := s.frees + 1 }

theorem release_cases (s : SlotPool) (a : Nat) :
    (∃ fault, release a s = .error fault s) ∨
    (s.permanent ≤ a ∧ a < s.peak ∧ s.isInUse a = true ∧ release a s = .ok () (s.released a)) := by
  unfold release
  by_cases hperm : a < s.permanent
  · rw [if_pos hperm]
    exact .inl ⟨_, rfl⟩
  by_cases hidle : (decide (a ≥ s.peak) || !s.isInUse a) = true
  · rw [if_neg hperm, if_pos hidle]
    exact .inl ⟨_, rfl⟩
  · rw [if_neg hperm, if_neg hidle]
    simp only [Bool.or_eq_true, decide_eq_true_eq, Bool.not_eq_true', not_or, Bool.not_eq_false, not_le] at hidle
    exact .inr ⟨Nat.le_of_not_lt hperm, hidle.1, hidle.2, rfl⟩

/-- Reading changes who holds the slots, and with the last credit gives one
back. -/
theorem consume_cases (s : SlotPool) (w : Nat) :
    (∃ fault, consume w s = .error fault s) ∨
    (∃ a table, consume w s = .ok a { s with resident := table }) ∨
    (∃ a table, ∀ s', (release a { s with resident := table } = .ok () s' → consume w s = .ok a s') ∧
      ∀ fault, release a { s with resident := table } = .error fault s' → consume w s = .error fault s') := by
  unfold consume
  by_cases hperm : w < s.permanent
  · rw [if_pos hperm]
    exact .inr (.inl ⟨w, s.resident, rfl⟩)
  rw [if_neg hperm]
  cases s.resident[w]? with
  | none => exact .inl ⟨_, rfl⟩
  | some r =>
    dsimp only
    split
    · exact .inr (.inl ⟨r.address, s.resident, rfl⟩)
    · split
      · refine .inr (.inr ⟨r.address, s.resident.erase w, fun s' => ⟨fun h => ?_, fun fault h => ?_⟩⟩) <;> rw [h]
      · exact .inr (.inl ⟨r.address, _, rfl⟩)

theorem addressOf_cases (s : SlotPool) (w : Nat) :
    (∃ fault, (Call.addressOf w).step s = .error fault s) ∨ ∃ a, (Call.addressOf w).step s = .ok (some a) s := by
  cases hw : s.addressOf w with
  | error fault => exact .inl ⟨fault, step_of_error some (by rw [hw]; rfl)⟩
  | ok a => exact .inr ⟨a, step_of_ok some (by rw [hw]; rfl)⟩

theorem Partitioned.allocate_cases (h : s.Partitioned) (w credits : Nat) :
    (∃ fault, allocate w credits s = .error fault s) ∨
    ∃ a s' table, Taken s a s' ∧ allocate w credits s = .ok a { s' with resident := table } := by
  rw [allocate_eq]
  split
  · exact .inl ⟨_, rfl⟩
  · rcases h.takeSlot_cases with ⟨a, s', hok, ht⟩ | ⟨-, -, herror⟩
    · rw [Action.bind_of_ok hok]
      exact .inr ⟨a, s', _, ht, rfl⟩
    · exact .inl ⟨_, Action.bind_of_error herror⟩

end Operations

/-! ## How calls move slots -/

/-- How every call but the end of a level moves slots. -/
structure Grown (s s' : SlotPool) : Prop where
  bits : s'.bits = s.bits
  peak_le : s.peak ≤ s'.peak
  free : ∀ a ∈ s'.free, a ∈ s.free
  pending : ∀ a ∈ s.pending, a ∈ s'.pending
  partitioned : s'.Partitioned

namespace Grown

variable {s r s' : SlotPool}

theorem refl (h : s.Partitioned) : Grown s s := ⟨rfl, le_rfl, fun _ => id, fun _ => id, h⟩

theorem trans (h : Grown s r) (h' : Grown r s') : Grown s s' where
  bits := h'.bits.trans h.bits
  peak_le := h.peak_le.trans h'.peak_le
  free a ha := h.free a (h'.free a ha)
  pending a ha := h'.pending a (h.pending a ha)
  partitioned := h'.partitioned

theorem hold (h : Grown s s') (table : Std.TreeMap Nat Resident) : Grown s { s' with resident := table } :=
  ⟨h.bits, h.peak_le, h.free, h.pending, h.partitioned.size, h.partitioned.permanent_le, h.partitioned.permanent_used,
    h.partitioned.idle, h.partitioned.nodup, h.partitioned.cover, h.partitioned.fits⟩

end Grown

section Grown

variable {s : SlotPool}

theorem Taken.grown {a : Nat} {s' : SlotPool} (ht : Taken s a s') (h : s.Partitioned) : Grown s s' where
  bits := ht.bits
  peak_le := by
    rw [ht.peak_eq_max h]
    exact le_max_left ..
  free b hb := by
    rcases ht.source with ⟨hfree, -⟩ | ⟨-, hnil, -⟩
    · simp [hfree, hb]
    · simp [hnil] at hb
  pending b hb := by rwa [ht.pending]
  partitioned := ht.partitioned h

theorem Partitioned.inUse_reserved (h : s.Partitioned) (hpeak : s.peak = s.permanent) (count : Nat) :
    (s.reserved count).inUse = s.inUse ++ Array.replicate count true := by
  have hsize : s.inUse.size = s.permanent := h.size.trans hpeak
  change s.inUse.take _ ++ Array.replicate (s.permanent + count - s.inUse.size) true = _
  rw [Array.take_eq_extract, Array.extract_eq_self_of_le (by omega), hsize, Nat.add_sub_cancel_left]

theorem Partitioned.isInUse_reserved (h : s.Partitioned) (hpeak : s.peak = s.permanent) (count a : Nat) :
    (s.reserved count).isInUse a = decide (a < s.permanent + count) := by
  have hsize : s.inUse.size = s.permanent := h.size.trans hpeak
  rw [isInUse, h.inUse_reserved hpeak, Array.getD_eq_getD_getElem?, Array.getElem?_append, hsize]
  by_cases hold : a < s.permanent
  · have hused := h.permanent_used a hold
    rw [isInUse, Array.getD_eq_getD_getElem?] at hused
    rw [if_pos hold, hused, decide_eq_true (by omega)]
  · rw [if_neg hold, Array.getElem?_replicate]
    by_cases hnew : a < s.permanent + count
    · rw [if_pos (by omega), decide_eq_true hnew, Option.getD_some]
    · rw [if_neg (by omega), decide_eq_false hnew, Option.getD_none]

theorem Partitioned.grown_reserve (h : s.Partitioned) {count : Nat} (hpeak : s.peak = s.permanent)
    (hroom : s.permanent + count ≤ max s.permanent s.capacity) : Grown s (s.reserved count) := by
  have hfits := h.fits
  have hinUse := h.isInUse_reserved hpeak count
  have hnil : (s.reserved count).free ++ (s.reserved count).pending = [] := h.lists_of_peak_eq hpeak
  refine ⟨rfl, ?peak_le, fun _ => id, fun _ => id, ⟨?size, le_rfl, fun a ha => ?permanent_used, fun a ha => ?idle, ?nodup,
    fun a ha hidle => ?cover, ?fits⟩⟩
  case peak_le =>
    rw [hpeak]
    exact Nat.le_add_right ..
  case size =>
    rw [h.inUse_reserved hpeak, Array.size_append, Array.size_replicate, h.size, hpeak]
    rfl
  case permanent_used => exact (hinUse a).trans (decide_eq_true ha)
  case idle =>
    rw [hnil] at ha
    cases ha
  case nodup =>
    rw [hnil]
    exact List.nodup_nil
  case cover => cases hidle.symm.trans ((hinUse a).trans (decide_eq_true ha))
  case fits =>
    show s.permanent + count ≤ s.capacity
    omega

theorem Partitioned.grown_released (h : s.Partitioned) {a : Nat} (ha : s.permanent ≤ a) (hu : s.isInUse a = true) :
    Grown s (s.released a) := by
  have hpart := h.giveBack ha hu 0
  exact ⟨rfl, le_rfl, fun _ => id, fun b hb => List.mem_cons_of_mem a hb, hpart.size, hpart.permanent_le,
    hpart.permanent_used, hpart.idle, hpart.nodup, hpart.cover, hpart.fits⟩

theorem Partitioned.grown_release (h : s.Partitioned) (a : Nat) :
    (∃ fault, release a s = .error fault s) ∨ ∃ s', release a s = .ok () s' ∧ Grown s s' := by
  rcases release_cases s a with herror | ⟨hge, -, hu, hok⟩
  · exact .inl herror
  · exact .inr ⟨_, hok, h.grown_released hge hu⟩

/-- What a call other than the end of a level does to a pool. -/
theorem Partitioned.grown_after (h : s.Partitioned) {call : Call} (hcall : call ≠ .endLevel) :
    Grown s (s.after call) := by
  cases call with
  | endLevel => exact absurd rfl hcall
  | reserve count =>
    rcases reserve_cases s count with ⟨fault, herror⟩ | ⟨hpeak, hroom, hok⟩
    · rw [after_of_error (step_of_error _ herror)]
      exact .refl h
    · rw [after_of_ok (step_of_ok _ hok)]
      exact h.grown_reserve hpeak hroom
  | allocate wire credits =>
    rcases h.allocate_cases wire credits with ⟨fault, herror⟩ | ⟨a, s', table, ht, hok⟩
    · rw [after_of_error (step_of_error _ herror)]
      exact .refl h
    · rw [after_of_ok (step_of_ok _ hok)]
      exact (ht.grown h).hold table
  | consume wire =>
    have hheld := fun table => (Grown.refl h).hold table
    rcases consume_cases s wire with ⟨fault, herror⟩ | ⟨a, table, hok⟩ | ⟨a, table, hcases⟩
    · rw [after_of_error (step_of_error _ herror)]
      exact .refl h
    · rw [after_of_ok (step_of_ok _ hok)]
      exact hheld table
    · rcases (hheld table).partitioned.grown_release a with ⟨fault, herror⟩ | ⟨s', hok, hgrown⟩
      · rw [after_of_error (step_of_error _ ((hcases _).2 fault herror))]
        exact hheld table
      · rw [after_of_ok (step_of_ok _ ((hcases s').1 hok))]
        exact (hheld table).trans hgrown
  | addressOf wire =>
    rcases addressOf_cases s wire with ⟨fault, herror⟩ | ⟨a, hok⟩
    · rw [after_of_error herror]
      exact .refl h
    · rw [after_of_ok hok]
      exact .refl h
  | release address =>
    rcases h.grown_release address with ⟨fault, herror⟩ | ⟨s', hok, hgrown⟩
    · rw [after_of_error (step_of_error _ herror)]
      exact .refl h
    · rw [after_of_ok (step_of_ok _ hok)]
      exact hgrown

theorem Partitioned.grown_afterAll (h : s.Partitioned) {calls : List Call} (hcalls : .endLevel ∉ calls) :
    Grown s (s.afterAll calls) := by
  induction calls generalizing s with
  | nil => exact .refl h
  | cons call calls ih =>
    have hcall := h.grown_after (List.ne_of_not_mem_cons hcalls).symm
    exact hcall.trans (ih hcall.partitioned (List.not_mem_of_not_mem_cons hcalls))

theorem Partitioned.afterAll (h : s.Partitioned) (calls : List Call) :
    (s.afterAll calls).Partitioned ∧ (s.afterAll calls).bits = s.bits := by
  induction calls generalizing s with
  | nil => exact ⟨h, rfl⟩
  | cons call calls ih =>
    by_cases hcall : call = .endLevel
    · subst hcall
      exact ih h.endLevel
    · have hgrown := h.grown_after hcall
      obtain ⟨hpart, hbits⟩ := ih hgrown.partitioned
      exact ⟨hpart, hbits.trans hgrown.bits⟩

theorem Partitioned.pending_of_frees (h : s.Partitioned) {call : Call} {a : Nat} (ha : s.Frees call a) :
    a ∈ (s.after call).pending := by
  obtain ⟨hused, hnot⟩ := ha
  by_cases hcall : call = .endLevel
  · subst hcall
    exact absurd hused hnot
  · have hgrown := h.grown_after hcall
    have hlt := (mem_used.1 hused).1
    have hrange := hgrown.partitioned.perm_range.mem_iff.2 (List.mem_range.2 (hlt.trans_le hgrown.peak_le))
    rw [List.append_assoc, List.mem_append, List.mem_append] at hrange
    rcases hrange with h' | h' | h'
    · exact absurd h' hnot
    · exact absurd (hgrown.free a h') (h.not_mem_free_of_used hused)
    · exact h'

theorem Partitioned.not_pending_of_allocate (h : s.Partitioned) {w credits a : Nat} {s' : SlotPool}
    (hok : SlotPool.allocate w credits s = .ok a s') : a ∉ s.pending := by
  intro ha
  rcases h.allocate_cases w credits with ⟨fault, herror⟩ | ⟨b, t, table, ht, hok'⟩
  · rw [herror] at hok
    cases hok
  · rw [hok'] at hok
    cases hok
    rcases ht.available with hfree | hpeak
    · exact (List.nodup_append.1 h.nodup).2.2 a hfree a ha rfl
    · have := (h.idle a (List.mem_append_right _ ha)).1
      omega

end Grown

/-! ## Calls that leave releasing to reads -/

section Sound

variable {s : SlotPool}

theorem Sound.reserve (h : s.Sound) {count : Nat} (hpeak : s.peak = s.permanent)
    (hroom : s.permanent + count ≤ max s.permanent s.capacity) : (s.reserved count).Sound := by
  have hcount := h.count
  rw [live] at hcount
  have hempty : ∀ w, s.slotOf? w = none := by
    intro w
    have : s.resident.isEmpty = true := by
      rw [Std.TreeMap.isEmpty_eq_size_eq_zero, beq_iff_eq]
      omega
    rw [slotOf?, Std.TreeMap.getElem?_of_isEmpty this, Option.map_none]
  have hnone : ∀ {w a}, (s.reserved count).slotOf? w = some a → False := by
    intro w a hw
    cases (hempty w).symm.trans hw
  refine ⟨(h.toPartitioned.grown_reserve hpeak hroom).partitioned, fun hw => (hnone hw).elim,
    fun hw => (hnone hw).elim, fun a ha => ⟨fun hu => ?_, ?_⟩, fun hw => (hnone hw).elim, ?_⟩
  · rw [h.isInUse_reserved hpeak, decide_eq_true_eq] at hu
    exact absurd hu (Nat.not_lt.2 ha)
  · rintro ⟨w, hw⟩
    exact (hnone hw).elim
  · show s.permanent + count + s.resident.size + s.free.length + s.pending.length = s.permanent + count
    omega

/-- **A call that fails leaves a sound pool as it was**, and one that does not
keeps it sound, unless it is a release. -/
theorem Sound.call_cases (h : s.Sound) (call : Call) :
    (∃ fault, call.step s = .error fault s) ∨
    ∃ answer s', call.step s = .ok answer s' ∧ ((∀ a, call ≠ .release a) → s'.Sound) := by
  cases call with
  | reserve count =>
    rcases reserve_cases s count with ⟨fault, herror⟩ | ⟨hpeak, hroom, hok⟩
    · exact .inl ⟨fault, step_of_error _ herror⟩
    · exact .inr ⟨_, _, step_of_ok _ hok, fun _ => h.reserve hpeak hroom⟩
  | allocate wire credits =>
    rcases h.allocate_cases wire credits with ⟨a, s', hok, hs', -⟩ | ⟨-, herror⟩ | ⟨-, herror⟩
    · exact .inr ⟨_, _, step_of_ok _ hok, fun _ => hs'.sound⟩
    · exact .inl ⟨_, step_of_error _ herror⟩
    · exact .inl ⟨_, step_of_error _ herror⟩
  | consume wire =>
    rcases h.consume_cases wire with ⟨a, s', hok, hs'⟩ | ⟨-, -, herror⟩
    · exact .inr ⟨_, _, step_of_ok _ hok, fun _ => hs'.sound⟩
    · exact .inl ⟨_, step_of_error _ herror⟩
  | addressOf wire =>
    rcases addressOf_cases s wire with ⟨fault, herror⟩ | ⟨a, hok⟩
    · exact .inl ⟨fault, herror⟩
    · exact .inr ⟨_, _, hok, fun _ => h⟩
  | release a =>
    rcases release_cases s a with ⟨fault, herror⟩ | ⟨-, -, -, hok⟩
    · exact .inl ⟨fault, step_of_error _ herror⟩
    · exact .inr ⟨_, _, step_of_ok _ hok, fun hnot => absurd rfl (hnot a)⟩
  | endLevel => exact .inr ⟨none, s.endLevel, rfl, fun _ => h.endLevel⟩

theorem Sound.afterAll (h : s.Sound) {calls : List Call} (hcalls : ∀ a, .release a ∉ calls) :
    (s.afterAll calls).Sound := by
  induction calls generalizing s with
  | nil => exact h
  | cons call calls ih =>
    refine ih ?_ fun a ha => hcalls a (List.mem_cons_of_mem _ ha)
    rcases h.call_cases call with ⟨fault, herror⟩ | ⟨answer, s', hok, hs'⟩
    · rwa [after_of_error herror]
    · rw [after_of_ok hok]
      exact hs' fun a ha => hcalls a (ha ▸ List.mem_cons_self ..)

theorem Sound.unchanged_of_error (h : s.Sound) {call : Call} {s' : SlotPool} {fault : Fault}
    (herror : call.step s = .error fault s') : s' = s := by
  rcases h.call_cases call with ⟨fault', herror'⟩ | ⟨answer, t, hok, -⟩
  · rw [herror] at herror'
    cases herror'
    rfl
  · rw [herror] at hok
    cases hok

theorem Sound.not_doubleFree (h : s.Sound) {w : Nat} {s' : SlotPool} {fault : Fault}
    (herror : SlotPool.consume w s = .error fault s') : fault.kind ≠ .doubleFree := by
  rcases h.consume_cases w with ⟨a, t, hok, -⟩ | ⟨-, -, herror'⟩
  · rw [herror] at hok
    cases hok
  · rw [herror] at herror'
    cases herror'
    exact fun hkind => by cases hkind

theorem mem_resident_iff {w : Nat} : w ∈ s.resident ↔ ∃ a, s.slotOf? w = some a := by
  rw [Std.TreeMap.mem_iff_isSome_getElem?, ← Option.isSome_iff_exists, slotOf?, Option.isSome_map]

/-- The wires that hold a slot for a time and the slots in use past the
permanent ones belong to each other one by one. -/
theorem Sound.bijOn_slotOf? (h : s.Sound) :
    Set.BijOn s.slotOf? {w | w ∈ s.resident} (some '' {a | a ∈ s.used ∧ s.permanent ≤ a}) := by
  refine ⟨?maps, ?inj, ?surj⟩
  case maps =>
    intro w hw
    obtain ⟨a, ha⟩ := mem_resident_iff.1 hw
    have hge := h.slot_ge ha
    have hu := h.isInUse_of_slot ha
    rw [ha]
    exact ⟨a, ⟨mem_used.2 ⟨h.lt_peak_of_isInUse hu, hu⟩, hge⟩, rfl⟩
  case inj =>
    intro w hw v hv hwv
    obtain ⟨a, ha⟩ := mem_resident_iff.1 hw
    exact h.inj ha (hwv ▸ ha)
  case surj =>
    rintro _ ⟨a, ⟨hused, hge⟩, rfl⟩
    obtain ⟨w, hw⟩ := (h.used a hge).1 (mem_used.1 hused).2
    exact ⟨w, mem_resident_iff.2 ⟨a, hw⟩, hw⟩

theorem Sound.addressOf_inj (h : s.Sound) {w v a : Nat} (hw : s.addressOf w = .ok a) (hv : s.addressOf v = .ok a) :
    w = v := by
  rcases addressOf_eq_ok_iff.1 hw with ⟨hwlt, rfl⟩ | ⟨-, hwslot⟩ <;>
    rcases addressOf_eq_ok_iff.1 hv with ⟨hvlt, hav⟩ | ⟨-, hvslot⟩
  · exact hav
  · exact absurd hwlt (Nat.not_lt.2 (h.slot_ge hvslot))
  · subst hav
    exact absurd hvlt (Nat.not_lt.2 (h.slot_ge hwslot))
  · exact h.inj hwslot hvslot

end Sound

/-! ## Any calls -/

theorem eq_initial_of_ofBits {bits : Nat} {s : SlotPool} (h : ofBits bits = .ok s) : s = initial bits 0 := by
  unfold ofBits at h
  split at h
  · cases h
  · cases h
    rfl

/-- **A pool keeps its slots apart whatever calls it is given**, those that fail
included: every slot below the peak has a flag and is in use, free or pending, just
one of these; permanent slots are in use, and there are no more slots than addresses
can name; and a slot that a call frees is not handed out before the level ends.
Unless a call released a slot by hand, each wire that is not permanent has a slot in
use of its own and each such slot its wire, the counts add up, no read frees a slot
twice, and a call that fails changes nothing. -/
theorem calls_keep_slots_apart {bits : Nat} {start : SlotPool} (hstart : ofBits bits = .ok start) (calls : List Call) :
    let s := start.afterAll calls
    s.inUse.size = s.peak ∧
    (s.used ++ s.free ++ s.pending).Perm (List.range s.peak) ∧
    (∀ a < s.permanent, a ∈ s.used) ∧
    s.peak ≤ 2 ^ bits ∧
    (∀ before call between a, calls = before ++ call :: between → .endLevel ∉ between →
      (start.afterAll before).Frees call a → ∀ wire credits s', allocate wire credits s ≠ .ok a s') ∧
    ((∀ a, .release a ∉ calls) →
      Set.BijOn s.slotOf? {w | w ∈ s.resident} (some '' {a | a ∈ s.used ∧ s.permanent ≤ a}) ∧
      (∀ w v a, s.addressOf w = .ok a → s.addressOf v = .ok a → w = v) ∧
      s.live + s.free.length + s.pending.length = s.peak ∧
      (∀ wire fault s', consume wire s = .error fault s' → fault.kind ≠ .doubleFree) ∧
      ∀ (call : Call) fault s', call.step s = .error fault s' → s' = s) := by
  intro s
  obtain rfl := eq_initial_of_ofBits hstart
  have hsound : (initial bits 0).Sound := sound_initial (Nat.zero_le _)
  obtain ⟨hpart, hbits⟩ := hsound.toPartitioned.afterAll calls
  refine ⟨hpart.size, hpart.perm_range, fun a => hpart.mem_used_of_permanent, ?fits, ?pending, fun hcalls => ?sound⟩
  case fits =>
    have hfits := hpart.fits
    rwa [capacity, hbits] at hfits
  case pending =>
    intro before call between a hsplit hwithin hfrees wire credits s' hok
    obtain ⟨hbefore, -⟩ := hsound.toPartitioned.afterAll before
    have hafter : ((initial bits 0).afterAll before).afterAll (call :: between) = s := by
      rw [← afterAll_append, ← hsplit]
    obtain ⟨hcall, -⟩ := hbefore.afterAll [call]
    have hgrown : Grown _ s := hafter ▸ hcall.grown_afterAll hwithin
    exact hpart.not_pending_of_allocate hok (hgrown.pending a (hbefore.pending_of_frees hfrees))
  case sound =>
    have hs := hsound.afterAll hcalls
    exact ⟨hs.bijOn_slotOf?, fun w v a => hs.addressOf_inj, hs.count, fun wire fault s' => hs.not_doubleFree,
      fun call fault s' => hs.unchanged_of_error⟩

/-- Four calls, the last of which frees the slot of wire 5: until the level ends
no wire gets it, though it counts among the slots below the peak. -/
theorem slot_waits_after_last_read :
    ∃ start, ofBits 3 = .ok start ∧
      let s := start.afterAll [.reserve 1, .allocate 5 1, .allocate 6 0, .consume 5]
      s.inUse.toList = [true, false, true] ∧ (∀ wire credits s', allocate wire credits s ≠ .ok 1 s') ∧
      s.live + s.free.length + s.pending.length = s.peak := by
  refine ⟨initial 3 0, rfl, by decide, ?_⟩
  obtain ⟨-, -, -, -, hpending, hrest⟩ := @calls_keep_slots_apart 3 (initial 3 0) rfl
    [.reserve 1, .allocate 5 1, .allocate 6 0, .consume 5]
  refine ⟨hpending [.reserve 1, .allocate 5 1, .allocate 6 0] (.consume 5) [] 1 rfl (by decide) ?_, ?_⟩
  · unfold Frees
    decide
  · exact (hrest (by simp)).2.2.1

end GatePlan.SlotPool
