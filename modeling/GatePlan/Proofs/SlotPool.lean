/-
The scratch slots: what the pool keeps true and what each of its steps does.

In a sound pool (`Sound`) every slot below the peak is flagged as in use, free or
pending, no two of these at once; the permanent slots are in use, and the others in
use are those of the wires that hold one, each wire its own. `consume_cases` and
`allocate_cases` say all that reading a wire and giving one a slot can do; the
structures `Consumed` and `Allocated` are what later proofs use of a step that succeeds.

Two numbers explain the peak. `occupied` counts the slots that cannot be handed
out before the level ends: reading leaves it alone and every new slot adds one.
The peak only rises to it (`Allocated.peak_eq`), so a pool runs out of slots
exactly when all that addresses can name are occupied.
-/
import GatePlan.SlotPool
import GatePlan.Proofs.Ledger
import GatePlan.Proofs.TreeMap

namespace GatePlan.SlotPool

/-! ## Views -/

/-- The slot of a wire that is not permanent. -/
def slotOf? (s : SlotPool) (wire : Nat) : Option Nat := (s.resident[wire]?).map (·.address)

/-- The credits left of a wire that is not permanent. -/
def creditsOf? (s : SlotPool) (wire : Nat) : Option Nat := (s.resident[wire]?).map (·.credits)

/-- A slot that may be handed out before the level ends. -/
def Available (s : SlotPool) (address : Nat) : Prop := address ∈ s.free ∨ s.peak ≤ address

/-- The number of slots that may not. -/
def occupied (s : SlotPool) : Nat := s.live + s.pending.length

theorem isSome_slotOf? (s : SlotPool) (w : Nat) : (s.slotOf? w).isSome = (s.creditsOf? w).isSome := by
  rw [slotOf?, creditsOf?, Option.isSome_map, Option.isSome_map]

theorem resident_of_slot {s : SlotPool} {w a : Nat} (hw : s.slotOf? w = some a) :
    ∃ k, s.resident[w]? = some ⟨a, k⟩ := by
  obtain ⟨r, hr, rfl⟩ := Option.map_eq_some_iff.1 hw
  exact ⟨r.credits, hr⟩

theorem addressOf_eq_ok_iff {s : SlotPool} {w a : Nat} :
    s.addressOf w = .ok a ↔ (w < s.permanent ∧ a = w) ∨ (s.permanent ≤ w ∧ s.slotOf? w = some a) := by
  unfold addressOf slotOf?
  by_cases hw : w < s.permanent
  · simp [hw, eq_comm]
  · rw [if_neg hw]
    cases s.resident[w]? with
    | none => simp [hw]
    | some r => simp [hw, Nat.le_of_not_lt hw]

/-! ## Soundness -/

/-- Every slot below the peak has a flag and is in use, free, or pending, and only
one of these; permanent slots are in use. -/
structure Partitioned (s : SlotPool) : Prop where
  size : s.inUse.size = s.peak
  permanent_le : s.permanent ≤ s.peak
  permanent_used : ∀ a < s.permanent, s.isInUse a = true
  idle : ∀ a ∈ s.free ++ s.pending, a < s.peak ∧ s.isInUse a = false
  nodup : (s.free ++ s.pending).Nodup
  cover : ∀ a < s.peak, s.isInUse a = false → a ∈ s.free ++ s.pending
  fits : s.peak ≤ s.capacity

/-- Besides, the slots in use past the permanent ones are those of the wires that hold
one. -/
structure Sound (s : SlotPool) : Prop extends Partitioned s where
  wire_ge : ∀ {w a}, s.slotOf? w = some a → s.permanent ≤ w
  slot_ge : ∀ {w a}, s.slotOf? w = some a → s.permanent ≤ a
  used : ∀ a, s.permanent ≤ a → (s.isInUse a = true ↔ ∃ w, s.slotOf? w = some a)
  inj : ∀ {w v a}, s.slotOf? w = some a → s.slotOf? v = some a → w = v
  count : s.live + s.free.length + s.pending.length = s.peak

namespace Partitioned

variable {s : SlotPool}

theorem lt_peak_of_isInUse (h : s.Partitioned) {a : Nat} (hu : s.isInUse a = true) : a < s.peak := by
  by_contra hge
  have hout : s.inUse.size ≤ a := h.size ▸ Nat.le_of_not_lt hge
  rw [isInUse, Array.getD_eq_getD_getElem?, Array.getElem?_eq_none hout] at hu
  cases hu

theorem permanent_le_of_idle (h : s.Partitioned) {a : Nat} (ha : a ∈ s.free ++ s.pending) : s.permanent ≤ a := by
  by_contra hlow
  have hidle := (h.idle a ha).2
  rw [h.permanent_used a (Nat.lt_of_not_le hlow)] at hidle
  cases hidle

end Partitioned

namespace Sound

variable {s : SlotPool}

theorem isInUse_of_slot (h : s.Sound) {w a : Nat} (hw : s.slotOf? w = some a) : s.isInUse a = true :=
  (h.used a (h.slot_ge hw)).2 ⟨w, hw⟩

theorem not_available_of_slot (h : s.Sound) {w a : Nat} (hw : s.slotOf? w = some a) : ¬ s.Available a := by
  have hu := h.isInUse_of_slot hw
  rintro (hfree | hpeak)
  · have hidle := (h.idle a (List.mem_append_left _ hfree)).2
    rw [hu] at hidle
    cases hidle
  · exact absurd (h.lt_peak_of_isInUse hu) (Nat.not_lt.2 hpeak)

theorem not_available_of_address (h : s.Sound) {w a : Nat} (hw : s.addressOf w = .ok a) : ¬ s.Available a := by
  rcases addressOf_eq_ok_iff.1 hw with ⟨hperm, rfl⟩ | ⟨-, hslot⟩
  · have hpermanent := h.permanent_le
    rintro (hfree | hpeak)
    · have := h.permanent_le_of_idle (List.mem_append_left _ hfree)
      omega
    · omega
  · exact h.not_available_of_slot hslot

theorem lt_peak_of_address (h : s.Sound) {w a : Nat} (hw : s.addressOf w = .ok a) : a < s.peak := by
  by_contra hge
  exact h.not_available_of_address hw (.inr (Nat.le_of_not_lt hge))

theorem permanent_le_of_available (h : s.Sound) {a : Nat} (ha : s.Available a) : s.permanent ≤ a := by
  rcases ha with hfree | hpeak
  · exact h.permanent_le_of_idle (List.mem_append_left _ hfree)
  · exact h.permanent_le.trans hpeak

theorem peak_eq_occupied_add (h : s.Sound) : s.peak = s.occupied + s.free.length := by
  have := h.count
  rw [occupied]
  omega

theorem occupied_le_capacity (h : s.Sound) : s.occupied ≤ s.capacity := by
  have := h.peak_eq_occupied_add
  have := h.fits
  omega

end Sound

/-! ## Reading -/

/-- What reading a wire at address `a` changes. -/
structure Consumed (s : SlotPool) (wire a : Nat) (s' : SlotPool) : Prop where
  address : s.addressOf wire = .ok a
  bits : s'.bits = s.bits
  permanent : s'.permanent = s.permanent
  free : s'.free = s.free
  peak : s'.peak = s.peak
  occupied : s'.occupied = s.occupied
  slots : ∀ {v b}, s'.slotOf? v = some b → s.slotOf? v = some b
  credits : ∀ v, s'.creditsOf? v = if v = wire then (s.creditsOf? wire).bind spendCredit else s.creditsOf? v
  sound : s'.Sound

theorem isInUse_setInUse {s : SlotPool} {a : Nat} (used : Bool) (ha : a < s.inUse.size) (b : Nat) :
    (s.setInUse a used).isInUse b = if b = a then used else s.isInUse b := by
  show (s.inUse.setIfInBounds a used).getD b false = _
  rw [Array.getD_eq_getD_getElem?, Array.getElem?_setIfInBounds]
  by_cases hba : b = a
  · subst hba
    rw [if_pos rfl, if_pos rfl, if_pos ha, Option.getD_some]
  · rw [if_neg (Ne.symm hba), if_neg hba, isInUse, Array.getD_eq_getD_getElem?]

/-- New credits for the same slots. -/
theorem Sound.recredit {s : SlotPool} (h : s.Sound) {table : Std.TreeMap Nat Resident}
    (hslots : ∀ v, (table[v]?).map (·.address) = s.slotOf? v) (hsize : table.size = s.resident.size) :
    Sound { s with resident := table } where
  size := h.size
  permanent_le := h.permanent_le
  permanent_used := h.permanent_used
  idle := h.idle
  nodup := h.nodup
  cover := h.cover
  fits := h.fits
  wire_ge hw := h.wire_ge ((hslots _).symm.trans hw)
  slot_ge hw := h.slot_ge ((hslots _).symm.trans hw)
  used a ha := by
    refine (h.used a ha).trans (exists_congr fun w => ?_)
    rw [← hslots w]
    rfl
  inj hw hv := h.inj ((hslots _).symm.trans hw) ((hslots _).symm.trans hv)
  count := by
    show s.permanent + table.size + _ + _ = _
    rw [hsize]
    exact h.count

/-- The pool after the last read of a wire at address `a`. -/
def giveBack (s : SlotPool) (wire a : Nat) : SlotPool :=
  { ({ s with resident := s.resident.erase wire } : SlotPool).setInUse a false with
    pending := a :: s.pending
    frees := s.frees + 1 }

@[simp] theorem slotOf?_giveBack (s : SlotPool) (w a v : Nat) :
    (s.giveBack w a).slotOf? v = if v = w then none else s.slotOf? v := by
  show ((s.resident.erase w)[v]?).map _ = _
  rw [getElem?_erase_nat, slotOf?]
  split <;> rfl

theorem Partitioned.isInUse_giveBack {s : SlotPool} (h : s.Partitioned) {a : Nat} (hu : s.isInUse a = true) (w b : Nat) :
    (s.giveBack w a).isInUse b = if b = a then false else s.isInUse b :=
  isInUse_setInUse false (h.size ▸ h.lt_peak_of_isInUse hu) b

theorem Partitioned.giveBack {s : SlotPool} (h : s.Partitioned) {a : Nat} (ha : s.permanent ≤ a)
    (hu : s.isInUse a = true) (w : Nat) : (s.giveBack w a).Partitioned := by
  have hinUse := h.isInUse_giveBack hu w
  have hlist : ∀ b, b ∈ s.free ++ a :: s.pending ↔ b = a ∨ b ∈ s.free ++ s.pending := by
    intro b
    simp only [List.mem_append, List.mem_cons]
    tauto
  refine ⟨Array.size_setIfInBounds.trans h.size, h.permanent_le, fun b hb => ?permanent_used, fun b hb => ?idle, ?nodup,
    fun b hb hidle => ?cover, h.fits⟩
  case permanent_used =>
    replace hb : b < s.permanent := hb
    rw [hinUse, if_neg (by omega), h.permanent_used b hb]
  case idle =>
    rw [hinUse]
    rcases (hlist b).1 hb with rfl | hold
    · exact ⟨h.lt_peak_of_isInUse hu, if_pos rfl⟩
    · obtain ⟨hlt, hidle⟩ := h.idle b hold
      exact ⟨hlt, by rw [hidle, ite_self]⟩
  case nodup =>
    have hnew : a ∉ s.free ++ s.pending := by
      intro hmem
      rw [(h.idle a hmem).2] at hu
      cases hu
    show (s.free ++ a :: s.pending).Nodup
    rw [List.nodup_middle]
    exact List.nodup_cons.2 ⟨hnew, h.nodup⟩
  case cover =>
    rw [hinUse] at hidle
    refine (hlist b).2 ?_
    by_cases hba : b = a
    · exact .inl hba
    · rw [if_neg hba] at hidle
      exact .inr (h.cover b hb hidle)

theorem Sound.giveBack {s : SlotPool} (h : s.Sound) {w a : Nat} (hw : s.slotOf? w = some a) :
    (s.giveBack w a).Sound := by
  have ha := h.slot_ge hw
  have hu := h.isInUse_of_slot hw
  have hold : ∀ {v b}, (s.giveBack w a).slotOf? v = some b → v ≠ w ∧ s.slotOf? v = some b := by
    intro v b hv
    rw [slotOf?_giveBack] at hv
    split at hv
    · cases hv
    · exact ⟨‹_›, hv⟩
  obtain ⟨k, hr⟩ := resident_of_slot hw
  refine ⟨h.toPartitioned.giveBack ha hu w, fun hv => h.wire_ge (hold hv).2, fun hv => h.slot_ge (hold hv).2, ?used,
    fun hv hv' => h.inj (hold hv).2 (hold hv').2, ?count⟩
  case used =>
    intro b hb
    rw [h.isInUse_giveBack hu]
    by_cases hba : b = a
    · subst hba
      rw [if_pos rfl]
      refine ⟨fun hfalse => absurd hfalse Bool.false_ne_true, fun ⟨v, hv⟩ => ?_⟩
      exact absurd (h.inj (hold hv).2 hw) (hold hv).1
    · rw [if_neg hba, h.used b hb]
      refine exists_congr fun v => ?_
      rw [slotOf?_giveBack]
      by_cases hvw : v = w
      · subst hvw
        rw [if_pos rfl, hw]
        exact ⟨fun hv => absurd (Option.some.inj hv).symm hba, fun hv => by cases hv⟩
      · rw [if_neg hvw]
  case count =>
    have hcount := h.count
    have hsize := size_erase_of_some hr
    rw [live] at hcount
    show s.permanent + (s.resident.erase w).size + s.free.length + (s.pending.length + 1) = s.peak
    omega

theorem consume_of_permanent {s : SlotPool} {w : Nat} (hw : w < s.permanent) : consume w s = .ok w s := by
  unfold consume
  rw [if_pos hw]

theorem consume_of_missing {s : SlotPool} {w : Nat} (hw : s.permanent ≤ w) (hnone : s.slotOf? w = none) :
    consume w s = .error (.wireWithoutSlot w) s := by
  unfold consume
  rw [if_neg (by omega), Option.map_eq_none_iff.1 hnone]

theorem Sound.consumed_of_permanent {s : SlotPool} (h : s.Sound) {w : Nat} (hw : w < s.permanent) :
    Consumed s w w s where
  address := addressOf_eq_ok_iff.2 (.inl ⟨hw, rfl⟩)
  bits := rfl
  permanent := rfl
  free := rfl
  peak := rfl
  occupied := rfl
  slots hv := hv
  credits v := by
    by_cases hv : v = w
    · subst hv
      have hnone : s.creditsOf? v = none := by
        rw [← Option.not_isSome_iff_eq_none, ← isSome_slotOf?]
        intro hsome
        obtain ⟨a, ha⟩ := Option.isSome_iff_exists.1 hsome
        have := h.wire_ge ha
        omega
      rw [if_pos rfl, hnone, Option.bind_none]
    · rw [if_neg hv]
  sound := h

theorem Sound.consumed_of_neverFreed {s : SlotPool} (h : s.Sound) {w a k : Nat} (hr : s.resident[w]? = some ⟨a, k⟩)
    (haddress : s.addressOf w = .ok a) (hnever : neverFreed k = true) : Consumed s w a s := by
  have hcredits : s.creditsOf? w = some k := by rw [creditsOf?, hr]; rfl
  refine ⟨haddress, rfl, rfl, rfl, rfl, rfl, id, fun v => ?_, h⟩
  by_cases hv : v = w
  · subst hv
    rw [if_pos rfl, hcredits, Option.bind_some, spendCredit, if_pos hnever]
  · rw [if_neg hv]

theorem Sound.consumed_giveBack {s : SlotPool} (h : s.Sound) {w a : Nat} (hr : s.resident[w]? = some ⟨a, 1⟩)
    (haddress : s.addressOf w = .ok a) : Consumed s w a (s.giveBack w a) := by
  have hcredits : s.creditsOf? w = some 1 := by rw [creditsOf?, hr]; rfl
  have hslot : s.slotOf? w = some a := by rw [slotOf?, hr]; rfl
  refine ⟨haddress, rfl, rfl, rfl, rfl, ?_, fun {v b} hv => ?_, fun v => ?_, h.giveBack hslot⟩
  · have hsize := size_erase_of_some hr
    show s.permanent + (s.resident.erase w).size + (s.pending.length + 1) = s.permanent + s.resident.size + _
    omega
  · rw [slotOf?_giveBack] at hv
    split at hv
    · cases hv
    · exact hv
  · show ((s.resident.erase w)[v]?).map _ = _
    rw [getElem?_erase_nat]
    by_cases hv : v = w
    · rw [if_pos hv, if_pos hv, hcredits]
      rfl
    · rw [if_neg hv, if_neg hv]
      rfl

theorem Sound.consumed_of_more {s : SlotPool} (h : s.Sound) {w a k : Nat} (hr : s.resident[w]? = some ⟨a, k⟩)
    (haddress : s.addressOf w = .ok a) (hnever : ¬ neverFreed k = true) (hmore : k ≠ 1) :
    Consumed s w a { s with resident := s.resident.insert w ⟨a, k - 1⟩ } := by
  have hcredits : s.creditsOf? w = some k := by rw [creditsOf?, hr]; rfl
  have hslots : ∀ v, ((s.resident.insert w ⟨a, k - 1⟩)[v]?).map (·.address) = s.slotOf? v := by
    intro v
    rw [getElem?_insert_nat]
    by_cases hv : v = w
    · rw [if_pos hv, hv, slotOf?, hr]
      rfl
    · rw [if_neg hv]
      rfl
  have hsize := size_insert_of_some hr ⟨a, k - 1⟩
  refine ⟨haddress, rfl, rfl, rfl, rfl, ?_, fun {v b} hv => (hslots v).symm.trans hv, fun v => ?_,
    h.recredit hslots hsize⟩
  · show s.permanent + (s.resident.insert w _).size + _ = _
    rw [hsize]
    rfl
  · show ((s.resident.insert w _)[v]?).map _ = _
    rw [getElem?_insert_nat]
    by_cases hv : v = w
    · rw [if_pos hv, if_pos hv, hcredits, Option.bind_some, spendCredit, if_neg hnever, if_neg hmore]
      rfl
    · rw [if_neg hv, if_neg hv]
      rfl

/-- Reading a wire that holds a slot answers with the slot and spends a credit. -/
theorem Sound.consume_of_slot {s : SlotPool} (h : s.Sound) {w a : Nat} (hw : s.slotOf? w = some a) :
    ∃ s', consume w s = .ok a s' ∧ Consumed s w a s' := by
  obtain ⟨k, hr⟩ := resident_of_slot hw
  have hge := h.wire_ge hw
  have haddress : s.addressOf w = .ok a := addressOf_eq_ok_iff.2 (.inr ⟨hge, hw⟩)
  unfold consume
  rw [if_neg (by omega), hr]
  dsimp only
  by_cases hnever : neverFreed k = true
  · rw [if_pos hnever]
    exact ⟨s, rfl, h.consumed_of_neverFreed hr haddress hnever⟩
  rw [if_neg hnever]
  by_cases hlast : k = 1
  · subst hlast
    have hu := h.isInUse_of_slot hw
    have hlt := h.lt_peak_of_isInUse hu
    have hrelease : release a { s with resident := s.resident.erase w } = .ok () (s.giveBack w a) := by
      unfold release
      rw [if_neg (Nat.not_lt.2 (h.slot_ge hw)), if_neg]
      · rfl
      · show ¬ ((decide (a ≥ s.peak) || !s.isInUse a) = true)
        rw [hu]
        simpa using hlt
    rw [if_pos rfl, hrelease]
    exact ⟨_, rfl, h.consumed_giveBack hr haddress⟩
  · rw [if_neg hlast]
    exact ⟨_, rfl, h.consumed_of_more hr haddress hnever hlast⟩

/-- **All that reading a wire can do.** -/
theorem Sound.consume_cases {s : SlotPool} (h : s.Sound) (w : Nat) :
    (∃ a s', consume w s = .ok a s' ∧ Consumed s w a s') ∨
    (s.permanent ≤ w ∧ s.slotOf? w = none ∧ consume w s = .error (.wireWithoutSlot w) s) := by
  rcases Nat.lt_or_ge w s.permanent with hperm | hperm
  · exact .inl ⟨w, s, consume_of_permanent hperm, h.consumed_of_permanent hperm⟩
  · cases hslot : s.slotOf? w with
    | none => exact .inr ⟨hperm, rfl, consume_of_missing hperm hslot⟩
    | some a =>
      obtain ⟨s', hok, hs'⟩ := h.consume_of_slot hslot
      exact .inl ⟨a, s', hok, hs'⟩

theorem Sound.consumed {s s' : SlotPool} (h : s.Sound) {w a : Nat} (hok : consume w s = .ok a s') :
    Consumed s w a s' := by
  rcases h.consume_cases w with ⟨_, _, hok', hs'⟩ | ⟨-, -, herror⟩
  · rw [hok] at hok'
    cases hok'
    exact hs'
  · rw [hok] at herror
    cases herror

/-! ## Handing out -/

/-- What taking slot `a` changes. It comes off the free list, or else from
beyond the peak. -/
structure Taken (s : SlotPool) (a : Nat) (s' : SlotPool) : Prop where
  bits : s'.bits = s.bits
  permanent : s'.permanent = s.permanent
  pending : s'.pending = s.pending
  resident : s'.resident = s.resident
  size : s'.inUse.size = s'.peak
  inUse : ∀ b, s'.isInUse b = if b = a then true else s.isInUse b
  source : (s.free = a :: s'.free ∧ s'.peak = s.peak) ∨
    (s.free = [] ∧ s'.free = [] ∧ a = s.peak ∧ s'.peak = s.peak + 1 ∧ s.peak < s.capacity)

theorem Partitioned.takeSlot_cases {s : SlotPool} (h : s.Partitioned) :
    (∃ a s', takeSlot s = .ok a s' ∧ Taken s a s') ∨
    (s.free = [] ∧ s.peak = s.capacity ∧ takeSlot s = .error (.slotsExhausted s.capacity s.bits) s) := by
  unfold takeSlot
  cases hfree : s.free with
  | cons a rest =>
    have hlt := (h.idle a (by simp [hfree])).1
    refine .inl ⟨a, _, rfl, rfl, rfl, rfl, rfl, Array.size_setIfInBounds.trans h.size, fun b => ?_, .inl ⟨hfree, rfl⟩⟩
    exact isInUse_setInUse (s := { s with free := rest }) true (h.size ▸ hlt) b
  | nil =>
    dsimp only
    by_cases hfull : s.peak = s.capacity
    · rw [if_pos hfull]
      exact .inr ⟨rfl, hfull, rfl⟩
    · rw [if_neg hfull]
      have hfits := h.fits
      refine .inl ⟨s.peak, _, rfl, rfl, rfl, rfl, rfl, ?_, fun b => ?_, .inr ⟨hfree, rfl, rfl, rfl, by omega⟩⟩
      · exact (Array.size_push ..).trans (congrArg (· + 1) h.size)
      · show (s.inUse.push true).getD b false = _
        rw [isInUse, Array.getD_eq_getD_getElem?, Array.getD_eq_getD_getElem?, Array.getElem?_push, h.size]
        split <;> rfl

namespace Taken

variable {s s' : SlotPool} {a : Nat}

theorem available (h : Taken s a s') : s.Available a := by
  rcases h.source with ⟨hfree, -⟩ | ⟨-, -, rfl, -⟩
  · exact .inl (by rw [hfree]; exact List.mem_cons_self ..)
  · exact .inr le_rfl

theorem available_iff (h : Taken s a s') (hs : s.Partitioned) (b : Nat) :
    s'.Available b ↔ s.Available b ∧ b ≠ a := by
  unfold Available
  rcases h.source with ⟨hfree, hpeak⟩ | ⟨hfree, hfree', rfl, hpeak, -⟩
  · have hnodup := hs.nodup
    rw [hfree, List.cons_append, List.nodup_cons, List.mem_append, not_or] at hnodup
    have hlt := (hs.idle a (by simp [hfree])).1
    rw [hfree, hpeak, List.mem_cons]
    constructor
    · intro h
      rcases h with hb | hb
      · exact ⟨.inl (.inr hb), fun hba => hnodup.1.1 (hba ▸ hb)⟩
      · exact ⟨.inr hb, by omega⟩
    · rintro ⟨(hb | hb) | hb, hne⟩
      · exact absurd hb hne
      · exact .inl hb
      · exact .inr hb
  · rw [hfree, hfree', hpeak]
    simp only [List.not_mem_nil, false_or]
    omega

theorem lt_peak (h : Taken s a s') (hs : s.Partitioned) : a < s'.peak := by
  rcases h.source with ⟨hfree, hpeak⟩ | ⟨-, -, rfl, hpeak, -⟩
  · rw [hpeak]; exact (hs.idle a (by simp [hfree])).1
  · omega

theorem le_peak (h : Taken s a s') (hs : s.Partitioned) : a ≤ s.peak := by
  rcases h.source with ⟨hfree, -⟩ | ⟨-, -, rfl, -⟩
  · exact (hs.idle a (by simp [hfree])).1.le
  · exact le_rfl

theorem peak_eq_max (h : Taken s a s') (hs : s.Partitioned) : s'.peak = max s.peak (a + 1) := by
  have hlt := h.lt_peak hs
  rcases h.source with ⟨-, hpeak⟩ | ⟨-, -, rfl, hpeak, -⟩ <;> omega

theorem mem_idle_iff (h : Taken s a s') (hs : s.Partitioned) (b : Nat) :
    b ∈ s'.free ++ s'.pending ↔ b ∈ s.free ++ s.pending ∧ b ≠ a := by
  rw [h.pending]
  rcases h.source with ⟨hfree, -⟩ | ⟨hfree, hfree', rfl, -⟩
  · have hnodup := hs.nodup
    rw [hfree, List.cons_append, List.nodup_cons] at hnodup
    rw [hfree, List.cons_append, List.mem_cons]
    constructor
    · intro hb
      exact ⟨.inr hb, fun hba => hnodup.1 (hba ▸ hb)⟩
    · intro hb
      exact hb.1.resolve_left hb.2
  · have hbelow : ∀ b ∈ s.free ++ s.pending, b ≠ s.peak := fun b hb => (hs.idle b hb).1.ne
    rw [hfree] at hbelow ⊢
    rw [hfree']
    exact (and_iff_left_of_imp (hbelow b)).symm

theorem partitioned (h : Taken s a s') (hs : s.Partitioned) : s'.Partitioned where
  size := h.size
  permanent_le := by
    rw [h.permanent, h.peak_eq_max hs]
    exact hs.permanent_le.trans (le_max_left ..)
  permanent_used b hb := by
    rw [h.permanent] at hb
    rw [h.inUse, hs.permanent_used b hb, ite_self]
  idle b hb := by
    obtain ⟨hold, hne⟩ := (h.mem_idle_iff hs b).1 hb
    obtain ⟨hlt, hidle⟩ := hs.idle b hold
    rw [h.inUse, if_neg hne, h.peak_eq_max hs]
    exact ⟨by omega, hidle⟩
  nodup := by
    have hnodup := hs.nodup
    rw [h.pending]
    rcases h.source with ⟨hfree, -⟩ | ⟨hfree, hfree', -⟩
    · rw [hfree, List.cons_append, List.nodup_cons] at hnodup
      exact hnodup.2
    · rwa [hfree', ← hfree]
  cover b hlt hidle := by
    rw [h.inUse] at hidle
    have hne : b ≠ a := by
      intro hba
      rw [if_pos hba] at hidle
      cases hidle
    rw [if_neg hne] at hidle
    have hle := h.le_peak hs
    rw [h.peak_eq_max hs] at hlt
    exact (h.mem_idle_iff hs b).2 ⟨hs.cover b (by omega) hidle, hne⟩
  fits := by
    show s'.peak ≤ addressSpace s'.bits
    rw [h.bits]
    rcases h.source with ⟨-, hpeak⟩ | ⟨-, -, -, hpeak, hlt⟩
    · rw [hpeak]
      exact hs.fits
    · rw [hpeak]
      exact hlt

theorem count (h : Taken s a s') (hs : s.Sound) : s.live + 1 + s'.free.length + s'.pending.length = s'.peak := by
  have hcount := hs.count
  rw [h.pending]
  rcases h.source with ⟨hfree, hpeak⟩ | ⟨hfree, hfree', -, hpeak, -⟩
  · rw [hfree, List.length_cons] at hcount
    omega
  · rw [hfree, List.length_nil] at hcount
    rw [hfree', List.length_nil]
    omega

end Taken

/-- What giving slot `a` to a wire changes. -/
structure Allocated (s : SlotPool) (wire credits a : Nat) (s' : SlotPool) : Prop where
  wire_ge : s.permanent ≤ wire
  unheld : s.slotOf? wire = none
  available : s.Available a
  available_iff : ∀ b, s'.Available b ↔ s.Available b ∧ b ≠ a
  bits : s'.bits = s.bits
  permanent : s'.permanent = s.permanent
  pending : s'.pending = s.pending
  le_peak : a ≤ s.peak
  peak_eq_max : s'.peak = max s.peak (a + 1)
  occupied : s'.occupied = s.occupied + 1
  peak_eq : s'.peak = max s.peak s'.occupied
  slots : ∀ v, s'.slotOf? v = if v = wire then some a else s.slotOf? v
  credits : ∀ v, s'.creditsOf? v = if v = wire then some credits else s.creditsOf? v
  sound : s'.Sound

/-- A taken slot is given to a wire that holds none. -/
theorem Sound.give {s s' : SlotPool} (h : s.Sound) {w a : Nat} (hw : s.permanent ≤ w)
    (hnone : s.slotOf? w = none) (ht : Taken s a s') (credits : Nat) :
    Sound { s' with resident := s'.resident.insert w ⟨a, credits⟩ } := by
  have hpart := ht.partitioned h.toPartitioned
  have ha := h.permanent_le_of_available ht.available
  have hslots : ∀ v, slotOf? { s' with resident := s'.resident.insert w ⟨a, credits⟩ } v =
      if v = w then some a else s.slotOf? v := by
    intro v
    show ((s'.resident.insert w _)[v]?).map _ = _
    rw [getElem?_insert_nat, ht.resident, slotOf?]
    split <;> rfl
  -- no wire held the slot before, because it could be handed out
  have hother : ∀ {v}, s.slotOf? v = some a → False :=
    fun hv => h.not_available_of_slot hv ht.available
  refine ⟨⟨hpart.size, hpart.permanent_le, hpart.permanent_used, hpart.idle, hpart.nodup, hpart.cover, hpart.fits⟩, ?wire_ge,
    ?slot_ge, ?used, ?inj, ?count⟩
  case wire_ge =>
    intro v b hv
    show s'.permanent ≤ v
    rw [hslots] at hv
    rw [ht.permanent]
    split at hv
    · rename_i hvw; rw [hvw]; exact hw
    · exact h.wire_ge hv
  case slot_ge =>
    intro v b hv
    show s'.permanent ≤ b
    rw [hslots] at hv
    rw [ht.permanent]
    split at hv
    · cases hv; exact ha
    · exact h.slot_ge hv
  case used =>
    intro b hb
    replace hb : s.permanent ≤ b := ht.permanent ▸ hb
    show s'.isInUse b = true ↔ _
    rw [ht.inUse b]
    by_cases hba : b = a
    · subst hba
      exact ⟨fun _ => ⟨w, by rw [hslots, if_pos rfl]⟩, fun _ => if_pos rfl⟩
    · rw [if_neg hba, h.used b hb]
      refine exists_congr fun v => ?_
      rw [hslots]
      by_cases hvw : v = w
      · subst hvw
        rw [if_pos rfl, hnone]
        exact ⟨fun hv => (by cases hv), fun hv => absurd (Option.some.inj hv).symm hba⟩
      · rw [if_neg hvw]
  case inj =>
    intro v v' b hv hv'
    rw [hslots] at hv hv'
    split at hv
    · rename_i hvw
      cases hv
      split at hv'
      · rename_i hvw'; rw [hvw, hvw']
      · exact (hother hv').elim
    · split at hv'
      · cases hv'; exact (hother hv).elim
      · exact h.inj hv hv'
  case count =>
    have hsize := size_insert_of_none (Option.map_eq_none_iff.1 hnone) ⟨a, credits⟩
    show s'.permanent + (s'.resident.insert w _).size + s'.free.length + s'.pending.length = s'.peak
    rw [ht.permanent, ht.resident, hsize]
    exact ht.count h

theorem allocate_eq (s : SlotPool) (w credits : Nat) :
    allocate w credits s =
      if decide (w < s.permanent) || s.resident.contains w then .error (.wireHasSlot w) s
      else (takeSlot >>= fun slot => do
        modify fun s => { s with resident := s.resident.insert w ⟨slot, credits⟩ }
        return slot) s := by
  unfold allocate
  rw [Action.get_bind]
  dsimp only
  split <;> rfl

/-- **All that giving a slot to a wire can do.** It fails when the wire has a
slot, and when every slot is occupied. -/
theorem Sound.allocate_cases {s : SlotPool} (h : s.Sound) (w credits : Nat) :
    (∃ a s', allocate w credits s = .ok a s' ∧ Allocated s w credits a s' ∧ s.occupied < s.capacity) ∨
    ((w < s.permanent ∨ (s.slotOf? w).isSome = true) ∧ allocate w credits s = .error (.wireHasSlot w) s) ∨
    (s.occupied = s.capacity ∧ allocate w credits s = .error (.slotsExhausted s.capacity s.bits) s) := by
  have hheld : (decide (w < s.permanent) || s.resident.contains w) = true ↔
      w < s.permanent ∨ (s.slotOf? w).isSome = true := by
    rw [Bool.or_eq_true, decide_eq_true_eq, Std.TreeMap.contains_eq_isSome_getElem?, slotOf?, Option.isSome_map]
  rw [allocate_eq]
  by_cases hw : w < s.permanent ∨ (s.slotOf? w).isSome = true
  · rw [if_pos (hheld.2 hw)]
    exact .inr (.inl ⟨hw, rfl⟩)
  rw [if_neg (fun hc => hw (hheld.1 hc))]
  rw [not_or, Nat.not_lt, Option.not_isSome_iff_eq_none] at hw
  obtain ⟨hge, hnone⟩ := hw
  have hocc := h.peak_eq_occupied_add
  rcases h.takeSlot_cases with ⟨a, s', hok, ht⟩ | ⟨hfree, hfull, herror⟩
  · have hsize := size_insert_of_none (Option.map_eq_none_iff.1 hnone) ⟨a, credits⟩
    have hoccupied : occupied { s' with resident := s'.resident.insert w ⟨a, credits⟩ } = s.occupied + 1 := by
      show s'.permanent + (s'.resident.insert w _).size + s'.pending.length = s.permanent + s.resident.size + _ + 1
      rw [ht.permanent, ht.resident, ht.pending, hsize]
      omega
    rw [Action.bind_of_ok hok]
    refine .inl ⟨a, _, rfl, ⟨hge, hnone, ht.available, ht.available_iff h.toPartitioned, ht.bits, ht.permanent,
      ht.pending, ?_, ht.peak_eq_max h.toPartitioned, hoccupied, ?_, fun v => ?_, fun v => ?_,
      h.give hge hnone ht credits⟩, ?_⟩
    · exact ht.le_peak h.toPartitioned
    · rw [hoccupied]
      show s'.peak = _
      rcases ht.source with ⟨hfree, hpeak⟩ | ⟨hfree, -, -, hpeak, -⟩
      · rw [hfree, List.length_cons] at hocc
        omega
      · rw [hfree, List.length_nil] at hocc
        omega
    · show ((s'.resident.insert w _)[v]?).map _ = _
      rw [getElem?_insert_nat, ht.resident, slotOf?]
      split <;> rfl
    · show ((s'.resident.insert w _)[v]?).map _ = _
      rw [getElem?_insert_nat, ht.resident, creditsOf?]
      split <;> rfl
    · rcases ht.source with ⟨hfree, -⟩ | ⟨-, -, -, -, hlt⟩
      · have hfits := h.fits
        rw [hfree, List.length_cons] at hocc
        omega
      · omega
  · rw [hfree, List.length_nil, Nat.add_zero] at hocc
    exact .inr (.inr ⟨by omega, Action.bind_of_error herror⟩)

theorem Sound.allocated {s s' : SlotPool} (h : s.Sound) {w credits a : Nat}
    (hok : allocate w credits s = .ok a s') : Allocated s w credits a s' := by
  rcases h.allocate_cases w credits with ⟨_, _, hok', hs', -⟩ | ⟨-, herror⟩ | ⟨-, herror⟩
  · rw [hok] at hok'
    cases hok'
    exact hs'
  · rw [hok] at herror
    cases herror
  · rw [hok] at herror
    cases herror

/-! ## Ending a level -/

theorem Partitioned.endLevel {s : SlotPool} (h : s.Partitioned) : s.endLevel.Partitioned := by
  have hmem : ∀ b, b ∈ s.endLevel.free ++ s.endLevel.pending ↔ b ∈ s.free ++ s.pending := by
    intro b
    show b ∈ (s.pending ++ s.free) ++ [] ↔ _
    rw [List.append_nil, List.mem_append, List.mem_append, or_comm]
  refine ⟨h.size, h.permanent_le, h.permanent_used, fun b hb => h.idle b ((hmem b).1 hb), ?_,
    fun b hlt hidle => (hmem b).2 (h.cover b hlt hidle), h.fits⟩
  show ((s.pending ++ s.free) ++ []).Nodup
  rw [List.append_nil]
  exact List.nodup_append_comm.1 h.nodup

theorem Sound.endLevel {s : SlotPool} (h : s.Sound) : s.endLevel.Sound := by
  refine ⟨h.toPartitioned.endLevel, h.wire_ge, h.slot_ge, h.used, h.inj, ?_⟩
  show s.live + (s.pending ++ s.free).length + 0 = s.peak
  have hcount := h.count
  rw [List.length_append]
  omega

end GatePlan.SlotPool
