/-
What a sink fails with. The sinks keep what they are told, or encode it, or write
it to files. They fail when a number is too large for its code, when levels come
out of order, and when a file cannot be created; but none of them blames the
circuit, its credits or its slots (`PlanSink.Honest`), which is for the compiler
to do. A location that does not lie below its gate would look like a circuit out
of order (`Fault.locationAhead`); a compiler tells no sink of one.
-/
import GatePlan.PlanFile
import GatePlan.Proofs.Reference

namespace GatePlan

/-! ## Faults of a circuit -/

namespace Fault

/-- The fault lies in the structure of a circuit or in its credits. -/
def OfCircuit (fault : Fault) : Prop :=
  fault.kind ∈ [FaultKind.forwardReference, .invalidCircuit, .creditUnderflow, .creditOverflow]

/-- A level or an output has no slots. -/
def OfSlots (fault : Fault) : Prop := fault.kind ∈ [FaultKind.addressOverflow, .unknownWire]

/-- The fault is not for the compiler to find. -/
def Foreign (fault : Fault) : Prop := ¬ fault.OfCircuit ∧ ¬ fault.OfSlots

theorem foreign_of_kind {fault : Fault} {k : FaultKind} (h : fault.kind = k)
    (hkind : k ∉ [FaultKind.forwardReference, .invalidCircuit, .creditUnderflow, .creditOverflow] ∧
      k ∉ [FaultKind.addressOverflow, .unknownWire]) : fault.Foreign := by
  rwa [Foreign, OfCircuit, OfSlots, h]

end Fault

/-! ## Steps with foreign faults -/

/-- What the computation fails with is not for the compiler to find. -/
def ForeignFaults {α : Type} (x : Except Fault α) : Prop := ∀ fault, x = .error fault → fault.Foreign

namespace ForeignFaults

variable {α β : Type}

theorem ok (a : α) : ForeignFaults (.ok a) := fun _ h => by cases h

theorem bind {x : Except Fault α} (h : ForeignFaults x) {next : α → Except Fault β} (hnext : ∀ a, ForeignFaults (next a)) :
    ForeignFaults (x >>= next) := by
  cases x with
  | ok a => exact hnext a
  | error fault =>
    intro fault' herror
    cases herror
    exact h fault rfl

end ForeignFaults

/-- What the step fails with is not for the compiler to find. -/
def Action.Foreign {σ α : Type} (step : Action σ α) : Prop :=
  ∀ s fault t, step s = .error fault t → fault.Foreign

namespace Action.Foreign

variable {σ τ α β : Type}

theorem of_ok {step : Action σ α} (h : ∀ s, ∃ a t, step s = .ok a t) : step.Foreign := by
  intro s fault t herror
  obtain ⟨a, r, hok⟩ := h s
  cases hok.symm.trans herror

theorem throw {fault : Fault} (h : fault.Foreign) : (MonadExcept.throw fault : Action σ α).Foreign := by
  intro s fault' t herror
  cases herror
  exact h

theorem check {x : Except Fault α} (h : ForeignFaults x) : (Action.ofExcept x : Action σ α).Foreign := by
  cases x with
  | ok a => exact of_ok fun s => ⟨a, s, rfl⟩
  | error fault => exact throw (h fault rfl)

theorem bind {step : Action σ α} (h : step.Foreign) {next : α → Action σ β} (hnext : ∀ a, (next a).Foreign) :
    (step >>= next).Foreign := by
  intro s fault t herror
  rcases Action.bind_eq_error_iff.1 herror with hs | ⟨a, r, -, ht⟩
  · exact h s fault t hs
  · exact hnext a r fault t ht

theorem within [Inhabited σ] {part : τ → σ} {put : σ → τ → τ} {step : Action σ α} (h : step.Foreign) :
    (Action.within part put step).Foreign := by
  intro s fault t herror
  unfold Action.within at herror
  dsimp only at herror
  cases hstep : step (part s) with
  | ok a r =>
    rw [hstep] at herror
    cases herror
  | error fault' r =>
    rw [hstep] at herror
    cases herror
    exact h _ _ _ hstep

theorem forM {step : α → Action σ Unit} {xs : List α} (h : ∀ x ∈ xs, (step x).Foreign) : (xs.forM step).Foreign := by
  induction xs with
  | nil => exact of_ok fun s => ⟨(), s, rfl⟩
  | cons x xs ih => exact (h x (List.mem_cons_self ..)).bind fun _ => ih fun y hy => h y (List.mem_cons_of_mem _ hy)

theorem ite {p : Prop} [Decidable p] {fault : Fault} {step : Action σ α} (hfault : fault.Foreign)
    (h : ¬ p → step.Foreign) : (if p then MonadExcept.throw fault else step : Action σ α).Foreign := by
  split
  · exact throw hfault
  · rename_i hp
    exact h hp

end Action.Foreign

/-! ## Codes -/

namespace Varint

theorem foreign_flaggedSize (value : Nat) : ForeignFaults (flaggedSize value) := by
  unfold flaggedSize
  split
  · intro fault h
    cases h
    exact Fault.foreign_of_kind (k := .varintOverflow) rfl (by decide)
  · exact .ok _

theorem foreign_plainSize (value : Nat) : ForeignFaults (plainSize value) := by
  unfold plainSize
  split
  · intro fault h
    cases h
    exact Fault.foreign_of_kind (k := .varintOverflow) rfl (by decide)
  · exact .ok _

theorem foreign_writePlain (value : Nat) : (writePlain value).Foreign :=
  (Action.Foreign.check (foreign_plainSize value)).bind fun _ => .of_ok fun _ => ⟨_, _, rfl⟩

theorem foreign_writeFlagged (value : Nat) (flag : Bool) : (writeFlagged value flag).Foreign :=
  (Action.Foreign.check (foreign_flaggedSize value)).bind fun _ => .of_ok fun _ => ⟨_, _, rfl⟩

end Varint

namespace Reference

open Varint

theorem foreign_ofWire (value counter : Nat) : ForeignFaults (ofWire value counter) := by
  unfold ofWire
  split
  · exact (foreign_flaggedSize _).bind fun _ => .ok _
  · dsimp only
    split
    · exact (foreign_flaggedSize _).bind fun _ => .ok _
    · exact (foreign_flaggedSize _).bind fun _ => (foreign_flaggedSize _).bind fun _ => .ok _

theorem foreign_writeWire (value counter : Nat) : (writeWire value counter).Foreign :=
  (Action.Foreign.check (foreign_ofWire value counter)).bind fun _ => foreign_writeFlagged _ _

theorem foreign_ofLevel (level current : Nat) : ForeignFaults (ofLevel level current) :=
  (foreign_flaggedSize _).bind fun _ => (foreign_flaggedSize _).bind fun _ => .ok _

theorem foreign_writeLocation {loc : Location} {current : Nat} (hbelow : loc.level < current) :
    (writeLocation loc current).Foreign := by
  have hcheck : checkBelow loc current = .ok () := if_neg (Nat.not_le.2 hbelow)
  unfold writeLocation
  rw [hcheck]
  refine (Action.Foreign.check (.ok ())).bind fun _ => ?_
  split
  · exact foreign_writeFlagged _ _
  · exact (foreign_writeFlagged _ _).bind fun _ => (Action.Foreign.check (foreign_ofLevel _ _)).bind fun _ =>
      (foreign_writeFlagged _ _).bind fun _ => foreign_writePlain _

end Reference

theorem LevelHeader.foreign_write (h : LevelHeader) : h.write.Foreign := by
  refine (Varint.foreign_writeFlagged _ _).bind fun _ => ?_
  split
  · exact Varint.foreign_writePlain _
  · exact .of_ok fun _ => ⟨_, _, rfl⟩

/-! ## Streams -/

/-- The gates of a level read from below it. -/
def Level.ReadsBelow (l : LeveledLevel) : Prop := ∀ g ∈ l.gates, g.input1.level < l.id ∧ g.input2.level < l.id

theorem LevelEncoder.foreign_encode {l : LeveledLevel} (hbelow : l.ReadsBelow) : (encode l).Foreign := by
  have hrecord : (writeRecord l).Foreign :=
    (LevelHeader.foreign_write _).bind fun _ => .forM fun g hg =>
      (Reference.foreign_writeLocation (hbelow g hg).1).bind fun _ => Reference.foreign_writeLocation (hbelow g hg).2
  refine Action.Foreign.bind (.of_ok fun s => ⟨s, s, rfl⟩) fun s => ?_
  refine .ite (Fault.foreign_of_kind (k := .state) rfl (by decide)) fun _ => ?_
  refine .ite (Fault.foreign_of_kind (k := .state) rfl (by decide)) fun _ => ?_
  exact hrecord.within.bind fun _ => .of_ok fun _ => ⟨_, _, rfl⟩

theorem AddressEncoder.foreign_encode (l : AllocatedLevel) : (encode l).Foreign := by
  have hgate : ∀ g previous, (writeGate g previous).Foreign := fun g previous =>
    (Reference.foreign_writeWire _ _).bind fun _ => (Reference.foreign_writeWire _ _).bind fun _ =>
      Reference.foreign_writeWire _ _
  refine Action.Foreign.bind (Action.Foreign.within (LevelHeader.foreign_write _)) fun _ => .forM fun g _ => ?_
  refine Action.Foreign.bind (.of_ok fun s => ⟨s, s, rfl⟩) fun s => ?_
  exact (hgate g _).within.bind fun _ => .of_ok fun _ => ⟨_, _, rfl⟩

/-! ## Sinks -/

/-- A sink that blames neither the circuit nor its slots, if the gates of every
level read from below. -/
class PlanSink.Honest (σ : Type) [PlanSink σ] : Prop where
  level : ∀ (l : LeveledLevel) (al : AllocatedLevel), l.ReadsBelow → (PlanSink.level l al : Action σ Unit).Foreign
  finish : ∀ (slots : Nat) (outputs : List Nat), (PlanSink.finish slots outputs : Action σ Unit).Foreign

instance : PlanSink.Honest PlanRecord where
  level _ _ _ := .of_ok fun _ => ⟨_, _, rfl⟩
  finish _ _ := .of_ok fun _ => ⟨_, _, rfl⟩

theorem StreamPair.foreign_level {l : LeveledLevel} (al : AllocatedLevel) (hbelow : l.ReadsBelow) :
    (StreamPair.level l al).Foreign :=
  (LevelEncoder.foreign_encode hbelow).within.bind fun _ => (AddressEncoder.foreign_encode al).within

instance : PlanSink.Honest StreamPair where
  level _ al hbelow := StreamPair.foreign_level al hbelow
  finish _ _ := .of_ok fun _ => ⟨_, _, rfl⟩

namespace PlanFile

theorem foreign_written {step : Writer Unit} (h : step.Foreign) : ForeignFaults (written step) := by
  intro fault herror
  unfold written at herror
  split at herror
  · cases herror
  · rename_i fault' out hstep
    cases herror
    exact h _ _ _ hstep

theorem foreign_writeAddressHeader (inputs slots : Nat) (outputs : List Nat) :
    (writeAddressHeader inputs slots outputs).Foreign :=
  (Varint.foreign_writePlain _).bind fun _ => (Varint.foreign_writePlain _).bind fun _ =>
    (Varint.foreign_writePlain _).bind fun _ => .forM fun _ _ => Varint.foreign_writePlain _

end PlanFile

theorem Folder.foreign_create (path : String) (bytes : Bytes) : (create path bytes).Foreign := by
  intro f fault t herror
  unfold create at herror
  split at herror
  · cases herror
    exact Fault.foreign_of_kind (k := .fileUnavailable) rfl (by decide)
  · cases herror

instance : PlanSink.Honest PlanFiles where
  level l al hbelow := by
    change (PlanFiles.onStreams (StreamPair.level l al)).Foreign
    exact (StreamPair.foreign_level al hbelow).within
  finish slots outputs := by
    have hstreams : (StreamPair.finish slots outputs).Foreign := .of_ok fun _ => ⟨_, _, rfl⟩
    have hsizes : ∀ f : PlanFiles → PlanFiles, (modify f : Action PlanFiles Unit).Foreign := fun f =>
      .of_ok fun s => ⟨(), f s, rfl⟩
    change (PlanFiles.finish slots outputs).Foreign
    refine Action.Foreign.bind hstreams.within fun _ => Action.Foreign.bind (.of_ok fun s => ⟨s, s, rfl⟩) fun s => ?_
    refine (Action.Foreign.check (PlanFile.foreign_written (Varint.foreign_writePlain _))).bind fun _ => ?_
    refine (Folder.foreign_create _ _).within.bind fun _ => (hsizes _).bind fun _ => ?_
    refine (Action.Foreign.check (PlanFile.foreign_written (PlanFile.foreign_writeAddressHeader _ _ _))).bind fun _ => ?_
    exact (Folder.foreign_create _ _).within.bind fun _ => hsizes _

end GatePlan
