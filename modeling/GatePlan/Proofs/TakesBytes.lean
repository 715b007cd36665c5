/-
Readers of bytes that nobody wrote. A reader takes some bytes or fails, and it
fails only because the bytes run out or are not what is written (`TakesBytes`).
This carries over to readers made of readers, so it is said once of a varint and
then holds, with the number of bytes it takes at least, of references, locations
and headers.
-/
import GatePlan.Reference
import GatePlan.Proofs.Varint

namespace GatePlan

/-! ## Readers -/

/-- The bytes ran out, or they are not what is written. -/
def Fault.OfBytes (fault : Fault) : Prop := fault.kind = .truncated ∨ fault.kind = .malformed

variable {σ τ α β : Type}

/-- A step that takes at least `least` of what its state has left, and when it
fails, fails for its bytes only and gives none back. -/
structure TakesBytes (left : σ → Nat) (least : Nat) (step : Action σ α) : Prop where
  takes : ∀ {s a t}, step s = .ok a t → left t + least ≤ left s
  fails : ∀ {s fault t}, step s = .error fault t → left t ≤ left s ∧ fault.OfBytes

namespace TakesBytes

variable {left : σ → Nat} {m n : Nat} {step : Action σ α} {next : α → Action σ β}

theorem pure (a : α) : TakesBytes left 0 (Pure.pure a : Action σ α) where
  takes h := by
    cases h
    exact le_rfl
  fails h := by cases h

theorem throw {fault : Fault} (h : fault.OfBytes) : TakesBytes left m (MonadExcept.throw fault : Action σ α) where
  takes h := by cases h
  fails h' := by
    cases h'
    exact ⟨le_rfl, h⟩

theorem check {x : Except Fault α} (h : ∀ fault, x = .error fault → fault.OfBytes) :
    TakesBytes left 0 (Action.ofExcept x) := by
  cases x with
  | ok a => exact pure a
  | error fault => exact throw (h fault rfl)

theorem bind (h : TakesBytes left m step) (hnext : ∀ a, TakesBytes left n (next a)) :
    TakesBytes left (m + n) (step >>= next) where
  takes hok := by
    obtain ⟨a, r, hs, ht⟩ := Action.bind_eq_ok_iff.1 hok
    have h1 := h.takes hs
    have h2 := (hnext a).takes ht
    omega
  fails herror := by
    rcases Action.bind_eq_error_iff.1 herror with hs | ⟨a, r, hs, ht⟩
    · exact h.fails hs
    · obtain ⟨hle, hfault⟩ := (hnext a).fails ht
      have hless := h.takes hs
      exact ⟨by omega, hfault⟩

theorem mono (h : TakesBytes left m step) (hle : n ≤ m) : TakesBytes left n step where
  takes hok := (Nat.add_le_add_left hle _).trans (h.takes hok)
  fails := h.fails

theorem get : TakesBytes left 0 (MonadState.get : Action σ σ) where
  takes h := by
    cases h
    exact le_rfl
  fails h := by cases h

theorem modify {f : σ → σ} (h : ∀ s, left (f s) = left s) : TakesBytes left 0 (modify f : Action σ Unit) where
  takes h' := by
    cases h'
    exact (h _).le
  fails h' := by cases h'

theorem ite {p : Prop} [Decidable p] {step' : Action σ α} (h : TakesBytes left m step)
    (h' : TakesBytes left m step') : TakesBytes left m (if p then step else step') := by
  split
  · exact h
  · exact h'

theorem unlessRefused {p : Prop} [Decidable p] {fault : Fault} {after : PUnit → Action σ β} (h : fault.OfBytes)
    (hafter : TakesBytes left m (after ⟨⟩)) :
    TakesBytes left m (if p then (MonadExcept.throw fault : Action σ PUnit) >>= after else after ⟨⟩) := by
  split
  · exact ((throw (m := m) h).bind (n := 0) fun _ => hafter.mono (Nat.zero_le m))
  · exact hafter

theorem times (h : TakesBytes left m step) (n : Nat) : TakesBytes left (n * m) (Action.times step n) := by
  induction n with
  | zero =>
    rw [Nat.zero_mul]
    exact pure []
  | succ n ih =>
    rw [Action.times_succ, Nat.add_mul, Nat.one_mul, Nat.add_comm]
    exact h.bind fun a => ih.bind fun rest => pure (a :: rest)

theorem within [Inhabited σ] {part : τ → σ} {put : σ → τ → τ} {left' : τ → Nat} (h : TakesBytes left m step)
    (hbefore : ∀ w, left' w = left (part w)) (hafter : ∀ s w, left' (put s w) = left s) :
    TakesBytes left' m (Action.within part put step) where
  takes {w a v} hok := by
    obtain ⟨s, hs, rfl⟩ := Action.within_eq_ok_iff.1 hok
    rw [hbefore w, hafter]
    exact h.takes hs
  fails {w fault v} herror := by
    cases hs : step (part w) with
    | ok a s =>
      rw [Action.within_eq_ok_iff.2 ⟨s, hs, rfl⟩] at herror
      cases herror
    | error fault' s =>
      rw [Action.within_of_error hs] at herror
      cases herror
      rw [hbefore w, hafter]
      exact h.fails hs

end TakesBytes

/-! ## Numbers and references -/

/-- A reader that takes at least `least` bytes. -/
abbrev TakesAtLeast (least : Nat) (step : Action Reader α) : Prop := TakesBytes Reader.remaining least step

theorem Reader.takesAtLeast_peek : TakesAtLeast 0 Reader.peek where
  takes {r b r'} h := by
    unfold Reader.peek at h
    split at h
    · cases h
      exact le_rfl
    · cases h
  fails {r fault r'} h := by
    unfold Reader.peek at h
    split at h
    · cases h
    · cases h
      exact ⟨le_rfl, .inl rfl⟩

theorem Reader.takesAtLeast_take (count : Nat) : TakesAtLeast count (Reader.take count) where
  takes {r bytes r'} h := by
    unfold Reader.take at h
    dsimp only at h
    split at h
    · rename_i hlength
      cases h
      rw [List.length_take] at hlength
      simp only [Reader.remaining, List.length_drop]
      omega
    · cases h
  fails {r fault r'} h := by
    unfold Reader.take at h
    dsimp only at h
    split at h
    · cases h
    · cases h
      exact ⟨le_rfl, .inl rfl⟩

namespace Varint

theorem read_eq (firstBits : Nat) :
    read firstBits = (do
      let first ← Reader.peek
      let r ← get
      let taken ← Reader.take (classLength (first.toNat / 64))
      let value := ofBigEndian taken % valueBound firstBits (first.toNat / 64)
      if sizeClass firstBits value = first.toNat / 64 then pure value
      else throw (.varintNotShortest r.position (classLength (first.toNat / 64)) value)) := by
  funext r
  rw [read]
  cases hpeek : Reader.peek r with
  | error fault r1 => rw [Action.bind_of_error hpeek]
  | ok first r1 =>
    rw [Action.bind_of_ok hpeek, Action.get_bind]
    dsimp only
    cases htake : Reader.take (classLength (first.toNat / 64)) r1 with
    | error fault r2 => rw [Action.bind_of_error htake]
    | ok taken r2 =>
      rw [Action.bind_of_ok htake]
      dsimp only
      split <;> rfl

theorem takesAtLeast_read (firstBits : Nat) : TakesAtLeast 1 (read firstBits) := by
  rw [read_eq]
  refine (Reader.takesAtLeast_peek.bind fun first => TakesBytes.get.bind (n := 1) fun r => ?_).mono (by omega)
  refine ((Reader.takesAtLeast_take _).bind fun taken => .ite (.pure _) (.throw (.inr rfl))).mono ?_
  exact classLength_pos (first.toNat / 64)

theorem takesAtLeast_readFlagged : TakesAtLeast 1 readFlagged :=
  (Reader.takesAtLeast_peek.bind fun _ => (takesAtLeast_read flaggedBits).bind fun _ => .pure _).mono (by omega)

theorem takesAtLeast_readPlain : TakesAtLeast 1 readPlain := takesAtLeast_read plainBits

end Varint

namespace Reference

open Varint

theorem takesAtLeast_readWire (counter : Nat) : TakesAtLeast 1 (readWire counter) := by
  refine takesAtLeast_readFlagged.bind (n := 0) fun _ => .ite ?_ (.pure _)
  exact .unlessRefused (.inr rfl) (.pure _)

theorem takesAtLeast_readLevel (current : Nat) : TakesAtLeast 1 (readLevel current) := by
  refine takesAtLeast_readFlagged.bind (n := 0) fun _ => .ite ?_ ?_
  · exact .unlessRefused (.inr rfl) (.pure _)
  · exact .unlessRefused (.inr rfl) (.pure _)

theorem takesAtLeast_readLocation (current : Nat) : TakesAtLeast 1 (readLocation current) := by
  unfold readLocation
  refine .unlessRefused (.inr rfl) (takesAtLeast_readFlagged.bind (n := 0) fun _ => .ite (.pure _) ?_)
  refine .unlessRefused (.inr rfl) ?_
  exact ((takesAtLeast_readLevel current).bind fun _ => takesAtLeast_readPlain.bind fun _ => .pure _).mono
    (Nat.zero_le _)

end Reference

theorem LevelHeader.takesAtLeast_read : TakesAtLeast 1 LevelHeader.read := by
  refine Varint.takesAtLeast_readFlagged.bind fun _ => .ite ?_ (.pure _)
  refine (Varint.takesAtLeast_readPlain.bind (n := 0) fun _ => ?_).mono (Nat.zero_le _)
  exact .unlessRefused (.inr rfl) (.pure _)

theorem LevelHeader.ofBytes_of_check {h : LevelHeader} {level : Nat} {fault : Fault}
    (hcheck : h.check level = .error fault) : fault.OfBytes := by
  unfold check at hcheck
  split at hcheck
  · cases hcheck
    exact .inr rfl
  · cases hcheck

end GatePlan
