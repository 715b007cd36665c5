/-
An address file that is accepted can be run. What the reader checks, it checks
while it reads: gates against the slots written so far, which it counts, and the
count at the end against the scratch space that the header announced. So the
levels read so far stay below the count (`AddressDecoder.Covers`), and at the end
the whole plan lies within its scratch space (`Plan.Fits`). That is all a machine
asks for.
-/
import GatePlan.Proofs.AnyBytes
import GatePlan.Proofs.Machine
import GatePlan.Proofs.Spelling

namespace GatePlan

/-! ## Plans within their scratch space -/

/-- The permanent slots, the gates and the outputs of a plan lie within its
scratch space. -/
structure Plan.Fits (p : Plan) : Prop where
  inputs : constantWires + p.inputs ≤ p.slots
  gates : ∀ l ∈ p.levels, Machine.Within p.slots l
  outputs : ∀ a ∈ p.outputs, a < p.slots

theorem Plan.Fits.evaluates {p : Plan} (h : p.Fits) (hword : constantWires + p.inputs < wordSize) {bits : List Bool}
    (hbits : bits.length = p.inputs) (threads : Nat) :
    ∃ m outs, Machine.create p.slots p.inputs threads = .ok m ∧ p.evaluate m bits = .ok outs ∧
      outs.length = p.outputs.length := by
  have henough : ¬ p.slots < permanentWires p.inputs := by
    rw [permanentWires, wrap_of_lt hword]
    exact Nat.not_lt.2 h.inputs
  let m : Machine := ⟨(Array.replicate p.slots false).setIfInBounds 1 true, p.inputs, max threads 1⟩
  let m1 : Machine := { m with slots := Machine.store bits constantWires m.slots }
  have hset : Machine.setInputs bits m = .ok () m1 := if_neg (not_not.2 hbits)
  have hsize1 : m1.slots.size = p.slots := by simp [m1, m]
  let m2 : Machine := { m1 with slots := Machine.slotsAfter m1.slots p.levels }
  have hrun : Machine.run p.levels m1 = .ok () m2 :=
    Machine.run_of_within (lt_max_of_lt_right one_pos) (hsize1 ▸ h.gates)
  have hsize2 : m2.slots.size = m1.slots.size := Machine.size_slotsAfter ..
  obtain ⟨outs, houts, hlength⟩ := Machine.outputs_of_lt (m := m2) (hsize2 ▸ hsize1 ▸ h.outputs)
  exact ⟨m, outs, if_neg henough, (Plan.evaluate_of_run hset hrun).trans houts, hlength⟩

/-! ## The slots that a decoder counts -/

namespace AddressDecoder

theorem Inside.mono {g : AllocatedGate} {written written' : Nat} (h : Inside g written) (hle : written ≤ written') :
    Inside g written' :=
  ⟨⟨h.reads.1.trans_le hle, h.reads.2.trans_le hle⟩, h.writes.trans hle, h.next.trans hle⟩

/-- The permanent slots and the gates of the levels in `done` lie below the slots
that the decoder counts. -/
structure Covers (inputs : Nat) (done : List AllocatedLevel) (s : AddressDecoder) : Prop where
  permanent : permanentWires inputs ≤ s.written
  inside : ∀ l ∈ done, ∀ g ∈ l.gates, Inside g s.written

theorem Covers.turned {inputs : Nat} {done : List AllocatedLevel} {s s' : AddressDecoder} {l : AllocatedLevel}
    (h : Covers inputs done s) (ht : Turned s l s') : Covers inputs (done ++ [l]) s' where
  permanent := h.permanent.trans ht.written
  inside := List.forall_mem_append.2
    ⟨fun l' hl' g hg => (h.inside l' hl' g hg).mono ht.written, List.forall_mem_singleton.2 ht.inside⟩

theorem covers_decode {bytes : Bytes} {inputs : Nat} (hok : (decode bytes inputs).ending = .ok ()) :
    Covers inputs (decode bytes inputs).items (decode bytes inputs).state := by
  refine (decode_ends bytes inputs).drawn.keeps (Covers inputs) (fun hs h => hs.turned (turned_of_next h)) ?_ hok []
    ⟨le_rfl, fun l hl => (by cases hl)⟩
  intro done s s' hs hend
  rcases next_cases s with ⟨-, h⟩ | ⟨l, t, h, -⟩ | ⟨fault, t, h, -⟩
  · cases hend.symm.trans h
    exact hs
  · cases hend.symm.trans h
  · cases hend.symm.trans h

end AddressDecoder

/-! ## Address files -/

namespace PlanFile

theorem of_readAddressHeader {r r' : Reader} {inputs slots : Nat} {outputs : List Nat}
    (h : readAddressHeader r = .ok (inputs, slots, outputs) r') :
    inputs ≤ Varint.plainMax ∧ slots ≤ Varint.plainMax ∧ ∀ a ∈ outputs, a < slots := by
  obtain ⟨inputs', r1, hinputs, h1⟩ := Action.bind_eq_ok_iff.1 h
  obtain ⟨slots', r2, hslots, h2⟩ := Action.bind_eq_ok_iff.1 h1
  obtain ⟨count, r3, -, h3⟩ := Action.bind_eq_ok_iff.1 h2
  obtain ⟨outputs', r4, houtputs, h4⟩ := Action.bind_eq_ok_iff.1 h3
  cases h4
  refine ⟨(Varint.rest_of_readPlain hinputs).1, (Varint.rest_of_readPlain hslots).1, ?_⟩
  refine Action.times_keeps (fun outputs _ => ∀ a ∈ outputs, a < slots) ?_ [] houtputs (fun a ha => (by cases ha))
  intro seen s a t hseen hread
  obtain ⟨output, t1, -, hcheck⟩ := Action.bind_eq_ok_iff.1 hread
  split at hcheck
  · cases hcheck
  · cases hcheck
    exact List.forall_mem_append.2 ⟨hseen, List.forall_mem_singleton.2 (by omega)⟩

/-- Reading an address file backwards: its header, its levels and the check of
the slots they need. -/
theorem of_readAddresses {file : Bytes} {p : Plan} (h : readAddresses file = .ok p) :
    ∃ r, readAddressHeader (Reader.ofBytes file) = .ok (p.inputs, p.slots, p.outputs) r ∧
      (AddressDecoder.decode r.rest p.inputs).ending = .ok () ∧
      (AddressDecoder.decode r.rest p.inputs).items = p.levels ∧
      (AddressDecoder.decode r.rest p.inputs).state.written ≤ p.slots := by
  rcases readAddresses_cases file with ⟨fault, r, -, hfile⟩ | ⟨inputs, slots, outputs, r, hheader, hrest⟩
  · cases hfile.symm.trans h
  rcases hrest with ⟨fault, -, hfile⟩ | ⟨-, hfile⟩ | ⟨hending, hwritten, hfile⟩ <;> cases hfile.symm.trans h
  exact ⟨r, hheader, hending, rfl, hwritten⟩

theorem fits_of_readAddresses {file : Bytes} {p : Plan} (h : readAddresses file = .ok p) : p.Fits := by
  obtain ⟨r, hheader, hending, hlevels, hwritten⟩ := of_readAddresses h
  obtain ⟨hinputs, hslots, houtputs⟩ := of_readAddressHeader hheader
  obtain ⟨hpermanent, hinside⟩ := AddressDecoder.covers_decode hending
  rw [hlevels] at hinside
  -- no address is so large that the slot after it wraps around
  have hword : Varint.plainMax + constantWires < wordSize := by decide
  have hperm : permanentWires p.inputs = constantWires + p.inputs := wrap_of_lt (by omega)
  refine ⟨by omega, fun l hl g hg => ?_, houtputs⟩
  obtain ⟨⟨hread1, hread2⟩, hwrites, hnext⟩ := hinside l hl g hg
  rw [wrap_of_lt (by rw [constantWires] at hword; omega)] at hnext
  exact ⟨by omega, by omega, by omega⟩

end PlanFile

/-- **An accepted address file can be run.** The permanent slots, every gate and
every output lie within the scratch space, and so a machine of that size can be
made with any number of threads, takes the inputs, runs all levels and has all
outputs. -/
theorem accepted_plan_runs {file : Bytes} {p : Plan} (haccepted : PlanFile.readAddresses file = .ok p) :
    p.Fits ∧ ∀ bits : List Bool, bits.length = p.inputs → ∀ threads, ∃ m outs,
      Machine.create p.slots p.inputs threads = .ok m ∧ p.evaluate m bits = .ok outs ∧
        outs.length = p.outputs.length := by
  have hfits := PlanFile.fits_of_readAddresses haccepted
  obtain ⟨r, hheader, -⟩ := PlanFile.of_readAddresses haccepted
  have hinputs := (PlanFile.of_readAddressHeader hheader).1
  have hword : Varint.plainMax + constantWires < wordSize := by decide
  exact ⟨hfits, fun bits hbits threads => hfits.evaluates (by omega) hbits threads⟩

/-- A file of two gates, the second of which overwrites a constant. -/
theorem accepted_two_gates_run :
    let p : Plan := ⟨1, 4, [⟨1, [⟨2, 1, 3⟩], [⟨3, 3, 0⟩]⟩], [3]⟩
    PlanFile.readAddresses [1, 4, 1, 3, 33, 1, 2, 1, 3, 3, 3, 0] = .ok p ∧ p.Fits ∧ ∃ m outs,
      Machine.create 4 1 2 = .ok m ∧ p.evaluate m [true] = .ok outs ∧ outs.length = 1 := by
  intro p
  have haccepted : PlanFile.readAddresses [1, 4, 1, 3, 33, 1, 2, 1, 3, 3, 3, 0] = .ok p := by decide +kernel
  obtain ⟨hfits, hruns⟩ := accepted_plan_runs haccepted
  exact ⟨haccepted, hfits, hruns [true] rfl 2⟩

end GatePlan
