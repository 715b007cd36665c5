/-
The graph of a circuit: which gates may read which wires, how deep a wire
lies, how often it is read, and what it carries.

`validate` accepts exactly the circuits in which every gate reads wires
numbered below its own (`validate_eq_ok_iff`); in such a circuit no wire number
wraps around, however large the number of inputs is. The depth and the value
of a wire are found by one pass over the gates that appends an entry per gate;
`getElem?_foldl_push` says what such a pass leaves, and with it each obeys the
equation of its gate (`depth_gate`, `wireValue_gate`).
-/
import Mathlib
import GatePlan.Circuit.Evaluate

namespace GatePlan

/-! ## Passes that append an entry per item -/

section Push

variable {α β : Type} (f : Array β → α → β)

@[simp] theorem size_foldl_push (l : List α) (start : Array β) :
    (l.foldl (fun a x => a.push (f a x)) start).size = start.size + l.length := by
  induction l generalizing start with
  | nil => simp
  | cons x l ih => simp only [List.foldl_cons, ih, Array.size_push, List.length_cons]; omega

theorem getElem?_foldl_push_of_lt (l : List α) (start : Array β) {j : Nat} (hj : j < start.size) :
    (l.foldl (fun a x => a.push (f a x)) start)[j]? = start[j]? := by
  induction l generalizing start with
  | nil => rfl
  | cons x l ih =>
    have hpush : j < (start.push (f start x)).size := by rw [Array.size_push]; omega
    rw [List.foldl_cons, ih _ hpush, Array.getElem?_push_lt hj, Array.getElem?_eq_getElem hj]

theorem getElem?_foldl_push_take (l : List α) (start : Array β) {i j : Nat} (hi : i ≤ l.length)
    (hj : j < start.size + i) :
    ((l.take i).foldl (fun a x => a.push (f a x)) start)[j]? =
      (l.foldl (fun a x => a.push (f a x)) start)[j]? := by
  have hsplit : l.foldl (fun a x => a.push (f a x)) start =
      (l.drop i).foldl (fun a x => a.push (f a x))
        ((l.take i).foldl (fun a x => a.push (f a x)) start) := by
    rw [← List.foldl_append, List.take_append_drop]
  have hsize : j < ((l.take i).foldl (fun a x => a.push (f a x)) start).size := by
    rw [size_foldl_push, List.length_take, Nat.min_eq_left hi]; exact hj
  rw [hsplit, getElem?_foldl_push_of_lt f _ _ hsize]

theorem getElem?_foldl_push (l : List α) (start : Array β) {i : Nat} {x : α} (hx : l[i]? = some x) :
    (l.foldl (fun a x => a.push (f a x)) start)[start.size + i]? =
      some (f ((l.take i).foldl (fun a x => a.push (f a x)) start) x) := by
  obtain ⟨hi, rfl⟩ := List.getElem?_eq_some_iff.1 hx
  have hsize : ((l.take i).foldl (fun a x => a.push (f a x)) start).size = start.size + i := by
    rw [size_foldl_push, List.length_take, Nat.min_eq_left hi.le]
  rw [← getElem?_foldl_push_take f l start (i := i + 1) hi (by omega), List.take_add_one,
    List.foldl_append, hx, Option.toList_some, List.foldl_cons, List.foldl_nil, ← hsize,
    Array.getElem?_push_size]

end Push

/-- A pass over gates that applies a rule to the entries of their inputs: in
the end, the entry of every gate obeys the rule. -/
theorem getD_foldl_push_gate {β : Type} (op : GateType → β → β → β) (d : β) (start : Array β)
    {gates : List Gate} {i : Nat} {g : Gate} (hg : gates[i]? = some g)
    (hin : g.input1 < start.size + i ∧ g.input2 < start.size + i) :
    let last := gates.foldl (fun a g => a.push (op g.type (a.getD g.input1 d) (a.getD g.input2 d))) start
    last.getD (start.size + i) d = op g.type (last.getD g.input1 d) (last.getD g.input2 d) := by
  intro last
  have hi : i < gates.length := (List.getElem?_eq_some_iff.1 hg).1
  let f : Array β → Gate → β := fun a g => op g.type (a.getD g.input1 d) (a.getD g.input2 d)
  have hearlier : ∀ w < start.size + i,
      ((gates.take i).foldl (fun a g => a.push (f a g)) start).getD w d = last.getD w d := by
    intro w hw
    rw [Array.getD_eq_getD_getElem?, Array.getD_eq_getD_getElem?, getElem?_foldl_push_take f gates _ hi.le hw]
  have hentry : last[start.size + i]? = some (f _ g) := getElem?_foldl_push f gates start hg
  rw [Array.getD_eq_getD_getElem?, hentry, Option.getD_some]
  show op g.type _ _ = _
  rw [hearlier _ hin.1, hearlier _ hin.2]

/-! ## Valid circuits -/

/-- The two wires that a gate reads, one of them twice if they are the same. -/
def Gate.reads (g : Gate) : List Nat := [g.input1, g.input2]

namespace Circuit

/-- What `validate` accepts. There is room for the number of every wire. -/
structure Valid (c : Circuit) : Prop where
  room : c.permanent + c.gates.length ≤ wordSize
  ordered : ∀ i g, c.gates[i]? = some g → g.input1 < c.permanent + i ∧ g.input2 < c.permanent + i
  produced : ∀ w ∈ c.outputs, w < c.wires

/-- Wire numbers do not wrap past a checked gate: a gate that produced wire 0
would read a wire below 0. -/
theorem checkGates_eq_ok_iff (gates : List Gate) (i : Nat) {output : Nat} (ho : output < wordSize) :
    checkGates gates i output = .ok () ↔
      output + gates.length ≤ wordSize ∧
        ∀ j g, gates[j]? = some g → g.input1 < output + j ∧ g.input2 < output + j := by
  induction gates generalizing i output with
  | nil => simpa [checkGates] using ho.le
  | cons g rest ih =>
    rw [checkGates]
    by_cases hg : g.input1 < output ∧ g.input2 < output
    · rw [if_neg (by simp; omega)]
      rcases Nat.lt_or_ge (output + 1) wordSize with hlt | hge
      · rw [wrap_of_lt hlt, ih (i + 1) hlt, List.length_cons]
        constructor
        · intro ⟨hroom, hall⟩
          refine ⟨by omega, fun j g' hj => ?_⟩
          cases j with
          | zero => cases hj; exact hg
          | succ j => have := hall j g' hj; omega
        · intro ⟨hroom, hall⟩
          refine ⟨by omega, fun j g' hj => ?_⟩
          have := hall (j + 1) g' hj
          omega
      · have hwrap : wrap (output + 1) = 0 := by
          rw [wrap_eq_mod, show output + 1 = wordSize by omega, Nat.mod_self]
        rw [hwrap, ih (i + 1) (by decide), List.length_cons]
        cases rest with
        | nil =>
          refine ⟨fun _ => ⟨by simpa using ho, fun j g' hj => ?_⟩, fun _ => by simp⟩
          cases j with
          | zero => cases hj; exact hg
          | succ j => simp at hj
        | cons g' rest =>
          constructor
          · intro h
            obtain ⟨-, hall⟩ := h
            have := hall 0 g' rfl
            omega
          · intro h
            obtain ⟨hroom, -⟩ := h
            rw [List.length_cons] at hroom
            omega
    · rw [if_pos (by simp only [ge_iff_le, Bool.or_eq_true, decide_eq_true_eq]; omega)]
      refine ⟨fun h => by simp at h, fun h => absurd (h.2 0 g rfl) ?_⟩
      simpa using hg

theorem checkOutputs_eq_ok_iff (wires : Nat) (outputs : List Nat) :
    checkOutputs wires outputs = .ok () ↔ ∀ w ∈ outputs, w < wires := by
  induction outputs with
  | nil => simp [checkOutputs]
  | cons w rest ih =>
    rw [checkOutputs]
    by_cases hw : w < wires
    · rw [if_neg (by omega), ih]
      simp [hw]
    · rw [if_pos (by omega)]
      simp [hw]

/-- **`validate` accepts exactly the valid circuits.** -/
theorem validate_eq_ok_iff (c : Circuit) : c.validate = .ok () ↔ c.Valid := by
  have hpermanent : c.permanent < wordSize := wrap_lt _
  have hgates := checkGates_eq_ok_iff c.gates 0 hpermanent
  have houts := checkOutputs_eq_ok_iff c.wires c.outputs
  have hbind : c.validate = .ok () ↔
      checkGates c.gates 0 c.permanent = .ok () ∧ checkOutputs c.wires c.outputs = .ok () := by
    rw [validate]
    cases checkGates c.gates 0 c.permanent with
    | error fault => simp [bind, Except.bind]
    | ok u => simp [bind, Except.bind]
  rw [hbind, hgates, houts]
  exact ⟨fun ⟨⟨h1, h2⟩, h3⟩ => ⟨h1, h2, h3⟩, fun h => ⟨⟨h.room, h.ordered⟩, h.produced⟩⟩

theorem Valid.lt_of_mem_reads {c : Circuit} (hv : c.Valid) {i w : Nat} {g : Gate} (hg : c.gates[i]? = some g)
    (hw : w ∈ g.reads) : w < c.permanent + i := by
  obtain ⟨h1, h2⟩ := hv.ordered i g hg
  simp only [Gate.reads, List.mem_cons, List.not_mem_nil, or_false] at hw
  rcases hw with rfl | rfl
  · exact h1
  · exact h2

theorem Valid.output_lt {c : Circuit} (hv : c.Valid) {w : Nat} (hw : w ∈ c.outputs) :
    w < c.permanent + c.gates.length := by
  refine lt_of_lt_of_le (hv.produced w hw) ?_
  rw [wires]
  exact wrap_le _

theorem permanent_eq {c : Circuit} (h : constantWires + c.inputs < wordSize) :
    c.permanent = constantWires + c.inputs := wrap_of_lt h

/-! ## Depth -/

/-- The depth of every wire: 0 for the permanent ones, and for the output of a
gate one more than that of its deeper input. -/
def depths (c : Circuit) : Array Nat :=
  c.gates.foldl (fun ds g => ds.push (max (ds.getD g.input1 0) (ds.getD g.input2 0) + 1))
    (Array.replicate c.permanent 0)

def depth (c : Circuit) (wire : Nat) : Nat := c.depths.getD wire 0

theorem depth_of_permanent {c : Circuit} {w : Nat} (hw : w < c.permanent) : c.depth w = 0 := by
  have hlook : c.depths[w]? = (Array.replicate c.permanent 0)[w]? :=
    getElem?_foldl_push_of_lt (fun ds (g : Gate) => max (ds.getD g.input1 0) (ds.getD g.input2 0) + 1)
      c.gates _ (by simpa using hw)
  rw [depth, Array.getD_eq_getD_getElem?, hlook]
  simp [hw]

theorem depth_gate {c : Circuit} (hv : c.Valid) {i : Nat} {g : Gate} (hg : c.gates[i]? = some g) :
    c.depth (c.permanent + i) = max (c.depth g.input1) (c.depth g.input2) + 1 := by
  have h := getD_foldl_push_gate (fun _ a b => max a b + 1) 0 (Array.replicate c.permanent 0) hg
    (by simpa using hv.ordered i g hg)
  rwa [Array.size_replicate] at h

theorem depth_gate_pos {c : Circuit} (hv : c.Valid) {i : Nat} (hi : i < c.gates.length) :
    0 < c.depth (c.permanent + i) := by
  rw [depth_gate hv (List.getElem?_eq_getElem hi)]
  exact Nat.succ_pos _

theorem depth_lt_of_reads {c : Circuit} (hv : c.Valid) {i w : Nat} {g : Gate} (hg : c.gates[i]? = some g)
    (hw : w ∈ g.reads) : c.depth w < c.depth (c.permanent + i) := by
  rw [depth_gate hv hg]
  simp only [Gate.reads, List.mem_cons, List.not_mem_nil, or_false] at hw
  rcases hw with rfl | rfl
  · exact Nat.lt_succ_of_le (Nat.le_max_left _ _)
  · exact Nat.lt_succ_of_le (Nat.le_max_right _ _)

/-! ## Reads -/

/-- The number of gate inputs that read a wire. -/
def readsOf (c : Circuit) (wire : Nat) : Nat := (c.gates.flatMap Gate.reads).count wire

/-! ## Values -/

/-- What a wire carries, for the given primary inputs. -/
def wireValue (c : Circuit) (inputs : List Bool) (wire : Nat) : Bool :=
  (wireValues c.gates (startValues inputs)).getD wire false

theorem wireValue_of_permanent {c : Circuit} (inputs : List Bool) {w : Nat}
    (hw : w < constantWires + inputs.length) :
    c.wireValue inputs w = (startValues inputs).getD w false := by
  have hsize : w < (startValues inputs).size := by simp [startValues, constantWires] at hw ⊢; omega
  rw [wireValue, Array.getD_eq_getD_getElem?, Array.getD_eq_getD_getElem?, wireValues,
    getElem?_foldl_push_of_lt (fun vs (g : Gate) => g.type.eval (vs.getD g.input1 false)
      (vs.getD g.input2 false)) _ _ hsize]

theorem wireValue_input {c : Circuit} {inputs : List Bool} {i : Nat} (hi : i < inputs.length) :
    c.wireValue inputs (constantWires + i) = inputs[i] := by
  rw [wireValue_of_permanent _ (Nat.add_lt_add_left hi _), Array.getD_eq_getD_getElem?, startValues, List.getElem?_toArray,
    constantWires, Nat.add_comm, List.getElem?_cons_succ, List.getElem?_cons_succ, List.getElem?_eq_getElem hi,
    Option.getD_some]

theorem map_wireValue_inputs (c : Circuit) (inputs : List Bool) :
    (List.range' constantWires inputs.length).map (c.wireValue inputs) = inputs := by
  refine List.ext_getElem (by simp) fun i hi hi' => ?_
  rw [List.getElem_map, List.getElem_range', Nat.one_mul, wireValue_input hi']

theorem wireValue_gate {c : Circuit} (hv : c.Valid) {inputs : List Bool}
    (hp : c.permanent = constantWires + inputs.length) {i : Nat} {g : Gate} (hg : c.gates[i]? = some g) :
    c.wireValue inputs (c.permanent + i) =
      g.type.eval (c.wireValue inputs g.input1) (c.wireValue inputs g.input2) := by
  have hsize : (startValues inputs).size = c.permanent := by simp [startValues, hp, constantWires]; omega
  have h := getD_foldl_push_gate GateType.eval false (startValues inputs) hg
    (by rw [hsize]; exact hv.ordered i g hg)
  rwa [hsize] at h

theorem evaluate_eq {c : Circuit} (hv : c.Valid) {inputs : List Bool} (hlen : inputs.length = c.inputs) :
    c.evaluate inputs = .ok (c.outputs.map (c.wireValue inputs)) := by
  have hok : c.validate = .ok () := (validate_eq_ok_iff c).2 hv
  simp [evaluate, hlen, hok, bind, Except.bind, pure, Except.pure, wireValue]

end Circuit

end GatePlan
