/-
The adder adds. The wires that its bits hand on are numbered by a formula
(`addBits_eq`), so what is known of a gate is said by bit: the gate with place `g` in
the gates of a bit produces `wire n bit g` (`getElem?_gates`, `wire_eq`), and reads
operands, wires of the same bit and the carry of the bit below. Two inductions over the
bits are all that is needed, both about the wire that carries into a bit: it holds the
carry of the operands' lower bits (`wireValue_carryInto`), and it lies two levels deeper
with every bit (`depth_carryInto`).
-/
import GatePlan.Generator
import GatePlan.Proofs.Peak

namespace GatePlan

/-- The lowest bits of a number, lowest first. -/
def lowBits (count x : Nat) : List Bool := (List.range count).map x.testBit

namespace Adder

variable {n bit : Nat}

/-! ## Wires -/

/-- The wire of gate `g` of the given bit, in an adder of `n` bits. -/
def wire (n bit g : Nat) : Nat := constantWires + 2 * n + 5 * bit + g

/-- The wire that carries into a bit: the constant false into the lowest. -/
def carryInto (n : Nat) : (bit : Nat) → Nat
  | 0 => 0
  | bit + 1 => wire n bit 4

/-- The gates of the given bit. -/
def gatesOf (n bit : Nat) : List Gate :=
  let a := constantWires + bit
  let b := constantWires + n + bit
  let carry := carryInto n bit
  [⟨.xor, a, b⟩,
    ⟨.xor, wire n bit 0, carry⟩,
    ⟨.and, a, b⟩,
    ⟨.and, wire n bit 0, carry⟩,
    ⟨.xor, wire n bit 2, wire n bit 3⟩]

/-- The adder of `n` bits. -/
def ofWidth (n : Nat) : Circuit where
  inputs := 2 * n
  gates := (List.range n).flatMap (gatesOf n)
  outputs := (List.range n).map (wire n · 1) ++ [carryInto n n]

/-- What is handed on from bit to bit is the carry into the next one, and the first of
its wires. -/
theorem addBits_eq (n count bit : Nat) : addBits n count bit (carryInto n bit) (wire n bit 0) =
    ((List.range' bit count).flatMap (gatesOf n), (List.range' bit count).map (wire n · 1), carryInto n (bit + count)) := by
  induction count generalizing bit with
  | zero => rfl
  | succ count ih =>
    have hcarry : wire n bit 0 + 4 = carryInto n (bit + 1) := rfl
    have hnext : wire n bit 0 + 5 = wire n (bit + 1) 0 := by
      rw [wire, wire]
      omega
    rw [addBits, hcarry, hnext, ih, List.range'_succ, Nat.succ_add_eq_add_succ]
    rfl

theorem circuit_eq_ok (hn : 1 ≤ n) : circuit n = .ok (ofWidth n) := by
  have hbits : addBits n n 0 0 (constantWires + 2 * n) =
      ((List.range n).flatMap (gatesOf n), (List.range n).map (wire n · 1), carryInto n n) := by
    have h := addBits_eq n n 0
    rwa [← List.range_eq_range', Nat.zero_add] at h
  rw [circuit, if_neg (Nat.one_le_iff_ne_zero.1 hn), hbits]
  rfl

/-! ## The gates of a bit -/

theorem getElem?_flatMap_range {α : Type} {f : Nat → List α} {size : Nat} (hf : ∀ i, (f i).length = size)
    {count i j : Nat} (hi : i < count) (hj : j < size) :
    ((List.range count).flatMap f)[size * i + j]? = (f i)[j]? := by
  have hlength : ∀ count, ((List.range count).flatMap f).length = size * count := fun count => by
    simp [List.length_flatMap, hf, Nat.mul_comm]
  induction count with
  | zero => cases hi
  | succ count ih =>
    rw [List.range_succ, List.flatMap_append, List.flatMap_singleton]
    rcases Nat.lt_succ_iff_lt_or_eq.1 hi with hlt | rfl
    · have hbefore : size * i + j < size * count := by
        calc size * i + j < size * (i + 1) := by rw [Nat.mul_succ]; omega
          _ ≤ size * count := Nat.mul_le_mul_left size hlt
      rw [List.getElem?_append_left (by rwa [hlength]), ih hlt]
    · rw [List.getElem?_append_right (by rw [hlength]; omega), hlength, Nat.add_sub_cancel_left]

@[simp] theorem length_gates (n : Nat) : (ofWidth n).gates.length = 5 * n := by
  simp [ofWidth, List.length_flatMap, gatesOf, Nat.mul_comm]

theorem place_lt {g : Nat} {gate : Gate} (hgate : (gatesOf n bit)[g]? = some gate) : g < 5 :=
  (List.getElem?_eq_some_iff.1 hgate).1

theorem getElem?_gates {g : Nat} (hbit : bit < n) (hg : g < 5) :
    (ofWidth n).gates[5 * bit + g]? = (gatesOf n bit)[g]? := by
  have hsize : ∀ bit, (gatesOf n bit).length = 5 := fun _ => rfl
  exact getElem?_flatMap_range hsize hbit hg

theorem exists_bit {i : Nat} {gate : Gate} (h : (ofWidth n).gates[i]? = some gate) :
    ∃ bit g, bit < n ∧ i = 5 * bit + g ∧ (gatesOf n bit)[g]? = some gate := by
  have hi : i < 5 * n := length_gates n ▸ (List.getElem?_eq_some_iff.1 h).1
  have hsplit : i = 5 * (i / 5) + i % 5 := (Nat.div_add_mod i 5).symm
  have hbit : i / 5 < n := Nat.div_lt_of_lt_mul hi
  rw [hsplit, getElem?_gates hbit (Nat.mod_lt i (by decide))] at h
  exact ⟨_, _, hbit, hsplit, h⟩

theorem carryInto_lt (n bit : Nat) : carryInto n bit < wire n bit 0 := by
  cases bit with
  | zero => simp only [carryInto, wire, constantWires]; omega
  | succ bit => simp only [carryInto, wire]; omega

theorem count_eq (n : Nat) (type : GateType) :
    (ofWidth n).count type = (match type with | .xor => 3 | .and => 2) * n := by
  have hbit : ∀ bit, (gatesOf n bit).countP (·.type = type) = match type with | .xor => 3 | .and => 2 :=
    fun bit => by cases type <;> rfl
  rw [Circuit.count, ofWidth, List.countP_flatMap]
  simp [Function.comp_def, hbit, Nat.mul_comm]

/-! ## Validity -/

section

variable (hword : constantWires + 2 * n + 5 * n < wordSize)

include hword

theorem permanent_eq : (ofWidth n).permanent = constantWires + 2 * n :=
  Circuit.permanent_eq (c := ofWidth n) (Nat.lt_of_le_of_lt (Nat.le_add_right _ _) hword)

theorem wire_eq (bit g : Nat) : wire n bit g = (ofWidth n).permanent + (5 * bit + g) := by
  rw [permanent_eq hword, wire, Nat.add_assoc]

/-- **An adder is valid**: a bit reads its operands, its own wires and the carry of
the bit below. -/
theorem valid : (ofWidth n).Valid := by
  have hpermanent := permanent_eq hword
  refine ⟨?room, ?ordered, ?produced⟩
  case room =>
    rw [hpermanent, length_gates]
    exact hword.le
  case ordered =>
    intro i gate hi
    obtain ⟨bit, g, hbit, rfl, hgate⟩ := exists_bit hi
    have hg := place_lt hgate
    have hcarry := carryInto_lt n bit
    simp only [wire] at hcarry
    rw [hpermanent]
    interval_cases g
    all_goals
      cases hgate
      simp only [wire]
      omega
  case produced =>
    intro w hw
    rw [Circuit.wires, hpermanent, length_gates, wrap_of_lt hword]
    rcases List.mem_append.1 hw with hsum | hcarry
    · obtain ⟨bit, hbit, rfl⟩ := List.mem_map.1 hsum
      rw [List.mem_range] at hbit
      simp only [wire]
      omega
    · rw [List.mem_singleton.1 hcarry]
      exact carryInto_lt n n

end

/-! ## Reads -/

/-- A wire past the operands is read by the gates of one bit only, twice at most. -/
theorem count_reads_bit {w : Nat} (hw : constantWires + 2 * n ≤ w) (hbit : bit < n) :
    ((gatesOf n bit).flatMap Gate.reads).count w ≤ if bit = (w - (constantWires + 2 * n) + 1) / 5 then 2 else 0 := by
  have ha : constantWires + bit ≠ w := by omega
  have hb : constantWires + n + bit ≠ w := by omega
  change [constantWires + bit, constantWires + n + bit, wire n bit 0, carryInto n bit, constantWires + bit,
    constantWires + n + bit, wire n bit 0, carryInto n bit, wire n bit 2, wire n bit 3].count w ≤ _
  cases bit with
  | zero =>
    -- no wire carries into the lowest bit
    have hnone : carryInto n 0 ≠ w := by
      rw [carryInto]
      simp only [constantWires] at hw
      omega
    simp only [List.count_cons, List.count_nil, beq_iff_eq, ha, hb, hnone, if_false, wire]
    split_ifs <;> omega
  | succ bit =>
    simp only [List.count_cons, List.count_nil, beq_iff_eq, ha, hb, if_false, wire, carryInto]
    split_ifs <;> omega

theorem readsOf_le (hword : constantWires + 2 * n + 5 * n < wordSize) {w : Nat} (hw : (ofWidth n).permanent ≤ w) :
    (ofWidth n).readsOf w ≤ 2 := by
  rw [permanent_eq hword] at hw
  rw [Circuit.readsOf, ofWidth, List.flatMap_assoc, List.count_flatMap]
  calc ∑ bit ∈ Finset.range n, ((gatesOf n bit).flatMap Gate.reads).count w
      ≤ ∑ bit ∈ Finset.range n, if bit = (w - (constantWires + 2 * n) + 1) / 5 then 2 else 0 :=
        Finset.sum_le_sum fun bit hbit => count_reads_bit hw (Finset.mem_range.1 hbit)
    _ ≤ 2 := by
        rw [Finset.sum_ite_eq']
        split
        · exact le_rfl
        · exact Nat.zero_le _

/-! ## Depth -/

section

variable (hword : constantWires + 2 * n + 5 * n < wordSize)

include hword

theorem depth_wire {g : Nat} {gate : Gate} (hbit : bit < n) (hgate : (gatesOf n bit)[g]? = some gate) :
    (ofWidth n).depth (wire n bit g) = max ((ofWidth n).depth gate.input1) ((ofWidth n).depth gate.input2) + 1 := by
  rw [wire_eq hword]
  exact Circuit.depth_gate (valid hword) (by rwa [getElem?_gates hbit (place_lt hgate)])

theorem depth_of_lt {w : Nat} (hw : w < constantWires + 2 * n) : (ofWidth n).depth w = 0 :=
  Circuit.depth_of_permanent (by rwa [permanent_eq hword])

theorem depth_half (hbit : bit < n) :
    (ofWidth n).depth (wire n bit 0) = 1 ∧ (ofWidth n).depth (wire n bit 2) = 1 := by
  have ha := depth_of_lt hword (w := constantWires + bit) (by omega)
  have hb := depth_of_lt hword (w := constantWires + n + bit) (by omega)
  rw [depth_wire hword hbit (g := 0) rfl, depth_wire hword hbit (g := 2) rfl, ha, hb]
  exact ⟨rfl, rfl⟩

/-- **The carry into a bit lies two levels deeper with every bit.** Into the lowest it
is a constant, which is no deeper than the half sum it is added to. -/
theorem depth_carryInto (hbit : bit ≤ n) : max 1 ((ofWidth n).depth (carryInto n bit)) = 2 * bit + 1 := by
  induction bit with
  | zero =>
    rw [carryInto, depth_of_lt hword (by simp [constantWires])]
    rfl
  | succ bit ih =>
    obtain ⟨hsum, hcarry⟩ := depth_half hword hbit
    have hpropagate := depth_wire hword hbit (g := 3) rfl
    have hout := depth_wire hword hbit (g := 4) rfl
    rw [hsum, ih (Nat.le_of_succ_le hbit)] at hpropagate
    rw [carryInto, hout, hcarry, hpropagate]
    omega

theorem depth_with_carry (hbit : bit < n) :
    (ofWidth n).depth (wire n bit 1) = 2 * bit + 2 ∧ (ofWidth n).depth (wire n bit 3) = 2 * bit + 2 := by
  rw [depth_wire hword hbit (g := 1) rfl, depth_wire hword hbit (g := 3) rfl, (depth_half hword hbit).1,
    depth_carryInto hword hbit.le]
  exact ⟨rfl, rfl⟩

theorem depth_carry_out (hbit : bit < n) : (ofWidth n).depth (wire n bit 4) = 2 * bit + 3 := by
  have hcarry : max 1 ((ofWidth n).depth (wire n bit 4)) = 2 * (bit + 1) + 1 := depth_carryInto hword hbit
  omega

/-- **An adder of `n` bits has `2 * n + 1` levels**: the last carry is the deepest wire. -/
theorem height_eq (hn : 1 ≤ n) : (ofWidth n).height = 2 * n + 1 := by
  apply le_antisymm
  · refine Finset.sup_le fun i hi => ?_
    obtain ⟨bit, g, hbit, rfl, hgate⟩ := exists_bit (Circuit.getElem?_gates (Finset.mem_range.1 hi))
    have hg := place_lt hgate
    have hhalf := depth_half hword hbit
    have hlate := depth_with_carry hword hbit
    have hout := depth_carry_out hword hbit
    rw [Circuit.gateDepth, ← wire_eq hword]
    interval_cases g <;> omega
  · obtain ⟨last, rfl⟩ := Nat.exists_eq_add_one.2 hn
    have hlast : 5 * last + 4 < (ofWidth (last + 1)).gates.length := by
      rw [length_gates]
      omega
    have hle := Circuit.gateDepth_le_height hlast
    rw [Circuit.gateDepth, ← wire_eq hword, depth_carry_out hword (Nat.lt_succ_self last)] at hle
    omega

end

/-! ## Values -/

section

variable {a b : Nat}

/-- The inputs of an adder: its operands, one after the other. -/
def operands (n a b : Nat) : List Bool := lowBits n a ++ lowBits n b

@[simp] theorem length_operands (n a b : Nat) : (operands n a b).length = 2 * n := by
  simp [operands, lowBits, Nat.two_mul]

theorem wireValue_operand (hbit : bit < n) :
    (ofWidth n).wireValue (operands n a b) (constantWires + bit) = a.testBit bit ∧
      (ofWidth n).wireValue (operands n a b) (constantWires + n + bit) = b.testBit bit := by
  have hlength : (operands n a b).length = 2 * n := length_operands n a b
  have hstart : ∀ i, (Circuit.startValues (operands n a b)).getD (constantWires + i) false =
      (operands n a b)[i]?.getD false := fun i => by
    simp [Circuit.startValues, constantWires, Nat.add_comm 2]
  rw [Circuit.wireValue_of_permanent _ (by omega), Circuit.wireValue_of_permanent _ (by omega), hstart, Nat.add_assoc,
    hstart]
  constructor
  · rw [operands, List.getElem?_append_left (by simpa [lowBits] using hbit)]
    simp [lowBits, hbit]
  · rw [operands, List.getElem?_append_right (by simp [lowBits])]
    simp [lowBits, hbit]

/-- Two half adders carry when two of their three bits are set; they never both carry. -/
theorem carry_of_halves (x y carry : Bool) : ((x && y) ^^ ((x ^^ y) && carry)) = x.atLeastTwo y carry := by
  cases x <;> cases y <;> cases carry <;> rfl

theorem testBit_add (hbit : bit < n + 1) :
    (a + b).testBit bit = (a.testBit bit ^^ (b.testBit bit ^^
      BitVec.carry bit (BitVec.ofNat (n + 1) a) (BitVec.ofNat (n + 1) b) false)) := by
  have hadd := BitVec.getLsbD_add hbit (BitVec.ofNat (n + 1) a) (BitVec.ofNat (n + 1) b)
  rw [← BitVec.ofNat_add] at hadd
  simpa only [BitVec.getLsbD_ofNat, decide_eq_true hbit, Bool.true_and] using hadd

variable (hword : constantWires + 2 * n + 5 * n < wordSize)

include hword

theorem wireValue_wire {g : Nat} {gate : Gate} (hbit : bit < n) (hgate : (gatesOf n bit)[g]? = some gate) :
    (ofWidth n).wireValue (operands n a b) (wire n bit g) =
      gate.type.eval ((ofWidth n).wireValue (operands n a b) gate.input1)
        ((ofWidth n).wireValue (operands n a b) gate.input2) := by
  rw [wire_eq hword]
  refine Circuit.wireValue_gate (valid hword) ?_ (by rwa [getElem?_gates hbit (place_lt hgate)])
  rw [length_operands, permanent_eq hword]

theorem wireValue_half_sum (hbit : bit < n) :
    (ofWidth n).wireValue (operands n a b) (wire n bit 0) = (a.testBit bit ^^ b.testBit bit) := by
  obtain ⟨ha, hb⟩ := wireValue_operand (a := a) (b := b) hbit
  rw [wireValue_wire hword hbit (g := 0) rfl, ha, hb]
  rfl

/-- **The wire that carries into a bit holds the carry** of the operands' lower bits. -/
theorem wireValue_carryInto (hbit : bit ≤ n) :
    (ofWidth n).wireValue (operands n a b) (carryInto n bit) =
      BitVec.carry bit (BitVec.ofNat (n + 1) a) (BitVec.ofNat (n + 1) b) false := by
  induction bit with
  | zero =>
    rw [carryInto, BitVec.carry_zero, Circuit.wireValue_of_permanent _ (by simp [constantWires])]
    rfl
  | succ bit ih =>
    obtain ⟨ha, hb⟩ := wireValue_operand (a := a) (b := b) hbit
    have hcarry := wireValue_wire (a := a) (b := b) hword hbit (g := 2) rfl
    have hpropagate := wireValue_wire (a := a) (b := b) hword hbit (g := 3) rfl
    rw [ha, hb] at hcarry
    rw [wireValue_half_sum hword hbit, ih (Nat.le_of_succ_le hbit)] at hpropagate
    rw [carryInto, wireValue_wire hword hbit (g := 4) rfl, hcarry, hpropagate, BitVec.carry_succ, BitVec.getLsbD_ofNat,
      BitVec.getLsbD_ofNat, decide_eq_true (Nat.lt_succ_of_lt hbit), Bool.true_and, Bool.true_and]
    exact carry_of_halves _ _ _

theorem wireValue_sum (hbit : bit < n) :
    (ofWidth n).wireValue (operands n a b) (wire n bit 1) = (a + b).testBit bit := by
  rw [wireValue_wire hword hbit (g := 1) rfl, wireValue_half_sum hword hbit, wireValue_carryInto hword hbit.le,
    testBit_add (Nat.lt_succ_of_lt hbit)]
  exact Bool.xor_assoc ..

/-- Operands of `n` bits have no bit `n`, so that of their sum is the last carry. -/
theorem wireValue_last_carry (ha : a < 2 ^ n) (hb : b < 2 ^ n) :
    (ofWidth n).wireValue (operands n a b) (carryInto n n) = (a + b).testBit n := by
  rw [wireValue_carryInto hword le_rfl, testBit_add (Nat.lt_succ_self n), Nat.testBit_lt_two_pow ha,
    Nat.testBit_lt_two_pow hb, Bool.false_xor, Bool.false_xor]

/-- **The outputs of an adder are the bits of the sum.** -/
theorem evaluate_eq (ha : a < 2 ^ n) (hb : b < 2 ^ n) :
    (ofWidth n).evaluate (operands n a b) = .ok (lowBits (n + 1) (a + b)) := by
  have hsums : (List.range n).map (fun bit => (ofWidth n).wireValue (operands n a b) (wire n bit 1)) =
      (List.range n).map (a + b).testBit :=
    List.map_congr_left fun bit hbit => wireValue_sum hword (List.mem_range.1 hbit)
  rw [Circuit.evaluate_eq (valid hword) (length_operands n a b), lowBits, List.range_succ, List.map_append, ← hsums,
    ofWidth, List.map_append, List.map_map, List.map_singleton, List.map_singleton, ← ofWidth,
    wireValue_last_carry hword ha hb]
  rfl

end

/-! ## Addition -/

/-- **The adder adds.** The circuit of the generator is valid, has three XOR gates and
two AND gates for each bit, and evaluates to the bits of the sum, the carry last.
Where addresses can name its slots it compiles, to two levels for each bit and one
more; where they cannot, it fails for want of addresses. -/
theorem adder_adds (hn : 1 ≤ n) (hword : constantWires + 2 * n + 5 * n < wordSize) :
    ∃ c, circuit n = .ok c ∧ c.validate = .ok () ∧ c.count .xor = 3 * n ∧ c.count .and = 2 * n ∧
      (∀ a b, a < 2 ^ n → b < 2 ^ n → c.evaluate (lowBits n a ++ lowBits n b) = .ok (lowBits (n + 1) (a + b))) ∧
      c.CompilesInto fun widths => widths.length = 2 * n + 1 := by
  have hv := valid hword
  have hroom : (ofWidth n).permanent + (ofWidth n).gates.length < wordSize := by
    rw [permanent_eq hword, length_gates]
    exact hword
  have hreads : ∀ w, (ofWidth n).permanent ≤ w → (ofWidth n).readsOf w ≤ maxCredits :=
    fun w hw => (readsOf_le hword hw).trans (by decide)
  refine ⟨ofWidth n, circuit_eq_ok hn, (Circuit.validate_eq_ok_iff _).2 hv, count_eq n .xor, count_eq n .and,
    fun a b ha hb => evaluate_eq hword ha hb, Circuit.compilesInto hv hroom hreads ?_⟩
  rw [List.length_map, List.length_range, height_eq hword hn]

/-- Three and two are five, by an adder of two bits. Its plan has five levels. -/
theorem two_bit_adder_adds :
    ∃ c, circuit 2 = .ok c ∧ c.evaluate [true, true, false, true] = .ok [true, false, true] ∧
      (Compiler.compile ⟨5, false, CompilerStats.none⟩ 0 c PlanRecord.empty).ending = .ok () ∧
      (Compiler.compile ⟨5, false, CompilerStats.none⟩ 0 c PlanRecord.empty).sink.plan.levels.length = 5 := by
  obtain ⟨c, hc, -, -, -, hadds, hcompiles⟩ := adder_adds (n := 2) (by decide) (by decide)
  have hpeak : c.peak ≤ addressSpace 5 := by
    obtain rfl := Except.ok.inj hc
    decide +kernel
  obtain ⟨hok, hlevels⟩ := (hcompiles ⟨5, false, CompilerStats.none⟩ 0 PlanRecord.empty (by decide) (by decide)).1 hpeak
  rw [List.length_map] at hlevels
  exact ⟨c, hc, hadds 3 2 (by decide) (by decide), hok, hlevels⟩

end Adder

end GatePlan
