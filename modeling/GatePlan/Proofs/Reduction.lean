/-
The reductions: a tree of AND gates and a chain of XOR gates over all inputs.

The tree is built in rounds, each of which joins neighbours and passes on a last wire
without one. What its rounds make is told by `Joined`, without a limit on their number:
a round leaves half of the wires, rounded up, so `Nat.clog 2 n` rounds leave one
(`exists_joined`), and a higher limit changes nothing (`Joined.rounds_eq`). Every fact
about the tree is one about a round, carried along the rounds: each wire is read once or
passed on (`Joined.perm`), the conjunction of the wires that are left stays the same
(`Joined.value_last`), and the first of them lies as deep as there were rounds, with no
other one deeper (`Joined.depth`).

The wire that the chain hands on is numbered by a formula (`chain_eq`). It holds the
parity of the inputs taken so far, one level deeper with each.
-/
import GatePlan.Generator
import GatePlan.Proofs.Peak

namespace GatePlan

/-! ## Numbered gates -/

/-- Gates whose outputs are numbered from `next` on obey a rule about output and gate. -/
def Numbered (rule : Nat → Gate → Prop) (next : Nat) (gates : List Gate) : Prop :=
  ∀ i g, gates[i]? = some g → rule (next + i) g

namespace Numbered

variable {rule : Nat → Gate → Prop} {next : Nat}

theorem nil : Numbered rule next [] := fun i g h => by simp at h

theorem cons_iff {g : Gate} {gates : List Gate} :
    Numbered rule next (g :: gates) ↔ rule next g ∧ Numbered rule (next + 1) gates := by
  constructor
  · intro h
    refine ⟨h 0 g rfl, fun i g' hi => ?_⟩
    rw [Nat.add_assoc, Nat.add_comm 1 i]
    exact h (i + 1) g' hi
  · intro ⟨hfirst, hrest⟩ i g' hi
    cases i with
    | zero =>
      cases hi
      exact hfirst
    | succ i =>
      rw [← Nat.add_assoc, Nat.add_right_comm]
      exact hrest i g' hi

theorem append_iff {gates more : List Gate} :
    Numbered rule next (gates ++ more) ↔ Numbered rule next gates ∧ Numbered rule (next + gates.length) more := by
  induction gates generalizing next with
  | nil => exact (and_iff_right nil).symm
  | cons g gates ih =>
    rw [List.cons_append, cons_iff, cons_iff, ih, and_assoc, List.length_cons, Nat.add_assoc, Nat.add_comm 1]

theorem mono {rule' : Nat → Gate → Prop} {gates : List Gate} (h : Numbered rule next gates)
    (hrule : ∀ w g, rule w g → rule' w g) : Numbered rule' next gates :=
  fun i g hi => hrule _ g (h i g hi)

end Numbered

namespace AndTree

variable {wires : List Nat} {next : Nat}

/-! ## One round -/

theorem joinPairs_cons_cons (a b : Nat) (rest : List Nat) (next : Nat) : joinPairs (a :: b :: rest) next =
    (⟨.and, a, b⟩ :: (joinPairs rest (next + 1)).1, next :: (joinPairs rest (next + 1)).2) := rfl

theorem length_gates_joinPairs : ∀ (wires : List Nat) (next : Nat),
    (joinPairs wires next).1.length = wires.length / 2
  | [], _ => rfl
  | [_], _ => (Nat.div_eq_of_lt one_lt_two).symm
  | a :: b :: rest, next => by
    rw [joinPairs_cons_cons, List.length_cons, length_gates_joinPairs rest, List.length_cons, List.length_cons]
    omega

/-- It reads every wire once that it does not pass on. -/
theorem perm_joinPairs : ∀ (wires : List Nat) (next : Nat),
    ((joinPairs wires next).1.flatMap Gate.reads ++ (joinPairs wires next).2).Perm
      (wires ++ List.range' next (joinPairs wires next).1.length)
  | [], _ => .refl _
  | [_], _ => .refl _
  | a :: b :: rest, next => by
    have hrest := perm_joinPairs rest (next + 1)
    rw [joinPairs_cons_cons, List.length_cons, List.range'_succ, List.flatMap_cons, Gate.reads]
    exact ((List.perm_middle.trans ((hrest.cons next).trans List.perm_middle.symm)).cons b).cons a

theorem length_joinPairs (wires : List Nat) (next : Nat) : (joinPairs wires next).2.length = (wires.length + 1) / 2 := by
  have hperm := (perm_joinPairs wires next).length_eq
  have hgates := length_gates_joinPairs wires next
  have hreads : ((joinPairs wires next).1.flatMap Gate.reads).length = (joinPairs wires next).1.length * 2 := by
    simp [List.length_flatMap, Gate.reads]
  rw [List.length_append, List.length_append, List.length_range', hreads] at hperm
  omega

theorem mem_joinPairs : ∀ {wires : List Nat} {next : Nat} {g : Gate}, g ∈ (joinPairs wires next).1 →
    g.type = .and ∧ g.input1 ∈ wires ∧ g.input2 ∈ wires
  | a :: b :: rest, next, g, hg => by
    rw [joinPairs_cons_cons, List.mem_cons] at hg
    rcases hg with rfl | hg
    · simp
    · obtain ⟨htype, h1, h2⟩ := mem_joinPairs hg
      exact ⟨htype, .tail _ (.tail _ h1), .tail _ (.tail _ h2)⟩

theorem mem_left_joinPairs {w : Nat} (hw : w ∈ (joinPairs wires next).2) :
    w ∈ wires ∨ next ≤ w ∧ w < next + (joinPairs wires next).1.length := by
  have hmem := (perm_joinPairs wires next).mem_iff.1 (List.mem_append_right _ hw)
  rwa [List.mem_append, List.mem_range'_1] at hmem

theorem all_joinPairs {value : Nat → Bool} : ∀ {wires : List Nat} {next : Nat},
    Numbered (fun w g => value w = (value g.input1 && value g.input2)) next (joinPairs wires next).1 →
      (joinPairs wires next).2.all value = wires.all value
  | [], _, _ | [_], _, _ => rfl
  | a :: b :: rest, next, h => by
    rw [joinPairs_cons_cons] at h ⊢
    obtain ⟨hfirst, hrest⟩ := Numbered.cons_iff.1 h
    rw [List.all_cons, List.all_cons, List.all_cons, all_joinPairs hrest, hfirst, Bool.and_assoc]

/-- The wires after `k` rounds: the first is as deep as there were rounds, and no other
one is deeper, though a wire that was passed on may lie higher. -/
structure Level (depth : Nat → Nat) (k : Nat) (wires : List Nat) : Prop where
  first : (wires.head?.map depth) = some k
  le : ∀ w ∈ wires, depth w ≤ k

/-- What the gates of a tree say of the depth of their outputs. -/
abbrev DepthRule (depth : Nat → Nat) (w : Nat) (g : Gate) : Prop :=
  depth w = max (depth g.input1) (depth g.input2) + 1

theorem Level.gates {depth : Nat → Nat} {k : Nat} (h : Level depth k wires)
    (hgates : Numbered (DepthRule depth) next (joinPairs wires next).1) :
    Numbered (fun w _ => depth w ≤ k + 1) next (joinPairs wires next).1 := by
  intro i g hi
  obtain ⟨-, h1, h2⟩ := mem_joinPairs (List.mem_of_getElem? hi)
  rw [hgates i g hi]
  exact Nat.succ_le_succ (max_le (h.le _ h1) (h.le _ h2))

theorem Level.joinPairs {depth : Nat → Nat} {k : Nat} (h : Level depth k wires) (htwo : 2 ≤ wires.length)
    (hgates : Numbered (DepthRule depth) next (joinPairs wires next).1) :
    Level depth (k + 1) (joinPairs wires next).2 where
  first := by
    match wires, htwo with
    | a :: b :: rest, _ =>
      have ha : depth a = k := by simpa using h.first
      have hb : depth b ≤ k := h.le b (by simp)
      have hfirst : depth next = max (depth a) (depth b) + 1 := hgates 0 ⟨.and, a, b⟩ rfl
      rw [joinPairs_cons_cons, List.head?_cons, Option.map_some, hfirst, ha, Nat.max_eq_left hb]
  le w hw := by
    rcases mem_left_joinPairs hw with hold | ⟨hge, hlt⟩
    · exact Nat.le_succ_of_le (h.le w hold)
    · obtain ⟨i, rfl⟩ := Nat.exists_eq_add_of_le hge
      exact h.gates hgates i _ (List.getElem?_eq_getElem (Nat.lt_of_add_lt_add_left hlt))

/-! ## All rounds -/

/-- What `count` rounds make of wires, until one is left: gates, and that wire. -/
inductive Joined : (count : Nat) → (wires : List Nat) → (next : Nat) → (gates : List Gate) → (last : Nat) → Prop
  | done (w next : Nat) : Joined 0 [w] next [] w
  | round {count next last : Nat} {wires : List Nat} {more : List Gate} (htwo : 2 ≤ wires.length)
      (hrest : Joined count (joinPairs wires next).2 (next + (joinPairs wires next).1.length) more last) :
      Joined (count + 1) wires next ((joinPairs wires next).1 ++ more) last

/-- **The rounds come to an end.** Each leaves half of the wires, rounded up. -/
theorem exists_joined (hne : wires ≠ []) (next : Nat) :
    ∃ gates last, Joined (Nat.clog 2 wires.length) wires next gates last := by
  induction hlength : wires.length using Nat.strong_induction_on generalizing wires next with
  | _ n ih =>
    match wires, hne with
    | [w], _ =>
      rw [← hlength]
      exact ⟨[], w, .done w next⟩
    | a :: b :: rest, _ =>
      have htwo : 2 ≤ (a :: b :: rest).length := by simp
      have hleft := length_joinPairs (a :: b :: rest) next
      have hhalf : Nat.clog 2 n = Nat.clog 2 ((n + 1) / 2) + 1 := Nat.clog_of_two_le one_lt_two (hlength ▸ htwo)
      have hleftne : (joinPairs (a :: b :: rest) next).2 ≠ [] := List.ne_nil_of_length_pos (by omega)
      obtain ⟨more, last, hrest⟩ := ih ((n + 1) / 2) (by omega) hleftne
        (next + (joinPairs (a :: b :: rest) next).1.length) (by omega)
      rw [hhalf]
      exact ⟨_, last, .round htwo hrest⟩

namespace Joined

variable {count last : Nat} {gates : List Gate}

/-- As many rounds as it takes are enough, and more do nothing. -/
theorem rounds_eq (h : Joined count wires next gates last) {limit : Nat} (hle : count ≤ limit) :
    rounds limit wires next = (gates, [last]) := by
  induction h generalizing limit with
  | done w next =>
    cases limit with
    | zero => rfl
    | succ limit => exact if_pos le_rfl
  | round htwo hrest ih =>
    cases limit with
    | zero => omega
    | succ limit =>
      rw [rounds, if_neg (by omega)]
      dsimp only
      rw [ih (by omega)]

theorem length_gates (h : Joined count wires next gates last) : gates.length + 1 = wires.length := by
  induction h with
  | done w next => rfl
  | round htwo hrest ih =>
    rw [length_joinPairs] at ih
    rw [List.length_append, length_gates_joinPairs]
    omega

theorem type_eq (h : Joined count wires next gates last) : ∀ g ∈ gates, g.type = .and := by
  induction h with
  | done w next => simp
  | round htwo hrest ih =>
    intro g hg
    rcases List.mem_append.1 hg with hfirst | hlater
    · exact (mem_joinPairs hfirst).1
    · exact ih g hlater

/-- **Every wire is read once**, but for the last. -/
theorem perm (h : Joined count wires next gates last) :
    (gates.flatMap Gate.reads ++ [last]).Perm (wires ++ List.range' next gates.length) := by
  induction h with
  | done w next => exact .refl _
  | @round count next last wires more htwo hrest ih =>
    have hround := (perm_joinPairs wires next).append_right
      (List.range' (next + (joinPairs wires next).1.length) more.length)
    rw [List.flatMap_append, List.append_assoc, List.length_append, ← List.range'_append_1, ← List.append_assoc wires]
    refine (ih.append_left _).trans ?_
    rwa [← List.append_assoc]

theorem ordered (h : Joined count wires next gates last) (hwires : ∀ w ∈ wires, w < next) :
    Numbered (fun w g => g.input1 < w ∧ g.input2 < w) next gates := by
  induction h with
  | done w next => exact .nil
  | @round count next last wires more htwo hrest ih =>
    refine Numbered.append_iff.2 ⟨fun i g hi => ?_, ih fun w hw => ?_⟩
    · obtain ⟨-, h1, h2⟩ := mem_joinPairs (List.mem_of_getElem? hi)
      have := hwires _ h1
      have := hwires _ h2
      omega
    · rcases mem_left_joinPairs hw with hold | ⟨-, hlt⟩
      · have := hwires w hold
        omega
      · exact hlt

theorem value_last {value : Nat → Bool} (h : Joined count wires next gates last)
    (hgates : Numbered (fun w g => value w = (value g.input1 && value g.input2)) next gates) :
    value last = wires.all value := by
  induction h with
  | done w next => simp
  | round htwo hrest ih =>
    obtain ⟨hfirst, hlater⟩ := Numbered.append_iff.1 hgates
    rw [ih hlater, all_joinPairs hfirst]

/-- **The last wire lies as deep as there are rounds**, and no gate deeper. -/
theorem depth {depth : Nat → Nat} {k : Nat} (h : Joined count wires next gates last)
    (hgates : Numbered (DepthRule depth) next gates) (hlevel : Level depth k wires) :
    depth last = k + count ∧ Numbered (fun w _ => depth w ≤ k + count) next gates := by
  induction h generalizing k with
  | done w next => exact ⟨by simpa using hlevel.first, .nil⟩
  | @round count next last wires more htwo hrest ih =>
    obtain ⟨hfirst, hlater⟩ := Numbered.append_iff.1 hgates
    obtain ⟨hlast, hle⟩ := ih hlater (hlevel.joinPairs htwo hfirst)
    rw [← Nat.succ_add_eq_add_succ]
    refine ⟨hlast, Numbered.append_iff.2 ⟨(hlevel.gates hfirst).mono fun w _ hw => ?_, hle⟩⟩
    omega

end Joined

end AndTree

/-! ## Circuits that reduce their inputs -/

namespace Circuit

variable {c : Circuit} {n : Nat}

/-- A circuit of `n` inputs and one output that reduces them by gates of one type. -/
structure Reduces (c : Circuit) (type : GateType) (n : Nat) (total : List Bool → Bool) : Prop where
  valid : c.validate = .ok ()
  length : c.gates.length = n - 1
  type : ∀ g ∈ c.gates, g.type = type
  value : ∀ inputs : List Bool, inputs.length = n → c.evaluate inputs = .ok [total inputs]

theorem readsOf_le_one {start count last : Nat}
    (hperm : (c.gates.flatMap Gate.reads ++ [last]).Perm (List.range' start count)) (w : Nat) : c.readsOf w ≤ 1 := by
  have hnodup : (c.gates.flatMap Gate.reads).Nodup := (hperm.nodup_iff.2 (List.nodup_range' 1)).of_append_left
  exact List.nodup_iff_count_le_one.1 hnodup w

theorem valid_of_numbered {gates : List Gate} {last : Nat} (hword : constantWires + n + gates.length < wordSize)
    (hgates : Numbered (fun w g => g.input1 < w ∧ g.input2 < w) (constantWires + n) gates)
    (hlast : last < constantWires + n + gates.length) : (Circuit.mk n gates [last]).Valid := by
  have hpermanent : (Circuit.mk n gates [last]).permanent = constantWires + n :=
    permanent_eq (Nat.lt_of_le_of_lt (Nat.le_add_right _ _) hword)
  refine ⟨?room, ?ordered, ?produced⟩
  case room =>
    rw [hpermanent]
    exact hword.le
  case ordered =>
    rw [hpermanent]
    exact hgates
  case produced =>
    intro w hw
    rwa [List.mem_singleton.1 hw, wires, hpermanent, wrap_of_lt hword]

end Circuit

/-! ## The tree -/

namespace AndTree

variable {n count last : Nat} {gates : List Gate}

theorem perm_range (h : Joined count (List.range' constantWires n) (constantWires + n) gates last) :
    (gates.flatMap Gate.reads ++ [last]).Perm (List.range' constantWires (n + gates.length)) := by
  rw [← List.range'_append_1]
  exact h.perm

theorem valid (h : Joined count (List.range' constantWires n) (constantWires + n) gates last)
    (hword : constantWires + n + gates.length < wordSize) : (Circuit.mk n gates [last]).Valid := by
  refine Circuit.valid_of_numbered hword (h.ordered fun w hw => ?_) ?_
  · exact (List.mem_range'_1.1 hw).2
  · have hlast := (perm_range h).mem_iff.1 (List.mem_append_right _ (List.mem_singleton_self last))
    rw [Nat.add_assoc]
    exact (List.mem_range'_1.1 hlast).2

theorem permanent_eq (last : Nat) (hword : constantWires + n + gates.length < wordSize) :
    (Circuit.mk n gates [last]).permanent = constantWires + n :=
  Circuit.permanent_eq (c := ⟨n, gates, [last]⟩) (Nat.lt_of_le_of_lt (Nat.le_add_right _ _) hword)

section

variable (h : Joined count (List.range' constantWires n) (constantWires + n) gates last)
  (hword : constantWires + n + gates.length < wordSize)

include h hword

/-- **A tree evaluates to the conjunction of its inputs.** -/
theorem evaluate_eq {inputs : List Bool} (hinputs : inputs.length = n) :
    (Circuit.mk n gates [last]).evaluate inputs = .ok [inputs.all id] := by
  have hpermanent := permanent_eq last hword
  have hgates : Numbered (fun w g => (Circuit.mk n gates [last]).wireValue inputs w =
      ((Circuit.mk n gates [last]).wireValue inputs g.input1 && (Circuit.mk n gates [last]).wireValue inputs g.input2))
      (constantWires + n) gates := by
    intro i g hi
    have hvalue := Circuit.wireValue_gate (valid h hword) (hpermanent.trans (congrArg _ hinputs.symm)) hi
    rwa [hpermanent, h.type_eq g (List.mem_of_getElem? hi)] at hvalue
  have hvalue := h.value_last hgates
  rw [Circuit.evaluate_eq (valid h hword) hinputs, List.map_singleton, hvalue]
  conv_rhs => rw [← Circuit.map_wireValue_inputs ⟨n, gates, [last]⟩ inputs, List.all_map, hinputs]
  rfl

/-- **A tree has as many levels as rounds.** -/
theorem height_eq (hn : 1 ≤ n) : (Circuit.mk n gates [last]).height = count := by
  have hpermanent := permanent_eq last hword
  have hv := valid h hword
  have hgates : Numbered (DepthRule (Circuit.mk n gates [last]).depth) (constantWires + n) gates := by
    intro i g hi
    have hdepth := Circuit.depth_gate hv hi
    rwa [hpermanent] at hdepth
  have hinput : ∀ w ∈ List.range' constantWires n, (Circuit.mk n gates [last]).depth w = 0 := fun w hw =>
    Circuit.depth_of_permanent (hpermanent ▸ (List.mem_range'_1.1 hw).2)
  have hlevel : Level (Circuit.mk n gates [last]).depth 0 (List.range' constantWires n) := by
    refine ⟨?_, fun w hw => (hinput w hw).le⟩
    obtain ⟨m, rfl⟩ := Nat.exists_eq_add_of_le' hn
    rw [List.range'_succ, List.head?_cons, Option.map_some, hinput _ (by rw [List.range'_succ]; exact .head _)]
  obtain ⟨hlast, hle⟩ := h.depth hgates hlevel
  rw [Nat.zero_add] at hlast
  rw [Circuit.height_eq_depth (w := last) (hv.output_lt (.head _)) fun i hi => ?_, hlast]
  rw [Circuit.gateDepth, hpermanent, hlast, ← Nat.zero_add count]
  exact hle i _ (List.getElem?_eq_getElem hi)

theorem reduces (hlength : gates.length = n - 1) : (Circuit.mk n gates [last]).Reduces .and n (·.all id) where
  valid := (Circuit.validate_eq_ok_iff _).2 (valid h hword)
  length := hlength
  type := h.type_eq
  value _ := evaluate_eq h hword

theorem compilesInto (hn : 1 ≤ n) : (Circuit.mk n gates [last]).CompilesInto fun widths => widths.length = count := by
  refine Circuit.compilesInto (valid h hword) ?_ (fun w => ?_) ?_
  · rwa [permanent_eq last hword]
  · exact fun _ => (Circuit.readsOf_le_one (c := ⟨n, gates, [last]⟩) (perm_range h) w).trans (by decide)
  · rw [List.length_map, List.length_range, height_eq h hword hn]

end

end AndTree

/-! ## The chain -/

namespace Parity

variable {n i : Nat}

/-- The wire that holds the parity of the first `i + 1` inputs. -/
def accumulator (n : Nat) : (i : Nat) → Nat
  | 0 => constantWires
  | i + 1 => constantWires + n + i

/-- The chain over `n` inputs. -/
def ofInputs (n : Nat) : Circuit where
  inputs := n
  gates := (List.range (n - 1)).map fun i => ⟨.xor, accumulator n i, constantWires + i + 1⟩
  outputs := [accumulator n (n - 1)]

theorem chain_eq (n count i : Nat) :
    chain (List.range' (constantWires + i + 1) count) (accumulator n i) (constantWires + n + i) =
      ((List.range' i count).map fun i => ⟨.xor, accumulator n i, constantWires + i + 1⟩, accumulator n (i + count)) := by
  induction count generalizing i with
  | zero => rfl
  | succ count ih =>
    have hnext : constantWires + n + i = accumulator n (i + 1) := rfl
    rw [List.range'_succ, chain, Nat.add_assoc constantWires i 1, Nat.add_assoc (constantWires + n), hnext, ih,
      List.range'_succ, Nat.succ_add_eq_add_succ]
    rfl

theorem circuit_eq_ok (hn : 1 ≤ n) : circuit n = .ok (ofInputs n) := by
  have hchain : chain (List.range' (constantWires + 1) (n - 1)) constantWires (constantWires + n) =
      ((List.range (n - 1)).map fun i => ⟨.xor, accumulator n i, constantWires + i + 1⟩, accumulator n (n - 1)) := by
    have h := chain_eq n (n - 1) 0
    rwa [← List.range_eq_range', Nat.zero_add] at h
  rw [circuit, if_neg (Nat.one_le_iff_ne_zero.1 hn), hchain]
  rfl

@[simp] theorem length_gates (n : Nat) : (ofInputs n).gates.length = n - 1 := by simp [ofInputs]

theorem getElem?_gates (hi : i + 1 < n) :
    (ofInputs n).gates[i]? = some ⟨.xor, accumulator n i, constantWires + i + 1⟩ := by
  rw [ofInputs, List.getElem?_map, List.getElem?_range (by omega), Option.map_some]

theorem exists_gate {g : Gate} (h : (ofInputs n).gates[i]? = some g) :
    i + 1 < n ∧ g = ⟨.xor, accumulator n i, constantWires + i + 1⟩ := by
  have hi : i < n - 1 := length_gates n ▸ (List.getElem?_eq_some_iff.1 h).1
  rw [getElem?_gates (by omega)] at h
  exact ⟨by omega, (Option.some.inj h).symm⟩

theorem accumulator_lt (hn : 1 ≤ n) (i : Nat) : accumulator n i < constantWires + n + i := by
  cases i with
  | zero => rw [accumulator]; omega
  | succ i => rw [accumulator]; omega

theorem perm_range (n count : Nat) :
    (((List.range count).map fun i => (⟨.xor, accumulator n i, constantWires + i + 1⟩ : Gate)).flatMap Gate.reads ++
      [accumulator n count]).Perm (List.range' constantWires (count + 1) ++ List.range' (constantWires + n) count) := by
  induction count with
  | zero => exact .refl _
  | succ count ih =>
    let gates := (List.range count).map fun i => (⟨.xor, accumulator n i, constantWires + i + 1⟩ : Gate)
    let taken := List.range' constantWires (count + 1)
    let made := List.range' (constantWires + n) count
    rw [List.range_succ, List.map_append, List.flatMap_append, List.map_singleton, List.flatMap_singleton,
      List.range'_1_concat, List.range'_1_concat (s := constantWires + n), List.append_assoc, List.append_assoc]
    calc gates.flatMap Gate.reads ++ ([accumulator n count] ++ [constantWires + count + 1, constantWires + n + count])
      _ |>.Perm (taken ++ made ++ [constantWires + count + 1, constantWires + n + count]) := by
        rw [← List.append_assoc]
        exact ih.append_right _
      _ |>.Perm (taken ++ ([constantWires + count + 1] ++ (made ++ [constantWires + n + count]))) := by
        rw [List.append_assoc]
        exact List.perm_middle.append_left taken

section

variable (hn : 1 ≤ n) (hword : 2 * n + 1 < wordSize)

include hn hword

theorem permanent_eq : (ofInputs n).permanent = constantWires + n :=
  Circuit.permanent_eq (c := ofInputs n) (by simp only [ofInputs, constantWires]; omega)

theorem valid : (ofInputs n).Valid := by
  have hlast := accumulator_lt hn (n - 1)
  refine Circuit.valid_of_numbered (by simp [constantWires]; omega) (fun i g hi => ?_) (by simpa using hlast)
  obtain ⟨hlt, rfl⟩ := exists_gate hi
  exact ⟨accumulator_lt hn i, by dsimp only; omega⟩

theorem accumulator_succ (i : Nat) : accumulator n (i + 1) = (ofInputs n).permanent + i := by
  rw [permanent_eq hn hword, accumulator]

/-- **The accumulator lies one level deeper with every input.** -/
theorem depth_accumulator (hi : i < n) : (ofInputs n).depth (accumulator n i) = i := by
  have hpermanent := permanent_eq hn hword
  induction i with
  | zero => exact Circuit.depth_of_permanent (by rw [hpermanent, accumulator]; omega)
  | succ i ih =>
    have hinput : (ofInputs n).depth (constantWires + i + 1) = 0 :=
      Circuit.depth_of_permanent (by rw [hpermanent]; omega)
    rw [accumulator_succ hn hword i, Circuit.depth_gate (valid hn hword) (getElem?_gates hi)]
    dsimp only
    rw [ih (by omega), hinput, Nat.max_zero]

/-- **The accumulator holds the parity of the inputs taken so far.** -/
theorem wireValue_accumulator {inputs : List Bool} (hinputs : inputs.length = n) (hi : i < n) :
    (ofInputs n).wireValue inputs (accumulator n i) = (inputs.take (i + 1)).foldl xor false := by
  have hpermanent := permanent_eq hn hword
  induction i with
  | zero =>
    have hfirst := Circuit.wireValue_input (c := ofInputs n) (show 0 < inputs.length by omega)
    rw [List.take_add_one, List.getElem?_eq_getElem (by omega)]
    exact hfirst.trans (Bool.false_xor _).symm
  | succ i ih =>
    have hnext := Circuit.wireValue_input (c := ofInputs n) (show i + 1 < inputs.length by omega)
    rw [accumulator_succ hn hword i, Circuit.wireValue_gate (valid hn hword) (hpermanent.trans (congrArg _ hinputs.symm))
      (getElem?_gates hi)]
    dsimp only
    rw [ih (by omega), Nat.add_assoc, hnext, List.take_add_one (i := i + 1), List.getElem?_eq_getElem (by omega),
      List.foldl_append]
    rfl

theorem evaluate_eq {inputs : List Bool} (hinputs : inputs.length = n) :
    (ofInputs n).evaluate inputs = .ok [inputs.foldl xor false] := by
  have hlast := wireValue_accumulator hn hword hinputs (i := n - 1) (by omega)
  rw [Nat.sub_add_cancel hn, ← hinputs, List.take_length, hinputs] at hlast
  rw [Circuit.evaluate_eq (valid hn hword) hinputs, ofInputs, List.map_singleton, ← ofInputs, hlast]

theorem gateDepth_eq (hi : i + 1 < n) : (ofInputs n).gateDepth i = i + 1 := by
  rw [Circuit.gateDepth, ← accumulator_succ hn hword i]
  exact depth_accumulator hn hword hi

theorem height_eq : (ofInputs n).height = n - 1 := by
  have hlast := depth_accumulator hn hword (i := n - 1) (by omega)
  rw [Circuit.height_eq_depth (w := accumulator n (n - 1)) ?_ fun i hi => ?_, hlast]
  · exact (valid hn hword).output_lt (.head _)
  · rw [length_gates] at hi
    rw [gateDepth_eq hn hword (by omega), hlast]
    omega

theorem length_levelGates (hi : i + 1 < n) : ((ofInputs n).levelGates (i + 1)).length = 1 := by
  have hperm : ((ofInputs n).levelGates (i + 1)).Perm [i] := by
    refine (List.perm_ext_iff_of_nodup (Circuit.nodup_levelGates ..) (List.nodup_singleton i)).2 fun j => ?_
    rw [Circuit.mem_levelGates, length_gates, List.mem_singleton]
    constructor
    · intro ⟨hj, hdepth⟩
      rw [gateDepth_eq hn hword (by omega)] at hdepth
      omega
    · rintro rfl
      exact ⟨by omega, gateDepth_eq hn hword hi⟩
  exact hperm.length_eq

theorem reduces : (ofInputs n).Reduces .xor n (·.foldl xor false) where
  valid := (Circuit.validate_eq_ok_iff _).2 (valid hn hword)
  length := length_gates n
  type g hg := by
    obtain ⟨i, -, rfl⟩ := List.mem_map.1 hg
    rfl
  value _ := evaluate_eq hn hword

theorem compilesInto : (ofInputs n).CompilesInto fun widths => widths = List.replicate (n - 1) 1 := by
  refine Circuit.compilesInto (valid hn hword) ?_ (fun w => ?_) ?_
  · rw [permanent_eq hn hword, length_gates, constantWires]
    omega
  · have hperm := perm_range n (n - 1)
    rw [Nat.sub_add_cancel hn, List.range'_append_1] at hperm
    exact fun _ => (Circuit.readsOf_le_one (c := ofInputs n) hperm w).trans (by decide)
  · rw [height_eq hn hword]
    refine List.eq_replicate_iff.2 ⟨by simp, List.forall_mem_map.2 fun i hi => ?_⟩
    rw [List.mem_range] at hi
    exact length_levelGates hn hword (by omega)

end

end Parity

/-! ## Both reductions -/

/-- **The reductions reduce all their inputs**, by one gate less than there are inputs.
The rounds of the tree come to an end, and its levels are as many as the rounds, so one
more for every doubling; each level of the chain is a single gate. -/
theorem reductions_take_every_input {n : Nat} (hn : 1 ≤ n) (hword : 2 * n + 1 < wordSize) :
    (∃ c, AndTree.circuit n = .ok c ∧
      (∀ limit, Nat.clog 2 n ≤ limit →
        AndTree.rounds limit (List.range' constantWires n) (constantWires + n) = (c.gates, c.outputs)) ∧
      c.Reduces .and n (·.all id) ∧ c.CompilesInto fun widths => widths.length = Nat.clog 2 n) ∧
    ∃ c, Parity.circuit n = .ok c ∧ c.Reduces .xor n (·.foldl xor false) ∧
      c.CompilesInto fun widths => widths = List.replicate (n - 1) 1 := by
  refine ⟨?_, Parity.ofInputs n, Parity.circuit_eq_ok hn, Parity.reduces hn hword, Parity.compilesInto hn hword⟩
  have hne : List.range' constantWires n ≠ [] := List.ne_nil_of_length_pos (by rwa [List.length_range'])
  obtain ⟨gates, last, h⟩ := AndTree.exists_joined hne (constantWires + n)
  have hlength := h.length_gates
  rw [List.length_range'] at h hlength
  have hword' : constantWires + n + gates.length < wordSize := by
    rw [constantWires]
    omega
  have hrounds := h.rounds_eq (Nat.clog_le_of_le_pow Nat.lt_two_pow_self.le)
  refine ⟨⟨n, gates, [last]⟩, ?_, fun limit => h.rounds_eq, AndTree.reduces h hword' (by omega),
    AndTree.compilesInto h hword' hn⟩
  rw [AndTree.circuit, if_neg (Nat.one_le_iff_ne_zero.1 hn), hrounds]

/-- A tree over five inputs passes one of them on twice: two gates, then one, then one. -/
theorem five_inputs_are_reduced :
    ∃ c, AndTree.circuit 5 = .ok c ∧ c.gates.length = 4 ∧ c.evaluate [true, true, true, true, false] = .ok [false] ∧
      (Compiler.compile ⟨5, false, CompilerStats.none⟩ 0 c PlanRecord.empty).ending = .ok () ∧
      (Compiler.compile ⟨5, false, CompilerStats.none⟩ 0 c PlanRecord.empty).sink.plan.levels.length = 3 := by
  obtain ⟨⟨c, hc, -, hreduces, hcompiles⟩, -⟩ := reductions_take_every_input (n := 5) (by decide) (by decide)
  have hpeak : c.peak ≤ addressSpace 5 := by
    obtain rfl := Except.ok.inj hc
    decide +kernel
  obtain ⟨hok, hlevels⟩ := (hcompiles ⟨5, false, CompilerStats.none⟩ 0 PlanRecord.empty (by decide) (by decide)).1 hpeak
  refine ⟨c, hc, hreduces.length, hreduces.value _ rfl, hok, ?_⟩
  rw [List.length_map] at hlevels
  rw [hlevels]
  decide

end GatePlan
