/-
Streams. An encoder and a decoder go through the same items, each with a state
besides its bytes, and keep in step: both states are read off one (`enc`,
`dec`), and an item takes both to what is read off the next one (`Steps`). A
list of items that lead from one state to another (`Along`) is then written as
bytes of which reading gives the items back, by their number (`Along.times`) or
until there are no more (`Along.draws`, `Along.decodes`).

What the items of a stream have to be like is in the relation. Where an item is
not so, and the reader refuses its bytes as malformed (`Refused`), the stream is
drawn up to it, whatever was appended after it (`Along.decodes_until`).
-/
import GatePlan.Proofs.Codec

namespace GatePlan

variable {ε δ α β : Type}

/-! ## Steps -/

/-- From `e` and `d`, given the bytes they have, the writer appends what the
reader reads as `a`, and they come to `e'` and `d'`. -/
structure Steps (bytes : Bytes) (write : Action ε Unit) (read : Action δ α) (e e' : Buffer → ε) (d d' : Reader → δ)
    (a : α) : Prop where
  writes : ∀ out, write (e out) = .ok () (e' (out ++ bytes))
  reads : ∀ rest position, read (d ⟨bytes ++ rest, position⟩) = .ok a (d' ⟨rest, position + bytes.length⟩)

/-- The writer appends these bytes. -/
def Appends (bytes : Bytes) (write : Action ε Unit) (e e' : Buffer → ε) : Prop :=
  ∀ out, write (e out) = .ok () (e' (out ++ bytes))

theorem Appends.bind {bs cs : Bytes} {write1 write2 : Action ε Unit} {e e1 e2 : Buffer → ε}
    (h1 : Appends bs write1 e e1) (h2 : Appends cs write2 e1 e2) :
    Appends (bs ++ cs) (write1 >>= fun _ => write2) e e2 := by
  intro out
  rw [Action.bind_of_ok (h1 out), h2, append_bytes]

theorem steps_nothing (e : Buffer → ε) (d : Reader → δ) (a : α) : Steps [] (pure ()) (pure a) e e d d a where
  writes out := by
    change EStateM.Result.ok () (e out) = _
    simp
  reads _ _ := rfl

theorem Steps.bind {bs cs : Bytes} {write1 write2 : Action ε Unit} {read1 : Action δ α} {read2 : α → Action δ β}
    {e e1 e2 : Buffer → ε} {d d1 d2 : Reader → δ} {a : α} {b : β} (h1 : Steps bs write1 read1 e e1 d d1 a)
    (h2 : Steps cs write2 (read2 a) e1 e2 d1 d2 b) :
    Steps (bs ++ cs) (write1 >>= fun _ => write2) (read1 >>= read2) e e2 d d2 b where
  writes out := by
    rw [Action.bind_of_ok (h1.writes out), h2.writes, append_bytes]
  reads rest position := by
    rw [List.append_assoc, Action.bind_of_ok (h1.reads _ _), h2.reads, List.length_append, Nat.add_assoc]

theorem Steps.settle {bs : Bytes} {write : Action ε Unit} {read : Action δ α} {next : α → Action δ β}
    {e e' : Buffer → ε} {d d1 d2 : Reader → δ} {a : α} {b : β} (h : Steps bs write read e e' d d1 a)
    (hnext : ∀ r, next a (d1 r) = .ok b (d2 r)) : Steps bs write (read >>= next) e e' d d2 b where
  writes := h.writes
  reads rest position := by rw [Action.bind_of_ok (h.reads _ _), hnext]

/-! ## Items -/

variable {κ : Type} {Rel : κ → β → α → κ → Prop}

/-- Items that lead from one state to another, and what is read of each. -/
inductive Along (Rel : κ → β → α → κ → Prop) : κ → List β → List α → κ → Prop
  | nil {k : κ} : Along Rel k [] [] k
  | cons {k k1 k2 : κ} {b : β} {a : α} {bs : List β} {as : List α} (h : Rel k b a k1) (hrest : Along Rel k1 bs as k2) :
    Along Rel k (b :: bs) (a :: as) k2

variable {Rel' : κ → β → α → κ → Prop}

theorem Along.mono {k k' : κ} {bs : List β} {as : List α} (h : Along Rel k bs as k')
    (himp : ∀ {k b a k1}, Rel k b a k1 → Rel' k b a k1) : Along Rel' k bs as k' := by
  induction h with
  | nil => exact .nil
  | cons h _ ih => exact .cons (himp h) ih

theorem Along.length_eq {k k' : κ} {bs : List β} {as : List α} (h : Along Rel k bs as k') : bs.length = as.length := by
  induction h with
  | nil => rfl
  | cons _ _ ih => rw [List.length_cons, List.length_cons, ih]

theorem Along.le {f : κ → Nat} {k k' : κ} {bs : List β} {as : List α} (h : Along Rel k bs as k')
    (hitem : ∀ {k b a k1}, Rel k b a k1 → f k ≤ f k1) : f k ≤ f k' := by
  induction h with
  | nil => exact le_rfl
  | cons h _ ih => exact (hitem h).trans ih

theorem Along.appends {bytes : β → Bytes} {write : α → Action ε Unit} {enc : κ → Buffer → ε} {k k' : κ} {bs : List β}
    {as : List α} (h : Along Rel k bs as k')
    (hitem : ∀ {k b a k1}, Rel k b a k1 → Appends (bytes b) (write a) (enc k) (enc k1)) :
    Appends (bs.flatMap bytes) (as.forM write) (enc k) (enc k') := by
  induction h with
  | nil => exact (steps_nothing (enc _) id ()).writes
  | cons h _ ih => exact (hitem h).bind ih

theorem Along.unique {k k1 k1' : κ} {bs bs' : List β} {as : List α} (h : Along Rel k bs as k1)
    (h' : Along Rel k bs' as k1')
    (hitem : ∀ {k b b' a k1 k1'}, Rel k b a k1 → Rel k b' a k1' → b = b' ∧ k1 = k1') : bs = bs' ∧ k1 = k1' := by
  induction h generalizing bs' with
  | nil =>
    cases h'
    exact ⟨rfl, rfl⟩
  | cons h _ ih =>
    cases h' with
    | cons h' hrest' =>
      obtain ⟨rfl, rfl⟩ := hitem h h'
      obtain ⟨rfl, rfl⟩ := ih hrest'
      exact ⟨rfl, rfl⟩

theorem Along.flatMap_inj {bytes : β → Bytes} {k k1 k1' : κ} {bs bs' : List β} {as : List α} {more more' : Bytes}
    (h : Along Rel k bs as k1) (h' : Along Rel k bs' as k1')
    (hitem : ∀ {k b b' a k1 k1'} {more more' : Bytes}, Rel k b a k1 → Rel k b' a k1' →
      bytes b ++ more = bytes b' ++ more' → b = b' ∧ k1 = k1' ∧ more = more')
    (heq : bs.flatMap bytes ++ more = bs'.flatMap bytes ++ more') : bs = bs' ∧ k1 = k1' ∧ more = more' := by
  induction h generalizing bs' with
  | nil =>
    cases h'
    exact ⟨rfl, rfl, heq⟩
  | cons h _ ih =>
    cases h' with
    | cons h' hrest' =>
      rw [List.flatMap_cons, List.flatMap_cons, List.append_assoc, List.append_assoc] at heq
      obtain ⟨rfl, rfl, hrest⟩ := hitem h h' heq
      obtain ⟨rfl, hlast, hmore⟩ := ih hrest' hrest
      exact ⟨rfl, hlast, hmore⟩

theorem Along.exchange {bytes : β → Bytes} {k k' : κ} {bs : List β} {as : List α} (h : Along Rel k bs as k')
    (hitem : ∀ {k b a k1}, Rel k b a k1 → ∃ b', Rel' k b' a k1 ∧ (bytes b').length ≤ (bytes b).length) :
    ∃ bs', Along Rel' k bs' as k' ∧ (bs'.flatMap bytes).length ≤ (bs.flatMap bytes).length := by
  induction h with
  | nil => exact ⟨[], .nil, le_rfl⟩
  | cons h _ ih =>
    obtain ⟨b', hb', hlength⟩ := hitem h
    obtain ⟨bs', hbs', hlengths⟩ := ih
    refine ⟨b' :: bs', .cons hb' hbs', ?_⟩
    rw [List.flatMap_cons, List.flatMap_cons, List.length_append, List.length_append]
    omega

variable {enc : κ → Buffer → ε} {dec : κ → Reader → δ} {k k' : κ} {bs : List β} {as : List α}

/-- **Items are read as often as there are.** -/
theorem Along.times {write : β → Action ε Unit} {read : Action δ α} (h : Along Rel k bs as k')
    (hstep : ∀ {k b a k1}, Rel k b a k1 → ∃ bytes, Steps bytes (write b) read (enc k) (enc k1) (dec k) (dec k1) a) :
    ∃ bytes, Steps bytes (bs.forM write) (Action.times read as.length) (enc k) (enc k') (dec k) (dec k') as := by
  induction h with
  | nil => exact ⟨[], steps_nothing ..⟩
  | cons hitem _ ih =>
    obtain ⟨first, hfirst⟩ := hstep hitem
    obtain ⟨more, hmore⟩ := ih
    refine ⟨first ++ more, ?_⟩
    rw [List.length_cons, Action.times_succ]
    exact hfirst.bind (hmore.settle fun _ => rfl)

/-- **Items are drawn until there are no more**, whatever is drawn after them. -/
theorem Along.draws {write : β → Action ε Unit} {next : Action δ (Option α)} (h : Along Rel k bs as k')
    (hstep : ∀ {k b a k1}, Rel k b a k1 →
      ∃ bytes, bytes ≠ [] ∧ Steps bytes (write b) next (enc k) (enc k1) (dec k) (dec k1) (some a)) :
    ∃ bytes : Bytes, as.length ≤ bytes.length ∧ (∀ out, bs.forM write (enc k out) = .ok () (enc k' (out ++ bytes))) ∧
      ∀ (rest : Bytes) (position : Nat) (d : Drawn δ α),
        Drawn.From next (dec k' ⟨rest, position + bytes.length⟩) d →
          Drawn.From next (dec k ⟨bytes ++ rest, position⟩) ⟨as ++ d.items, d.ending, d.state⟩ := by
  induction h with
  | nil =>
    refine ⟨[], le_rfl, fun out => ?_, fun rest position d hd => hd⟩
    change EStateM.Result.ok () (enc _ out) = _
    simp
  | cons hitem _ ih =>
    obtain ⟨first, hne, hfirst⟩ := hstep hitem
    obtain ⟨more, hlength, hwrites, hdraws⟩ := ih
    refine ⟨first ++ more, ?_, fun out => ?_, fun rest position d hd => ?_⟩
    · have := List.length_pos_iff.2 hne
      rw [List.length_cons, List.length_append]
      omega
    · refine Action.forM_cons_eq_ok_iff.2 ⟨_, hfirst.writes out, ?_⟩
      rw [hwrites, append_bytes]
    · rw [List.append_assoc]
      refine .item (hfirst.reads _ _) (hdraws _ _ d ?_)
      rwa [Nat.add_assoc, ← List.length_append]

/-- A stream of items and no more is drawn to its end: each item takes a byte, so
there are no more items than bytes. -/
theorem Along.decodes {write : β → Action ε Unit} {next : Action δ (Option α)} (h : Along Rel k bs as k')
    (hstep : ∀ {k b a k1}, Rel k b a k1 →
      ∃ bytes, bytes ≠ [] ∧ Steps bytes (write b) next (enc k) (enc k1) (dec k) (dec k1) (some a))
    (hend : ∀ position, next (dec k' ⟨[], position⟩) = .ok none (dec k' ⟨[], position⟩)) :
    ∃ bytes : Bytes, bs.forM write (enc k #[]) = .ok () (enc k' bytes.toArray) ∧
      Drawn.draw next (bytes.length + 1) (dec k (Reader.ofBytes bytes)) = ⟨as, .ok (), dec k' ⟨[], bytes.length⟩⟩ := by
  obtain ⟨bytes, hlength, hwrites, hdraws⟩ := h.draws hstep
  refine ⟨bytes, ?_, ?_⟩
  · rw [hwrites]
    simp
  · have hfrom := hdraws [] 0 _ (.ended (hend _))
    rw [List.append_nil, List.append_nil, Nat.zero_add] at hfrom
    exact Drawn.draw_of_from hfrom (Nat.lt_succ_of_le hlength)

/-! ## Refusals -/

theorem appends_forM {write : β → Action ε Unit} (Good : κ → Prop)
    (h : ∀ b ∈ bs, ∀ {k}, Good k → ∃ bytes k', Good k' ∧ Appends bytes (write b) (enc k) (enc k')) (hk : Good k) :
    ∃ bytes k', Good k' ∧ Appends bytes (bs.forM write) (enc k) (enc k') := by
  induction bs generalizing k with
  | nil => exact ⟨[], k, hk, (steps_nothing (enc k) id ()).writes⟩
  | cons b bs ih =>
    obtain ⟨first, k1, hk1, hfirst⟩ := h b (List.mem_cons_self ..) hk
    obtain ⟨more, k', hk', hmore⟩ := ih (fun b' hb' => h b' (List.mem_cons_of_mem _ hb')) hk1
    exact ⟨first ++ more, k', hk', hfirst.bind hmore⟩

/-- From `e` and `d`, given the bytes they have, the writer appends what the
reader refuses as malformed, and comes to `e'`. -/
structure Refused (bytes : Bytes) (write : Action ε Unit) (read : Action δ α) (e e' : Buffer → ε) (d : Reader → δ) :
    Prop where
  writes : Appends bytes write e e'
  refuses : ∀ rest position, ∃ fault s, read (d ⟨bytes ++ rest, position⟩) = .error fault s ∧ fault.kind = .malformed

/-- Whatever is written after the refused bytes, and would be read after them, the
refusal stays. -/
theorem Refused.bind {bs cs : Bytes} {write1 write2 : Action ε Unit} {read : Action δ α} {next : α → Action δ β}
    {e e1 e2 : Buffer → ε} {d : Reader → δ} (h : Refused bs write1 read e e1 d) (hmore : Appends cs write2 e1 e2) :
    Refused (bs ++ cs) (write1 >>= fun _ => write2) (read >>= next) e e2 d where
  writes := h.writes.bind hmore
  refuses rest position := by
    obtain ⟨fault, s, hread, hkind⟩ := h.refuses (cs ++ rest) position
    rw [List.append_assoc]
    exact ⟨fault, s, Action.bind_of_error hread, hkind⟩

theorem Refused.settle {bs : Bytes} {write : Action ε Unit} {read : Action δ α} {next : α → Action δ β}
    {e e' : Buffer → ε} {d : Reader → δ} (h : Refused bs write read e e' d) : Refused bs write (read >>= next) e e' d where
  writes := h.writes
  refuses rest position := by
    obtain ⟨fault, s, hread, hkind⟩ := h.refuses rest position
    exact ⟨fault, s, Action.bind_of_error hread, hkind⟩

theorem Steps.bind_refused {bs cs : Bytes} {write1 write2 : Action ε Unit} {read1 : Action δ α}
    {read2 : α → Action δ β} {e e1 e2 : Buffer → ε} {d d1 : Reader → δ} {a : α}
    (h1 : Steps bs write1 read1 e e1 d d1 a) (h2 : Refused cs write2 (read2 a) e1 e2 d1) :
    Refused (bs ++ cs) (write1 >>= fun _ => write2) (read1 >>= read2) e e2 d where
  writes := Appends.bind h1.writes h2.writes
  refuses rest position := by
    obtain ⟨fault, s, hread, hkind⟩ := h2.refuses rest (position + bs.length)
    rw [List.append_assoc, Action.bind_of_ok (h1.reads _ _)]
    exact ⟨fault, s, hread, hkind⟩

/-- **Reading items by their number fails with the one that is refused.** -/
theorem Along.times_refused {write : β → Action ε Unit} {read : Action δ α} (h : Along Rel k bs as k')
    (hstep : ∀ {k b a k1}, Rel k b a k1 → ∃ bytes, Steps bytes (write b) read (enc k) (enc k1) (dec k) (dec k1) a)
    {b : β} {more : List β} {e1 e2 : Buffer → ε} {bytes after : Bytes}
    (hbad : Refused bytes (write b) read (enc k') e1 (dec k')) (hmore : Appends after (more.forM write) e1 e2) :
    ∃ bytes, Refused bytes ((bs ++ b :: more).forM write) (Action.times read (bs ++ b :: more).length) (enc k) e2
      (dec k) := by
  induction h with
  | nil =>
    rw [List.nil_append, List.length_cons, Action.times_succ]
    exact ⟨bytes ++ after, hbad.bind hmore⟩
  | cons hitem _ ih =>
    obtain ⟨first, hfirst⟩ := hstep hitem
    obtain ⟨rest, hrest⟩ := ih hbad
    rw [List.cons_append, List.length_cons, Action.times_succ]
    exact ⟨first ++ rest, hfirst.bind_refused hrest.settle⟩

/-- **A stream is drawn up to the item that is refused.** -/
theorem Along.decodes_until {write : β → Action ε Unit} {next : Action δ (Option α)} (h : Along Rel k bs as k')
    (hstep : ∀ {k b a k1}, Rel k b a k1 →
      ∃ bytes, bytes ≠ [] ∧ Steps bytes (write b) next (enc k) (enc k1) (dec k) (dec k1) (some a))
    {b : β} {more : List β} {e1 e2 : Buffer → ε} {bytes after : Bytes}
    (hbad : Refused bytes (write b) next (enc k') e1 (dec k')) (hmore : Appends after (more.forM write) e1 e2) :
    ∃ (bytes : Bytes) (fault : Fault) (s : δ), (bs ++ b :: more).forM write (enc k #[]) = .ok () (e2 bytes.toArray) ∧
      Drawn.draw next (bytes.length + 1) (dec k (Reader.ofBytes bytes)) = ⟨as, .error fault, s⟩ ∧
        fault.kind = .malformed := by
  obtain ⟨before, hlength, hwrites, hdraws⟩ := h.draws hstep
  obtain ⟨fault, s, hread, hkind⟩ := hbad.refuses after (0 + before.length)
  refine ⟨before ++ (bytes ++ after), fault, s, ?_, ?_, hkind⟩
  · rw [Action.forM_append, Action.bind_of_ok (hwrites #[])]
    change (write b >>= fun _ => more.forM write) _ = _
    rw [hbad.writes.bind hmore, append_bytes]
    simp
  · have hfrom := hdraws (bytes ++ after) 0 _ (.failed hread)
    rw [List.append_nil] at hfrom
    refine Drawn.draw_of_from hfrom (Nat.lt_succ_of_le ?_)
    rw [List.length_append]
    exact hlength.trans (Nat.le_add_right _ _)

end GatePlan
