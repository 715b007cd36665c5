/-
Writers and readers that fit. A writer appends bytes whatever is there already
(`Writes`), a reader takes the same bytes off whatever follows them (`Reads`),
and steps compose: what one reader leaves is where the next one begins. A pair
that agrees on the bytes of an item `Codes` it, and no item is written as
nothing, so a list of items takes at least as many bytes as it has items.
-/
import Mathlib
import GatePlan.Bytes

namespace GatePlan

variable {α β : Type}

/-- The writer appends exactly these bytes. -/
def Writes (step : Writer Unit) (bytes : Bytes) : Prop := ∀ out : Buffer, step out = .ok () (out ++ bytes)

/-- The reader takes exactly these bytes, and answers with `a`. -/
def Reads (step : Action Reader α) (bytes : Bytes) (a : α) : Prop :=
  ∀ (rest : Bytes) (position : Nat), step ⟨bytes ++ rest, position⟩ = .ok a ⟨rest, position + bytes.length⟩

/-- What the writer appends, the reader reads as `a`. -/
def Codes (write : Writer Unit) (read : Action Reader α) (a : α) : Prop :=
  ∃ bytes, bytes ≠ [] ∧ Writes write bytes ∧ Reads read bytes a

/-! ## Writers -/

theorem append_bytes (out : Buffer) (bs cs : Bytes) : out ++ bs ++ cs = out ++ (bs ++ cs) := by
  apply Array.ext'
  simp

theorem writes_nothing : Writes (pure ()) [] := by
  intro out
  change EStateM.Result.ok () out = _
  simp

theorem writes_emit (bytes : Bytes) : Writes (emit bytes) bytes := fun _ => rfl

theorem Writes.unique {step : Writer Unit} {bs cs : Bytes} (h : Writes step bs) (h' : Writes step cs) : bs = cs := by
  have heq := congrArg Array.toList (EStateM.Result.ok.inj ((h #[]).symm.trans (h' #[]))).2
  simpa using heq

theorem Writes.bind {first second : Writer Unit} {bs cs : Bytes} (h1 : Writes first bs) (h2 : Writes second cs) :
    Writes (first >>= fun _ => second) (bs ++ cs) := by
  intro out
  rw [Action.bind_of_ok (h1 out), h2, append_bytes]

theorem Writes.check {x : Except Fault α} {a : α} (hx : x = .ok a) {next : α → Writer Unit} {bs : Bytes}
    (h : Writes (next a) bs) : Writes (Action.ofExcept x >>= next) bs := by
  intro out
  subst hx
  exact h out

/-! ## Readers -/

theorem reads_nothing (a : α) : Reads (pure a) [] a := fun _ _ => rfl

theorem Reads.bind {first : Action Reader α} {next : α → Action Reader β} {bs cs : Bytes} {a : α} {b : β}
    (h1 : Reads first bs a) (h2 : Reads (next a) cs b) : Reads (first >>= next) (bs ++ cs) b := by
  intro rest position
  rw [List.append_assoc, Action.bind_of_ok (h1 _ _), h2, List.length_append, Nat.add_assoc]

theorem Reads.settle {step : Action Reader α} {next : α → Action Reader β} {bs : Bytes} {a : α} {b : β}
    (h : Reads step bs a) (hnext : next a = pure b) : Reads (step >>= next) bs b := by
  have hrest : Reads (next a) [] b := by
    rw [hnext]
    exact reads_nothing b
  have hbind : Reads (step >>= next) (bs ++ []) b := h.bind hrest
  rwa [List.append_nil] at hbind

theorem Reads.check {x : Except Fault α} {a : α} (hx : x = .ok a) {next : α → Action Reader β} {bs : Bytes} {b : β}
    (h : Reads (next a) bs b) : Reads (Action.ofExcept x >>= next) bs b := by
  intro rest position
  subst hx
  exact h rest position

/-- Bytes that are read say where they end. -/
theorem Reads.unique {step : Action Reader α} {bs cs more more' : Bytes} {a b : α} (h : Reads step bs a)
    (h' : Reads step cs b) (heq : bs ++ more = cs ++ more') : a = b ∧ more = more' := by
  have hread := h more 0
  rw [heq, h' more' 0] at hread
  obtain ⟨rfl, hrest⟩ := EStateM.Result.ok.inj hread
  exact ⟨rfl, (Reader.mk.inj hrest).1.symm⟩

/-! ## Both -/

theorem Codes.bind {write1 write2 : Writer Unit} {read1 : Action Reader α} {read2 : α → Action Reader β} {a : α}
    {b : β} (h1 : Codes write1 read1 a) (h2 : Codes write2 (read2 a) b) :
    Codes (write1 >>= fun _ => write2) (read1 >>= read2) b := by
  obtain ⟨bs, hbs, hw1, hr1⟩ := h1
  obtain ⟨cs, -, hw2, hr2⟩ := h2
  exact ⟨bs ++ cs, by simp [hbs], hw1.bind hw2, hr1.bind hr2⟩

theorem Codes.settle {write : Writer Unit} {read : Action Reader α} {next : α → Action Reader β} {a : α} {b : β}
    (h : Codes write read a) (hnext : next a = pure b) : Codes write (read >>= next) b := by
  obtain ⟨bs, hbs, hw, hr⟩ := h
  exact ⟨bs, hbs, hw, hr.settle hnext⟩

/-- Items written one after the other are read as often as there are. -/
theorem codes_list {write : α → Writer Unit} {read : Action Reader β} {f : α → β} {items : List α}
    (h : ∀ a ∈ items, Codes (write a) read (f a)) :
    ∃ bytes, Writes (items.forM write) bytes ∧ Reads (Action.times read items.length) bytes (items.map f) ∧
      items.length ≤ bytes.length := by
  induction items with
  | nil => exact ⟨[], writes_nothing, reads_nothing _, le_rfl⟩
  | cons a items ih =>
    obtain ⟨bs, hbs, hw1, hr1⟩ := h a (List.mem_cons_self ..)
    obtain ⟨cs, hw2, hr2, hlength⟩ := ih fun b hb => h b (List.mem_cons_of_mem _ hb)
    refine ⟨bs ++ cs, hw1.bind hw2, ?_, ?_⟩
    · rw [List.length_cons, Action.times_succ]
      exact hr1.bind (hr2.settle rfl)
    · have := List.length_pos_iff.2 hbs
      rw [List.length_cons, List.length_append]
      omega

/-! ## Numbers -/

/-- Reading the low bytes of a number gives its low part. -/
theorem foldl_bigEndian (count value start : Nat) :
    (bigEndian count value).foldl (fun v b => v * 256 + b.toNat) start =
      start * 256 ^ count + value % 256 ^ count := by
  induction count generalizing start with
  | zero => simp [bigEndian, Nat.mod_one]
  | succ n ih =>
    have hbyte : (UInt8.ofNat (value / Nat.pow 256 n)).toNat = value / 256 ^ n % 256 := by
      rw [UInt8.toNat_ofNat', Nat.pow_eq]
    rw [bigEndian, List.foldl_cons, ih, hbyte, pow_succ, Nat.mod_mul]
    ring

theorem ofBigEndian_bigEndian (count value : Nat) : ofBigEndian (bigEndian count value) = value % 256 ^ count := by
  rw [ofBigEndian, foldl_bigEndian, Nat.zero_mul, Nat.zero_add]

theorem bigEndian_succ (count value : Nat) :
    bigEndian (count + 1) value = UInt8.ofNat (value / 256 ^ count) :: bigEndian count value := by
  rw [bigEndian, Nat.pow_eq]

theorem ofBigEndian_cons (b : UInt8) (bytes : Bytes) :
    ofBigEndian (b :: bytes) = b.toNat * 256 ^ bytes.length + ofBigEndian bytes := by
  suffices h : ∀ start, bytes.foldl (fun v b => v * 256 + b.toNat) start =
      start * 256 ^ bytes.length + ofBigEndian bytes by
    rw [ofBigEndian, List.foldl_cons, Nat.zero_mul, Nat.zero_add, h]
  induction bytes with
  | nil => simp [ofBigEndian]
  | cons c bytes ih =>
    intro start
    rw [ofBigEndian, List.foldl_cons, List.foldl_cons, ih, ih, List.length_cons, pow_succ]
    ring

theorem ofBigEndian_lt (bytes : Bytes) : ofBigEndian bytes < 256 ^ bytes.length := by
  induction bytes with
  | nil => simp [ofBigEndian]
  | cons b bytes ih =>
    have hbyte := UInt8.toNat_lt b
    rw [ofBigEndian_cons, List.length_cons, pow_succ]
    nlinarith

theorem bigEndian_high (count high low : Nat) : bigEndian count (high * 256 ^ count + low) = bigEndian count low := by
  induction count generalizing high with
  | zero => rfl
  | succ n ih =>
    have hsplit : high * 256 ^ (n + 1) + low = high * 256 * 256 ^ n + low := by ring
    have hbyte : UInt8.ofNat ((high * 256 * 256 ^ n + low) / 256 ^ n) = UInt8.ofNat (low / 256 ^ n) := by
      rw [Nat.add_comm, Nat.add_mul_div_right _ _ (by positivity)]
      apply UInt8.toNat_inj.1
      rw [UInt8.toNat_ofNat', UInt8.toNat_ofNat']
      omega
    rw [bigEndian_succ, bigEndian_succ, hsplit, hbyte, ih]

/-- **Bytes are those of the number that they are read as.** -/
theorem bigEndian_ofBigEndian (bytes : Bytes) : bigEndian bytes.length (ofBigEndian bytes) = bytes := by
  induction bytes with
  | nil => rfl
  | cons b bytes ih =>
    have hlow := ofBigEndian_lt bytes
    have hfirst : (b.toNat * 256 ^ bytes.length + ofBigEndian bytes) / 256 ^ bytes.length = b.toNat := by
      rw [Nat.add_comm, Nat.add_mul_div_right _ _ (by positivity), Nat.div_eq_of_lt hlow, Nat.zero_add]
    rw [List.length_cons, bigEndian_succ, ofBigEndian_cons, hfirst, bigEndian_high, ih, UInt8.ofNat_toNat]

end GatePlan
