/-
The number of threads. Settings are taken one after the other, and the last one
that gives a number of threads decides (`threads_of_readSettings`); one that is
refused leaves the machine as it was. Every number that is taken is positive, but
it is kept in 32 bits, so a multiple of 2 ^ 32 leaves no thread.

Small levels are run all the same: only a level that would be shared finds that
there is nobody to share it among (`runLevel_eq`).
-/
import GatePlan.Proofs.Machine

namespace GatePlan

/-- The number of threads that settings give, if they give one. -/
def Cursor.threads? (c : Cursor) : Option Int :=
  match c.get "threads" with
  | .ok (some found) => found.asInt.toOption
  | _ => none

namespace Machine

/-! ## Settings -/

/-- One past the largest number of threads that is kept. -/
def threadBound : Nat := 2 ^ 32

theorem readSettings_eq_ok_iff {c : Cursor} {m m' : Machine} :
    readSettings c m = .ok () m' ↔ ∃ n, c.getInt "threads" m.threads = .ok n ∧ 0 < n ∧
      m' = { m with threads := n.toNat % threadBound } := by
  rw [readSettings, Action.get_bind, Action.bind_eq_ok_iff]
  constructor
  · rintro ⟨n, m1, hget, h⟩
    obtain ⟨hn, rfl⟩ := Action.ofExcept_eq_ok_iff.1 hget
    split at h
    · cases h
    rename_i hpos
    cases h
    exact ⟨n, hn, by omega, rfl⟩
  · rintro ⟨n, hn, hpos, rfl⟩
    refine ⟨n, m, Action.ofExcept_eq_ok_iff.2 ⟨hn, rfl⟩, ?_⟩
    rw [if_neg (by omega)]
    rfl

theorem readSettings_of_error {c : Cursor} {m m' : Machine} {fault : Fault}
    (h : readSettings c m = .error fault m') : m' = m := by
  rw [readSettings, Action.get_bind] at h
  rcases Action.bind_eq_error_iff.1 h with hget | ⟨n, m1, hget, h⟩
  · cases hn : c.getInt "threads" m.threads with
    | ok n =>
      rw [hn] at hget
      cases hget
    | error fault' =>
      rw [hn] at hget
      cases hget
      rfl
  · obtain ⟨-, rfl⟩ := Action.ofExcept_eq_ok_iff.1 hget
    split at h
    · cases h
      rfl
    · cases h

theorem getInt_threads {c : Cursor} {default n : Int} (h : c.getInt "threads" default = .ok n) :
    n = c.threads?.getD default := by
  rw [Cursor.getInt, Cursor.getD] at h
  rw [Cursor.threads?]
  cases hget : c.get "threads" with
  | error fault =>
    rw [hget] at h
    cases h
  | ok found =>
    rw [hget] at h
    cases found with
    | none =>
      cases h
      rfl
    | some found =>
      change found.asInt = .ok n at h
      dsimp only
      rw [h]
      rfl

/-- The number of threads after settings that were all taken. -/
def threadsAfter (threads : Nat) (cs : List Cursor) : Nat :=
  match (cs.filterMap Cursor.threads?).getLast? with
  | none => threads
  | some n => n.toNat % threadBound

theorem threadsAfter_concat (threads : Nat) (cs : List Cursor) (c : Cursor) :
    threadsAfter threads (cs ++ [c]) =
      match c.threads? with
      | none => threadsAfter threads cs
      | some n => n.toNat % threadBound := by
  unfold threadsAfter
  rw [List.filterMap_append]
  cases hgiven : c.threads? with
  | none =>
    have hlast : [c].filterMap Cursor.threads? = [] := by simp [hgiven]
    rw [hlast, List.append_nil]
  | some n =>
    have hlast : [c].filterMap Cursor.threads? = [n] := by simp [hgiven]
    rw [hlast, List.getLast?_concat]

theorem threadsAfter_lt {threads : Nat} (h : threads < threadBound) (cs : List Cursor) :
    threadsAfter threads cs < threadBound := by
  unfold threadsAfter
  split
  · exact h
  · exact Nat.mod_lt _ (by decide)

/-- **The last number of threads decides**, and nothing else is taken from settings. -/
theorem forM_readSettings_eq_ok {m m' : Machine} {cs : List Cursor} (hthreads : m.threads < threadBound)
    (h : cs.forM readSettings m = .ok () m') : m' = { m with threads := threadsAfter m.threads cs } := by
  induction cs using List.reverseRecOn generalizing m' with
  | nil =>
    cases h
    rfl
  | append_singleton cs c ih =>
    rw [Action.forM_append] at h
    obtain ⟨_, m1, hcs, hlast⟩ := Action.bind_eq_ok_iff.1 h
    obtain ⟨_, hc, hnil⟩ := Action.forM_cons_eq_ok_iff.1 hlast
    cases hnil
    obtain rfl := ih hcs
    obtain ⟨n, hget, -, rfl⟩ := readSettings_eq_ok_iff.1 hc
    obtain rfl := getInt_threads hget
    rw [threadsAfter_concat]
    cases hgiven : c.threads? with
    | some n => rfl
    | none =>
      have hlt := threadsAfter_lt hthreads cs
      simp only [Option.getD_none, Int.toNat_natCast, Nat.mod_eq_of_lt hlt]

theorem pos_of_forM_readSettings {m m' : Machine} {cs : List Cursor} (h : cs.forM readSettings m = .ok () m') :
    ∀ n ∈ cs.filterMap Cursor.threads?, 0 < n := by
  induction cs generalizing m with
  | nil => simp
  | cons c cs ih =>
    obtain ⟨m1, hc, hcs⟩ := Action.forM_cons_eq_ok_iff.1 h
    obtain ⟨n, hget, hpos, -⟩ := readSettings_eq_ok_iff.1 hc
    obtain rfl := getInt_threads hget
    intro given hgiven
    obtain ⟨c', hc', hthreads⟩ := List.mem_filterMap.1 hgiven
    rcases List.mem_cons.1 hc' with rfl | hrest
    · rwa [hthreads, Option.getD_some] at hpos
    · exact ih hcs given (List.mem_filterMap.2 ⟨c', hrest, hthreads⟩)

/-- A number of threads is lost when it is a multiple of the bound. -/
theorem toNat_mod_eq_zero_iff {n : Int} (h : 0 < n) : n.toNat % threadBound = 0 ↔ (threadBound : Int) ∣ n := by
  obtain ⟨k, rfl⟩ := Int.eq_ofNat_of_zero_le h.le
  rw [Int.toNat_natCast, Int.natCast_dvd_natCast, Nat.dvd_iff_mod_eq_zero]

/-- After settings that were taken a thread is left, unless the last number that they
give is a multiple of the bound. -/
theorem threadsAfter_pos_iff {threads : Nat} (hthreads : 1 ≤ threads) {cs : List Cursor}
    (hgiven : ∀ n ∈ cs.filterMap Cursor.threads?, 0 < n) :
    1 ≤ threadsAfter threads cs ↔ ¬ ∃ n ∈ (cs.filterMap Cursor.threads?).getLast?, (threadBound : Int) ∣ n := by
  rw [threadsAfter, Nat.one_le_iff_ne_zero, not_iff_not]
  cases hlast : (cs.filterMap Cursor.threads?).getLast? with
  | none =>
    dsimp only
    simp only [Option.not_mem_none, false_and, exists_false, iff_false]
    omega
  | some n =>
    dsimp only
    rw [toNat_mod_eq_zero_iff (hgiven n (List.mem_of_getLast? hlast))]
    simp

theorem threads_of_create {slots inputs threads : Nat} {m : Machine} (h : create slots inputs threads = .ok m) :
    m.threads = max threads 1 := by
  unfold create at h
  split at h
  · cases h
  · cases h
    rfl

/-! ## Levels -/

theorem shares_of_small {total : Nat} (h : total < gatesPerWorker * 2) (threads : Nat) :
    shares threads total = .ok [(0, total)] := if_pos (by simp [h])

theorem shares_of_no_threads {total : Nat} (h : gatesPerWorker * 2 ≤ total) : shares 0 total = .error .noWorkers := by
  rw [shares, if_neg (by simpa using h), Nat.zero_min, if_pos rfl]

/-- **A level is run, unless there is no thread for one that is shared.** -/
theorem runLevel_eq {m : Machine} {l : AllocatedLevel} (hwithin : Within m.slots.size l) :
    runLevel l m = if m.threads = 0 ∧ gatesPerWorker * 2 ≤ l.size then .error .noWorkers m
      else .ok () { m with slots := l.typedGates.foldl runGate m.slots } := by
  by_cases hthreads : 0 < m.threads
  · rw [if_neg (by omega)]
    exact runLevel_of_within hthreads hwithin
  · have hnone : m.threads = 0 := by omega
    rw [runLevel, forM_checkGate_of_within hwithin, hnone]
    by_cases hlarge : gatesPerWorker * 2 ≤ l.size
    · rw [if_pos ⟨rfl, hlarge⟩, shares_of_no_threads hlarge]
    · rw [if_neg (fun h => hlarge h.2), shares_of_small (by omega), ← runRange_zero_size]
      rfl

end Machine

open Machine in
/-- **A multiple of 2 ^ 32 threads leaves none.** After settings that were all taken,
a machine has the number of threads that was given last, in 32 bits, or the one
that it was created with, which is at least one. So it has a thread unless the
last number given is a multiple of 2 ^ 32. If it has, it runs every level within
its scratch space; if not, it still runs those of less than 8192 gates, and fails
on every other for want of workers, with its slots as they were. Settings that
are refused change nothing. -/
theorem threads_are_left_unless_wrapped {slots inputs threads : Nat} (hthreads : threads < 2 ^ 32) {m m' : Machine}
    (hcreate : create slots inputs threads = .ok m) {cs : List Cursor} (hcs : cs.forM readSettings m = .ok () m') :
    let wrapped := ∃ n ∈ (cs.filterMap Cursor.threads?).getLast?, (2 ^ 32 : Int) ∣ n
    (m'.threads = match (cs.filterMap Cursor.threads?).getLast? with
      | none => max threads 1
      | some n => n.toNat % 2 ^ 32) ∧
    (1 ≤ m'.threads ↔ ¬ wrapped) ∧
    (∀ l, Within m'.slots.size l →
      (¬ wrapped ∨ l.size < 8192 → runLevel l m' = .ok () { m' with slots := l.typedGates.foldl runGate m'.slots }) ∧
      (wrapped ∧ 8192 ≤ l.size → runLevel l m' = .error .noWorkers m')) ∧
    ∀ c fault m'', readSettings c m' = .error fault m'' → m'' = m' := by
  intro wrapped
  have hcreated := threads_of_create hcreate
  have hbound : threadBound = 2 ^ 32 := rfl
  have hafter : m'.threads = threadsAfter m.threads cs := by
    rw [forM_readSettings_eq_ok (by omega) hcs]
  have hpositive : 1 ≤ m'.threads ↔ ¬ wrapped := by
    rw [hafter]
    exact threadsAfter_pos_iff (by omega) (pos_of_forM_readSettings hcs)
  have hshared : gatesPerWorker * 2 = 8192 := rfl
  refine ⟨?left, hpositive, fun l hwithin => ⟨fun hruns => ?_, fun hfails => ?_⟩, fun c fault m'' => readSettings_of_error⟩
  case left =>
    rw [hafter, threadsAfter, hcreated]
    rfl
  · have hrun : ¬ (m'.threads = 0 ∧ gatesPerWorker * 2 ≤ l.size) := by
      rintro ⟨hnone, hlarge⟩
      rcases hruns with hleft | hsmall
      · have := hpositive.2 hleft
        omega
      · omega
    rw [runLevel_eq hwithin, if_neg hrun]
  · have hnone : m'.threads = 0 := by
      by_contra hsome
      exact hpositive.1 (by omega) hfails.1
    rw [runLevel_eq hwithin, if_pos ⟨hnone, by omega⟩]

/-- Settings that give so many threads. -/
def Cursor.ofThreads (text : String) : Cursor := .root (.map [("threads", .text text)])

open Machine in
/-- Five threads are left of 2 ^ 32 + 5, and a gate is run. -/
theorem five_threads_are_left :
    ∃ m m', create 4 1 1 = .ok m ∧ [Cursor.ofThreads "3", Cursor.ofThreads "4294967301"].forM readSettings m = .ok () m' ∧
      m'.threads = 5 ∧ runLevel ⟨1, [], [⟨2, 1, 3⟩]⟩ m' =
        .ok () { m' with slots := [(GateType.and, ⟨2, 1, 3⟩)].foldl runGate m'.slots } := by
  have hcreate : create 4 1 1 = .ok ⟨#[false, true, false, false], 1, 1⟩ := rfl
  have hcs : [Cursor.ofThreads "3", Cursor.ofThreads "4294967301"].forM readSettings ⟨#[false, true, false, false], 1, 1⟩ =
      .ok () ⟨#[false, true, false, false], 1, 5⟩ := Action.outcome_eq_ok_iff.1 (by decide +kernel)
  obtain ⟨-, hpositive, hruns, -⟩ := threads_are_left_unless_wrapped (by decide) hcreate hcs
  refine ⟨_, _, hcreate, hcs, rfl, (hruns ⟨1, [], [⟨2, 1, 3⟩]⟩ (by simp [Within, Level.gates])).1 (.inl (hpositive.1 (by decide)))⟩

open Machine in
/-- Settings of 2 ^ 32 threads are taken and leave none, so that 8192 gates are not
run. -/
theorem no_threads_are_left :
    ∃ m m', create 3 1 1 = .ok m ∧ readSettings (.ofThreads "4294967296") m = .ok () m' ∧ m'.threads = 0 ∧
      ∃ l, Within m'.slots.size l ∧ l.size = 8192 ∧ runLevel l m' = .error .noWorkers m' := by
  let m : Machine := ⟨#[false, true, false], 1, 1⟩
  let m' : Machine := { m with threads := 0 }
  let l : AllocatedLevel := ⟨1, List.replicate 8192 ⟨2, 1, 2⟩, []⟩
  have hcs : readSettings (.ofThreads "4294967296") m = .ok () m' := Action.outcome_eq_ok_iff.1 (by decide +kernel)
  have hsize : l.size = 8192 := by simp only [l, Level.size, List.length_replicate, List.length_nil]
  have hwithin : Within m'.slots.size l := by
    intro g hg
    rw [Level.gates, List.append_nil] at hg
    rw [List.eq_of_mem_replicate hg]
    decide
  have hfails : runLevel l m' = .error .noWorkers m' := (runLevel_eq hwithin).trans (if_pos ⟨rfl, hsize.ge⟩)
  exact ⟨m, m', rfl, hcs, rfl, l, hwithin, hsize, hfails⟩

end GatePlan
