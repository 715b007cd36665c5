/-
Steps on a state that may fail. The state a failing step leaves is part of
its result, because later steps see it: bytes already written stay written,
credits already spent stay spent.
-/
import GatePlan.Fault

namespace GatePlan

/-- A step on a state of type `σ` that answers with an `α` or fails. -/
abbrev Action (σ α : Type) := EStateM Fault σ α

namespace Action

variable {σ τ α : Type}

/-- A computation without state, as a step that leaves the state alone. -/
def ofExcept : Except Fault α → Action σ α
  | .ok a => pure a
  | .error fault => throw fault

/-- A step on one part of a larger state. The part is taken out while the step
runs, so that it is updated in place, and written back whether the step
succeeds or fails. -/
@[inline] def within [Inhabited σ] (part : τ → σ) (put : σ → τ → τ) (step : Action σ α) :
    Action τ α := fun whole =>
  let taken := part whole
  let rest := put default whole
  match step taken with
  | .ok a s => .ok a (put s rest)
  | .error fault s => .error fault (put s rest)

/-- The answer of a step and the state it leaves. -/
def outcome (step : Action σ α) (s : σ) : Except Fault α × σ :=
  match step s with
  | .ok a s => (.ok a, s)
  | .error fault s => (.error fault, s)

theorem outcome_eq_ok_iff {step : Action σ α} {s t : σ} {a : α} :
    step.outcome s = (.ok a, t) ↔ step s = .ok a t := by
  unfold outcome
  cases step s with
  | ok b r => simp
  | error fault r => simp

theorem outcome_of_error {step : Action σ α} {s t : σ} {fault : Fault} (h : step s = .error fault t) :
    step.outcome s = (.error fault, t) := by
  rw [outcome, h]

theorem bind_eq_ok_iff {β : Type} {step : Action σ α} {next : α → Action σ β} {s t : σ} {b : β} :
    (step >>= next) s = .ok b t ↔ ∃ a r, step s = .ok a r ∧ next a r = .ok b t := by
  change EStateM.bind step next s = .ok b t ↔ _
  unfold EStateM.bind
  cases step s with
  | ok a r =>
    constructor
    · intro h
      exact ⟨a, r, rfl, h⟩
    · intro ⟨_, _, h, hn⟩
      cases h
      exact hn
  | error fault r => simp

theorem bind_of_ok {β : Type} {step : Action σ α} {next : α → Action σ β} {s t : σ} {a : α}
    (h : step s = .ok a t) : (step >>= next) s = next a t := by
  change EStateM.bind step next s = _
  unfold EStateM.bind
  rw [h]

theorem outcome_bind_of_ok {β : Type} {step : Action σ α} {next : α → Action σ β} {s t : σ} {a : α}
    (h : step s = .ok a t) : (step >>= next).outcome s = (next a).outcome t := by
  unfold outcome
  rw [bind_of_ok h]

theorem bind_of_error {β : Type} {step : Action σ α} {next : α → Action σ β} {s t : σ} {fault : Fault}
    (h : step s = .error fault t) : (step >>= next) s = .error fault t := by
  change EStateM.bind step next s = _
  unfold EStateM.bind
  rw [h]

theorem bind_eq_error_iff {β : Type} {step : Action σ α} {next : α → Action σ β} {s t : σ} {fault : Fault} :
    (step >>= next) s = .error fault t ↔
      step s = .error fault t ∨ ∃ a r, step s = .ok a r ∧ next a r = .error fault t := by
  change EStateM.bind step next s = .error fault t ↔ _
  unfold EStateM.bind
  cases step s with
  | ok a r =>
    constructor
    · intro h
      exact .inr ⟨a, r, rfl, h⟩
    · intro h
      rcases h with h | ⟨_, _, h, hn⟩
      · cases h
      · cases h
        exact hn
  | error fault r => simp

theorem get_bind {next : σ → Action σ α} {s : σ} : (get >>= next : Action σ α) s = next s s := rfl

theorem ofExcept_eq_ok_iff {x : Except Fault α} {s t : σ} {a : α} :
    ofExcept x s = .ok a t ↔ x = .ok a ∧ s = t := by
  cases x with
  | ok b =>
    change EStateM.Result.ok b s = .ok a t ↔ _
    simp
  | error fault =>
    change EStateM.Result.error fault s = .ok a t ↔ _
    simp

theorem pure_eq_ok_iff {a b : α} {s t : σ} : (pure a : Action σ α) s = .ok b t ↔ a = b ∧ s = t := by
  change EStateM.Result.ok a s = .ok b t ↔ _
  simp

theorem within_eq_ok_iff [Inhabited σ] {part : τ → σ} {put : σ → τ → τ} {step : Action σ α} {whole after : τ}
    {a : α} : within part put step whole = .ok a after ↔
      ∃ s, step (part whole) = .ok a s ∧ after = put s (put default whole) := by
  unfold within
  dsimp only
  cases step (part whole) with
  | ok b s =>
    constructor
    · intro h
      cases h
      exact ⟨s, rfl, rfl⟩
    · intro h
      obtain ⟨t, h, rfl⟩ := h
      cases h
      rfl
  | error fault s => simp

theorem within_of_error [Inhabited σ] {part : τ → σ} {put : σ → τ → τ} {step : Action σ α} {whole : τ}
    {s : σ} {fault : Fault} (h : step (part whole) = .error fault s) :
    within part put step whole = .error fault (put s (put default whole)) := by
  unfold within
  dsimp only
  rw [h]

theorem outcome_within [Inhabited σ] (part : τ → σ) (put : σ → τ → τ) (step : Action σ α) (whole : τ) :
    (within part put step).outcome whole =
      ((step.outcome (part whole)).1, put (step.outcome (part whole)).2 (put default whole)) := by
  unfold outcome within
  dsimp only
  cases step (part whole) <;> rfl

/-! ## Steps over a list -/

theorem mapM_nil_eq_ok_iff {β : Type} {step : α → Action σ β} {s t : σ} {ys : List β} :
    ([] : List α).mapM step s = .ok ys t ↔ ys = [] ∧ t = s := by
  rw [List.mapM_nil, pure_eq_ok_iff]
  exact ⟨fun ⟨h, h'⟩ => ⟨h.symm, h'.symm⟩, fun ⟨h, h'⟩ => ⟨h.symm, h'.symm⟩⟩

theorem mapM_cons_eq_ok_iff {β : Type} {step : α → Action σ β} {x : α} {xs : List α} {s t : σ} {ys : List β} :
    (x :: xs).mapM step s = .ok ys t ↔
      ∃ y r zs, step x s = .ok y r ∧ xs.mapM step r = .ok zs t ∧ ys = y :: zs := by
  rw [List.mapM_cons, bind_eq_ok_iff]
  constructor
  · intro ⟨y, r, hy, h⟩
    obtain ⟨zs, u, hzs, h⟩ := bind_eq_ok_iff.1 h
    obtain ⟨hys, rfl⟩ := pure_eq_ok_iff.1 h
    exact ⟨y, r, zs, hy, hzs, hys.symm⟩
  · intro h
    obtain ⟨y, r, zs, hy, hzs, rfl⟩ := h
    exact ⟨y, r, hy, bind_eq_ok_iff.2 ⟨zs, t, hzs, rfl⟩⟩

theorem mapM_cons_eq_error_iff {β : Type} {step : α → Action σ β} {x : α} {xs : List α} {s t : σ}
    {fault : Fault} : (x :: xs).mapM step s = .error fault t ↔
      step x s = .error fault t ∨ ∃ y r, step x s = .ok y r ∧ xs.mapM step r = .error fault t := by
  rw [List.mapM_cons, bind_eq_error_iff]
  refine or_congr_right (exists_congr fun y => exists_congr fun r => and_congr_right fun _ => ?_)
  rw [bind_eq_error_iff]
  constructor
  · intro h
    rcases h with h | ⟨zs, u, -, h⟩
    · exact h
    · cases h
  · exact .inl

theorem mapM_append_eq_ok_iff {β : Type} {step : α → Action σ β} {xs ys : List α} {s t : σ} {zs : List β} :
    (xs ++ ys).mapM step s = .ok zs t ↔
      ∃ as r bs, xs.mapM step s = .ok as r ∧ ys.mapM step r = .ok bs t ∧ zs = as ++ bs := by
  rw [List.mapM_append, bind_eq_ok_iff]
  constructor
  · intro ⟨as, r, has, h⟩
    obtain ⟨bs, u, hbs, h⟩ := bind_eq_ok_iff.1 h
    obtain ⟨hzs, rfl⟩ := pure_eq_ok_iff.1 h
    exact ⟨as, r, bs, has, hbs, hzs.symm⟩
  · intro h
    obtain ⟨as, r, bs, has, hbs, rfl⟩ := h
    exact ⟨as, r, has, bind_eq_ok_iff.2 ⟨bs, t, hbs, rfl⟩⟩

theorem mapM_append_eq_error_iff {β : Type} {step : α → Action σ β} {xs ys : List α} {s t : σ} {fault : Fault} :
    (xs ++ ys).mapM step s = .error fault t ↔
      xs.mapM step s = .error fault t ∨ ∃ as r, xs.mapM step s = .ok as r ∧ ys.mapM step r = .error fault t := by
  rw [List.mapM_append, bind_eq_error_iff]
  refine or_congr_right (exists_congr fun as => exists_congr fun r => and_congr_right fun _ => ?_)
  rw [bind_eq_error_iff]
  constructor
  · intro h
    rcases h with h | ⟨bs, u, -, h⟩
    · exact h
    · cases h
  · exact .inl

theorem length_of_mapM_eq_ok {β : Type} {step : α → Action σ β} {xs : List α} {s t : σ} {ys : List β}
    (h : xs.mapM step s = .ok ys t) : ys.length = xs.length := by
  induction xs generalizing s ys with
  | nil =>
    rw [(mapM_nil_eq_ok_iff.1 h).1]
    rfl
  | cons x xs ih =>
    obtain ⟨y, r, zs, -, hzs, rfl⟩ := mapM_cons_eq_ok_iff.1 h
    rw [List.length_cons, List.length_cons, ih hzs]

theorem map_of_mapM_eq_ok {β γ : Type} {step : α → Action σ β} {f : β → γ} {g : α → γ}
    (hstep : ∀ {x s y t}, step x s = .ok y t → f y = g x) {xs : List α} {s t : σ} {ys : List β}
    (h : xs.mapM step s = .ok ys t) : ys.map f = xs.map g := by
  induction xs generalizing s ys with
  | nil =>
    rw [(mapM_nil_eq_ok_iff.1 h).1]
    rfl
  | cons x xs ih =>
    obtain ⟨y, r, zs, hy, hzs, rfl⟩ := mapM_cons_eq_ok_iff.1 h
    rw [List.map_cons, List.map_cons, hstep hy, ih hzs]

theorem mapM_keeps {β : Type} {step : α → Action σ β} (Keep : σ → Prop) (Good : β → Prop) {xs : List α}
    (hstep : ∀ x ∈ xs, ∀ {s y t}, Keep s → step x s = .ok y t → Keep t ∧ Good y) {s t : σ} {ys : List β}
    (h : xs.mapM step s = .ok ys t) (hs : Keep s) : Keep t ∧ ∀ y ∈ ys, Good y := by
  induction xs generalizing s ys with
  | nil =>
    obtain ⟨rfl, rfl⟩ := mapM_nil_eq_ok_iff.1 h
    exact ⟨hs, fun y hy => (by cases hy)⟩
  | cons x xs ih =>
    obtain ⟨y, r, zs, hx, hxs, rfl⟩ := mapM_cons_eq_ok_iff.1 h
    obtain ⟨hr, hy⟩ := hstep x (List.mem_cons_self ..) hs hx
    obtain ⟨ht, hzs⟩ := ih (fun x' hx' => hstep x' (List.mem_cons_of_mem _ hx')) hxs hr
    refine ⟨ht, ?_⟩
    intro z hz
    cases hz with
    | head => exact hy
    | tail _ hz => exact hzs z hz

theorem forM_append (step : α → Action σ Unit) (xs ys : List α) :
    (xs ++ ys).forM step = (xs.forM step >>= fun _ => ys.forM step) := List.forM_append

theorem forM_cons_eq_ok_iff {step : α → Action σ Unit} {x : α} {xs : List α} {s t : σ} :
    (x :: xs).forM step s = .ok () t ↔ ∃ r, step x s = .ok () r ∧ xs.forM step r = .ok () t := by
  change (step x >>= fun _ => xs.forM step) s = .ok () t ↔ _
  rw [bind_eq_ok_iff]
  constructor
  · intro ⟨_, r, hx, hxs⟩
    exact ⟨r, hx, hxs⟩
  · intro ⟨r, hx, hxs⟩
    exact ⟨(), r, hx, hxs⟩

theorem forM_eq_error_iff {step : α → Action σ Unit} {xs : List α} {s t : σ} {fault : Fault} :
    xs.forM step s = .error fault t ↔
      ∃ before x rest r, xs = before ++ x :: rest ∧ before.forM step s = .ok () r ∧ step x r = .error fault t := by
  constructor
  · intro h
    induction xs generalizing s with
    | nil => cases h
    | cons x xs ih =>
      change (step x >>= fun _ => xs.forM step) s = .error fault t at h
      rcases bind_eq_error_iff.1 h with hx | ⟨_, r, hx, hxs⟩
      · exact ⟨[], x, xs, s, rfl, rfl, hx⟩
      · obtain ⟨before, y, rest, r', rfl, hbefore, hy⟩ := ih hxs
        exact ⟨x :: before, y, rest, r', rfl, forM_cons_eq_ok_iff.2 ⟨r, hx, hbefore⟩, hy⟩
  · intro h
    obtain ⟨before, x, rest, r, rfl, hbefore, hx⟩ := h
    rw [forM_append, bind_of_ok hbefore]
    exact bind_of_error hx

/-! ## Computations over a list -/

theorem exceptMapM_cons_eq_ok_iff {β : Type} {f : α → Except Fault β} {x : α} {xs : List α} {ys : List β} :
    (x :: xs).mapM f = .ok ys ↔ ∃ y zs, f x = .ok y ∧ xs.mapM f = .ok zs ∧ ys = y :: zs := by
  rw [List.mapM_cons]
  cases hx : f x with
  | error fault => simp [bind, Except.bind]
  | ok y =>
    cases hxs : xs.mapM f with
    | error fault => simp [bind, Except.bind]
    | ok zs => simp [bind, Except.bind, pure, Except.pure, eq_comm]

/-! ## Repeated steps -/

/-- The answers of `count` repetitions, after those in `seen`, newest first. -/
def timesAfter (step : Action σ α) : Nat → List α → Action σ (List α)
  | 0, seen => return seen.reverse
  | n + 1, seen => do
    let a ← step
    timesAfter step n (a :: seen)

/-- Repeats a step and lists its answers. -/
def times (step : Action σ α) (count : Nat) : Action σ (List α) := timesAfter step count []

/-- The answers seen before do not matter to a repetition; they come first. -/
theorem timesAfter_eq_times (step : Action σ α) (count : Nat) (seen : List α) :
    timesAfter step count seen = (do
      let rest ← times step count
      return seen.reverse ++ rest) := by
  suffices h : ∀ (n : Nat) (before seen : List α) (s : σ),
      timesAfter step n (seen ++ before) s = (do
        let rest ← timesAfter step n seen
        return before.reverse ++ rest : Action σ (List α)) s by
    funext s
    simpa [times] using h count seen [] s
  intro n
  induction n with
  | zero =>
    intro before seen s
    change EStateM.Result.ok _ s = EStateM.Result.ok _ s
    rw [List.reverse_append]
  | succ n ih =>
    intro before seen s
    change EStateM.bind step _ s = EStateM.bind (EStateM.bind step _) _ s
    unfold EStateM.bind
    cases step s with
    | ok a r => exact ih before (a :: seen) r
    | error fault r => rfl

theorem times_succ (step : Action σ α) (n : Nat) :
    times step (n + 1) = (do
      let a ← step
      let rest ← times step n
      return a :: rest) := by
  change (step >>= fun a => timesAfter step n [a]) = _
  congr 1
  funext a
  rw [timesAfter_eq_times]
  rfl

theorem times_zero_eq_ok_iff {step : Action σ α} {s t : σ} {as : List α} :
    times step 0 s = .ok as t ↔ as = [] ∧ t = s := by
  change EStateM.Result.ok _ s = .ok as t ↔ _
  simp [eq_comm]

theorem times_succ_eq_ok_iff {step : Action σ α} {n : Nat} {s t : σ} {as : List α} :
    times step (n + 1) s = .ok as t ↔
      ∃ a r rest, step s = .ok a r ∧ times step n r = .ok rest t ∧ as = a :: rest := by
  rw [times_succ, bind_eq_ok_iff]
  constructor
  · intro ⟨a, r, ha, h⟩
    obtain ⟨rest, u, hrest, h⟩ := bind_eq_ok_iff.1 h
    obtain ⟨has, rfl⟩ := pure_eq_ok_iff.1 h
    exact ⟨a, r, rest, ha, hrest, has.symm⟩
  · intro h
    obtain ⟨a, r, rest, ha, hrest, rfl⟩ := h
    exact ⟨a, r, ha, bind_eq_ok_iff.2 ⟨rest, t, hrest, rfl⟩⟩

theorem length_of_times_eq_ok {step : Action σ α} {n : Nat} {s t : σ} {as : List α}
    (h : times step n s = .ok as t) : as.length = n := by
  induction n generalizing s as with
  | zero =>
    rw [(times_zero_eq_ok_iff.1 h).1]
    rfl
  | succ n ih =>
    obtain ⟨a, r, rest, -, hrest, rfl⟩ := times_succ_eq_ok_iff.1 h
    rw [List.length_cons, ih hrest]

theorem times_keeps {step : Action σ α} (Keep : List α → σ → Prop)
    (hstep : ∀ {as s a t}, Keep as s → step s = .ok a t → Keep (as ++ [a]) t) {n : Nat} {s t : σ} (seen : List α)
    {as : List α} (h : times step n s = .ok as t) (hs : Keep seen s) : Keep (seen ++ as) t := by
  induction n generalizing s as seen with
  | zero =>
    obtain ⟨rfl, rfl⟩ := times_zero_eq_ok_iff.1 h
    rwa [List.append_nil]
  | succ n ih =>
    obtain ⟨a, r, rest, ha, hrest, rfl⟩ := times_succ_eq_ok_iff.1 h
    have hr := ih (seen ++ [a]) hrest (hstep hs ha)
    rwa [List.append_assoc] at hr

end Action

/-! ## Lists -/

theorem exists_first {α : Type} {p : α → Prop} {xs : List α} (h : ¬ ∀ x ∈ xs, p x) :
    ∃ before x rest, xs = before ++ x :: rest ∧ (∀ y ∈ before, p y) ∧ ¬ p x := by
  induction xs with
  | nil => exact absurd (fun _ hx => by cases hx) h
  | cons x xs ih =>
    by_cases hx : p x
    · obtain ⟨before, y, rest, rfl, hbefore, hy⟩ := ih fun hall => h (List.forall_mem_cons.2 ⟨hx, hall⟩)
      exact ⟨x :: before, y, rest, rfl, List.forall_mem_cons.2 ⟨hx, hbefore⟩, hy⟩
    · exact ⟨[], x, xs, rfl, by simp, hx⟩

/-! ## Sources -/

/-- What was drawn from a source before it ended, how it ended, and the state
it was left in. -/
structure Drawn (σ α : Type) where
  items : List α
  ending : Except Fault Unit
  state : σ

namespace Drawn

variable {σ α : Type}

/-- Draws at most `limit` items after those in `seen`, newest first. -/
def drawAfter (next : Action σ (Option α)) : (limit : Nat) → List α → σ → Drawn σ α
  | 0, seen, s => ⟨seen.reverse, .ok (), s⟩
  | n + 1, seen, s =>
    match next s with
    | .ok (some a) s => drawAfter next n (a :: seen) s
    | .ok none s => ⟨seen.reverse, .ok (), s⟩
    | .error fault s => ⟨seen.reverse, .error fault, s⟩

/-- Draws items until the source has none left, fails, or has given `limit`
of them. -/
def draw (next : Action σ (Option α)) (limit : Nat) (s : σ) : Drawn σ α :=
  drawAfter next limit [] s

/-- The items, when the source came to its end. -/
def all (d : Drawn σ α) : Except Fault (List α) :=
  d.ending.map fun _ => d.items

/-- What a source gives, item by item, until it ends or fails. -/
inductive From (next : Action σ (Option α)) : σ → Drawn σ α → Prop
  | ended {s t : σ} (h : next s = .ok none t) : From next s ⟨[], .ok (), t⟩
  | failed {s t : σ} {fault : Fault} (h : next s = .error fault t) : From next s ⟨[], .error fault, t⟩
  | item {s r : σ} {a : α} {d : Drawn σ α} (h : next s = .ok (some a) r) (hrest : From next r d) :
    From next s ⟨a :: d.items, d.ending, d.state⟩

theorem drawAfter_of_from {next : Action σ (Option α)} {s : σ} {d : Drawn σ α} (h : From next s d) {limit : Nat}
    (hlimit : d.items.length < limit) (seen : List α) :
    drawAfter next limit seen s = ⟨seen.reverse ++ d.items, d.ending, d.state⟩ := by
  induction h generalizing limit seen with
  | ended h =>
    cases limit with
    | zero => cases hlimit
    | succ n => simp [drawAfter, h]
  | failed h =>
    cases limit with
    | zero => cases hlimit
    | succ n => simp [drawAfter, h]
  | @item s r a d h _ ih =>
    cases limit with
    | zero => cases hlimit
    | succ n =>
      have hrest := ih (Nat.lt_of_succ_lt_succ hlimit) (a :: seen)
      rw [drawAfter, h]
      simpa using hrest

/-- A source that leaves less and less comes to an end. -/
theorem exists_from {next : Action σ (Option α)} (left : σ → Nat)
    (hless : ∀ {s a t}, next s = .ok (some a) t → left t < left s) (s : σ) :
    ∃ d, From next s d ∧ d.items.length ≤ left s := by
  cases hs : next s with
  | error fault t => exact ⟨_, .failed hs, Nat.zero_le _⟩
  | ok item t =>
    cases item with
    | none => exact ⟨_, .ended hs, Nat.zero_le _⟩
    | some a =>
      have hlt := hless hs
      obtain ⟨d, hd, hlength⟩ := exists_from left hless t
      exact ⟨_, .item hs hd, by dsimp only [List.length_cons]; omega⟩
  termination_by left s

/-- What a source does keeps true a property of the items so far and the state. -/
def Keeps (Keep : List α → σ → Prop) (seen : List α) : EStateM.Result Fault σ (Option α) → Prop
  | .ok (some a) t => Keep (seen ++ [a]) t
  | .ok none t => Keep seen t
  | .error _ t => Keep seen t

theorem drawAfter_keeps {next : Action σ (Option α)} (Keep : List α → σ → Prop)
    (hnext : ∀ {seen s}, Keep seen s → Keeps Keep seen (next s)) {limit : Nat} {seen : List α} {s : σ}
    (hs : Keep seen.reverse s) : Keep (drawAfter next limit seen s).items (drawAfter next limit seen s).state := by
  induction limit generalizing seen s with
  | zero => exact hs
  | succ n ih =>
    have hkeeps := hnext hs
    rw [drawAfter]
    cases h : next s with
    | error fault t =>
      rw [h] at hkeeps
      exact hkeeps
    | ok item t =>
      rw [h] at hkeeps
      cases item with
      | none => exact hkeeps
      | some a =>
        refine ih ?_
        rw [List.reverse_cons]
        exact hkeeps

theorem draw_keeps {next : Action σ (Option α)} (Keep : List α → σ → Prop)
    (hnext : ∀ {seen s}, Keep seen s → Keeps Keep seen (next s)) {s : σ} (hs : Keep [] s) (limit : Nat) :
    Keep (draw next limit s).items (draw next limit s).state :=
  drawAfter_keeps Keep hnext hs

theorem exists_error_of_drawAfter {next : Action σ (Option α)} {limit : Nat} {seen : List α} {s : σ} {fault : Fault}
    (h : (drawAfter next limit seen s).ending = .error fault) : ∃ r t, next r = .error fault t := by
  induction limit generalizing seen s with
  | zero => cases h
  | succ n ih =>
    rw [drawAfter] at h
    cases hs : next s with
    | error fault' t =>
      rw [hs] at h
      cases h
      exact ⟨s, t, hs⟩
    | ok item t =>
      rw [hs] at h
      cases item with
      | none => cases h
      | some a => exact ih h

theorem From.keeps {next : Action σ (Option α)} (Keep : List α → σ → Prop)
    (hitem : ∀ {seen s a t}, Keep seen s → next s = .ok (some a) t → Keep (seen ++ [a]) t)
    (hend : ∀ {seen s t}, Keep seen s → next s = .ok none t → Keep seen t) {s : σ} {d : Drawn σ α}
    (h : From next s d) (hok : d.ending = .ok ()) (seen : List α) (hs : Keep seen s) : Keep (seen ++ d.items) d.state := by
  induction h generalizing seen with
  | ended h =>
    rw [List.append_nil]
    exact hend hs h
  | failed h => cases hok
  | @item s r a d h _ ih =>
    have hrest := ih hok (seen ++ [a]) (hitem hs h)
    rwa [List.append_assoc] at hrest

/-- Drawing stops where the source does, if the limit leaves room. -/
theorem draw_of_from {next : Action σ (Option α)} {s : σ} {d : Drawn σ α} (h : From next s d) {limit : Nat}
    (hlimit : d.items.length < limit) : draw next limit s = d := by
  rw [draw, drawAfter_of_from h hlimit]
  rfl

theorem From.unique {next : Action σ (Option α)} {s : σ} {d d' : Drawn σ α} (h : From next s d) (h' : From next s d') :
    d = d' := by
  have hdraw := draw_of_from h (Nat.lt_succ_of_le (Nat.le_max_left d.items.length d'.items.length))
  rw [← hdraw, draw_of_from h' (Nat.lt_succ_of_le (Nat.le_max_right ..))]

end Drawn

end GatePlan
