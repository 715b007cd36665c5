/-
Sinks that forget what they held. Starting a record or a pair of streams leaves
nothing of it (`PlanSink.alike_of_start`). Files may be left of an older plan, or
of half of one, but only at the two paths of the sink, and a sink that comes to
its end has written both (`PlanFiles.alike`).
-/
import GatePlan.Proofs.AlikeSinks
import GatePlan.Proofs.PlanStreams

namespace GatePlan

/-! ## Steps -/

namespace Action.Alike

variable {σ τ α : Type} {E R S : σ → τ → Prop}

theorem check (hfallen : ∀ {s t}, R s t → E s t) (x : Except Fault α) : Alike E R R (ofExcept x) (ofExcept x) := by
  intro s t h
  cases x with
  | ok a => exact .inl ⟨a, s, t, rfl, rfl, h⟩
  | error fault => exact .inr ⟨fault, s, t, rfl, rfl, hfallen h⟩

theorem modify {f : σ → σ} {g : τ → τ} (h : ∀ s t, R s t → S (f s) (g t)) : Alike E R S (modify f) (modify g) :=
  fun s t hst => .inl ⟨(), f s, g t, rfl, rfl, h s t hst⟩

theorem of_eq {E : σ → σ → Prop} (hfallen : ∀ s, E s s) (step : Action σ α) : Alike E Eq Eq step step := by
  intro s t h
  subst h
  cases hstep : step s with
  | ok a r => exact .inl ⟨a, r, r, rfl, rfl, rfl⟩
  | error fault r => exact .inr ⟨fault, r, r, rfl, rfl, hfallen r⟩

end Action.Alike

theorem PlanSink.alike_of_start {σ : Type} [PlanSink σ]
    (h : ∀ inputs (v w : σ), PlanSink.start inputs v = PlanSink.start inputs w) :
    PlanSink.Alike (fun _ _ : σ => True) Eq Eq where
  fallen _ := trivial
  start inputs _ _ _ := h inputs ..
  level _ _ := .of_eq (fun _ => trivial) _
  finish _ _ := .of_eq (fun _ => trivial) _

theorem PlanRecord.alike : PlanSink.Alike (fun _ _ : PlanRecord => True) Eq Eq :=
  PlanSink.alike_of_start fun _ _ _ => rfl

theorem StreamPair.alike : PlanSink.Alike (fun _ _ : StreamPair => True) Eq Eq :=
  PlanSink.alike_of_start fun _ _ _ => rfl

/-! ## Folders -/

namespace Folder

/-- Folders that name paths alike and hold the same files, but for those at some
stale paths. -/
structure AgreeBut (stale : List String) (f g : Folder) : Prop where
  names : f.nameOf = g.nameOf
  files : ∀ path, (∀ old ∈ stale, f.nameOf old ≠ f.nameOf path) → f.get? path = g.get? path

namespace AgreeBut

variable {stale : List String} {f g h : Folder}

theorem refl (stale : List String) (f : Folder) : AgreeBut stale f f := ⟨rfl, fun _ _ => rfl⟩

theorem symm (hfg : AgreeBut stale f g) : AgreeBut stale g f :=
  ⟨hfg.names.symm, fun path hpath => (hfg.files path (by rwa [hfg.names])).symm⟩

theorem trans (hfg : AgreeBut stale f g) (hgh : AgreeBut stale g h) : AgreeBut stale f h :=
  ⟨hfg.names.trans hgh.names, fun path hpath => (hfg.files path hpath).trans (hgh.files path (by rwa [← hfg.names]))⟩

end AgreeBut

theorem create_of_none {path : String} {f : Folder} (hname : f.nameOf path = none) (bytes : Bytes) :
    create path bytes f = .error .fileUnavailable f := by
  rw [create, hname]

theorem create_of_some {path name : String} {f : Folder} (hname : f.nameOf path = some name) (bytes : Bytes) :
    ∃ f', create path bytes f = .ok () f' ∧ f'.nameOf = f.nameOf ∧
      ∀ other, f'.get? other = if f.nameOf other = f.nameOf path then some bytes else f.get? other := by
  obtain ⟨f', hcreate, hnames, hfile, hothers⟩ := create_eq_ok hname bytes
  refine ⟨f', hcreate, hnames, fun other => ?_⟩
  split
  · rename_i hother
    rw [← hfile, get?, get?, hnames, hother]
  · rename_i hother
    exact hothers other (hname ▸ hother)

theorem alike_create (path : String) (stale : List String) (bytes : Bytes) :
    Action.Alike (fun _ _ => True) (AgreeBut (path :: stale)) (AgreeBut stale) (create path bytes) (create path bytes) := by
  intro f g hfg
  cases hname : f.nameOf path with
  | none =>
    have hname' : g.nameOf path = none := hfg.names ▸ hname
    exact .inr ⟨_, f, g, create_of_none hname bytes, create_of_none hname' bytes, trivial⟩
  | some name =>
    have hname' : g.nameOf path = some name := hfg.names ▸ hname
    obtain ⟨f', hcreate, hnames, hget⟩ := create_of_some hname bytes
    obtain ⟨g', hcreate', hnames', hget'⟩ := create_of_some hname' bytes
    refine .inl ⟨(), f', g', hcreate, hcreate', by rw [hnames, hnames', hfg.names], fun other hother => ?_⟩
    rw [hnames] at hother
    rw [hget, hget', ← hfg.names]
    split
    · rfl
    · rename_i hne
      refine hfg.files other fun old hold => ?_
      rcases List.mem_cons.1 hold with rfl | hold
      · exact Ne.symm hne
      · exact hother old hold

theorem AgreeBut.create {stale : List String} {path : String} (hpath : path ∈ stale) (bytes : Bytes) (f : Folder) :
    AgreeBut stale ((create path bytes).outcome f).2 f := by
  cases hname : f.nameOf path with
  | none =>
    rw [Action.outcome_of_error (create_of_none hname bytes)]
    exact .refl ..
  | some name =>
    obtain ⟨f', hcreate, hnames, hget⟩ := create_of_some hname bytes
    rw [Action.outcome_eq_ok_iff.2 hcreate]
    refine ⟨hnames, fun other hother => ?_⟩
    rw [hnames] at hother
    rw [hget, if_neg (hother path hpath).symm]

end Folder

/-! ## Files -/

namespace PlanFiles

/-- Files to the paths of others, in a folder that has changed at these paths only. -/
structure Near (v base : PlanFiles) : Prop where
  levelPath : v.levelPath = base.levelPath
  addressPath : v.addressPath = base.addressPath
  folder : v.folder.AgreeBut [base.levelPath, base.addressPath] base.folder

theorem Near.refl (v : PlanFiles) : v.Near v := ⟨rfl, rfl, .refl ..⟩

/-- Files with the same streams and some equal sizes, in folders that agree but for
some paths. -/
structure Alike (base : PlanFiles) (stale : List String) (sizes : PlanFiles → List Nat) (v w : PlanFiles) : Prop where
  left : v.Near base
  right : w.Near base
  streams : v.streams = w.streams
  sizes : sizes v = sizes w
  folder : v.folder.AgreeBut stale w.folder

/-- Files that cannot be told apart. -/
structure Same (v w : PlanFiles) : Prop where
  streams : v.streams = w.streams
  levelSize : v.levelSize = w.levelSize
  addressSize : v.addressSize = w.addressSize
  files : ∀ path, v.folder.get? path = w.folder.get? path

theorem Alike.same {base v w : PlanFiles} (h : Alike base [] (fun v => [v.levelSize, v.addressSize]) v w) : v.Same w := by
  have hsizes := h.sizes
  simp only [List.cons.injEq, and_true] at hsizes
  exact ⟨h.streams, hsizes.1, hsizes.2, fun path => h.folder.files path fun old hold => by cases hold⟩

variable {base : PlanFiles}

theorem Near.withStreams {v : PlanFiles} (h : v.Near base) (pair : StreamPair) : Near { v with streams := pair } base :=
  ⟨h.levelPath, h.addressPath, h.folder⟩

theorem Near.withFolder {v : PlanFiles} (h : v.Near base) {f : Folder}
    (hf : f.AgreeBut [base.levelPath, base.addressPath] v.folder) : Near { v with folder := f } base :=
  ⟨h.levelPath, h.addressPath, hf.trans h.folder⟩

theorem Near.withSizes {v : PlanFiles} (h : v.Near base) (levelSize addressSize : Nat) :
    Near { v with levelSize := levelSize, addressSize := addressSize } base :=
  ⟨h.levelPath, h.addressPath, h.folder⟩

variable {stale : List String} {sizes : PlanFiles → List Nat}

theorem alike_onStreams (hsizes : ∀ v pair, sizes { v with streams := pair } = sizes v) {α : Type}
    (step : Action StreamPair α) :
    Action.Alike (fun v w => v.Near base ∧ w.Near base) (Alike base stale sizes) (Alike base stale sizes)
      (onStreams step) (onStreams step) := by
  intro v w h
  have hstreams := h.streams
  cases hstep : step v.streams with
  | ok a pair =>
    have hstep' : step w.streams = .ok a pair := hstreams ▸ hstep
    have hsized := (hsizes v pair).trans (h.sizes.trans (hsizes w pair).symm)
    exact .inl ⟨a, { v with streams := pair }, { w with streams := pair }, Action.within_eq_ok_iff.2 ⟨pair, hstep, rfl⟩,
      Action.within_eq_ok_iff.2 ⟨pair, hstep', rfl⟩, h.left.withStreams pair, h.right.withStreams pair, rfl, hsized, h.folder⟩
  | error fault pair =>
    have hstep' : step w.streams = .error fault pair := hstreams ▸ hstep
    exact .inr ⟨fault, { v with streams := pair }, { w with streams := pair }, Action.within_of_error hstep,
      Action.within_of_error hstep', h.left.withStreams pair, h.right.withStreams pair⟩

theorem alike_create {path : String} (hpath : path ∈ [base.levelPath, base.addressPath])
    (hsizes : ∀ v f, sizes { v with folder := f } = sizes v) (bytes : Bytes) :
    Action.Alike (fun v w => v.Near base ∧ w.Near base) (Alike base (path :: stale) sizes) (Alike base stale sizes)
      (onFolder (Folder.create path bytes)) (onFolder (Folder.create path bytes)) := by
  intro v w h
  -- created or not, either folder still differs from that of `base` at its two paths only
  have hleft := Folder.AgreeBut.create hpath bytes v.folder
  have hright := Folder.AgreeBut.create hpath bytes w.folder
  rcases Folder.alike_create path stale bytes v.folder w.folder h.folder with
    ⟨u, f, g, hcreate, hcreate', hfg⟩ | ⟨fault, f, g, hcreate, hcreate', -⟩
  · rw [Action.outcome_eq_ok_iff.2 hcreate] at hleft
    rw [Action.outcome_eq_ok_iff.2 hcreate'] at hright
    have hsized := (hsizes v f).trans (h.sizes.trans (hsizes w g).symm)
    exact .inl ⟨u, { v with folder := f }, { w with folder := g }, Action.within_eq_ok_iff.2 ⟨f, hcreate, rfl⟩,
      Action.within_eq_ok_iff.2 ⟨g, hcreate', rfl⟩, h.left.withFolder hleft, h.right.withFolder hright, h.streams, hsized,
      hfg⟩
  · rw [Action.outcome_of_error hcreate] at hleft
    rw [Action.outcome_of_error hcreate'] at hright
    exact .inr ⟨fault, { v with folder := f }, { w with folder := g }, Action.within_of_error hcreate,
      Action.within_of_error hcreate', h.left.withFolder hleft, h.right.withFolder hright⟩

/-- The level file is written first: its path is stale no longer, and its size is known. -/
theorem alike_finish (slots : Nat) (outputs : List Nat) :
    Action.Alike (fun v w => v.Near base ∧ w.Near base) (Alike base [base.levelPath, base.addressPath] fun _ => [])
      (Alike base [] fun v => [v.levelSize, v.addressSize]) (finish slots outputs) (finish slots outputs) := by
  rintro ⟨-, -, streams, n, k, f⟩ ⟨-, -, -, n', k', f'⟩ ⟨⟨rfl, rfl, hf⟩, ⟨rfl, rfl, hf'⟩, rfl, -, hfolder⟩
  let pair : StreamPair := { streams with slots := slots, outputs := outputs }
  have hstreams : ∀ n k f, onStreams (StreamPair.finish slots outputs) ⟨base.levelPath, base.addressPath, streams, n, k, f⟩ =
      .ok () ⟨base.levelPath, base.addressPath, pair, n, k, f⟩ := fun _ _ _ => rfl
  have hfallen : ∀ {stale sizes v w}, Alike base stale sizes v w → v.Near base ∧ w.Near base := fun h => ⟨h.left, h.right⟩
  rw [finish, Action.bind_of_ok (hstreams ..), Action.bind_of_ok (hstreams ..), Action.get_bind, Action.get_bind]
  refine Action.Alike.bind (S := Alike base [base.levelPath, base.addressPath] fun _ => []) (.check hfallen _)
    (fun header => ?_) _ _ ⟨⟨rfl, rfl, hf⟩, ⟨rfl, rfl, hf'⟩, rfl, rfl, hfolder⟩
  -- the headers depend on the streams alone, so both are written or neither
  refine (alike_create (by simp) (fun _ _ => rfl) _).bind fun _ => ?_
  refine Action.Alike.bind (S := Alike base [base.addressPath] fun v => [v.levelSize]) (.modify fun v w h => ?_) fun _ => ?_
  · exact ⟨h.left.withSizes _ v.addressSize, h.right.withSizes _ w.addressSize, h.streams, rfl, h.folder⟩
  refine (Action.Alike.check hfallen _).bind fun header => (alike_create (by simp) (fun _ _ => rfl) _).bind fun _ => ?_
  refine .modify fun v w h => ?_
  have hsized : [v.levelSize, _] = [w.levelSize, _] :=
    congrArg (fun sizes => sizes ++ [(header ++ pair.addressStream).length]) h.sizes
  exact ⟨h.left.withSizes v.levelSize _, h.right.withSizes w.levelSize _, h.streams, hsized, h.folder⟩

/-- **Files are alike if they go to the same paths** and their folders differ at
these paths only. -/
theorem alike (base : PlanFiles) : PlanSink.Alike (fun v w => v.Near base ∧ w.Near base)
    (Alike base [base.levelPath, base.addressPath] fun _ => []) (Alike base [] fun v => [v.levelSize, v.addressSize]) where
  fallen h := ⟨h.left, h.right⟩
  start _ _ _ h := ⟨h.1.withStreams _, h.2.withStreams _, rfl, rfl, h.1.folder.trans h.2.folder.symm⟩
  level l al := alike_onStreams (fun _ _ => rfl) (StreamPair.level l al)
  finish := alike_finish

end PlanFiles

end GatePlan
