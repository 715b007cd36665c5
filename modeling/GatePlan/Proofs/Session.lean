/-
A session comes to no other result than a new one. Whatever was asked of the
compiler before, and however it failed, the next compilation ends, prints and
counts as if it were the first with this width and verbosity, and leaves the same
in its sink (`compilation_is_like_the_first`). What a session keeps (`Session.Kept`)
is a usable width and a folder that has changed at two paths only; all else is
overwritten before it is read.
-/
import GatePlan.Proofs.StaleSinks
import GatePlan.Proofs.StepByStep

namespace GatePlan

/-! ## Settings -/

namespace Compiler

/-- An address width that is taken. -/
def Usable (s : Compiler) : Prop := 0 < s.bits ∧ s.bits ≤ maxAddressBits

theorem usable_default : default.Usable := ⟨by decide, by decide⟩

theorem checkBits_eq_ok_iff {bits : Int} : checkBits bits = .ok () ↔ 0 < bits ∧ bits ≤ maxAddressBits := by
  unfold checkBits
  split <;> rename_i h <;> simp only [Bool.or_eq_true, decide_eq_true_eq] at h <;> simp <;> omega

theorem setBits_of_usable {s : Compiler} (h : s.Usable) (t : Compiler) :
    setBits s.bits t = .ok () { t with bits := s.bits } := by
  obtain ⟨hpos, hle⟩ := h
  have hcheck : checkBits s.bits = .ok () := checkBits_eq_ok_iff.2 (by omega)
  unfold setBits
  rw [hcheck]
  rfl

theorem Usable.setBits {s : Compiler} (h : s.Usable) (bits : Nat) : ((setBits bits).outcome s).2.Usable := by
  unfold Compiler.setBits
  cases hcheck : checkBits bits with
  | error fault => exact h
  | ok u =>
    obtain ⟨hpos, hle⟩ := checkBits_eq_ok_iff.1 hcheck
    exact ⟨show 0 < bits by omega, show bits ≤ maxAddressBits by omega⟩

theorem Usable.readSettings {s : Compiler} (h : s.Usable) (settings : Cursor) :
    ((readSettings settings).outcome s).2.Usable := by
  have hread : (get : Action Compiler Compiler) s = .ok s s := rfl
  unfold Compiler.readSettings
  rw [Action.outcome_bind_of_ok hread]
  cases settings.getInt "address_bits" s.bits with
  | error fault => exact h
  | ok bits =>
    rw [Action.outcome_bind_of_ok (Action.ofExcept_eq_ok_iff.2 ⟨rfl, rfl⟩)]
    cases hcheck : checkBits bits with
    | error fault => exact h
    | ok u =>
      obtain ⟨hpos, hle⟩ := checkBits_eq_ok_iff.1 hcheck
      have husable : ∀ verbose, Usable { s with bits := bits.toNat, verbose := verbose } := fun _ =>
        ⟨show 0 < bits.toNat by omega, show bits.toNat ≤ maxAddressBits by omega⟩
      -- the width is kept whatever becomes of the verbosity
      cases settings.getBool "verbose" s.verbose with
      | error fault => exact husable s.verbose
      | ok verbose => exact husable verbose

end Compiler

/-! ## One compilation after another -/

/-- **Compilers at work that differ in what they hold** go on alike. -/
theorem Running.compile_alike {σ : Type} [Inhabited σ] [PlanSink σ] {E R S : σ → σ → Prop} (hsinks : PlanSink.Alike E R S)
    {b d : Running σ} (hbits : b.compiler.bits = d.compiler.bits) (hverbose : b.compiler.verbose = d.compiler.verbose)
    (hsink : E b.sink d.sink) (columns : Nat) (c : Circuit) (given : Option CreditTable) :
    ∃ ending text b' d', (compile columns c given).outcome b = (ending, b') ∧
      (compile columns c given).outcome d = (ending, d') ∧ b'.log = b.log ++ text ∧ d'.log = d.log ++ text ∧
        (ending = .ok () → b'.compiler = d'.compiler ∧ S b'.sink d'.sink) := by
  obtain ⟨bar, hb⟩ := compile_eq columns c given b
  obtain ⟨bar', hd⟩ := compile_eq columns c given d
  have halike := Compiler.compileUsing_alike hsinks hbits hverbose hsink columns c given
  rw [← halike.ending] at hd
  refine ⟨_, _, _, _, hb, hd, rfl, ?_, fun hok => ?_⟩
  · rw [withCompilation, halike.log]
  · obtain ⟨hstats, hS⟩ := halike.ended hok
    refine ⟨?_, hS⟩
    simp only [withCompilation, Compiler.after, hbits, hverbose, hstats]

/-- A compilation leaves files near to what they were near to, also when it fails. -/
theorem PlanFiles.Near.compileUsing {base w : PlanFiles} (h : w.Near base) (s : Compiler) (columns : Nat) (c : Circuit)
    (given : Option CreditTable) : (s.compileUsing columns c given w).sink.Near base := by
  -- files that are near are alike to themselves, and stay near either way
  have halike := Compiler.compileUsing_alike (s := s) (PlanFiles.alike base) rfl rfl ⟨h, h⟩ columns c given
  cases hending : (s.compileUsing columns c given w).ending with
  | ok u => exact (halike.ended hending).2.left
  | error fault => exact (halike.failed fault hending).1

/-! ## Sessions -/

namespace Session

/-- What a session keeps, whatever is asked of it. -/
structure Kept (base : PlanFiles) (s : Session) : Prop where
  usable : s.compiler.Usable
  files : s.files.Near base

theorem kept_start (levelPath addressPath : String) (folder : Folder) :
    (start levelPath addressPath folder).Kept (PlanFiles.ofPaths levelPath addressPath folder) :=
  ⟨Compiler.usable_default, .refl _⟩

theorem Kept.serve {base : PlanFiles} {s : Session} (h : s.Kept base) (request : Request) :
    ((serve request).outcome s).2.Kept base := by
  cases request with
  | setBits bits =>
    rw [Session.serve, onCompiler, Action.outcome_within]
    exact ⟨h.usable.setBits bits, h.files⟩
  | setVerbose verbose => exact ⟨h.usable, h.files⟩
  | readSettings settings =>
    rw [Session.serve, onCompiler, Action.outcome_within]
    exact ⟨h.usable.readSettings settings, h.files⟩
  | compile kind columns c given =>
    cases kind with
    | record =>
      obtain ⟨bar, hcompile⟩ := Running.compile_eq columns c given ⟨s.compiler, s.bar, s.record, s.log⟩
      rw [Session.serve, onRecord, onSink, Action.outcome_within, hcompile]
      exact ⟨h.usable, h.files⟩
    | streams =>
      obtain ⟨bar, hcompile⟩ := Running.compile_eq columns c given ⟨s.compiler, s.bar, s.streams, s.log⟩
      rw [Session.serve, onStreams, onSink, Action.outcome_within, hcompile]
      exact ⟨h.usable, h.files⟩
    | files =>
      obtain ⟨bar, hcompile⟩ := Running.compile_eq columns c given ⟨s.compiler, s.bar, s.files, s.log⟩
      rw [Session.serve, onFiles, onSink, Action.outcome_within, hcompile]
      exact ⟨h.usable, h.files.compileUsing s.compiler columns c given⟩

theorem Kept.after {base : PlanFiles} {s : Session} (h : s.Kept base) (requests : List Request) :
    (s.after requests).Kept base := by
  induction requests generalizing s with
  | nil => exact h
  | cons request requests ih => exact ih (h.serve request)

/-- The requests that set another compiler as this one is set. -/
def settings (s : Session) : List Request := [.setBits s.compiler.bits, .setVerbose s.compiler.verbose]

theorem start_after_settings {s : Session} (h : s.compiler.Usable) (levelPath addressPath : String) (folder : Folder) :
    (start levelPath addressPath folder).after s.settings =
      { start levelPath addressPath folder with compiler := { s.compiler with stats := CompilerStats.none } } := by
  have hbits := Action.outcome_eq_ok_iff.2 (Compiler.setBits_of_usable h Compiler.default)
  have hserve : ((serve (.setBits s.compiler.bits)).outcome (start levelPath addressPath folder)).2 =
      { start levelPath addressPath folder with compiler := { Compiler.default with bits := s.compiler.bits } } := by
    rw [serve, onCompiler, Action.outcome_within, start, hbits]
  rw [settings, after, List.foldl_cons, hserve]
  rfl

/-- The sinks of a kind cannot be told apart. -/
def SameSink : SinkKind → Session → Session → Prop
  | .record, s, t => s.record = t.record
  | .streams, s, t => s.streams = t.streams
  | .files, s, t => s.files.Same t.files

theorem alike_onSink {σ : Type} [Inhabited σ] [PlanSink σ] (sink : Session → σ) (put : σ → Session → Session)
    (hput : ∀ w s, sink (put w s) = w ∧ (put w s).compiler = s.compiler ∧ (put w s).log = s.log)
    {E R S : σ → σ → Prop} (hsinks : PlanSink.Alike E R S) {s t : Session}
    (hbits : s.compiler.bits = t.compiler.bits) (hverbose : s.compiler.verbose = t.compiler.verbose) (hlog : t.log = "")
    (hsink : E (sink s) (sink t)) (columns : Nat) (c : Circuit) (given : Option CreditTable) :
    let r := (onSink sink put (Running.compile columns c given)).outcome s
    let r' := (onSink sink put (Running.compile columns c given)).outcome t
    r.1 = r'.1 ∧ r.2.log = s.log ++ r'.2.log ∧
      (r.1 = .ok () → r.2.compiler = r'.2.compiler ∧ S (sink r.2) (sink r'.2)) := by
  obtain ⟨ending, text, b, d, hb, hd, hbLog, hdLog, hok⟩ := Running.compile_alike hsinks
    (b := ⟨s.compiler, s.bar, sink s, s.log⟩) (d := ⟨t.compiler, t.bar, sink t, t.log⟩) hbits hverbose hsink columns c given
  rw [onSink, Action.outcome_within, Action.outcome_within, hb, hd]
  dsimp only
  simp only [hput]
  refine ⟨trivial, ?_, hok⟩
  rw [hbLog, hdLog, hlog, String.empty_append]

end Session

/-- **Nothing is left of a compilation in the next one.** After any history a
compilation ends and prints as in a new session whose compiler is set alike. When
it comes to its end, its statistics are the same, and the sink it went to cannot
be told from a new one: the same plan, the same streams, the same files at every
path. -/
theorem compilation_is_like_the_first (levelPath addressPath : String) (folder : Folder) (history : List Request)
    (kind : SinkKind) (columns : Nat) (c : Circuit) (given : Option CreditTable) :
    let used := (Session.start levelPath addressPath folder).after history
    let fresh := (Session.start levelPath addressPath folder).after used.settings
    let r := (Session.serve (.compile kind columns c given)).outcome used
    let r' := (Session.serve (.compile kind columns c given)).outcome fresh
    r.1 = r'.1 ∧ r.2.log = used.log ++ r'.2.log ∧
      (r.1 = .ok () → r.2.compiler = r'.2.compiler ∧ Session.SameSink kind r.2 r'.2) := by
  intro used fresh r r'
  have hkept : used.Kept (PlanFiles.ofPaths levelPath addressPath folder) :=
    (Session.kept_start levelPath addressPath folder).after history
  have hfresh : fresh = { Session.start levelPath addressPath folder with
      compiler := { used.compiler with stats := CompilerStats.none } } :=
    Session.start_after_settings hkept.usable levelPath addressPath folder
  have hbits : used.compiler.bits = fresh.compiler.bits := by rw [hfresh]
  have hverbose : used.compiler.verbose = fresh.compiler.verbose := by rw [hfresh]
  have hlog : fresh.log = "" := by rw [hfresh]; rfl
  cases kind with
  | record =>
    exact Session.alike_onSink Session.record (fun w s => { s with record := w }) (fun _ _ => ⟨rfl, rfl, rfl⟩)
      PlanRecord.alike hbits hverbose hlog trivial columns c given
  | streams =>
    exact Session.alike_onSink Session.streams (fun w s => { s with streams := w }) (fun _ _ => ⟨rfl, rfl, rfl⟩)
      StreamPair.alike hbits hverbose hlog trivial columns c given
  | files =>
    have hnear : fresh.files.Near (PlanFiles.ofPaths levelPath addressPath folder) := by
      rw [hfresh]
      exact .refl _
    obtain ⟨hending, hlogs, hok⟩ := Session.alike_onSink Session.files (fun w s => { s with files := w })
      (fun _ _ => ⟨rfl, rfl, rfl⟩) (PlanFiles.alike _) hbits hverbose hlog ⟨hkept.files, hnear⟩ columns c given
    exact ⟨hending, hlogs, fun h => (hok h).imp_right PlanFiles.Alike.same⟩

/-- By three bits a full adder fails in its second level, with half a stream and
half a bar. By four it is compiled into the same files as by a new compiler. -/
theorem full_adder_is_compiled_after_a_failure :
    let new := Session.start "adder.lvl" "adder.addr" Folder.anywhere
    let request := Request.compile .files 80 fullAdder none
    let failed := new.after [.setVerbose true, .setBits 3]
    let history := [.setVerbose true, .setBits 3, request, .setBits 4]
    let used := new.after history
    let r := (Session.serve request).outcome used
    let r' := (Session.serve request).outcome (new.after used.settings)
    ((Session.serve request).outcome failed).1 = .error (.slotsExhausted 8 3) ∧ r.1 = .ok () ∧
      r.2.compiler = r'.2.compiler ∧ r.2.log = used.log ++ r'.2.log ∧ r.2.files.Same r'.2.files := by
  intro new request failed history used r r'
  have hfailed : ((Session.serve request).outcome failed).1 = .error (.slotsExhausted 8 3) := by decide +kernel
  have hending : r.1 = .ok () := by decide +kernel
  -- the rest holds of any history
  clear_value history
  obtain ⟨-, hlog, hok⟩ := compilation_is_like_the_first "adder.lvl" "adder.addr" Folder.anywhere history .files 80
    fullAdder none
  exact ⟨hfailed, hending, (hok hending).1, hlog, (hok hending).2⟩

end GatePlan
