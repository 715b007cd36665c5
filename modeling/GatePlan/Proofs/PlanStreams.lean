/-
What the compiler writes is read back as the plan. The sinks that encode are
told the plan of the sink that keeps it (`Compiler.compileUsing_record`), the
two streams are those of levels that take their turns (`GatePlan.Proofs.Discipline`),
and the files add headers to them, in which no number is too large either.
-/
import GatePlan.PlanFile
import GatePlan.Proofs.Discipline

namespace GatePlan

open Varint

/-! ## Streams -/

/-- Two streams that are decoded to their ends, as the plan and the locations. -/
structure StreamPair.Holds (c : Circuit) (leveled : List LeveledLevel) (p : Plan) (levelBytes addressBytes : Bytes) :
    Prop where
  addresses : ∃ d, AddressDecoder.decode addressBytes c.inputs = ⟨p.levels, .ok (), d⟩ ∧ d.input.rest = [] ∧
    d.written = p.slots
  levels : ∃ d, LevelDecoder.decode levelBytes c.inputs = ⟨leveled.map Level.located, .ok (), d⟩ ∧ d.input.rest = [] ∧
    d.bases.counter = c.wires

variable {bits : Nat} {c : Circuit} {credits : Nat → Nat} {p : Plan} {pool : SlotPool}

/-- **A pair of streams takes a plan and holds it.** -/
theorem Compiled.tell_streams (hc : Compiled bits c credits p pool)
    (hfew : c.permanent + c.gates.length ≤ flaggedMax + 1) (w : StreamPair) :
    ∃ w', PlanSink.tell (c.leveledLevels credits) p w = .ok () w' ∧ w'.inputs = p.inputs ∧
      StreamPair.Holds c (c.leveledLevels credits) p w'.levelStream w'.addressStream := by
  obtain ⟨t, hturns, hwritten⟩ := hc.addressTurns_of_few hfew
  obtain ⟨bases, hread, hcounter⟩ := hc.levelsRead_of_few hfew
  obtain ⟨addressBytes, hencode, hdecode⟩ := AddressTurn.decode_levels hturns
  obtain ⟨levelBytes, hencode', hdecode'⟩ := LevelBases.decode_levels hread
  have hlevels := (StreamPair.levels_eq_ok_iff (w := StreamPair.ofInputs c.inputs) hc.length_levels).2
    ⟨_, _, hencode', hencode, rfl⟩
  refine ⟨_, PlanSink.tell_eq_ok_iff.2 ⟨_, by rw [hc.inputs]; exact hlevels, rfl⟩, hc.inputs.symm, ?_, ?_⟩
  · exact ⟨_, hdecode, rfl, hwritten⟩
  · exact ⟨_, hdecode', rfl, hcounter⟩

/-! ## Files -/

namespace Folder

theorem lookup_filter_ne (files : List (String × Bytes)) (name other : String) :
    (files.filter (·.1 ≠ name)).lookup other = if other = name then none else files.lookup other := by
  induction files with
  | nil => simp
  | cons file files ih =>
    obtain ⟨kept, bytes⟩ := file
    by_cases hkept : kept = name
    · subst hkept
      rw [List.filter_cons_of_neg (by simp), ih]
      by_cases hother : other = kept
      · rw [if_pos hother, if_pos hother]
      · have hne : (other == kept) = false := by simpa using hother
        rw [if_neg hother, if_neg hother, List.lookup_cons, hne]
    · rw [List.filter_cons_of_pos (by simpa using hkept), List.lookup_cons, List.lookup_cons, ih]
      by_cases hother : other = kept
      · subst hother
        simp [hkept]
      · have hne : (other == kept) = false := by simpa using hother
        rw [hne]

theorem create_eq_ok {f : Folder} {path name : String} (hname : f.nameOf path = some name) (bytes : Bytes) :
    ∃ f', create path bytes f = .ok () f' ∧ f'.nameOf = f.nameOf ∧ f'.get? path = some bytes ∧
      ∀ other, f.nameOf other ≠ some name → f'.get? other = f.get? other := by
  refine ⟨{ f with files := f.files.filter (·.1 ≠ name) ++ [(name, bytes)] }, ?_, rfl, ?_, fun other hother => ?_⟩
  · rw [create, hname]
  · simp only [get?, hname, Option.bind_some, List.lookup_append, lookup_filter_ne]
    simp
  · cases hnamed : f.nameOf other with
    | none => simp only [get?, hnamed, Option.bind_none]
    | some kept =>
      have hne : kept ≠ name := fun heq => hother (by rw [hnamed, heq])
      have hbeq : (kept == name) = false := by simpa using hne
      simp only [get?, hnamed, Option.bind_some, List.lookup_append, lookup_filter_ne, if_neg hne, List.lookup_cons,
        hbeq, List.lookup_nil, Option.or_none]

end Folder

namespace PlanFile

theorem written_of_writes {step : Writer Unit} {bytes : Bytes} (h : Writes step bytes) : written step = .ok bytes := by
  rw [written, h]
  simp

theorem codes_addressHeader {inputs slots : Nat} {outputs : List Nat} (hinputs : inputs ≤ plainMax)
    (hslots : slots ≤ plainMax) (hcount : outputs.length ≤ plainMax) (houtputs : ∀ a ∈ outputs, a < slots) :
    ∃ bytes, Writes (writeAddressHeader inputs slots outputs) bytes ∧
      Reads readAddressHeader bytes (inputs, slots, outputs) := by
  have houtput : ∀ a ∈ outputs, Codes (writePlain a) (readOutput slots) a := by
    intro a ha
    have hlt := houtputs a ha
    refine (codes_plain (by omega)).settle ?_
    rw [if_neg (by omega)]
  obtain ⟨bytes1, -, hwrite1, hread1⟩ := codes_plain hinputs
  obtain ⟨bytes2, -, hwrite2, hread2⟩ := codes_plain hslots
  obtain ⟨bytes3, -, hwrite3, hread3⟩ := codes_plain hcount
  obtain ⟨bytes4, hwrite4, hread4, -⟩ := codes_list houtput
  rw [List.map_id'] at hread4
  exact ⟨bytes1 ++ (bytes2 ++ (bytes3 ++ bytes4)), hwrite1.bind (hwrite2.bind (hwrite3.bind hwrite4)),
    hread1.bind (hread2.bind (hread3.bind (hread4.settle rfl)))⟩

theorem readAddresses_of_reads {header : Bytes} {inputs slots : Nat} {outputs : List Nat}
    (hheader : Reads readAddressHeader header (inputs, slots, outputs)) (stream : Bytes) :
    readAddresses (header ++ stream) = (do
      let levels ← (AddressDecoder.decode stream inputs).all
      if (AddressDecoder.decode stream inputs).state.written > slots then
        throw (.gatesBeyondScratch (AddressDecoder.decode stream inputs).state.written slots)
      return ⟨inputs, slots, levels, outputs⟩) := by
  have hread : readAddressHeader (Reader.ofBytes (header ++ stream)) =
      .ok (inputs, slots, outputs) ⟨stream, 0 + header.length⟩ := hheader stream 0
  rw [readAddresses, hread]

theorem readAddresses_eq_ok {p : Plan} {header stream : Bytes} {d : AddressDecoder}
    (hheader : Reads readAddressHeader header (p.inputs, p.slots, p.outputs))
    (hstream : AddressDecoder.decode stream p.inputs = ⟨p.levels, .ok (), d⟩) (hwritten : d.written ≤ p.slots) :
    readAddresses (header ++ stream) = .ok p := by
  rw [readAddresses_of_reads hheader, hstream]
  change (if d.written > p.slots then _ else Except.ok (Plan.mk p.inputs p.slots p.levels p.outputs)) = _
  rw [if_neg (by omega)]

theorem readLevels_of_reads {header : Bytes} {inputs : Nat} (hheader : Reads readPlain header inputs) (stream : Bytes) :
    readLevels (header ++ stream) = (LevelDecoder.decode stream inputs).all := by
  have hread : readPlain (Reader.ofBytes (header ++ stream)) = .ok inputs ⟨stream, 0 + header.length⟩ := hheader stream 0
  rw [readLevels, hread]

theorem readLevels_eq_ok {inputs : Nat} {header stream : Bytes} {levels : List LocatedLevel} {d : LevelDecoder}
    (hheader : Reads readPlain header inputs) (hstream : LevelDecoder.decode stream inputs = ⟨levels, .ok (), d⟩) :
    readLevels (header ++ stream) = .ok levels := by
  rw [readLevels_of_reads hheader, hstream]
  rfl

end PlanFile

namespace PlanFiles

/-- The two files of a plan can be created, and are not one. -/
def Apart (s : PlanFiles) : Prop :=
  ∃ name1 name2, s.folder.nameOf s.levelPath = some name1 ∧ s.folder.nameOf s.addressPath = some name2 ∧ name1 ≠ name2

theorem levels_eq_ok_iff {ls : List (LeveledLevel × AllocatedLevel)} {s s' : PlanFiles} :
    ls.forM (fun l => PlanSink.level l.1 l.2) s = .ok () s' ↔
      ∃ pair, ls.forM (fun l => PlanSink.level l.1 l.2) s.streams = .ok () pair ∧ s' = { s with streams := pair } := by
  induction ls generalizing s with
  | nil =>
    constructor
    · intro h
      cases h
      exact ⟨_, rfl, rfl⟩
    · intro ⟨pair, h, hs'⟩
      cases h
      rw [hs']
      rfl
  | cons l ls ih =>
    have hlevel : ∀ {s1}, PlanSink.level l.1 l.2 s = .ok () s1 ↔
        ∃ pair, StreamPair.level l.1 l.2 s.streams = .ok () pair ∧ s1 = { s with streams := pair } := by
      intro s1
      change onStreams (StreamPair.level l.1 l.2) s = _ ↔ _
      exact Action.within_eq_ok_iff
    rw [Action.forM_cons_eq_ok_iff]
    constructor
    · intro ⟨s1, hstep, hrest⟩
      obtain ⟨pair1, hpair1, rfl⟩ := hlevel.1 hstep
      obtain ⟨pair, hpair, rfl⟩ := ih.1 hrest
      exact ⟨pair, Action.forM_cons_eq_ok_iff.2 ⟨pair1, hpair1, hpair⟩, rfl⟩
    · intro ⟨pair, hpairs, hs'⟩
      obtain ⟨pair1, hpair1, hpair⟩ := Action.forM_cons_eq_ok_iff.1 hpairs
      exact ⟨_, hlevel.2 ⟨pair1, hpair1, rfl⟩, ih.2 ⟨pair, hpair, hs'⟩⟩

/-- Finishing writes both files, the level file first, each with its header. -/
theorem finish_eq_ok_iff {s s' : PlanFiles} {slots : Nat} {outputs : List Nat} :
    PlanSink.finish slots outputs s = .ok () s' ↔ ∃ header1 header2,
      PlanFile.written (PlanFile.writeLevelHeader s.streams.inputs) = .ok header1 ∧
      PlanFile.written (PlanFile.writeAddressHeader s.streams.inputs slots outputs) = .ok header2 ∧ ∃ f1 f2,
        Folder.create s.levelPath (header1 ++ s.streams.levelStream) s.folder = .ok () f1 ∧
        Folder.create s.addressPath (header2 ++ s.streams.addressStream) f1 = .ok () f2 ∧
        s' = { s with
          streams := { s.streams with slots := slots, outputs := outputs }
          folder := f2
          levelSize := (header1 ++ s.streams.levelStream).length
          addressSize := (header2 ++ s.streams.addressStream).length } := by
  change finish slots outputs s = _ ↔ _
  have hstreams : onStreams (StreamPair.finish slots outputs) s =
      .ok () { s with streams := { s.streams with slots := slots, outputs := outputs } } := rfl
  rw [finish, Action.bind_of_ok hstreams, Action.get_bind]
  constructor
  · intro h
    obtain ⟨header1, s1, hheader1, h1⟩ := Action.bind_eq_ok_iff.1 h
    obtain ⟨hwritten1, rfl⟩ := Action.ofExcept_eq_ok_iff.1 hheader1
    obtain ⟨_, s2, hcreate1, h2⟩ := Action.bind_eq_ok_iff.1 h1
    obtain ⟨f1, hf1, rfl⟩ := Action.within_eq_ok_iff.1 hcreate1
    obtain ⟨_, s3, hsize, h3⟩ := Action.bind_eq_ok_iff.1 h2
    cases hsize
    obtain ⟨header2, s4, hheader2, h4⟩ := Action.bind_eq_ok_iff.1 h3
    obtain ⟨hwritten2, rfl⟩ := Action.ofExcept_eq_ok_iff.1 hheader2
    obtain ⟨_, s5, hcreate2, h5⟩ := Action.bind_eq_ok_iff.1 h4
    obtain ⟨f2, hf2, rfl⟩ := Action.within_eq_ok_iff.1 hcreate2
    cases h5
    exact ⟨header1, header2, hwritten1, hwritten2, f1, f2, hf1, hf2, rfl⟩
  · intro ⟨header1, header2, hwritten1, hwritten2, f1, f2, hf1, hf2, hs'⟩
    rw [hs']
    refine Action.bind_eq_ok_iff.2 ⟨header1, _, Action.ofExcept_eq_ok_iff.2 ⟨hwritten1, rfl⟩, ?_⟩
    refine Action.bind_eq_ok_iff.2 ⟨(), _, Action.within_eq_ok_iff.2 ⟨f1, hf1, rfl⟩, ?_⟩
    refine Action.bind_eq_ok_iff.2 ⟨(), _, rfl, ?_⟩
    refine Action.bind_eq_ok_iff.2 ⟨header2, _, Action.ofExcept_eq_ok_iff.2 ⟨hwritten2, rfl⟩, ?_⟩
    exact Action.bind_eq_ok_iff.2 ⟨(), _, Action.within_eq_ok_iff.2 ⟨f2, hf2, rfl⟩, rfl⟩

/-- Two files that are not one can be written, and are there then. -/
theorem finish_eq_ok {s : PlanFiles} (hapart : s.Apart) {slots : Nat} {outputs : List Nat} {header1 header2 : Bytes}
    (hheader1 : PlanFile.written (PlanFile.writeLevelHeader s.streams.inputs) = .ok header1)
    (hheader2 : PlanFile.written (PlanFile.writeAddressHeader s.streams.inputs slots outputs) = .ok header2) :
    ∃ s', PlanSink.finish slots outputs s = .ok () s' ∧
      s'.folder.get? s.levelPath = some (header1 ++ s.streams.levelStream) ∧
        s'.folder.get? s.addressPath = some (header2 ++ s.streams.addressStream) := by
  obtain ⟨name1, name2, hname1, hname2, hne⟩ := hapart
  obtain ⟨f1, hcreate1, hnames, hfile1, -⟩ := Folder.create_eq_ok hname1 (header1 ++ s.streams.levelStream)
  rw [← hnames] at hname1 hname2
  obtain ⟨f2, hcreate2, -, hfile2, hothers⟩ := Folder.create_eq_ok hname2 (header2 ++ s.streams.addressStream)
  have hkept : f1.nameOf s.levelPath ≠ some name2 := by
    rw [hname1]
    exact fun h => hne (Option.some.inj h)
  rw [← hothers _ hkept] at hfile1
  exact ⟨_, finish_eq_ok_iff.2 ⟨header1, header2, hheader1, hheader2, f1, f2, hcreate1, hcreate2, rfl⟩, hfile1, hfile2⟩

end PlanFiles

namespace SlotPool

theorem Sound.outputs_lt {s : SlotPool} (h : s.Sound) {wires addresses : List Nat}
    (hok : wires.mapM s.addressOf = .ok addresses) : addresses.length = wires.length ∧ ∀ a ∈ addresses, a < s.peak := by
  induction wires generalizing addresses with
  | nil =>
    cases hok
    exact ⟨rfl, fun a ha => (by cases ha)⟩
  | cons w wires ih =>
    obtain ⟨a, rest, hw, hrest, rfl⟩ := Action.exceptMapM_cons_eq_ok_iff.1 hok
    obtain ⟨hlength, hall⟩ := ih hrest
    refine ⟨by rw [List.length_cons, List.length_cons, hlength], fun b hb => ?_⟩
    cases hb with
    | head => exact h.lt_peak_of_address hw
    | tail _ hb => exact hall b hb

end SlotPool

/-- **The files of a plan can be written, and read back.** -/
theorem Compiled.tell_files (hc : Compiled bits c credits p pool)
    (hfew : c.permanent + c.gates.length ≤ flaggedMax + 1) (hinputs : c.inputs ≤ plainMax)
    (houtputs : c.outputs.length ≤ plainMax) {w : PlanFiles} (hapart : w.Apart) :
    ∃ w' levelFile addressFile, PlanSink.tell (c.leveledLevels credits) p w = .ok () w' ∧
      w'.folder.get? w.levelPath = some levelFile ∧ w'.folder.get? w.addressPath = some addressFile ∧
        PlanFile.readAddresses addressFile = .ok p ∧
          PlanFile.readLevels levelFile = .ok ((c.leveledLevels credits).map Level.located) := by
  obtain ⟨pair, htell, hpair, hholds⟩ := hc.tell_streams hfew StreamPair.empty
  obtain ⟨pair1, hlevels, hfinish⟩ := PlanSink.tell_eq_ok_iff.1 htell
  cases hfinish
  have hmax : flaggedMax + 1 ≤ plainMax := by decide
  have hpeak := hc.peak_eq.trans_le (c.peakAfter_le credits c.height)
  have hsound := ((SlotPool.sound_initial hc.room).levelsAllocated hc.levels).1
  obtain ⟨hlength, hlt⟩ := hsound.outputs_lt hc.outputs
  rw [← hc.slots] at hpeak hlt
  obtain ⟨header1, -, hwrite1, hread1⟩ := codes_plain hinputs
  obtain ⟨header2, hwrite2, hread2⟩ :=
    PlanFile.codes_addressHeader hinputs (by omega : p.slots ≤ plainMax) (by omega : p.outputs.length ≤ plainMax) hlt
  have hpairs : pair1.inputs = c.inputs := hpair.trans hc.inputs
  obtain ⟨w', hfinished, hfile1, hfile2⟩ := PlanFiles.finish_eq_ok (s := { w with streams := pair1 }) hapart
    (PlanFile.written_of_writes (by dsimp only; rw [hpairs]; exact hwrite1))
    (PlanFile.written_of_writes (by dsimp only; rw [hpairs]; exact hwrite2))
  obtain ⟨d1, hdecode1, -, hwritten⟩ := hholds.addresses
  obtain ⟨d2, hdecode2, -, -⟩ := hholds.levels
  refine ⟨w', _, _, PlanSink.tell_eq_ok_iff.2 ⟨_, PlanFiles.levels_eq_ok_iff.2 ⟨_, hlevels, rfl⟩, hfinished⟩, hfile1, hfile2, ?_, ?_⟩
  · rw [← hc.inputs] at hread2 hdecode1
    exact PlanFile.readAddresses_eq_ok hread2 hdecode1 hwritten.le
  · exact PlanFile.readLevels_eq_ok hread1 hdecode2

/-- **What is written decodes to the plan.** A circuit that compiles into memory
compiles into two streams and into two files. The decoders take each stream to
its end and find the levels of the plan with all their slots, and the input
locations of the levels with all their wires; the files read back are the whole
plan and the same locations. The numbers of wires and outputs are bounded by
what a varint holds, and the two files have to be different files. -/
theorem written_plan_decodes {s : Compiler} {columns : Nat} {c : Circuit} {given : Option CreditTable}
    (hwires : constantWires + c.inputs + c.gates.length ≤ 2 ^ 61) (houtputs : c.outputs.length < 2 ^ 62)
    {memory : PlanRecord} (hok : (s.compileUsing columns c given memory).ending = .ok ()) :
    let plan := (s.compileUsing columns c given memory).sink.plan
    let located := (s.compileUsing columns c given memory).sink.leveled.toList.map Level.located
    (∀ streams : StreamPair,
      let r := s.compileUsing columns c given streams
      r.ending = .ok () ∧
        (∃ d, AddressDecoder.decode r.sink.addressStream c.inputs = ⟨plan.levels, .ok (), d⟩ ∧ d.input.rest = [] ∧
          d.written = plan.slots) ∧
        ∃ d, LevelDecoder.decode r.sink.levelStream c.inputs = ⟨located, .ok (), d⟩ ∧ d.input.rest = [] ∧
          d.bases.counter = c.wires) ∧
    ∀ files : PlanFiles, files.Apart →
      let r := s.compileUsing columns c given files
      r.ending = .ok () ∧
        (∃ file, r.sink.folder.get? files.addressPath = some file ∧ PlanFile.readAddresses file = .ok plan) ∧
        ∃ file, r.sink.folder.get? files.levelPath = some file ∧ PlanFile.readLevels file = .ok located := by
  intro plan located
  obtain ⟨credits, pool, hc, hleveled, hsinks⟩ := Compiler.compileUsing_record hok
  have hmax : (2 : Nat) ^ 61 = flaggedMax + 1 ∧ (2 : Nat) ^ 62 = plainMax + 1 ∧ flaggedMax + 1 < wordSize := by decide
  have hmax' : flaggedMax + 1 ≤ plainMax := by decide
  have hperm : c.permanent = constantWires + c.inputs := Circuit.permanent_eq (by omega)
  have hfew : c.permanent + c.gates.length ≤ flaggedMax + 1 := by omega
  have hlocated : located = (c.leveledLevels credits).map Level.located := congrArg (List.map Level.located) hleveled
  rw [hlocated]
  refine ⟨fun streams => ?_, fun files hapart => ?_⟩
  · obtain ⟨w', htell, -, hholds⟩ := hc.tell_streams hfew streams
    obtain ⟨hending, hsink⟩ := hsinks htell
    dsimp only
    rw [hsink]
    exact ⟨hending, hholds.addresses, hholds.levels⟩
  · obtain ⟨w', file1, file2, htell, hfile1, hfile2, hread1, hread2⟩ :=
      hc.tell_files hfew (by omega) (by omega) hapart
    obtain ⟨hending, hsink⟩ := hsinks htell
    dsimp only
    rw [hsink]
    exact ⟨hending, ⟨file2, hfile2, hread1⟩, ⟨file1, hfile1, hread2⟩⟩

theorem full_adder_written_plan_decodes :
    let table : CreditTable := Array.replicate 10 0
    let memory := (Compiler.default.compileUsing 0 fullAdder (some table) PlanRecord.empty).sink
    let files := PlanFiles.ofPaths "adder.lvl" "adder.addr" Folder.anywhere
    let folder := (Compiler.default.compileUsing 0 fullAdder (some table) files).sink.folder
    (∃ file, folder.get? "adder.addr" = some file ∧ PlanFile.readAddresses file = .ok memory.plan) ∧
      ∃ file, folder.get? "adder.lvl" = some file ∧
        PlanFile.readLevels file = .ok (memory.leveled.toList.map Level.located) := by
  have hok : (Compiler.default.compileUsing 0 fullAdder (some (Array.replicate 10 0)) PlanRecord.empty).ending =
      .ok () := by decide +kernel
  have hapart : (PlanFiles.ofPaths "adder.lvl" "adder.addr" Folder.anywhere).Apart :=
    ⟨_, _, rfl, rfl, by decide +kernel⟩
  exact ((written_plan_decodes (by decide) (by decide) hok).2 _ hapart).2

end GatePlan
