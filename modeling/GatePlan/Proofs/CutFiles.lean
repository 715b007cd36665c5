/-
Files that are cut off. The two files of a plan have a header and behind it one
record for every level (`CutFile`). Since their streams were written, the levels
can be read from them, however many wires there are (`Compiled.addressTurns`,
`Compiled.levelsRead`); and since readers take their bytes whole, what is left of
a file is read as the levels whose records are there, when the cut lies between
two records, and found to miss bytes anywhere else (`CutFile.ReadsUpTo`).
-/
import GatePlan.Proofs.CutBytes
import GatePlan.Proofs.LastReads
import GatePlan.Proofs.PlanStreams

namespace GatePlan

open Varint

/-! ## Files and their cuts -/

/-- A file with a header and one record for every level. -/
structure CutFile where
  header : Bytes
  records : List Bytes

namespace CutFile

def whole (f : CutFile) : Bytes := f.header ++ f.records.flatten

/-- What is left of the file when it is cut behind so many records. -/
def upTo (f : CutFile) (count : Nat) : Bytes := f.header ++ (f.records.take count).flatten

/-- The header is what one writer appends to nothing, and the records what one encoder
appends for the levels, one after the other. -/
structure Encodes {ε β : Type} (f : CutFile) (header : Writer Unit) (encode : β → Action ε Unit) (start : ε)
    (out : ε → Buffer) (ls : List β) : Prop where
  header : PlanFile.written header = .ok f.header
  count : f.records.length = ls.length
  nonempty : f.header ≠ [] ∧ ∀ record ∈ f.records, record ≠ []
  records : ∀ k, ∃ e, (ls.take k).forM encode start = .ok () e ∧ (out e).toList = (f.records.take k).flatten

theorem Encodes.whole_eq {ε β : Type} {f : CutFile} {header : Writer Unit} {encode : β → Action ε Unit} {start e : ε}
    {out : ε → Buffer} {ls : List β} (h : f.Encodes header encode start out ls)
    (hencode : ls.forM encode start = .ok () e) : f.whole = f.header ++ (out e).toList := by
  obtain ⟨e', hencode', hout⟩ := h.records ls.length
  rw [List.take_length] at hencode'
  rw [← h.count, List.take_length] at hout
  cases hencode'.symm.trans hencode
  rw [whole, hout]

/-- What is left of the file is read: cut behind a number of records, as the answer up
to there, and cut anywhere else, as bytes that are missing. -/
structure ReadsUpTo {β : Type} (f : CutFile) (read : Bytes → Except Fault β) (answer : Nat → β) : Prop where
  between : ∀ k, read (f.upTo k) = .ok (answer k)
  inside : ∀ cut missing, f.whole = cut ++ missing → (∀ k, cut ≠ f.upTo k) →
    ∃ fault, read cut = .error fault ∧ fault.kind = .truncated

/-- A file is read up to where it is cut when its header and its records are, and the
answer is made of the levels that are drawn. -/
theorem readsUpTo_of_recorded {κ ε δ α β η γ : Type} {Rel : κ → β → α → κ → Prop} {write : β → Action ε Unit}
    {next : Action δ (Option α)} {enc : κ → Buffer → ε} {dec : κ → Reader → δ} {k k' : κ} {ls : List β} {as : List α}
    {f : CutFile} {readHeader : Action Reader η} {h : η} {decode : Bytes → Drawn δ α} {read : Bytes → Except Fault γ}
    {answer : Nat → γ} (hheader : Reads readHeader f.header h) (hwhole : TakesWhole readHeader)
    (hrecords : Recorded Rel write next enc dec k ls as k' f.records)
    (hdecode : ∀ stream, Drawn.From next (dec k (Reader.ofBytes stream)) (decode stream))
    (hfails : ∀ {file fault r}, readHeader (Reader.ofBytes file) = .error fault r → read file = .error fault)
    (hends : ∀ {i stream t r}, Along Rel t (ls.drop i) (as.drop i) k' → decode stream = ⟨as.take i, .ok (), dec t r⟩ →
      read (f.header ++ stream) = .ok (answer i))
    (hmisses : ∀ {i stream fault s}, decode stream = ⟨as.take i, .error fault, s⟩ →
      read (f.header ++ stream) = .error fault) : f.ReadsUpTo read answer where
  between i := by
    obtain ⟨t, hafter, -, hdrawn⟩ := hrecords.upTo i
    exact hends hafter ((hdecode _).unique (hdrawn 0))
  inside cut missing hcut hnot := by
    rcases List.append_eq_append_iff.1 hcut with ⟨stream, rfl, hstream⟩ | ⟨lost, hlost, -⟩
    · -- the cut lies behind the header
      obtain ⟨i, fault, s, hdrawn, hkind⟩ :=
        hrecords.misses stream missing hstream (fun i hi => hnot i (congrArg (f.header ++ ·) hi)) 0
      exact ⟨fault, hmisses ((hdecode _).unique hdrawn), hkind⟩
    · have hne : lost ≠ [] := by
        rintro rfl
        exact hnot 0 (by simpa [upTo] using hlost.symm)
      obtain ⟨fault, r, hfault, hkind⟩ := hheader.misses hwhole hlost hne 0
      exact ⟨fault, hfails hfault, hkind⟩

theorem encodes_of_recorded {κ ε δ α β : Type} {Rel : κ → β → α → κ → Prop} {write : β → Action ε Unit}
    {next : Action δ (Option α)} {enc : κ → Buffer → ε} {dec : κ → Reader → δ} {k k' : κ} {ls : List β} {as : List α}
    {f : CutFile} {header : Writer Unit} {start : ε} {out : ε → Buffer} (hheader : PlanFile.written header = .ok f.header)
    (hne : f.header ≠ []) (hrecords : Recorded Rel write next enc dec k ls as k' f.records) (hstart : enc k #[] = start)
    (hout : ∀ k bytes, out (enc k bytes) = bytes) : f.Encodes header write start out ls where
  header := hheader
  count := hrecords.count
  nonempty := ⟨hne, hrecords.nonempty⟩
  records i := by
    obtain ⟨k1, -, hwrites, -⟩ := hrecords.upTo i
    exact ⟨_, hstart ▸ hwrites #[], by simp [hout]⟩

end CutFile

/-! ## Headers -/

namespace PlanFile

theorem takesWhole_readAddressHeader : TakesWhole readAddressHeader := by
  have houtput : ∀ slots, TakesWhole (readOutput slots) :=
    fun slots => takesWhole_readPlain.bind fun _ => .unlessRefused (.pure _)
  refine takesWhole_readPlain.bind fun _ => takesWhole_readPlain.bind fun slots => takesWhole_readPlain.bind fun _ => ?_
  exact ((houtput slots).times _).bind fun _ => .pure _

theorem written_eq_ok_iff {step : Writer Unit} {bytes : Bytes} :
    written step = .ok bytes ↔ ∃ out, step #[] = .ok () out ∧ out.toList = bytes := by
  unfold written
  cases step #[] <;> simp

theorem reads_levelHeader {inputs : Nat} {header : Bytes} (h : written (writeLevelHeader inputs) = .ok header) :
    Reads readPlain header inputs := by
  obtain ⟨out, hwrite, -⟩ := written_eq_ok_iff.1 h
  have hinputs := le_of_writePlain hwrite
  cases h.symm.trans (written_of_writes (writes_plain hinputs))
  exact reads_plain hinputs

theorem reads_addressHeader {inputs slots : Nat} {outputs : List Nat} {header : Bytes}
    (h : written (writeAddressHeader inputs slots outputs) = .ok header) (houtputs : ∀ a ∈ outputs, a < slots) :
    slots ≤ plainMax ∧ Reads readAddressHeader header (inputs, slots, outputs) := by
  obtain ⟨out, hwrite, -⟩ := written_eq_ok_iff.1 h
  obtain ⟨_, _, hinputs, hwrite1⟩ := Action.bind_eq_ok_iff.1 hwrite
  obtain ⟨_, _, hslots, hwrite2⟩ := Action.bind_eq_ok_iff.1 hwrite1
  obtain ⟨_, _, hcount, -⟩ := Action.bind_eq_ok_iff.1 hwrite2
  obtain ⟨bytes, hwrites, hreads⟩ :=
    codes_addressHeader (le_of_writePlain hinputs) (le_of_writePlain hslots) (le_of_writePlain hcount) houtputs
  cases h.symm.trans (written_of_writes hwrites)
  exact ⟨le_of_writePlain hslots, hreads⟩

end PlanFile

/-! ## Address files and level files -/

namespace CutFile

/-- The records of an address stream are read up to where they are cut, and no more
slots than all of them write. -/
theorem readsUpTo_addresses {f : CutFile} {p : Plan} {t : AddressTurn}
    (hheader : Reads PlanFile.readAddressHeader f.header (p.inputs, p.slots, p.outputs))
    (hrecords : Recorded AddressTurn.Level AddressEncoder.encode AddressDecoder.next AddressTurn.encoder
      AddressTurn.decoder (.start p.inputs) p.levels p.levels t f.records) (hslots : t.written ≤ p.slots) :
    f.ReadsUpTo PlanFile.readAddresses fun k => { p with levels := p.levels.take k } := by
  refine readsUpTo_of_recorded hheader PlanFile.takesWhole_readAddressHeader hrecords
    (fun stream => (AddressDecoder.decode_ends stream _).drawn) (fun h => ?fails) (fun {i _ t r} hafter hends => ?ends)
    fun hmisses => ?misses
  case fails =>
    rw [PlanFile.readAddresses, h]
    rfl
  case ends =>
    have hwritten : t.written ≤ _ := hafter.le (f := AddressTurn.written) AddressTurn.Level.written_le
    exact PlanFile.readAddresses_eq_ok (p := { p with levels := p.levels.take i }) hheader hends (hwritten.trans hslots)
  case misses =>
    rw [PlanFile.readAddresses_of_reads hheader, hmisses]
    rfl

theorem readsUpTo_levels {f : CutFile} {inputs : Nat} {ls : List LeveledLevel} {als : List LocatedLevel}
    {t : LevelBases} (hheader : Reads readPlain f.header inputs)
    (hrecords : Recorded LevelBases.Takes LevelEncoder.encode LevelDecoder.next LevelBases.encoder LevelBases.decoder
      (.ofInputs inputs) ls als t f.records) : f.ReadsUpTo PlanFile.readLevels als.take := by
  refine readsUpTo_of_recorded hheader takesWhole_readPlain hrecords
    (fun stream => (LevelDecoder.decode_ends stream _).drawn) (fun h => ?fails)
    (fun _ hends => PlanFile.readLevels_eq_ok hheader hends) fun hmisses => ?misses
  case fails =>
    rw [PlanFile.readLevels, h]
    rfl
  case misses =>
    rw [PlanFile.readLevels_of_reads hheader, hmisses]
    rfl

end CutFile

/-! ## Compilations -/

/-- What is told to two files, taken apart: both streams are encoded, and both files
created, each with its header. -/
theorem PlanFiles.of_tell {leveled : List LeveledLevel} {p : Plan} (hlength : p.levels.length = leveled.length)
    {s s' : PlanFiles} (h : PlanSink.tell leveled p s = .ok () s') :
    ∃ e a header1 header2, leveled.forM LevelEncoder.encode LevelEncoder.start = .ok () e ∧
      p.levels.forM AddressEncoder.encode (AddressEncoder.ofInputs p.inputs) = .ok () a ∧
      PlanFile.written (PlanFile.writeLevelHeader p.inputs) = .ok header1 ∧
      PlanFile.written (PlanFile.writeAddressHeader p.inputs p.slots p.outputs) = .ok header2 ∧
      ∃ folder, Folder.create s.levelPath (header1 ++ e.out.toList) s.folder = .ok () folder ∧
        Folder.create s.addressPath (header2 ++ a.out.toList) folder = .ok () s'.folder := by
  obtain ⟨s1, hlevels, hfinish⟩ := PlanSink.tell_eq_ok_iff.1 h
  obtain ⟨pair, hpair, rfl⟩ := PlanFiles.levels_eq_ok_iff.1 hlevels
  obtain ⟨e, a, hencode1, hencode2, rfl⟩ := (StreamPair.levels_eq_ok_iff hlength).1 hpair
  obtain ⟨header1, header2, hheader1, hheader2, f1, f2, hcreate1, hcreate2, rfl⟩ := PlanFiles.finish_eq_ok_iff.1 hfinish
  exact ⟨e, a, header1, header2, hencode1, hencode2, hheader1, hheader2, f1, hcreate1, hcreate2⟩

variable {bits : Nat} {c : Circuit} {credits : Nat → Nat} {p : Plan} {pool : SlotPool} {header : Bytes}

theorem Compiled.cut_levelFile (hc : Compiled bits c credits p pool) (hroom : c.permanent + c.gates.length < wordSize)
    {e : LevelEncoder} (hencode : (c.leveledLevels credits).forM LevelEncoder.encode LevelEncoder.start = .ok () e)
    (hheader : PlanFile.written (PlanFile.writeLevelHeader p.inputs) = .ok header) :
    ∃ f : CutFile, f.Encodes (PlanFile.writeLevelHeader p.inputs) LevelEncoder.encode LevelEncoder.start LevelEncoder.out
        (c.leveledLevels credits) ∧
      f.header = header ∧ f.ReadsUpTo PlanFile.readLevels ((c.leveledLevels credits).map Level.located).take := by
  have hreads := PlanFile.reads_levelHeader hheader
  obtain ⟨t, halong, -⟩ := hc.levelsRead (LevelEncoder.encode_levels_eq_ok_iff.1 ⟨e, hencode⟩) hroom
  rw [← hc.inputs] at halong
  obtain ⟨records, hrecords⟩ := halong.recorded LevelBases.Takes.steps LevelDecoder.readsWhole_next
    (fun _ => ⟨fun _ => rfl, fun _ _ => rfl⟩) fun _ _ => rfl
  refine ⟨⟨header, records⟩, ?_, rfl, CutFile.readsUpTo_levels hreads hrecords⟩
  exact CutFile.encodes_of_recorded hheader (hreads.ne_nil takesAtLeast_readPlain) hrecords rfl fun _ _ => rfl

theorem Compiled.cut_addressFile (hc : Compiled bits c credits p pool) {e : AddressEncoder}
    (hencode : p.levels.forM AddressEncoder.encode (AddressEncoder.ofInputs p.inputs) = .ok () e)
    (hheader : PlanFile.written (PlanFile.writeAddressHeader p.inputs p.slots p.outputs) = .ok header) :
    ∃ f : CutFile, f.Encodes (PlanFile.writeAddressHeader p.inputs p.slots p.outputs) AddressEncoder.encode
        (AddressEncoder.ofInputs p.inputs) AddressEncoder.out p.levels ∧
      f.header = header ∧ f.ReadsUpTo PlanFile.readAddresses fun k => { p with levels := p.levels.take k } := by
  have hsound := ((SlotPool.sound_initial hc.room).levelsAllocated hc.levels).1
  obtain ⟨-, houtputs⟩ := hsound.outputs_lt hc.outputs
  rw [← hc.slots] at houtputs
  obtain ⟨hslots, hreads⟩ := PlanFile.reads_addressHeader hheader houtputs
  obtain ⟨hcounts, hforms⟩ := AddressEncoder.formsFrom_of_encode hencode
  rw [AddressEncoder.ofInputs, hc.inputs] at hforms
  obtain ⟨t, halong, hwritten⟩ := hc.addressTurns hcounts hforms (hslots.trans_lt (by decide))
  rw [← hc.inputs] at halong
  obtain ⟨records, hrecords⟩ := halong.recorded AddressTurn.Level.steps AddressDecoder.readsWhole_next
    (fun _ => ⟨fun _ => rfl, fun _ _ => rfl⟩) fun _ _ => rfl
  refine ⟨⟨header, records⟩, ?_, rfl, CutFile.readsUpTo_addresses hreads hrecords hwritten.le⟩
  exact CutFile.encodes_of_recorded hheader (hreads.ne_nil PlanFile.takesAtLeast_readAddressHeader) hrecords rfl fun _ _ => rfl

/-- **A file that is cut off is not misread.** Of a compilation that comes to its end
into two files, each of them is a header and one record for every level, and what
is left of it when it is cut is read as follows. Behind the header and any number of
records, the same plan with as many levels comes back, or the locations of as many
levels. Anywhere else, in the header or in a record, bytes are missing: nothing is
read, and nothing is refused as malformed. -/
theorem cut_files_are_read_up_to_the_cut {s : Compiler} {columns : Nat} {c : Circuit} {given : Option CreditTable}
    {files : PlanFiles} (hok : (s.compileUsing columns c given files).ending = .ok ()) :
    let memory := s.compileUsing columns c given PlanRecord.empty
    let plan := memory.sink.plan
    let leveled := memory.sink.leveled.toList
    memory.ending = .ok () ∧ ∃ levelFile addressFile : CutFile,
      levelFile.Encodes (PlanFile.writeLevelHeader plan.inputs) LevelEncoder.encode LevelEncoder.start LevelEncoder.out
        leveled ∧
      addressFile.Encodes (PlanFile.writeAddressHeader plan.inputs plan.slots plan.outputs) AddressEncoder.encode
        (AddressEncoder.ofInputs plan.inputs) AddressEncoder.out plan.levels ∧
      (∃ folder, Folder.create files.levelPath levelFile.whole files.folder = .ok () folder ∧
        Folder.create files.addressPath addressFile.whole folder =
          .ok () (s.compileUsing columns c given files).sink.folder) ∧
      levelFile.ReadsUpTo PlanFile.readLevels (leveled.map Level.located).take ∧
      addressFile.ReadsUpTo PlanFile.readAddresses fun k => { plan with levels := plan.levels.take k } := by
  intro memory plan leveled
  obtain ⟨table, huses, p, pool, hc, htell⟩ := Compiler.compileUsing_eq_ok_iff.1 ⟨hok, rfl⟩
  have hmemory : memory.ending = .ok () ∧ memory.sink = _ := Compiler.compileUsing_eq_ok_iff.2
    ⟨table, huses, p, pool, hc, PlanRecord.tell_eq hc.length_levels PlanRecord.empty⟩
  obtain ⟨hending, hsink⟩ := hmemory
  have hplan : plan = p := congrArg PlanRecord.plan hsink
  have hleveled : leveled = c.leveledLevels (table.getD · 0) := congrArg (fun r => r.leveled.toList) hsink
  obtain ⟨e, a, header1, header2, hencode1, hencode2, hheader1, hheader2, folder, hcreate1, hcreate2⟩ :=
    PlanFiles.of_tell hc.length_levels htell
  obtain ⟨levelFile, hencodes1, rfl, hreads1⟩ := hc.cut_levelFile (Compiled.room_of_uses huses hc) hencode1 hheader1
  obtain ⟨addressFile, hencodes2, rfl, hreads2⟩ := hc.cut_addressFile hencode2 hheader2
  rw [← hencodes1.whole_eq hencode1] at hcreate1
  rw [← hencodes2.whole_eq hencode2] at hcreate2
  rw [hplan, hleveled]
  exact ⟨hending, levelFile, addressFile, hencodes1, hencodes2, ⟨folder, hcreate1, hcreate2⟩, hreads1, hreads2⟩

/-- The full adder has three levels. Of its address file the first two records are read
as the plan with two levels. -/
theorem full_adder_file_is_cut :
    let files := PlanFiles.ofPaths "adder.lvl" "adder.addr" Folder.anywhere
    let compilation := Compiler.default.compileUsing 0 fullAdder none files
    let plan := (Compiler.default.compileUsing 0 fullAdder none PlanRecord.empty).sink.plan
    compilation.ending = .ok () ∧ ∃ f : CutFile, compilation.sink.folder.get? "adder.addr" = some f.whole ∧
      f.records.length = 3 ∧ PlanFile.readAddresses (f.upTo 2) = .ok { plan with levels := plan.levels.take 2 } ∧
      ∀ cut missing, f.whole = cut ++ missing → (∀ k, cut ≠ f.upTo k) →
        ∃ fault, PlanFile.readAddresses cut = .error fault ∧ fault.kind = .truncated := by
  intro files compilation plan
  have hok : compilation.ending = .ok () := by decide +kernel
  obtain ⟨-, levelFile, f, -, hencodes, ⟨folder, hcreate1, hcreate2⟩, -, hreads⟩ := cut_files_are_read_up_to_the_cut hok
  have hlevels : plan.levels.length = 3 := by decide +kernel
  have hlevelName : files.folder.nameOf "adder.lvl" = some "adder.lvl" := by decide +kernel
  have haddressName : files.folder.nameOf "adder.addr" = some "adder.addr" := by decide +kernel
  obtain ⟨folder1, hcreate, hnames, -, -⟩ := Folder.create_eq_ok hlevelName levelFile.whole
  rw [← (EStateM.Result.ok.inj (hcreate1.symm.trans hcreate)).2] at hnames
  obtain ⟨folder2, hcreate', -, hfile, -⟩ :=
    Folder.create_eq_ok ((congrFun hnames "adder.addr").trans haddressName) f.whole
  rw [← (EStateM.Result.ok.inj (hcreate2.symm.trans hcreate')).2] at hfile
  exact ⟨hok, f, hfile, hencodes.count.trans hlevels, hreads.between 2, hreads.inside⟩

end GatePlan
