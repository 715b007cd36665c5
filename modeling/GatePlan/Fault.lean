/-
What can go wrong while a circuit is compiled, encoded, decoded or run. A
`Fault` names the cause and carries the values that were at fault; `kind`
sorts the causes the way a caller tells them apart, and `message` words each
one. A message is handed on as a terminated text, so one that quotes a key or a
value with a NUL in it ends there.
-/
import GatePlan.Terminated

namespace GatePlan

/-- How a caller tells faults apart: a circuit that is ill-formed, credits or
addresses that do not add up, a width that is too small, bytes that do not
decode, an object used out of order, a setting that is missing or unusable, a key
of settings that the parser cannot take as a text. -/
inductive FaultKind where
  | forwardReference
  | invalidCircuit
  | creditUnderflow
  | creditOverflow
  | unknownWire
  | doubleFree
  | accounting
  | addressOverflow
  | varintOverflow
  | capacity
  | truncated
  | malformed
  | state
  | settingMissing
  | settingUnusable
  | settings
  | keyUnreadable
  | outOfRange
  | fileUnavailable
  | workers
  deriving DecidableEq, Repr, Inhabited

/-- Faults that lie in the settings, not in the circuit or its plan. -/
def FaultKind.isSettings : FaultKind → Bool
  | .settingMissing | .settingUnusable | .settings => true
  | _ => false

/-- The cause of a failure. -/
inductive Fault where
  -- circuits and credits
  | gateReadsAhead (gate output input1 input2 : Nat)
  | outputNotProduced (wire wires : Nat)
  | tooManyReaders (wire gate : Nat)
  | creditTableSize (entries wires : Nat)
  | creditsDiffer (wire credits readers : Nat)
  | adderWithoutBits
  | treeWithoutInputs
  | parityWithoutInputs
  -- leveling
  | levelingClosed
  | levelingOpen
  | creditsTooLarge (wire credits : Nat)
  | readsUnproduced (output input : Nat)
  | creditsSpent (output input : Nat)
  -- scratch slots
  | addressWidth
  | addressWidthSetting (bits : Int)
  | permanentTooLate
  | permanentTooMany (count bits : Nat)
  | slotsExhausted (slots bits : Nat)
  | wireHasSlot (wire : Nat)
  | wireWithoutSlot (wire : Nat)
  | slotPermanent (address : Nat)
  | slotNotInUse (address : Nat)
  -- byte codes
  | plainTooLarge (value : Nat)
  | flaggedTooLarge (value : Nat)
  | bytesMissing (needed offset left : Nat)
  | varintNotShortest (offset bytes value : Nat)
  | distanceTooLarge (distance counter : Nat)
  | locationAhead (current level index : Nat)
  | levelZeroReads
  | markerMissing (value : Nat)
  | levelDistance (distance current : Nat)
  | levelNotBelow (current level : Nat)
  | zeroAndCount
  | locationUnknown (level index known : Nat)
  -- streams and files
  | levelWithoutGates (level : Nat)
  | emptyLevelGiven (level : Nat)
  | levelOutOfOrder (expected level : Nat)
  | addressUnwritten (address written : Nat)
  | addressSkips (address next : Nat)
  | outputBeyondScratch (address slots : Nat)
  | gatesBeyondScratch (addresses slots : Nat)
  | fileUnavailable
  -- running a plan
  | scratchTooSmall (slots inputs : Nat)
  | inputCount (expected given : Nat)
  | gateBeyondScratch (input1 input2 output slots : Nat)
  | noWorkers
  | indexOutOfRange
  -- settings
  | threadsNotPositive
  | settingEmpty (path : String)
  | settingSequence (path : String)
  | settingRepeated (path key : String)
  | settingIsMap (path : String)
  | settingNotMap (path : String)
  | settingNotInteger (path text : String)
  | settingTrailing (path text : String)
  | settingNotBoolean (path text : String)
  | settingAbsent (path key : String)
  | settingsUnreadable (file : String)
  | keyUnreadable (complaint : String)
  deriving DecidableEq, Repr, Inhabited

/-- The kind of failure a cause counts as. -/
def Fault.kind : Fault → FaultKind
  | .gateReadsAhead .. | .readsUnproduced .. | .locationAhead .. => .forwardReference
  | .outputNotProduced .. | .creditTableSize .. | .creditsDiffer .. => .invalidCircuit
  | .adderWithoutBits | .treeWithoutInputs | .parityWithoutInputs => .invalidCircuit
  | .tooManyReaders .. | .creditsTooLarge .. => .creditOverflow
  | .creditsSpent .. => .creditUnderflow
  | .addressWidth | .addressWidthSetting .. => .capacity
  | .permanentTooMany .. | .slotsExhausted .. => .addressOverflow
  | .wireHasSlot .. | .slotPermanent .. => .accounting
  | .wireWithoutSlot .. => .unknownWire
  | .slotNotInUse .. => .doubleFree
  | .plainTooLarge .. | .flaggedTooLarge .. => .varintOverflow
  | .bytesMissing .. => .truncated
  | .varintNotShortest .. | .distanceTooLarge .. | .levelZeroReads | .markerMissing .. => .malformed
  | .levelDistance .. | .levelNotBelow .. | .zeroAndCount | .locationUnknown .. => .malformed
  | .levelWithoutGates .. | .addressUnwritten .. | .addressSkips .. => .malformed
  | .outputBeyondScratch .. | .gatesBeyondScratch .. => .malformed
  | .levelingClosed | .levelingOpen | .permanentTooLate => .state
  | .emptyLevelGiven .. | .levelOutOfOrder .. => .state
  | .scratchTooSmall .. | .inputCount .. | .gateBeyondScratch .. => .state
  | .noWorkers => .workers
  | .indexOutOfRange => .outOfRange
  | .fileUnavailable => .fileUnavailable
  | .settingAbsent .. => .settingMissing
  | .threadsNotPositive | .settingEmpty .. | .settingSequence .. | .settingIsMap .. => .settingUnusable
  | .settingNotMap .. | .settingNotInteger .. | .settingTrailing .. => .settingUnusable
  | .settingNotBoolean .. => .settingUnusable
  | .settingRepeated .. | .settingsUnreadable .. => .settings
  | .keyUnreadable .. => .keyUnreadable

/-- The whole wording of a cause. -/
def Fault.wording : Fault → String
  | .gateReadsAhead gate output input1 input2 =>
    s!"Gate {gate} (output wire {output}) reads wires {input1} and {input2}"
  | .outputNotProduced wire wires =>
    s!"Output wire {wire} is never produced (circuit has {wires} wires)"
  | .tooManyReaders wire gate =>
    s!"Wire {wire} has more than 16777214 consumers (at gate {gate})"
  | .creditTableSize entries wires =>
    s!"Credit table has {entries} entries but the circuit has {wires} wires"
  | .creditsDiffer wire credits readers =>
    s!"Wire {wire} has {credits} credits but {readers} consumers"
  | .adderWithoutBits => "An adder needs at least one bit"
  | .treeWithoutInputs => "An AND tree needs at least one input"
  | .parityWithoutInputs => "A parity chain needs at least one input"
  | .levelingClosed => "Cannot add a gate after the leveler is finished"
  | .levelingOpen => "Levels can only be taken after the leveler is finished"
  | .creditsTooLarge wire credits =>
    s!"Wire {wire} was given {credits} credits; gate outputs may have at most 16777214"
  | .readsUnproduced output input =>
    s!"Gate producing wire {output} reads wire {input}, which has not been produced"
  | .creditsSpent output input =>
    s!"Gate producing wire {output} reads wire {input}, which has no credits left"
  | .addressWidth => "Address width must be between 1 and 62 bits"
  | .addressWidthSetting bits => s!"Address width must be between 1 and 62 bits, not {bits}"
  | .permanentTooLate => "Permanent wires must be allocated before any gate output"
  | .permanentTooMany count bits =>
    s!"{count} permanent wires do not fit in {bits}-bit addresses"
  | .slotsExhausted slots bits =>
    s!"All {slots} addresses of a {bits}-bit scratch space are live"
  | .wireHasSlot wire => s!"Wire {wire} already holds an address"
  | .wireWithoutSlot wire => s!"Wire {wire} does not hold an address"
  | .slotPermanent address => s!"Address {address} belongs to a permanent wire"
  | .slotNotInUse address => s!"Address {address} is freed but not in use"
  | .plainTooLarge value => s!"Value {value} does not fit in a plain varint"
  | .flaggedTooLarge value => s!"Value {value} does not fit in a flagged varint"
  | .bytesMissing needed offset left =>
    s!"Need {needed} bytes at offset {offset} but the section has only {left} left"
  | .varintNotShortest offset bytes value =>
    s!"Varint at offset {offset} uses {bytes} bytes for value {value}"
  | .distanceTooLarge distance counter =>
    s!"Relative reference {distance} from counter {counter} points before the first wire"
  | .locationAhead current level index =>
    s!"Gate in level {current} reads wire at level {level}, index {index}"
  | .levelZeroReads => "Level 0 has no gates that could reference other wires"
  | .markerMissing value => s!"Expected other-level marker but found value {value}"
  | .levelDistance distance current =>
    s!"Invalid backward level distance {distance} from level {current}"
  | .levelNotBelow current level => s!"Gate in level {current} references level {level}"
  | .zeroAndCount => "Level header announces AND gates but holds a count of zero"
  | .locationUnknown level index known =>
    s!"Location ({level}, {index}) is outside the {known} known levels"
  | .levelWithoutGates level | .emptyLevelGiven level => s!"Level {level} has no gates"
  | .levelOutOfOrder expected level => s!"Expected level {expected} but got level {level}"
  | .addressUnwritten address written =>
    s!"Gate reads address {address} but only {written} addresses have been written"
  | .addressSkips address next =>
    s!"Gate writes address {address}, skipping past the next fresh address {next}"
  | .outputBeyondScratch address slots =>
    s!"Output address {address} is outside a scratch space of {slots} slots"
  | .gatesBeyondScratch addresses slots =>
    s!"Gates use {addresses} addresses but the scratch space has {slots} slots"
  | .fileUnavailable => "basic_ios::clear: iostream error"
  | .scratchTooSmall slots inputs =>
    s!"Scratch space of {slots} slots cannot hold {inputs} primary inputs"
  | .inputCount expected given => s!"Expected {expected} primary inputs but got {given}"
  | .gateBeyondScratch input1 input2 output slots =>
    s!"Gate ({input1}, {input2}) -> {output} is outside a scratch space of {slots} slots"
  | .noWorkers => "A level cannot be shared among no workers"
  | .indexOutOfRange => "Index out of range"
  | .threadsNotPositive => "Field threads: must be positive"
  | .settingEmpty path => s!"Field {path}: has no value"
  | .settingSequence path => s!"Field {path}: must be a scalar or a map"
  | .settingRepeated path key => s!"In {path}/: duplicate key \"{key}\""
  | .settingIsMap path => s!"Field {path}: accessed as a scalar, but is a map"
  | .settingNotMap path => s!"Field {path}: accessed as a map, but is not a map"
  | .settingNotInteger path text => s!"Field {path}: could not be parsed as an int ({text})"
  | .settingTrailing path text => s!"Field {path}: has trailing characters after an int ({text})"
  | .settingNotBoolean path text => s!"Field {path}: could not be parsed as a bool ({text})"
  | .settingAbsent path key => s!"In {path}: key \"{key}\" expected but does not exist"
  | .settingsUnreadable file => s!"{file}: bad file: {file}"
  | .keyUnreadable complaint => complaint

/-- What is said about a cause: its wording up to the first NUL. -/
def Fault.message (fault : Fault) : String := beforeNul fault.wording

end GatePlan
