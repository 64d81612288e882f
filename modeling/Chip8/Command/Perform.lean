import Chip8.Assembly
import Chip8.Command.Basic
import Chip8.Listing
import Chip8.Machine.Report
import Chip8.Machine.Session
import Chip8.Text.Lines

/-!
What a command does. Each reads one file whole and may write another at its end, so all between
is a function from the contents to a result. `carryOut` performs a command on a tree of files.
-/

namespace Chip8
open Text

def cycleTime (rate : UInt32) : Nat := 1000000000 / max 1 rate.toNat

namespace RunOptions

def pace (o : RunOptions) : Pace := ⟨cycleTime o.settings.clockRate, o.fast⟩

def machine (o : RunOptions) : Machine :=
  let m := Machine.start 0 o.settings
  { m with breakpoints := o.breakpoints.foldl .insert m.breakpoints }

/-- The count of cycles fits a word of sixty-four bits. -/
def mostCycles : Nat := 18446744073709551615

end RunOptions

namespace Command

def decodeText (bytes : List UInt8) : Option String := String.fromUTF8? ⟨bytes.toArray⟩

def textLines (text : String) : List String := (splitLines text.toList).map String.ofList

def listingText (lines : List String) : String := String.ofList (joinLines (lines.map String.toList))

def assembleResult (source output : String) (bytes : List UInt8) : Option Result :=
  (decodeText bytes).map fun text =>
    let lines := textLines text
    let a := Assembly.ofLines lines
    { records := Assembly.records lines ++
        a.failures.map fun k => .unassembled source (k + 1) (lines.getD k "")
      output := some (output, a.bytes)
      closing := [.assembled a.words.length output a.failures.length] }

def disassembleResult (output : Option String) (bytes : List UInt8) : Result :=
  let l := Listing.ofImage bytes
  let records := Listing.records bytes ++
    l.failures.map fun k => .unlisted (Memory.romStart + 2 * k) (l.lines.getD k "")
  let text := listingText l.lines
  match output with
  | none => { records := records, stdout := text }
  | some path => { records := records, output := some (path, text.toUTF8.data.toList) }

def runResult (w : Surroundings) (o : RunOptions) (contents : Except ReadError (List UInt8)) :
    Except LoadError Result :=
  (o.machine.loadFile 0 o.rom contents).map fun m =>
    -- a run without a limit ends when the machine pauses
    let s := Session.drive o.pace w (o.cycles.getD RunOptions.mostCycles) (.start w.setup m)
    let waiting := s.machine.cpu.keypad.waiting.toList.map Record.awaitingKey
    { records := o.machine.callRecords 0 (.loadFile o.rom contents) ++ .running o.rom ::
        s.records.reverse ++ waiting ++ [.stopped s.cycles]
      stdout := s.machine.report }

def perform (w : Surroundings) (contents : Except ReadError (List UInt8)) :
    Command → Except Failure Result
  | .assemble source output => match contents with
    | .error cause => .error (.unreadable cause)
    | .ok bytes => match assembleResult source output bytes with
      | none => .error .notText
      | some r => .ok r
  | .disassemble _ output => (contents.mapError .unreadable).map (disassembleResult output)
  | .run arguments => (runResult w arguments.options contents).mapError .notLoaded

def finish (files : Files) (r : Result) : Ending :=
  match r.output with
  | none => ⟨r.records ++ r.closing, r.stdout, none, files⟩
  | some (path, bytes) => match files.write? path bytes with
    | none => ⟨r.records, r.stdout, some .unwritable, files⟩
    | some files => ⟨r.records ++ r.closing, r.stdout, none, files⟩

def carryOut (w : Surroundings) (files : Files) (c : Command) : Ending :=
  match c.perform w (files.read c.input) with
  | .error e => ⟨[], "", some e, files⟩
  | .ok r => finish files r

end Command
end Chip8
