import Chip8.Machine.Basic

/-!
Everything that can be asked of a machine, as data. A history of a machine is a list of calls with
the instants they are made at. Only loading can fail, and a call that fails leaves the machine as
it was.
-/

namespace Chip8

inductive Call
  | reset
  | load (rom : List UInt8)
  | loadProgram (words : List Word)
  | loadFile (path : String) (contents : Except ReadError (List UInt8))
  | pause
  | resume
  | cycle (random : UInt8)
  | step (random : UInt8)
  | setKey (key : UInt8) (pressed : Bool)
  | addBreakpoint (index : Nat)
  | removeBreakpoint (index : Nat)
  | clearBreakpoints
  | setClockRate (rate : UInt32)
  | setLegacy (on : Bool)
  | setWrapping (on : Bool)
  | setForeground (colour : UInt32)
  | setBackground (colour : UInt32)
  | cleanScreen

namespace Machine

def call (now : Nat) (c : Call) (m : Machine) : Except LoadError Machine :=
  match c with
  | .reset => .ok (m.reset now)
  | .load rom => m.load now rom
  | .loadProgram words => m.load now (Word.join words)
  | .loadFile path contents => m.loadFile now path contents
  | .pause => .ok m.pause
  | .resume => .ok m.resume
  | .cycle random => .ok (m.cycle now random)
  | .step random => .ok (m.step now random)
  | .setKey key pressed => .ok (m.setKey key pressed)
  | .addBreakpoint k => .ok { m with breakpoints := m.breakpoints.insert k }
  | .removeBreakpoint k => .ok { m with breakpoints := m.breakpoints.erase k }
  | .clearBreakpoints => .ok { m with breakpoints := .empty }
  | .setClockRate rate => .ok { m with clockRate := rate }
  | .setLegacy on => .ok { m with legacy := on }
  | .setWrapping on => .ok (m.mapScreen (·.setWrapping on))
  | .setForeground colour => .ok (m.mapScreen (·.setForeground colour))
  | .setBackground colour => .ok (m.mapScreen (·.setBackground colour))
  | .cleanScreen => .ok (m.mapScreen (·.clean))

def after (now : Nat) (c : Call) (m : Machine) : Machine :=
  match m.call now c with
  | .ok m' => m'
  | .error _ => m

def loadRecords (result : Except LoadError Machine) (size : Nat) : List Record :=
  match result with
  | .ok _ => [.reset, .loaded size]
  | .error _ => []

def callRecords (now : Nat) (c : Call) (m : Machine) : List Record :=
  match c with
  | .reset => [.reset]
  | .load rom => loadRecords (m.load now rom) rom.length
  | .loadProgram words => loadRecords (m.load now (Word.join words)) (2 * words.length)
  | .loadFile path contents =>
    loadRecords (m.loadFile now path contents) (contents.toOption.elim 0 List.length)
  | .cycle _ => m.records m.cycleAction
  | .step _ => m.records m.stepAction
  | _ => []

def afterAll (m : Machine) (history : List (Nat × Call)) : Machine :=
  history.foldl (fun m e => m.after e.1 e.2) m

end Machine
end Chip8
