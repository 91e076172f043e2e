/-!
# DocGraph.Ninja.Run

Running Ninja.

* `WaitStatus` — how a process ended, as the system reports it.
* `exitCode`   — the exit code to pass on: that of the process, or 1 if a signal ended it.
* `run`        — runs Ninja with arguments, if it is there.
-/

namespace DocGraph
namespace Ninja

/-- How a process ended: its exit code in the second byte if the low seven bits are zero, and
otherwise the signal that stopped it. -/
structure WaitStatus where
  bits : UInt32
deriving DecidableEq

/-- The exit code of a process that was not stopped by a signal. -/
def WaitStatus.code? (s : WaitStatus) : Option UInt8 :=
  if s.bits &&& 0x7F = 0 then some (s.bits >>> 8).toUInt8 else none

/-- The exit code to pass on. -/
def exitCode (s : WaitStatus) : UInt8 := s.code?.getD 1

/-- A program that is started with arguments. -/
abbrev Program := List String → WaitStatus

/-- Run Ninja, if it is there. -/
def run (ninja : Option Program) (args : List String) : Option WaitStatus :=
  ninja.map fun program => program args

end Ninja
end DocGraph
