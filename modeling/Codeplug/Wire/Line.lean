/-!
# Line settings

How a serial line is set up. Radios on USB and pseudo terminals ignore the speed.
-/

namespace Codeplug.Wire

inductive DataBits where
  | five
  | six
  | seven
  | eight
  deriving DecidableEq, Repr

inductive StopBits where
  | one
  | two
  deriving DecidableEq, Repr

inductive Parity where
  | none
  | odd
  | even
  deriving DecidableEq, Repr

inductive FlowControl where
  | none
  | software
  | hardware
  deriving DecidableEq, Repr

namespace DataBits

def name : DataBits → String
  | five => "Five"
  | six => "Six"
  | seven => "Seven"
  | eight => "Eight"

end DataBits

namespace StopBits

def name : StopBits → String
  | one => "One"
  | two => "Two"

end StopBits

namespace Parity

def name : Parity → String
  | none => "None"
  | odd => "Odd"
  | even => "Even"

end Parity

namespace FlowControl

def name : FlowControl → String
  | none => "None"
  | software => "Software"
  | hardware => "Hardware"

end FlowControl

/-- The settings of a line. The timeout is the longest wait for a read or a write. -/
structure LineSettings where
  baud : Nat := 115200
  dataBits : DataBits := .eight
  stopBits : StopBits := .one
  parity : Parity := .none
  flow : FlowControl := .none
  timeoutMs : Nat := 250
  deriving DecidableEq, Repr

namespace LineSettings

/-- The settings at a speed. -/
def ofBaud (baud : Nat) : LineSettings := { baud }

def withTimeout (s : LineSettings) (timeoutMs : Nat) : LineSettings := { s with timeoutMs }

/-- The settings with a handshake in hardware, which some cables need. -/
def withHardwareFlow (s : LineSettings) : LineSettings := { s with flow := .hardware }

end LineSettings

end Codeplug.Wire
