import FirmwareSeal.Bytes.Hex
import FirmwareSeal.Log.Filter
import FirmwareSeal.Text.Visible

/-!
# What the commands report while they work

Every event has a level, the name of the part of the program that it comes from, and a message.
-/

namespace FirmwareSeal

namespace Command

/-- Something worth a log line. -/
inductive Event where
  | selfTestPassed
  | firmwareRead (size : Nat)
  | envelopeSliced (size : Nat)
  | payloadFound (size : Nat)
  | keySlotChosen (tag : String)
  | signatureMade (signature : Bytes)
  | imageRead (size : Nat)
  | imageNotWrapped (path : String)
  | imagePacked (size : Nat)
  | blocksPacked (count : Nat)
  deriving DecidableEq

namespace Event

/-- How important an event is. -/
def level : Event → Log.Level
  | .selfTestPassed => .debug
  | .firmwareRead _ => .info
  | .envelopeSliced _ => .info
  | .payloadFound _ => .info
  | .keySlotChosen _ => .debug
  | .signatureMade _ => .debug
  | .imageRead _ => .info
  | .imageNotWrapped _ => .warn
  | .imagePacked _ => .debug
  | .blocksPacked _ => .info

/-- The name of the part that reports an event. -/
def target : Event → String
  | .selfTestPassed => "bao_image::ed25519ph"
  | .firmwareRead _ => "bao_signer"
  | .envelopeSliced _ => "bao_image::reseal"
  | .payloadFound _ => "bao_image"
  | .keySlotChosen _ => "bao_image::signed"
  | .signatureMade _ => "bao_image::signed"
  | .imageRead _ => "bao_uf2ify"
  | .imageNotWrapped _ => "bao_uf2ify"
  | .imagePacked _ => "bao_image::uf2"
  | .blocksPacked _ => "bao_uf2ify"

/-- What an event says. -/
def message : Event → String
  | .selfTestPassed => "ed25519ph self test passed"
  | .firmwareRead size => "input file size is " ++ toString size ++ " bytes"
  | .envelopeSliced size =>
    "slicing " ++ toString size ++ " header bytes off the input file"
  | .payloadFound size => "binary payload size is " ++ toString size ++ " bytes"
  | .keySlotChosen tag => "signing against the '" ++ tag ++ "' key slot"
  | .signatureMade signature => "ed25519ph signature " ++ hexText signature
  | .imageRead size => "signed blob file size is " ++ toString size ++ " bytes"
  | .imageNotWrapped path => path ++ " does not look like a signed image"
  | .imagePacked size => "uf2ify data is " ++ toString size ++ " bytes"
  | .blocksPacked count => "packed " ++ toString count ++ " UF2 blocks"

/-- The log line of an event; further lines of its message are indented by four blanks. -/
def line (e : Event) : String :=
  "[" ++ e.level.label ++ " " ++ e.target ++ "] " ++
    String.intercalate "\n    " (e.message.splitOn "\n")

end Event

/-- What a filter shows of some events: for each of them its log line, as far as a terminal would
show it. -/
def logText (filter : Log.Filter) (events : List Event) : String :=
  String.join <| (events.filter fun e ↦ filter.shows e.level e.target e.message).map fun e ↦
    visibleText (e.line ++ "\n")

end Command

end FirmwareSeal
