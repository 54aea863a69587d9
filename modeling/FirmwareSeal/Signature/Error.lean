/-!
# Why signing or verifying fails

The causes that a signer reports, and their one-line messages (`SigningError.message`).
-/

namespace FirmwareSeal

/-- The two halves of a key pair. -/
inductive KeyHalf where
  | secretHalf
  | publicHalf
  deriving DecidableEq

/-- The word for a key half in messages. -/
def KeyHalf.name : KeyHalf → String
  | .secretHalf => "secret"
  | .publicHalf => "public"

/-- The stages of computing a signature: taking the keys, taking the message, and finishing. -/
inductive SigningStage where
  | init
  | update
  | finalize
  deriving DecidableEq

/-- The word for a stage in messages. -/
def SigningStage.name : SigningStage → String
  | .init => "init"
  | .update => "update"
  | .finalize => "final_create"

/-- Why a signer refuses. These are the reasons of the signers of this library. One of another make
may have more, such as a malformed development key, a file that cannot be read, or key material
under a name of its own. Nothing tells reasons apart: sealing and verifying hand on the one that a
signer gives, and the known answer only asks whether there is one. -/
inductive SigningError where
  /-- Key material does not have 32 bytes, but the given count. -/
  | keyLength (half : KeyHalf) (length : Nat)
  /-- The signature could not be computed. -/
  | signing (stage : SigningStage) (reason : String)
  /-- The known answer was not reproduced. -/
  | selfTest
  /-- The signature does not belong to the key and the message. -/
  | verification
  deriving DecidableEq

/-- The message of a signing error. -/
def SigningError.message : SigningError → String
  | .keyLength half length =>
    half.name ++ " key must be 32 bytes, got " ++ toString length
  | .signing stage reason => "ed25519ph " ++ stage.name ++ " failed: " ++ reason
  | .selfTest => "ed25519ph self test failed: signing capability is broken or tampered with"
  | .verification => "signature verification failed"

end FirmwareSeal
