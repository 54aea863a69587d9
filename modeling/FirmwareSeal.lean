import FirmwareSeal.Bytes
import FirmwareSeal.Bytes.Base64
import FirmwareSeal.Bytes.Endian
import FirmwareSeal.Bytes.Hex
import FirmwareSeal.Command.Arguments
import FirmwareSeal.Command.Event
import FirmwareSeal.Command.Tool
import FirmwareSeal.Flash.Block
import FirmwareSeal.Flash.Stream
import FirmwareSeal.Image.Envelope
import FirmwareSeal.Image.Firmware
import FirmwareSeal.Image.Options
import FirmwareSeal.Image.Sealed
import FirmwareSeal.Image.Signed
import FirmwareSeal.Key.Development
import FirmwareSeal.Key.Trusted
import FirmwareSeal.Log.Filter
import FirmwareSeal.Main
import FirmwareSeal.Pattern.Basic
import FirmwareSeal.Pattern.ByteRanges
import FirmwareSeal.Pattern.CharSet
import FirmwareSeal.Pattern.Class
import FirmwareSeal.Pattern.Error
import FirmwareSeal.Pattern.Machine
import FirmwareSeal.Pattern.Match
import FirmwareSeal.Pattern.Normal
import FirmwareSeal.Pattern.Reader
import FirmwareSeal.Pattern.Token
import FirmwareSeal.Proofs.Bytes
import FirmwareSeal.Proofs.Image.Layout
import FirmwareSeal.Sha512
import FirmwareSeal.Signature.Ed25519ph
import FirmwareSeal.Signature.Edwards25519
import FirmwareSeal.Signature.Error
import FirmwareSeal.Signature.Group
import FirmwareSeal.Signature.SelfTest
import FirmwareSeal.Signature.Signer
import FirmwareSeal.Store.Access
import FirmwareSeal.Store.Error
import FirmwareSeal.Store.Path
import FirmwareSeal.Store.Tree
import FirmwareSeal.Text.Blank
import FirmwareSeal.Text.Visible
import FirmwareSeal.Proofs.Image.Detection
import FirmwareSeal.Proofs.Image.Resealing
import FirmwareSeal.Proofs.Flash.Codec
import FirmwareSeal.Proofs.Flash.Unpacking
import FirmwareSeal.Proofs.Image.Layers
import FirmwareSeal.Proofs.Recovery
import FirmwareSeal.Proofs.Flash.Reordering
import FirmwareSeal.Proofs.Flash.RoundTrip
import FirmwareSeal.Proofs.Flash.Grammar
import FirmwareSeal.Proofs.Image.PrefixFree
import FirmwareSeal.Proofs.Image.Coverage
import FirmwareSeal.Proofs.Image.WireForm
import FirmwareSeal.Proofs.FlashCycle
import FirmwareSeal.Proofs.Signature.Completeness
import FirmwareSeal.Proofs.Store.Paths
import FirmwareSeal.Proofs.Store.Writing
import FirmwareSeal.Proofs.Store.History
import FirmwareSeal.Proofs.Command.Runs
import FirmwareSeal.Proofs.Command.Effect
import FirmwareSeal.Proofs.Flash.WireForm
import FirmwareSeal.Proofs.Flash.Placement
import FirmwareSeal.Proofs.Flash.NumberOrder
import FirmwareSeal.Proofs.Flash.Collisions
import FirmwareSeal.Proofs.Flash.BlockCount
import FirmwareSeal.Proofs.Image.Payload
import FirmwareSeal.Proofs.Signature.KeyPairs
import FirmwareSeal.Proofs.Signature.Reasons
import FirmwareSeal.Proofs.Pattern.Places
import FirmwareSeal.Proofs.Pattern.NormalForm
import FirmwareSeal.Proofs.Pattern.Symbols
import FirmwareSeal.Proofs.Pattern.PlainText
