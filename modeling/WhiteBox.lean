import WhiteBox.Byte
import WhiteBox.BuildError
import WhiteBox.Coordinate
import WhiteBox.Role
import WhiteBox.Keystream.Sha256
import WhiteBox.Keystream.ChaCha20
import WhiteBox.Keystream
import WhiteBox.Shuffle
import WhiteBox.Shuffle.Table
import WhiteBox.Shuffle.Draw
import WhiteBox.Matrix
import WhiteBox.Matrix.Inverse
import WhiteBox.Matrix.Draw
import WhiteBox.KeyedMap
import WhiteBox.Encoding
import WhiteBox.Encoding.MaskByte
import WhiteBox.SlotMap
import WhiteBox.Wire
import WhiteBox.Table
import WhiteBox.Text.Hex
import WhiteBox.Text.Json
import WhiteBox.Text.Json.Token
import WhiteBox.Text.Json.Fragment
import WhiteBox.Text.Json.Reader
import WhiteBox.Exchange
import WhiteBox.Text.Describe
import WhiteBox.NetworkCheck
import WhiteBox.Command.SeedText
import WhiteBox.Command.Options
import WhiteBox.Command.Request
import WhiteBox.Command.Run
import WhiteBox.Main
import WhiteBox.Proofs.Bytes
import WhiteBox.Proofs.Matrix.Elimination
import WhiteBox.Proofs.Matrix.Bytes
import WhiteBox.Proofs.Encoding.Lawful
import WhiteBox.Proofs.Gate
import WhiteBox.Proofs.Network.Column
import WhiteBox.Proofs.Draw
import WhiteBox.Proofs.Command.Check
import WhiteBox.Proofs.Network.Mask
import WhiteBox.Proofs.Keying.Label
import WhiteBox.Proofs.Keying.Slot
import WhiteBox.Proofs.Text.Document
import WhiteBox.Proofs.Exchange.Reading
import WhiteBox.Proofs.Exchange.RoundTrip
import WhiteBox.Proofs.Exchange.Shape
import WhiteBox.Proofs.Matrix.SetBits
import WhiteBox.Proofs.Matrix.Product
import WhiteBox.Proofs.Matrix.LinearMap
import WhiteBox.Proofs.Exchange.Guard
import WhiteBox.Proofs.Matrix.Invertible
import WhiteBox.Proofs.Matrix.Group
import WhiteBox.Proofs.Text.Layout
import WhiteBox.Proofs.Command.Report
import WhiteBox.Proofs.Command.Encoding
import WhiteBox.Proofs.Command.Table
import WhiteBox.Proofs.Keying.Failure
import WhiteBox.Proofs.Log
import WhiteBox.Proofs.Encoding.ShiftCalls
import WhiteBox.Proofs.Encoding.BlockDiagonal
import WhiteBox.Proofs.Command.SeedPlace
import WhiteBox.Proofs.Command.Failure
import WhiteBox.Proofs.GateTree
import WhiteBox.Proofs.Matrix.Columns
import WhiteBox.Proofs.Shuffle.Arrange
import WhiteBox.Proofs.Shuffle.Choice
import WhiteBox.Proofs.Shuffle.Draw
import WhiteBox.Proofs.Matrix.Block
import WhiteBox.Proofs.Matrix.Draw
import WhiteBox.Proofs.Encoding.Halves
import WhiteBox.Proofs.Shuffle.Table
import WhiteBox.Proofs.Network.Shift
import WhiteBox.Proofs.Text.Hex
import WhiteBox.Proofs.Command.SeedText
