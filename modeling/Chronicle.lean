import Chronicle.Page.Writer
import Chronicle.Page.Reader
import Chronicle.Error
import Chronicle.Stream.Config
import Chronicle.Proofs.Wire.BitSource
import Chronicle.Proofs.Wire.Parser
import Chronicle.Proofs.Wire.Bits
import Chronicle.Proofs.Stream.Feed
import Chronicle.Proofs.Stream.RunLengthGrammar
import Chronicle.Proofs.Stream.RunLength
import Chronicle.Proofs.Stream.Segmentation
import Chronicle.Proofs.Stream.Capacity
import Chronicle.Proofs.Stream.Delta
import Chronicle.Proofs.Stream.DeltaGrammar
import Chronicle.Proofs.Stream.Gorilla
import Chronicle.Proofs.Stream.GorillaGrammar
import Chronicle.Proofs.Column.Value
import Chronicle.Proofs.Stream.RoundTrip
import Chronicle.Proofs.Stream.GorillaCodes
import Chronicle.Proofs.Stream.FixedPoint
import Chronicle.Proofs.Stream.Grammar
import Chronicle.Proofs.Block.Compressor
import Chronicle.Proofs.Summary.Statistics
import Chronicle.Proofs.Summary.Bounds
import Chronicle.Proofs.Summary.Layout
import Chronicle.Proofs.Page.Layout
import Chronicle.Proofs.Stream.Size
import Chronicle.Proofs.Stream.Codec
import Chronicle.Proofs.Wire.Extension
import Chronicle.Proofs.Stream.Extension
import Chronicle.Proofs.Stream.Truncation
import Chronicle.Proofs.Page.Reader
import Chronicle.Proofs.Page.Count
import Chronicle.Proofs.Page.Writer
import Chronicle.Proofs.Page.RoundTrip
import Chronicle.Proofs.Page.Session
import Chronicle.Proofs.Page.Atomic
import Chronicle.Proofs.Machine.Guarded
import Chronicle.Proofs.Machine.BitReader
import Chronicle.Proofs.Machine.Bytes
import Chronicle.Proofs.Machine.Feed
import Chronicle.Proofs.Machine.RunLength
import Chronicle.Proofs.Machine.RunLengthWriter
import Chronicle.Proofs.Machine.Delta
import Chronicle.Proofs.Machine.Gorilla
import Chronicle.Proofs.Machine.Decoder
import Chronicle.Proofs.Machine.Page
import Chronicle.Proofs.Machine.PageReader
import Chronicle.Proofs.Summary.Extremes
import Chronicle.Proofs.Summary.Points
import Chronicle.Proofs.Page.Framing
import Chronicle.Proofs.Machine.Running
import Chronicle.Proofs.Stream.DeltaLayout
import Chronicle.Proofs.Machine.Draining
import Chronicle.Proofs.Page.SideBySide
import Chronicle.Proofs.Machine.DeltaWriter
import Chronicle.Proofs.Machine.Concatenation
import Chronicle.Proofs.Machine.Refusal
import Chronicle.Proofs.Machine.Folding
import Chronicle.Proofs.Summary.Arrival
import Chronicle.Proofs.Machine.Arrival
import Chronicle.Proofs.Machine.BitSink
import Chronicle.Proofs.Machine.BitCalls
import Chronicle.Proofs.Machine.Varint
import Chronicle.Proofs.Machine.Encoder
