import GVariant.Ty.Flat
import GVariant.Variant.Text
import GVariant.Variant.Flat
import GVariant.Binary.Decode
import GVariant.Binary.Checked
import GVariant.Binary.Flat
import GVariant.Conversion.Unpacking
import GVariant.Conversion.Flat
import GVariant.Vardict
import GVariant.Json.Basic
import GVariant.Adapters.Datum
import GVariant.Adapters.JsonText
import GVariant.Adapters.Schema
import GVariant.Proofs.Text.Delimited
import GVariant.Proofs.Text.Utf8
import GVariant.Proofs.Text.ObjectPath
import GVariant.Proofs.Signature.Reading
import GVariant.Proofs.Signature.Cutoff
import GVariant.Proofs.Signature.Grammar
import GVariant.Proofs.Signature.Splitting
import GVariant.Proofs.Signature.Places
import GVariant.Proofs.Ty.Matching
import GVariant.Proofs.Ty.Flat
import GVariant.Proofs.Ty.Skipping
import GVariant.Proofs.Binary.Bytes
import GVariant.Proofs.Binary.Framing
import GVariant.Proofs.Binary.RoundTrip
import GVariant.Proofs.Binary.Soundness
import GVariant.Proofs.Binary.Levels
import GVariant.Proofs.Binary.Swap
import GVariant.Proofs.Binary.Ranges
import GVariant.Proofs.Binary.ArrayRanges
import GVariant.Proofs.Binary.Sizes
import GVariant.Proofs.Binary.Placement
import GVariant.Proofs.Binary.Checked
import GVariant.Proofs.Binary.OffsetFaults
import GVariant.Proofs.Binary.Safety
import GVariant.Proofs.Binary.Widths
import GVariant.Proofs.Binary.Flat
import GVariant.Proofs.Value.Scalar
import GVariant.Proofs.Value.Integers
import GVariant.Proofs.Variant.WellFormed
import GVariant.Proofs.Variant.Reachable
import GVariant.Proofs.Variant.Rendering
import GVariant.Proofs.Variant.Children
import GVariant.Proofs.Variant.Flat
import GVariant.Proofs.Variant.Obtained
import GVariant.Proofs.Variant.Contents
import GVariant.Proofs.Conversion.Heads
import GVariant.Proofs.Conversion.Packed
import GVariant.Proofs.Conversion.Agreement
import GVariant.Proofs.Conversion.ByType
import GVariant.Proofs.Conversion.Arguments
import GVariant.Proofs.Conversion.ErrorClasses
import GVariant.Proofs.Conversion.Host
import GVariant.Proofs.Conversion.Repack
import GVariant.Proofs.Conversion.Canonical
import GVariant.Proofs.Conversion.Keys
import GVariant.Proofs.Conversion.Containers
import GVariant.Proofs.Conversion.KeptEntries
import GVariant.Proofs.Conversion.Elements
import GVariant.Proofs.Conversion.Modes
import GVariant.Proofs.Conversion.Unpacking
import GVariant.Proofs.Conversion.Limits
import GVariant.Proofs.Conversion.LargerLimits
import GVariant.Proofs.Conversion.Places
import GVariant.Proofs.Conversion.Calls
import GVariant.Proofs.Conversion.Flat
import GVariant.Proofs.Vardict.Boxing
import GVariant.Proofs.Vardict.Histories
import GVariant.Proofs.Vardict.Normal
import GVariant.Proofs.Json.NormalForm
