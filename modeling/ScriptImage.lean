import ScriptImage.Builder
import ScriptImage.Bytes.Field
import ScriptImage.Image.Json
import ScriptImage.ObjectModule.Json
import ScriptImage.FileTree
import ScriptImage.Main
import ScriptImage.Proofs.Layout
import ScriptImage.Proofs.Globals
import ScriptImage.Proofs.Link.Relocation
import ScriptImage.Proofs.Link.Merging
import ScriptImage.Proofs.Singles
import ScriptImage.Proofs.Link.Copies
import ScriptImage.Proofs.Link.Variables
import ScriptImage.Proofs.Link.Validity
import ScriptImage.Proofs.Link.References
import ScriptImage.Proofs.Texts
import ScriptImage.Proofs.Codec.Images
import ScriptImage.Proofs.Link.Storage
import ScriptImage.Proofs.Link.Placement
import ScriptImage.Proofs.Sections
import ScriptImage.Proofs.TextIndex
import ScriptImage.Proofs.Link.Sharing
import ScriptImage.Proofs.Link.Resolution
import ScriptImage.Proofs.Link.Acceptance
import ScriptImage.Proofs.Link.BuildInfo
import ScriptImage.Proofs.Link.TextPushes
import ScriptImage.Proofs.Link.Settled
import ScriptImage.Proofs.Link.Relinking
import ScriptImage.Proofs.Compare.Matching
import ScriptImage.Proofs.Compare.Verdict
import ScriptImage.Proofs.Compare.Parts
import ScriptImage.Proofs.Compare.Operands
import ScriptImage.Proofs.Compare.SystemCalls
import ScriptImage.Proofs.Compare.PushedTexts
import ScriptImage.Proofs.Agreement
import ScriptImage.Proofs.Link.Lockstep
import ScriptImage.Proofs.Link.Options
import ScriptImage.Proofs.Link.Extension
import ScriptImage.Proofs.Link.Meaning
import ScriptImage.Proofs.Compare.Order
import ScriptImage.Proofs.Compare.NormalVerdict
import ScriptImage.Proofs.Checks
import ScriptImage.Proofs.Compare.StrictVerdict
import ScriptImage.Proofs.Compare.Modes
import ScriptImage.Proofs.Compare.Symmetry
import ScriptImage.Proofs.Compare.Corruption
import ScriptImage.Proofs.Compare.Ending
import ScriptImage.Proofs.Compare.Reflexivity
import ScriptImage.Proofs.Compare.Conversions
import ScriptImage.Proofs.Compare.Walk
import ScriptImage.Proofs.Compare.Limits
import ScriptImage.Proofs.Compare.Filters
import ScriptImage.Proofs.Link.Pairing
import ScriptImage.Proofs.Codec.Canonical
import ScriptImage.Proofs.Codec.Normalizing
import ScriptImage.Proofs.Codec.PrefixFree
import ScriptImage.Proofs.Codec.Fields
import ScriptImage.Proofs.Slots
import ScriptImage.Proofs.Build.Calls
import ScriptImage.Proofs.Build.References
import ScriptImage.Proofs.Build.Saving
import ScriptImage.Proofs.Checked
import ScriptImage.Proofs.Link.Overflows
import ScriptImage.Proofs.Faults
import ScriptImage.Proofs.Link.Manifest
import ScriptImage.Proofs.ScriptIds
import ScriptImage.Proofs.Sources
import ScriptImage.Proofs.Compare.Sources
import ScriptImage.Proofs.Link.Sources
import ScriptImage.Proofs.Link.Metadata
import ScriptImage.Proofs.Json.Numerals
import ScriptImage.Proofs.Json.Parsing
import ScriptImage.Proofs.Json.Decoding
import ScriptImage.Proofs.Json.RoundTrip
