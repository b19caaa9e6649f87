import CodeSignature.Decoder
import CodeSignature.Image.Executable
import CodeSignature.Image.Occurrences
import CodeSignature.Instruction.Masking
import CodeSignature.Json.Reader
import CodeSignature.Json.Writer
import CodeSignature.Listing.Reference
import CodeSignature.Listing.Routine
import CodeSignature.Signature.Dialect
import CodeSignature.Text.Numeral
import CodeSignature.Dialogue.Basic
import CodeSignature.Dialogue.Cancellation
import CodeSignature.Dialogue.Clipboard
import CodeSignature.Dialogue.Confirmation
import CodeSignature.Search.Analysis
import CodeSignature.Search.Growth
import CodeSignature.Search.Ranking
import CodeSignature.Search.Transcript
import CodeSignature.Settings.Basic
import CodeSignature.Settings.Directory
import CodeSignature.Settings.File
import CodeSignature.Workbench
import CodeSignature.CommandLine.Arguments
import CodeSignature.CommandLine.Run
import CodeSignature.Image.ExecutableFile
import CodeSignature.Main
import CodeSignature.Proofs.Encoding.Partition
import CodeSignature.Proofs.Search.Loosening
import CodeSignature.Proofs.Search.Masked
import CodeSignature.Proofs.Search.Recognition
import CodeSignature.Proofs.Search.Shortest
import CodeSignature.Proofs.Translation.Growth
import CodeSignature.Proofs.Decoder.Cover
import CodeSignature.Proofs.Encoding.Delimited
import CodeSignature.Proofs.Search.Outcome
import CodeSignature.Proofs.Search.Transcript
import CodeSignature.Proofs.Listing.Run
import CodeSignature.Proofs.Search.Agreement
import CodeSignature.Proofs.Listing.Routine
import CodeSignature.Proofs.Listing.Division
import CodeSignature.Proofs.Search.Border
import CodeSignature.Proofs.Decoder.Sweep
import CodeSignature.Proofs.Search.Scope
import CodeSignature.Proofs.Signature.WordText
import CodeSignature.Proofs.Signature.NumberText
import CodeSignature.Proofs.Dialogue.Cancelled
import CodeSignature.Proofs.Search.Cancellation
import CodeSignature.Proofs.Search.Ranking
import CodeSignature.Proofs.Signature.EscapeText
import CodeSignature.Proofs.Signature.Staged
import CodeSignature.Proofs.Image.Pasted
import CodeSignature.Proofs.Search.Copied
import CodeSignature.Proofs.Decoder.Accord
import CodeSignature.Proofs.Dialogue.Course
import CodeSignature.Proofs.Search.Course
import CodeSignature.Proofs.Search.Signal
import CodeSignature.Proofs.Workbench.Course
import CodeSignature.Proofs.Workbench.Session
import CodeSignature.Proofs.Encoding.Field
import CodeSignature.Proofs.Encoding.Length
import CodeSignature.Proofs.Search.Alignment
import CodeSignature.Proofs.Search.Termination
import CodeSignature.Proofs.Search.Overflow
import CodeSignature.Proofs.Search.Limit
import CodeSignature.Proofs.Signature.PlainText
import CodeSignature.Proofs.Image.Written
import CodeSignature.Proofs.Listing.Start
import CodeSignature.Proofs.Listing.Refinement
import CodeSignature.Proofs.Search.Target
import CodeSignature.Proofs.Image.Executable
import CodeSignature.Proofs.Workbench.Ranking
import CodeSignature.Proofs.Association
import CodeSignature.Proofs.Settings.File
import CodeSignature.Proofs.Json.Text
import CodeSignature.Proofs.Json.Number
import CodeSignature.Proofs.Json.RoundTrip
import CodeSignature.Proofs.Settings.Saved
import CodeSignature.Proofs.Text.Numeral
import CodeSignature.Proofs.CommandLine.Grammar
import CodeSignature.Proofs.CommandLine.Overrides
import CodeSignature.Proofs.Listing.Padding
import CodeSignature.Proofs.Listing.Prologue
