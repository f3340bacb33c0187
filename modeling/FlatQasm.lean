import FlatQasm.Main
import FlatQasm.Decimal.Fixed
import FlatQasm.Gate.Matrix
import FlatQasm.Program.Printer
import FlatQasm.Storage.Folder
import FlatQasm.Proofs.Circuit.Action
import FlatQasm.Proofs.Program.Refusal
import FlatQasm.Proofs.Program.RoundTrip
import FlatQasm.Proofs.Program.WrittenOut
import FlatQasm.Proofs.Program.Broadcast
import FlatQasm.Proofs.Program.WellScoped
import FlatQasm.Proofs.Angle.Evaluate
import FlatQasm.Proofs.Angle.NormalForm
import FlatQasm.Proofs.Angle.Substitution
import FlatQasm.Proofs.Circuit.ExportOutcome
import FlatQasm.Proofs.Program.Spelling
import FlatQasm.Proofs.Grammar.Reading
import FlatQasm.Proofs.Program.PrintedText
import FlatQasm.Proofs.Circuit.Building
import FlatQasm.Proofs.Circuit.Records
import FlatQasm.Proofs.Circuit.YRemoval
import FlatQasm.Proofs.Program.Imported
import FlatQasm.Proofs.Program.ZeroDivisors
import FlatQasm.Proofs.Grammar.Stratified
import FlatQasm.Proofs.Program.NestedCalls
import FlatQasm.Proofs.Program.Numbering
import FlatQasm.Proofs.Bindings
import FlatQasm.Proofs.Command.Conversion
import FlatQasm.Proofs.Program.Places
import FlatQasm.Proofs.Program.Insertions
import FlatQasm.Proofs.Program.Headers
import FlatQasm.Proofs.Program.Appending
import FlatQasm.Proofs.Program.IntegerLiterals
import FlatQasm.Proofs.Program.Renaming
import FlatQasm.Proofs.Program.NestingLimit
import FlatQasm.Proofs.Circuit.Replacing
import FlatQasm.Proofs.Grammar.AngleText
import FlatQasm.Proofs.Grammar.NestingCounter
import FlatQasm.Proofs.Json.Imported
