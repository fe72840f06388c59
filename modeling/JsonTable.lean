import JsonTable.CommandLine.Run
import JsonTable.DelimitedText
import JsonTable.Format.Compiler
import JsonTable.Join
import JsonTable.Main
import JsonTable.Proofs.DelimitedText.Smart
import JsonTable.Proofs.Encoding
import JsonTable.Proofs.Format.Columns
import JsonTable.Proofs.Format.Faults
import JsonTable.Proofs.Json.Viable
import JsonTable.Proofs.Evaluations
import JsonTable.Proofs.Gaps
import JsonTable.Proofs.Notes
import JsonTable.Proofs.Mentioned
import JsonTable.Proofs.EquiJoin
import JsonTable.Proofs.Duplicates
import JsonTable.Proofs.StrictJoin
import JsonTable.Proofs.Json.Embedded
import JsonTable.Proofs.Places
import JsonTable.Proofs.Excerpts
import JsonTable.Proofs.CommandLine.Outcomes
import JsonTable.Proofs.Paths
import JsonTable.Proofs.Json.Reordering
import JsonTable.Proofs.Json.Indentation
import JsonTable.Proofs.Format.Closing
import JsonTable.Proofs.Format.PathTexts
import JsonTable.Proofs.Format.Dumps
import JsonTable.Proofs.CommandLine.Scanning
import JsonTable.Proofs.CommandLine.Abbreviations
import JsonTable.Proofs.CommandLine.FormatFiles
import JsonTable.Proofs.CommandLine.Settings
