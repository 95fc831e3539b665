import LogLabel.Main
import LogLabel.Proofs.Expansion.Jumps
import LogLabel.Proofs.Expansion.Owner
import LogLabel.Proofs.Expansion.Handover
import LogLabel.Proofs.Expansion.Overrides
import LogLabel.Proofs.Program.Paths
import LogLabel.Proofs.Peg.Depth
import LogLabel.Proofs.Peg.Shapes
import LogLabel.Proofs.Program.Parts
import LogLabel.Proofs.Program.Slots
import LogLabel.Proofs.Program.Building
import LogLabel.Proofs.Program.Modes
import LogLabel.Proofs.Options.Table
import LogLabel.Proofs.Options.History
import LogLabel.Proofs.CommandLine
import LogLabel.Proofs.Program.Literals
import LogLabel.Proofs.Instantiation
import LogLabel.Proofs.Expansion.Covered
import LogLabel.Proofs.Expansion.Opening
import LogLabel.Proofs.Program.Climbing
import LogLabel.Proofs.Program.Replacement
import LogLabel.Proofs.Expansion.Declarations
import LogLabel.Proofs.Text.Lowercase
import LogLabel.Proofs.Environment
import LogLabel.Proofs.Path
import LogLabel.Proofs.Sources
import LogLabel.Proofs.Program.Matching
import LogLabel.Proofs.Text.Lines
import LogLabel.Proofs.Program.Identifiers
import LogLabel.Proofs.Program.Prefixes
