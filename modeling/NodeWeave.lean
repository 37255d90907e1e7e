import NodeWeave.Main
import NodeWeave.Shell.Tool
import NodeWeave.Json.Reader
import NodeWeave.Proofs.Scope.Balance
import NodeWeave.Proofs.Hierarchy.Shape
import NodeWeave.Proofs.Hierarchy.WellFormed
import NodeWeave.Proofs.Hierarchy.Ancestry
import NodeWeave.Proofs.Hierarchy.Changes
import NodeWeave.Proofs.Hierarchy.Discarding
import NodeWeave.Proofs.Hierarchy.Rounds
import NodeWeave.Proofs.Hierarchy.Removal
import NodeWeave.Proofs.Hierarchy.Distinct
import NodeWeave.Proofs.Hierarchy.Adoption
import NodeWeave.Proofs.Hierarchy.Looking
import NodeWeave.Proofs.Hierarchy.Keeping
import NodeWeave.Proofs.Hierarchy.Resolution
import NodeWeave.Proofs.Hierarchy.Names
import NodeWeave.Proofs.Hierarchy.Written
import NodeWeave.Proofs.Hierarchy.Coverage
import NodeWeave.Proofs.Hierarchy.Hanging
import NodeWeave.Proofs.Hierarchy.Trailing
import NodeWeave.Proofs.Hierarchy.Placing
import NodeWeave.Proofs.Hierarchy.CatchAll
import NodeWeave.Proofs.Text.LowCharacters
import NodeWeave.Proofs.Text.WholeWords
import NodeWeave.Proofs.Text.References
import NodeWeave.Proofs.Text.Quoted
import NodeWeave.Proofs.Pattern.Matching
import NodeWeave.Proofs.Pattern.Language
import NodeWeave.Proofs.Pattern.Embedding
import NodeWeave.Proofs.Pattern.Grouped
import NodeWeave.Proofs.Pattern.Anchored
import NodeWeave.Proofs.Hierarchy.WholeNames
import NodeWeave.Proofs.Scope.Names
import NodeWeave.Proofs.Scope.SelfWord
import NodeWeave.Proofs.Woven.Mark
import NodeWeave.Proofs.Woven.Region
import NodeWeave.Proofs.Woven.Fragment
import NodeWeave.Proofs.Woven.Generated
import NodeWeave.Proofs.Woven.ParserUnit
import NodeWeave.Proofs.Woven.PackageStatement
import NodeWeave.Proofs.Woven.ClassHeader
import NodeWeave.Proofs.Woven.Edits
import NodeWeave.Proofs.Woven.Support
import NodeWeave.Proofs.Woven.Outside
import NodeWeave.Proofs.Woven.Void
import NodeWeave.Proofs.Woven.Openings
import NodeWeave.Proofs.Scope.Distinct
import NodeWeave.Proofs.Woven.Nesting
import NodeWeave.Proofs.Woven.Emissions
import NodeWeave.Proofs.Project.Nodes
import NodeWeave.Proofs.CommandLine.Status
import NodeWeave.Proofs.Files.Segments
import NodeWeave.Proofs.Files.Walk
import NodeWeave.Proofs.Files.Trail
import NodeWeave.Proofs.Files.Directories
import NodeWeave.Proofs.Files.Writing
import NodeWeave.Proofs.Files.Additions
import NodeWeave.Proofs.Files.Below
import NodeWeave.Proofs.Files.Growth
import NodeWeave.Proofs.Generation.Target
import NodeWeave.Proofs.Generation.Job
import NodeWeave.Proofs.Generation.Order
import NodeWeave.Proofs.Scope.Exceptions
import NodeWeave.Proofs.Yaml.Sameness
import NodeWeave.Proofs.Yaml.Merging
import NodeWeave.Proofs.Yaml.Reading
import NodeWeave.Proofs.Yaml.Depth
import NodeWeave.Proofs.Yaml.Literal
import NodeWeave.Proofs.Settings.Reading
import NodeWeave.Proofs.Settings.Chain
import NodeWeave.Proofs.Settings.Dumping
import NodeWeave.Proofs.Template.Cut
import NodeWeave.Proofs.Template.Tag
import NodeWeave.Proofs.Template.Printed
import NodeWeave.Proofs.Template.Reading
import NodeWeave.Proofs.Files.Outcomes
import NodeWeave.Proofs.Hierarchy.Diagnostics
import NodeWeave.Proofs.Project.Plan
import NodeWeave.Proofs.Project.Performing
import NodeWeave.Proofs.Project.Turns
import NodeWeave.Proofs.Grammar.Names
import NodeWeave.Proofs.Peg.Matching
import NodeWeave.Proofs.Peg.Termination
import NodeWeave.Proofs.Peg.Parts
import NodeWeave.Proofs.Grammar.Faults
import NodeWeave.Proofs.Woven.Grouping
import NodeWeave.Proofs.Grammar.Wholes
import NodeWeave.Proofs.Grammar.Unambiguous
import NodeWeave.Proofs.Grammar.Constants
import NodeWeave.Proofs.Text.LastDot
import NodeWeave.Proofs.Generation.Confinement
import NodeWeave.Proofs.Project.Identification
import NodeWeave.Proofs.Project.BeanNames
import NodeWeave.Proofs.Template.Rendering
import NodeWeave.Proofs.Template.Support
import NodeWeave.Proofs.Project.SupportTexts
import NodeWeave.Proofs.Project.SupportFiles
import NodeWeave.Proofs.Compiler.Sharing
import NodeWeave.Proofs.Compiler.Distribution
import NodeWeave.Proofs.Woven.ReadBack
