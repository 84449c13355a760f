import NinjaGen.Main
import NinjaGen.Proofs.Data.PlanJson
import NinjaGen.Proofs.Document.Commands
import NinjaGen.Proofs.Document.EmptyEntries
import NinjaGen.Proofs.Document.Generating
import NinjaGen.Proofs.Document.Width
import NinjaGen.Proofs.Ninja.Breaks
import NinjaGen.Proofs.Ninja.Escaping
import NinjaGen.Proofs.Plan.Arrangement
import NinjaGen.Proofs.Plan.Batches
import NinjaGen.Proofs.Plan.BuildRoot
import NinjaGen.Proofs.Plan.Collecting
import NinjaGen.Proofs.Plan.Dependencies
import NinjaGen.Proofs.Plan.Matches
import NinjaGen.Proofs.Plan.Requirements
import NinjaGen.Proofs.Project.CleanCommand
import NinjaGen.Proofs.Project.Cleaning
import NinjaGen.Proofs.Project.Discovery
import NinjaGen.Proofs.Project.GenerateClean
import NinjaGen.Proofs.Project.Layers
import NinjaGen.Proofs.Template.Tokens
import NinjaGen.Proofs.Path.Spelling
import NinjaGen.Proofs.Plan.Placement
import NinjaGen.Proofs.Plan.Objects
import NinjaGen.Proofs.Project.Merging
import NinjaGen.Proofs.FileTree.Searching
import NinjaGen.Proofs.Glob.Moving
import NinjaGen.Proofs.Project.Executables
import NinjaGen.Proofs.Project.UniqueNames
import NinjaGen.Proofs.Ninja.Comments
import NinjaGen.Proofs.CommandLine.Bindings
