import DocGraph.Main
import DocGraph.Proofs.Builtin.Consulted
import DocGraph.Proofs.Config.Deletion
import DocGraph.Proofs.Config.Loops
import DocGraph.Proofs.Graph.Commutation
import DocGraph.Proofs.Graph.Declared
import DocGraph.Proofs.Graph.Downgrade
import DocGraph.Proofs.Graph.RuleTable
import DocGraph.Proofs.Graph.Spelling
import DocGraph.Proofs.Latex.Run
import DocGraph.Proofs.Ninja.Reading
import DocGraph.Proofs.Path.Lexical
import DocGraph.Proofs.Pattern.ClassText
import DocGraph.Proofs.Pattern.Composition
import DocGraph.Proofs.Pattern.Merging
import DocGraph.Proofs.Pattern.Partition
import DocGraph.Proofs.Pattern.Specialisation
import DocGraph.Proofs.Pattern.Substitution
import DocGraph.Proofs.Pattern.Wildcards
import DocGraph.Proofs.Plan.Again
import DocGraph.Proofs.Task.Directories
import DocGraph.Proofs.Task.Inputs
import DocGraph.Proofs.Task.Missing
import DocGraph.Proofs.Template.Resolution
import DocGraph.Proofs.Tree.Listing
import DocGraph.Proofs.Pattern.Literals
