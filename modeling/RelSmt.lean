import RelSmt.Fault.Message
import RelSmt.Solving
import RelSmt.Proofs.Term.Sorting
import RelSmt.Proofs.Term.Substitution
import RelSmt.Proofs.Term.Capture
import RelSmt.Proofs.Term.Replacement
import RelSmt.Proofs.Lowering.Session
import RelSmt.Proofs.Lowering.Exactness
import RelSmt.Proofs.Lowering.Specification
import RelSmt.Proofs.Lowering.Field
import RelSmt.Proofs.Relational.Meaning
import RelSmt.Proofs.Relational.Capture
import RelSmt.Proofs.Lowering.DistinctNames
import RelSmt.Proofs.Lowering.Supply
import RelSmt.Proofs.Lowering.FreshNames
import RelSmt.Proofs.Lowering.Hierarchy
import RelSmt.Proofs.Lowering.Resolution
import RelSmt.Proofs.Lowering.Command
import RelSmt.Proofs.Lowering.Columns
import RelSmt.Proofs.Lowering.Grouping
import RelSmt.Proofs.Lowering.Comprehension
import RelSmt.Proofs.Lowering.Labels
import RelSmt.Proofs.Lowering.Recursion
import RelSmt.Proofs.Program.Script
import RelSmt.Proofs.Model.Roundtrip
import RelSmt.Proofs.Model.Instance
import RelSmt.Proofs.Model.WellSorted
import RelSmt.Proofs.Model.Extents
import RelSmt.Proofs.Model.UnsatCore
import RelSmt.Proofs.Model.Values
import RelSmt.Proofs.Evaluation.Folded
import RelSmt.Proofs.Evaluation.Soundness
import RelSmt.Proofs.Evaluation.Termination
import RelSmt.Proofs.Evaluation.Integers
import RelSmt.Proofs.Model.Lookup
import RelSmt.Proofs.Solving
import RelSmt.Proofs.Lowering.Overloads
