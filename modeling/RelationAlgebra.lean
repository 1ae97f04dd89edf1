import RelationAlgebra.Main
import RelationAlgebra.Proofs.Binding
import RelationAlgebra.Proofs.Search
import RelationAlgebra.Session.Run
import RelationAlgebra.Proofs.Extension
import RelationAlgebra.Proofs.Reading
import RelationAlgebra.Proofs.Except
import RelationAlgebra.Proofs.Store
import RelationAlgebra.Proofs.Construction
import RelationAlgebra.Proofs.Session
import RelationAlgebra.Proofs.Agreement
import RelationAlgebra.Proofs.Unbound
import RelationAlgebra.Proofs.Composition
import RelationAlgebra.Proofs.Expression
import RelationAlgebra.Proofs.Calculus
import RelationAlgebra.Proofs.Lattice
import RelationAlgebra.Proofs.Join
import RelationAlgebra.Proofs.Union
import RelationAlgebra.Proofs.Closure
import RelationAlgebra.Proofs.Membership
import RelationAlgebra.Proofs.Complement
import RelationAlgebra.Proofs.DoubleComplement
import RelationAlgebra.Proofs.Commutativity
import RelationAlgebra.Proofs.Frame
import RelationAlgebra.Proofs.InPlace
import RelationAlgebra.Proofs.Atomicity
import RelationAlgebra.Proofs.Guard
import RelationAlgebra.Proofs.Commit
import RelationAlgebra.Proofs.Declared
import RelationAlgebra.Proofs.Consistency
import RelationAlgebra.Proofs.Installation
import RelationAlgebra.Proofs.Json.Text
import RelationAlgebra.Proofs.Json.Token
import RelationAlgebra.Proofs.Json
import RelationAlgebra.Proofs.Format
import RelationAlgebra.Proofs.DeMorgan
import RelationAlgebra.Proofs.Growth
import RelationAlgebra.Proofs.Monotonicity
import RelationAlgebra.Proofs.ComplementGrowth
import RelationAlgebra.Proofs.Renaming.Extension
import RelationAlgebra.Proofs.Renaming.Matching
import RelationAlgebra.Proofs.Renaming.Reading
import RelationAlgebra.Proofs.Renaming.Relation
import RelationAlgebra.Proofs.Renaming.Session
import RelationAlgebra.Proofs.Readmission
import RelationAlgebra.Proofs.NestedLoop
import RelationAlgebra.Proofs.Backtracking
import RelationAlgebra.Proofs.Action
import RelationAlgebra.Proofs.Recursion
import RelationAlgebra.Proofs.Termination
import RelationAlgebra.Proofs.Arity
import RelationAlgebra.Proofs.History
import RelationAlgebra.Proofs.Pattern
import RelationAlgebra.Proofs.Selection
import RelationAlgebra.Proofs.Projection
import RelationAlgebra.Proofs.Flattening
import RelationAlgebra.Proofs.Relabeling
import RelationAlgebra.Proofs.Inducer
import RelationAlgebra.Proofs.Insertion
import RelationAlgebra.Proofs.Batch
import RelationAlgebra.Proofs.Scan
import RelationAlgebra.Proofs.Sharing
import RelationAlgebra.Proofs.Equality
import RelationAlgebra.Proofs.Dependence
import RelationAlgebra.Proofs.Derivation
import RelationAlgebra.Proofs.Word
import RelationAlgebra.Proofs.Spelling
import RelationAlgebra.Proofs.Console
import RelationAlgebra.Proofs.Report
import RelationAlgebra.Proofs.Command
import RelationAlgebra.Proofs.Access
import RelationAlgebra.Proofs.Emission
import RelationAlgebra.Proofs.Fault
import RelationAlgebra.Proofs.Rounds
import RelationAlgebra.Proofs.Column
