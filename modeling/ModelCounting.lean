import ModelCounting.Circuit.Check
import ModelCounting.Circuit.Compile
import ModelCounting.Proofs.Junction
import ModelCounting.Proofs.History
import ModelCounting.Proofs.Clausal
import ModelCounting.Proofs.Answer
import ModelCounting.Proofs.ClauseSet
import ModelCounting.Proofs.Circuit
import ModelCounting.Proofs.IndexSet
import ModelCounting.Proofs.Run
import ModelCounting.Proofs.Numbering
import ModelCounting.Proofs.Preparation
import ModelCounting.Proofs.Determinism
import ModelCounting.Proofs.Search.Solving
import ModelCounting.Proofs.Search.Stepping
import ModelCounting.Proofs.Finishing
import ModelCounting.Proofs.Termination
import ModelCounting.Proofs.Placement
import ModelCounting.Proofs.Safety
import ModelCounting.Proofs.Caching
import ModelCounting.Proofs.Budget
import ModelCounting.Proofs.Recompilation
import ModelCounting.Proofs.Replay
import ModelCounting.Proofs.Sharing
import ModelCounting.Proofs.Search.Progress
import ModelCounting.Proofs.Search.Answering
import ModelCounting.Proofs.Search.Requests
import ModelCounting.Proofs.Search.Pairing
import ModelCounting.Proofs.Search.Rounds
import ModelCounting.Proofs.Search.Confluence
import ModelCounting.Proofs.Gates
import ModelCounting.Proofs.FiniteSet
import ModelCounting.Proofs.Satisfiability
import ModelCounting.Proofs.Shapes
import ModelCounting.Proofs.Backbone
import ModelCounting.Proofs.Repetition
import ModelCounting.Proofs.Search.Indifference
import ModelCounting.Proofs.Indifference
import ModelCounting.Proofs.Steps
import ModelCounting.Proofs.Coverage
import ModelCounting.Proofs.Returning
import ModelCounting.Proofs.Counting
import ModelCounting.Proofs.Conversion
import ModelCounting.Proofs.Simplification
import ModelCounting.Proofs.Restriction
import ModelCounting.Proofs.Construction
import ModelCounting.Proofs.Subsumption
import ModelCounting.Proofs.Composition
import ModelCounting.Proofs.Elimination
import ModelCounting.Proofs.Search.Naming
import ModelCounting.Proofs.Separators
import ModelCounting.Proofs.Checking
import ModelCounting.Proofs.Search.Service
import ModelCounting.Proofs.SubproblemKey
import ModelCounting.Proofs.Shrinking
import ModelCounting.Proofs.Leaf
import ModelCounting.Proofs.Display
import ModelCounting.Proofs.Exactness
import ModelCounting.Proofs.Lessons
