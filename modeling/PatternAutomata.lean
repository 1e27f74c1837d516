import PatternAutomata.Main
import PatternAutomata.Tree.Draft
import PatternAutomata.Proofs.Tree.Arena
import PatternAutomata.Proofs.Tree.Forest
import PatternAutomata.Proofs.Tree.Growth
import PatternAutomata.Proofs.Step.Moves
import PatternAutomata.Proofs.Step.Tour
import PatternAutomata.Proofs.Step.Deliveries
import PatternAutomata.Proofs.Step.Exhaustive
import PatternAutomata.Proofs.Tree.Copy
import PatternAutomata.Proofs.Tree.Shape
import PatternAutomata.Proofs.Tree.Placing
import PatternAutomata.Proofs.Tree.Sources
import PatternAutomata.Proofs.Tree.Alike
import PatternAutomata.Proofs.Tree.Wrap
import PatternAutomata.Proofs.Tree.Regular
import PatternAutomata.Proofs.Tree.Finish
import PatternAutomata.Proofs.Tree.Lead
import PatternAutomata.Proofs.Step.Completeness
import PatternAutomata.Proofs.CodePoint.Algebra
import PatternAutomata.Proofs.CodePoint.Members
import PatternAutomata.Proofs.CodePoint.Lookup
import PatternAutomata.Proofs.CodePoint.Checked
import PatternAutomata.Proofs.CodePoint.Normal
import PatternAutomata.Proofs.CodePoint.Written
import PatternAutomata.Proofs.Pattern.Classes
import PatternAutomata.Proofs.Step.Partition
import PatternAutomata.Proofs.Step.Priority
import PatternAutomata.Proofs.Automaton.Assembly
import PatternAutomata.Proofs.Automaton.Expansion
import PatternAutomata.Proofs.Automaton.Fixed
import PatternAutomata.Proofs.Automaton.Branches
import PatternAutomata.Proofs.Automaton.Realize
import PatternAutomata.Proofs.Automaton.Origins
import PatternAutomata.Proofs.Automaton.Links
import PatternAutomata.Proofs.Language.Matches
import PatternAutomata.Proofs.Language.Walks
import PatternAutomata.Proofs.Language.Tracks
import PatternAutomata.Proofs.Language.Recognition
import PatternAutomata.Proofs.Language.Runs
import PatternAutomata.Proofs.Language.Distance
import PatternAutomata.Proofs.Language.Anchoring
import PatternAutomata.Proofs.Automaton.Room
import PatternAutomata.Proofs.Automaton.Bounds
import PatternAutomata.Proofs.Automaton.Closure
import PatternAutomata.Proofs.Automaton.Coherence
import PatternAutomata.Proofs.Automaton.LoopBacks
import PatternAutomata.Proofs.Automaton.Ahead
import PatternAutomata.Proofs.Automaton.Predecessors
import PatternAutomata.Proofs.Step.Slots
import PatternAutomata.Proofs.Automaton.Slots
import PatternAutomata.Proofs.Language.Search
import PatternAutomata.Proofs.Tree.Filling
import PatternAutomata.Proofs.Language.Mirrors
import PatternAutomata.Proofs.Language.Powers
import PatternAutomata.Proofs.Language.Quantifiers
import PatternAutomata.Proofs.Tree.Whole
import PatternAutomata.Proofs.Tree.WellFormed
import PatternAutomata.Proofs.Tree.Nested
import PatternAutomata.Proofs.Tree.Peopled
import PatternAutomata.Proofs.Tree.Measured
import PatternAutomata.Proofs.Language.Strolls
import PatternAutomata.Proofs.Step.Events
import PatternAutomata.Proofs.Step.Iterations
import PatternAutomata.Proofs.Step.Checked
import PatternAutomata.Proofs.Step.Contexts
import PatternAutomata.Proofs.Step.Reentry
import PatternAutomata.Proofs.Step.Doubling
import PatternAutomata.Proofs.Step.Ending
import PatternAutomata.Proofs.Automaton.Draining
import PatternAutomata.Proofs.Pattern.Grammar
import PatternAutomata.Proofs.Pattern.Reading
import PatternAutomata.Proofs.Pattern.Acceptance
import PatternAutomata.Proofs.Pattern.Cursor
import PatternAutomata.Proofs.Pattern.Agreement
import PatternAutomata.Proofs.Pattern.Inside
import PatternAutomata.Proofs.Pattern.Memory
import PatternAutomata.Proofs.Pattern.ReadBack
import PatternAutomata.Proofs.Pattern.Positions
import PatternAutomata.Proofs.Pattern.Spelling
import PatternAutomata.Proofs.Pattern.Braced
import PatternAutomata.Proofs.Tree.Sizes
import PatternAutomata.Proofs.Tree.Watched
import PatternAutomata.Proofs.Tree.Allowance
import PatternAutomata.Proofs.Settings.Options
import PatternAutomata.Proofs.Tree.Isomorphism
import PatternAutomata.Proofs.Tree.Bodies
import PatternAutomata.Proofs.Pattern.Characters
