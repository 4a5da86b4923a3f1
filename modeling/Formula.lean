import Formula.Predicate
import Formula.Json
import Formula.Proofs.Purity
import Formula.Proofs.Operator.Tables
import Formula.Proofs.Predicate.Agreement
import Formula.Proofs.Text.Classes
import Formula.Proofs.Token.Cursor
import Formula.Proofs.Token.Lexeme
import Formula.Proofs.Tree.Printing
import Formula.Proofs.Tree.Reparsing
import Formula.Proofs.Nesting
import Formula.Proofs.Tree.Balance
import Formula.Proofs.Place
import Formula.Proofs.Segment
import Formula.Proofs.Tree.Places
import Formula.Proofs.Exactness
import Formula.Proofs.Tree.Lockstep
import Formula.Proofs.Comparison
import Formula.Proofs.Levels
import Formula.Proofs.Composition
import Formula.Proofs.Constants
import Formula.Proofs.Declarations
import Formula.Proofs.Eager
import Formula.Proofs.Dialogue
import Formula.Proofs.Division
import Formula.Proofs.Token.Front
import Formula.Proofs.Structure
import Formula.Proofs.Source
import Formula.Proofs.Limits
import Formula.Proofs.Course
import Formula.Proofs.Termination
import Formula.Proofs.Predicate.Reads
import Formula.Proofs.Tree.Chains
import Formula.Proofs.Tree.Captures
import Formula.Proofs.Tree.Turns
import Formula.Proofs.Text.Folding
import Formula.Proofs.Tree.Pairing
import Formula.Proofs.Tree.Parenthesized
import Formula.Proofs.Token.Seam
import Formula.Proofs.Likeness
import Formula.Proofs.Spacing
import Formula.Proofs.Token.Case
import Formula.Proofs.LetterCase
import Formula.Proofs.Token.Enclosure
import Formula.Proofs.Token.Respacing
import Formula.Proofs.Predicate.Typing
import Formula.Proofs.Predicate.Compilation
import Formula.Proofs.Wrapping
import Formula.Proofs.Tree.Budget
import Formula.Proofs.Tree.Overrun
import Formula.Proofs.Connectives
import Formula.Proofs.Operator.Elementwise
import Formula.Proofs.Registration
import Formula.Proofs.BlankLists
import Formula.Proofs.Operator.Bitwise
import Formula.Proofs.Tree.Polish
import Formula.Proofs.Decimal.Grammar
import Formula.Proofs.Token.Munch
import Formula.Proofs.Json.RoundTrip
