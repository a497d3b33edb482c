import BlockLang.Main
import BlockLang.Proofs.Emit
import BlockLang.Proofs.Layout.Expr
import BlockLang.Proofs.Layout.Stmt
import BlockLang.Proofs.Parsing
import BlockLang.Proofs.Typing.Expr
import BlockLang.Proofs.View
import BlockLang.Proofs.Typing.Stmt
import BlockLang.Proofs.Evaluator.Expr
import BlockLang.Proofs.Rules.Expr
import BlockLang.Proofs.Rules.Stmt
import BlockLang.Proofs.Running
import BlockLang.Proofs.Performing
import BlockLang.Proofs.Simulation.Follows
import BlockLang.Proofs.Simulation.Expr
import BlockLang.Proofs.Evaluator.Stmt
import BlockLang.Proofs.Simulation.Stmt
import BlockLang.Proofs.Compilation
import BlockLang.Proofs.Correctness
import BlockLang.Proofs.Shapes.Flow
import BlockLang.Proofs.Shapes.Expr
import BlockLang.Proofs.Shapes.Run
import BlockLang.Proofs.Format
import BlockLang.Proofs.Validity
import BlockLang.Proofs.Safety
import BlockLang.Proofs.Excerpt
import BlockLang.Proofs.Conditions
import BlockLang.Proofs.Resolution
import BlockLang.Proofs.Generation.Expr
import BlockLang.Proofs.Generation.Stmt
import BlockLang.Proofs.Reading.Steps
import BlockLang.Proofs.Reading.Expr
import BlockLang.Proofs.Grammar
import BlockLang.Proofs.Printing.Words
import BlockLang.Proofs.Printing.Scanning
import BlockLang.Proofs.Printing.Rows
import BlockLang.Proofs.Printing.Expr
import BlockLang.Proofs.Printing.Stmt
import BlockLang.Proofs.Generation.Labels
import BlockLang.Proofs.Typing.Promotion
import BlockLang.Proofs.Allocation
import BlockLang.Proofs.Reading.Depth
import BlockLang.Proofs.Relabeling.Typing
import BlockLang.Proofs.Relabeling.Code
import BlockLang.Proofs.Relabeling.Reading
import BlockLang.Proofs.Spacing
import BlockLang.Proofs.Generation.Demands
import BlockLang.Proofs.Typing.Erasure
import BlockLang.Proofs.Typing.Beside
import BlockLang.Proofs.Typing.Repetition
import BlockLang.Proofs.Holes
import BlockLang.Proofs.Typing.Replacement
import BlockLang.Proofs.Limits
import BlockLang.Proofs.Outlining.Lines
import BlockLang.Proofs.Outlining.Trees
import BlockLang.Proofs.Cutting.Lexemes
import BlockLang.Proofs.Cutting.Tiles
import BlockLang.Proofs.Locating
import BlockLang.Proofs.Viable.Steps
import BlockLang.Proofs.Viable.Outcomes
import BlockLang.Proofs.Viable.Expr
import BlockLang.Proofs.Viable.Stmt
import BlockLang.Proofs.Viable.Program
import BlockLang.Proofs.Cutting.Literals
import BlockLang.Proofs.Truncation
import BlockLang.Proofs.Bookkeeping
import BlockLang.Proofs.Typing.Frame
import BlockLang.Proofs.Decoding
import BlockLang.Proofs.Relabeling.Renaming
import BlockLang.Proofs.IntLiterals
import BlockLang.Proofs.Rooms
