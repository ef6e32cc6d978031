import SearchFilter.Json.Printer
import SearchFilter.Json.Reader
import SearchFilter.Main
import SearchFilter.Proofs.Compiler.Alignment
import SearchFilter.Proofs.Compiler.Bounds
import SearchFilter.Schema.Inference
import SearchFilter.Tree.Json
import SearchFilter.Proofs.Render.Numeral
import SearchFilter.Proofs.Render.Statement
import SearchFilter.Proofs.Tree.Skeleton
import SearchFilter.Proofs.Render.Reading
import SearchFilter.Proofs.Render.Certainty
import SearchFilter.Proofs.Render.Structure
import SearchFilter.Proofs.Compiler.Lookup
import SearchFilter.Proofs.Grammar.Nesting
import SearchFilter.Proofs.Query.Height
import SearchFilter.Proofs.Compiler.Expansion
import SearchFilter.Proofs.Grammar.Quotation
import SearchFilter.Proofs.Compiler.Literal
import SearchFilter.Proofs.Compiler.Naming
import SearchFilter.Proofs.Render.Shape
import SearchFilter.Proofs.Number.Rounding
import SearchFilter.Proofs.Number.Spelling
import SearchFilter.Proofs.Grammar.Printed
import SearchFilter.Proofs.Render.Failure
import SearchFilter.Proofs.Compiler.Form
import SearchFilter.Proofs.Grammar.Operand
import SearchFilter.Proofs.Grammar.Pattern
import SearchFilter.Proofs.Compiler.Signs
import SearchFilter.Proofs.Query.Mention
import SearchFilter.Proofs.Compiler.Part
import SearchFilter.Proofs.Compiler.Spacing
import SearchFilter.Proofs.Render.Dialects
import SearchFilter.Proofs.Compiler.Coverage
import SearchFilter.Proofs.Compiler.Blank
import SearchFilter.Proofs.Compiler.Search
import SearchFilter.Proofs.Pattern.Core
import SearchFilter.Proofs.Pattern.Matching
import SearchFilter.Proofs.Pattern.Shape
import SearchFilter.Proofs.Grammar.Enclosure
import SearchFilter.Proofs.Grammar.Precedence
import SearchFilter.Proofs.Grammar.Comparison
import SearchFilter.Proofs.Grammar.Power
import SearchFilter.Proofs.Render.Identifier
import SearchFilter.Proofs.Compiler.Integer
import SearchFilter.Proofs.Schema.Nested
import SearchFilter.Proofs.Command.Report
import SearchFilter.Proofs.Grammar.Location
import SearchFilter.Proofs.Schema.Indirection
import SearchFilter.Proofs.Query.Masking
