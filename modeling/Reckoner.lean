import Reckoner.Access
import Reckoner.Batch
import Reckoner.Calculator
import Reckoner.CommandLine
import Reckoner.CommandLine.Arguments
import Reckoner.Decimal.Basic
import Reckoner.Decimal.Digits
import Reckoner.Decimal.Extended
import Reckoner.Decimal.Fixed
import Reckoner.Decimal.Power
import Reckoner.Decimal.Quotient
import Reckoner.Decimal.Range
import Reckoner.Decimal.Residue
import Reckoner.Decimal.Scientific
import Reckoner.Decimal.Shortest
import Reckoner.Error
import Reckoner.Expression
import Reckoner.Lexeme
import Reckoner.Literal
import Reckoner.Log
import Reckoner.Main
import Reckoner.Numeral
import Reckoner.Operator
import Reckoner.Operator.Apply
import Reckoner.Postfix
import Reckoner.Postfix.Evaluate
import Reckoner.Session
import Reckoner.Settings
import Reckoner.Storage
import Reckoner.Text.Blank
import Reckoner.Text.Csv
import Reckoner.Text.Digit
import Reckoner.Text.Integer
import Reckoner.Text.Line
import Reckoner.Text.Printable
import Reckoner.Text.Quoted
import Reckoner.Text.Range
import Reckoner.Token
import Reckoner.Token.Scan
import Reckoner.Proofs.Basic
import Reckoner.Proofs.Grammar
import Reckoner.Proofs.Height
import Reckoner.Proofs.Seams
import Reckoner.Proofs.Quotient
import Reckoner.Proofs.Exact
import Reckoner.Proofs.Plain
import Reckoner.Proofs.Rounding
import Reckoner.Proofs.Reading
import Reckoner.Proofs.Nesting
import Reckoner.Proofs.Placement
import Reckoner.Proofs.Adjacency
import Reckoner.Proofs.Segments
import Reckoner.Proofs.Spelling
import Reckoner.Proofs.Scanning
import Reckoner.Proofs.Rendering
import Reckoner.Proofs.Dialogue
import Reckoner.Proofs.Document
import Reckoner.Proofs.Agreement
import Reckoner.Proofs.Messages
import Reckoner.Proofs.Table
import Reckoner.Proofs.LongQuotient
import Reckoner.Proofs.Overflow
import Reckoner.Proofs.Reports
import Reckoner.Proofs.Reach
import Reckoner.Proofs.Trees
import Reckoner.Proofs.PlainForm
import Reckoner.Proofs.Division
import Reckoner.Proofs.Saving
import Reckoner.Proofs.Powers
import Reckoner.Proofs.Remainder
import Reckoner.Proofs.Ring
import Reckoner.Proofs.Restored
import Reckoner.Proofs.Groups
import Reckoner.Proofs.Signs
import Reckoner.Proofs.Culprits
import Reckoner.Proofs.Gaps
import Reckoner.Proofs.Loading
import Reckoner.Proofs.Ranking
import Reckoner.Proofs.Indexed
import Reckoner.Proofs.Operands
import Reckoner.Proofs.Arrangement
