import Salvage.CommandLine
import Salvage.Csv.Import
import Salvage.Ddl.Table
import Salvage.Form.Column
import Salvage.Form.Schema
import Salvage.Json.Extraction
import Salvage.Json.Writer
import Salvage.Main
import Salvage.Recovery
import Salvage.Text.Encoding
import Salvage.Proofs.Csv.Written
import Salvage.Proofs.Csv.Detection
import Salvage.Proofs.Csv.Candidates
import Salvage.Proofs.Csv.Uniform
import Salvage.Proofs.Json.Numeral
import Salvage.Proofs.Json.Reading
import Salvage.Proofs.Json.Braces
import Salvage.Proofs.Json.Span
import Salvage.Proofs.Text.Pattern
import Salvage.Proofs.Json.Region
import Salvage.Proofs.Json.Prose
import Salvage.Proofs.Json.Unfenced
import Salvage.Proofs.Json.Fenced
import Salvage.Proofs.Text.Word
import Salvage.Proofs.Ddl.Opening
import Salvage.Proofs.Ddl.Independence
import Salvage.Proofs.Ddl.Written
import Salvage.Proofs.Ddl.Statements
import Salvage.Proofs.Ddl.Lexemes
import Salvage.Proofs.Ddl.Depth
import Salvage.Proofs.Ddl.Keywords
import Salvage.Proofs.Ddl.Comments
import Salvage.Proofs.Json.Outcome
import Salvage.Proofs.Csv.Grammar
import Salvage.Proofs.Csv.Import
import Salvage.Proofs.Json.SingleQuotes
import Salvage.Proofs.Json.Quotes
import Salvage.Proofs.Json.MixedQuotes
import Salvage.Proofs.Json.Erasure
import Salvage.Proofs.Csv.Isolation
import Salvage.Proofs.Csv.Scan
import Salvage.Proofs.Csv.Mark
import Salvage.Proofs.Ddl.LineFeeds
import Salvage.Proofs.Ddl.LineEnds
import Salvage.Proofs.Ddl.Recovered
import Salvage.Proofs.Form.Convention
import Salvage.Proofs.Form.Rereading
import Salvage.Proofs.Form.Arrangement
import Salvage.Proofs.Recovery
import Salvage.Proofs.Ddl.Boundaries
import Salvage.Proofs.Csv.Mode
