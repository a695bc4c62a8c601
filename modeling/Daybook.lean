import Daybook.Diagnostic.Layout
import Daybook.Journal.Json
import Daybook.Journal.Value
import Daybook.Reading
import Daybook.Text.Width
import Daybook.Written.Json
import Daybook.Proofs.Lexeme.Line
import Daybook.Proofs.Lexeme.Cut
import Daybook.Proofs.Lexeme.Whole
import Daybook.Proofs.Lexeme.AccountName
import Daybook.Proofs.Lexeme.Date
import Daybook.Proofs.Token.Line
import Daybook.Proofs.Token.Step
import Daybook.Proofs.Token.Cover
import Daybook.Proofs.Token.Grounded
import Daybook.Proofs.Token.Append
import Daybook.Proofs.Token.Row
import Daybook.Proofs.Token.Returns
import Daybook.Proofs.Token.Reads
import Daybook.Proofs.Token.Cut
import Daybook.Proofs.Token.Stretch
import Daybook.Proofs.Token.Standing
import Daybook.Proofs.Token.Lines
import Daybook.Proofs.Token.Indented
import Daybook.Proofs.Token.Chunks
import Daybook.Proofs.Token.Accounts
import Daybook.Proofs.Token.Dropped
import Daybook.Proofs.Token.Comment
import Daybook.Proofs.Token.Tags
import Daybook.Proofs.Tree.OnTokens
import Daybook.Proofs.Written.OnTokens
import Daybook.Proofs.Written.Stages
import Daybook.Proofs.Written.Accounts
import Daybook.Proofs.Written.Postings
import Daybook.Proofs.Written.Tells
import Daybook.Proofs.Written.Amounts
import Daybook.Proofs.Written.Comments
import Daybook.Proofs.Reading.Append
import Daybook.Proofs.Reading.Moved
import Daybook.Proofs.Reading.Returns
import Daybook.Proofs.Reading.Indented
import Daybook.Proofs.Reading.Apart
import Daybook.Proofs.Reading.Kept
import Daybook.Proofs.Reading.Refused
import Daybook.Proofs.Reading.Dates
import Daybook.Proofs.Reading.Comments
import Daybook.Proofs.Reading.Dropped
import Daybook.Proofs.Reading.Header
import Daybook.Proofs.Reading.Accounts
import Daybook.Proofs.Reading.AmountText
import Daybook.Proofs.Reading.Tags
import Daybook.Proofs.Reading.Orders
import Daybook.Proofs.Tree.Production
import Daybook.Proofs.Tree.Reads
import Daybook.Proofs.Tree.Rules
import Daybook.Proofs.Tree.Exact
import Daybook.Proofs.Tree.Slots
import Daybook.Proofs.Tree.Near
import Daybook.Proofs.Tree.Unseen
import Daybook.Proofs.Tree.Through
import Daybook.Proofs.Tree.Region
import Daybook.Proofs.Tree.Partition
import Daybook.Proofs.Tree.Boundary
import Daybook.Proofs.Tree.Opening
import Daybook.Proofs.Tree.Spans
import Daybook.Proofs.Json.Form
import Daybook.Proofs.Written.Json
import Daybook.Proofs.Journal.Decimal
import Daybook.Proofs.Journal.Quantity
import Daybook.Proofs.Journal.Date
import Daybook.Proofs.Journal.Calendar
import Daybook.Proofs.Journal.Json
import Daybook.Proofs.Journal.DefaultYear
import Daybook.Proofs.Journal.Tags
import Daybook.Proofs.Token.Spelled
import Daybook.Proofs.Token.Places
import Daybook.Proofs.Token.Modes
import Daybook.Proofs.Token.Bytes
import Daybook.Proofs.Token.Atoms
import Daybook.Proofs.Token.Trimmed
import Daybook.Proofs.Token.Unknown
import Daybook.Proofs.Tree.FirstLine
import Daybook.Proofs.Reading.Unended
import Daybook.Proofs.Reading.Signs
