import FeatureQuery.Condition
import FeatureQuery.Condition.Document
import FeatureQuery.Condition.Error
import FeatureQuery.Condition.Evaluate
import FeatureQuery.Condition.Parser
import FeatureQuery.Config
import FeatureQuery.Config.Reader
import FeatureQuery.Config.Source
import FeatureQuery.History
import FeatureQuery.Json.Escaped
import FeatureQuery.Json.Fault
import FeatureQuery.Json.Lexeme
import FeatureQuery.Json.Number
import FeatureQuery.Json.Skip
import FeatureQuery.Json.Value
import FeatureQuery.Key
import FeatureQuery.Log
import FeatureQuery.Main
import FeatureQuery.Outcomes
import FeatureQuery.Program
import FeatureQuery.Query
import FeatureQuery.Session
import FeatureQuery.Session.Command
import FeatureQuery.Text.Basic
import FeatureQuery.Text.Blank
import FeatureQuery.Text.Lines
import FeatureQuery.Text.Lowercase
import FeatureQuery.Text.Quoted
import FeatureQuery.Token
import FeatureQuery.Token.Body
import FeatureQuery.Token.Lexer
import FeatureQuery.Token.Listing
import FeatureQuery.Proofs.Phrase
import FeatureQuery.Proofs.Reading
import FeatureQuery.Proofs.Acceptance
import FeatureQuery.Proofs.Refusal
import FeatureQuery.Proofs.Composition
import FeatureQuery.Proofs.Answer
import FeatureQuery.Proofs.Body
import FeatureQuery.Proofs.Lexeme
import FeatureQuery.Proofs.Cutting
import FeatureQuery.Proofs.Restart
import FeatureQuery.Proofs.Coverage
import FeatureQuery.Proofs.Spread
import FeatureQuery.Proofs.View
import FeatureQuery.Proofs.Layout
import FeatureQuery.Proofs.Recasing
import FeatureQuery.Proofs.Paths
import FeatureQuery.Proofs.Descent
import FeatureQuery.Proofs.Calls
import FeatureQuery.Proofs.Unlimited
import FeatureQuery.Proofs.Limit
import FeatureQuery.Proofs.Truth
import FeatureQuery.Proofs.Key
import FeatureQuery.Proofs.Shape
import FeatureQuery.Proofs.Silence
import FeatureQuery.Proofs.Requirement
import FeatureQuery.Proofs.Balance
import FeatureQuery.Proofs.Written
import FeatureQuery.Proofs.Decoding
import FeatureQuery.Proofs.Memory
import FeatureQuery.Proofs.Piped
import FeatureQuery.Proofs.Argument
import FeatureQuery.Proofs.Succession
import FeatureQuery.Proofs.Spelling
import FeatureQuery.Proofs.Squeezed
import FeatureQuery.Proofs.Bytes
import FeatureQuery.Proofs.Boundary
import FeatureQuery.Proofs.Scanner
import FeatureQuery.Proofs.Padding
import FeatureQuery.Proofs.Closers
import FeatureQuery.Proofs.Unbalanced
import FeatureQuery.Proofs.Unclosed
import FeatureQuery.Proofs.Recorded
import FeatureQuery.Proofs.Grammar
import FeatureQuery.Proofs.Settings
