import BasicEncoding.Identifier
import BasicEncoding.Length
import BasicEncoding.Universal
import BasicEncoding.Header
import BasicEncoding.Limits
import BasicEncoding.Real
import BasicEncoding.ObjectIdentifier
import BasicEncoding.ObjectIdentifier.Content
import BasicEncoding.ObjectIdentifier.Dotted
import BasicEncoding.Text.Quoted
import BasicEncoding.Decimal.Shortest
import BasicEncoding.Note
import BasicEncoding.Value.Content
import BasicEncoding.Element.Encode
import BasicEncoding.Element.Outline
import BasicEncoding.Parse.Element
import BasicEncoding.Cursor
import BasicEncoding.Writer
import BasicEncoding.DataForm
import BasicEncoding.Intake
import BasicEncoding.Stream
import BasicEncoding.Proofs.Words
import BasicEncoding.Proofs.Integer.Accumulator
import BasicEncoding.Proofs.Integer.RoundTrip
import BasicEncoding.Proofs.Header.RoundTrip
import BasicEncoding.Proofs.ObjectIdentifier.RoundTrip
import BasicEncoding.Proofs.Value.RoundTrip
import BasicEncoding.Proofs.Real.Range
import BasicEncoding.Proofs.Element.Nodes
import BasicEncoding.Proofs.Parse.Outcome
import BasicEncoding.Proofs.Element.Encodable
import BasicEncoding.Proofs.Source.Taking
import BasicEncoding.Proofs.Element.RoundTrip
import BasicEncoding.Proofs.Assembly.Outlook
import BasicEncoding.Proofs.Intake.Agreement
import BasicEncoding.Proofs.Element.Decoded
import BasicEncoding.Proofs.Element.Reencoding
import BasicEncoding.Proofs.Parse.Prompt
import BasicEncoding.Proofs.Parse.Begun
import BasicEncoding.Proofs.Grammar.Derivation
import BasicEncoding.Proofs.Grammar.Acceptance
import BasicEncoding.Proofs.Element.Caches
import BasicEncoding.Proofs.Source.Truncation
import BasicEncoding.Proofs.Stream.Interleaving
import BasicEncoding.Proofs.Spelling
import BasicEncoding.Proofs.Header.Spelling
import BasicEncoding.Proofs.Header.Decision
import BasicEncoding.Proofs.Intake.Found
import BasicEncoding.Proofs.Element.Operations
import BasicEncoding.Proofs.Parse.Limits
import BasicEncoding.Proofs.Intake.Limits
import BasicEncoding.Proofs.Integer.Shortest
import BasicEncoding.Proofs.Chains
import BasicEncoding.Proofs.ObjectIdentifier.Contents
import BasicEncoding.Proofs.Real.Exact
import BasicEncoding.Proofs.Header.Answers
import BasicEncoding.Proofs.Grammar.Framings
import BasicEncoding.Proofs.Grammar.Unfinished
import BasicEncoding.Proofs.Intake.Faults
import BasicEncoding.Proofs.Assembly.Buffers
import BasicEncoding.Proofs.Intake.Buffers
import BasicEncoding.Proofs.Stream.LateReads
import BasicEncoding.Proofs.Integer.Written
import BasicEncoding.Proofs.Real.Making
import BasicEncoding.Proofs.Real.Layout
import BasicEncoding.Proofs.Real.Special
import BasicEncoding.Proofs.Element.Survival
import BasicEncoding.Proofs.Cursor.Typed
import BasicEncoding.Proofs.Element.Canonical
import BasicEncoding.Proofs.Element.Annotations
import BasicEncoding.Proofs.ObjectIdentifier.Dotted
