import TextStream.Assembly.Log
import TextStream.Assembly.Tree
import TextStream.Grammar.Document
import TextStream.Grammar.Elementary
import TextStream.Grammar.Pairs
import TextStream.Grammar.Transcript
import TextStream.Proofs.Cursor.Keyword
import TextStream.Proofs.Cursor.Retention
import TextStream.Proofs.Cursor.Run
import TextStream.Proofs.Cursor.Subsequence
import TextStream.Proofs.Document.EscapeText
import TextStream.Proofs.Document.NumberText
import TextStream.Proofs.Document.RoundTrip
import TextStream.Proofs.Document.Termination
import TextStream.Proofs.Grammar.Transcript
import TextStream.Proofs.Session.Aftermath
import TextStream.Proofs.Session.Delivery
import TextStream.Proofs.Session.Diagnosis
import TextStream.Proofs.Session.Intake
import TextStream.Proofs.Session.Placement
import TextStream.Proofs.Session.Resumption
import TextStream.Proofs.Session.Schedule
import TextStream.Proofs.Text.Chunk
import TextStream.Proofs.Value.Tagged
import TextStream.Session.Finalize
import TextStream.Text.Chunk
