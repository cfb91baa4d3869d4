import AdaSupport.Link.Layout
import AdaSupport.Main
import AdaSupport.Program
import AdaSupport.Proofs.Digits
import AdaSupport.Proofs.Rounding
import AdaSupport.Proofs.Shortest
import AdaSupport.Proofs.Literal
import AdaSupport.Proofs.RealText
import AdaSupport.Proofs.Slots
import AdaSupport.Proofs.TextResults
import AdaSupport.Proofs.Chunks
import AdaSupport.Proofs.Execution
import AdaSupport.Proofs.Delivery
import AdaSupport.Proofs.EntrySearch
import AdaSupport.Proofs.Isolation
import AdaSupport.Proofs.LinkPlan
import AdaSupport.Proofs.IntegerText
import AdaSupport.Proofs.ReadBack
import AdaSupport.Proofs.DrawPositions
import AdaSupport.Proofs.Reports
import AdaSupport.Proofs.SlotTails
import AdaSupport.Proofs.LinePieces
import AdaSupport.Proofs.PrintedLines
import AdaSupport.Proofs.Prompts
import AdaSupport.Proofs.RepairedText
import AdaSupport.Proofs.LinkArguments
import AdaSupport.Proofs.HexadecimalScan
import AdaSupport.Proofs.Scaling
import AdaSupport.Proofs.DoubleRounding
import AdaSupport.Proofs.Spelling
import AdaSupport.Proofs.Agreement
import AdaSupport.Proofs.IntegerScan
import AdaSupport.Proofs.IntegerConversions
import AdaSupport.Proofs.LongestLiteral
import AdaSupport.Proofs.Truncation
import AdaSupport.Proofs.LineStorage
import AdaSupport.Proofs.DrawCounts
import AdaSupport.Proofs.InterruptedLines
import AdaSupport.Proofs.TokenLines
import AdaSupport.Proofs.Substrings
import AdaSupport.Proofs.TextExpressions
import AdaSupport.Proofs.BoundedSink
import AdaSupport.Proofs.EncodedText
import AdaSupport.Proofs.PathCheck
import AdaSupport.Proofs.DefaultOutput
import AdaSupport.Proofs.CheckedAccess
import AdaSupport.Proofs.CheckedScan
