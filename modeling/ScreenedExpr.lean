import ScreenedExpr.Main
import ScreenedExpr.Journal
import ScreenedExpr.Double.Bits
import ScreenedExpr.Proofs.Demand
import ScreenedExpr.Proofs.Screening
import ScreenedExpr.Proofs.SourceLanguage
import ScreenedExpr.Proofs.OwnData
import ScreenedExpr.Proofs.Layout
import ScreenedExpr.Proofs.Parser.Lockstep
import ScreenedExpr.Proofs.Limits
import ScreenedExpr.Proofs.Parser.Viable
import ScreenedExpr.Proofs.Inlining
import ScreenedExpr.Proofs.Size
import ScreenedExpr.Proofs.Verdict
import ScreenedExpr.Proofs.FieldCondition
import ScreenedExpr.Proofs.Lexer.Longest
import ScreenedExpr.Proofs.WholeWords
import ScreenedExpr.Proofs.LooseEquality
import ScreenedExpr.Proofs.RelationalOrder
import ScreenedExpr.Proofs.TextOrder
import ScreenedExpr.Proofs.NumericText
import ScreenedExpr.Proofs.Shortest
import ScreenedExpr.Proofs.NumberText
import ScreenedExpr.Proofs.NumericKeys
import ScreenedExpr.Proofs.StringUnits
import ScreenedExpr.Proofs.Documents
import ScreenedExpr.Proofs.ReadingBack
import ScreenedExpr.Proofs.Lexer.Progress
import ScreenedExpr.Proofs.Lexer.Strings
import ScreenedExpr.Proofs.Lexer.Faults
import ScreenedExpr.Expr.Parser.Machine
import ScreenedExpr.Proofs.Parser.Machine
import ScreenedExpr.Proofs.Parser.Requests
import ScreenedExpr.Proofs.Parser.Reuse
import ScreenedExpr.Proofs.Parser.Heights
