import ArgTree.CaretMark
import ArgTree.Json
import ArgTree.Report
import ArgTree.Value.Path
import ArgTree.Proofs.Parser.Leaves
import ArgTree.Proofs.Syntax.Acceptance
import ArgTree.Proofs.Parser.Locations
import ArgTree.Proofs.Written.Rewriting
import ArgTree.Proofs.Parser.Starts
import ArgTree.Proofs.Parser.Brackets
import ArgTree.Proofs.Parser.Levels
import ArgTree.Proofs.Written.Padding
import ArgTree.Proofs.Written.Regrouping
import ArgTree.Proofs.Parser.Unreached
import ArgTree.Proofs.Parser.ErrorKinds
import ArgTree.Proofs.Parser.Hashes
import ArgTree.Proofs.Parser.Verbatim
import ArgTree.Proofs.Parser.Heights
import ArgTree.Proofs.Syntax.Deepest
import ArgTree.Proofs.Written.CallDepth
import ArgTree.Proofs.Lexing.Gluing
import ArgTree.Proofs.Lexing.Failures
import ArgTree.Proofs.Lexing.Consumption
import ArgTree.Proofs.Written.Quoting
import ArgTree.Proofs.Value.Paths
import ArgTree.Proofs.ParseError.Renderings
import ArgTree.Proofs.Json.Texts
