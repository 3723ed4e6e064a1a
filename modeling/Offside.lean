import Offside.Main
import Offside.Proofs.WellNested
import Offside.Proofs.Layout.Grammar
import Offside.Proofs.Layout.Spacing
import Offside.Proofs.Reindentation
import Offside.Proofs.Helpers
import Offside.Proofs.Comments
import Offside.Proofs.CaseBody
import Offside.Proofs.Transparency
import Offside.Proofs.Parameters
import Offside.Proofs.TemplateParameters
import Offside.Proofs.InFunction
import Offside.Proofs.Decrement
import Offside.Proofs.OneLine
import Offside.Proofs.WordStream
import Offside.Proofs.FaultChain
import Offside.Proofs.OutputPath
import Offside.Proofs.FirstFailure
import Offside.Proofs.Layout.Lossless
import Offside.Proofs.Suggestion
