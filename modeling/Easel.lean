import Easel.Main
import Easel.Command.Inspect
import Easel.Proofs.Command.Canvas
import Easel.Proofs.Command.Check
import Easel.Proofs.Command.Quoting
import Easel.Proofs.Grammar.Program
import Easel.Proofs.Layout.Meaning
import Easel.Proofs.Layout.Tokens
import Easel.Proofs.Parser.Order
import Easel.Proofs.Path.Below
import Easel.Proofs.Program.Printed
import Easel.Proofs.Scope.History
import Easel.Proofs.Script.FreeNames
import Easel.Proofs.Script.Functions
import Easel.Proofs.Script.Literals
import Easel.Proofs.Script.Targets
import Easel.Proofs.Script.Visibility
import Easel.Proofs.Script.WellFormed
