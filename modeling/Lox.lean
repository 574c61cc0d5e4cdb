import Lox.Main
import Lox.Proofs.Addressing
import Lox.Proofs.ByteItems
import Lox.Proofs.CommandsAgree
import Lox.Proofs.Constructors
import Lox.Proofs.ForLoops
import Lox.Proofs.Forest
import Lox.Proofs.FreshNodes
import Lox.Proofs.LexicalDistance
import Lox.Proofs.MissingSemicolon
import Lox.Proofs.NumeralCorrect
import Lox.Proofs.ParseBounds
import Lox.Proofs.ParseCorrect
import Lox.Proofs.Pieces
import Lox.Proofs.PrintedTrees
import Lox.Proofs.RenameLocal
import Lox.Proofs.Rerun
import Lox.Proofs.Respaced
import Lox.Proofs.Returns
import Lox.Proofs.RuntimeFlag
import Lox.Proofs.ScanCorrect
import Lox.Proofs.ScopeRules
import Lox.Proofs.ScopesAgree
import Lox.Proofs.ShortestDecimals
import Lox.Proofs.StageGate
import Lox.Proofs.StaticSuper
import Lox.Proofs.Truncation
import Lox.Syntax.Equality
import Lox.Syntax.Reference
