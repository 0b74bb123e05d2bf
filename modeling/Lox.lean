import Lox.Main
import Lox.Proofs.Sessions
import Lox.Proofs.Lines
import Lox.Proofs.ParserComplete
import Lox.Proofs.Relexing
import Lox.Proofs.ResolverComplete
import Lox.Proofs.Transport
import Lox.Proofs.Ebnf
import Lox.Proofs.Restoring
import Lox.Proofs.Composition
import Lox.Proofs.Munching
import Lox.Proofs.Binding
import Lox.Proofs.Origins
import Lox.Proofs.Renaming
import Lox.Proofs.Exactness
import Lox.Proofs.Cutoffs
import Lox.Proofs.CallDepth
import Lox.Proofs.Truncation
import Lox.Proofs.Enclosing
import Lox.Proofs.Provenance
import Lox.Proofs.Receivers
import Lox.Proofs.Numbers
import Lox.Proofs.Layout
import Lox.Proofs.Returns
import Lox.Proofs.Redundancy
import Lox.Proofs.Printing
import Lox.Proofs.Progress
import Lox.Proofs.Isolating
import Lox.Proofs.Lowering
import Lox.Proofs.Stamping
import Lox.Proofs.Spacing
import Lox.Proofs.Forests
import Lox.Proofs.Globals
import Lox.Proofs.Hierarchies
import Lox.Proofs.Constructions
import Lox.Proofs.ReadBack
import Lox.Proofs.Outlines
import Lox.Proofs.Charging
