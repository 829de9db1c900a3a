import FuzzLang.CommandLine.Execute
import FuzzLang.Host.Machine
import FuzzLang.Main
import FuzzLang.Viewer.Keys
import FuzzLang.Viewer.State
import FuzzLang.Proofs.Compile.Injective
import FuzzLang.Proofs.Outline.Split
import FuzzLang.Proofs.Outline.Nesting
import FuzzLang.Proofs.Target.Stream
import FuzzLang.Proofs.Grammar.Tiling
import FuzzLang.Proofs.Location
import FuzzLang.Proofs.Token.Munch
import FuzzLang.Proofs.Token.Reading
import FuzzLang.Proofs.Token.Seam
import FuzzLang.Proofs.Grammar.Relocate
import FuzzLang.Proofs.Target.Unplaced
import FuzzLang.Proofs.Compile.Append
import FuzzLang.Proofs.Compile.Spacing
import FuzzLang.Proofs.Compile.Culprit
import FuzzLang.Proofs.Compile.Places
import FuzzLang.Proofs.Compile.Guarantees
import FuzzLang.Proofs.Viewer.Selection
import FuzzLang.Proofs.Viewer.InView
import FuzzLang.Proofs.Outline.WellFormed
import FuzzLang.Proofs.Outline.Interleave
import FuzzLang.Proofs.Outline.Blocks
import FuzzLang.Proofs.Grammar.Braces
import FuzzLang.Proofs.Grammar.Extension
import FuzzLang.Proofs.Grammar.Punctuation
import FuzzLang.Proofs.Host.Effects
import FuzzLang.Proofs.Token.Written
import FuzzLang.Proofs.Grammar.ReadBack
import FuzzLang.Proofs.Compile.Literals
import FuzzLang.Proofs.Double.Positional
import FuzzLang.Proofs.Token.Doubles
import FuzzLang.Proofs.Compile.Typed
import FuzzLang.Proofs.Screen.Fitting
import FuzzLang.Proofs.Viewer.Scrolling
import FuzzLang.Proofs.Token.Order
import FuzzLang.Proofs.Settings
import FuzzLang.Proofs.Token.Words
import FuzzLang.Proofs.Viewer.Highlight
import FuzzLang.Proofs.Viewer.Agreement
