import Tapecraft.Directory
import Tapecraft.Main
import Tapecraft.Program.Block
import Tapecraft.Synthesis.Plan
import Tapecraft.Proofs.Program.Layout
import Tapecraft.Proofs.Program.Walk
import Tapecraft.Proofs.Program.Balance
import Tapecraft.Proofs.Program.Matching
import Tapecraft.Proofs.Program.Composition
import Tapecraft.Proofs.Program.Extension
import Tapecraft.Proofs.Program.Mirror
import Tapecraft.Proofs.Machine.Run
import Tapecraft.Proofs.Machine.Visited
import Tapecraft.Proofs.Machine.Ceilings
import Tapecraft.Proofs.Machine.PlainTape
import Tapecraft.Proofs.Machine.InputCycle
import Tapecraft.Proofs.Machine.MissingInput
import Tapecraft.Proofs.Machine.Accounting
import Tapecraft.Proofs.Snippet.Drain
import Tapecraft.Proofs.Snippet.Carry
import Tapecraft.Proofs.Snippet.Passes
import Tapecraft.Proofs.Snippet.Sound
import Tapecraft.Proofs.Snippet.Optimal
import Tapecraft.Proofs.Snippet.Halting
import Tapecraft.Proofs.Snippet.Settling
import Tapecraft.Proofs.Synthesis.RoundTrip
import Tapecraft.Proofs.Synthesis.Shortest
import Tapecraft.Proofs.RunLength.Expansion
import Tapecraft.Proofs.RunLength.Maximal
import Tapecraft.Proofs.Text.Numeral
import Tapecraft.Proofs.Inputs.Grammar
import Tapecraft.Proofs.Program.Disassembly
import Tapecraft.Proofs.Synthesis.Continuation
import Tapecraft.Proofs.Cli.Configuration
import Tapecraft.Proofs.Cli.Formats
import Tapecraft.Proofs.Cli.Session
import Tapecraft.Proofs.Cli.Stages
import Tapecraft.Proofs.Cli.Conventions
import Tapecraft.Proofs.Cli.Words
