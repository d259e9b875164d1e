import Colloquy.CommandLine
import Colloquy.Machine.Cell
import Colloquy.Machine.Census
import Colloquy.Main
import Colloquy.Tree.Walk
import Colloquy.Proofs.Arena.Keeping
import Colloquy.Proofs.Termination
import Colloquy.Proofs.Arena.Culling
import Colloquy.Proofs.Closures
import Colloquy.Proofs.Returns
import Colloquy.Proofs.Compile.Verification
import Colloquy.Proofs.Direct.Sessions
import Colloquy.Proofs.Twin.Sessions
import Colloquy.Proofs.RoundTrip
import Colloquy.Proofs.Arena.Custody
import Colloquy.Proofs.HostCalls
import Colloquy.Proofs.Compile.Layout
import Colloquy.Proofs.Compile.Addressing
import Colloquy.Proofs.Compile.Generation
import Colloquy.Proofs.Alterations
import Colloquy.Proofs.Lifetimes
import Colloquy.Proofs.CallSites
import Colloquy.Proofs.Renaming.Sessions
import Colloquy.Proofs.Footprint
import Colloquy.Proofs.Answers
import Colloquy.Proofs.DepthLimit
import Colloquy.Proofs.Dispatch
import Colloquy.Proofs.Compile.Separate
import Colloquy.Proofs.Compile.Warnings
import Colloquy.Proofs.Trimmed.Sessions
import Colloquy.Proofs.Compile.Numbering
import Colloquy.Proofs.Integers
import Colloquy.Proofs.Arrays
import Colloquy.Proofs.Interning
import Colloquy.Proofs.Listings
import Colloquy.Proofs.Quoting
import Colloquy.Proofs.Compile.Searching
import Colloquy.Proofs.Arena.Bookkeeping
import Colloquy.Proofs.Decimals
import Colloquy.Proofs.Counted.Rooted
