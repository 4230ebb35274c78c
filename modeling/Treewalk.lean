import Treewalk.Assoc
import Treewalk.Main
import Treewalk.Proofs.Arrays.Callbacks
import Treewalk.Proofs.Arrays.Rendering
import Treewalk.Proofs.Grammar.Acceptance
import Treewalk.Proofs.Grammar.ArrayLiterals
import Treewalk.Proofs.Grammar.Growth
import Treewalk.Proofs.Grammar.Progress
import Treewalk.Proofs.Grammar.Rereading
import Treewalk.Proofs.Joining.Recovery
import Treewalk.Proofs.Joining.Run
import Treewalk.Proofs.Running.Access
import Treewalk.Proofs.Running.Buffering
import Treewalk.Proofs.Running.Compounds
import Treewalk.Proofs.Running.Constants
import Treewalk.Proofs.Running.Contents
import Treewalk.Proofs.Running.Depth
import Treewalk.Proofs.Running.Encounters
import Treewalk.Proofs.Running.Escapes
import Treewalk.Proofs.Running.Exhaustion
import Treewalk.Proofs.Running.ForLoops
import Treewalk.Proofs.Running.Iterations
import Treewalk.Proofs.Running.Receivers
import Treewalk.Proofs.Running.Reporting
import Treewalk.Proofs.Running.ScopeTree
import Treewalk.Proofs.Running.Soundness
import Treewalk.Proofs.Running.Sparing
import Treewalk.Proofs.Running.Termination
import Treewalk.Proofs.Running.This
import Treewalk.Proofs.Running.Timeouts
import Treewalk.Proofs.Scanning.Lexemes
import Treewalk.Proofs.Scanning.Literals
import Treewalk.Proofs.Scanning.LongestMatch
import Treewalk.Proofs.Scanning.Rescanning
import Treewalk.Proofs.Scanning.Segments
import Treewalk.Proofs.Scoping.AlphaEquivalence
import Treewalk.Proofs.Scoping.Layers
import Treewalk.Proofs.Scoping.Lexical
import Treewalk.Proofs.Scoping.Nesting
import Treewalk.Proofs.Scoping.Noting
import Treewalk.Proofs.Scoping.Parity
import Treewalk.Proofs.Scoping.Walking
import Treewalk.Proofs.Texts.Excerpts
import Treewalk.Proofs.Texts.Placement
import Treewalk.Proofs.Texts.Splitting
import Treewalk.Resolve.Survey
import Treewalk.Session.Host
