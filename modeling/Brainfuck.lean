import Brainfuck.Main
import Brainfuck.Proofs.Causality
import Brainfuck.Proofs.Decoding
import Brainfuck.Proofs.Diagnostics
import Brainfuck.Proofs.JumpsBack
import Brainfuck.Proofs.Nesting
import Brainfuck.Proofs.Refinement
import Brainfuck.Proofs.Replay
import Brainfuck.Proofs.Schedules
import Brainfuck.Proofs.Spelling
import Brainfuck.Proofs.TapeHistory
import Brainfuck.Proofs.Translation
import Brainfuck.Proofs.Visited
import Brainfuck.Proofs.ExactWords
import Brainfuck.Proofs.ReportShape
import Brainfuck.Proofs.Projection
import Brainfuck.Proofs.Interruption
import Brainfuck.Proofs.TapeRow
import Brainfuck.Observer
