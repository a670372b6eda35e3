import Z80Board.Proofs.Chip.Wiring
import Z80Board.Proofs.Isa.Templates
import Z80Board.Rig.Trace
import Z80Board.Watch.Probe
import Z80Board.Proofs.Chip.Course
import Z80Board.Proofs.Chip.Cycles
import Z80Board.Proofs.Chip.Diagram
import Z80Board.Proofs.Chip.Edges
import Z80Board.Proofs.Chip.Tally
import Z80Board.Proofs.Chip.Buses
import Z80Board.Proofs.Rig.Answer
import Z80Board.Proofs.Rig.Stores
import Z80Board.Proofs.Chip.Deferral
import Z80Board.Proofs.Rig.Stops
import Z80Board.Proofs.Chip.Logic
import Z80Board.Proofs.Rig.Ports
import Z80Board.Proofs.Rig.Gist
import Z80Board.Proofs.Rig.Stalls
import Z80Board.Proofs.Chip.Protocol
import Z80Board.Proofs.Rig.Waits
import Z80Board.Proofs.Chip.Arbitration
import Z80Board.Proofs.Chip.Latches
import Z80Board.Proofs.Chip.Supply
import Z80Board.Proofs.Chip.Residue
import Z80Board.Proofs.Chip.Afresh
import Z80Board.Proofs.Rig.Restart
import Z80Board.Proofs.Chip.Grants
import Z80Board.Proofs.Rig.Drivers
import Z80Board.Proofs.Isa.Scan
import Z80Board.Proofs.Chip.Pointers
import Z80Board.Proofs.Chip.Prefixes
import Z80Board.Proofs.Rig.Reading
import Z80Board.Proofs.Chip.FlipFlops
import Z80Board.Proofs.Chip.Lifecycle
import Z80Board.Proofs.Rig.Chronicle
import Z80Board.Proofs.Rig.Leftovers
import Z80Board.Proofs.Rig.Handlers
import Z80Board.Proofs.Rig.Pauses
import Z80Board.Proofs.Rig.Resumption
import Z80Board.Proofs.Chip.Guises
import Z80Board.Proofs.Rig.Scripts
import Z80Board.Proofs.Rig.Breakpoints
import Z80Board.Proofs.Rig.Spans
import Z80Board.Proofs.Rig.Blocks
import Z80Board.Proofs.Rig.Repeats
import Z80Board.Proofs.Rig.Doubles
import Z80Board.Proofs.Rig.Pushes
import Z80Board.Proofs.Rig.Redirections
import Z80Board.Proofs.Rig.Arrivals
import Z80Board.Proofs.Rig.Modes
import Z80Board.Proofs.Rig.WordLoads
import Z80Board.Proofs.Rig.Pulses
import Z80Board.Proofs.Rig.Registry
import Z80Board.Proofs.Rig.Accesses
import Z80Board.Proofs.Rig.Stepping
import Z80Board.Proofs.Rig.PortBlocks
import Z80Board.Proofs.Arith.Words
import Z80Board.Proofs.Rig.Programs
import Z80Board.Proofs.Rig.Standstill
import Z80Board.Proofs.Chip.Counters
import Z80Board.Proofs.Rig.Reflections
import Z80Board.Proofs.Isa.Encodings
import Z80Board.Proofs.Rig.Remains
