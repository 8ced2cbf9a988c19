import SoftLogic.Circuit.Differences
import SoftLogic.Main
import SoftLogic.Netlist.Display
import SoftLogic.Proofs.Circuit.Cnf
import SoftLogic.Proofs.Circuit.Differences
import SoftLogic.Proofs.Circuit.Gradient
import SoftLogic.Proofs.Circuit.Memory
import SoftLogic.Proofs.Circuit.Refusals
import SoftLogic.Proofs.Circuit.Representation
import SoftLogic.Proofs.Circuit.Session
import SoftLogic.Proofs.Clause.Language
import SoftLogic.Proofs.Solver.Descent
import SoftLogic.Proofs.Solver.Verdict
import SoftLogic.Proofs.Text.Pieces
import SoftLogic.Proofs.Dimacs.Format
import SoftLogic.Proofs.Dimacs.Layout
import SoftLogic.Proofs.Clause.Spelling
import SoftLogic.Proofs.Program
import SoftLogic.Proofs.Circuit.RoundTrip
import SoftLogic.Proofs.Circuit.Building
import SoftLogic.Proofs.Circuit.Staleness
import SoftLogic.Proofs.Netlist.Recursion
import SoftLogic.Proofs.Netlist.Demand
import SoftLogic.Proofs.Netlist.Pull
import SoftLogic.Proofs.Netlist.Growth
import SoftLogic.Proofs.Netlist.Cached
import SoftLogic.Proofs.Netlist.Recall
import SoftLogic.Proofs.Clause.Conservation
import SoftLogic.Proofs.Clause.Appending
import SoftLogic.Proofs.Circuit.Margins
import SoftLogic.Proofs.Solver.Polarity
import SoftLogic.Proofs.Netlist.Reset
import SoftLogic.Proofs.Circuit.Statistics
import SoftLogic.Proofs.Netlist.Bench
import SoftLogic.Proofs.CommandLine.Run
