import FiniteState.Automaton.Complete
import FiniteState.Automaton.Pattern
import FiniteState.Main
import FiniteState.Proofs.Automaton.Agreement
import FiniteState.Proofs.Automaton.Canonical
import FiniteState.Proofs.Automaton.Closure
import FiniteState.Proofs.Automaton.Compare
import FiniteState.Proofs.Automaton.Complement
import FiniteState.Proofs.Automaton.Defect
import FiniteState.Proofs.Automaton.Distance
import FiniteState.Proofs.Automaton.Emptiness
import FiniteState.Proofs.Automaton.Idempotence
import FiniteState.Proofs.Automaton.Isomorphism
import FiniteState.Proofs.Automaton.Minimise
import FiniteState.Proofs.Automaton.Naming
import FiniteState.Proofs.Automaton.Reachable
import FiniteState.Proofs.Automaton.Rearranged
import FiniteState.Proofs.Automaton.Renaming
import FiniteState.Proofs.Automaton.Swap
import FiniteState.Proofs.Command.Equivalence
import FiniteState.Proofs.Command.Outcome
import FiniteState.Proofs.Command.Printed
import FiniteState.Proofs.Net.Reachable
import FiniteState.Proofs.Net.Shape
import FiniteState.Proofs.Regex.Alphabet
import FiniteState.Proofs.Regex.Compile
import FiniteState.Proofs.Regex.Fault
import FiniteState.Proofs.Regex.Grammar
import FiniteState.Proofs.Regex.Lacking
import FiniteState.Proofs.Regex.Parens
import FiniteState.Proofs.Regex.Printer
import FiniteState.Proofs.Splice.Dangling
import FiniteState.Proofs.Table.Invariant
import FiniteState.Proofs.Text.Primed
import FiniteState.Proofs.Tracer
import FiniteState.Regex.Collapse
import FiniteState.Regex.Grammar
import FiniteState.Table.Correspondence
