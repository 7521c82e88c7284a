import ScriptMachine.Boundary
import ScriptMachine.Proofs.Constants
import ScriptMachine.Proofs.Convention
import ScriptMachine.Proofs.Encoding
import ScriptMachine.Proofs.Environment
import ScriptMachine.Proofs.Generations
import ScriptMachine.Proofs.Hexadecimal
import ScriptMachine.Proofs.Insertion
import ScriptMachine.Proofs.Ledger
import ScriptMachine.Proofs.Leftovers
import ScriptMachine.Proofs.Messages
import ScriptMachine.Proofs.Positions
import ScriptMachine.Proofs.Rendering
import ScriptMachine.Proofs.Sessions
import ScriptMachine.Proofs.Tiling
import ScriptMachine.Proofs.Validity
