import RoomScript.Assembly
import RoomScript.Pacing
import RoomScript.Program.Block
import RoomScript.Program.Walk
import RoomScript.Proofs.Relocation
import RoomScript.Proofs.Session
import RoomScript.Proofs.Structured.Code
import RoomScript.Proofs.Structured.Typing
import RoomScript.Proofs.Termination
import RoomScript.Proofs.WellNested
import RoomScript.Proofs.Structured.Eval
import RoomScript.Proofs.Structured.Steps
import RoomScript.Proofs.Structured.Simulation
import RoomScript.Proofs.Meaning
import RoomScript.Proofs.Representation
import RoomScript.Proofs.Provenance
import RoomScript.Proofs.Subroutine
import RoomScript.Proofs.Tick
import RoomScript.Proofs.Dispatch.Visits
import RoomScript.Proofs.Frame
import RoomScript.Proofs.Dispatch.Access
import RoomScript.Proofs.Dispatch.Lockstep
import RoomScript.Proofs.Sight
import RoomScript.Proofs.Independence
import RoomScript.Proofs.Assembly.Draft
import RoomScript.Proofs.Assembly
import RoomScript.Proofs.Block
import RoomScript.Proofs.Record
import RoomScript.Proofs.Pacing
import RoomScript.Proofs.Dispatch.Again
import RoomScript.Proofs.Retry
import RoomScript.Proofs.Dispatch.Scan
import RoomScript.Proofs.Failure
import RoomScript.Proofs.Outcome
import RoomScript.Proofs.Dispatch.Open
import RoomScript.Proofs.Sleep
import RoomScript.Proofs.Switch
import RoomScript.Proofs.Calculation
import RoomScript.Proofs.Store
