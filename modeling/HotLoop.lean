import HotLoop.Main
import HotLoop.Scenario.Changes
import HotLoop.Scenario.Failing
import HotLoop.Proofs.Walk.Simple
import HotLoop.Proofs.Compile.Turns
import HotLoop.Proofs.Runs.Entries
import HotLoop.Proofs.Runs.Links
import HotLoop.Proofs.Compile.NoCode
import HotLoop.Proofs.Consistency.Walk
import HotLoop.Proofs.Consistency.Code
import HotLoop.Proofs.Compile.Loading
import HotLoop.Proofs.Consistency.Calls
import HotLoop.Proofs.Consistency.Submitted
import HotLoop.Proofs.Kinds.Walk
import HotLoop.Proofs.Kinds.Code
import HotLoop.Proofs.Kinds.Calls
import HotLoop.Proofs.Replay.Recorder
import HotLoop.Proofs.Kinds.Replay
import HotLoop.Proofs.Compile.Continuing
import HotLoop.Proofs.Failing.Nesting
import HotLoop.Proofs.Resume.Objects
import HotLoop.Proofs.Failing.Forcing
import HotLoop.Proofs.Resume.Carrying
import HotLoop.Proofs.Replay.Conversion
import HotLoop.Proofs.Replay.Rerunning
import HotLoop.Proofs.Replay.Books
import HotLoop.Proofs.Replay.Finding
import HotLoop.Proofs.Runs.Dependents
import HotLoop.Proofs.Replay.Decoding
import HotLoop.Proofs.Replay.Safety
import HotLoop.Proofs.Collection.Handles
import HotLoop.Proofs.Failing.Counting
import HotLoop.Proofs.Resume.Requests
import HotLoop.Proofs.Failing.Resuming
import HotLoop.Proofs.Walk.PureCalls
import HotLoop.Proofs.Walk.Rewalking
import HotLoop.Proofs.Walk.Entering
import HotLoop.Proofs.Walk.Tables
import HotLoop.Proofs.Consistency.Visible
