import JobBroker.Main
import JobBroker.Store.Faulty
import JobBroker.Proofs.Frame.Chunks
import JobBroker.Proofs.Frame.Units
import JobBroker.Proofs.Engine.Conservation
import JobBroker.Proofs.Engine.Execution
import JobBroker.Proofs.Engine.Results
import JobBroker.Proofs.Queue.Roster
import JobBroker.Proofs.Engine.Recovery
import JobBroker.Proofs.Engine.Wakefulness
import JobBroker.Proofs.Engine.Leftovers
import JobBroker.Proofs.Packet.RoundTrip
import JobBroker.Proofs.Packet.Canonical
import JobBroker.Proofs.Broker.Course
import JobBroker.Proofs.Broker.Legible
import JobBroker.Proofs.Broker.Fidelity
import JobBroker.Proofs.Packet.Grammar
import JobBroker.Proofs.Queue.Counts
import JobBroker.Proofs.Engine.Statistics
import JobBroker.Proofs.Engine.Absence
import JobBroker.Proofs.Engine.Announcements
import JobBroker.Proofs.Engine.ByHandle
import JobBroker.Proofs.Engine.Admission
import JobBroker.Proofs.Engine.Matching
import JobBroker.Proofs.Engine.WakeUps
import JobBroker.Proofs.Engine.SleepSets
import JobBroker.Proofs.Broker.Listings
import JobBroker.Proofs.Job.Sequence
import JobBroker.Proofs.Frame.Residue
import JobBroker.Proofs.Engine.Isolation
import JobBroker.Proofs.Engine.History
import JobBroker.Proofs.WaitLists.Registrations
import JobBroker.Proofs.Store.Agreement
import JobBroker.Proofs.Store.Contents
import JobBroker.Proofs.Settings.Sources
