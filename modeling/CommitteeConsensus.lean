import CommitteeConsensus.Admission
import CommitteeConsensus.Bytes
import CommitteeConsensus.Certificate
import CommitteeConsensus.Codec
import CommitteeConsensus.Committee
import CommitteeConsensus.Config.Basic
import CommitteeConsensus.Config.Dump
import CommitteeConsensus.Config.Json
import CommitteeConsensus.Config.Number
import CommitteeConsensus.Config.Seconds
import CommitteeConsensus.Config.Value
import CommitteeConsensus.Controller.Basic
import CommitteeConsensus.Controller.Heights
import CommitteeConsensus.Controller.Inputs
import CommitteeConsensus.ElectionTimer
import CommitteeConsensus.Fault
import CommitteeConsensus.Keys
import CommitteeConsensus.Message.Basic
import CommitteeConsensus.Message.Encoding
import CommitteeConsensus.MessageLog
import CommitteeConsensus.MessageStore
import CommitteeConsensus.Metrics
import CommitteeConsensus.Proofs.Acts
import CommitteeConsensus.Proofs.Adoption
import CommitteeConsensus.Proofs.Agreement
import CommitteeConsensus.Proofs.Alignment
import CommitteeConsensus.Proofs.Announcements
import CommitteeConsensus.Proofs.Assembly
import CommitteeConsensus.Proofs.Backoff
import CommitteeConsensus.Proofs.Ballots
import CommitteeConsensus.Proofs.BinaryForm
import CommitteeConsensus.Proofs.Caching
import CommitteeConsensus.Proofs.Chronicle
import CommitteeConsensus.Proofs.CodecLaws
import CommitteeConsensus.Proofs.Concord
import CommitteeConsensus.Proofs.Conduct
import CommitteeConsensus.Proofs.Course
import CommitteeConsensus.Proofs.Decisions
import CommitteeConsensus.Proofs.Diligence
import CommitteeConsensus.Proofs.Discipline
import CommitteeConsensus.Proofs.Endurance
import CommitteeConsensus.Proofs.Evidence
import CommitteeConsensus.Proofs.Execution
import CommitteeConsensus.Proofs.Federation
import CommitteeConsensus.Proofs.FirstWins
import CommitteeConsensus.Proofs.Footprint
import CommitteeConsensus.Proofs.Frugality
import CommitteeConsensus.Proofs.Indexes
import CommitteeConsensus.Proofs.Lineage
import CommitteeConsensus.Proofs.Liveness
import CommitteeConsensus.Proofs.Lives
import CommitteeConsensus.Proofs.LogLaws
import CommitteeConsensus.Proofs.NestedMaps
import CommitteeConsensus.Proofs.Orderly
import CommitteeConsensus.Proofs.Passage
import CommitteeConsensus.Proofs.Phases
import CommitteeConsensus.Proofs.Playback
import CommitteeConsensus.Proofs.Polls
import CommitteeConsensus.Proofs.Promptness
import CommitteeConsensus.Proofs.Proposals
import CommitteeConsensus.Proofs.Quorums
import CommitteeConsensus.Proofs.Recall
import CommitteeConsensus.Proofs.Recovery
import CommitteeConsensus.Proofs.Redelivery
import CommitteeConsensus.Proofs.Refusal
import CommitteeConsensus.Proofs.Rejection
import CommitteeConsensus.Proofs.Retrial
import CommitteeConsensus.Proofs.Scopes
import CommitteeConsensus.Proofs.Scrutiny
import CommitteeConsensus.Proofs.SentMessages
import CommitteeConsensus.Proofs.Service
import CommitteeConsensus.Proofs.SingleShot
import CommitteeConsensus.Proofs.Situation
import CommitteeConsensus.Proofs.Soundness
import CommitteeConsensus.Proofs.Standing
import CommitteeConsensus.Proofs.Synchronization
import CommitteeConsensus.Proofs.Tables
import CommitteeConsensus.Proofs.TermRuns
import CommitteeConsensus.Proofs.Tolerance
import CommitteeConsensus.Proofs.Twins
import CommitteeConsensus.Proofs.Uniqueness
import CommitteeConsensus.Proofs.Upkeep
import CommitteeConsensus.Proofs.Vigilance
import CommitteeConsensus.Proofs.Waitlist
import CommitteeConsensus.Proofs.Warrants
import CommitteeConsensus.Rounding
import CommitteeConsensus.Session
import CommitteeConsensus.Sha256
import CommitteeConsensus.Simulation.Behaviour
import CommitteeConsensus.Simulation.Bench
import CommitteeConsensus.Simulation.Delivery
import CommitteeConsensus.Simulation.Digests
import CommitteeConsensus.Simulation.TimerBench
import CommitteeConsensus.Simulation.World
import CommitteeConsensus.Span
import CommitteeConsensus.Term.Basic
import CommitteeConsensus.Term.ViewChange
import CommitteeConsensus.Term.Voting
import CommitteeConsensus.Text
import CommitteeConsensus.Utf8
import CommitteeConsensus.Word
