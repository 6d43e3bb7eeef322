import TransitionNetwork.IntervalSet.Text
import TransitionNetwork.IntervalSet.Words
import TransitionNetwork.Load
import TransitionNetwork.Stream.Words
import TransitionNetwork.Stream.CodecWords
import TransitionNetwork.Context.Interning
import TransitionNetwork.Context.Merge
import TransitionNetwork.Context.Nodes
import TransitionNetwork.CallChain
import TransitionNetwork.Lookahead.Query
import TransitionNetwork.Proofs.IntervalSet.Representation
import TransitionNetwork.Proofs.IntervalSet.Queries
import TransitionNetwork.Proofs.Network.ActionPayloads
import TransitionNetwork.Proofs.Stream.Reading
import TransitionNetwork.Proofs.Network.WrittenPart
import TransitionNetwork.Proofs.Network.DerivedParts
import TransitionNetwork.Proofs.Stream.RoundTrip
import TransitionNetwork.Proofs.Stream.Rewriting
import TransitionNetwork.Proofs.Stream.LoadedLinks
import TransitionNetwork.Proofs.Stream.Consumption
import TransitionNetwork.Proofs.Stream.FaultlessLoads
import TransitionNetwork.Proofs.Context.Stacks
import TransitionNetwork.Proofs.Context.Matching
import TransitionNetwork.Proofs.Context.MergeOrder
import TransitionNetwork.Proofs.Lookahead.Agreement
import TransitionNetwork.Proofs.Lookahead.QueryHistories
import TransitionNetwork.Proofs.Lookahead.Termination
import TransitionNetwork.Proofs.Context.CacheTransparency
import TransitionNetwork.Proofs.Context.RepeatedMerges
import TransitionNetwork.Proofs.Context.NodeForms
import TransitionNetwork.Proofs.Context.OperandReuse
import TransitionNetwork.Proofs.Context.StableInterning
import TransitionNetwork.Proofs.Context.CacheHistories
import TransitionNetwork.Proofs.Context.Enumeration
import TransitionNetwork.Proofs.Network.BypassLanguage
import TransitionNetwork.Proofs.Network.RefusedBypasses
import TransitionNetwork.Proofs.Stream.LoadedDecisions
import TransitionNetwork.Proofs.Stream.LoadedReturns
import TransitionNetwork.Proofs.Lookahead.Alternatives
import TransitionNetwork.Proofs.Lookahead.RestoredCalls
import TransitionNetwork.Proofs.Stream.LoadedFlags
import TransitionNetwork.Proofs.Context.SharedParents
import TransitionNetwork.Proofs.Context.MixedSessions
import TransitionNetwork.Proofs.Context.Unfolding
import TransitionNetwork.Proofs.Stream.Identifiers
import TransitionNetwork.Proofs.Stream.UnitCodec
