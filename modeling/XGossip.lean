import XGossip.Lib.SortedMap
import XGossip.Lib.Codec
import XGossip.Lib.Text
import XGossip.Lib.Gf2
import XGossip.Lib.Rounding
import XGossip.Lib.Occurrences
import XGossip.Lib.Prog
import XGossip.Lib.CoverTree
import XGossip.Lib.Exchange
import XGossip.Lib.Tiling
import XGossip.NodeParams
import XGossip.Sig
import XGossip.Wire.Format
import XGossip.Wire.RoundTrip
import XGossip.Gossip.Lists
import XGossip.Gossip.Merge
import XGossip.Gossip.Peer
import XGossip.Gossip.Network
import XGossip.Gossip.Mass
import XGossip.Gossip.PushSum
import XGossip.Gossip.Team
import XGossip.Gossip.Init
import XGossip.Gossip.Coverage
import XGossip.Gossip.InitState
import XGossip.Gossip.InitFile
import XGossip.Gossip.FinalMerge
import XGossip.Wire.Compress
import XGossip.Index.Poly
import XGossip.Index.Division
import XGossip.Index.Lcm
import XGossip.Index.Block
import XGossip.Index.Encode
import XGossip.Index.Retry
import XGossip.Index.Similarity
import XGossip.Index.Node
import XGossip.Index.Client
import XGossip.Index.Intervals
import XGossip.Index.Query
import XGossip.Index.Tree
import XGossip.Index.Lock
import XGossip.Index.Split
import XGossip.Index.Crash
import XGossip.Index.Inserts
import XGossip.Index.Concurrent
import XGossip.Index.Stored
import XGossip.Index.Replica
import XGossip.Index.Database
import XGossip.Index.Filter
import XGossip.Index.PickChild
import XGossip.Index.Words
import XGossip.Index.Arithmetic
import XGossip.Index.SplitMaps
import XGossip.Index.SplitNodeV
import XGossip.Wire.Bounds
import XGossip.Gossip.ReadGossip
import XGossip.Gossip.Descriptors
import XGossip.Gossip.Lsh
import XGossip.Index.DocKeys
import XGossip.Index.Overflow
import XGossip.Index.RangeLcm
import XGossip.Index.ValueMerge
import XGossip.Index.Verify
import XGossip.Index.SigData
import XGossip.Index.SplitLoops
import XGossip.Index.FindMod
import XGossip.Gossip.LshKeys
import XGossip.Gossip.LshBounds
import XGossip.Gossip.UniqueSet
import XGossip.Wire.Columns
import XGossip.Gossip.Signcmp
import XGossip.Gossip.RunQuery
import XGossip.Gossip.MergeByTeam
import XGossip.Gossip.Results
import XGossip.Gossip.TeamRing
import XGossip.Index.Multiply
import XGossip.Index.ValList
import XGossip.Gossip.PushSumMsg
import XGossip.Gossip.MinHash
import XGossip.Index.NodeCache
import XGossip.Index.Eviction
import XGossip.Gossip.Estimates
import XGossip.Gossip.Phases
import XGossip.Chord.IdUtils
import XGossip.Merkle.Hash
import XGossip.Merkle.Tree
import XGossip.Merkle.Canon
import XGossip.Merkle.Sync
import XGossip.Merkle.Reconcile
import XGossip.Merkle.SyncRuns
import XGossip.Index.ValueQuery
import XGossip.Lib.Elimination
import XGossip.Dhash.Ida
import XGossip.Dhash.Dispersal
import XGossip.Dhash.Reconstruct
import XGossip.Lib.Circle
import XGossip.Chord.LocationTable
import XGossip.Chord.VNode
import XGossip.Chord.Lookup
import XGossip.Chord.Hops
import XGossip.Chord.Stabilize
import XGossip.Lib.Nearest
import XGossip.Chord.LocationCache
import XGossip.Dhash.Retrieve
