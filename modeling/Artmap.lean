import Artmap.Framework.RelyGuarantee
import Artmap.Framework.Linearize
import Artmap.Raw.Walk
import Artmap.Shadow.Basic
import Artmap.Shadow.Step
import Artmap.Shadow.Commit
import Artmap.Tree.Client
import Artmap.Tree.Know
import Artmap.Tree.Rules
import Artmap.Tree.Nodes
import Artmap.Tree.Descent
import Artmap.Ops.Get
import Artmap.Tree.Pool
import Artmap.Shadow.Location
import Artmap.Tree.Guard
import Artmap.Forest.Chain
import Artmap.Shadow.Home
import Artmap.Forest.Leaves
import Artmap.Shadow.Changes
import Artmap.Arena.Alloc
import Artmap.Arena.Disjoint
import Artmap.Arena.Backing
import Artmap.Tree.Publish
import Artmap.Tree.Build
import Artmap.Ops.Place
import Artmap.Ops.Insert
import Artmap.Ops.Unlink
import Artmap.Ops.Follow
import Artmap.Ops.Remove
import Artmap.Ops.Clear
import Artmap.Ops.Shrink
import Artmap.Map.Ledger
import Artmap.Map.Steps
import Artmap.Map.Calls
import Artmap.Map.ArtMap
import Artmap.Map.History
import Artmap.Map.Structure
import Artmap.Map.Words
import Artmap.Map.Length
import Artmap.Map.Fate
import Artmap.Map.Valid
import Artmap.Map.ArenaArtMap
import Artmap.Map.VersionedCalls
import Artmap.Map.Checks
import Artmap.Layout.Simd
import Artmap.Layout.Prefix
import Artmap.Raw.Keys
import Artmap.Latch.Runs
import Artmap.Alone.Node
import Artmap.Alone.Chain
import Artmap.Map.Budget
import Artmap.Framework.Timeline
import Artmap.Versioned.Tree
import Artmap.Versioned.Spec
import Artmap.Versioned.Cells
import Artmap.Versioned.Ghost
import Artmap.Versioned.Steps
import Artmap.Versioned.Fresh
import Artmap.Versioned.Commit
import Artmap.Versioned.Rules
import Artmap.Versioned.Edits
import Artmap.Versioned.Leaves
import Artmap.Versioned.Walks
import Artmap.Versioned.Writers
import Artmap.Versioned.Pruning
import Artmap.Versioned.Calls
import Artmap.Versioned.Correct
import Artmap.Versioned.Handles
import Artmap.Versioned.Counter
import Artmap.Scan.Trees
