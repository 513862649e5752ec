import Rift.Clock.Skew
import Rift.Driver.Atomicity
import Rift.Driver.Durability
import Rift.Kv.Collection
import Rift.Hlc.Causality
import Rift.Kv.Versions
import Rift.Engine.Watermark
import Rift.Driver.Median
import Rift.Driver.Reroute
import Rift.Engine.Cursors
import Rift.Engine.FileNames
import Rift.Model.Durability
import Rift.Driver.EngineKeys
import Rift.Net.Frame
import Rift.Sim.Queue
import Rift.Rng.Draws
import Rift.Engine.Refinement
import Rift.Engine.Replay
import Rift.Kv.Conflicts
import Rift.Raft.Leadership
