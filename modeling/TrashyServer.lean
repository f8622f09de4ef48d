import TrashyServer.Lib.Runs
import TrashyServer.Lib.Relay
import TrashyServer.Lib.Loop
import TrashyServer.Lib.Blocks
import TrashyServer.Lib.Search
import TrashyServer.Lib.Pattern
import TrashyServer.Lib.Tiles
import TrashyServer.Lib.Follow
import TrashyServer.Lib.Rfc1321
import TrashyServer.Lib.Paths
import TrashyServer.Lib.LittleEndian
import TrashyServer.Lib.Pipeline
import TrashyServer.Lib.Desk
import TrashyServer.Str
import TrashyServer.Stream
import TrashyServer.Echo.Model
import TrashyServer.Echo.Service
import TrashyServer.Echo.Proofs.Instance
import TrashyServer.Echo.Proofs.Stream
import TrashyServer.Echo.Proofs.Ownership
import TrashyServer.Echo.Client
import TrashyServer.Echo.Net
import TrashyServer.Echo.Proofs.Link
import TrashyServer.Parse.Model
import TrashyServer.Parse.Proofs.Scan
import TrashyServer.Parse.Proofs.Accept
import TrashyServer.Parse.Proofs.Classify
import TrashyServer.Parse.Proofs.Tile
import TrashyServer.Parse.Proofs.Verdict
import TrashyServer.Tool.HttpParse
import TrashyServer.Tool.Message
import TrashyServer.Tool.Proofs.Construct
import TrashyServer.Tool.Proofs.Dispatch
import TrashyServer.Server.Model
import TrashyServer.Server.Pages
import TrashyServer.Server.Proofs.Contain
import TrashyServer.Server.Proofs.Leftover
import TrashyServer.Digest.Model
import TrashyServer.Digest.Proofs.Feed
import TrashyServer.Digest.Transform
import TrashyServer.Digest.Proofs.Transform
import TrashyServer.Digest.Proofs.Ask
import TrashyServer.Config.Model
import TrashyServer.Config.Proofs.Load
import TrashyServer.Config.Proofs.Render
import TrashyServer.Config.Proofs.Setting
import TrashyServer.Config.Proofs.Ends
import TrashyServer.Config.Proofs.Safe
import TrashyServer.Config.Proofs.Depend
import TrashyServer.Config.Proofs.Resolve
import TrashyServer.Dir.Model
import TrashyServer.Dir.Proofs.Handles
import TrashyServer.Dir.Proofs.Exact
import TrashyServer.Server.Deliver
import TrashyServer.Server.Proofs.Deliver
import TrashyServer.Server.Put
import TrashyServer.Server.Proofs.Put
import TrashyServer.Log.Model
import TrashyServer.Log.Proofs.Expand
import TrashyServer.Server.Proofs.Overrun
import TrashyServer.Server.Proofs.Arrays
import TrashyServer.Tool.Proofs.Header
import TrashyServer.Server.Proofs.Body
import TrashyServer.Server.Proofs.Suffix
import TrashyServer.Tool.Proofs.FromString
import TrashyServer.Tool.Proofs.Split
import TrashyServer.Config.Proofs.Normal
import TrashyServer.Digest.Proofs.Coding
import TrashyServer.Digest.Proofs.Count
import TrashyServer.Echo.Proofs.RoundTrip
import TrashyServer.Echo.Proofs.Turns
import TrashyServer.Echo.Proofs.Progress
import TrashyServer.Server.Respond
import TrashyServer.Server.Run
import TrashyServer.Server.Proofs.Run
import TrashyServer.Server.Proofs.Batch
import TrashyServer.Server.Proofs.Survive
import TrashyServer.Server.Proofs.Sealed
import TrashyServer.Server.Site
import TrashyServer.Server.Proofs.Site
import TrashyServer.Digest.Proofs.Tail
import TrashyServer.Server.Proofs.Answers
import TrashyServer.Server.Proofs.Drain
import TrashyServer.Lib.Head
import TrashyServer.Server.Status
import TrashyServer.Config.Proofs.Port
import TrashyServer.Log.Proofs.Literal
import TrashyServer.Server.Logs
import TrashyServer.Server.Proofs.ReadBack
import TrashyServer.Server.Proofs.Logs
import TrashyServer.Server.Proofs.FileServer
