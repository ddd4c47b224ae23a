import OwopServer.World.Cache
import OwopServer.Database.Crash
import OwopServer.Library.Buffer
import OwopServer.Compression.Lossless
import OwopServer.Database.Props
import OwopServer.World.Loading
import OwopServer.World.Pixels
import OwopServer.Library.Runs
import OwopServer.World.Copies
import OwopServer.Arguments
import OwopServer.Commands
import OwopServer.Database.Reading
import OwopServer.Database.Settings
import OwopServer.Server.Events
import OwopServer.Server.Handlers
import OwopServer.Commands.Chains
import OwopServer.Server.Safety
import OwopServer.Server.Ranks
import OwopServer.Server.Isolation
import OwopServer.Server.Addresses
import OwopServer.Server.Lockdown
import OwopServer.World.Players
import OwopServer.Commands.Texts
import OwopServer.Commands.Nested
import OwopServer.Compression.Bounds
import OwopServer.World.Messages
import OwopServer.Server.Limits
import OwopServer.Server.Worlds
import OwopServer.Server.Names
import OwopServer.Server.Drawing
import OwopServer.Server.Unsaved
import OwopServer.Server.Contents
import OwopServer.Server.Range
import OwopServer.Server.Lists
import OwopServer.Server.Shutdown
import OwopServer.Commands.Nicks
import OwopServer.Commands.Numerals
import OwopServer.TaskBuffer
import OwopServer.AsyncHttpGetClient.Service
import OwopServer.WebSocket.Exchange
import OwopServer.WebSocket.Hub
import OwopServer.WebSocket.Delivery
import OwopServer.WebSocket.Group
import OwopServer.Server.Flood
import OwopServer.Main
