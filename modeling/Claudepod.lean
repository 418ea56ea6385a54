import Claudepod.HostGrammar
import Claudepod.Buffers
import Claudepod.Negotiation
import Claudepod.Greeting
import Claudepod.Alignment
import Claudepod.Manifest
import Claudepod.Course
import Claudepod.Connections
import Claudepod.RunFiles
import Claudepod.CacheKey
import Claudepod.SubIds
import Claudepod.Ports
import Claudepod.WireCodec
import Claudepod.Project
import Claudepod.ManifestFile
import Claudepod.Transparency
import Claudepod.Termination
import Claudepod.Lockstep
import Claudepod.OpWord
import Claudepod.Noninterference
import Claudepod.Drain
import Claudepod.Nesting
import Claudepod.Devices
import Claudepod.Process
import Claudepod.ManifestCache
import Claudepod.Sockets
