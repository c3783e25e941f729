import SmartOs.SmartPack.Canonical
import SmartOs.Process.StackPointer
import SmartOs.Vfs.Protection
import SmartOs.Net.TcpReceive
import SmartOs.Net.InflateCorrect
import SmartOs.Net.HpackTable
import SmartOs.Crypto.CaStore
import SmartOs.Crypto.X509Encode
import SmartOs.Crypto.Rsa
import SmartOs.SmartFs.Chunking
import SmartOs.SmartFs.JournalDurability
import SmartOs.Drivers.DiskFsHarmless
import SmartOs.Security.Fork
import SmartOs.Process.Wakeup
import SmartOs.Process.RoundRobin
import SmartOs.Memory.CowCorrect
import SmartOs.Process.ElfLoad
import SmartOs.SmartFs.Decompression
import SmartOs.SmartFs.Store
import SmartOs.Drivers.Fat32ReadBack
import SmartOs.Memory.PageFault
import SmartOs.Vfs.Listing
import SmartOs.Crypto.Sha2Correct
import SmartOs.Crypto.Poly1305Correct
import SmartOs.Crypto.TlsX25519Correct
import SmartOs.Net.TcpDemux
import SmartOs.Net.Dns
import SmartOs.Net.WebSocketFraming
import SmartOs.Net.JitCache
import SmartOs.Net.Png
import SmartOs.Net.CookieSites
import SmartOs.Net.Http2FlowControl
import SmartOs.Net.QpackRoundTrip
import SmartOs.Net.TlsRecord
import SmartOs.SmartPack.Accessors
import SmartOs.SmartPack.Pkg
import SmartOs.Security.Namespace
import SmartOs.Apps.Spreadsheet
