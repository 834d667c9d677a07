import Lerux.Base.Ring
import Lerux.Base.SlotTable
import Lerux.Ahci.Driver
import Lerux.Ahci.Transfer
import Lerux.Base.Buffer
import Lerux.Base.Bytes
import Lerux.Base.Checked
import Lerux.Base.Steps
import Lerux.Base.Calendar
import Lerux.Base.LittleEndian
import Lerux.Base.Rijndael
import Lerux.Base.Streaming
import Lerux.Base.Digest
import Lerux.Base.Conc
import Lerux.Base.Calls
import Lerux.Base.Answers
import Lerux.Base.Fifo
import Lerux.Base.Outcome
import Lerux.Base.Text
import Lerux.Base.Search
import Lerux.Base.Slice
import Lerux.Base.Reference
import Lerux.Sddf.RingWord
import Lerux.Sddf.Timer
import Lerux.Sddf.NetQueue
import Lerux.Sddf.SerialQueue
import Lerux.Sddf.ByteQueue
import Lerux.Sddf.RecordQueues
import Lerux.Sddf.RecordPath
import Lerux.Sddf.RingHistory
import Lerux.Cothread.Runtime
import Lerux.Cothread.Invariant
import Lerux.Cothread.Runs
import Lerux.FatFs.Server
import Lerux.FatFs.Cache
import Lerux.FatFs.Directory
import Lerux.FatFs.Reachable
import Lerux.FatFs.Visibility
import Lerux.FatFs.Volume
import Lerux.FatFs.WriteBack
import Lerux.FatFs.Effect
import Lerux.FatFs.Format
import Lerux.FatFs.Allocation
import Lerux.FatFs.Answers
import Lerux.FatFs.Listing
import Lerux.FatFs.Names
import Lerux.FatFs.Contents
import Lerux.FatFs.Mounted
import Lerux.FatFs.ReadBounds
import Lerux.FatFs.Access
import Lerux.Serial.Transmit
import Lerux.Serial.Order
import Lerux.Serial.Wakeup
import Lerux.Serial.Receive
import Lerux.Blk.Path
import Lerux.Blk.Conserve
import Lerux.Gpu.Path
import Lerux.Gpu.Pairing
import Lerux.Gate.Rings
import Lerux.Gpu.Driver
import Lerux.Gpu.Accesses
import Lerux.Desk.Url
import Lerux.Desk.Hosts
import Lerux.Desk.Scheme
import Lerux.Desk.Parts
import Lerux.Desk.Resolve
import Lerux.Desk.Chrome
import Lerux.Desk.Loads
import Lerux.Desk.Mode
import Lerux.Desk.Editing
import Lerux.Desk.Slices
import Lerux.Posix.Files
import Lerux.Posix.Descriptors
import Lerux.Posix.Matching
import Lerux.Posix.Sockets
import Lerux.Base.Preorder
import Lerux.Html.Token
import Lerux.Html.Tree
import Lerux.Html.WellFormed
import Lerux.Html.Serialise
import Lerux.Usb.Descriptors
import Lerux.Xhci.Rings
import Lerux.Xhci.Laps
import Lerux.Pci.Walks
import Lerux.Pci.Lists
import Lerux.Web.Css
import Lerux.Web.Recovery
import Lerux.Web.Rules
import Lerux.Web.Preludes
import Lerux.Wasm.Envelope
import Lerux.Web.Cascade
import Lerux.Web.Layout
import Lerux.Web.BoxModel
import Lerux.Web.Typeset
import Lerux.Web.Runs
import Lerux.Web.Font
import Lerux.Web.Paint
import Lerux.Calc.Parser
import Lerux.Calc.Grammar
import Lerux.Calc.Output
import Lerux.Base.Check
import Lerux.Base.Exact
import Lerux.Base.Tree
import Lerux.Base.Writes
import Lerux.Base.Records
import Lerux.Swift.Nvme
import Lerux.Swift.Reads
import Lerux.Swift.Queues
import Lerux.Swift.FatFile
import Lerux.Swift.Attributes
import Lerux.Swift.Ntfs
import Lerux.Swift.DiskSafe
import Lerux.Swift.Dhcp
import Lerux.Swift.DhcpReply
import Lerux.Swift.Aes
import Lerux.Swift.Rijndael
import Lerux.Swift.Ccmp
import Lerux.Swift.Opening
import Lerux.Swift.Crypto
import Lerux.Swift.Digests
import Lerux.Swift.Eapol
import Lerux.Swift.Station
import Lerux.Swift.Lease
import Lerux.Swift.Handshake
import Lerux.Swift.Keys
import Lerux.Ladybird.Bitmap
import Lerux.Ladybird.Display
import Lerux.Ladybird.Url
import Lerux.E1000e.Rings
import Lerux.DeviceImage.Assign
import Lerux.DeviceImage.Closed
import Lerux.DeviceImage.Model
import Lerux.E1000e.Frames
import Lerux.E1000e.Runs
import Lerux.Base.Pattern
import Lerux.Cli.Channels
import Lerux.Cli.Qos
import Lerux.Cli.Profiles
import Lerux.Cli.System
import Lerux.Console.Keyboard
import Lerux.Console.Screen
import Lerux.Input.KeyRing
import Lerux.Input.Set1
import Lerux.Bcm2711.Rings
import Lerux.Bcm2711.Frames
import Lerux.Bcm2711.Pumps
import Lerux.Bcm2711.Emmc2
import Lerux.Bcm2711.Sectors
import Lerux.Mt7921.Receive
import Lerux.Mt7921.Frames
import Lerux.Mt7921.Transmit
import Lerux.Mt7921.Posts
import Lerux.Mt7921.Firmware
import Lerux.Usb.Descriptors
import Lerux.Xhci.Rings
import Lerux.Xhci.Laps
import Lerux.Pci.Walks
import Lerux.Pci.Lists
import Lerux.Http.Response
