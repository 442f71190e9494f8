import ULoader.Lib.StepSystem
import ULoader.Lib.ByteOrder
import ULoader.Lib.Ring
import ULoader.Lib.Timer
import ULoader.Lib.Lines
import ULoader.Lib.Numeral
import ULoader.Lib.Blocks
import ULoader.Lib.Pieces
import ULoader.Lib.Links
import ULoader.Tftp.Client
import ULoader.Tftp.Lifecycle
import ULoader.Tftp.Server
import ULoader.Tftp.LockStep
import ULoader.Tftp.Retransmission
import ULoader.Tftp.Strangers
import ULoader.Tftp.Request
import ULoader.Tftp.Datagram
import ULoader.Shell.Parser
import ULoader.Shell.Read
import ULoader.Shell.Dump
import ULoader.Net.Dhcp
import ULoader.Net.Netconf
import ULoader.Net.System
import ULoader.Net.Settled
import ULoader.Net.Waiting
import ULoader.Net.Fallback
import ULoader.Net.Timers
import ULoader.Net.Client
import ULoader.Console.Usart
import ULoader.Console.MainLoop
import ULoader.Console.Lines
import ULoader.Console.Loss
import ULoader.Eth.Memory
import ULoader.Eth.Descriptors
import ULoader.Eth.Input
import ULoader.Eth.Receive
import ULoader.Eth.Segments
import ULoader.Eth.Output
import ULoader.Eth.Transmit
import ULoader.Eth.Wire
import ULoader.Mem.Heap
import ULoader.Mem.Layout
import ULoader.Mem.Clients
import ULoader.Arp.Table
import ULoader.Arp.Cache
import ULoader.Ip.Fragments
import ULoader.Ip.Reassembly
import ULoader.Ip.Eviction
import ULoader.Ip.Queue
import ULoader.Ip.Delivery
import ULoader.Udp.Pcbs
import ULoader.Udp.Bindings
import ULoader.Udp.Demux
import ULoader.Udp.Delivery
