import SmartConfig.Lib.Nibble
import SmartConfig.Lib.Mealy
import SmartConfig.Lib.ChainCode
import SmartConfig.Lib.CriticalSection
import SmartConfig.Lib.Linearizable
import SmartConfig.Lib.Traced
import SmartConfig.Lib.Discipline
import SmartConfig.Lib.Resource
import SmartConfig.Lib.PartialRun
import SmartConfig.Lib.Factory
import SmartConfig.Lib.Await
import SmartConfig.Lib.BitField
import SmartConfig.Lib.BitLayout
import SmartConfig.Common
import SmartConfig.SmartCode
import SmartConfig.Iface
import SmartConfig.Iface.Monitor
import SmartConfig.Bitstream.Basic
import SmartConfig.Bitstream.Events
import SmartConfig.Bitstream.Meaning
import SmartConfig.Bitstream.Write
import SmartConfig.Bitstream.Golomb
import SmartConfig.Bitstream.Bytes
import SmartConfig.Bitstream.Acts
import SmartConfig.Bitstream.Stream
import SmartConfig.Bitstream.Defined
import SmartConfig.Bitstream.Codec
import SmartConfig.Bitstream.Format
import SmartConfig.Bitstream.Ahead
import SmartConfig.Wlan80211
import SmartConfig.Wlan80211.Accepted
import SmartConfig.Wlan80211.Events
import SmartConfig.SmartLinkTx.Basic
import SmartConfig.SmartLinkTx.Frames
import SmartConfig.SmartLinkTx.Verified
import SmartConfig.SmartLinkTx.Memory
import SmartConfig.SmartLinkTx.Concurrent
import SmartConfig.SmartLinkTx.Lifecycle
import SmartConfig.SmartLinkTx.Closing
import SmartConfig.SmartLinkRx.Basic
import SmartConfig.SmartLinkRx.Received
import SmartConfig.SmartLinkRx.Source
import SmartConfig.SmartLinkRx.Invariant
import SmartConfig.SmartLinkRx.Start
import SmartConfig.SmartLinkRx.Process
import SmartConfig.SmartLinkRx.Bounds
import SmartConfig.SmartLinkRx.Nested
import SmartConfig.SmartLinkRx.Init
import SmartConfig.SmartLinkRx.Lifecycle
import SmartConfig.SmartLinkRx.Threads
import SmartConfig.SmartLinkRx.Undisturbed
import SmartConfig.SmartLinkRx.Teardown
import SmartConfig.SmartLinkRx.Join
import SmartConfig.SmartLinkRx.Progress
import SmartConfig.Message
import SmartConfig.Link.InStep
import SmartConfig.Link.Roundtrip
import SmartConfig.Link.Tolerance
import SmartConfig.Link.Delivery
import SmartConfig.Link.FirstDelivery
import SmartConfig.Link.Repetition
import SmartConfig.Link.LateStart
import SmartConfig.Link.Duplicate
import SmartConfig.Link.Capture
import SmartConfig.Link.Deaf
import SmartConfig.Link.Contention
import SmartConfig.Demo
import SmartConfig.Lib.Steps
import SmartConfig.SmartLinkRx.Radio
