import WirelessSpeakers.Soundness.Freshness
import WirelessSpeakers.Soundness.Mute
import WirelessSpeakers.Soundness.MenuState
import WirelessSpeakers.Soundness.PortSwitch
import WirelessSpeakers.Soundness.StatusMenu
import WirelessSpeakers.Soundness.SelectedSource
import WirelessSpeakers.Soundness.Segmentation
import WirelessSpeakers.Soundness.IndexRestart
import WirelessSpeakers.Soundness.PortReply
import WirelessSpeakers.Soundness.NetbufDiscipline
import WirelessSpeakers.Soundness.StatusReport
import WirelessSpeakers.Soundness.Rejected
import WirelessSpeakers.Soundness.ClockSelect
import WirelessSpeakers.Soundness.Refusals
import WirelessSpeakers.Soundness.OscillatorFields
import WirelessSpeakers.Soundness.StartUp
import WirelessSpeakers.Soundness.ClockMonitors
import WirelessSpeakers.Soundness.PllFrequency
import WirelessSpeakers.Soundness.PllRange
import WirelessSpeakers.Soundness.BorrowedSettings
import WirelessSpeakers.Soundness.FeeRoutes
import WirelessSpeakers.Soundness.ReferenceLimit
import WirelessSpeakers.Soundness.ExactResults
import WirelessSpeakers.Soundness.OscillatorCheck
import WirelessSpeakers.Soundness.HeapUse
import WirelessSpeakers.Soundness.PbufUse
import WirelessSpeakers.Soundness.PbufData
import WirelessSpeakers.Soundness.InetChksum
import WirelessSpeakers.Soundness.UdpTransfer
